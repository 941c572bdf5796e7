import Mathlib.Data.List.Basic
import Mathlib.Data.List.Induction
import ServoPulse.Pins.Outputs
import ServoPulse.Proofs.Success

/-!
# Calls to a bank of outputs

A bank of outputs is a router: every call goes to the first slot of the pin that it names, as one
write of the level that it asks for, and a call for a pin without a slot goes nowhere
(`calls_to_outputs`). What the bank answers about a pin is decided by the last call that names it
(`PinCall.last?`); the outputs are never asked, so it does not matter which of them follow.

One call drives the pin that it names (`PinCall.run_onBank`), so that a list of calls is a fold, and
what holds after it goes by induction on its end, where the last call is.
-/

namespace ServoPulse

/-! ### Calls -/

/-- A call to a pin. -/
inductive PinCall where
  | configureOutput (pin : Nat)
  | setHigh (pin : Nat)
  | setLow (pin : Nat)
  deriving DecidableEq

namespace PinCall

/-- The pin that a call names. -/
def pin : PinCall → Nat
  | configureOutput pin => pin
  | setHigh pin => pin
  | setLow pin => pin

/-- The level that a call asks for. A pin that is made an output is driven low. -/
def level : PinCall → Bool
  | configureOutput _ => false
  | setHigh _ => true
  | setLow _ => false

/-- The call to a bank of pins, at the time `now`. -/
def onBank {P : Type} [PinBank P] (now : Nat) : PinCall → Action P Unit
  | configureOutput pin => modify (PinBank.configureOutput pin)
  | setHigh pin => PinBank.setHigh now pin
  | setLow pin => PinBank.setLow now pin

/-- The last call that names a pin. -/
def last? (pin : Nat) (calls : List PinCall) : Option PinCall :=
  (calls.filter (·.pin = pin)).getLast?

variable {calls : List PinCall} {k : PinCall} {pin : Nat}

theorem level_iff : k.level = true ↔ k = setHigh k.pin := by
  cases k with
  | configureOutput => exact iff_of_false nofun nofun
  | setHigh => exact iff_of_true rfl rfl
  | setLow => exact iff_of_false nofun nofun

/-- A call is the last one of its pin, and says nothing about the others. -/
theorem last?_concat :
    last? pin (calls ++ [k]) = if pin = k.pin then some k else last? pin calls := by
  rw [last?, last?, List.filter_append, List.filter_singleton]
  by_cases h : pin = k.pin
  · rw [if_pos h, decide_eq_true h.symm, cond_true, List.getLast?_concat]
  · rw [if_neg h, decide_eq_false (Ne.symm h), cond_false, List.append_nil]

theorem run_onBank (now : Nat) (p : Profile) (b : OutputBank) :
    (k.onBank now).run p b = .ok () (b.drive k.pin k.level) := by
  cases k <;> rfl

end PinCall

namespace OutputBank

/-- What a list of calls makes of a bank. -/
def driveAll (b : OutputBank) (calls : List PinCall) : OutputBank :=
  calls.foldl (fun b k => b.drive k.pin k.level) b

variable {b : OutputBank} {calls : List PinCall} {k : PinCall} {pin slot : Nat}

theorem driveAll_concat : b.driveAll (calls ++ [k]) = (b.driveAll calls).drive k.pin k.level :=
  List.foldl_concat _ _ _ _

theorem run_calls (calls : List PinCall) (now : Nat) (p : Profile) (b : OutputBank) :
    (calls.forM (·.onBank now)).run p b = .ok () (b.driveAll calls) := by
  induction calls generalizing b with
  | nil => exact Action.run_forM_nil_eq_ok_iff.2 rfl
  | cons k calls ih => exact Action.run_forM_cons_eq_ok_iff.2 ⟨_, k.run_onBank now p b, ih _⟩

theorem ids_driveAll : (b.driveAll calls).ids = b.ids := by
  induction calls using List.reverseRecOn with
  | nil => rfl
  | append_singleton calls k ih => rw [driveAll_concat, ids_drive, ih]

/-! ### Writes -/

/-- The slot of a pin is the first one with its number. -/
theorem first_of_slot? (h : b.slot? pin = some slot) :
    b.ids[slot]? = some pin ∧ ∀ i < slot, b.ids[i]? ≠ some pin := by
  obtain ⟨h_lt, h_pin, h_first⟩ := List.idxOf?_eq_some_iff.1 h
  refine ⟨List.getElem?_eq_some_iff.2 ⟨h_lt, h_pin⟩, fun i h_i h_eq => h_first i h_i ?_⟩
  exact (List.getElem?_eq_some_iff.1 h_eq).2

theorem exists_slot? (h : pin ∈ b.ids) : ∃ slot, b.slot? pin = some slot :=
  Option.isSome_iff_exists.1 (List.isSome_idxOf?.2 h)

/-- A call is one write, if its pin has a slot. -/
theorem writes_drive (pin : Nat) (level : Bool) (b : OutputBank) :
    (b.drive pin level).writes = b.writes ++ ((b.slot? pin).map (·, level)).toList := by
  unfold drive
  cases b.slot? pin with
  | none => exact (List.append_nil _).symm
  | some slot => exact List.reverse_cons

theorem writes_driveAll (calls : List PinCall) (b : OutputBank) :
    (b.driveAll calls).writes =
      b.writes ++ calls.filterMap fun k => (b.slot? k.pin).map (·, k.level) := by
  induction calls using List.reverseRecOn with
  | nil => exact (List.append_nil _).symm
  | append_singleton calls k ih =>
    -- the slots of a bank stay where they are
    have h_slot : (b.driveAll calls).slot? k.pin = b.slot? k.pin := by
      rw [slot?, ids_driveAll, slot?]
    rw [driveAll_concat, writes_drive, ih, h_slot, List.append_assoc, List.filterMap_append,
      List.filterMap_cons, List.filterMap_nil]
    cases b.slot? k.pin <;> rfl

/-! ### Levels -/

/-- The last call that names a pin of a low bank decides its level. -/
theorem isHigh_driveAll_iff (h_size : b.ids.length ≤ 32) (h_low : ∀ pin, b.isHigh pin = false)
    (calls : List PinCall) (pin : Nat) :
    (b.driveAll calls).isHigh pin = true ↔
      pin ∈ b.ids ∧ PinCall.last? pin calls = some (.setHigh pin) := by
  induction calls using List.reverseRecOn with
  | nil =>
    -- all pins of a new bank are low
    rw [show (b.driveAll []).isHigh pin = false from h_low pin]
    exact iff_of_false Bool.false_ne_true fun h_and => nomatch h_and.2
  | append_singleton calls k ih =>
    have h_ids : (b.driveAll calls).ids = b.ids := ids_driveAll
    rw [driveAll_concat, PinCall.last?_concat]
    -- the last call sets its pin, and leaves the others
    by_cases h_listed : k.pin ∈ b.ids
    · rw [isHigh_drive (h_ids.symm ▸ h_size) (h_ids.symm ▸ h_listed)]
      by_cases h_pin : pin = k.pin
      · subst h_pin
        rw [if_pos rfl, if_pos rfl, Option.some.injEq, PinCall.level_iff, and_iff_right h_listed]
      · rw [if_neg h_pin, if_neg h_pin, ih]
    · -- a pin without a slot is not high, whatever it is told
      rw [drive_eq_self (h_ids.symm ▸ h_listed), ih]
      refine and_congr_right fun h_mem => ?_
      have h_pin : pin ≠ k.pin := fun h_eq => h_listed (h_eq ▸ h_mem)
      rw [if_neg h_pin]

/-! ### Runs of calls -/

theorem run_make {ids : List Nat} (h_size : ids.length ≤ 32) (failing : List Nat) (p : Profile) :
    (make ids failing).run p = .ok { ids, failing } := by
  rw [make, Checked.run_bind, decide_eq_true h_size]
  cases p <;> rfl

/-- **Calls to a bank of outputs.** A bank of up to 32 outputs, of which any may fail, serves every
list of calls. What was written is for each call of a listed pin, in order, the level that it asks
for, to the slot of the pin, and a pin is high exactly if it is listed and the last call that names
it set it high. One more call writes once, to the first slot of its pin, or it changes nothing. -/
theorem calls_to_outputs {ids : List Nat} (h_size : ids.length ≤ 32) (failing : List Nat)
    (calls : List PinCall) (now : Nat) (p : Profile) :
    ∃ new b : OutputBank, (make ids failing).run p = .ok new ∧
      (calls.forM (·.onBank now)).run p new = .ok () b ∧
      b.writes = calls.filterMap (fun k => (ids.idxOf? k.pin).map (·, k.level)) ∧
      (∀ pin, b.isHigh pin = true ↔
        pin ∈ ids ∧ PinCall.last? pin calls = some (.setHigh pin)) ∧
      ∀ k : PinCall, ∃ b' : OutputBank, (k.onBank now).run p b = .ok () b' ∧
        (k.pin ∈ ids → ∃ slot, ids[slot]? = some k.pin ∧ (∀ i < slot, ids[i]? ≠ some k.pin) ∧
          b'.writes = b.writes ++ [(slot, k.level)]) ∧
        (k.pin ∉ ids → b' = b) := by
  let new : OutputBank := { ids, failing }
  have h_ids : (new.driveAll calls).ids = ids := ids_driveAll
  refine ⟨new, new.driveAll calls, run_make h_size failing p, run_calls calls now p new,
    writes_driveAll calls new, isHigh_driveAll_iff h_size (isHigh_new ids failing) calls,
    fun k => ⟨_, k.run_onBank now p _, fun h_listed => ?_, fun h_listed => ?_⟩⟩
  · -- a pin with several slots is written to the first one
    obtain ⟨slot, h_slot⟩ := exists_slot? (b := new.driveAll calls) (h_ids.symm ▸ h_listed)
    obtain ⟨h_at, h_first⟩ := first_of_slot? h_slot
    rw [h_ids] at h_at h_first
    refine ⟨slot, h_at, h_first, ?_⟩
    rw [writes_drive, h_slot]
    rfl
  · -- a pin without a slot is written nowhere
    exact drive_eq_self (h_ids.symm ▸ h_listed) k.level

/-- Pin 2 has two slots, the first of which fails, and pin 9 has none. -/
theorem calls_to_outputs_twoSlots :
    [2, 3, 2].length ≤ 32 ∧ ∃ new b b' : OutputBank,
      (make [2, 3, 2] [0]).run .debug = .ok new ∧
      ([.setHigh 2, .setLow 3, .setHigh 9].forM (PinCall.onBank 0)).run .debug new = .ok () b ∧
      b.writes = [(0, true), (1, false)] ∧ b.isHigh 2 = true ∧ b.isHigh 9 = false ∧
      (PinCall.onBank 0 (.configureOutput 2)).run .debug b = .ok () b' ∧
      b'.writes = [(0, true), (1, false), (0, false)] := by
  have h_size : [2, 3, 2].length ≤ 32 := by decide
  obtain ⟨new, b, h_make, h_run, h_writes, h_high, h_next⟩ :=
    calls_to_outputs h_size [0] [.setHigh 2, .setLow 3, .setHigh 9] 0 .debug
  obtain ⟨b', h_call, h_slot, -⟩ := h_next (.configureOutput 2)
  obtain ⟨slot, h_at, h_first, h_writes'⟩ := h_slot (by decide)
  have h_zero : slot = 0 := by
    by_contra h_ne
    exact h_first 0 (Nat.pos_of_ne_zero h_ne) rfl
  refine ⟨h_size, new, b, b', h_make, h_run, h_writes, (h_high 2).2 (by decide), ?_, h_call, ?_⟩
  · exact Bool.eq_false_iff.2 fun h => absurd ((h_high 9).1 h).1 (by decide)
  · rw [h_writes', h_writes, h_zero]
    rfl

end OutputBank

end ServoPulse
