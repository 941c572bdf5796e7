import ServoPulse.Pins.Bank

/-!
# A bank of digital outputs

An `OutputBank` makes a pin bank of single outputs that know only "high" and "low". Slot
`i` of the bank is the output for the `i`-th pin number; where a number is listed twice,
its first slot is used.

An output may fail to follow. The bank cannot report that, and its own level mask follows
the request, so that it stays in step with the engine (`isHigh` never asks the outputs).
The mask has 32 bits, one for each slot; the number of a slot counts modulo 32.
-/

namespace ServoPulse

/-- Digital outputs addressed by pin number. -/
structure OutputBank where
  /-- The pin number of each slot. -/
  ids : List Nat
  /-- The slots whose outputs fail. -/
  failing : List Nat := []
  /-- Every write to an output, the last one first: the slot and the level. -/
  written : List (Nat × Bool) := []
  /-- The level asked for last, by slot. -/
  levels : Vector Bool 32 := Vector.replicate 32 false

namespace OutputBank

/-- A bank with all outputs low. The mask has room for 32 of them. -/
def make (ids failing : List Nat) : Checked OutputBank := do
  Checked.require (ids.length ≤ 32) .bankTooLarge
  return { ids, failing }

/-- The first slot of a pin. -/
def slot? (b : OutputBank) (pin : Nat) : Option Nat := b.ids.idxOf? pin

/-- Writes a level to the output of a slot. The answer is whether the output followed. -/
def write (b : OutputBank) (slot : Nat) (level : Bool) : Bool × OutputBank :=
  (!b.failing.contains slot, { b with written := (slot, level) :: b.written })

/-- The bit of the mask for a slot. -/
def bit (slot : Nat) : Fin 32 := ⟨slot % 32, Nat.mod_lt slot (by decide)⟩

/-- Notes the level of a slot in the mask. -/
def note (b : OutputBank) (slot : Nat) (level : Bool) : OutputBank :=
  { b with levels := b.levels.set (bit slot) level }

/-- Drives a pin to a level, whether or not its output follows. -/
def drive (pin : Nat) (level : Bool) (b : OutputBank) : OutputBank :=
  match b.slot? pin with
  | some slot => (b.write slot level).2.note slot level
  | none => b

/-- Whether the last level asked of a pin is high. -/
def isHigh (b : OutputBank) (pin : Nat) : Bool :=
  match b.slot? pin with
  | some slot => b.levels[bit slot]
  | none => false

/-- The pins up to 255 that are driven high, in ascending order. -/
def highPins (b : OutputBank) : List Nat := (List.range 256).filter b.isHigh

/-- Every write to an output, in order. -/
def writes (b : OutputBank) : List (Nat × Bool) := b.written.reverse

/-- The bank with its writes so far forgotten. -/
def clearWrites (b : OutputBank) : OutputBank := { b with written := [] }

instance : PinBank OutputBank where
  eligible := ids
  configureOutput pin := drive pin false
  setHigh _ pin := modify (drive pin true)
  setLow _ pin := modify (drive pin false)
  isHigh := isHigh

/-! ### Levels -/

variable {b : OutputBank} {pin other slot : Nat}

/-- A new bank is low. -/
theorem isHigh_new (ids failing : List Nat) (pin : Nat) :
    ({ ids, failing } : OutputBank).isHigh pin = false := by
  unfold isHigh
  split
  · rename_i slot _
    change (Vector.replicate 32 false)[bit slot] = false
    rw [Fin.getElem_fin, Vector.getElem_replicate]
  · rfl

theorem ids_drive (pin : Nat) (level : Bool) (b : OutputBank) :
    (b.drive pin level).ids = b.ids := by
  unfold drive
  split <;> rfl

/-- Different slots have different bits of the mask, as long as it has a bit for each. -/
theorem bit_inj {slot' : Nat} (h : slot < 32) (h' : slot' < 32) (h_eq : bit slot = bit slot') :
    slot = slot' := by
  have h_val : slot % 32 = slot' % 32 := congrArg Fin.val h_eq
  rwa [Nat.mod_eq_of_lt h, Nat.mod_eq_of_lt h'] at h_val

theorem slot?_lt (h_small : b.ids.length ≤ 32) (h : b.slot? pin = some slot) : slot < 32 := by
  obtain ⟨h_lt, -⟩ := List.idxOf?_eq_some_iff.1 h
  exact Nat.lt_of_lt_of_le h_lt h_small

/-- A pin is found in a slot that is for it, so no two pins share a slot. -/
theorem slot?_inj (h : b.slot? pin = some slot) (h_other : b.slot? other = some slot) :
    other = pin := by
  obtain ⟨_, h_pin, -⟩ := List.idxOf?_eq_some_iff.1 h
  obtain ⟨_, h_other, -⟩ := List.idxOf?_eq_some_iff.1 h_other
  exact h_other.symm.trans h_pin

/-- A request changes the level of its pin alone, if the bank has a slot for it. -/
theorem isHigh_drive (h_small : b.ids.length ≤ 32) (h_pin : pin ∈ b.ids) (level : Bool)
    (other : Nat) :
    (b.drive pin level).isHigh other = if other = pin then level else b.isHigh other := by
  obtain ⟨slot, h_slot⟩ := Option.isSome_iff_exists.1 (List.isSome_idxOf?.2 h_pin)
  have h_same : (b.drive pin level).slot? other = b.slot? other := by
    rw [slot?, ids_drive, slot?]
  have h_levels : (b.drive pin level).levels = b.levels.set (bit slot) level := by
    rw [drive, show b.slot? pin = some slot from h_slot]
    rfl
  unfold isHigh
  rw [h_same]
  by_cases h_eq : other = pin
  · rw [if_pos h_eq, h_eq, show b.slot? pin = some slot from h_slot]
    change (b.drive pin level).levels[bit slot] = level
    simp only [h_levels, Fin.getElem_fin, Vector.getElem_set_self]
  · rw [if_neg h_eq]
    cases h_other : b.slot? other with
    | none => rfl
    | some place =>
      have h_bits : bit slot ≠ bit place := fun h_bit => by
        obtain rfl := bit_inj (slot?_lt h_small h_slot) (slot?_lt h_small h_other) h_bit
        exact h_eq (slot?_inj h_slot h_other)
      change (b.drive pin level).levels[bit place] = b.levels[bit place]
      simp only [h_levels, Fin.getElem_fin]
      exact Vector.getElem_set_ne _ _ fun h_val => h_bits (Fin.ext h_val)

/-- A request for another pin does nothing. -/
theorem drive_eq_self (h_pin : pin ∉ b.ids) (level : Bool) : b.drive pin level = b := by
  rw [drive, show b.slot? pin = none from List.idxOf?_eq_none_iff.2 h_pin]

end OutputBank

end ServoPulse
