import Mathlib.Data.Finset.Card
import ServoPulse.Proofs.Endings
import ServoPulse.Proofs.Outputs
import ServoPulse.Proofs.Scripts

/-!
# How many violations an engine can make

The pins of the channels are outputs, and all that the recorder refuses on an output is a rise of a
pin that is high. An engine raises a pin only after all pending falls were carried out. So a pin
that is refused then is high though no fall is pending for it, which makes it a *stray*
(`PinRecorder.strays`); since its fall is pending now, it is no stray any longer.

The violations so far and the strays together (`PinRecorder.owed`) therefore do not grow while an
engine serves its interrupts, whichever of them come late. They grow where pending falls are
forgotten, as in a stop that gives up waiting, and then by no more than there are pins
(`Engine.Owes.ends_start`, `Engine.Owes.ends_stop`).
-/

namespace ServoPulse

/-! ### Pins -/

namespace PinRecorder

variable {p : Profile} {level : Bool} {now pin : Nat} {held held' : List Nat} {r r' : PinRecorder}

/-- What driving a pin that can be driven does to the levels. A violation is counted at most for a
rise of a pin that is high. -/
structure Driven (level : Bool) (pin : Nat) (r r' : PinRecorder) : Prop where
  isHigh_eq : ∀ other, r'.isHigh other = if other = pin then level else r.isHigh other
  drivable_iff : ∀ other, r'.Drivable other ↔ r.Drivable other
  violations_le : r'.violations ≤ r.violations + if level && r.isHigh pin then 1 else 0

/-- The pin has the level already. -/
theorem Driven.of_pins_eq (h_level : r.isHigh pin = level) (h_pins : r'.pins = r.pins)
    (h_violations : r'.violations ≤ r.violations + if level && r.isHigh pin then 1 else 0) :
    Driven level pin r r' where
  isHigh_eq other := by
    -- no level changes, as the pin already has the one of the request
    rw [isHigh_congr h_pins]
    split
    · rename_i h_eq
      rw [h_eq, h_level]
    · rfl
  drivable_iff other := by
    unfold Drivable
    rw [isOutput_congr h_pins]
  violations_le := h_violations

/-- The pin changes its level. -/
theorem Driven.of_setState (roseAt : Nat) (h : r.Drivable pin)
    (h_pins : r'.pins = (r.setState pin (if level then .high roseAt else .low)).pins)
    (h_violations : r'.violations = r.violations) : Driven level pin r r' where
  isHigh_eq other := by
    rw [isHigh_congr h_pins, isHigh_setState h.1]
    split
    · cases level <;> rfl
    · rfl
  drivable_iff other := by
    unfold Drivable
    rw [isOutput_congr h_pins, isOutput_setState h.1]
    split
    · rename_i h_eq
      rw [h_eq, h.2]
      cases level <;> exact Iff.rfl
    · rfl
  violations_le := by
    rw [h_violations]
    exact Nat.le_add_right _ _

theorem ends_violate (h_level : r.isHigh pin = true) :
    Action.Ends p violate r (fun _ => Driven true pin r) (Driven true pin r) := by
  refine .get_bind ?_
  unfold Action.Ends
  rw [Action.run_bind, Action.run_liftM]
  -- a count that is full traps before anything is written
  cases h_add : (Checked.add .bits32 r.violations 1).run p with
  | error trap => exact .of_pins_eq h_level rfl (Nat.le_add_right _ _)
  | ok violations =>
    refine .of_pins_eq h_level rfl ?_
    rw [h_level]
    exact Checked.le_of_run_add h_add

/-- Driving a pin that can be driven, also where that traps. -/
theorem ends_drive (h : r.Drivable pin) :
    Action.Ends p (PinBank.drive level now pin) r (fun _ => Driven level pin r)
      (Driven level pin r) := by
  rw [drive_eq, if_pos h.1]
  cases level with
  | true =>
    refine .get_bind ?_
    cases h_state : r.state pin with
    | unconfigured => exact absurd h_state h.state_ne
    | low => exact .of_setState now h rfl rfl
    | high roseAt => exact ends_violate (by rw [isHigh, h_state])
  | false =>
    -- only a rise of a pin that is high is counted
    refine .get_bind ?_
    cases h_state : r.state pin with
    | unconfigured => exact absurd h_state h.state_ne
    | low => exact .of_pins_eq (by rw [isHigh, h_state]) rfl (Nat.le_add_right _ _)
    | high roseAt =>
      -- the pin is low before its pulse is measured
      refine .modify_bind (.liftM_bind (fun width => ?_) ?_)
      · exact .of_setState now h rfl rfl
      · exact .of_setState now h rfl rfl

/-- The pins that are high though none of those held. -/
def strays (r : PinRecorder) (held : List Nat) : Finset Nat :=
  eligiblePins.toFinset.filter fun pin => r.isHigh pin = true ∧ pin ∉ held

/-- The violations so far, and those that the strays may still make. -/
def owed (r : PinRecorder) (held : List Nat) : Nat := r.violations + (r.strays held).card

theorem mem_strays :
    pin ∈ r.strays held ↔ pin ∈ eligiblePins ∧ r.isHigh pin = true ∧ pin ∉ held := by
  rw [strays, Finset.mem_filter, List.mem_toFinset]

theorem owed_anti (h : held ⊆ held') : r.owed held' ≤ r.owed held := by
  refine Nat.add_le_add_left (Finset.card_le_card fun pin h_pin => ?_) _
  obtain ⟨h_eligible, h_high, h_not⟩ := mem_strays.1 h_pin
  exact mem_strays.2 ⟨h_eligible, h_high, fun h_mem => h_not (h h_mem)⟩

theorem owed_le_add (r : PinRecorder) (held : List Nat) : r.owed held ≤ r.violations + maxServos :=
  Nat.add_le_add_left (Finset.card_filter_le _ _) _

/-- A pin that falls need not be held any longer. -/
theorem owed_of_fall (h : Driven false pin r r') : r'.owed held ≤ r.owed (pin :: held) := by
  refine Nat.add_le_add h.violations_le (Finset.card_le_card fun other h_other => ?_)
  obtain ⟨h_eligible, h_high, h_not⟩ := mem_strays.1 h_other
  rw [h.isHigh_eq] at h_high
  split at h_high
  · cases h_high
  · rename_i h_ne
    exact mem_strays.2 ⟨h_eligible, h_high, fun h_mem => (List.mem_cons.1 h_mem).elim h_ne h_not⟩

/-- A pin that rises is held, and if that is a violation then it was a stray. -/
theorem owed_of_rise (h : Driven true pin r r') (h_pin : pin ∈ eligiblePins) (h_not : pin ∉ held) :
    r'.owed (pin :: held) ≤ r.owed held := by
  -- the pin itself is the only stray that is lost, and it is one if its rise is refused
  have h_subset : r'.strays (pin :: held) ⊆ (r.strays held).erase pin := by
    intro other h_other
    obtain ⟨h_eligible, h_high, h_other⟩ := mem_strays.1 h_other
    rw [List.mem_cons, not_or] at h_other
    obtain ⟨h_ne, h_other⟩ := h_other
    rw [h.isHigh_eq, if_neg h_ne] at h_high
    exact Finset.mem_erase.2 ⟨h_ne, mem_strays.2 ⟨h_eligible, h_high, h_other⟩⟩
  have h_card := Finset.card_le_card h_subset
  have h_violations := h.violations_le
  unfold owed
  cases h_high : r.isHigh pin with
  | true =>
    -- the rise is refused: one more violation, and one stray less
    have h_stray : pin ∈ r.strays held := mem_strays.2 ⟨h_pin, h_high, h_not⟩
    have h_one := Finset.card_erase_add_one h_stray
    rw [h_high] at h_violations
    simp only [Bool.and_self, if_true] at h_violations
    omega
  | false =>
    -- the rise is carried out, and the pin was no stray
    have h_erase : ((r.strays held).erase pin).card ≤ (r.strays held).card := Finset.card_erase_le
    rw [h_high] at h_violations
    simp only [Bool.and_false, Bool.false_eq_true, if_false] at h_violations
    omega

/-- The pins on the two lists are outputs, no pin is listed twice, and no more than `n` violations
are owed. -/
structure Owes (n : Nat) (listed held : List Nat) (r : PinRecorder) : Prop where
  nodup : listed.Nodup
  drivable : ∀ pin, pin ∈ listed ∨ pin ∈ held → r.Drivable pin
  owed_le : r.owed held ≤ n

namespace Owes

variable {m n : Nat} {listed pins : List Nat}

theorem mono (h : Owes m listed held r) (h_le : m ≤ n) : Owes n listed held r where
  nodup := h.nodup
  drivable := h.drivable
  owed_le := Nat.le_trans h.owed_le h_le

theorem violations_le (h : Owes n listed held r) : r.violations ≤ n :=
  Nat.le_trans (Nat.le_add_right _ _) h.owed_le

theorem of_fall (h : Owes n listed (pin :: held) r) (h_fall : Driven false pin r r') :
    Owes n listed held r' where
  nodup := h.nodup
  drivable other h_other :=
    (h_fall.drivable_iff other).2 (h.drivable other (h_other.imp_right (List.mem_cons_of_mem pin)))
  owed_le := Nat.le_trans (owed_of_fall h_fall) h.owed_le

/-- A pin falls that need not be held. -/
theorem of_repeated_fall (h : Owes n listed held r) (h_fall : Driven false pin r r') :
    Owes n listed held r' where
  nodup := h.nodup
  drivable other h_other := (h_fall.drivable_iff other).2 (h.drivable other h_other)
  owed_le := Nat.le_trans (owed_of_fall h_fall)
    (Nat.le_trans (owed_anti (List.subset_cons_self pin held)) h.owed_le)

theorem of_rise (h : Owes n listed held r) (h_listed : pin ∈ listed) (h_not : pin ∉ held)
    (h_held : ∀ other, other ∈ held' ↔ other ∈ pin :: held) (h_rise : Driven true pin r r') :
    Owes n listed held' r' where
  nodup := h.nodup
  drivable other h_other := by
    refine (h_rise.drivable_iff other).2 (h.drivable other ?_)
    rw [h_held, List.mem_cons] at h_other
    rcases h_other with h_other | rfl | h_other
    · exact .inl h_other
    · exact .inl h_listed
    · exact .inr h_other
  owed_le := by
    refine Nat.le_trans (owed_anti fun other => (h_held other).2) ?_
    exact Nat.le_trans (owed_of_rise h_rise (h.drivable pin (.inl h_listed)).1 h_not) h.owed_le

/-- Where the pending falls are forgotten, all pins may be strays. -/
theorem forget (h : Owes n listed held r) : Owes (n + maxServos) listed [] r where
  nodup := h.nodup
  drivable pin h_pin := h.drivable pin (h_pin.imp_right (nomatch ·))
  owed_le := Nat.le_trans (owed_le_add r []) (Nat.add_le_add_right h.violations_le maxServos)

/-- Other pins are listed and made outputs, which changes no level. -/
theorem relist (h : Owes n listed held r) (h_nodup : pins.Nodup)
    (h_pins : ∀ pin ∈ pins, pin ∈ eligiblePins) : Owes n pins held (PinBank.prepareAll pins r) := by
  obtain ⟨h_levels, h_outputs, -, h_faults⟩ := PinBank.prepareAll_levels (r := r) h_pins
  refine ⟨h_nodup, fun pin h_pin => ?_, ?_⟩
  · -- the pins of the new list are outputs now, and those with a pending fall are still
    exact (h_outputs pin).2 (h_pin.imp_right fun h_held => h.drivable pin (.inr h_held))
  · have h_strays : (PinBank.prepareAll pins r).strays held = r.strays held :=
      Finset.filter_congr fun pin _ => by
        rw [show (PinBank.prepareAll pins r).isHigh pin = r.isHigh pin from h_levels pin]
    have h_violations : (PinBank.prepareAll pins r).violations = r.violations := h_faults
    unfold owed
    rw [h_strays, h_violations]
    exact h.owed_le

end Owes

/-- New pins owe nothing. -/
theorem owes_new : Owes 0 [] [] {} where
  nodup := List.nodup_nil
  drivable _ h_pin := h_pin.elim nofun nofun
  owed_le := by
    -- no pin of a new recorder is high
    have h_none : strays {} [] = ∅ := by
      refine Finset.eq_empty_of_forall_notMem fun pin h_pin => ?_
      have h_high := (mem_strays.1 h_pin).2.1
      rw [isHigh_new] at h_high
      cases h_high
    unfold owed
    rw [h_none]
    exact Nat.le_refl 0

end PinRecorder

/-! ### Benches -/

namespace Bench

variable {α : Type} {p : Profile} {pin : Nat} {b : Bench PinRecorder}

theorem leaves_pins_onClock (x : Action Clock α) :
    Action.Leaves (σ := Bench PinRecorder) Bench.pins p (onClock x) :=
  .zoom fun _ _ _ => rfl

theorem leaves_pins_armCompare (value : Count) :
    Action.Leaves (σ := Bench PinRecorder) Bench.pins p (armCompare value) := by
  refine .bind (.modify fun _ => rfl) fun _ => .get_bind fun b => .bind (.liftM _) fun limit => ?_
  exact leaves_pins_onClock (Clock.passUntil limit)

theorem ends_drive (level : Bool) (h : b.pins.Drivable pin) :
    Action.Ends p (do onPins (PinBank.drive level (← get).clock.now pin)) b
      (fun _ c => PinRecorder.Driven level pin b.pins c.pins)
      fun c => PinRecorder.Driven level pin b.pins c.pins :=
  .get_bind (.zoom (PinRecorder.ends_drive h))

end Bench

/-! ### Engines -/

namespace Engine

variable {α : Type} {p : Profile} {m n pin servo : Nat} {e : Engine (Bench PinRecorder)}
  {f : Fall} {events rest : List Fall} {c : Channel}

/-- The pins of the channels. -/
def listedPins (e : Engine (Bench PinRecorder)) : List Nat := e.table.active.map Channel.pin

/-- The pins with a pending fall. -/
def heldPins (e : Engine (Bench PinRecorder)) : List Nat := e.queue.events.map Fall.pin

/-- No more than `n` violations are owed. -/
def Owes (n : Nat) (e : Engine (Bench PinRecorder)) : Prop :=
  e.pins.Owes n e.listedPins e.heldPins

namespace Owes

theorem mono (h : Owes m e) (h_le : m ≤ n) : Owes n e := PinRecorder.Owes.mono h h_le

/-- The pending falls are forgotten. -/
theorem forget (h : Owes n e) : Owes (n + maxServos) { e with queue := {} } :=
  PinRecorder.Owes.forget h

theorem of_eq {t : Engine (Bench PinRecorder)} (h : Owes n e) (h_pins : t.pins = e.pins)
    (h_table : t.listedPins = e.listedPins) (h_queue : t.queue = e.queue) : Owes n t := by
  unfold Owes heldPins
  rw [h_pins, h_table, h_queue]
  exact h

theorem preserves_onBoard {x : Action (Bench PinRecorder) α} (h : Action.Leaves Bench.pins p x) :
    Action.Preserves (Owes n) p (onBoard x) :=
  fun e h_owes => .zoom ((h e.board).imp fun _ h_pins => h_owes.of_eq h_pins rfl rfl)

theorem preserves_onClock (x : Action Clock α) : Action.Preserves (Owes n) p (onClock x) :=
  preserves_onBoard (Bench.leaves_pins_onClock x)

/-! ### Falls -/

theorem ends_lower (h : Owes n e) (h_queue : e.queue = ⟨f :: rest⟩) :
    Action.Ends p (lower f rest) e (fun _ t => Owes n t ∧ t.queue = ⟨rest⟩) (Owes n) := by
  have h_held : PinRecorder.Owes n e.listedPins (f.pin :: rest.map Fall.pin) e.pins := by
    have h_owes : e.pins.Owes n e.listedPins (e.queue.events.map Fall.pin) := h
    rwa [h_queue] at h_owes
  have h_drivable := h_held.drivable f.pin (.inr List.mem_cons_self)
  refine .modify_bind (.zoom ((Bench.ends_drive false h_drivable).mono
    (fun _ b h_fall => ⟨?_, rfl⟩) fun b h_fall => ?_))
  · exact h_held.of_fall h_fall
  · exact h_held.of_fall h_fall

theorem ends_lowerAll (h : Owes n e) (h_queue : e.queue = ⟨events⟩) :
    Action.Ends p (lowerAll events) e (fun _ t => Owes n t ∧ t.queue = ⟨[]⟩) (Owes n) := by
  induction events generalizing e with
  | nil => exact .pure ⟨h, h_queue⟩
  | cons f rest ih => exact (ends_lower h h_queue).bind fun _ t h_t => ih h_t.1 h_t.2

theorem ends_settle {now : Nat} (h : Owes n e) (h_queue : e.queue = ⟨events⟩) :
    Action.Ends p (settle now events) e (fun _ => Owes n) (Owes n) := by
  induction events generalizing now e with
  | nil => exact .modify_bind (h.of_eq rfl rfl rfl)
  | cons f rest ih =>
    -- both branches that lower a fall go on with the rest of the queue
    have h_lowered {t : Engine (Bench PinRecorder)} {now : Nat} (h_t : Owes n t)
        (h_queue : t.queue = ⟨f :: rest⟩) :
        Action.Ends p (do lower f rest; settle now rest) t (fun _ => Owes n) (Owes n) :=
      (ends_lower h_t h_queue).bind fun _ u h_u => ih h_u.1 h_u.2
    refine .ite (fun _ => h_lowered h h_queue) fun _ => .get_bind (.ite (fun _ => ?_) fun _ => ?_)
    · exact h.of_eq rfl rfl rfl
    · -- arming touches neither the pins nor the queue
      refine .bind (Q := fun _ t => Owes n t ∧ t.queue = ⟨f :: rest⟩) (.zoom ?_)
        fun _ t h_t => .get_bind (.liftM_bind (fun later => ?_) h_t.1)
      · refine ((Bench.leaves_pins_armCompare f.compareValue) e.board).mono
          (fun _ b h_pins => ⟨?_, h_queue⟩) fun b h_pins => ?_
        · exact h.of_eq h_pins rfl rfl
        · exact h.of_eq h_pins rfl rfl
      · -- the fall may have come due while the channel was armed
        exact .ite (fun _ => h_lowered h_t.1 h_t.2) fun _ => .pure h_t.1

theorem preserves_fallDue : Action.Preserves (Owes n) p fallDue :=
  fun _ h => .get_bind (.liftM_bind (fun _ => ends_settle h rfl) h)

/-! ### Periods -/

/-- A channel whose pin is not held yet is raised. -/
theorem ends_raise (h : Owes n e) (h_listed : c.pin ∈ e.listedPins) (h_free : c.pin ∉ e.heldPins) :
    Action.Ends p (raise servo c) e
      (fun _ t => Owes n t ∧ t.listedPins = e.listedPins ∧ t.heldPins ⊆ c.pin :: e.heldPins)
      (Owes n) := by
  have h_same : Owes n e ∧ e.listedPins = e.listedPins ∧ e.heldPins ⊆ c.pin :: e.heldPins :=
    ⟨h, rfl, List.subset_cons_self c.pin e.heldPins⟩
  refine .ite (fun _ => .get_bind ?_) fun _ => .pure h_same
  cases h_push : e.queue.push ⟨c.position, servo, c.pin⟩ with
  | error =>
    -- a full queue takes no fall, and the pin does not rise
    exact .pure h_same
  | ok queue =>
    have h_held (other : Nat) :
        other ∈ queue.events.map Fall.pin ↔ other ∈ c.pin :: e.heldPins := by
      unfold FallQueue.push at h_push
      split at h_push
      · obtain rfl := Except.ok.inj h_push
        exact ((FallQueue.perm_insert _ _).map Fall.pin).mem_iff
      · cases h_push
    have h_drivable := h.drivable c.pin (.inl h_listed)
    refine .modify_bind (.zoom ((Bench.ends_drive true h_drivable).mono
      (fun _ b h_rise => ⟨?_, rfl, fun other => (h_held other).1⟩) fun b h_rise => ?_))
    · exact h.of_rise h_listed h_free h_held h_rise
    · exact h.of_rise h_listed h_free h_held h_rise

/-- Channels on different pins are raised, none of which is held yet. -/
theorem ends_raiseAll {channels : List (Channel × Nat)} (h : Owes n e)
    (h_nodup : (channels.map (·.1.pin)).Nodup) (h_listed : ∀ c ∈ channels, c.1.pin ∈ e.listedPins)
    (h_free : ∀ c ∈ channels, c.1.pin ∉ e.heldPins) :
    Action.Ends p (channels.forM fun (c, servo) => raise servo c) e (fun _ => Owes n) (Owes n) := by
  induction channels generalizing e with
  | nil => exact .pure h
  | cons c channels ih =>
    obtain ⟨h_first, h_nodup⟩ := List.nodup_cons.1 h_nodup
    refine (ends_raise h (h_listed c List.mem_cons_self) (h_free c List.mem_cons_self)).bind
      fun _ t h_t => ih h_t.1 h_nodup (fun d hd => ?_) fun d hd h_held => ?_
    · -- a rise leaves the list of channels as it is
      rw [h_t.2.1]
      exact h_listed d (List.mem_cons_of_mem c hd)
    · -- only the pin that has risen is held more than before, and its channel is another one
      rcases List.mem_cons.1 (h_t.2.2 h_held) with h_eq | h_held
      · exact h_first (List.mem_map.2 ⟨d, hd, h_eq⟩)
      · exact h_free d (List.mem_cons_of_mem c hd) h_held

/-- A period begins with no pin held, so that every pin that is high is a stray. -/
theorem preserves_beginPeriod : Action.Preserves (Owes n) p beginPeriod := by
  intro e h
  refine .get_bind ((ends_lowerAll h rfl).bind fun _ t h_t => .modify_bind (.get_bind ?_))
  obtain ⟨h_t, h_queue⟩ := h_t
  -- the step moves positions only, so the pins of the channels stay listed
  have h_stepped : Owes n { t with moving := t.table.anyMoving, table := t.table.step } :=
    h_t.of_eq rfl t.table.map_pin_step rfl
  have h_pins :
      t.table.step.active.zipIdx.map (·.1.pin) = t.table.step.active.map Channel.pin := by
    change t.table.step.active.zipIdx.map (Channel.pin ∘ Prod.fst) = _
    rw [← List.map_map, List.zipIdx_map_fst]
  refine .bind (ends_raiseAll h_stepped ?_ (fun c hc => ?_) fun c _ h_held => ?_)
    fun _ u h_u => h_u.of_eq rfl rfl rfl
  · rw [h_pins]
    exact h_stepped.nodup
  · exact List.mem_map_of_mem (List.mem_of_getElem? (List.mk_mem_zipIdx_iff_getElem?.1 hc))
  · change c.1.pin ∈ t.queue.events.map Fall.pin at h_held
    rw [h_queue] at h_held
    cases h_held

theorem preserves_turn : Action.Preserves (Owes n) p turn := by
  intro e h
  refine .modify_bind (.get_bind (.ite (fun _ => ?_) fun _ => .pure (h.of_eq rfl rfl rfl)))
  exact preserves_beginPeriod _ (h.of_eq rfl rfl rfl)

/-- **Interrupts.** Served in time or late, an interrupt adds nothing to what is owed. -/
theorem preserves_interrupt : Action.Preserves (Owes n) p interrupt := by
  have h_falls (flag : Bool) : Action.Preserves (σ := Engine (Bench PinRecorder)) (Owes n) p
      (if flag then fallDue else pure ()) := .ite preserves_fallDue (.pure ())
  refine .bind (fun e h => h.of_eq rfl rfl rfl) fun overflow => ?_
  refine .bind (fun e h => h.of_eq rfl rfl rfl) fun compare => .get_bind fun e => ?_
  refine .ite (.ite (.bind preserves_turn fun _ => ?_) ?_) (.pure ())
  · exact h_falls (overflow || compare)
  · exact h_falls (overflow || compare)

/-! ### Time -/

theorem preserves_serveNext (limit : Nat) : Action.Preserves (Owes n) p (serveNext limit) := by
  refine .bind (preserves_onClock (Clock.advanceUntil limit)) fun event => ?_
  exact .ite (.bind preserves_interrupt fun _ => .pure event) (.pure event)

theorem preserves_advance (ticks : Nat) : Action.Preserves (Owes n) p (advance ticks) :=
  .get_bind fun _ => .liftM_bind fun limit => preserves_onClock (Clock.advanceUntil limit)

theorem preserves_idle (x : Idle) : Action.Preserves (Owes n) p x.act := by
  cases x with
  | advance ticks => exact .bind (preserves_advance ticks) fun _ => .pure ()
  | run ticks =>
    exact .get_bind fun _ => .liftM_bind fun limit => (preserves_serveNext limit).repeatWhile _
  | pass ticks =>
    exact .get_bind fun _ => .liftM_bind fun limit => preserves_onClock (Clock.passUntil limit)
  | interrupt => exact preserves_interrupt

theorem preserves_serveToward (before : UInt32) (goal : Nat) :
    Action.Preserves (Owes n) p (serveToward before goal) := by
  refine .get_bind fun e => .ite (.liftM_bind fun next? => .ite ?_ (.pure false)) (.pure false)
  exact .bind (preserves_serveNext Clock.lastInstant) fun _ => .pure true

theorem preserves_countPeriods (goal : Nat) :
    Action.Preserves (Owes n) p (countPeriods (runPeriods goal)) := by
  refine .get_bind fun e => .bind (.get_bind fun t => ?_) fun _ => .get_bind fun _ => .pure _
  exact (preserves_serveToward t.periods goal).repeatWhile _

/-! ### Calls -/

theorem preserves_exec (k : Command) : Action.Preserves (Owes n) p k.exec := by
  refine fun e h => Action.ends_iff_forall_endsIn.2 fun t h_end => ?_
  rcases endsIn_exec h_end with rfl | ⟨moving, rfl⟩
  · exact h
  · exact h.of_eq rfl (ChannelTable.map_pin_modify k.write_pin) rfl

theorem ends_launch (h : Owes n e) :
    Action.Ends p launch e (fun _ => Owes (n + maxServos)) (Owes (n + maxServos)) := by
  -- the timer starts with an empty queue, whatever was still to come
  have h_forgot : Owes (n + maxServos)
      { e with queue := {}, wrap := e.config.wrapsPerPeriod.toNat - 1, phase := .idle } :=
    h.forget.of_eq rfl rfl rfl
  refine .bind (.modify_bind (preserves_onClock Clock.start _ h_forgot)) fun _ t h_t => ?_
  exact h_t.of_eq rfl rfl rfl

/-- The pins of the channels are driven low, which they may be already. -/
theorem ends_lowerEach {channels : List Channel} (h : Owes n e)
    (h_listed : ∀ c ∈ channels, c.pin ∈ e.listedPins) :
    Action.Ends p (channels.forM fun c => onBoard (Board.setLow c.pin)) e (fun _ => Owes n)
      (Owes n) := by
  -- by induction on the channels, whose pins all stay those of the table
  induction channels generalizing e with
  | nil => exact .pure h
  | cons c channels ih =>
    have h_drivable := h.drivable c.pin (.inl (h_listed c List.mem_cons_self))
    refine .bind (Q := fun _ t => Owes n t ∧ t.listedPins = e.listedPins)
      (.zoom ((Bench.ends_drive false h_drivable).mono
        (fun _ b h_fall => ⟨?_, rfl⟩) fun b h_fall => ?_)) fun _ t h_t => ih h_t.1 fun d hd => ?_
    · exact PinRecorder.Owes.of_repeated_fall h h_fall
    · exact PinRecorder.Owes.of_repeated_fall h h_fall
    · rw [h_t.2]
      exact h_listed d (List.mem_cons_of_mem c hd)

theorem ends_halt (h : Owes n e) :
    Action.Ends p halt e (fun _ => Owes (n + maxServos)) (Owes (n + maxServos)) := by
  refine .modify_bind (.modify_bind (.get_bind ?_))
  refine .bind (ends_lowerEach ?_ fun c hc => ?_) fun _ t h_t => ?_
  · exact h.forget.of_eq rfl rfl rfl
  · exact List.mem_map_of_mem hc
  · exact h_t.of_eq rfl rfl rfl

theorem ends_shutDown (h : Owes n e) :
    Action.Ends p shutDown e (fun _ => Owes (n + maxServos)) (Owes (n + maxServos)) :=
  (ends_halt h).bind fun _ _ h_t => h_t.of_eq rfl rfl rfl

/-- **Starts.** A start of the timer forgets the pending falls, of which there are no more than
channels. So wherever it ends, it adds no more than that many violations to those owed. -/
theorem ends_start (pins? : Option (List Nat)) (h : Owes n e) :
    Action.Ends p (start pins?) e (fun _ => Owes (n + maxServos)) (Owes (n + maxServos)) := by
  have h_more {t : Engine (Bench PinRecorder)} (h_t : Owes n t) : Owes (n + maxServos) t :=
    h_t.mono (Nat.le_add_right n maxServos)
  refine .get_bind ?_
  cases h_fit : e.checkStart pins? with
  | error error =>
    -- a refused start changes nothing
    exact .pure (h_more h)
  | ok =>
    cases pins? with
    | some pins =>
      obtain ⟨h_length, h_nodup, h_pins⟩ := checkPins_ok ((checkStart_ok h_fit).2 pins rfl)
      -- the new list is checked, so its pins are distinct and eligible
      have h_relisted : Owes n (e.relisted pins) := by
        change (PinBank.prepareAll pins e.pins).Owes n
          ((ChannelTable.assign pins).active.map Channel.pin) e.heldPins
        rw [ChannelTable.map_pin_assign h_length]
        exact PinRecorder.Owes.relist h h_nodup h_pins
      refine .bind (Q := fun _ => Owes n) ?_ fun _ t h_t => .ite (fun _ => ?_) fun _ => ?_
      · exact .ok (run_reconfigure h_length) h_relisted
      · -- the engine was running, and goes on with the new list
        exact .pure (h_more h_t)
      · exact (ends_launch h_t).bind fun _ u h_u => .pure h_u
    | none =>
      -- without a new list the start looks whether a channel moves, and no more
      have h_looked : Owes n { e with moving := e.table.anyMoving } := h.of_eq rfl rfl rfl
      refine .ite (fun _ => .pure (h_more h)) fun _ => .modify_bind ?_
      exact (ends_launch h_looked).bind fun _ t h_t => .pure h_t

section Stop

variable {wait : Nat → Action (Engine (Bench PinRecorder)) Unit}
  (h_wait : ∀ k, Action.Preserves (Owes n) p (wait k))

include h_wait

theorem ends_awaitFalls (poll timeout fuel polls waited : Nat) (h : Owes n e) :
    Action.Ends p (awaitFalls wait poll timeout fuel polls waited) e
      (fun _ => Owes (n + maxServos)) (Owes (n + maxServos)) := by
  induction fuel generalizing polls waited e with
  | zero => exact (ends_shutDown h).bind fun _ t h_t => h_t
  | succ fuel ih =>
    refine .get_bind (.ite (fun _ => ?_) fun _ => (ends_shutDown h).bind fun _ t h_t => h_t)
    -- time is left and a pulse is in flight, so the wait goes on
    refine .bind ((h_wait polls e h).mono (fun _ _ h_t => h_t) fun t h_t => ?_)
      fun _ t h_t => ih _ _ h_t
    exact h_t.mono (Nat.le_add_right n maxServos)

/-- **Stops.** A stop whose waits add nothing to the violations owed adds no more than one for each
channel, wherever it ends: the shutdown forgets the falls that are still pending then. -/
theorem ends_stop (h : Owes n e) :
    Action.Ends p (stop wait) e (fun _ => Owes (n + maxServos)) (Owes (n + maxServos)) :=
  .get_bind (.ite (fun _ => ends_awaitFalls h_wait _ _ _ _ _ h)
    fun _ => .pure (h.mono (Nat.le_add_right n maxServos)))

end Stop

end Owes

theorem owes_fresh (config : Config) (lag now : Nat) : Owes 0 (freshRecorded config lag now) := by
  change PinRecorder.Owes 0 ((List.take 0 _).map Channel.pin) [] {}
  rw [List.take_zero]
  exact PinRecorder.owes_new

end Engine

end ServoPulse
