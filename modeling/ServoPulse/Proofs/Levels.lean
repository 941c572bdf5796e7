import ServoPulse.Pins.Recorder
import ServoPulse.Proofs.Success

/-!
# The levels of a bank of pins

A `LawfulPinBank` is a bank whose levels follow the requests: making a pin an output
drives it low, and driving an output to a level gives it that level and leaves every other
pin alone. Such a bank also counts its *faults*, the requests it refused. Nothing but a
rise of a pin that is high already is refused on an output.

`driveAll_isHigh` and `driveAll_faults` say the same of a whole list of pins. Recorded pins
are lawful; their faults are the violations.
-/

namespace ServoPulse

namespace PinBank

variable {P : Type} [PinBank P]

/-- Drives a pin to a level at the time `now`. -/
def drive (level : Bool) (now pin : Nat) : Action P Unit :=
  if level then setHigh now pin else setLow now pin

/-- Drives pins to a level, in order. -/
def driveAll (level : Bool) (now : Nat) (pins : List Nat) : Action P Unit :=
  pins.forM (drive level now)

/-- Makes pins outputs, in order, and leaves alone those that are high. -/
def prepareAll (pins : List Nat) (r : P) : P :=
  pins.foldl (fun r pin => if isHigh r pin then r else configureOutput pin r) r

end PinBank

/-- A bank of pins whose levels follow the requests. -/
class LawfulPinBank (P : Type) [PinBank P] where
  /-- Whether a pin was made an output. -/
  isOutput : P → Nat → Prop
  /-- The number of requests that were refused. -/
  faults : P → Nat
  isOutput_of_isHigh : ∀ {r : P} {pin : Nat}, pin ∈ PinBank.eligible r →
    PinBank.isHigh r pin = true → isOutput r pin
  eligible_configureOutput : ∀ (r : P) (pin : Nat),
    PinBank.eligible (PinBank.configureOutput pin r) = PinBank.eligible r
  isHigh_configureOutput : ∀ {r : P} {pin : Nat}, pin ∈ PinBank.eligible r → ∀ other,
    PinBank.isHigh (PinBank.configureOutput pin r) other =
      if other = pin then false else PinBank.isHigh r other
  isOutput_configureOutput : ∀ {r : P} {pin : Nat}, pin ∈ PinBank.eligible r → ∀ other,
    isOutput (PinBank.configureOutput pin r) other ↔ other = pin ∨ isOutput r other
  faults_configureOutput : ∀ (r : P) (pin : Nat),
    faults (PinBank.configureOutput pin r) = faults r
  eligible_drive : ∀ {p : Profile} {level : Bool} {now pin : Nat} {r r' : P},
    (PinBank.drive level now pin).run p r = .ok () r' →
      PinBank.eligible r' = PinBank.eligible r
  isHigh_drive : ∀ {p : Profile} {level : Bool} {now pin : Nat} {r r' : P}, isOutput r pin →
    (PinBank.drive level now pin).run p r = .ok () r' → ∀ other,
      PinBank.isHigh r' other = if other = pin then level else PinBank.isHigh r other
  isOutput_drive : ∀ {p : Profile} {level : Bool} {now pin : Nat} {r r' : P},
    (PinBank.drive level now pin).run p r = .ok () r' → ∀ other,
      isOutput r' other ↔ isOutput r other
  faults_drive : ∀ {p : Profile} {level : Bool} {now pin : Nat} {r r' : P}, isOutput r pin →
    (level = true → PinBank.isHigh r pin = false) →
    (PinBank.drive level now pin).run p r = .ok () r' → faults r' = faults r

namespace PinBank

variable {P : Type} [PinBank P] [LawfulPinBank P] {p : Profile} {level : Bool} {now : Nat}
  {pins : List Nat} {r r' : P}

open LawfulPinBank

/-! ### Driving several pins -/

omit [LawfulPinBank P] in
/-- What each request keeps, a list of requests keeps. -/
theorem driveAll_keeps {J : P → Prop}
    (h_drive : ∀ {pin r r'}, J r → (drive level now pin).run p r = .ok () r' → J r') (h : J r)
    (h_run : (driveAll level now pins).run p r = .ok () r') : J r' := by
  -- induction on the pins, each driven by one call
  induction pins generalizing r with
  | nil =>
    obtain rfl := Action.run_forM_nil_eq_ok_iff.1 h_run
    exact h
  | cons pin pins ih =>
    obtain ⟨t, h_pin, h_pins⟩ := Action.run_forM_cons_eq_ok_iff.1 h_run
    exact ih (h_drive h h_pin) h_pins

/-- Driving makes no outputs and unmakes none. -/
theorem driveAll_isOutput (h : (driveAll level now pins).run p r = .ok () r') (x : Nat) :
    isOutput r' x ↔ isOutput r x := by
  induction pins generalizing r with
  | nil =>
    obtain rfl := Action.run_forM_nil_eq_ok_iff.1 h
    rfl
  | cons pin pins ih =>
    obtain ⟨t, h_pin, h_pins⟩ := Action.run_forM_cons_eq_ok_iff.1 h
    exact (ih h_pins).trans (isOutput_drive h_pin x)

/-- The pins driven have the level, and the others keep theirs. -/
theorem driveAll_isHigh (h_out : ∀ pin ∈ pins, isOutput r pin)
    (h : (driveAll level now pins).run p r = .ok () r') (x : Nat) :
    isHigh r' x = if x ∈ pins then level else isHigh r x := by
  -- induction on the pins, which are outputs still when their turn comes
  induction pins generalizing r with
  | nil =>
    obtain rfl := Action.run_forM_nil_eq_ok_iff.1 h
    simp
  | cons pin pins ih =>
    obtain ⟨t, h_pin, h_pins⟩ := Action.run_forM_cons_eq_ok_iff.1 h
    rw [ih (fun q hq => (isOutput_drive h_pin q).2 (h_out q (by simp [hq]))) h_pins,
      isHigh_drive (h_out pin (by simp)) h_pin x]
    by_cases hx : x = pin <;> simp [hx]

/-- Rises of distinct low outputs, and any falls of outputs, are not refused. -/
theorem driveAll_faults (h_out : ∀ pin ∈ pins, isOutput r pin)
    (h_nodup : level = true → pins.Nodup)
    (h_low : level = true → ∀ pin ∈ pins, isHigh r pin = false)
    (h : (driveAll level now pins).run p r = .ok () r') : faults r' = faults r := by
  induction pins generalizing r with
  | nil =>
    obtain rfl := Action.run_forM_nil_eq_ok_iff.1 h
    rfl
  | cons pin pins ih =>
    obtain ⟨t, h_pin, h_pins⟩ := Action.run_forM_cons_eq_ok_iff.1 h
    have h_first := h_out pin (by simp)
    refine (ih (fun q hq => (isOutput_drive h_pin q).2 (h_out q (by simp [hq])))
      (fun hl => (List.nodup_cons.1 (h_nodup hl)).2) (fun hl q hq => ?_) h_pins).trans
      (faults_drive h_first (fun hl => h_low hl pin (by simp)) h_pin)
    -- the pins still to rise are other ones, and so still low
    have h_ne : q ≠ pin := fun h_eq => (List.nodup_cons.1 (h_nodup hl)).1 (h_eq ▸ hq)
    rw [isHigh_drive h_first h_pin q, if_neg h_ne]
    exact h_low hl q (by simp [hq])

omit [LawfulPinBank P] in
theorem prepareAll_cons (pin : Nat) (pins : List Nat) (r : P) :
    prepareAll (pin :: pins) r =
      prepareAll pins (if isHigh r pin then r else configureOutput pin r) := rfl

omit [LawfulPinBank P] in
theorem prepareAll_keeps {J : P → Prop} (h_configure : ∀ {pin r}, J r → J (configureOutput pin r))
    (h : J r) : J (prepareAll pins r) := by
  induction pins generalizing r with
  | nil => exact h
  | cons pin pins ih =>
    rw [prepareAll_cons]
    split
    · exact ih h
    · exact ih (h_configure h)

/-- Preparing pins makes them outputs and changes no level. -/
theorem prepareAll_levels (h : ∀ pin ∈ pins, pin ∈ eligible r) :
    (∀ x, isHigh (prepareAll pins r) x = isHigh r x) ∧
      (∀ x, isOutput (prepareAll pins r) x ↔ x ∈ pins ∨ isOutput r x) ∧
      eligible (prepareAll pins r) = eligible r ∧ faults (prepareAll pins r) = faults r := by
  -- induction on the pins, which are made ready one after the other
  induction pins generalizing r with
  | nil => simp [prepareAll]
  | cons pin pins ih =>
    have h_pin := h pin (by simp)
    have h_pins : ∀ q ∈ pins, q ∈ eligible r := fun q hq => h q (by simp [hq])
    rw [prepareAll_cons]
    by_cases h_high : isHigh r pin = true
    · -- a pin that is high is an output already, and stays as it is
      rw [if_pos h_high]
      obtain ⟨h_levels, h_outputs, h_rest⟩ := ih h_pins
      have h_out := isOutput_of_isHigh h_pin h_high
      refine ⟨h_levels, fun x => ?_, h_rest⟩
      rw [h_outputs x, List.mem_cons]
      constructor
      · exact Or.imp_left .inr
      · rintro ((rfl | hx) | hx)
        · exact .inr h_out
        · exact .inl hx
        · exact .inr hx
    · -- a pin that is low is made an output, which leaves it low
      rw [if_neg h_high]
      obtain ⟨h_levels, h_outputs, h_eligible, h_faults⟩ :=
        ih (r := configureOutput pin r) (by rwa [eligible_configureOutput])
      refine ⟨fun x => ?_, fun x => ?_, h_eligible.trans (eligible_configureOutput r pin),
        h_faults.trans (faults_configureOutput r pin)⟩
      · -- the pin has its old level, which is low
        rw [h_levels x, isHigh_configureOutput h_pin x]
        by_cases hx : x = pin
        · rw [if_pos hx, hx, Bool.eq_false_iff.2 h_high]
        · rw [if_neg hx]
      · rw [h_outputs x, isOutput_configureOutput h_pin x, List.mem_cons]
        tauto

end PinBank

/-! ### Recorded pins are lawful -/

namespace PinRecorder

variable {p : Profile} {now pin : Nat} {r r' : PinRecorder}

theorem lt_of_mem_eligiblePins (h : pin ∈ eligiblePins) : pin < 32 := by
  simp only [eligiblePins, List.mem_cons, List.not_mem_nil, or_false] at h
  omega

/-- New pins are low. -/
theorem isHigh_new (pin : Nat) : ({} : PinRecorder).isHigh pin = false := by
  have h_state : ({} : PinRecorder).state pin = .unconfigured := by
    rw [state, Vector.getElem?_replicate]
    split <;> rfl
  rw [isHigh, h_state]

theorem state_congr (h : r'.pins = r.pins) (pin : Nat) : r'.state pin = r.state pin := by
  rw [state, state, h]

theorem state_setState_of_eligible (h : pin ∈ eligiblePins) (s : PinState) (other : Nat) :
    (r.setState pin s).state other = if other = pin then s else r.state other := by
  have h_lt := lt_of_mem_eligiblePins h
  rw [state_setState]
  by_cases h_eq : other = pin
  · rw [if_pos ⟨h_eq.symm, h_lt⟩, if_pos h_eq]
  · rw [if_neg fun h_and => h_eq h_and.1.symm, if_neg h_eq]

theorem run_violate_eq_ok (h : violate.run p r = .ok () r') : r'.pins = r.pins := by
  rw [violate, Action.run_get_bind, Action.run_liftM_bind_eq_ok_iff] at h
  obtain ⟨n, -, h⟩ := h
  obtain rfl := Action.run_modify_eq_ok_iff.1 h
  rfl

theorem run_rise_eq_ok (h : (rise now pin).run p r = .ok () r') :
    r.state pin = .low ∧ r' = r.setState pin (.high now) ∨
      r.state pin ≠ .low ∧ r'.pins = r.pins := by
  rw [rise, Action.run_get_bind] at h
  -- the only state from which a pin rises
  cases h_state : r.state pin with
  | low =>
    rw [h_state] at h
    exact .inl ⟨rfl, (Action.run_modify_eq_ok_iff.1 h).symm⟩
  | unconfigured =>
    -- no output, or high already: a violation is counted and no pin changes
    rw [h_state] at h
    exact .inr ⟨nofun, run_violate_eq_ok h⟩
  | high t =>
    rw [h_state] at h
    exact .inr ⟨nofun, run_violate_eq_ok h⟩

theorem run_fall_eq_ok (h : (fall now pin).run p r = .ok () r') :
    r.state pin = .unconfigured ∧ r'.pins = r.pins ∨ r.state pin = .low ∧ r' = r ∨
      ∃ roseAt, r.state pin = .high roseAt ∧ r'.pins = (r.setState pin .low).pins ∧
        r'.violations = r.violations := by
  rw [fall, Action.run_get_bind] at h
  -- one case for each state of the pin
  cases h_state : r.state pin with
  | unconfigured =>
    rw [h_state] at h
    exact .inl ⟨rfl, run_violate_eq_ok h⟩
  | low =>
    rw [h_state] at h
    exact .inr (.inl ⟨rfl, (Action.run_pure_eq_ok_iff.1 h).2.symm⟩)
  | high roseAt =>
    -- the pulse is recorded when the pin is low again, and neither changes its state
    rw [h_state] at h
    refine .inr (.inr ⟨roseAt, rfl, ?_⟩)
    simp only [Action.run_modify_bind, Action.run_liftM_bind_eq_ok_iff] at h
    obtain ⟨width, -, h⟩ := h
    obtain rfl := Action.run_modify_eq_ok_iff.1 h
    exact ⟨rfl, rfl⟩

theorem drive_eq (level : Bool) (now pin : Nat) :
    PinBank.drive (P := PinRecorder) level now pin =
      if pin ∈ eligiblePins then (if level then rise now pin else fall now pin) else pure () := by
  cases level <;> rfl

/-- A pin that can be driven. -/
def Drivable (r : PinRecorder) (pin : Nat) : Prop :=
  pin ∈ eligiblePins ∧ r.isOutput pin = true

theorem Drivable.state_ne (h : r.Drivable pin) : r.state pin ≠ .unconfigured := by
  intro h_state
  have h_output := h.2
  rw [isOutput, h_state] at h_output
  exact Bool.noConfusion h_output

/-- A pin that no servo can be on is not driven. -/
theorem eq_of_run_drive {level : Bool} (h_pin : pin ∉ eligiblePins)
    (h : (PinBank.drive level now pin).run p r = .ok () r') : r' = r := by
  -- neither call does anything then
  cases level with
  | true =>
    change (if pin ∈ eligiblePins then rise now pin else pure ()).run p r = _ at h
    rw [if_neg h_pin] at h
    exact (Action.run_pure_eq_ok_iff.1 h).2.symm
  | false =>
    change (if pin ∈ eligiblePins then fall now pin else pure ()).run p r = _ at h
    rw [if_neg h_pin] at h
    exact (Action.run_pure_eq_ok_iff.1 h).2.symm

/-- Driving a pin sets it to the level. Where the pins stay as they are, the pin cannot be
driven or has the level already. -/
theorem run_drive_eq_ok {level : Bool} (h : (PinBank.drive level now pin).run p r = .ok () r') :
    (r'.pins = r.pins ∧ (r.Drivable pin →
      r.isHigh pin = level ∧ (level = false → r'.violations = r.violations))) ∨
    (r.Drivable pin ∧ r'.violations = r.violations ∧
      r'.pins = (r.setState pin (if level then .high now else .low)).pins) := by
  by_cases h_pin : pin ∈ eligiblePins
  swap
  · -- refused, and the pin is no output
    exact .inl ⟨by rw [eq_of_run_drive h_pin h], fun h_out => absurd h_out.1 h_pin⟩
  cases level with
  | true =>
    change (if pin ∈ eligiblePins then rise now pin else pure ()).run p r = _ at h
    rw [if_pos h_pin] at h
    rcases run_rise_eq_ok h with ⟨h_low, rfl⟩ | ⟨h_not, h_pins⟩
    · exact .inr ⟨⟨h_pin, by simp [isOutput, h_low]⟩, rfl, rfl⟩
    · -- of an output a rise is refused only if it is high
      refine .inl ⟨h_pins, fun h_out => ⟨?_, nofun⟩⟩
      cases h_state : r.state pin with
      | unconfigured => simp [Drivable, isOutput, h_state] at h_out
      | low => exact absurd h_state h_not
      | high t => simp [isHigh, h_state]
  | false =>
    change (if pin ∈ eligiblePins then fall now pin else pure ()).run p r = _ at h
    rw [if_pos h_pin] at h
    rcases run_fall_eq_ok h with ⟨h_un, h_pins⟩ | ⟨h_low, rfl⟩ | ⟨t, h_high, h_pins, h_viol⟩
    · -- refused for the same reason
      exact .inl ⟨h_pins, fun h_out => by simp [Drivable, isOutput, h_un] at h_out⟩
    · -- the pin is low already, and nothing is counted
      exact .inl ⟨rfl, fun _ => ⟨by simp [isHigh, h_low], fun _ => rfl⟩⟩
    · -- the fall of a pin that is high
      exact .inr ⟨⟨h_pin, by simp [isOutput, h_high]⟩, h_viol, h_pins⟩

theorem isHigh_congr (h : r'.pins = r.pins) (other : Nat) : r'.isHigh other = r.isHigh other := by
  rw [isHigh, isHigh, state_congr h]

theorem isOutput_congr (h : r'.pins = r.pins) (other : Nat) :
    r'.isOutput other = r.isOutput other := by
  rw [isOutput, isOutput, state_congr h]

theorem isHigh_setState (h : pin ∈ eligiblePins) (s : PinState) (other : Nat) :
    (r.setState pin s).isHigh other =
      if other = pin then (match s with | .high _ => true | _ => false) else r.isHigh other := by
  by_cases h_eq : other = pin
  · rw [if_pos h_eq, isHigh, state_setState_of_eligible h]
    cases s <;> exact if_pos h_eq ▸ rfl
  · unfold isHigh
    rw [if_neg h_eq, state_setState_of_eligible h, if_neg h_eq]

theorem isOutput_setState (h : pin ∈ eligiblePins) (s : PinState) (other : Nat) :
    (r.setState pin s).isOutput other =
      if other = pin then s != .unconfigured else r.isOutput other := by
  rw [isOutput, state_setState_of_eligible h]
  split <;> rfl

/-- A request sets the level of an output and of no other pin. -/
theorem Drivable.isHigh_of_drive {level : Bool} (h_out : r.Drivable pin)
    (h : (PinBank.drive level now pin).run p r = .ok () r') (other : Nat) :
    r'.isHigh other = if other = pin then level else r.isHigh other := by
  rcases run_drive_eq_ok h with ⟨h_pins, h_same⟩ | ⟨⟨h_pin, -⟩, -, h_pins⟩
  · -- the call changed no pin; of an output that is because it had the level already
    by_cases h_eq : other = pin
    · rw [if_pos h_eq, h_eq]
      exact (isHigh_congr h_pins pin).trans (h_same h_out).1
    · rw [if_neg h_eq]
      exact isHigh_congr h_pins other
  · refine (isHigh_congr h_pins other).trans ((isHigh_setState h_pin _ other).trans ?_)
    cases level <;> rfl

/-- A request makes no pin an output, and leaves none that is no longer one. -/
theorem drivable_of_drive_iff {level : Bool}
    (h : (PinBank.drive level now pin).run p r = .ok () r') (other : Nat) :
    r'.Drivable other ↔ r.Drivable other := by
  rcases run_drive_eq_ok h with ⟨h_pins, -⟩ | ⟨⟨h_pin, h_out⟩, -, h_pins⟩
  · rw [Drivable, Drivable, isOutput_congr h_pins]
  · -- the driven pin was an output, and both levels are those of an output
    rw [Drivable, Drivable, isOutput_congr h_pins, isOutput_setState h_pin]
    by_cases h_eq : other = pin
    · cases level <;> simp [h_eq, h_out]
    · simp [h_eq]

/-- The rise of an output that is low and the fall of any output are no violations. -/
theorem Drivable.violations_of_drive {level : Bool} (h_out : r.Drivable pin)
    (h_low : level = true → r.isHigh pin = false)
    (h : (PinBank.drive level now pin).run p r = .ok () r') : r'.violations = r.violations := by
  rcases run_drive_eq_ok h with ⟨-, h_same⟩ | ⟨-, h_viol, -⟩
  · obtain ⟨h_level, h_viol⟩ := h_same h_out
    cases level with
    | true =>
      -- a pin that has to rise is low, and so it does not have the level already
      exact Bool.noConfusion ((h_low rfl).symm.trans h_level)
    | false => exact h_viol rfl
  · exact h_viol

instance : LawfulPinBank PinRecorder where
  isOutput := Drivable
  faults := violations
  isOutput_of_isHigh {r pin} h_pin h_high := by
    refine ⟨h_pin, ?_⟩
    change r.isHigh pin = true at h_high
    -- a pin that is high has a state other than unconfigured
    cases h_state : r.state pin <;> simp_all [isHigh, isOutput]
  eligible_configureOutput _ _ := rfl
  isHigh_configureOutput {r pin} h_pin other := by
    change pin ∈ eligiblePins at h_pin
    change (if pin ∈ eligiblePins then r.setState pin .low else r).isHigh other = _
    rw [if_pos h_pin, isHigh_setState h_pin]
    rfl
  isOutput_configureOutput {r pin} h_pin other := by
    change pin ∈ eligiblePins at h_pin
    change Drivable (if pin ∈ eligiblePins then r.setState pin .low else r) other ↔ _
    rw [if_pos h_pin, Drivable, Drivable, isOutput_setState h_pin]
    by_cases h_eq : other = pin
    · simp [h_eq, h_pin]
    · simp [h_eq]
  faults_configureOutput r pin := by
    change (if pin ∈ eligiblePins then r.setState pin .low else r).violations = _
    split <;> rfl
  eligible_drive _ := rfl
  isHigh_drive := Drivable.isHigh_of_drive
  isOutput_drive := drivable_of_drive_iff
  faults_drive := Drivable.violations_of_drive

end PinRecorder

end ServoPulse
