import ServoPulse.Proofs.Levels

/-!
# Level changes

A `Scope` watches a bank of pins and writes down every change of a level: when it
happened, on which pin, and to which level. It passes each request on and adds nothing of
its own, so the pins under it do what they do without it.

`driveAll_edges` says which changes a list of requests makes: one for each pin whose level
was the other one.
-/

namespace ServoPulse

/-- A change of the level of a pin. -/
structure Edge where
  /-- When it happened. A bank is not told when it makes a pin an output. -/
  time? : Option Nat
  pin : Nat
  /-- Whether the pin went high. -/
  rising : Bool
  deriving DecidableEq

/-- The pin goes high at the time `time`. -/
def Edge.rise (time pin : Nat) : Edge := ⟨some time, pin, true⟩

/-- The pin goes low at the time `time`. -/
def Edge.fall (time pin : Nat) : Edge := ⟨some time, pin, false⟩

/-- The list `new` is the list `old` with more entries at its end, all of them with `Q`. -/
def Adds (Q : Edge → Prop) (old new : List Edge) : Prop :=
  ∃ more, new = old ++ more ∧ ∀ x ∈ more, Q x

namespace Adds

variable {Q R : Edge → Prop} {a b c : List Edge}

theorem refl (a : List Edge) : Adds Q a a := ⟨[], (List.append_nil a).symm, nofun⟩

theorem of_eq (h : b = a) : Adds Q a b := by
  rw [h]
  exact refl a

theorem trans (hab : Adds Q a b) (hbc : Adds Q b c) : Adds Q a c := by
  obtain ⟨l, rfl, hl⟩ := hab
  obtain ⟨m, rfl, hm⟩ := hbc
  refine ⟨l ++ m, List.append_assoc a l m, fun x hx => ?_⟩
  rcases List.mem_append.1 hx with hx | hx
  · exact hl x hx
  · exact hm x hx

theorem mono (h : Adds Q a b) (hQR : ∀ x, Q x → R x) : Adds R a b := by
  obtain ⟨l, h_eq, hl⟩ := h
  exact ⟨l, h_eq, fun x hx => hQR x (hl x hx)⟩

theorem length_le (h : Adds Q a b) : a.length ≤ b.length := by
  obtain ⟨l, rfl, -⟩ := h
  rw [List.length_append]
  exact Nat.le_add_right _ _

/-- An entry of the longer list that the shorter one has not. -/
theorem of_getElem (h : Adds Q a b) {n : Nat} {x : Edge} (hx : b[n]? = some x)
    (hn : a.length ≤ n) : Q x := by
  obtain ⟨l, rfl, hl⟩ := h
  rw [List.getElem?_append_right hn] at hx
  exact hl x (List.mem_of_getElem? hx)

theorem getElem?_eq (h : Adds Q a b) {n : Nat} (hn : n < a.length) : b[n]? = a[n]? := by
  obtain ⟨l, rfl, -⟩ := h
  exact List.getElem?_append_left hn

/-- Entries past a place that the shorter list reaches to. -/
theorem mem_drop (h : Adds Q a b) {n : Nat} (hn : n ≤ a.length) {x : Edge} (hx : x ∈ b.drop n) :
    x ∈ a.drop n ∨ Q x := by
  obtain ⟨l, rfl, hl⟩ := h
  rw [List.drop_append_of_le_length hn] at hx
  exact (List.mem_append.1 hx).imp_right (hl x)

/-- Entries past a place that the shorter list does not reach. -/
theorem of_mem_drop (h : Adds Q a b) {n : Nat} (hn : a.length ≤ n) {x : Edge}
    (hx : x ∈ b.drop n) : Q x := by
  obtain ⟨l, rfl, hl⟩ := h
  rw [List.drop_append, List.drop_of_length_le hn, List.nil_append] at hx
  exact hl x (List.mem_of_mem_drop hx)

end Adds

/-- A bank of pins under observation. -/
structure Scope (P : Type) where
  pins : P
  /-- Every change of a level so far, in order. -/
  edges : List Edge := []

namespace Scope

variable {P : Type} [PinBank P]

/-- The scope after a request about `pin` that left the bank as `pins`. -/
def see (time? : Option Nat) (pin : Nat) (pins : P) (s : Scope P) : Scope P where
  pins
  edges :=
    if PinBank.isHigh pins pin = PinBank.isHigh s.pins pin then s.edges
    else s.edges ++ [⟨time?, pin, PinBank.isHigh pins pin⟩]

instance : PinBank (Scope P) where
  eligible s := PinBank.eligible s.pins
  configureOutput pin s := s.see none pin (PinBank.configureOutput pin s.pins)
  setHigh now pin := Action.zoom Scope.pins (see (some now) pin) (PinBank.setHigh now pin)
  setLow now pin := Action.zoom Scope.pins (see (some now) pin) (PinBank.setLow now pin)
  isHigh s := PinBank.isHigh s.pins

theorem run_drive_eq_ok_iff {p : Profile} {level : Bool} {now pin : Nat} {s s' : Scope P} :
    (PinBank.drive level now pin).run p s = .ok () s' ↔
      ∃ pins, (PinBank.drive level now pin).run p s.pins = .ok () pins ∧
        s.see (some now) pin pins = s' := by
  cases level <;> exact Action.run_zoom_eq_ok_iff

instance [LawfulPinBank P] : LawfulPinBank (Scope P) where
  isOutput s := LawfulPinBank.isOutput s.pins
  faults s := LawfulPinBank.faults s.pins
  isOutput_of_isHigh := LawfulPinBank.isOutput_of_isHigh (P := P)
  eligible_configureOutput s := LawfulPinBank.eligible_configureOutput s.pins
  isHigh_configureOutput := LawfulPinBank.isHigh_configureOutput (P := P)
  isOutput_configureOutput := LawfulPinBank.isOutput_configureOutput (P := P)
  faults_configureOutput s := LawfulPinBank.faults_configureOutput s.pins
  -- the fields about requests hold as the pins below carry them out
  eligible_drive h := by
    obtain ⟨pins, h_pins, rfl⟩ := run_drive_eq_ok_iff.1 h
    exact LawfulPinBank.eligible_drive (P := P) h_pins
  isHigh_drive h_out h := by
    obtain ⟨pins, h_pins, rfl⟩ := run_drive_eq_ok_iff.1 h
    exact LawfulPinBank.isHigh_drive (P := P) h_out h_pins
  isOutput_drive h := by
    obtain ⟨pins, h_pins, rfl⟩ := run_drive_eq_ok_iff.1 h
    exact LawfulPinBank.isOutput_drive (P := P) h_pins
  faults_drive h_out h_low h := by
    obtain ⟨pins, h_pins, rfl⟩ := run_drive_eq_ok_iff.1 h
    exact LawfulPinBank.faults_drive (P := P) h_out h_low h_pins

variable [LawfulPinBank P] {p : Profile} {level : Bool} {now : Nat} {s s' : Scope P}

theorem drive_edges {pin : Nat} (h_out : LawfulPinBank.isOutput s pin)
    (h : (PinBank.drive level now pin).run p s = .ok () s') :
    s'.edges =
      if PinBank.isHigh s pin = level then s.edges else s.edges ++ [⟨some now, pin, level⟩] := by
  have h_level : PinBank.isHigh s' pin = level := by
    rw [LawfulPinBank.isHigh_drive h_out h pin, if_pos rfl]
  -- what the scope records is whether the level of the pin below has changed
  obtain ⟨pins, -, rfl⟩ := run_drive_eq_ok_iff.1 h
  change PinBank.isHigh pins pin = level at h_level
  simp only [see, h_level, eq_comm]
  rfl

/-- Requests add changes at their own instant. -/
theorem driveAll_adds {pins : List Nat} (h_out : ∀ pin ∈ pins, LawfulPinBank.isOutput s pin)
    (h : (PinBank.driveAll level now pins).run p s = .ok () s') :
    Adds (fun x => ∃ pin ∈ pins, x = ⟨some now, pin, level⟩) s.edges s'.edges := by
  induction pins generalizing s with
  | nil =>
    obtain rfl := Action.run_forM_nil_eq_ok_iff.1 h
    exact .refl _
  | cons pin pins ih =>
    -- the pins of the rest are outputs also after the first request
    obtain ⟨t, h_pin, h_pins⟩ := Action.run_forM_cons_eq_ok_iff.1 h
    have h_first := h_out pin (by simp)
    have h_outs : ∀ q ∈ pins, LawfulPinBank.isOutput t q :=
      fun q hq => (LawfulPinBank.isOutput_drive h_pin q).2 (h_out q (by simp [hq]))
    have h_rest := ih h_outs h_pins
    refine .trans ?_ (h_rest.mono fun x ⟨q, hq, hx⟩ => ⟨q, by simp [hq], hx⟩)
    rw [drive_edges h_first h_pin]
    -- the first request is seen only where the pin had the other level
    split
    · exact .refl _
    · exact ⟨_, rfl, fun x hx => ⟨pin, by simp, List.mem_singleton.1 hx⟩⟩

/-- **Level changes of a list of requests.** The pins that had the other level change, in
order. -/
theorem driveAll_edges {pins : List Nat} (h_out : ∀ pin ∈ pins, LawfulPinBank.isOutput s pin)
    (h_nodup : pins.Nodup) (h : (PinBank.driveAll level now pins).run p s = .ok () s') :
    s'.edges = s.edges ++
      (pins.filter fun pin => PinBank.isHigh s pin != level).map (⟨some now, ·, level⟩) := by
  induction pins generalizing s with
  | nil =>
    obtain rfl := Action.run_forM_nil_eq_ok_iff.1 h
    simp
  | cons pin pins ih =>
    obtain ⟨t, h_pin, h_pins⟩ := Action.run_forM_cons_eq_ok_iff.1 h
    obtain ⟨h_not, h_nodup⟩ := List.nodup_cons.1 h_nodup
    have h_first := h_out pin (by simp)
    -- the first request changes the level of no other pin
    have h_levels : pins.filter (fun q => PinBank.isHigh t q != level)
        = pins.filter (fun q => PinBank.isHigh s q != level) := by
      refine List.filter_congr fun q hq => ?_
      have h_ne : q ≠ pin := fun h_eq => h_not (h_eq ▸ hq)
      rw [LawfulPinBank.isHigh_drive h_first h_pin q, if_neg h_ne]
    rw [ih (fun q hq => (LawfulPinBank.isOutput_drive h_pin q).2 (h_out q (by simp [hq])))
      h_nodup h_pins, h_levels, drive_edges h_first h_pin, List.filter_cons]
    -- the request is seen just where the filter keeps the pin
    by_cases h_eq : PinBank.isHigh s pin = level <;> simp [h_eq]

theorem prepareAll_edges {pins : List Nat} (h : ∀ pin ∈ pins, pin ∈ PinBank.eligible s) :
    (PinBank.prepareAll pins s).edges = s.edges := by
  induction pins generalizing s with
  | nil => rfl
  | cons pin pins ih =>
    have h_pins : ∀ q ∈ pins, q ∈ PinBank.eligible s := fun q hq => h q (by simp [hq])
    rw [PinBank.prepareAll_cons]
    by_cases h_high : PinBank.isHigh s pin = true
    · -- a high pin is left alone
      rw [if_pos h_high]
      exact ih h_pins
    · -- the pin is low before and after, so the scope sees nothing
      have h_same : PinBank.isHigh (PinBank.configureOutput pin s.pins) pin
          = PinBank.isHigh s.pins pin := by
        have h_pin : pin ∈ PinBank.eligible s.pins := h pin (by simp)
        rw [LawfulPinBank.isHigh_configureOutput h_pin pin, if_pos rfl]
        exact (Bool.eq_false_iff.2 h_high).symm
      rw [if_neg h_high, ih (by rwa [LawfulPinBank.eligible_configureOutput])]
      exact if_pos h_same

end Scope

end ServoPulse
