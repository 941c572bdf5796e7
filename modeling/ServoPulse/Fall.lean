import ServoPulse.Ticks

/-!
# Falling edges

A pin raised at the start of a period has to fall a fixed number of ticks later. A
`Fall` says when, for which servo and on which pin; falls are ordered by time, then by
servo number, then by pin.
-/

namespace ServoPulse

/-- A falling edge due at an offset from the start of the period. -/
structure Fall where
  /-- Ticks after the start of the period. -/
  due : Nat
  /-- The servo whose pulse ends. -/
  servo : Nat
  /-- The pin to drive low. -/
  pin : Nat
  deriving DecidableEq

namespace Fall

/-- The turn of the counter, within the period, in which the edge is due. -/
def wrap (f : Fall) : Nat := f.due / ticksPerWrap

/-- The counter value at which the edge is due. -/
def compareValue (f : Fall) : Count := Count.ofNat f.due

/-- Time first, then servo number, then pin. -/
protected def le (a b : Fall) : Prop :=
  a.due < b.due ∨ a.due = b.due ∧ (a.servo < b.servo ∨ a.servo = b.servo ∧ a.pin ≤ b.pin)

instance : LE Fall := ⟨Fall.le⟩

instance (a b : Fall) : Decidable (a ≤ b) :=
  inferInstanceAs (Decidable (_ ∨ _ ∧ (_ ∨ _ ∧ _)))

theorem le_def {a b : Fall} : a ≤ b ↔
    a.due < b.due ∨ a.due = b.due ∧ (a.servo < b.servo ∨ a.servo = b.servo ∧ a.pin ≤ b.pin) :=
  Iff.rfl

protected theorem le_refl (a : Fall) : a ≤ a := by
  simp [le_def]

protected theorem le_trans {a b c : Fall} (hab : a ≤ b) (hbc : b ≤ c) : a ≤ c := by
  rw [le_def] at *
  omega

protected theorem le_total (a b : Fall) : a ≤ b ∨ b ≤ a := by
  simp only [le_def]
  omega

protected theorem le_antisymm {a b : Fall} (hab : a ≤ b) (hba : b ≤ a) : a = b := by
  cases a
  cases b
  simp only [le_def, mk.injEq] at *
  omega

theorem due_le_of_le {a b : Fall} (h : a ≤ b) : a.due ≤ b.due := by
  rw [le_def] at h
  omega

/-- Turn and counter value together give the time back. -/
theorem wrap_mul_add_compareValue (f : Fall) :
    f.wrap * ticksPerWrap + f.compareValue.val = f.due :=
  Nat.div_add_mod' f.due ticksPerWrap

/-! ### Pulses of a channel -/

theorem due_lt_ticksPerWrap {f : Fall} (h : f.due ≤ maxTargetTicks) : f.due < ticksPerWrap :=
  Nat.lt_of_le_of_lt h maxTargetTicks_lt_ticksPerWrap

/-- The fall of a pulse comes in the first turn of its period. -/
theorem wrap_eq_zero {f : Fall} (h : f.due ≤ maxTargetTicks) : f.wrap = 0 :=
  Nat.div_eq_of_lt (due_lt_ticksPerWrap h)

theorem val_compareValue {f : Fall} (h : f.due ≤ maxTargetTicks) : f.compareValue.val = f.due :=
  Nat.mod_eq_of_lt (due_lt_ticksPerWrap h)

end Fall

end ServoPulse
