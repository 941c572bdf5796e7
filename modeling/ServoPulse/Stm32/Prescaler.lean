/-!
# Choosing the prescaler

The prescaler divides the clock of the timer by one more than its value. The counter has
to run at exactly 24 MHz, so only clocks that are whole multiples of it can be used.
-/

namespace ServoPulse.Tim3

/-- The rate of the counter: one step in 1/24 µs. -/
def counterHz : Nat := 24000000

/-- Why a clock cannot drive the counter at its rate. -/
inductive ClockError where
  /-- The clock is below 24 MHz. -/
  | tooSlow
  /-- The clock is not a whole multiple of 24 MHz. -/
  | notMultiple
  deriving DecidableEq

/-- The prescaler that makes a clock of `hz` count at 24 MHz. -/
def prescalerFor (hz : Nat) : Except ClockError Nat :=
  if hz < counterHz then .error .tooSlow
  else if hz % counterHz ≠ 0 then .error .notMultiple
  else .ok (hz / counterHz - 1)

/-- The prescaler found divides the clock down to 24 MHz. -/
theorem mul_counterHz_of_prescalerFor {hz prescaler : Nat}
    (h : prescalerFor hz = .ok prescaler) : (prescaler + 1) * counterHz = hz := by
  unfold prescalerFor at h
  split at h
  · cases h
  · split at h
    · cases h
    · simp only [Except.ok.injEq, counterHz] at *
      omega

end ServoPulse.Tim3
