/-!
# Ticks

Pulse widths and times are counted in ticks of 1/24 µs, the step of a 16-bit counter
running at 24 MHz. A target width is at most 2500 µs, which is 60000 ticks and fits
in one turn of the counter; a target of 0 means "no pulses".

Conversions toward ticks saturate at the largest target (`usToTicks_le`,
`clampTicks_le`), so no caller can ask for a width out of range.
-/

namespace ServoPulse

/-- Ticks in a microsecond. -/
abbrev ticksPerMicrosecond : Nat := 24

/-- The largest target width, in microseconds. -/
abbrev maxTargetMicroseconds : Nat := 2500

/-- The largest target width, in ticks. -/
abbrev maxTargetTicks : Nat := 60000

/-- Ticks in one turn of the counter. -/
abbrev ticksPerWrap : Nat := 65536

/-- The number of servo channels. -/
abbrev maxServos : Nat := 6

/-- A pulse is shorter than a turn of the counter. -/
theorem maxTargetTicks_lt_ticksPerWrap : maxTargetTicks < ticksPerWrap := by decide

/-- A value of the counter, or one to compare it with. -/
abbrev Count : Type := Fin ticksPerWrap

/-- The counter value after `n` ticks from zero. -/
def Count.ofNat (n : Nat) : Count := ⟨n % ticksPerWrap, Nat.mod_lt n (by decide)⟩

/-- Cuts a width in ticks down to the largest target. -/
def clampTicks (ticks : Nat) : Nat := min ticks maxTargetTicks

/-- A width in microseconds as ticks, cut down to the largest target. -/
def usToTicks (us : Nat) : Nat := min us maxTargetMicroseconds * ticksPerMicrosecond

/-- Whole microseconds in a number of ticks. -/
def ticksToUs (ticks : Nat) : Nat := ticks / ticksPerMicrosecond

/-- Periods needed to cover `distance` ticks at `speed` ticks a period, rounded up.
A speed of 0 is unlimited and covers any distance in one period. -/
def rampPeriods (distance speed : Nat) : Nat :=
  if distance = 0 then 0
  else if speed = 0 then 1
  else (distance + speed - 1) / speed

theorem clampTicks_le (ticks : Nat) : clampTicks ticks ≤ maxTargetTicks :=
  Nat.min_le_right _ _

theorem clampTicks_of_le {ticks : Nat} (h : ticks ≤ maxTargetTicks) :
    clampTicks ticks = ticks :=
  Nat.min_eq_left h

theorem usToTicks_le (us : Nat) : usToTicks us ≤ maxTargetTicks :=
  Nat.mul_le_mul_right 24 (Nat.min_le_right us 2500)

@[simp] theorem clampTicks_usToTicks (us : Nat) : clampTicks (usToTicks us) = usToTicks us :=
  clampTicks_of_le (usToTicks_le us)

/-- Going to ticks and back loses only what lies beyond the largest target. -/
theorem ticksToUs_usToTicks (us : Nat) :
    ticksToUs (usToTicks us) = min us maxTargetMicroseconds :=
  Nat.mul_div_cancel _ (by decide)

/-- A ramp of `n` periods covers the distance, and one of fewer does not. -/
theorem rampPeriods_le_iff {distance speed n : Nat} (hs : 0 < speed) :
    rampPeriods distance speed ≤ n ↔ distance ≤ n * speed := by
  unfold rampPeriods
  split
  · simp_all
  · rw [if_neg (by omega), Nat.div_le_iff_le_mul_add_pred hs, Nat.mul_comm]
    omega

/-- A ramp has no more periods than its distance has ticks. -/
theorem rampPeriods_le (distance speed : Nat) : rampPeriods distance speed ≤ distance := by
  by_cases h_speed : speed = 0
  · unfold rampPeriods
    by_cases h_distance : distance = 0
    · rw [if_pos h_distance]
      exact Nat.zero_le _
    · rw [if_neg h_distance, if_pos h_speed]
      exact Nat.one_le_iff_ne_zero.2 h_distance
  · have h_pos := Nat.pos_of_ne_zero h_speed
    exact (rampPeriods_le_iff h_pos).2 (Nat.le_mul_of_pos_right _ h_pos)

end ServoPulse
