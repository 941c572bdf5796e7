import ServoPulse.Ticks

/-!
# Timing configuration

A `Config` fixes the length of a period, counted in turns of the 16-bit counter, and
how `stop` waits for a pulse in flight: at most `stopTimeoutUs` µs, looking every
`stopPollUs` µs. The default period of seven turns is 458752 ticks, about 19.11 ms.

Any values can be written; `Config.validate` names the first one that an engine
cannot run with, and `Config.validate_eq_ok_iff` says what it accepts.
-/

namespace ServoPulse

/-- The timing parameters of an engine. -/
structure Config where
  /-- Turns of the counter in one period. -/
  wrapsPerPeriod : UInt8 := 7
  /-- The longest that `stop` waits for a pulse in flight, in microseconds. -/
  stopTimeoutUs : UInt32 := 2800
  /-- The time between two looks while `stop` waits, in microseconds. -/
  stopPollUs : UInt32 := 10
  deriving DecidableEq, Inhabited

namespace Config

/-- One parameter given a value of its own. -/
inductive Setting where
  | wrapsPerPeriod (wraps : UInt8)
  | stopTimeoutUs (us : UInt32)
  | stopPollUs (us : UInt32)

/-- The configuration with one parameter set. -/
def set (c : Config) : Setting → Config
  | .wrapsPerPeriod wraps => { c with wrapsPerPeriod := wraps }
  | .stopTimeoutUs us => { c with stopTimeoutUs := us }
  | .stopPollUs us => { c with stopPollUs := us }

/-- The default configuration with the settings made in order; a later one wins. -/
def ofSettings (settings : List Setting) : Config := settings.foldl set {}

/-- Why an engine cannot run with a configuration. -/
inductive Error where
  /-- A period must span at least one turn of the counter. -/
  | zeroWrapsPerPeriod
  /-- The wait of `stop` is shorter than the longest pulse, which it could cut short. -/
  | stopTimeoutTooShort
  /-- Time would never pass between two looks. -/
  | zeroPollInterval
  deriving DecidableEq

/-- The text reported for an unusable configuration. -/
def Error.message : Error → String
  | zeroWrapsPerPeriod => "wraps per period must be at least 1"
  | stopTimeoutTooShort => s!"stop timeout must be at least {maxTargetMicroseconds} us"
  | zeroPollInterval => "stop poll interval must be non-zero"

/-- The first parameter, in the order of the fields, that an engine cannot run with. -/
def validate (c : Config) : Except Error Unit :=
  if c.wrapsPerPeriod = 0 then .error .zeroWrapsPerPeriod
  else if c.stopTimeoutUs.toNat < maxTargetMicroseconds then .error .stopTimeoutTooShort
  else if c.stopPollUs = 0 then .error .zeroPollInterval
  else .ok ()

/-- The length of a period in ticks. -/
def periodTicks (c : Config) : Nat := c.wrapsPerPeriod.toNat * ticksPerWrap

/-- The length of a period in whole microseconds. -/
def periodUs (c : Config) : Nat := c.periodTicks / ticksPerMicrosecond

/-- The time to ramp across `distance` ticks at `speed` ticks a period, in whole
microseconds. -/
def rampDurationUs (c : Config) (distance speed : Nat) : Nat :=
  rampPeriods distance speed * c.periodTicks / ticksPerMicrosecond

/-- An engine can run with a configuration whose period is not empty, whose wait covers
the longest pulse and whose poll interval is not zero. -/
theorem validate_eq_ok_iff (c : Config) :
    c.validate = .ok () ↔
      0 < c.wrapsPerPeriod.toNat ∧ maxTargetMicroseconds ≤ c.stopTimeoutUs.toNat ∧
        0 < c.stopPollUs.toNat := by
  have hw : c.wrapsPerPeriod = 0 ↔ c.wrapsPerPeriod.toNat = 0 := by
    simp [← UInt8.toNat_inj]
  have hp : c.stopPollUs = 0 ↔ c.stopPollUs.toNat = 0 := by
    simp [← UInt32.toNat_inj]
  simp only [validate, hw, hp, maxTargetMicroseconds]
  repeat' split
  all_goals simp only [reduceCtorEq, false_iff, true_iff]
  all_goals omega

/-- A period fits in 24 bits. -/
theorem periodTicks_lt (c : Config) : c.periodTicks < 0x1000000 := by
  have := c.wrapsPerPeriod.toNat_lt
  simp only [periodTicks, ticksPerWrap]
  omega

end Config

end ServoPulse
