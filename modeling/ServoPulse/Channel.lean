import ServoPulse.Ticks

/-!
# Servo channels

A channel holds the pin of one servo, the pulse width it was told to take (`target`),
the width it is emitting (`position`) and how far the position may move in one period
(`speed`, 0 for no limit). `Channel.step` is one period's movement: it never passes the
target (`Channel.nextPosition_le_max`, `Channel.min_le_nextPosition`) and leaves a channel that
has arrived where it is.
-/

namespace ServoPulse

/-- One servo channel. Widths are in ticks. -/
structure Channel where
  /-- The output pin. -/
  pin : Nat := 0
  /-- The pulse width commanded. -/
  target : Nat := 0
  /-- The pulse width emitted. -/
  position : Nat := 0
  /-- The largest change of the position in one period, or 0 for no limit. -/
  speed : Nat := 0
  deriving DecidableEq, Inhabited

namespace Channel

/-- Whether the width emitted differs from the one commanded. -/
def isMoving (c : Channel) : Bool := c.position != c.target

/-- The position one period later: at most `speed` ticks nearer to the target, and the
target itself when there is no limit. -/
def nextPosition (c : Channel) : Nat :=
  if c.speed = 0 then c.target
  else if c.position ≤ c.target then min (c.position + c.speed) c.target
  else max (c.position - c.speed) c.target

/-- Moves the position by one period toward the target. -/
def step (c : Channel) : Channel := { c with position := c.nextPosition }

/-- Gives the channel a new target. The position follows at once when there is no speed
limit, when the channel is not pulsing yet, or when the target is 0. -/
def aim (c : Channel) (target : Nat) : Channel :=
  { c with
    target
    position := if c.speed = 0 ∨ c.position = 0 ∨ target = 0 then target else c.position }

@[simp] theorem step_pin (c : Channel) : c.step.pin = c.pin := rfl

@[simp] theorem step_target (c : Channel) : c.step.target = c.target := rfl

@[simp] theorem step_speed (c : Channel) : c.step.speed = c.speed := rfl

@[simp] theorem step_position (c : Channel) : c.step.position = c.nextPosition := rfl

theorem isMoving_iff (c : Channel) : c.isMoving = true ↔ c.position ≠ c.target := by
  simp [isMoving]

/-- A channel on target stays there. -/
theorem nextPosition_of_eq {c : Channel} (h : c.position = c.target) :
    c.nextPosition = c.target := by
  unfold nextPosition
  repeat' split
  all_goals omega

theorem nextPosition_le_max (c : Channel) : c.nextPosition ≤ max c.position c.target := by
  unfold nextPosition
  repeat' split
  all_goals omega

theorem min_le_nextPosition (c : Channel) : min c.position c.target ≤ c.nextPosition := by
  unfold nextPosition
  repeat' split
  all_goals omega

end Channel

end ServoPulse
