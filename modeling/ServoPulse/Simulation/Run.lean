import ServoPulse.Engine.Pulses
import ServoPulse.Simulation.Bench

/-!
# Running an engine in simulated time

Time passes on the bench of an engine in three ways. `Engine.advance` jumps to the next
event at most and leaves the interrupt to the caller; `Engine.run` serves every interrupt
as soon as its flag rises; `Engine.pass` serves none. `Engine.runPeriods` runs until a
number of periods have begun.
-/

namespace ServoPulse

namespace Engine

variable {P : Type}

/-- Runs an action of the clock. -/
def onClock {α : Type} (x : Action Clock α) : Action (Engine (Bench P)) α :=
  onBoard (Bench.onClock x)

/-- The time `ticks` from now. -/
def after (e : Engine (Bench P)) (ticks : Nat) : Checked Nat := e.board.clock.after ticks

/-- Moves to the next event, or by `ticks` if none comes before, and answers whether one
came. -/
def advance (ticks : Nat) : Action (Engine (Bench P)) Bool := do
  let limit ← (← get).after ticks
  onClock (Clock.advanceUntil limit)

/-- Lets `ticks` pass and serves no interrupt. -/
def pass (ticks : Nat) : Action (Engine (Bench P)) Unit := do
  let limit ← (← get).after ticks
  onClock (Clock.passUntil limit)

variable [PinBank P]

/-- Moves to the next event up to the limit and serves its interrupt, and answers whether
one came. -/
def serveNext (limit : Nat) : Action (Engine (Bench P)) Bool := do
  let event ← onClock (Clock.advanceUntil limit)
  if event then interrupt
  return event

/-- Lets `ticks` pass and serves every interrupt at once. -/
def run (ticks : Nat) : Action (Engine (Bench P)) Unit := do
  let limit ← (← get).after ticks
  Action.repeatWhile (serveNext limit) Clock.instants

/-- Serves the next event if fewer than `goal` periods have begun since there were
`before`, and answers whether it did. With the timer stopped there is none. -/
def serveToward (before : UInt32) (goal : Nat) : Action (Engine (Bench P)) Bool := do
  let e ← get
  if e.periodsSince before < goal then
    if (← e.board.clock.nextEvent?).isSome then
      _ ← serveNext Clock.lastInstant
      return true
    else return false
  else return false

/-- Serves interrupts until `goal` more periods have begun, or the timer is stopped. -/
def runPeriods (goal : Nat) : Action (Engine (Bench P)) Unit := do
  let before := (← get).periods
  Action.repeatWhile (serveToward before goal) Clock.instants

/-- Serves interrupts until `goal` more periods have begun, then until the pulses of the
last one must have ended. -/
def runFullPeriods (goal : Nat) : Action (Engine (Bench P)) Unit := do
  runPeriods goal
  run (maxTargetTicks + 1)

/-- Runs `x` and answers how many periods it began. -/
def countPeriods (x : Action (Engine (Bench P)) Unit) : Action (Engine (Bench P)) Nat := do
  let before := (← get).periods
  x
  return (← get).periodsSince before

end Engine

end ServoPulse
