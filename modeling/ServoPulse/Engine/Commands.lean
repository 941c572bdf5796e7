import ServoPulse.Engine.Basic

/-!
# Targets and speeds

Commands to single channels. A target is cut down to the largest one. The position
follows it at once when the channel has no speed limit, does not pulse yet, or is to
stop pulsing (`Channel.aim`); otherwise it moves from period to period.

A command for a servo that is not configured traps in the `debug` profile and does
nothing in the `release` profile.
-/

namespace ServoPulse

namespace Engine

variable {β : Type}

/-- Looks again at whether some channel is off its target, after a write to `servo`. A
running engine only notes that a channel was set in motion, since the next period looks
for itself; a stopped one has no next period. -/
def refreshMoving (servo : Nat) (e : Engine β) : Engine β :=
  if (e.channel? servo).any Channel.isMoving then { e with moving := true }
  else if e.started then e
  else { e with moving := e.table.anyMoving }

/-- Commands a pulse width in ticks. -/
def setTargetTicks (servo ticks : Nat) : Action (Engine β) Unit := do
  if (← (← get).servo? servo).isSome then
    modify fun e =>
      { e with table := e.table.modify servo (·.aim (clampTicks ticks)) }.refreshMoving servo

/-- Commands a pulse width in microseconds. -/
def setTargetUs (servo us : Nat) : Action (Engine β) Unit :=
  setTargetTicks servo (usToTicks us)

/-- Sets the largest change of the position in one period, 0 for no limit. -/
def setSpeed (servo speed : Nat) : Action (Engine β) Unit := do
  if (← (← get).servo? servo).isSome then
    modify fun e => { e with table := e.table.modify servo ({ · with speed }) }

end Engine

end ServoPulse
