import ServoPulse.Engine.Pulses

/-!
# Stopping an engine

`Engine.stop` waits for a pulse in flight to end, so that no servo sees a truncated
pulse. It looks every `stopPollUs` µs and waits for at most `stopTimeoutUs` µs; when the
time is over, the pins are driven low anyway.

What happens during a wait is up to the caller: `wait k` is the `k`-th of them, from
zero. It may serve interrupts, let time pass without serving any, or do nothing at all.
-/

namespace ServoPulse

/-- How a stop went. -/
structure StopReport where
  /-- The number of waits. -/
  polls : Nat
  /-- Whether a pulse was cut short. -/
  forced : Bool
  deriving DecidableEq

namespace Engine

variable {β : Type} [Board β]

/-- Halts the engine and looks at the channels a last time. -/
def shutDown : Action (Engine β) Unit := do
  halt
  modify fun e => { e with started := false, moving := e.table.anyMoving }

/-- The time waited after another wait of `poll`, cut down to what 32 bits hold. -/
def addWait (waited poll : Nat) : Nat := min (waited + poll) (Width.last .bits32)

/-- Shuts the engine down once no pulse is in flight or the time waited has reached the
timeout, and waits otherwise. So far `polls` waits took `waited` µs.

Each wait of at least 1 µs brings the timeout nearer, so `fuel` lasts if it is more than
the timeout has microseconds. -/
def awaitFalls (wait : Nat → Action (Engine β) Unit) (poll timeout : Nat) :
    (fuel polls waited : Nat) → Action (Engine β) StopReport
  | 0, polls, _ => do
    shutDown
    return ⟨polls, true⟩
  | fuel + 1, polls, waited => do
    let inFlight := (← get).pulseInFlight
    if inFlight ∧ waited < timeout then
      wait polls
      awaitFalls wait poll timeout fuel (polls + 1) (addWait waited poll)
    else
      shutDown
      return ⟨polls, inFlight⟩

/-- **Stopping.** An engine that is not started stays as it is. -/
def stop (wait : Nat → Action (Engine β) Unit) : Action (Engine β) StopReport := do
  let e ← get
  if e.started then
    let timeout := e.config.stopTimeoutUs.toNat
    awaitFalls wait e.config.stopPollUs.toNat timeout (timeout + 1) 0 0
  else return ⟨0, false⟩

end Engine

end ServoPulse
