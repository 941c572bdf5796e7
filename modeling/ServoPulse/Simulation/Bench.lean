import ServoPulse.Board
import ServoPulse.Pins.Bank
import ServoPulse.Simulation.Clock

/-!
# The simulated board

A `Bench` joins a simulated timer and a bank of pins into a board. Arming the compare
channel takes `lag` ticks, in which the counter runs on and flags rise, but no interrupt
is served.
-/

namespace ServoPulse

/-- A simulated timer and pins of the state `P`. -/
structure Bench (P : Type) where
  clock : Clock := {}
  /-- The ticks that pass while the compare channel is armed. -/
  lag : Nat := 0
  pins : P

namespace Bench

variable {P : Type}

/-- Runs an action of the clock. -/
def onClock {α : Type} (x : Action Clock α) : Action (Bench P) α :=
  Action.zoom Bench.clock (fun clock b => { b with clock }) x

/-- Runs an action of the pins. -/
def onPins {α : Type} (x : Action P α) : Action (Bench P) α :=
  Action.zoom Bench.pins (fun pins b => { b with pins }) x

/-- Arms the compare channel and lets the lag pass. -/
def armCompare (value : Count) : Action (Bench P) Unit := do
  modify fun b => { b with clock := b.clock.arm value }
  let b ← get
  let limit ← b.clock.after b.lag
  onClock (Clock.passUntil limit)

instance [PinBank P] : Board (Bench P) where
  startTimer := onClock Clock.start
  stopTimer b := { b with clock := b.clock.stop }
  counter b := b.clock.counter
  armCompare := armCompare
  disarmCompare b := { b with clock := b.clock.disarm }
  takeOverflow b :=
    let (flag, clock) := b.clock.takeOverflow
    (flag, { b with clock })
  takeCompare b :=
    let (flag, clock) := b.clock.takeCompare
    (flag, { b with clock })
  eligible b := PinBank.eligible b.pins
  configureOutput pin b := { b with pins := PinBank.configureOutput pin b.pins }
  setHigh pin := do onPins (PinBank.setHigh (← get).clock.now pin)
  setLow pin := do onPins (PinBank.setLow (← get).clock.now pin)
  isHigh b := PinBank.isHigh b.pins

end Bench

end ServoPulse
