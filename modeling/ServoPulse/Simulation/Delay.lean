import ServoPulse.Engine.Stop
import ServoPulse.Simulation.Run

/-!
# Delays

A delay of some microseconds is made of calls that each wait for a number of nanoseconds
in 32 bits: as many calls of the longest whole number of microseconds as fit, and one for
the rest. Since even a delay of zero makes a call, the longest call comes last where the
delay is a multiple of it.

While a simulated engine stops, a delay may serve every interrupt, let time pass without
serving any, or let no time pass at all.
-/

namespace ServoPulse

/-- The longest whole number of microseconds whose nanoseconds fit in 32 bits. -/
def maxDelayUs : Nat := 4294967

/-- The calls that make up a delay, in nanoseconds. -/
def delayCalls (us : Nat) : List Nat :=
  let full := (us - 1) / maxDelayUs
  List.replicate full (maxDelayUs * 1000) ++ [(us - full * maxDelayUs) * 1000]

/-- Whole ticks in a number of nanoseconds. -/
def ticksOfNs (ns : Nat) : Nat := ns * ticksPerMicrosecond / 1000

/-- What happens during a delay. -/
inductive Delay where
  /-- Time passes and every interrupt is served at once. -/
  | serving
  /-- Time passes and no interrupt is served. -/
  | deaf
  /-- No time passes. -/
  | frozen

/-- The number of calls and the nanoseconds asked for in `polls` delays of `us`. -/
def delayTotals (polls us : Nat) : Nat × Nat :=
  (polls * (delayCalls us).length, polls * us * 1000)

namespace Engine

variable {P : Type} [PinBank P]

/-- One call of a delay. -/
def delayTicks (delay : Delay) (ticks : Nat) : Action (Engine (Bench P)) Unit :=
  match delay with
  | .serving => run ticks
  | .deaf => pass ticks
  | .frozen => pure ()

/-- A delay of `us` microseconds, call by call. -/
def delayUs (delay : Delay) (us : Nat) : Action (Engine (Bench P)) Unit :=
  (delayCalls us).forM fun ns => delayTicks delay (ticksOfNs ns)

/-- Stops the engine with a delay between its looks. -/
def stopWith (delay : Delay) : Action (Engine (Bench P)) StopReport := do
  let poll := (← get).config.stopPollUs.toNat
  stop fun _ => delayUs delay poll

end Engine

end ServoPulse
