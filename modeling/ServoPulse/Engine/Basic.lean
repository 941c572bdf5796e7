import ServoPulse.Board
import ServoPulse.ChannelTable
import ServoPulse.Config
import ServoPulse.FallQueue

/-!
# The state of an engine

An `Engine` owns a board and the channels of up to six servos. A logical period lasts
`wrapsPerPeriod` turns of the counter; `wrap` counts them. At the start of a period
every pulsing pin rises, and `queue` holds the falls that are still to come.

Reads of a channel go through `Engine.servo?`: naming a servo that is not configured
traps in the `debug` profile and finds nothing in the `release` profile.
-/

namespace ServoPulse

/-- Where an engine is within the current period. -/
inductive Phase where
  /-- The timer is stopped. -/
  | halted
  /-- Pins raised in this period are waiting for their fall. -/
  | emitting
  /-- Every pulse of the period has ended. -/
  | idle
  deriving DecidableEq

/-- A six-channel servo pulse engine on a board of the state `β`. -/
structure Engine (β : Type) where
  /-- The timer and the pins. -/
  board : β
  /-- The timing parameters, fixed for the life of the engine. -/
  config : Config
  /-- The servo channels. -/
  table : ChannelTable := {}
  /-- Whether the engine was started and not stopped since. -/
  started : Bool := false
  /-- Whether some channel was off its target when this was last looked at. -/
  moving : Bool := false
  /-- Turns of the counter since the period started. -/
  wrap : Nat := 0
  phase : Phase := .halted
  /-- The falls still to come in this period. -/
  queue : FallQueue := {}
  /-- Periods begun since the engine was made. -/
  periods : UInt32 := 0

namespace Engine

variable {β : Type}

/-- Runs an action of the board. -/
def onBoard {α : Type} (x : Action β α) : Action (Engine β) α :=
  Action.zoom Engine.board (fun board e => { e with board }) x

/-- Changes the board by a function. -/
def changeBoard (f : β → β) : Action (Engine β) Unit :=
  modify fun e => { e with board := f e.board }

/-- Ticks since the current period started. -/
def elapsed [Board β] (e : Engine β) : Checked Nat :=
  (fun count => e.wrap * ticksPerWrap + count.val) <$> Board.counter e.board

/-- Whether some pin raised in this period has not fallen yet. -/
def pulseInFlight (e : Engine β) : Bool := !e.queue.isEmpty

/-- The periods begun since there were `before`. -/
def periodsSince (e : Engine β) (before : UInt32) : Nat := (e.periods - before).toNat

/-! ### Reading the channels -/

/-- The number of configured channels. -/
def servoCount (e : Engine β) : Nat := e.table.count

/-- The channel of a servo, if it is configured. -/
def channel? (e : Engine β) (servo : Nat) : Option Channel := e.table.get? servo

/-- The pin of a servo, if it is configured. -/
def pin? (e : Engine β) (servo : Nat) : Option Nat := (e.channel? servo).map Channel.pin

/-- The channel of a servo that the caller takes to be configured. Naming another one
is a mistake of the caller, which only the `debug` profile reports. -/
def servo? (e : Engine β) (servo : Nat) : Checked (Option Channel) := do
  Checked.require (e.channel? servo).isSome (.servoOutOfRange servo e.servoCount)
  return e.channel? servo

/-- One number of a channel, or 0 where there is no channel. -/
def readChannel (e : Engine β) (servo : Nat) (field : Channel → Nat) : Checked Nat :=
  (fun channel? => (channel?.map field).getD 0) <$> e.servo? servo

/-- The pulse width commanded, in microseconds. -/
def targetUs (e : Engine β) (servo : Nat) : Checked Nat :=
  e.readChannel servo fun c => ticksToUs c.target

/-- The pulse width commanded, in ticks. -/
def targetTicks (e : Engine β) (servo : Nat) : Checked Nat := e.readChannel servo Channel.target

/-- The speed limit, in ticks a period. -/
def speed (e : Engine β) (servo : Nat) : Checked Nat := e.readChannel servo Channel.speed

/-- The pulse width emitted, in microseconds. -/
def positionUs (e : Engine β) (servo : Nat) : Checked Nat :=
  e.readChannel servo fun c => ticksToUs c.position

/-- The pulse width emitted, in ticks. -/
def positionTicks (e : Engine β) (servo : Nat) : Checked Nat :=
  e.readChannel servo Channel.position

end Engine

end ServoPulse
