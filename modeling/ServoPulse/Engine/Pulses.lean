import ServoPulse.Engine.Basic

/-!
# Making pulses

The side of an engine that runs from the timer interrupt. `Engine.interrupt` takes both
flags of the timer and then does what they call for:

* an overflow that completes the period begins the next one (`beginPeriod`): it moves
  every channel one step toward its target, and raises the pin of every channel whose
  position is not zero, putting its fall on the queue;
* any overflow or compare match lowers the pins that are due and arms the compare
  channel for the next fall (`settle`).

Arming takes time, in which the counter may pass the value armed. So `settle` looks at
the clock again after arming, and lowers what has come due meanwhile.
-/

namespace ServoPulse

namespace Engine

variable {β : Type} [Board β]

/-! ### Between periods -/

/-- Makes every channel's pin an output, driven low. A pin still high from a pulse in
flight is an output already, and is left to fall on time. -/
def configureOutputs : Action (Engine β) Unit := do
  (← get).table.active.forM fun c => do
    unless Board.isHigh (← get).board c.pin do
      changeBoard (Board.configureOutput c.pin)

/-- Starts the timer. Its first overflow begins the first period. -/
def startPulses : Action (Engine β) Unit := do
  modify fun e =>
    { e with queue := {}, wrap := e.config.wrapsPerPeriod.toNat - 1, phase := .idle }
  onBoard Board.startTimer

/-- Stops the timer and drives every channel's pin low. -/
def halt : Action (Engine β) Unit := do
  changeBoard Board.stopTimer
  modify fun e => { e with queue := {} }
  (← get).table.active.forM fun c => onBoard (Board.setLow c.pin)
  modify fun e => { e with phase := .halted }

/-! ### The start of a period -/

/-- Takes the fall `f` off the queue, leaving `rest`, and drives its pin low. -/
def lower (f : Fall) (rest : List Fall) : Action (Engine β) Unit := do
  modify fun e => { e with queue := ⟨rest⟩ }
  onBoard (Board.setLow f.pin)

/-- Drives the pins of all pending falls low, in order. -/
def lowerAll : List Fall → Action (Engine β) Unit
  | [] => pure ()
  | f :: rest => do
    lower f rest
    lowerAll rest

/-- Raises the pin of servo `servo` for the width of its position. A channel at 0 emits
no pulse, and neither does one whose fall finds no room on the queue. -/
def raise (servo : Nat) (c : Channel) : Action (Engine β) Unit := do
  if c.position ≠ 0 then
    if let .ok queue := (← get).queue.push ⟨c.position, servo, c.pin⟩ then
      modify fun e => { e with queue }
      onBoard (Board.setHigh c.pin)

/-- Begins a period. Falls left over from the one before, which were due past its end or
served too late, are carried out first. The channels are looked at before they step, so
`moving` stays up through the period in which the last of them arrives. -/
def beginPeriod : Action (Engine β) Unit := do
  lowerAll (← get).queue.events
  modify fun e => { e with moving := e.table.anyMoving, table := e.table.step }
  (← get).table.active.zipIdx.forM fun (c, servo) => raise servo c
  modify fun e =>
    { e with
      periods := e.periods + 1
      phase := if e.queue.isEmpty then .idle else .emitting }

/-! ### Falls -/

/-- **Settling the queue.** Lowers every pin due by `now`, then arms the compare channel
for the next fall. The list is the queue, earliest fall first.

A fall in a later turn of the counter is left to the overflow that begins that turn. If
the next fall has come due by the time the compare channel is armed, lowering goes on
from there. -/
def settle (now : Nat) : List Fall → Action (Engine β) Unit
  | [] => do
    changeBoard Board.disarmCompare
    modify fun e => { e with phase := .idle }
  | f :: rest => do
    if f.due ≤ now then
      lower f rest
      settle now rest
    else if f.wrap ≠ (← get).wrap then
      changeBoard Board.disarmCompare
    else
      onBoard (Board.armCompare f.compareValue)
      -- The counter may have passed the value while it was being armed.
      let later ← (← get).elapsed
      if f.due ≤ later then
        lower f rest
        settle later rest

/-- Lowers every pin that is due and arms the compare channel for the next fall. -/
def fallDue : Action (Engine β) Unit := do
  let e ← get
  settle (← e.elapsed) e.queue.events

/-! ### The interrupt -/

/-- Reports the overflow flag and lowers it. -/
def takeOverflow : Action (Engine β) Bool :=
  modifyGet fun e =>
    let (flag, board) := Board.takeOverflow e.board
    (flag, { e with board })

/-- Reports the compare flag and lowers it. -/
def takeCompare : Action (Engine β) Bool :=
  modifyGet fun e =>
    let (flag, board) := Board.takeCompare e.board
    (flag, { e with board })

/-- Counts a turn of the counter, and begins a period once the last turn of the one
before is over. The count does not grow past 255. -/
def turn : Action (Engine β) Unit := do
  modify fun e => { e with wrap := min (e.wrap + 1) 255 }
  let e ← get
  if e.config.wrapsPerPeriod.toNat ≤ e.wrap then
    set { e with wrap := 0 }
    beginPeriod

/-- **The interrupt of the timer.** Both flags are taken before anything else, so that
one service answers an overflow and a compare match that fell together. A halted engine
only lowers the flags. -/
def interrupt : Action (Engine β) Unit := do
  let overflow ← takeOverflow
  let compare ← takeCompare
  if (← get).phase ≠ .halted then
    if overflow then turn
    if overflow || compare then fallDue

end Engine

end ServoPulse
