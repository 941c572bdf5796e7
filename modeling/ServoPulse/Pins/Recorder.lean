import ServoPulse.Pins.Bank

/-!
# Recorded pins

A `PinRecorder` is a bank of simulated pins that keeps the last 64 completed pulses and
counts how often it was driven wrongly: a rise of a pin that is not an output or is high
already, and a fall of a pin that is not an output. A violation has no other effect.

Six pins are eligible; requests for others are ignored outright.
-/

namespace ServoPulse

/-- A completed pulse. -/
structure Pulse where
  pin : Nat
  /-- The time of the rising edge. -/
  roseAt : Nat
  /-- The ticks for which the pin was high. -/
  width : Nat
  deriving DecidableEq

/-- What a recorded pin is doing. -/
inductive PinState where
  /-- Not an output yet. -/
  | unconfigured
  | low
  /-- High since the time `roseAt`. -/
  | high (roseAt : Nat)
  deriving DecidableEq

/-- Simulated pins and the record of their pulses. -/
structure PinRecorder where
  pins : Vector PinState 32 := Vector.replicate 32 .unconfigured
  /-- The last completed pulses, oldest first. -/
  pulses : List Pulse := []
  /-- Rises and falls that were out of order. -/
  violations : Nat := 0
  deriving DecidableEq

namespace PinRecorder

/-- The pins that may carry servo pulses. -/
def eligiblePins : List Nat := [2, 3, 4, 10, 11, 12]

/-- How many completed pulses are kept. -/
def capacity : Nat := 64

/-- The state of a pin. -/
def state (r : PinRecorder) (pin : Nat) : PinState := r.pins[pin]?.getD .unconfigured

/-- The recorder with a pin in another state. -/
def setState (r : PinRecorder) (pin : Nat) (s : PinState) : PinRecorder :=
  { r with pins := r.pins.setIfInBounds pin s }

theorem state_setState (r : PinRecorder) (pin other : Nat) (s : PinState) :
    (r.setState pin s).state other =
      if pin = other ∧ pin < 32 then s else r.state other := by
  simp only [state, setState, Vector.getElem?_setIfInBounds]
  by_cases h : pin = other
  · subst h
    by_cases hp : pin < 32 <;> simp [hp]
  · simp [h]

/-- Whether a pin is driven high. -/
def isHigh (r : PinRecorder) (pin : Nat) : Bool :=
  match r.state pin with
  | .high _ => true
  | _ => false

/-- Whether a pin was made an output. -/
def isOutput (r : PinRecorder) (pin : Nat) : Bool := r.state pin != .unconfigured

/-- The pins driven high, in ascending order. -/
def highPins (r : PinRecorder) : List Nat := (List.range 32).filter r.isHigh

/-- The pins made outputs, in ascending order. -/
def outputPins (r : PinRecorder) : List Nat := (List.range 32).filter r.isOutput

/-- The completed pulses of one pin, oldest first. -/
def pulsesOn (r : PinRecorder) (pin : Nat) : List Pulse := r.pulses.filter (·.pin == pin)

/-- The last completed pulse of one pin. -/
def lastPulse? (r : PinRecorder) (pin : Nat) : Option Pulse := (r.pulsesOn pin).getLast?

/-- Forgets the completed pulses, and keeps the levels. -/
def clearPulses (r : PinRecorder) : PinRecorder := { r with pulses := [] }

/-- The last `n` entries of a list. -/
def lastOf {α : Type} (n : Nat) (l : List α) : List α := l.drop (l.length - n)

/-- Adds a completed pulse; the oldest one goes when there are too many. -/
def record (r : PinRecorder) (p : Pulse) : PinRecorder :=
  { r with pulses := lastOf capacity (r.pulses ++ [p]) }

/-- Counts a violation. -/
def violate : Action PinRecorder Unit := do
  let violations ← Checked.add .bits32 (← get).violations 1
  modify fun r => { r with violations }

/-- A rising edge at the time `now`. -/
def rise (now pin : Nat) : Action PinRecorder Unit := do
  match (← get).state pin with
  | .low => modify (·.setState pin (.high now))
  | _ => violate

/-- A falling edge at the time `now`. -/
def fall (now pin : Nat) : Action PinRecorder Unit := do
  match (← get).state pin with
  | .unconfigured => violate
  | .low => pure ()
  | .high roseAt =>
    modify (·.setState pin .low)
    let width ← Checked.sub .bits64 now roseAt
    modify (·.record ⟨pin, roseAt, width⟩)

instance : PinBank PinRecorder where
  eligible _ := eligiblePins
  configureOutput pin r := if pin ∈ eligiblePins then r.setState pin .low else r
  setHigh now pin := if pin ∈ eligiblePins then rise now pin else pure ()
  setLow now pin := if pin ∈ eligiblePins then fall now pin else pure ()
  isHigh := isHigh

end PinRecorder

end ServoPulse
