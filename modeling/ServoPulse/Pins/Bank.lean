import ServoPulse.Action

/-!
# Banks of pins

A `PinBank` is the part of a simulated board that holds the output pins. Each level
change is told the time at which it happens, for banks that keep a record.
-/

namespace ServoPulse

/-- Output pins, of the state `P`. -/
class PinBank (P : Type) where
  /-- The pins that may carry servo pulses. -/
  eligible : P → List Nat
  /-- Makes a pin an output, driven low. -/
  configureOutput : Nat → P → P
  /-- Drives a pin high at the time `now`. -/
  setHigh : (now pin : Nat) → Action P Unit
  /-- Drives a pin low at the time `now`. -/
  setLow : (now pin : Nat) → Action P Unit
  /-- Whether a pin is driven high. -/
  isHigh : P → Nat → Bool

end ServoPulse
