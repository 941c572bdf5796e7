import ServoPulse.Action
import ServoPulse.Ticks

/-!
# Boards

A `Board` is what an engine needs of the hardware: one timer with a free-running 16-bit
counter, an overflow flag and one compare channel, and a fixed bank of output pins.

The counter takes one step in each tick and starts again from zero after 65535, which
raises the overflow flag. While the compare channel is armed, reaching the armed value
raises the compare flag. Both flags lead to the same interrupt.

Operations that no width can overflow are plain functions of the board; the others are
actions, which may trap.
-/

namespace ServoPulse

/-- A timer and a bank of pins, of the state `β`. -/
class Board (β : Type) where
  /-- Resets the counter to zero and starts it, with the compare channel disarmed and
  both flags down. -/
  startTimer : Action β Unit
  /-- Stops the counter, disarms the compare channel and lowers both flags. -/
  stopTimer : β → β
  /-- The present value of the counter. -/
  counter : β → Checked Count
  /-- Arms the compare channel for a counter value, in place of the one armed before. -/
  armCompare : Count → Action β Unit
  /-- Disarms the compare channel and lowers its flag. -/
  disarmCompare : β → β
  /-- Reports the overflow flag and lowers it. -/
  takeOverflow : β → Bool × β
  /-- Reports the compare flag and lowers it. -/
  takeCompare : β → Bool × β
  /-- The pins that may carry servo pulses. Requests for other pins do nothing. -/
  eligible : β → List Nat
  /-- Makes a pin an output, driven low. -/
  configureOutput : Nat → β → β
  /-- Drives a pin high. -/
  setHigh : Nat → Action β Unit
  /-- Drives a pin low. -/
  setLow : Nat → Action β Unit
  /-- Whether a pin is driven high. -/
  isHigh : β → Nat → Bool

end ServoPulse
