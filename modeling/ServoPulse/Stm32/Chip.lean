import ServoPulse.Board
import ServoPulse.Stm32.Gpio
import ServoPulse.Stm32.Timer

/-!
# The chip as a board

A `Chip` joins TIM3 and six outputs on the GPIO blocks into a board. Its registers are
plain memory that nothing but the drivers and `Chip.poke` changes.
-/

namespace ServoPulse

/-- The registers of the chip and what its drivers keep beside them. -/
structure Chip where
  memory : Memory := {}
  /-- The value written to the prescaler when the timer starts. -/
  prescaler : BitVec 16 := 0
  gpio : Gpio

namespace Chip

/-- Stores a word in a register. -/
def poke (address : Nat) (w : Word) (c : Chip) : Chip :=
  { c with memory := c.memory.write address w }

/-- Lets a driver of the timer change the registers. -/
def onTimer (f : Memory → Memory) (c : Chip) : Chip := { c with memory := f c.memory }

/-- Reports a flag of the timer and lowers it. -/
def takeFlag (flag : Nat) (c : Chip) : Bool × Chip :=
  let (raised, memory) := Tim3.takeFlag flag c.memory
  (raised, { c with memory })

/-- Drives a pin to a level. -/
def drive (pin : Nat) (level : Bool) (c : Chip) : Chip :=
  let (gpio, memory) := c.gpio.drive pin level c.memory
  { c with gpio, memory }

instance : Board Chip where
  startTimer := modify fun c => c.onTimer (Tim3.start c.prescaler)
  stopTimer := onTimer Tim3.stop
  counter c := pure (Tim3.counter c.memory)
  armCompare value := modify (onTimer (Tim3.arm value))
  disarmCompare := onTimer Tim3.disarm
  takeOverflow := takeFlag Tim3.update
  takeCompare := takeFlag Tim3.cc1
  eligible c := c.gpio.ids.toList
  configureOutput pin c := { c with memory := c.gpio.configureOutput pin c.memory }
  setHigh pin := modify (drive pin true)
  setLow pin := modify (drive pin false)
  isHigh c := c.gpio.isHigh

end Chip

end ServoPulse
