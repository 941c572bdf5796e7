import ServoPulse.Stm32.Memory
import ServoPulse.Ticks

/-!
# The timer TIM3

TIM3 runs as a free upward counter that overflows after 65535. Its update event, which
sets UIF, marks each overflow; channel 1 of its compare unit, which sets CC1IF, marks the
falls. Both raise the one interrupt of the timer.

The flags of SR are lowered by writing zero to them and untouched by writing one. So a
flag is taken by writing a word that has a zero in its place and ones elsewhere, and
never by reading the register back first.
-/

namespace ServoPulse.Tim3

/-! ### Registers -/

/-- RCC APB1ENR, the clock gate of the timer. -/
def apb1enr : Nat := 0x4002101C

/-- Control register 1. -/
def cr1 : Nat := 0x40000400

/-- Interrupt enable register. -/
def dier : Nat := 0x4000040C

/-- Status register. -/
def sr : Nat := 0x40000410

/-- Event generation register. -/
def egr : Nat := 0x40000414

/-- Counter. -/
def cnt : Nat := 0x40000424

/-- Prescaler. -/
def psc : Nat := 0x40000428

/-- Auto-reload register, the last counter value before an overflow. -/
def arr : Nat := 0x4000042C

/-- Compare register of channel 1. -/
def ccr1 : Nat := 0x40000434

/-- The interrupt set-enable register of the interrupt controller. -/
def iser : Nat := 0xE000E100

/-- The bit of APB1ENR that gives the timer its clock. -/
def tim3en : Nat := 1

/-- The bit of CR1 that lets the counter run. -/
def cen : Nat := 0

/-- The bit of DIER for the overflow interrupt, and of SR for the overflow flag. -/
def update : Nat := 0

/-- The bit of DIER for the compare interrupt, and of SR for the compare flag. -/
def cc1 : Nat := 1

/-- The number of the interrupt. -/
def irq : Nat := 16

/-! ### Operations -/

/-- Starts the counter from zero with the overflow interrupt enabled. The update event
loads the prescaler; the flag it sets is lowered again before the counter runs. -/
def start (prescaler : BitVec 16) (m : Memory) : Memory :=
  m |>.modify apb1enr (·.setBit tim3en true)
    |>.modify cr1 (·.setBit cen false)
    |>.modify psc (·.setLowHalf prescaler)
    |>.write arr 0xFFFF
    |>.write egr 1
    |>.write cnt 0
    |>.write sr 0
    |>.write dier (Word.setBit 0 update true)
    |>.modify cr1 (·.setBit cen true)

/-- Stops the counter, disables both interrupts and lowers both flags. -/
def stop (m : Memory) : Memory :=
  m |>.modify cr1 (·.setBit cen false)
    |>.write dier 0
    |>.write sr 0

/-- The counter: the low half of its register. -/
def counter (m : Memory) : Count := Count.ofNat (m.read cnt).toNat

/-- Arms the compare channel. -/
def arm (value : Count) (m : Memory) : Memory :=
  m |>.write ccr1 (BitVec.ofNat 32 value)
    |>.modify dier (·.setBit cc1 true)

/-- Lowers one flag and leaves the other. -/
def lowerFlag (flag : Nat) (m : Memory) : Memory :=
  m.write sr (Word.setBit (BitVec.allOnes 32) flag false)

/-- Disarms the compare channel and lowers its flag. -/
def disarm (m : Memory) : Memory :=
  m |>.modify dier (·.setBit cc1 false)
    |> lowerFlag cc1

/-- Reports a flag and lowers it. -/
def takeFlag (flag : Nat) (m : Memory) : Bool × Memory :=
  if (m.read sr).getLsbD flag then (true, lowerFlag flag m) else (false, m)

/-- Enables the interrupt of the timer in the interrupt controller. -/
def unmask (m : Memory) : Memory := m.write iser (BitVec.twoPow 32 irq)

end ServoPulse.Tim3
