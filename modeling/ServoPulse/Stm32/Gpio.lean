import ServoPulse.Stm32.Memory

/-!
# Servo outputs on the GPIO blocks

The pins of the chip come in blocks of sixteen, lettered from A: pin `n` of block `k` has
the number `16 * k + n`. Six pins are eligible, and three blocks are driven: A, B and F. A
level is set by one write to BSRR, which never disturbs another pin of the block: bit `n`
sets pin `n`, bit `16 + n` resets it.

The levels are kept by slot, the place of a pin among the eligible ones. They follow
`drive` alone: making a pin an output resets it in its block and leaves its slot as it is.
-/

namespace ServoPulse

/-- The output pins of the chip. -/
structure Gpio where
  /-- The eligible pins. -/
  ids : Vector Nat 6
  /-- Whether the pin of each slot was last driven high. -/
  levels : Vector Bool 6 := Vector.replicate 6 false

namespace Gpio

/-- The address of the registers of a driven block. -/
def blockBase? : (block : Nat) → Option Nat
  | 0 => some 0x48000000
  | 1 => some 0x48000400
  | 5 => some 0x48001400
  | _ => none

/-- The register with the mode of each pin in two bits, from the base of the block. -/
def moder (base : Nat) : Nat := base

/-- The register that sets and resets pins, from the base of the block. -/
def bsrr (base : Nat) : Nat := base + 0x18

/-- The word for BSRR that drives pin `n` to a level. -/
def bsrrWord (n : Nat) (level : Bool) : Word := BitVec.twoPow 32 (if level then n else 16 + n)

/-- The modes with that of pin `n` set to 01, a general purpose output. -/
def setOutput (n : Nat) (w : Word) : Word := (w.setBit (2 * n) true).setBit (2 * n + 1) false

/-- The slot of an eligible pin; the first one, if a pin is listed twice. -/
def slot? (g : Gpio) (pin : Nat) : Option Nat := g.ids.toList.idxOf? pin

/-- The slot of a pin and the base of its block, if the pin is eligible and its block is
driven. -/
def locate? (g : Gpio) (pin : Nat) : Option (Nat × Nat) := do
  let slot ← g.slot? pin
  let base ← blockBase? (pin / 16)
  return (slot, base)

/-- Drives a pin to a level. -/
def drive (pin : Nat) (level : Bool) (g : Gpio) (m : Memory) : Gpio × Memory :=
  match g.locate? pin with
  | some (slot, base) =>
    ({ g with levels := g.levels.setIfInBounds slot level },
      m.write (bsrr base) (bsrrWord (pin % 16) level))
  | none => (g, m)

/-- Makes a pin an output, reset in its block before it takes effect. -/
def configureOutput (g : Gpio) (pin : Nat) (m : Memory) : Memory :=
  match g.locate? pin with
  | some (_, base) =>
    m |>.write (bsrr base) (bsrrWord (pin % 16) false)
      |>.modify (moder base) (setOutput (pin % 16))
  | none => m

/-- Whether a pin was last driven high. -/
def isHigh (g : Gpio) (pin : Nat) : Bool :=
  match g.slot? pin with
  | some slot => g.levels[slot]?.getD false
  | none => false

end Gpio

end ServoPulse
