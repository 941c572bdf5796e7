import ServoPulse.Action
import ServoPulse.Text.Blank

/-!
# Pin numbers and pin names

Pin `n` of block `k` of the chip has the number `16 * k + n`, and a name such as `PA6`: the
letter `P`, the letter of the block from `A` to `F`, and `n` in decimal, from 0 to 15. White
space around a name is ignored, as are a plus sign and zeros before the decimal number.
-/

namespace ServoPulse.Pin

/-- The number of a pin, in 8 bits. -/
def number (block index : Nat) : Checked Nat := do
  Checked.add .bits8 (← Checked.mul .bits8 block 16) index

/-- The pins wired to the servo headers: PA6, PA7, PB0, PB1, PA9 and PA10. -/
def servoHeaders : Vector Nat 6 := #v[6, 7, 16, 17, 9, 10]

/-- The value of a decimal digit. -/
def digitValue (c : Char) : Nat := c.toNat - '0'.toNat

/-- The number that one or more decimal digits write. Only the digits of ASCII count. -/
def decimal? (digits : List Char) : Option Nat :=
  if !digits.isEmpty && digits.all Char.isDigit then
    some (digits.foldl (fun n c => 10 * n + digitValue c) 0)
  else none

/-- Text without a plus sign in front. -/
def dropPlus : List Char → List Char
  | '+' :: rest => rest
  | s => s

/-- The block with a letter from `A` to `F`. -/
def block? (letter : Char) : Option Nat :=
  if 'A' ≤ letter ∧ letter ≤ 'F' then some (letter.toNat - 'A'.toNat) else none

/-- The index of a pin in its block, from 0 to 15. -/
def index? (s : List Char) : Option Nat := (decimal? (dropPlus s)).filter (· ≤ 15)

/-- The number of the pin with a name. -/
def ofName? (s : String) : Option Nat :=
  match trimBlanks s.toList with
  | 'P' :: letter :: rest => do
    let block ← block? letter
    let index ← index? rest
    return 16 * block + index
  | _ => none

end ServoPulse.Pin
