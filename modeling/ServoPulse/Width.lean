/-!
# Widths

The numbers of this library are natural numbers. Where one has to fit in a fixed number of
bits, a `Width` says so.
-/

namespace ServoPulse

/-- How many bits a number has. -/
inductive Width where
  | bits8
  | bits32
  | bits64
  deriving DecidableEq

/-- How many numbers have the width: the first one that does not fit. -/
def Width.size : Width → Nat
  | bits8 => 0x100
  | bits32 => 0x100000000
  | bits64 => 0x10000000000000000

/-- The largest number of the width. -/
def Width.last (w : Width) : Nat := w.size - 1

theorem Width.size_pos (w : Width) : 0 < w.size := by
  cases w <;> decide

end ServoPulse
