import Std.Data.TreeMap

/-!
# Register memory

The registers of a chip as plain memory: a word of 32 bits at each address, zero at
first, which reads back what was last written to it (`Memory.read_write`).
-/

namespace ServoPulse

/-- A register. -/
abbrev Word : Type := BitVec 32

namespace Word

/-- The word with bit `i` set to `b`. -/
def setBit (w : Word) (i : Nat) (b : Bool) : Word :=
  if b then w ||| BitVec.twoPow 32 i else w &&& ~~~BitVec.twoPow 32 i

/-- The word with its low half replaced. -/
def setLowHalf (w : Word) (half : BitVec 16) : Word := w.extractLsb' 16 16 ++ half

theorem getLsbD_setBit (w : Word) (i j : Nat) (b : Bool) :
    (w.setBit i b).getLsbD j = if j = i ∧ i < 32 then b else w.getLsbD j := by
  by_cases h : j = i ∧ i < 32
  · obtain ⟨rfl, hj⟩ := h
    cases b <;> simp [setBit, hj]
  · rw [if_neg h]
    have hbit : (BitVec.twoPow 32 i).getLsbD j = false := by
      rw [BitVec.getLsbD_twoPow]
      simp only [Bool.and_eq_false_imp, decide_eq_true_eq, decide_eq_false_iff_not]
      omega
    cases b with
    | true => simp only [setBit, if_true, BitVec.getLsbD_or, hbit, Bool.or_false]
    | false =>
      simp only [setBit, Bool.false_eq_true, if_false, BitVec.getLsbD_and, BitVec.getLsbD_not,
        hbit, Bool.not_false, Bool.and_true]
      by_cases hj : j < 32
      · simp only [hj, decide_true, Bool.and_true]
      · simp only [BitVec.getLsbD_of_ge w j (Nat.le_of_not_lt hj), Bool.false_and]

theorem getLsbD_setLowHalf (w : Word) (half : BitVec 16) (j : Nat) :
    (w.setLowHalf half).getLsbD j = if j < 16 then half.getLsbD j else w.getLsbD j := by
  simp only [setLowHalf, BitVec.getLsbD_append, BitVec.getLsbD_extractLsb']
  split
  · rfl
  · have hw : 32 ≤ j → w.getLsbD j = false := BitVec.getLsbD_of_ge w j
    by_cases h : j < 32
    · simp [show j - 16 < 16 by omega, show 16 + (j - 16) = j by omega]
    · simp [show ¬ j - 16 < 16 by omega, hw (by omega)]

end Word

/-- The words of a memory by address. An address without an entry holds zero. -/
structure Memory where
  words : Std.TreeMap Nat Word := {}

namespace Memory

/-- The word at an address. -/
def read (m : Memory) (address : Nat) : Word := m.words.getD address 0

/-- The memory with another word at an address. -/
def write (m : Memory) (address : Nat) (w : Word) : Memory := ⟨m.words.insert address w⟩

/-- Reads a word, changes it and writes it back. -/
def modify (m : Memory) (address : Nat) (f : Word → Word) : Memory :=
  m.write address (f (m.read address))

/-- The words that are not zero, by ascending address. -/
def nonzero (m : Memory) : List (Nat × Word) := m.words.toList.filter (·.2 != 0)

@[simp] theorem read_empty (address : Nat) : read {} address = 0 := by
  simp [read]

/-- A word reads back as it was last written. -/
@[simp] theorem read_write (m : Memory) (address other : Nat) (w : Word) :
    (m.write address w).read other = if address = other then w else m.read other := by
  simp [read, write, Std.TreeMap.getD_insert]

@[simp] theorem read_modify (m : Memory) (address other : Nat) (f : Word → Word) :
    (m.modify address f).read other =
      if address = other then f (m.read address) else m.read other :=
  read_write m address other _

end Memory

end ServoPulse
