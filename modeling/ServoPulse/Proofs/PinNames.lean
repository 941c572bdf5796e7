import Mathlib.Data.List.DropRight
import Mathlib.Data.Nat.Digits.Defs
import ServoPulse.Stm32.Pin

/-!
# The names of pins

All ways to write the name of a pin (`Pin.Spelling`): the letter `P`, the letter of the block and
the index in decimal, with a plus sign and any number of zeros before the index if one likes, and
white space around it all. A pin is read from a text exactly when the text is one of them
(`Pin.ofName?_eq_some_iff_exists_spelling`).

Nothing here goes through the reader. Digits are given by their values and the index by their
positions, and the blanks at the two ends are named instead of removed. The reader meets them with
`trimBlanks_append` and `exists_eq_append_trimBlanks`, that removing blanks is finding such ends,
and with `Pin.decimal?_eq_some_iff`, that its sum from the left has the value of the positions.
-/

namespace ServoPulse

variable {before core after : List Char} {c : Char}

/-! ### Blanks at the ends -/

/-- Text that neither begins nor ends with a blank is what is left of it among blanks. -/
theorem trimBlanks_append (h_before : ∀ c ∈ before, isBlank c = true)
    (h_after : ∀ c ∈ after, isBlank c = true) (h_ne : core ≠ [])
    (h_head : isBlank (core.head h_ne) = false) (h_last : isBlank (core.getLast h_ne) = false) :
    trimBlanks (before ++ core ++ after) = core := by
  -- in front, the first character of the core ends the trimming
  have h_front : (before ++ core ++ after).dropWhile isBlank = core ++ after := by
    rw [List.append_assoc, List.dropWhile_append_of_pos h_before]
    obtain ⟨c, rest, rfl⟩ := List.exists_cons_of_ne_nil h_ne
    exact List.dropWhile_cons_of_neg (Bool.eq_false_iff.1 h_head)
  have h_reverse : ∀ c ∈ after.reverse, isBlank c = true :=
    fun c h_c => h_after c (List.mem_reverse.1 h_c)
  -- behind, its last character does
  unfold trimBlanks
  rw [h_front, List.reverse_append, List.dropWhile_append_of_pos h_reverse]
  exact List.rdropWhile_eq_self_iff.2 fun _ => by simp [h_last]

/-- What is removed from the ends of a text is blank. -/
theorem exists_eq_append_trimBlanks (s : List Char) :
    ∃ before after : List Char, (∀ c ∈ before, isBlank c = true) ∧
      (∀ c ∈ after, isBlank c = true) ∧ s = before ++ trimBlanks s ++ after := by
  refine ⟨s.takeWhile isBlank, (s.dropWhile isBlank).rtakeWhile isBlank, ?_, ?_, ?_⟩
  · exact fun c h_c => List.mem_takeWhile_imp h_c
  · exact fun c h_c => List.mem_rtakeWhile_imp h_c
  · calc s = s.takeWhile isBlank ++ s.dropWhile isBlank := List.takeWhile_append_dropWhile.symm
      _ = s.takeWhile isBlank ++ ((s.dropWhile isBlank).rdropWhile isBlank ++
          (s.dropWhile isBlank).rtakeWhile isBlank) := by
        rw [List.rdropWhile_append_rtakeWhile]
      _ = s.takeWhile isBlank ++ trimBlanks s ++ (s.dropWhile isBlank).rtakeWhile isBlank :=
        (List.append_assoc _ _ _).symm

namespace Pin

variable {block index n : Nat} {digits : List Nat}

/-! ### Digits -/

/-- The character of a digit is no blank and no plus sign. -/
theorem digitChar_spec {d : Nat} (h_d : d < 10) :
    isBlank d.digitChar = false ∧ d.digitChar ≠ '+' ∧ digitValue d.digitChar = d := by
  revert d
  decide

theorem exists_digitChar_of_isDigit (h_digit : c.isDigit = true) :
    ∃ d < 10, c = Nat.digitChar d := by
  have h_bounds : 48 ≤ c.toNat ∧ c.toNat ≤ 57 := by
    simpa [Char.isDigit, UInt32.le_iff_toNat_le] using h_digit
  have h_lt : c.toNat - 48 < 10 := by omega
  refine ⟨c.toNat - 48, h_lt, Char.toNat_inj.1 ?_⟩
  rw [Nat.toNat_digitChar_of_lt_ten h_lt]
  omega

/-- Text is made of digits exactly when it is the text of a list of digits. -/
theorem all_isDigit_iff {cs : List Char} :
    cs.all Char.isDigit = true ↔
      ∃ digits : List Nat, (∀ d ∈ digits, d < 10) ∧ cs = digits.map Nat.digitChar := by
  constructor
  · intro h_all
    -- induction on the characters, each of them a digit
    induction cs with
    | nil => exact ⟨[], nofun, rfl⟩
    | cons c cs ih =>
      rw [List.all_cons, Bool.and_eq_true] at h_all
      obtain ⟨d, h_d, rfl⟩ := exists_digitChar_of_isDigit h_all.1
      obtain ⟨digits, h_digits, rfl⟩ := ih h_all.2
      exact ⟨d :: digits, List.forall_mem_cons.2 ⟨h_d, h_digits⟩, rfl⟩
  · rintro ⟨digits, h_digits, rfl⟩
    rw [List.all_map, List.all_eq_true]
    intro d h_d
    exact Nat.isDigit_digitChar.trans (decide_eq_true (h_digits d h_d))

/-- Summed up from the left, digits have the value that their positions give them. -/
theorem foldl_digitChar (h_digits : ∀ d ∈ digits, d < 10) :
    (digits.map Nat.digitChar).foldl (fun n c => 10 * n + digitValue c) 0 =
      Nat.ofDigits 10 digits.reverse := by
  -- the last digit has the lowest position
  induction digits using List.reverseRecOn with
  | nil => rfl
  | append_singleton digits d ih =>
    -- the digits in front count ten times
    have h_value := (digitChar_spec (h_digits d (by simp))).2.2
    have h_front := ih fun d h_d => h_digits d (List.mem_append_left _ h_d)
    rw [List.map_append, List.foldl_append, h_front, List.reverse_append]
    simp only [List.map_cons, List.map_nil, List.foldl_cons, List.foldl_nil, List.reverse_cons,
      List.reverse_nil, List.nil_append, List.cons_append, Nat.ofDigits_cons, h_value]
    exact Nat.add_comm _ _

theorem decimal?_eq_some_iff {cs : List Char} :
    decimal? cs = some n ↔ ∃ digits : List Nat, digits ≠ [] ∧ (∀ d ∈ digits, d < 10) ∧
      cs = digits.map Nat.digitChar ∧ Nat.ofDigits 10 digits.reverse = n := by
  unfold decimal?
  constructor
  · intro h_some
    obtain ⟨h_text, h_value⟩ := Option.ite_none_right_eq_some.1 h_some
    rw [Bool.and_eq_true, Bool.not_eq_true', List.isEmpty_eq_false_iff] at h_text
    obtain ⟨digits, h_digits, rfl⟩ := all_isDigit_iff.1 h_text.2
    rw [Option.some.injEq, foldl_digitChar h_digits] at h_value
    exact ⟨digits, fun h_nil => h_text.1 (by rw [h_nil, List.map_nil]), h_digits, rfl, h_value⟩
  · -- the digits of a number pass the check and give its value back
    rintro ⟨digits, h_ne, h_digits, rfl, h_value⟩
    have h_text : (!(digits.map Nat.digitChar).isEmpty &&
        (digits.map Nat.digitChar).all Char.isDigit) = true := by
      rw [Bool.and_eq_true]
      refine ⟨?_, all_isDigit_iff.2 ⟨digits, h_digits, rfl⟩⟩
      simpa using h_ne
    rw [if_pos h_text, foldl_digitChar h_digits, h_value]

/-- The text of an index is digits, or a plus sign and digits. -/
theorem index?_eq_some_iff {cs : List Char} :
    index? cs = some n ↔ n ≤ 15 ∧ ∃ sign : List Char, (sign = [] ∨ sign = ['+']) ∧
      ∃ digits : List Nat, digits ≠ [] ∧ (∀ d ∈ digits, d < 10) ∧
        cs = sign ++ digits.map Nat.digitChar ∧ Nat.ofDigits 10 digits.reverse = n := by
  unfold index?
  rw [Option.filter_eq_some_iff, decide_eq_true_iff, and_comm]
  -- the bound on the index is the same on both sides
  refine and_congr_right fun _ => ?_
  rw [decimal?_eq_some_iff]
  constructor
  · rintro ⟨digits, h_ne, h_digits, h_text, h_value⟩
    cases cs with
    | nil => exact ⟨[], .inl rfl, digits, h_ne, h_digits, h_text, h_value⟩
    | cons c cs =>
      by_cases h_plus : c = '+'
      · subst h_plus
        exact ⟨['+'], .inr rfl, digits, h_ne, h_digits, congrArg ('+' :: ·) h_text, h_value⟩
      · -- any other first character is no sign and stays
        rw [dropPlus.eq_2 _ fun rest h_cons => h_plus (List.cons.inj h_cons).1] at h_text
        exact ⟨[], .inl rfl, digits, h_ne, h_digits, h_text, h_value⟩
  · rintro ⟨sign, rfl | rfl, digits, h_ne, h_digits, rfl, h_value⟩
    · refine ⟨digits, h_ne, h_digits, dropPlus.eq_2 _ ?_, h_value⟩
      -- a digit is no plus sign
      intro rest h_cons
      obtain ⟨d, digits, rfl⟩ := List.exists_cons_of_ne_nil h_ne
      exact (digitChar_spec (h_digits d List.mem_cons_self)).2.1 (List.cons.inj h_cons).1
    · exact ⟨digits, h_ne, h_digits, rfl, h_value⟩

/-! ### Blocks -/

/-- The letters of the blocks, in their order. -/
def blockLetters : List Char := ['A', 'B', 'C', 'D', 'E', 'F']

theorem block?_eq_some_iff : block? c = some block ↔ blockLetters[block]? = some c := by
  unfold block?
  constructor
  · intro h_some
    obtain ⟨h_range, h_block⟩ := Option.ite_none_right_eq_some.1 h_some
    have h_bounds : 65 ≤ c.toNat ∧ c.toNat ≤ 70 := h_range
    have h_letter : c = Char.ofNat c.toNat := (Char.ofNat_toNat c).symm
    obtain ⟨h_low, h_high⟩ := h_bounds
    generalize c.toNat = code at h_low h_high h_letter h_block
    subst h_letter
    rw [Option.some.injEq] at h_block
    subst h_block
    -- the six codes of the range are tried one by one
    revert code
    decide
  · intro h_letter
    obtain ⟨h_lt, h_get⟩ := List.getElem?_eq_some_iff.1 h_letter
    subst h_get
    -- and so are the places in the list of letters
    revert block
    decide

/-! ### Names -/

/-- A way to write the name of the pin `index` of the block `block`. -/
structure Spelling (block index : Nat) where
  before : List Char
  letter : Char
  sign : List Char
  /-- The decimal digits of the index by their values, the highest position first. -/
  digits : List Nat
  after : List Char
  before_blank : ∀ c ∈ before, isBlank c = true
  letter_eq : blockLetters[block]? = some letter
  sign_eq : sign = [] ∨ sign = ['+']
  digits_ne_nil : digits ≠ []
  digit_lt : ∀ d ∈ digits, d < 10
  value_eq : Nat.ofDigits 10 digits.reverse = index
  index_le : index ≤ 15
  after_blank : ∀ c ∈ after, isBlank c = true

namespace Spelling

/-- The name that is written, without the blanks. -/
def name (w : Spelling block index) : List Char :=
  'P' :: w.letter :: (w.sign ++ w.digits.map Nat.digitChar)

/-- The text that is written. -/
def text (w : Spelling block index) : String :=
  String.ofList (w.before ++ w.name ++ w.after)

theorem name_ne_nil (w : Spelling block index) : w.name ≠ [] := List.cons_ne_nil _ _

/-- A name ends with a digit. -/
theorem isBlank_getLast_name (w : Spelling block index) :
    isBlank (w.name.getLast w.name_ne_nil) = false := by
  have h_digits : w.digits.map Nat.digitChar ≠ [] := by
    rw [ne_eq, List.map_eq_nil_iff]
    exact w.digits_ne_nil
  -- a name ends in a digit, which is no blank
  have h_last : w.name.getLast w.name_ne_nil =
      Nat.digitChar (w.digits.getLast w.digits_ne_nil) := by
    unfold name
    rw [List.getLast_cons (List.cons_ne_nil _ _),
      List.getLast_cons (List.append_ne_nil_of_right_ne_nil _ h_digits),
      List.getLast_append_of_ne_nil _ h_digits, List.getLast_map]
  rw [h_last]
  exact (digitChar_spec (w.digit_lt _ (List.getLast_mem _))).1

theorem trimBlanks_text (w : Spelling block index) : trimBlanks w.text.toList = w.name := by
  rw [text, String.toList_ofList]
  exact trimBlanks_append w.before_blank w.after_blank w.name_ne_nil rfl w.isBlank_getLast_name

/-- Whatever way the name of a pin is written, the pin is read. -/
theorem ofName?_text (w : Spelling block index) :
    ofName? w.text = some (16 * block + index) := by
  have h_block : block? w.letter = some block := block?_eq_some_iff.2 w.letter_eq
  have h_index : index? (w.sign ++ w.digits.map Nat.digitChar) = some index :=
    index?_eq_some_iff.2 ⟨w.index_le, w.sign, w.sign_eq, w.digits, w.digits_ne_nil, w.digit_lt,
      rfl, w.value_eq⟩
  unfold ofName?
  rw [w.trimBlanks_text, name]
  simp only [h_block, h_index, Option.bind_eq_bind, Option.bind_some, Option.pure_def]

end Spelling

/-- A text from which a pin is read is a way to write its name. -/
theorem exists_spelling_of_ofName? {s : String} {pin : Nat} (h_some : ofName? s = some pin) :
    ∃ (block index : Nat) (w : Spelling block index), w.text = s ∧ pin = 16 * block + index := by
  unfold ofName? at h_some
  split at h_some
  case h_2 => cases h_some
  case h_1 letter rest h_trim =>
    simp only [Option.bind_eq_bind, Option.bind_eq_some_iff, Option.pure_def,
      Option.some.injEq] at h_some
    obtain ⟨block, h_block, index, h_index, rfl⟩ := h_some
    obtain ⟨h_le, sign, h_sign, digits, h_ne, h_digits, rfl, h_value⟩ :=
      index?_eq_some_iff.1 h_index
    -- the blanks around the name complete the spelling
    obtain ⟨before, after, h_before, h_after, h_text⟩ := exists_eq_append_trimBlanks s.toList
    let w : Spelling block index :=
      { before, letter, sign, digits, after
        before_blank := h_before
        letter_eq := block?_eq_some_iff.1 h_block
        sign_eq := h_sign
        digits_ne_nil := h_ne
        digit_lt := h_digits
        value_eq := h_value
        index_le := h_le
        after_blank := h_after }
    refine ⟨block, index, w, String.toList_inj.1 ?_, rfl⟩
    rw [h_trim] at h_text
    rw [Spelling.text, String.toList_ofList]
    exact h_text.symm

/-! ### Names in 8 bits -/

/-- The pin with a name, read by steps of 8 bits: of the letter, of its distance from the first
one, of the index and of the number of the pin. -/
def ofNameIn8Bits? (s : String) : Checked (Option Nat) :=
  match trimBlanks s.toList with
  | 'P' :: letter :: rest =>
    if 'A' ≤ letter ∧ letter ≤ 'F' then
      match (decimal? (dropPlus rest)).filter (· < Width.size .bits8) with
      | some index =>
        if 15 < index then pure none
        else do
          let block ← Checked.sub .bits8 (letter.toNat % Width.size .bits8) 'A'.toNat
          some <$> number block index
      | none => pure none
    else pure none
  | _ => pure none

/-- The number of a pin of one of the first sixteen blocks needs no more than 8 bits. -/
theorem run_number (h_block : block ≤ 15) (h_index : index ≤ 15) (p : Profile) :
    (number block index).run p = .ok (16 * block + index) := by
  -- nothing that is computed here goes beyond 8 bits
  have h_mul : block * 16 < Width.size .bits8 := by
    change block * 16 < 256
    omega
  have h_add : block * 16 + index < Width.size .bits8 := by
    change block * 16 + index < 256
    omega
  unfold number
  rw [Checked.run_bind, Checked.run_mul_of_lt h_mul]
  dsimp only
  rw [Checked.run_add_of_lt h_add, Nat.mul_comm]

/-- Neither the distance of the letter from the first one nor the number of the pin leaves its 8
bits. -/
theorem run_numberOfLetter {letter : Char} (h_range : 'A' ≤ letter ∧ letter ≤ 'F')
    (h_index : index ≤ 15) (p : Profile) :
    (do
      let block ← Checked.sub .bits8 (letter.toNat % Width.size .bits8) 'A'.toNat
      some <$> number block index : Checked (Option Nat)).run p =
      .ok (some (16 * (letter.toNat - 65) + index)) := by
  -- a letter of the range is a byte, and not less than the first of them
  have h_bounds : 65 ≤ letter.toNat ∧ letter.toNat ≤ 70 := h_range
  have h_small : letter.toNat < Width.size .bits8 := by
    change letter.toNat < 256
    omega
  have h_sub : (Checked.sub .bits8 letter.toNat 'A'.toNat).run p = .ok (letter.toNat - 65) :=
    Checked.run_sub_of_le h_bounds.1 h_small p
  have h_number : (number (letter.toNat - 65) index).run p =
      .ok (16 * (letter.toNat - 65) + index) := run_number (by omega) h_index p
  rw [Nat.mod_eq_of_lt h_small]
  simp only [Checked.run_bind, h_sub, Checked.run_map, h_number]

/-- No step leaves its 8 bits, and an index that has more is no index. -/
theorem run_ofNameIn8Bits? (s : String) (p : Profile) :
    (ofNameIn8Bits? s).run p = .ok (ofName? s) := by
  by_cases h_text : ∃ letter rest, trimBlanks s.toList = 'P' :: letter :: rest
  · obtain ⟨letter, rest, h_text⟩ := h_text
    unfold ofNameIn8Bits? ofName?
    simp only [h_text]
    by_cases h_range : 'A' ≤ letter ∧ letter ≤ 'F'
    · have h_block : block? letter = some (letter.toNat - 65) := if_pos h_range
      rw [if_pos h_range]
      simp only [h_block, index?, Option.bind_eq_bind, Option.bind_some, Option.pure_def]
      cases decimal? (dropPlus rest) with
      | none => rfl
      | some index =>
        by_cases h_le : index ≤ 15
        · -- an index that is small enough fits into 8 bits, so neither reader drops it
          have h_fits : index < Width.size .bits8 := Nat.lt_of_le_of_lt h_le (by decide)
          have h_read : (some index).filter (· < Width.size .bits8) = some index :=
            Option.filter_some_pos (decide_eq_true h_fits)
          have h_index : (some index).filter (· ≤ 15) = some index :=
            Option.filter_some_pos (decide_eq_true h_le)
          rw [h_read, h_index]
          simp only [Nat.not_lt.2 h_le, ↓reduceIte]
          exact run_numberOfLetter h_range h_le p
        · -- too large an index is none, whether or not it fits in 8 bits
          have h_index : (some index).filter (· ≤ 15) = none :=
            Option.filter_some_neg (by simpa using h_le)
          rw [h_index]
          split
          case h_2 => rfl
          case h_1 index' h_index' =>
            obtain ⟨h_eq, -⟩ := Option.filter_eq_some_iff.1 h_index'
            obtain rfl : index = index' := Option.some.inj h_eq
            rw [if_pos (Nat.lt_of_not_le h_le)]
            rfl
    · -- a letter outside the range names no port
      have h_block : block? letter = none := if_neg h_range
      rw [if_neg h_range]
      simp only [h_block, Option.bind_eq_bind, Option.bind_none, Checked.run_pure]
  · -- a text without the first two letters is no name for either reader
    have h_none : ofName? s = none := by
      unfold ofName?
      split
      case h_1 letter rest h_name => exact absurd ⟨letter, rest, h_name⟩ h_text
      case h_2 => rfl
    rw [h_none]
    unfold ofNameIn8Bits?
    split
    case h_1 letter rest h_name => exact absurd ⟨letter, rest, h_name⟩ h_text
    case h_2 => rfl

/-- **The names of pins.** A text names a pin exactly when it is one of the ways to write the name
of the pin; from every other text no pin is read. Reading in 8 bits never traps and reads the
same. Names from which the same pin is read name the same block and the same index. -/
theorem ofName?_eq_some_iff_exists_spelling (s : String) :
    (∀ pin, ofName? s = some pin ↔
      ∃ (block index : Nat) (w : Spelling block index), w.text = s ∧ pin = 16 * block + index) ∧
    (ofName? s = none ↔ ¬ ∃ (block index : Nat) (w : Spelling block index), w.text = s) ∧
    (∀ p, (ofNameIn8Bits? s).run p = .ok (ofName? s)) ∧
    ∀ {block index block' index' : Nat} (w : Spelling block index) (w' : Spelling block' index'),
      ofName? w.text = ofName? w'.text → block = block' ∧ index = index' := by
  have h_iff : ∀ pin, ofName? s = some pin ↔
      ∃ (block index : Nat) (w : Spelling block index), w.text = s ∧ pin = 16 * block + index := by
    intro pin
    refine ⟨exists_spelling_of_ofName?, ?_⟩
    rintro ⟨block, index, w, rfl, rfl⟩
    exact w.ofName?_text
  refine ⟨h_iff, ?_, run_ofNameIn8Bits? s, ?_⟩
  · -- a text is no name if no spelling has it
    rw [Option.eq_none_iff_forall_ne_some]
    constructor
    · rintro h_none ⟨block, index, w, h_text⟩
      exact h_none _ ((h_iff _).2 ⟨block, index, w, h_text, rfl⟩)
    · intro h_other pin h_some
      obtain ⟨block, index, w, h_text, -⟩ := (h_iff pin).1 h_some
      exact h_other ⟨block, index, w, h_text⟩
  · -- the number of a pin gives its port and its index back, as there are 16 to a port
    intro block index block' index' w w' h_same
    rw [w.ofName?_text, w'.ofName?_text, Option.some.injEq] at h_same
    have h_le := w.index_le
    have h_le' := w'.index_le
    omega

/-- The name of pin 7 of the second block with a plus sign, two zeros and blanks around it. -/
def Spelling.padded : Spelling 1 7 where
  before := [' ', '\u2003']
  letter := 'B'
  sign := ['+']
  digits := [0, 0, 7]
  after := ['\t']
  before_blank := List.all_eq_true.1 (by decide)
  letter_eq := rfl
  sign_eq := .inr rfl
  digits_ne_nil := List.cons_ne_nil _ _
  digit_lt := by decide
  value_eq := rfl
  index_le := by decide
  after_blank := List.all_eq_true.1 (by decide)

/-- Pin 23 is read from the padded name, in 8 bits too, and whatever else pin 23 is read from is a
name of pin 7 of the second block. -/
theorem ofName?_padded :
    ofName? " \u2003PB+007\t" = some 23 ∧
    (∀ p, (ofNameIn8Bits? " \u2003PB+007\t").run p = .ok (some 23)) ∧
    ∀ {block index : Nat} (w : Spelling block index), ofName? w.text = some 23 →
      block = 1 ∧ index = 7 := by
  obtain ⟨h_iff, -, h_run, h_same⟩ := ofName?_eq_some_iff_exists_spelling " \u2003PB+007\t"
  have h_pin : ofName? " \u2003PB+007\t" = some 23 :=
    (h_iff 23).2 ⟨1, 7, Spelling.padded, rfl, rfl⟩
  refine ⟨h_pin, fun p => (h_run p).trans (congrArg _ h_pin), ?_⟩
  intro block index w h_w
  exact h_same w Spelling.padded (h_w.trans h_pin.symm)

/-- Neither a block after the last one nor an index after the last one has a name, and the letter
of a block is a capital letter. -/
example : [ofName? "PG0", ofName? "PA16", ofName? "Pa1", ofName? "PA+", ofName? "P"] =
    [none, none, none, none, none] := by
  decide

end Pin

end ServoPulse
