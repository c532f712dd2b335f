import EcmaPattern.Identifier

/-!
# Characters

Facts about single characters and tests of them. Which characters may stand in a name is looked up
in tables; below 128 these come down to letters, digits, the dollar sign and the underscore
(`isIdentifierStart_of_ascii`, `isIdentifierPart_of_ascii`).

The tables are long lists of ranges in ascending order, so a character below 128 only has to be
looked up among the first few of them. `inRanges_take` makes this cut, and everything that is said
of ASCII characters below comes down to evaluating a test over the few ranges that are left.
-/

namespace EcmaPattern

namespace CodePoint

variable {c : CodePoint}

/-! ## Listed characters

Most signs of the grammar are asked for by a list of the characters that count. `of_isOneOf` turns a
question about a code point that is one of them into one about the listed characters, which is
decided by evaluation; nearly all proofs that a sign is not a digit, not a letter or no part of a
name go this way. -/

theorem isOneOf_iff {chars : List Char} :
    c.isOneOf chars = true ↔ ∃ d ∈ chars, d.toNat = c.val := by
  simp [isOneOf, Fin.ext_iff, ofChar]

/-- A test that holds of each listed character, which can be evaluated, holds of every code point
that is one of them. -/
theorem of_isOneOf (test : CodePoint → Bool) {chars : List Char} (hc : c.isOneOf chars = true)
    (h : chars.all (fun d => test d) = true) : test c = true := by
  obtain ⟨d, hd, heq⟩ := List.any_eq_true.mp hc
  rw [← eq_of_beq heq]
  exact List.all_eq_true.mp h d hd

/-- None of some characters passes a test that the code point passes. -/
theorem isOneOf_eq_false (test : CodePoint → Bool) {chars : List Char} (hc : test c = true)
    (h : chars.any (fun d => test d) = false) : c.isOneOf chars = false := by
  rw [isOneOf, List.any_eq_false]
  intro d hd heq
  rw [List.any_eq_false] at h
  rw [← eq_of_beq heq] at hc
  exact h d hd hc

/-! ## Digits and letters

A digit of any base is told by its value, and the tests for decimal digits and Latin letters are
intervals. With these equivalences `omega` settles what can be both. -/

/-- A digit of any base is a hexadecimal digit. -/
theorem isSome_hexValue? {base : Nat} (h : (c.digit? base).isSome) :
    c.hexValue?.isSome = true := by
  rw [digit?] at h
  cases hv : c.hexValue? with
  | none => simp [hv] at h
  | some d => rfl

theorem isDecimalDigit_eq : c.isDecimalDigit = (0x30 ≤ c.val && c.val ≤ 0x39) := by
  unfold isDecimalDigit digit? hexValue?
  split
  · next h =>
    simp [h]
    omega
  · grind

theorem isLatinLetter_iff :
    c.isLatinLetter = true ↔ 0x41 ≤ c.val ∧ c.val ≤ 0x5A ∨ 0x61 ≤ c.val ∧ c.val ≤ 0x7A := by
  simp [isLatinLetter, isLatinCapital]

/-- An octal digit is a decimal one. -/
theorem isDecimalDigit_of_octal {d : Nat} (h : c.digit? 8 = some d) :
    c.isDecimalDigit = true := by
  have hlt := digit?_lt h
  simp only [digit?, Option.filter_eq_some_iff] at h
  simp [isDecimalDigit, digit?, h.1, Option.filter]
  omega

/-- No letter is a digit or an underscore. -/
theorem not_digit_of_isLatinLetter (h : c.isLatinLetter) :
    (c.isDecimalDigit || c.isOneOf ['_']) = false := by
  rw [isLatinLetter_iff] at h
  rw [isDecimalDigit_eq, Bool.eq_false_iff]
  simp [isOneOf_iff]
  omega

end CodePoint

/-! ## Characters of names

What is needed of names is what they exclude: no ASCII punctuation apart from the dollar sign and
the underscore, and so none of the signs by which the grammar would end a name or begin something
else (`isNameLike_of_identifier`). -/

/-- Ranges that begin at a bound or after it hold nothing below it. -/
theorem inRanges_take {ranges : List (Nat × Nat)} {bound n : Nat} (count : Nat)
    (h : (ranges.drop count).all (fun r => bound ≤ r.1) = true) (hn : n < bound) :
    inRanges ranges n = inRanges (ranges.take count) n := by
  have hrest : inRanges (ranges.drop count) n = false := by
    rw [inRanges, List.any_eq_false]
    intro r hr
    have hle := of_decide_eq_true (List.all_eq_true.mp h r hr)
    simp only [Bool.and_eq_true, decide_eq_true_eq]
    omega
  have hall : inRanges (ranges.take count ++ ranges.drop count) n =
      (inRanges (ranges.take count) n || inRanges (ranges.drop count) n) := List.any_append
  rw [List.take_append_drop, hrest, Bool.or_false] at hall
  exact hall

namespace CodePoint

open Identifier

variable {c : CodePoint}

/-- Among ASCII characters the table of letters has just the Latin ones. -/
theorem inRanges_letterRanges (h : c.val < 128) :
    inRanges letterRanges c.val = inRanges [(0x41, 0x5A), (0x61, 0x7A)] c.val :=
  inRanges_take 2 (by decide +kernel) h

/-- Among ASCII characters the table of marks has the digits and the underscore. -/
theorem inRanges_markRanges (h : c.val < 128) :
    inRanges markRanges c.val = inRanges [(0x30, 0x39), (0x5F, 0x5F)] c.val :=
  inRanges_take 2 (by decide +kernel) h

/-- The ASCII characters that begin names are the letters, the dollar sign and the underscore. -/
theorem isIdentifierStart_of_ascii (h : c.val < 128) :
    c.isIdentifierStart = (c.isLatinLetter || c.isOneOf ['$', '_']) := by
  rw [isIdentifierStart, inRanges_letterRanges h, Bool.eq_iff_iff]
  simp [isSurrogate, isLead, isTrail, isLatinLetter_iff, patternPunctuation, inRanges, otherStarts,
    isOneOf_iff]
  omega

/-- The ASCII characters that continue names are those that begin them, and the digits. -/
theorem isIdentifierPart_of_ascii (h : c.val < 128) :
    c.isIdentifierPart = (c.isIdentifierStart || c.isDecimalDigit) := by
  rw [isIdentifierStart_of_ascii h, isIdentifierPart, inRanges_letterRanges h,
    inRanges_markRanges h, isDecimalDigit_eq, Bool.eq_iff_iff]
  simp [isSurrogate, isLead, isTrail, isLatinLetter_iff, patternPunctuation, inRanges, otherStarts,
    otherParts, isOneOf_iff]
  omega

theorem isIdentifierPart_of_alphanumeric (h : (c.isLatinLetter || c.isDecimalDigit) = true) :
    c.isIdentifierPart = true := by
  have hascii : c.val < 128 := by
    rw [Bool.or_eq_true, isLatinLetter_iff, isDecimalDigit_eq] at h
    simp only [Bool.and_eq_true, decide_eq_true_eq] at h
    omega
  rw [isIdentifierPart_of_ascii hascii, isIdentifierStart_of_ascii hascii]
  rw [Bool.or_eq_true] at h
  rcases h with h | h
  · rw [h]
    rfl
  · rw [h, Bool.or_true]

/-- A character that is no ASCII punctuation, apart from the dollar sign and the underscore. -/
def isNameLike (c : CodePoint) : Bool :=
  128 ≤ c.val || c.isLatinLetter || c.isDecimalDigit || c.isOneOf ['$', '_']

/-- A test of names that needs no table. -/
theorem isNameLike_of_identifier (h : c.isIdentifierStart ∨ c.isIdentifierPart) :
    c.isNameLike = true := by
  by_cases hascii : c.val < 128
  · rw [isIdentifierPart_of_ascii hascii, isIdentifierStart_of_ascii hascii] at h
    simp only [isNameLike, Bool.or_eq_true] at h ⊢
    grind
  · rw [isNameLike, decide_eq_true (Nat.not_lt.mp hascii)]
    rfl

end CodePoint

end EcmaPattern
