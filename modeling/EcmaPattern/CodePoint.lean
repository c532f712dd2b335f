/-!
# Code points and lexical classes

A code point is a number below `0x110000`. Surrogates count: text made of 16-bit units can hold a
surrogate that belongs to no pair, and such a unit reads as the code point of the same number.

The module has three things the rest is built on:

* the type `CodePoint`, its conversions from characters, numbers and code units, and the arithmetic
  of surrogate pairs (`combineSurrogates`, `CodePoint.ofPair`, with the value of a pair in
  `CodePoint.val_ofPair`);
* `inRanges`, the test by which all tables of the character database are read;
* the lexical classes of the pattern grammar, from digits of a base to the punctuators that the set
  grammar reserves.
-/

namespace EcmaPattern

/-! ## Code points

A code point is a number below `0x110000`. Surrogates count: text made of 16-bit units can hold a
surrogate that belongs to no pair, and such a unit reads as the code point of the same number. -/

/-- A Unicode code point, surrogates included. -/
abbrev CodePoint := Fin 0x110000

abbrev CodeUnit := UInt16

def combineSurrogates (lead trail : Int) : Int :=
  (lead - 0xD800) * 0x400 + (trail - 0xDC00) + 0x10000

/-- Whether a number lies in one of the ranges, which include their first and last numbers. -/
def inRanges (ranges : List (Nat × Nat)) (n : Nat) : Bool :=
  ranges.any fun (first, last) => first ≤ n && n ≤ last

namespace CodePoint

theorem char_lt (c : Char) : c.toNat < 0x110000 := by
  have h : c.toNat < 0xD800 ∨ 0xDFFF < c.toNat ∧ c.toNat < 0x110000 := c.valid
  omega

def ofChar (c : Char) : CodePoint := ⟨c.toNat, char_lt c⟩

instance : Coe Char CodePoint := ⟨ofChar⟩

/-- The code point of a number that is known to be one; above the last code point it starts anew. -/
def ofNat (n : Nat) : CodePoint := ⟨n % 0x110000, Nat.mod_lt n (by decide)⟩

theorem val_ofNat {n : Nat} (h : n < 0x110000) : (ofNat n).val = n := Nat.mod_eq_of_lt h

def ofInt? (n : Int) : Option CodePoint :=
  if h : 0 ≤ n ∧ n < 0x110000 then some ⟨n.toNat, by omega⟩ else none

theorem unit_lt (u : CodeUnit) : u.toNat < 0x110000 := by
  have := u.toNat_lt
  omega

def ofUnit (u : CodeUnit) : CodePoint := ⟨u.toNat, unit_lt u⟩

@[simp] theorem val_ofUnit (u : CodeUnit) : (ofUnit u).val = u.toNat := rfl

/-- A surrogate that opens a pair. -/
def isLead (c : CodePoint) : Bool := 0xD800 ≤ c.val && c.val ≤ 0xDBFF

/-- A surrogate that closes a pair. -/
def isTrail (c : CodePoint) : Bool := 0xDC00 ≤ c.val && c.val ≤ 0xDFFF

def isSurrogate (c : CodePoint) : Bool := c.isLead || c.isTrail

theorem isLead_iff {c : CodePoint} : c.isLead ↔ 0xD800 ≤ c.val ∧ c.val ≤ 0xDBFF := by
  simp [isLead]

theorem isTrail_iff {c : CodePoint} : c.isTrail ↔ 0xDC00 ≤ c.val ∧ c.val ≤ 0xDFFF := by
  simp [isTrail]

def ofPair (lead trail : CodePoint) : CodePoint :=
  ofNat (combineSurrogates lead.val trail.val).toNat

/-- The value of a pair, in natural numbers. For surrogates nothing in `combineSurrogates` goes
below zero. -/
theorem val_ofPair {lead trail : CodePoint} (hl : lead.isLead) (ht : trail.isTrail) :
    (ofPair lead trail).val = (lead.val - 0xD800) * 0x400 + (trail.val - 0xDC00) + 0x10000 := by
  rw [isLead_iff] at hl
  rw [isTrail_iff] at ht
  have h : (combineSurrogates lead.val trail.val).toNat =
      (lead.val - 0xD800) * 0x400 + (trail.val - 0xDC00) + 0x10000 := by
    simp only [combineSurrogates]
    omega
  rw [ofPair, h, val_ofNat (by omega)]

def width (c : CodePoint) : Nat := if 0xFFFF < c.val then 2 else 1

def toChar? (c : CodePoint) : Option Char :=
  if h : c.val.isValidChar then some (Char.ofNatAux c.val h) else none

/-- Whether the code point is that of one of the listed characters. -/
def isOneOf (chars : List Char) (c : CodePoint) : Bool := chars.any (ofChar · == c)

end CodePoint

end EcmaPattern

namespace EcmaPattern.CodePoint

/-! ## Lexical classes

The sets of characters that the pattern grammar names. All but the identifier classes are finite
sets of ASCII characters or line separators. -/

def hexValue? (c : CodePoint) : Option Nat :=
  if 0x30 ≤ c.val ∧ c.val ≤ 0x39 then some (c.val - 0x30)
  else if 0x41 ≤ c.val ∧ c.val ≤ 0x46 then some (c.val - 0x41 + 10)
  else if 0x61 ≤ c.val ∧ c.val ≤ 0x66 then some (c.val - 0x61 + 10)
  else none

def digit? (base : Nat) (c : CodePoint) : Option Nat := c.hexValue?.filter (· < base)

/-- The value of a digit is below its base. -/
theorem digit?_lt {base : Nat} {c : CodePoint} {d : Nat} (h : c.digit? base = some d) :
    d < base := by
  simp only [digit?, Option.filter_eq_some_iff, decide_eq_true_eq] at h
  exact h.2

def isDecimalDigit (c : CodePoint) : Bool := (c.digit? 10).isSome

def isOctalDigit (c : CodePoint) : Bool := (c.digit? 8).isSome

def isHexDigit (c : CodePoint) : Bool := (c.digit? 16).isSome

def isLatinCapital (c : CodePoint) : Bool := 0x41 ≤ c.val && c.val ≤ 0x5A

def isLatinLetter (c : CodePoint) : Bool := c.isLatinCapital || (0x61 ≤ c.val && c.val ≤ 0x7A)

/-- A character that ends a line, and so cannot stand in a literal. -/
def isLineTerminator (c : CodePoint) : Bool :=
  c.val == 0x0A || c.val == 0x0D || c.val == 0x2028 || c.val == 0x2029

/-- A character with a meaning of its own outside classes. -/
def isSyntaxCharacter (c : CodePoint) : Bool :=
  c.isOneOf ['^', '$', '\\', '.', '*', '+', '?', '(', ')', '[', ']', '{', '}', '|']

/-- A character that cannot begin a plain character under the web grammar: unlike the syntax
characters, brackets and braces that close nothing are plain text. -/
def isReservedInWebGrammar (c : CodePoint) : Bool :=
  c.isOneOf ['^', '$', '\\', '.', '*', '+', '?', '(', ')', '[', '|']

/-- A character with a meaning of its own inside a class of the set grammar. -/
def isClassSetSyntax (c : CodePoint) : Bool :=
  c.isOneOf ['(', ')', '[', ']', '{', '}', '/', '-', '\\', '|']

/-- A character that is reserved inside a class of the set grammar when it stands twice in a row. -/
def isClassSetDoublePunctuator (c : CodePoint) : Bool :=
  c.isOneOf ['&', '!', '#', '$', '%', '*', '+', ',', '.', ':', ';', '<', '=', '>', '?', '@', '^',
    '\x60', '~']

/-- A character that a backslash may precede inside a class of the set grammar. -/
def isClassSetPunctuator (c : CodePoint) : Bool :=
  c.isOneOf ['&', '-', '!', '#', '%', ',', ':', ';', '<', '=', '>', '@', '\x60', '~']

def isPropertyNameCharacter (c : CodePoint) : Bool := c.isLatinLetter || c.isOneOf ['_']

/-- A character of a property's value, or of a property that stands alone. -/
def isPropertyValueCharacter (c : CodePoint) : Bool :=
  c.isPropertyNameCharacter || c.isDecimalDigit

end EcmaPattern.CodePoint
