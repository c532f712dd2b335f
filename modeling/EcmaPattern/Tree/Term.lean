import EcmaPattern.Property
import EcmaPattern.Text
import EcmaPattern.FlagSet
import EcmaPattern.GroupScope

/-!
# The tree of a pattern

The syntax tree that a parse gives: character sets, which classes hold and which can stand alone,
and on top of them terms, alternatives, patterns and literals. Every part keeps the span of text
that it was read from.

`CharSet.mayContainStrings` is the check that negated classes are put to, and `Pattern.resolve`
fills in which groups each named reference means, which is known only when the whole pattern has
been read.
-/

namespace EcmaPattern

/-! ## Character sets

What a class may contain, and what stands for one character outside classes: characters, escapes
such as `\d`, properties, ranges, quoted strings, set operations, and classes themselves. Under the
set grammar a class can also match strings of a length other than one; `CharSet.mayContainStrings`
tells when. -/

/-- The part of the text that a node was read from. -/
structure Span where
  /-- Offset of the first unit. -/
  start : Nat
  /-- Offset after the last unit. -/
  stop : Nat
  /-- The units in between. -/
  raw : Text
  deriving DecidableEq

/-- A character, plain or escaped. -/
structure Character where
  span : Span
  value : CodePoint
  deriving DecidableEq

/-- The sets that an escape letter stands for. -/
inductive EscapeSet where
  | digit
  | space
  | word
  deriving DecidableEq

/-- One of the strings of a `\q` escape. -/
structure ClassString where
  span : Span
  characters : List Character
  deriving DecidableEq

/-- The operations of the set grammar. -/
inductive SetOperation where
  | intersection
  | subtraction
  deriving DecidableEq

/-- A set of characters or strings, as it is written. -/
inductive CharSet where
  /-- One character. -/
  | character (c : Character)
  /-- An escape such as `\d`, or `\D` when negated. -/
  | escape (span : Span) (set : EscapeSet) (negated : Bool)
  /-- The characters, or strings, with a property. -/
  | property (span : Span) (property : Property) (negated : Bool)
  /-- The characters from one to another. -/
  | range (span : Span) (first last : Character)
  /-- The strings of a `\q` escape. -/
  | strings (span : Span) (alternatives : List ClassString)
  /-- A set operation. -/
  | operation (span : Span) (op : SetOperation) (left right : CharSet)
  /-- A class that lists its elements; `sets` tells whether it was read by the set grammar. -/
  | listing (span : Span) (negated sets : Bool) (elements : List CharSet)
  /-- A class whose contents are one set operation. -/
  | expression (span : Span) (negated : Bool) (contents : CharSet)

namespace CharSet

def span : CharSet → Span
  | character c => c.span
  | escape s _ _ => s
  | property s _ _ => s
  | range s _ _ => s
  | strings s _ => s
  | operation s _ _ _ => s
  | listing s _ _ _ => s
  | expression s _ _ => s

def character? : CharSet → Option Character
  | character c => some c
  | _ => none

def isOperation : CharSet → Bool
  | operation .. => true
  | _ => false

mutual

/-- Whether the set can match a string that is not a single character. A negated class never can:
its complement is taken among single characters. -/
def mayContainStrings : CharSet → Bool
  | property _ p _ => p.strings
  | strings _ alternatives => alternatives.any (·.characters.length != 1)
  | listing _ negated _ elements => !negated && anyMayContainStrings elements
  | expression _ negated contents => !negated && contents.mayContainStrings
  | operation _ .intersection left right => left.mayContainStrings && right.mayContainStrings
  | operation _ .subtraction left _ => left.mayContainStrings
  | character _ => false
  | escape _ _ _ => false
  | range _ _ _ => false

/-- Whether one of the sets can match a string that is not a single character. -/
def anyMayContainStrings : List CharSet → Bool
  | [] => false
  | s :: rest => s.mayContainStrings || anyMayContainStrings rest

end

/-- The recursion over a list of sets asks whether any of them can match strings. -/
theorem anyMayContainStrings_eq (sets : List CharSet) :
    anyMayContainStrings sets = sets.any mayContainStrings := by
  induction sets with
  | nil => simp [anyMayContainStrings]
  | cons s rest ih => simp [anyMayContainStrings, ih]

end CharSet

/-! ## Terms, patterns and literals

The tree of a pattern. A pattern is a list of alternatives, each a sequence of terms; groups and
lookarounds hold such lists again. `Pattern.resolve` fills in which groups each named reference
means, which is known only when the whole pattern has been read. -/

/-- How often a term is repeated; no `max` means without end. -/
structure Repetition where
  min : Nat
  max : Option Nat
  greedy : Bool
  deriving DecidableEq

/-- Which end of the input an assertion is about. -/
inductive Edge where
  | start
  | stop
  deriving DecidableEq

/-- Which way a lookaround looks. -/
inductive Direction where
  | ahead
  | behind
  deriving DecidableEq

/-- The flags that a group turns on or off. -/
structure ModifierFlags where
  span : Span
  ignoreCase : Bool
  multiline : Bool
  dotAll : Bool
  deriving DecidableEq

/-- The modifiers of a group: the flags it adds and, after a hyphen, those it removes. -/
structure Modifiers where
  span : Span
  add : ModifierFlags
  remove : Option ModifierFlags
  deriving DecidableEq

/-- What a reference refers to. -/
inductive Target where
  /-- The group with a number. -/
  | number (n : Nat)
  /-- The groups with a name, and their numbers. -/
  | name (name : GroupName) (indexes : List Nat)
  deriving DecidableEq

mutual

/-- An element of an alternative. -/
inductive Term where
  /-- A character, a class or an escape. -/
  | set (s : CharSet)
  /-- Any character. -/
  | any (span : Span)
  /-- The start or the end of the input. -/
  | edge (span : Span) (edge : Edge)
  /-- A word boundary, or the lack of one. -/
  | wordBoundary (span : Span) (negated : Bool)
  /-- A lookaround. -/
  | look (span : Span) (direction : Direction) (negated : Bool) (alternatives : List Sequence)
  /-- A group that captures nothing. -/
  | group (span : Span) (modifiers : Option Modifiers) (alternatives : List Sequence)
  /-- A capturing group with its number and, if it has one, its name. -/
  | capture (span : Span) (index : Nat) (name : Option GroupName) (alternatives : List Sequence)
  /-- A reference to what a group captured. -/
  | reference (span : Span) (target : Target)
  /-- A repeated term. -/
  | quantified (span : Span) (repetition : Repetition) (element : Term)

/-- An alternative: terms one after the other. -/
inductive Sequence where
  | mk (span : Span) (elements : List Term)

end

/-- A whole pattern. -/
structure Pattern where
  span : Span
  alternatives : List Sequence

/-- The flags of a literal. -/
structure Flags where
  span : Span
  set : FlagSet
  deriving DecidableEq

/-- A literal: a pattern between slashes, and flags. -/
structure Literal where
  span : Span
  pattern : Pattern
  flags : Flags

namespace Sequence

def span : Sequence → Span
  | mk s _ => s

def elements : Sequence → List Term
  | mk _ ts => ts

end Sequence

namespace Term

def span : Term → Span
  | set s => s.span
  | any s => s
  | edge s _ => s
  | wordBoundary s _ => s
  | look s _ _ _ => s
  | group s _ _ => s
  | capture s _ _ _ => s
  | reference s _ => s
  | quantified s _ _ => s

def isLookahead : Term → Bool
  | look _ .ahead _ _ => true
  | _ => false

/-! ### Named references -/

mutual

/-- The names that the term refers to, in order. -/
def referredNames : Term → List GroupName
  | reference _ (.name name _) => [name]
  | look _ _ _ alternatives => referredNamesOfAll alternatives
  | group _ _ alternatives => referredNamesOfAll alternatives
  | capture _ _ _ alternatives => referredNamesOfAll alternatives
  | quantified _ _ element => element.referredNames
  | _ => []

def referredNamesOfTerms : List Term → List GroupName
  | [] => []
  | t :: rest => t.referredNames ++ referredNamesOfTerms rest

def referredNamesOfSequence : Sequence → List GroupName
  | .mk _ elements => referredNamesOfTerms elements

def referredNamesOfAll : List Sequence → List GroupName
  | [] => []
  | s :: rest => referredNamesOfSequence s ++ referredNamesOfAll rest

end

mutual

/-- The term with the numbers of the groups that its named references mean. -/
def resolve (indexes : GroupName → List Nat) : Term → Term
  | reference s (.name name _) => reference s (.name name (indexes name))
  | look s direction negated alternatives =>
    look s direction negated (resolveAll indexes alternatives)
  | group s modifiers alternatives => group s modifiers (resolveAll indexes alternatives)
  | capture s index name alternatives => capture s index name (resolveAll indexes alternatives)
  | quantified s repetition element => quantified s repetition (element.resolve indexes)
  | t => t

def resolveTerms (indexes : GroupName → List Nat) : List Term → List Term
  | [] => []
  | t :: rest => t.resolve indexes :: resolveTerms indexes rest

def resolveSequence (indexes : GroupName → List Nat) : Sequence → Sequence
  | .mk s elements => .mk s (resolveTerms indexes elements)

def resolveAll (indexes : GroupName → List Nat) : List Sequence → List Sequence
  | [] => []
  | s :: rest => resolveSequence indexes s :: resolveAll indexes rest

end

end Term

namespace Pattern

/-- The names that the pattern refers to, in order. -/
def referredNames (p : Pattern) : List GroupName := Term.referredNamesOfAll p.alternatives

/-- The pattern with the numbers of the groups that its named references mean. -/
def resolve (indexes : GroupName → List Nat) (p : Pattern) : Pattern :=
  { p with alternatives := Term.resolveAll indexes p.alternatives }

end Pattern

end EcmaPattern
