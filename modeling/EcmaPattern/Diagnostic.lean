import EcmaPattern.Text.Quoted

/-!
# Causes, faults and diagnostics

A `Cause` says what is wrong with a pattern, a `Fault` also where, and a `Diagnostic` is what a
caller sees: the wording, the offset and the source text it is quoted with. Only `Cause.message`
knows the wording.
-/

namespace EcmaPattern

/-- What can be wrong with a literal, a pattern or flags. -/
inductive Cause where
  | invalidCharacterInClass
  | invalidSetOperation
  | unterminatedClass
  | unterminatedClassStrings
  | negatedClassWithStrings
  | rangeOutOfOrder
  | invalidCharacterClass
  | invalidEscape
  | invalidUnicodeEscape
  | invalidPropertyName
  | invalidGroup
  | invalidGroupName
  | duplicateGroupName
  | invalidNamedReference
  | unknownNamedReference
  | unterminatedGroup
  | unmatchedParenthesis
  | nothingToRepeat
  | loneQuantifierBrackets
  | incompleteQuantifier
  | quantifierOutOfOrder
  | trailingBackslash
  | unterminatedLiteral
  | emptyLiteral
  | conflictingFlags
  | emptyModifiers
  | nestedTooDeeply
  | invalidFlag (flag : CodePoint)
  | duplicatedFlag (flag : CodePoint)
  | unexpectedCharacter (character : CodePoint)
  /-- A number has more digits than the runtime converts. -/
  | tooManyDigits (count : Nat)
  deriving DecidableEq

namespace Cause

def naming (what : String) (c : CodePoint) : Text :=
  .ofString what ++ .ofString " '" ++ c.encode ++ .ofString "'"

def message : Cause → Text
  | invalidCharacterInClass => .ofString "Invalid character in character class"
  | invalidSetOperation => .ofString "Invalid set operation in character class"
  | unterminatedClass => .ofString "Unterminated character class"
  | unterminatedClassStrings => .ofString "Unterminated class string disjunction"
  | negatedClassWithStrings => .ofString "Negated character class may contain strings"
  | rangeOutOfOrder => .ofString "Range out of order in character class"
  | invalidCharacterClass => .ofString "Invalid character class"
  | invalidEscape => .ofString "Invalid escape"
  | invalidUnicodeEscape => .ofString "Invalid unicode escape"
  | invalidPropertyName => .ofString "Invalid property name"
  | invalidGroup => .ofString "Invalid group"
  | invalidGroupName => .ofString "Invalid capture group name"
  | duplicateGroupName => .ofString "Duplicate capture group name"
  | invalidNamedReference => .ofString "Invalid named reference"
  | unknownNamedReference => .ofString "Invalid named capture referenced"
  | unterminatedGroup => .ofString "Unterminated group"
  | unmatchedParenthesis => .ofString "Unmatched ')'"
  | nothingToRepeat => .ofString "Nothing to repeat"
  | loneQuantifierBrackets => .ofString "Lone quantifier brackets"
  | incompleteQuantifier => .ofString "Incomplete quantifier"
  | quantifierOutOfOrder => .ofString "numbers out of order in \x7b\x7d quantifier"
  | trailingBackslash => .ofString "\\ at end of pattern"
  | unterminatedLiteral => .ofString "Unterminated regular expression"
  | emptyLiteral => .ofString "Empty"
  | conflictingFlags => .ofString "Invalid regular expression flags"
  | emptyModifiers => .ofString "Invalid empty flags"
  | nestedTooDeeply => .ofString "Pattern nested too deeply"
  | invalidFlag flag => naming "Invalid flag" flag
  | duplicatedFlag flag => naming "Duplicated flag" flag
  | unexpectedCharacter character => naming "Unexpected character" character
  | tooManyDigits count =>
    .ofString "Exceeds the limit (4300 digits) for integer string conversion: value has " ++
      .ofString (toString count) ++
      .ofString " digits; use sys.set_int_max_str_digits() to increase the limit"

end Cause

/-- A cause and the offset, in code units, at which it was found. -/
structure Fault where
  cause : Cause
  index : Nat
  deriving DecidableEq

/-- The fault in a text that begins at the given offset of another. -/
def Fault.shift (f : Fault) (offset : Nat) : Fault := { f with index := offset + f.index }

/-- A fault as it is reported. -/
structure Diagnostic where
  /-- Whether the nesting limit was passed, rather than the grammar broken. -/
  nesting : Bool
  message : Text
  index : Int
  /-- The text that was being read, if it is known. -/
  source : Option Text

namespace Diagnostic

/-- The report of a fault found in a source text. -/
def ofFault (source : Option Text) (f : Fault) : Diagnostic :=
  ⟨f.cause = .nestedTooDeeply, f.cause.message, f.index, source⟩

/-- The report for a text that begins at the given offset of another. -/
def shift (d : Diagnostic) (offset : Int) : Diagnostic := { d with index := offset + d.index }

def tooDeep (index : Int) (source : Option Text) : Diagnostic :=
  ⟨true, Cause.nestedTooDeeply.message, index, source⟩

/-- The full wording. An empty source text is not quoted. -/
def text (d : Diagnostic) : Text :=
  let source := d.source.getD []
  Text.ofString "Invalid regular expression: " ++
    (if source.isEmpty then [] else source ++ .ofString ": ") ++ d.message

def kindName (d : Diagnostic) : String :=
  if d.nesting then "RegExpNestingError" else "RegExpSyntaxError"

/-- The diagnostic in one line, with its kind, its quoted message and its offset. -/
def summary (d : Diagnostic) : Text :=
  Text.ofString (d.kindName ++ "(") ++ d.message.quoted ++ .ofString s!", index={d.index})"

/-- Diagnostics are equal when they say the same of the same place; the source they quote and the
kind play no part. -/
instance : BEq Diagnostic := ⟨fun a b => a.message == b.message && a.index == b.index⟩

end Diagnostic

/-- Why a call has no result. -/
inductive Failure where
  /-- Something is wrong with the text, and is reported. -/
  | diagnostic (d : Diagnostic)
  /-- The runtime refused to convert a number of so many digits. It knows of no text and no offset.
  -/
  | tooManyDigits (count : Nat)

namespace Failure

/-- What a caller sees of a fault found in a source text. -/
def ofFault (source : Option Text) (f : Fault) : Failure :=
  match f.cause with
  | .tooManyDigits count => .tooManyDigits count
  | _ => .diagnostic (.ofFault source f)

/-- The failure in a text that begins at the given offset of another. -/
def shift (offset : Int) : Failure → Failure
  | .diagnostic d => .diagnostic (d.shift offset)
  | .tooManyDigits count => .tooManyDigits count

def message : Failure → Text
  | .diagnostic d => d.message
  | .tooManyDigits count => (Cause.tooManyDigits count).message

end Failure

end EcmaPattern
