import EcmaPattern.Grammar.Escape
import EcmaPattern.Routine

/-!
# Escapes

The routines for numbers, escapes and names.
-/

namespace EcmaPattern.Routine

open EcmaPattern.Parser (ofDigits tooMany controlValue? isIdentityEscape escapeSet? propertyLetter?)

/-! ### Numbers -/

def digit (base : Nat) : Routine Nat := select (·.digit? base)

def number (base : Nat) : Routine Nat := do
  let digits ← collect1 (digit base)
  if tooMany base digits then fail (.tooManyDigits digits.length) else return ofDigits base digits

def fixedHex (length : Nat) : Routine Nat := do
  let start ← index
  ofDigits 16 <$> times (digit 16) length <|> backTo start

/-! ### Characters -/

def controlEscape : Routine CodePoint := select controlValue?

def controlLetter : Routine CodePoint := do
  let start ← index
  eat 'c'
  (do let letter ← satisfy CodePoint.isLatinLetter
      return CodePoint.ofNat (letter.val % 0x20))
    <|> backTo start

def zeroEscape : Routine CodePoint := do
  require (← sees 0 '0')
  require !(← peek 1).any CodePoint.isDecimalDigit
  advance
  return CodePoint.ofNat 0

def hexEscape : Routine CodePoint := do
  let start ← index
  eat 'x'
  (CodePoint.ofNat <$> fixedHex 2 <|> do
      require (← grammar).exact
      fail .invalidEscape)
    <|> backTo start

def escapedPair : Routine CodePoint := do
  let start ← index
  let lead := CodePoint.ofNat (← fixedHex 4)
  (do require lead.isLead
      eat '\\'
      eat 'u'
      let trail := CodePoint.ofNat (← fixedHex 4)
      require trail.isTrail
      return .ofPair lead trail)
    <|> backTo start

def bracedCodePoint : Routine CodePoint := do
  let start ← index
  (do eat '{'
      let n ← number 16
      eat '}'
      match CodePoint.ofInt? n with
      | some c => return c
      | none => miss)
    <|> backTo start

/-- A Unicode escape. Escaped pairs and braces are read only with `wide`. -/
def unicodeEscape (wide : Bool) : Routine CodePoint := do
  let start ← index
  eat 'u'
  ((do require wide; escapedPair)
      <|> CodePoint.ofNat <$> fixedHex 4
      <|> (do require wide; bracedCodePoint)
      <|> do
        require ((← grammar).strict || wide)
        fail .invalidUnicodeEscape)
    <|> backTo start

def legacyOctal : Routine CodePoint := do
  let first ← digit 8
  match ← attempt (digit 8) with
  | none => return CodePoint.ofNat first
  | some second =>
    if first ≤ 3 then
      match ← attempt (digit 8) with
      | some third => return CodePoint.ofNat (first * 64 + second * 8 + third)
      | none => return CodePoint.ofNat (first * 8 + second)
    else return CodePoint.ofNat (first * 8 + second)

def identityEscape : Routine CodePoint := do
  satisfy (isIdentityEscape (← grammar))

def escapedValue : Routine CodePoint := do
  let g ← grammar
  controlEscape <|> controlLetter <|> zeroEscape <|> hexEscape <|> unicodeEscape g.unicode
    <|> (do require !g.exact; legacyOctal)
    <|> identityEscape

def characterFrom (start : Nat) (value : CodePoint) : Routine Character := do
  return ⟨← spanFrom start, value⟩

def characterEscape (start : Nat) : Routine Character := do
  characterFrom start (← escapedValue)

/-! ### Sets -/

def propertyWord (test : CodePoint → Bool) : Routine String := do
  let cs ← collect1 (satisfy test)
  return .ofList (cs.filterMap CodePoint.toChar?)

def propertyPair : Routine Property := do
  let name ← propertyWord CodePoint.isPropertyNameCharacter
  eat '='
  let value ← propertyWord CodePoint.isPropertyValueCharacter
  match Property.ofPair? (← grammar).edition name value with
  | some p => return p
  | none => fail .invalidPropertyName

def loneProperty : Routine Property := do
  let name ← propertyWord CodePoint.isPropertyValueCharacter
  let g ← grammar
  match Property.ofName? g.edition g.sets name with
  | some p => return p
  | none => fail .invalidPropertyName

def propertyExpression : Routine Property := do
  let start ← index
  propertyPair <|> do
    rewind start
    loneProperty

def propertyEscape (start : Nat) : Routine CharSet := do
  require (← grammar).unicode
  require (← supports .propertyEscapes)
  let negated ← select propertyLetter?
  eat '{' <|> fail .invalidPropertyName
  let p ← propertyExpression <|> fail .invalidPropertyName
  eat '}' <|> fail .invalidPropertyName
  if negated && p.strings then fail .invalidPropertyName
  else return .property (← spanFrom start) p negated

def setEscape (start : Nat) : Routine CharSet :=
  (do let (set, negated) ← select escapeSet?
      return .escape (← spanFrom start) set negated)
    <|> propertyEscape start

/-! ### Names -/

def nameCharacter (test : CodePoint → Bool) : Routine CodePoint := do
  let start ← index
  let g ← grammar
  let joins := !g.unicode && g.edition.supports .unicodeGroupNames
  let first ← satisfy fun _ => true
  (do let c ←
        (do require (first == .ofChar '\\')
            unicodeEscape (joins || g.unicode))
          <|> (do require (joins && first.isLead)
                  return .ofPair first (← satisfy CodePoint.isTrail))
          <|> pure first
      require (test c)
      return c)
    <|> backTo start

def identifierName : Routine GroupName := do
  let first ← nameCharacter CodePoint.isIdentifierStart
  let rest ← collect (nameCharacter CodePoint.isIdentifierPart)
  return first :: rest

def groupName : Routine GroupName := do
  eat '<'
  let name ← identifierName <|> fail .invalidGroupName
  eat '>' <|> fail .invalidGroupName
  return name

end EcmaPattern.Routine
