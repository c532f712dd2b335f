import EcmaPattern.Grammar.Parser
import EcmaPattern.CodePoint
import EcmaPattern.Identifier

/-!
# Numbers, escapes and group names

The small parsers that the rest of the grammar is put together from: numbers, what may follow a
backslash to stand for a character or for a set of characters, and the names of groups. None of them
opens anything that can nest.

* `Parser.number` reads as many digits as there are, and is at fault if the runtime could not
  convert them.
* `Parser.escapedValue` is what a character escape stands for, `Parser.setEscape` an escape for a
  set.
* `Parser.groupName` is a name between angle brackets, in which Unicode escapes may stand.
-/

namespace EcmaPattern.Parser

/-! ## Numbers

Digits of a base, read one by one, a fixed number of them, or as many as there are. -/

def ofDigits (base : Nat) (digits : List Nat) : Nat := digits.foldl (fun n d => n * base + d) 0

def digit (base : Nat) : Parser Nat := select (·.digit? base)

/-- How many digits of a base the runtime converts to a number. A base that is a power of two has no
limit. -/
def digitLimit? (base : Nat) : Option Nat := if base &&& (base - 1) = 0 then none else some 4300

def tooMany (base : Nat) (digits : List Nat) : Bool :=
  (digitLimit? base).any (· < digits.length)

/-- A number, of as many digits as there are; it is a fault if they are too many. -/
def number (base : Nat) : Parser Nat := do
  let digits ← many1 (digit base)
  if tooMany base digits then fail (.tooManyDigits digits.length) else return ofDigits base digits

def fixedHex (length : Nat) : Parser Nat := ofDigits 16 <$> times (digit 16) length

/-! ## Character escapes

What may follow a backslash to stand for one character. The parsers here begin after the backslash.
-/

def controlValue? (c : CodePoint) : Option CodePoint :=
  if c == .ofChar 'f' then some (.ofNat 0x0C)
  else if c == .ofChar 'n' then some (.ofNat 0x0A)
  else if c == .ofChar 'r' then some (.ofNat 0x0D)
  else if c == .ofChar 't' then some (.ofNat 0x09)
  else if c == .ofChar 'v' then some (.ofNat 0x0B)
  else none

def controlEscape : Parser CodePoint := select controlValue?

/-- A control letter such as `\cJ`, which stands for its code modulo 32. -/
def controlLetter : Parser CodePoint := do
  eat 'c'
  let letter ← satisfy CodePoint.isLatinLetter
  return CodePoint.ofNat (letter.val % 0x20)

/-- A zero that no digit follows. -/
def zeroEscape : Parser CodePoint := fun g s =>
  if (s.cursor.peek 1).any CodePoint.isDecimalDigit then .miss
  else (do eat '0'; return CodePoint.ofNat 0 : Parser CodePoint) g s

def hexEscape : Parser CodePoint := do
  eat 'x'
  CodePoint.ofNat <$> fixedHex 2 <|> do
    require (← grammar).exact
    fail .invalidEscape

def escapedPair : Parser CodePoint := do
  let lead := CodePoint.ofNat (← fixedHex 4)
  require lead.isLead
  eatAll ['\\', 'u']
  let trail := CodePoint.ofNat (← fixedHex 4)
  require trail.isTrail
  return .ofPair lead trail

def bracedCodePoint : Parser CodePoint := do
  eat '{'
  let n ← number 16
  eat '}'
  -- a number above the last code point is no escape, and what to say of it is left to the caller
  match CodePoint.ofInt? n with
  | some c => return c
  | none => miss

/-- A Unicode escape. Escaped pairs and braces are read only with `wide`; where they are, or in the
strict grammar, a `u` that begins no escape is a fault. -/
def unicodeEscape (wide : Bool) : Parser CodePoint := do
  eat 'u'
  (do require wide; escapedPair)
    <|> CodePoint.ofNat <$> fixedHex 4
    <|> (do require wide; bracedCodePoint)
    <|> do
      require ((← grammar).strict || wide)
      fail .invalidUnicodeEscape

/-- One to three octal digits, as many as keep the value below 256. -/
def legacyOctal : Parser CodePoint := do
  let first ← digit 8
  match ← attempt (digit 8) with
  | none => return CodePoint.ofNat first
  | some second =>
    -- three digits from `400` on would be above 255
    if first ≤ 3 then
      match ← attempt (digit 8) with
      | some third => return CodePoint.ofNat (first * 64 + second * 8 + third)
      | none => return CodePoint.ofNat (first * 8 + second)
    else return CodePoint.ofNat (first * 8 + second)

def isIdentityEscape (g : Grammar) (c : CodePoint) : Bool :=
  if g.unicode then c.isSyntaxCharacter || c.isOneOf ['/']
  else if g.strict then !c.isIdentifierPart
  else if g.namedReferences then !c.isOneOf ['c', 'k']
  else !c.isOneOf ['c']

def identityEscape : Parser CodePoint := do
  satisfy (isIdentityEscape (← grammar))

def escapedValue : Parser CodePoint := do
  let g ← grammar
  controlEscape <|> controlLetter <|> zeroEscape <|> hexEscape <|> unicodeEscape g.unicode
    -- behind `zeroEscape`, so that a lone zero is no octal number
    <|> (do require !g.exact; legacyOctal)
    <|> identityEscape

/-- The character with the given value that was read since a place. -/
def characterFrom (mark : Cursor) (value : CodePoint) : Parser Character := do
  return ⟨← spanFrom mark, value⟩

/-- A character escape whose backslash is at the given place. -/
def characterEscape (mark : Cursor) : Parser Character := do
  characterFrom mark (← escapedValue)

/-! ## Set escapes

Escapes that stand for a set of characters: the letters `d`, `s` and `w`, their capitals, and, by
code points, properties. The parsers here begin after the backslash. -/

def escapeSet? (c : CodePoint) : Option (EscapeSet × Bool) :=
  if c == .ofChar 'd' then some (.digit, false)
  else if c == .ofChar 'D' then some (.digit, true)
  else if c == .ofChar 's' then some (.space, false)
  else if c == .ofChar 'S' then some (.space, true)
  else if c == .ofChar 'w' then some (.word, false)
  else if c == .ofChar 'W' then some (.word, true)
  else none

def propertyLetter? (c : CodePoint) : Option Bool :=
  if c == .ofChar 'p' then some false
  else if c == .ofChar 'P' then some true
  else none

def propertyWord (test : CodePoint → Bool) : Parser String := do
  let cs ← many1 (satisfy test)
  return .ofList (cs.filterMap CodePoint.toChar?)

def propertyPair : Parser Property := do
  let name ← propertyWord CodePoint.isPropertyNameCharacter
  eat '='
  let value ← propertyWord CodePoint.isPropertyValueCharacter
  match Property.ofPair? (← grammar).edition name value with
  | some p => return p
  | none => fail .invalidPropertyName

def loneProperty : Parser Property := do
  let name ← propertyWord CodePoint.isPropertyValueCharacter
  let g ← grammar
  match Property.ofName? g.edition g.sets name with
  | some p => return p
  | none => fail .invalidPropertyName

/-- A property escape whose backslash is at the given place. Once its letter has been read, anything
but a property that may stand there is a fault. -/
def propertyEscape (mark : Cursor) : Parser CharSet := do
  require (← grammar).unicode
  require (← supports .propertyEscapes)
  let negated ← select propertyLetter?
  eat '{' <|> fail .invalidPropertyName
  let p ← propertyPair <|> loneProperty <|> fail .invalidPropertyName
  eat '}' <|> fail .invalidPropertyName
  if negated && p.strings then fail .invalidPropertyName
  else return .property (← spanFrom mark) p negated

def setEscape (mark : Cursor) : Parser CharSet :=
  (do let (set, negated) ← select escapeSet?
      return .escape (← spanFrom mark) set negated)
    <|> propertyEscape mark

/-! ## Group names

A name between angle brackets. A character of it can be written as a Unicode escape. From the
edition that has Unicode group names on, surrogate pairs and wide escapes are read as one character
even where the rest of the pattern is read by code units. -/

/-- A character of a name that passes a test, as it is or escaped. -/
def nameCharacter (test : CodePoint → Bool) : Parser CodePoint := do
  let g ← grammar
  -- by code points pairs come joined already
  let joins := !g.unicode && g.edition.supports .unicodeGroupNames
  let first ← satisfy fun _ => true
  let c ←
    (do require (first == .ofChar '\\')
        unicodeEscape (joins || g.unicode))
      <|> (do require (joins && first.isLead)
              return .ofPair first (← satisfy CodePoint.isTrail))
      <|> pure first
  require (test c)
  return c

def identifierName : Parser GroupName := do
  let first ← nameCharacter CodePoint.isIdentifierStart
  let rest ← many (nameCharacter CodePoint.isIdentifierPart)
  return first :: rest

/-- A name between angle brackets. Once the first bracket has been read, anything else is a
fault. -/
def groupName : Parser GroupName := do
  eat '<'
  let name ← identifierName <|> fail .invalidGroupName
  eat '>' <|> fail .invalidGroupName
  return name

end EcmaPattern.Parser
