import EcmaPattern.Grammar.Escape

/-!
# Character classes

Classes between brackets. There are two grammars for the contents: ranges, `Parser.classRanges`, and
the set grammar, `Parser.classSetContents`, in which classes nest. `Parser.charClass` ties the knot:
how deeply classes may still nest is an argument, on which the recursion runs.
-/

namespace EcmaPattern.Parser

/-! ## Class ranges

The contents of a class outside the set grammar: atoms, and ranges of two atoms with a hyphen
between them. A hyphen with nothing after it is an atom itself, and so is, in the web grammar, one
that stands next to a set escape. -/

/-- The character with the given value that was read since a place, as a set. -/
def characterSetFrom (mark : Cursor) (value : CodePoint) : Parser CharSet :=
  CharSet.character <$> characterFrom mark value

/-- In the web grammar, a control letter of a class may also be a digit or an underscore. -/
def classControlLetter : Parser CodePoint := do
  require !(← grammar).exact
  eat 'c'
  let letter ← satisfy fun c => c.isDecimalDigit || c.isOneOf ['_']
  return CodePoint.ofNat (letter.val % 0x20)

/-- The value of an escape that stands for one character only inside a class. -/
def classEscapedValue : Parser CodePoint :=
  (do eat 'b'; return CodePoint.ofNat 0x08)
    <|> (do require (← grammar).unicode; eat '-'; return '-')
    <|> classControlLetter

/-- What may follow a backslash inside a class; the backslash is at the given place. -/
def classEscape (mark : Cursor) : Parser CharSet :=
  (do characterSetFrom mark (← classEscapedValue))
    <|> setEscape mark
    <|> CharSet.character <$> characterEscape mark

/-- Unless the grammar is strict, a backslash before a `c` that begins no control letter stands for
itself. -/
def classBackslash (mark : Cursor) : Parser CharSet := do
  require !(← grammar).strict
  require (← sees 0 'c')
  characterSetFrom mark '\\'

def classAtom : Parser CharSet := do
  let mark ← here
  -- a hyphen is an atom too; whether it makes a range is decided by what reads the atoms
  (do characterSetFrom mark (← satisfy fun c => !c.isOneOf ['\\', ']']))
    <|> do
      eat '\\'
      classEscape mark
        <|> classBackslash mark
        <|> do
          require (← grammar).exact
          fail .invalidEscape

def classRange (mark : Cursor) (low dash high : CharSet) : Parser (List CharSet) := do
  match low.character?, high.character? with
  | some first, some last =>
    if first.value > last.value then fail .rangeOutOfOrder
    else return [.range (← spanFrom mark) first last]
  | _, _ =>
    if (← grammar).exact then fail .invalidCharacterClass else return [low, dash, high]

def classRangeItem : Parser (List CharSet) := do
  let mark ← here
  let low ← classAtom
  let dashMark ← here
  if ← eats '-' then
    let dash ← characterSetFrom dashMark '-'
    match ← attempt classAtom with
    | some high => classRange mark low dash high
    -- the closing bracket follows, or an end: the hyphen stands for itself
    | none => return [low, dash]
  else return [low]

def classRanges : Parser (List CharSet) := List.flatten <$> many classRangeItem

/-! ## Class sets

The contents of a class by the set grammar: a union of characters, ranges and operands, or one kind
of set operation on operands, from left to right. An operand is a class of its own, a set escape,
quoted strings or a character. The parser of a class inside the class is an argument. -/

/-- A plain character: none that the set grammar uses or, doubled, reserves. -/
def plainClassSetCharacter : Parser CodePoint := fun g s =>
  let doubled := s.cursor.peek 0 == s.cursor.peek 1
  satisfy (fun c => !(doubled && c.isClassSetDoublePunctuator) && !c.isClassSetSyntax) g s

def classSetCharacter : Parser Character := do
  let mark ← here
  (do characterFrom mark (← plainClassSetCharacter))
    <|> do
      eat '\\'
      characterEscape mark
        <|> (do characterFrom mark (← satisfy CodePoint.isClassSetPunctuator))
        <|> do
          eat 'b'
          characterFrom mark (CodePoint.ofNat 0x08)

def classSetRange (first : Character) (mark : Cursor) : Parser CharSet := do
  eat '-'
  let last ← classSetCharacter
  if first.value > last.value then fail .rangeOutOfOrder
  else return .range (← spanFrom mark) first last

def classString : Parser ClassString := do
  let mark ← here
  let characters ← many classSetCharacter
  return ⟨← spanFrom mark, characters⟩

def classStrings : Parser CharSet := do
  let mark ← here
  eatAll ['\\', 'q', '{']
  let first ← classString
  let rest ← many do
    eat '|'
    classString
  eat '}' <|> fail .unterminatedClassStrings
  return .strings (← spanFrom mark) (first :: rest)

def escapedSet : Parser CharSet := do
  let mark ← here
  eat '\\'
  setEscape mark

def classSetOperand (inner : Parser CharSet) : Parser CharSet :=
  inner <|> escapedSet <|> classStrings <|> CharSet.character <$> classSetCharacter

def operationSign : SetOperation → Char
  | .intersection => '&'
  | .subtraction => '-'

/-- The right side of a set operation, and the span of the operation so far. A third ampersand is a
fault. -/
def operationStep (inner : Parser CharSet) (mark : Cursor) (op : SetOperation) :
    Parser (Span × CharSet) := do
  let sign := operationSign op
  eatAll [sign, sign]
  if op = .intersection && (← sees 0 '&') then fail .invalidCharacterInClass
  else
    let right ← classSetOperand inner <|> fail .invalidCharacterInClass
    return (← spanFrom mark, right)

/-- The set operations of one kind that follow a first operand, from left to right. -/
def operationChain (inner : Parser CharSet) (mark : Cursor) (op : SetOperation) (first : CharSet) :
    Parser (List CharSet) := do
  let steps ← many1 (operationStep inner mark op)
  return [steps.foldl (fun left (span, right) => .operation span op left right) first]

def unionItem (inner : Parser CharSet) : Parser CharSet := do
  let mark ← here
  (do let c ← classSetCharacter
      classSetRange c mark <|> pure (.character c))
    <|> classSetOperand inner

/-- The contents that go on from a first operand. -/
def classSetFrom (inner : Parser CharSet) (mark : Cursor) (first : CharSet) :
    Parser (List CharSet) :=
  operationChain inner mark .intersection first
    <|> operationChain inner mark .subtraction first
    <|> (first :: ·) <$> many (unionItem inner)

def classSetFault : Parser (List CharSet) := fun g s =>
  match s.cursor.peek 0 with
  | none => fail .invalidCharacterInClass g s
  | some c =>
    if c == .ofChar '\\' then (do eat '\\'; fail .invalidEscape : Parser (List CharSet)) g s
    else if s.cursor.peek 1 == some c && c.isClassSetDoublePunctuator then
      fail .invalidSetOperation g s
    else fail .invalidCharacterInClass g s

def classSetExpression (inner : Parser CharSet) : Parser (List CharSet) := do
  let mark ← here
  match ← attempt classSetCharacter with
  | some c =>
    match ← attempt (classSetRange c mark) with
    -- what begins with a range can only be a union
    | some range => (range :: ·) <$> many (unionItem inner)
    | none => classSetFrom inner mark (.character c)
  | none =>
    match ← attempt (classSetOperand inner) with
    | some operand => classSetFrom inner mark operand
    | none => classSetFault

def classSetContents (inner : Parser CharSet) : Parser (List CharSet) := do
  if (← atEnd) || (← sees 0 ']') then return [] else classSetExpression inner

/-! ## Classes

A class between brackets. How deeply classes may still nest is an argument, on which the recursion
runs: a class that would go below zero is a fault. -/

/-- The closing bracket of a class, which is inside another class if `nested`. -/
def closeClass (nested : Bool) : Parser Unit :=
  eat ']' <|> do
    if nested || (← atEnd) then fail .unterminatedClass else fail .invalidCharacterInClass

def classOf (mark : Cursor) (negated : Bool) (elements : List CharSet) : Parser CharSet := do
  let g ← grammar
  let span ← spanFrom mark
  match elements with
  | [contents] =>
    -- one element that is an operation is all there is, since operations do not mix with unions
    if g.sets && contents.isOperation then return .expression span negated contents
    else return .listing span negated g.sets elements
  | _ => return .listing span negated g.sets elements

def classBody (inner : Parser CharSet) (nested : Bool) : Parser CharSet := do
  let mark ← here
  eat '['
  let negated ← eats '^'
  let elements ← if (← grammar).sets then classSetContents inner else classRanges
  closeClass nested
  if negated && elements.any CharSet.mayContainStrings then fail .negatedClassWithStrings
  else classOf mark negated elements

/-- A class, with the given number of levels left for it and the classes inside it. -/
def charClass : Nat → Bool → Parser CharSet
  | 0, _, g, s =>
    (do let mark ← here
        eat '['
        failAt .nestedTooDeeply mark.index : Parser CharSet) g s
  | depth + 1, nested, g, s => classBody (charClass depth true) nested g s

end EcmaPattern.Parser
