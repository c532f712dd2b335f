import EcmaPattern.Grammar.CharClass
import EcmaPattern.Routine.Escape

/-!
# Classes

The routines for classes and what stands in them, by ranges and by the set grammar.
-/

namespace EcmaPattern.Routine

open EcmaPattern.Parser (operationSign)

def unlessAtEnd {α : Type} (r : Routine α) : Routine α := do
  require (← peek 0).isSome
  r

/-! ### Ranges -/

/-- The character with the given value that was read since an offset, as a set. -/
def characterSetFrom (start : Nat) (value : CodePoint) : Routine CharSet :=
  CharSet.character <$> characterFrom start value

def classControlLetter : Routine CodePoint := do
  require !(← grammar).exact
  require (← sees 0 'c')
  match (← peek 1).filter fun c => c.isDecimalDigit || c.isOneOf ['_'] with
  | some letter =>
    advance
    advance
    return CodePoint.ofNat (letter.val % 0x20)
  | none => miss

def classEscapedValue : Routine CodePoint :=
  (do eat 'b'; return CodePoint.ofNat 0x08)
    <|> (do require (← grammar).unicode; eat '-'; return '-')
    <|> classControlLetter

def classEscape (start : Nat) : Routine CharSet :=
  (do characterSetFrom start (← classEscapedValue))
    <|> setEscape start
    <|> CharSet.character <$> characterEscape start

def classBackslash (start : Nat) : Routine CharSet := do
  require !(← grammar).strict
  require (← sees 0 'c')
  characterSetFrom start '\\'

def classAtom : Routine CharSet := do
  let start ← index
  (do characterSetFrom start (← satisfy fun c => !c.isOneOf ['\\', ']']))
    <|> do
      eat '\\'
      (classEscape start
          <|> classBackslash start
          <|> do
            require (← grammar).exact
            fail .invalidEscape)
        <|> backTo start

def classRange (start : Nat) (low dash high : CharSet) : Routine (List CharSet) := do
  match low.character?, high.character? with
  | some first, some last =>
    if first.value > last.value then fail .rangeOutOfOrder
    else return [.range (← spanFrom start) first last]
  | _, _ =>
    if (← grammar).exact then fail .invalidCharacterClass else return [low, dash, high]

/-- The contents of a class, with fuel for so many atoms and ranges. A hyphen with nothing behind it
is the last element. -/
def classRangesFor : Nat → Routine (List CharSet)
  | 0 => exhausted
  | fuel + 1 => do
    let start ← index
    match ← attempt classAtom with
    | none => return []
    | some low =>
      if ← eats '-' then
        let dash ← characterSetFrom ((← index) - 1) '-'
        match ← attempt classAtom with
        | none => return [low, dash]
        | some high =>
          let elements ← classRange start low dash high
          return elements ++ (← classRangesFor fuel)
      else return low :: (← classRangesFor fuel)

def classRanges : Routine (List CharSet) := do
  classRangesFor (← settings).fuel

/-! ### The set grammar -/

def plainClassSetCharacter : Routine CodePoint := do
  let doubled := (← peek 0) == (← peek 1)
  satisfy fun c => !(doubled && c.isClassSetDoublePunctuator) && !c.isClassSetSyntax

def classSetCharacter : Routine Character := do
  let start ← index
  (do characterFrom start (← plainClassSetCharacter))
    <|> do
      eat '\\'
      (characterEscape start
          <|> (do characterFrom start (← satisfy CodePoint.isClassSetPunctuator))
          <|> do
            eat 'b'
            characterFrom start (CodePoint.ofNat 0x08))
        <|> backTo start

def classSetRange (first : Character) : Routine CharSet := do
  let dash ← index
  eat '-'
  (do let last ← classSetCharacter
      if first.value > last.value then fail .rangeOutOfOrder
      else return .range (← spanFrom first.span.start) first last)
    <|> backTo dash

def classString : Routine ClassString := do
  let start ← index
  let characters ← collect (unlessAtEnd classSetCharacter)
  return ⟨← spanFrom start, characters⟩

def classStrings : Routine CharSet := do
  let start ← index
  eatAll ['\\', 'q', '{']
  let first ← classString
  let rest ← collect do
    eat '|'
    classString
  eat '}' <|> fail .unterminatedClassStrings
  return .strings (← spanFrom start) (first :: rest)

def escapedSet : Routine CharSet := do
  let start ← index
  eat '\\'
  setEscape start <|> backTo start

def classSetOperand (inner : Routine CharSet) : Routine CharSet :=
  inner <|> escapedSet <|> classStrings <|> CharSet.character <$> classSetCharacter

/-- The operands that follow the sign of a set operation, with fuel for so many of them. A third
ampersand is a fault. -/
def operandsFor (inner : Routine CharSet) (start : Nat) (op : SetOperation) :
    Nat → CharSet → Routine (List CharSet)
  | 0, _ => exhausted
  | fuel + 1, left => do
    if op = .intersection && (← sees 0 '&') then fail .invalidCharacterInClass
    else
      let right ← classSetOperand inner <|> fail .invalidCharacterInClass
      let left := .operation (← spanFrom start) op left right
      match ← attempt (eatAll [operationSign op, operationSign op]) with
      | some _ => operandsFor inner start op fuel left
      | none => return [left]

def operationChain (inner : Routine CharSet) (start : Nat) (op : SetOperation) (first : CharSet) :
    Routine (List CharSet) := do
  eatAll [operationSign op, operationSign op]
  operandsFor inner start op (← settings).fuel first

def unionItem (inner : Routine CharSet) : Routine CharSet :=
  (do let c ← classSetCharacter
      classSetRange c <|> pure (.character c))
    <|> classSetOperand inner

def classSetFrom (inner : Routine CharSet) (start : Nat) (first : CharSet) :
    Routine (List CharSet) :=
  operationChain inner start .intersection first
    <|> operationChain inner start .subtraction first
    <|> (first :: ·) <$> collect (unionItem inner)

def classSetFault : Routine (List CharSet) := do
  let c ← peek 0
  if c == some (.ofChar '\\') then
    advance
    fail .invalidEscape
  else if c == (← peek 1) && c.any CodePoint.isClassSetDoublePunctuator then
    fail .invalidSetOperation
  else fail .invalidCharacterInClass

def classSetExpression (inner : Routine CharSet) : Routine (List CharSet) := do
  let start ← index
  match ← attempt classSetCharacter with
  | some c =>
    match ← attempt (classSetRange c) with
    | some range => (range :: ·) <$> collect (unionItem inner)
    | none => classSetFrom inner start (.character c)
  | none =>
    match ← attempt (classSetOperand inner) with
    | some operand => classSetFrom inner start operand
    | none => classSetFault

def classSetContents (inner : Routine CharSet) : Routine (List CharSet) := do
  let c ← peek 0
  if c.isNone || c == some (.ofChar ']') then return [] else classSetExpression inner

/-! ### Classes -/

def closeClass (nested : Bool) : Routine Unit :=
  eat ']' <|> do
    if nested || (← peek 0).isNone then fail .unterminatedClass else fail .invalidCharacterInClass

def classOf (start : Nat) (negated : Bool) (elements : List CharSet) : Routine CharSet := do
  let g ← grammar
  let span ← spanFrom start
  match elements with
  | [contents] =>
    if g.sets && contents.isOperation then return .expression span negated contents
    else return .listing span negated g.sets elements
  | _ => return .listing span negated g.sets elements

def classBody (inner : Routine CharSet) (nested : Bool) : Routine CharSet := do
  let start ← index
  eat '['
  enterNesting start
  let negated ← eats '^'
  let elements ← if (← grammar).sets then classSetContents inner else classRanges
  closeClass nested
  if negated && elements.any CharSet.mayContainStrings then fail .negatedClassWithStrings
  else
    leaveNesting
    classOf start negated elements

def charClass : Nat → Bool → Routine CharSet
  | 0, _ => exhausted
  | fuel + 1, nested => classBody (charClass fuel true) nested

end EcmaPattern.Routine
