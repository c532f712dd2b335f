import EcmaPattern.Grammar.Escape
import EcmaPattern.Grammar.Parser
import EcmaPattern.Grammar.CharClass

/-!
# Terms and disjunctions

What an alternative is made of: quantifiers, assertions, groups and atoms, then terms, alternatives
and whole disjunctions. Constructs that hold alternatives take the parser of these as an argument,
and `Parser.disjunction` closes the recursion on the number of levels that are left.

The main statement is `Parser.disjunction_neverMisses`: there is always a disjunction to read, if
only the empty one, or else a fault.
-/

namespace EcmaPattern.Parser

/-! ## Quantifiers

The marks that repeat a term: a star, a plus, a question mark or bounds between braces, and a
question mark after them if the match is to be short. Without the web grammar, braces that begin no
well-formed bounds are a fault. A lenient reader finds no faults and only looks whether a quantifier
stands there. -/

/-- A least and a greatest count; without the latter there is no end. -/
abbrev Bounds := Nat × Option Nat

def outOfOrder : Bounds → Bool
  | (least, some greatest) => greatest < least
  | (_, none) => false

/-- Bounds that go no further are no bounds to a lenient reader and in the web grammar, and else a
fault. -/
def incompleteBounds {α : Type} (lenient : Bool) : Parser α := do
  if lenient || !(← grammar).exact then miss else fail .incompleteQuantifier

def bracedBounds (lenient : Bool) : Parser Bounds := do
  eat '{'
  -- a number that is too long is a fault even to a lenient reader
  let least ← number 10 <|> incompleteBounds lenient
  let greatest ← if ← eats ',' then attempt (number 10) else pure (some least)
  eat '}' <|> incompleteBounds lenient
  if !lenient && outOfOrder (least, greatest) then fail .quantifierOutOfOrder
  else return (least, greatest)

def quantifierBounds (lenient : Bool) : Parser Bounds :=
  (do eat '*'; return (0, none))
    <|> (do eat '+'; return (1, none))
    <|> (do eat '?'; return (0, some 1))
    <|> bracedBounds lenient

def quantifier (lenient : Bool) : Parser Repetition := do
  let (least, greatest) ← quantifierBounds lenient
  let lazy ← eats '?'
  return ⟨least, greatest, !lazy⟩

/-- The term, repeated if a quantifier follows; it began at the given place. -/
def quantified (mark : Cursor) (term : Term) : Parser Term := do
  match ← attempt (quantifier false) with
  | some repetition => return .quantified (← spanFrom mark) repetition term
  | none => return term

/-! ## Assertions

The terms that match no text of their own: edges, word boundaries and lookarounds. The parser of the
alternatives inside a lookaround is an argument; it is given the place at which the construct began.
-/

/-- A parser of the alternatives inside a construct that began at the given place. -/
abbrev Nested := Cursor → Parser (List Sequence)

def closeGroup : Parser Unit := eat ')' <|> fail .unterminatedGroup

def edgeAssertion : Parser Term := do
  let mark ← here
  let edge ← (do eat '^'; return Edge.start) <|> (do eat '$'; return Edge.stop)
  return .edge (← spanFrom mark) edge

def wordBoundary : Parser Term := do
  let mark ← here
  let negated ← (do eatAll ['\\', 'B']; return true) <|> (do eatAll ['\\', 'b']; return false)
  return .wordBoundary (← spanFrom mark) negated

def lookOpening : Parser (Direction × Bool) := do
  eatAll ['(', '?']
  let behind ← if ← supports .lookbehind then eats '<' else pure false
  let negated ← (do eat '='; return false) <|> (do eat '!'; return true)
  return (if behind then .behind else .ahead, negated)

def lookaround (inside : Nested) : Parser Term := do
  let mark ← here
  let (direction, negated) ← lookOpening
  let alternatives ← inside mark
  closeGroup
  return .look (← spanFrom mark) direction negated alternatives

def assertion (inside : Nested) : Parser Term :=
  edgeAssertion <|> wordBoundary <|> lookaround inside

/-! ## Groups

Capturing groups, with or without a name, and groups that only gather, with or without modifiers. -/

def isModifierLetter (c : CodePoint) : Bool := c.isOneOf ['i', 'm', 's']

def firstRepeat {α : Type} [BEq α] : List α → Nat → List α → Option (α × Nat)
  | _, _, [] => none
  | seen, position, a :: rest =>
    if seen.contains a then some (a, position) else firstRepeat (a :: seen) (position + 1) rest

/-- A run of modifier letters, each at most once; it may be empty. -/
def modifierFlags : Parser ModifierFlags := do
  let mark ← here
  let letters ← many (satisfy isModifierLetter)
  match firstRepeat [] 0 letters with
  | some (letter, position) => failAt (.duplicatedFlag letter) (mark.index + position)
  | none =>
    return {
      span := ← spanFrom mark
      ignoreCase := letters.contains 'i'
      multiline := letters.contains 'm'
      dotAll := letters.contains 's' }

/-- Whether no letter was read. -/
def noLetters (f : ModifierFlags) : Bool := f.span.start == f.span.stop

def clash? (add remove : ModifierFlags) : Option CodePoint :=
  if add.ignoreCase && remove.ignoreCase then some 'i'
  else if add.multiline && remove.multiline then some 'm'
  else if add.dotAll && remove.dotAll then some 's'
  else none

def removedFlags (add : ModifierFlags) : Parser ModifierFlags := do
  let remove ← modifierFlags
  -- without the colon these are no modifiers, and the group is refused for that
  if noLetters remove && noLetters add && (← sees 0 ':') then fail .emptyModifiers
  else
    match clash? add remove with
    | some letter => fail (.duplicatedFlag letter)
    | none => return remove

def modifiers : Parser Modifiers := do
  let mark ← here
  let add ← modifierFlags
  let hyphen ← eats '-'
  if noLetters add && !hyphen then miss
  else
    let remove ← if hyphen then some <$> removedFlags add else pure none
    return ⟨← spanFrom mark, add, remove⟩

def plainGroup (inside : Nested) (mark : Cursor) (modifiers : Option Modifiers) : Parser Term := do
  let alternatives ← inside mark
  closeGroup
  return .group (← spanFrom mark) modifiers alternatives

def capturingGroup (inside : Nested) (mark : Cursor) (name : Option GroupName) : Parser Term := do
  let index ← openCapture name
  let alternatives ← inside mark
  closeGroup
  return .capture (← spanFrom mark) index name alternatives

/-- The rest of a capturing group that has a name, from the name on. -/
def namedGroup (inside : Nested) (mark : Cursor) : Parser Term := do
  let name ← groupName
  if ← conflicts name then fail .duplicateGroupName
  else capturingGroup inside mark (some name)

/-- The rest of a group that may have modifiers, from them on. -/
def modifiedGroup (inside : Nested) (mark : Cursor) : Parser Term := do
  let opening ← attempt do
    require (← supports .modifiers)
    let m ← modifiers
    eat ':'
    return m
  match opening with
  | some m => plainGroup inside mark (some m)
  -- neither a group without modifiers nor one with them
  | none => failAt .invalidGroup (mark.index + 1)

def group (inside : Nested) : Parser Term := do
  let mark ← here
  eat '('
  if ← eats '?' then
    if ← eats ':' then plainGroup inside mark none
    -- lookbehinds have been tried before, so an angle bracket begins a name
    else if (← supports .namedGroups) && (← sees 0 '<') then namedGroup inside mark
    else modifiedGroup inside mark
  else capturingGroup inside mark none

/-! ## Atoms

The terms that a quantifier may follow. By the web grammar almost any character can stand for
itself, so an atom of that grammar has a parser of its own. -/

/-- A reference by number. A number above that of the last group is a fault, or, in the web grammar,
no reference. -/
def numberedReference (mark : Cursor) : Parser Term := do
  require !(← sees 0 '0')
  let n ← number 10
  let g ← grammar
  if n ≤ g.captures then return .reference (← spanFrom mark) (.number n)
  else if g.exact then fail .invalidEscape
  -- the digits are read again as an octal escape
  else miss

/-- A reference by name. The groups it means are filled in when the pattern has been read. -/
def namedReference (mark : Cursor) : Parser Term := do
  require (← grammar).namedReferences
  eat 'k'
  let name ← groupName <|> fail .invalidNamedReference
  return .reference (← spanFrom mark) (.name name [])

/-- What may follow a backslash outside classes; the backslash is at the given place. -/
def atomEscape (mark : Cursor) : Parser Term :=
  numberedReference mark
    <|> Term.set <$> setEscape mark
    <|> (Term.set ∘ CharSet.character) <$> characterEscape mark
    <|> namedReference mark
    <|> do
      require (← grammar).exact
      fail .invalidEscape

def escapedAtom : Parser Term := do
  let mark ← here
  eat '\\'
  atomEscape mark

def anyCharacter : Parser Term := do
  let mark ← here
  eat '.'
  return .any (← spanFrom mark)

def plainCharacter (test : CodePoint → Bool) : Parser Term := do
  let mark ← here
  Term.set <$> characterSetFrom mark (← satisfy test)

/-- In the web grammar, a backslash before a `c` that begins no control letter stands for itself. -/
def lonelyBackslash : Parser Term := do
  let mark ← here
  eat '\\'
  require (← sees 0 'c')
  Term.set <$> characterSetFrom mark '\\'

/-- Bounds where a term should stand repeat nothing. -/
def strayBounds : Parser Term := do
  let _ ← bracedBounds true
  fail .nothingToRepeat

def atom (cls : Parser CharSet) (inside : Nested) : Parser Term :=
  anyCharacter
    <|> escapedAtom
    <|> Term.set <$> cls
    <|> group inside
    <|> plainCharacter (!·.isSyntaxCharacter)

def webAtom (cls : Parser CharSet) (inside : Nested) : Parser Term :=
  anyCharacter
    <|> escapedAtom
    <|> lonelyBackslash
    <|> Term.set <$> cls
    <|> group inside
    -- before characters, since a brace that begins no bounds is one of them
    <|> strayBounds
    <|> plainCharacter (!·.isReservedInWebGrammar)

/-- A term: an assertion, or an atom with an optional quantifier. In the web grammar a lookahead may
be quantified too. -/
def term (cls : Parser CharSet) (inside : Nested) : Parser Term := do
  let mark ← here
  let g ← grammar
  match ← attempt (assertion inside) with
  | some t => if !g.exact && t.isLookahead then quantified mark t else return t
  | none => quantified mark (← if g.exact then atom cls inside else webAtom cls inside)

/-! ## Disjunctions

Alternatives with bars between them. How deeply groups and classes may still nest is an argument, on
which the recursion runs: a construct that would go below zero is a fault at its start. -/

def sequence (cls : Parser CharSet) (inside : Nested) : Parser Sequence := do
  let mark ← here
  let elements ← many (term cls inside)
  return .mk (← spanFrom mark) elements

def followingSequence (cls : Parser CharSet) (inside : Nested) : Parser Sequence := do
  eat '|'
  modifyScope GroupScope.followingAlternative
  sequence cls inside

/-- A quantifier or a brace that follows no term is a fault. -/
def noStrayQuantifier : Parser Unit :=
  (do let _ ← quantifier true
      fail .nothingToRepeat)
    <|> (do eat '{'
            fail .loneQuantifierBrackets)
    <|> pure ()

/-- Alternatives with bars between them, given the parsers of classes and of
what is inside groups. -/
def alternatives (cls : Parser CharSet) (inside : Nested) : Parser (List Sequence) := do
  modifyScope GroupScope.enterDisjunction
  let first ← sequence cls inside
  let rest ← many (followingSequence cls inside)
  noStrayQuantifier
  modifyScope GroupScope.leaveDisjunction
  return first :: rest

/-- A disjunction, with the given number of levels left for groups and classes inside it. -/
def disjunction : Nat → Parser (List Sequence)
  | 0, g, s =>
    alternatives (charClass 0 false) (fun mark => failAt .nestedTooDeeply mark.index) g s
  | depth + 1, g, s =>
    alternatives (charClass (depth + 1) false) (fun _ => disjunction depth) g s

/-! ### Disjunctions never miss -/

theorem sequence_neverMisses (cls : Parser CharSet) (inside : Nested) :
    NeverMisses (sequence cls inside) :=
  neverMisses_here.bind fun mark => (neverMisses_many _).bind fun _ =>
    (neverMisses_spanFrom mark).bind fun _ => neverMisses_pure _

theorem noStrayQuantifier_neverMisses : NeverMisses noStrayQuantifier :=
  .orElse _ (.orElse _ (neverMisses_pure ()))

/-- Alternatives never miss: an alternative may be empty, and so may the list behind the first. -/
theorem alternatives_neverMisses (cls : Parser CharSet) (inside : Nested) :
    NeverMisses (alternatives cls inside) :=
  (neverMisses_modifyScope _).bind fun _ => (sequence_neverMisses cls inside).bind fun _ =>
    (neverMisses_many _).bind fun _ => noStrayQuantifier_neverMisses.bind fun _ =>
      (neverMisses_modifyScope _).bind fun _ => neverMisses_pure _

/-- A disjunction may be empty, so there is always one to read, or a fault. -/
theorem disjunction_neverMisses (depth : Nat) : NeverMisses (disjunction depth) := by
  cases depth with
  | zero => exact alternatives_neverMisses _ _
  | succ depth => exact alternatives_neverMisses _ _

end EcmaPattern.Parser
