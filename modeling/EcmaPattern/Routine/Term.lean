import EcmaPattern.Grammar.Term
import EcmaPattern.Routine.CharClass

/-!
# Terms

The routines for quantifiers, assertions, groups, atoms and terms, and for the alternatives that
terms make up.
-/

namespace EcmaPattern.Routine

open EcmaPattern.Parser (Bounds outOfOrder isModifierLetter noLetters clash?)

/-! ### Quantifiers -/

def incompleteBounds {α : Type} (lenient : Bool) : Routine α := do
  if lenient || !(← grammar).exact then miss else fail .incompleteQuantifier

def bracedBounds (lenient : Bool) : Routine Bounds := do
  let start ← index
  eat '{'
  (do let least ← number 10 <|> incompleteBounds lenient
      let greatest ← if ← eats ',' then attempt (number 10) else pure (some least)
      eat '}' <|> incompleteBounds lenient
      if !lenient && outOfOrder (least, greatest) then fail .quantifierOutOfOrder
      else return (least, greatest))
    <|> backTo start

def quantifierBounds (lenient : Bool) : Routine Bounds :=
  (do eat '*'; return (0, none))
    <|> (do eat '+'; return (1, none))
    <|> (do eat '?'; return (0, some 1))
    <|> bracedBounds lenient

def quantifier (lenient : Bool) : Routine Repetition := do
  let (least, greatest) ← quantifierBounds lenient
  let lazy ← eats '?'
  return ⟨least, greatest, !lazy⟩

def quantified (term : Term) : Routine Term := do
  match ← attempt (quantifier false) with
  | some repetition => return .quantified (← spanFrom term.span.start) repetition term
  | none => return term

/-! ### Assertions -/

/-- A routine for the alternatives inside a construct that began at the given offset. -/
abbrev Nested := Nat → Routine (List Sequence)

def closeGroup : Routine Unit := eat ')' <|> fail .unterminatedGroup

def edgeAssertion : Routine Term := do
  let start ← index
  let edge ← (do eat '^'; return Edge.start) <|> (do eat '$'; return Edge.stop)
  return .edge (← spanFrom start) edge

def wordBoundary : Routine Term := do
  let start ← index
  let negated ← (do eatAll ['\\', 'B']; return true) <|> (do eatAll ['\\', 'b']; return false)
  return .wordBoundary (← spanFrom start) negated

def lookOpening : Routine (Direction × Bool) := do
  let start ← index
  eatAll ['(', '?']
  (do let behind ← if ← supports .lookbehind then eats '<' else pure false
      let negated ← (do eat '='; return false) <|> (do eat '!'; return true)
      return (if behind then .behind else .ahead, negated))
    <|> backTo start

def lookaround (inside : Nested) : Routine Term := do
  let start ← index
  let (direction, negated) ← lookOpening
  let alternatives ← inside start
  closeGroup
  setQuantifiable (direction == .ahead && !(← grammar).strict)
  return .look (← spanFrom start) direction negated alternatives

def assertion (inside : Nested) : Routine Term := do
  setQuantifiable false
  edgeAssertion <|> wordBoundary <|> lookaround inside

/-! ### Groups -/

/-- The letters of modifiers, each at most once, with fuel for so many of them. -/
def modifierLettersFor : Nat → List CodePoint → Routine (List CodePoint)
  | 0, _ => exhausted
  | fuel + 1, letters => do
    match (← peek 0).filter isModifierLetter with
    | none => return letters
    | some c =>
      if letters.contains c then fail (.duplicatedFlag c)
      else
        advance
        modifierLettersFor fuel (letters ++ [c])

def modifierFlags : Routine ModifierFlags := do
  let start ← index
  let letters ← modifierLettersFor (← settings).fuel []
  return {
    span := ← spanFrom start
    ignoreCase := letters.contains 'i'
    multiline := letters.contains 'm'
    dotAll := letters.contains 's' }

def removedFlags (add : ModifierFlags) : Routine ModifierFlags := do
  let remove ← modifierFlags
  if noLetters remove && noLetters add && (← sees 0 ':') then fail .emptyModifiers
  else
    match clash? add remove with
    | some letter => fail (.duplicatedFlag letter)
    | none => return remove

def modifiers : Routine Modifiers := do
  let start ← index
  let add ← modifierFlags
  let hyphen ← eats '-'
  if noLetters add && !hyphen then miss
  else
    let remove ← if hyphen then some <$> removedFlags add else pure none
    return ⟨← spanFrom start, add, remove⟩

def plainGroup (inside : Nested) (start : Nat) (modifiers : Option Modifiers) : Routine Term := do
  let alternatives ← inside start
  closeGroup
  return .group (← spanFrom start) modifiers alternatives

def capturingGroup (inside : Nested) (start : Nat) (name : Option GroupName) : Routine Term := do
  let number ← openCapture name
  let alternatives ← inside start
  closeGroup
  return .capture (← spanFrom start) number name alternatives

def namedGroup (inside : Nested) (start : Nat) : Routine Term := do
  let name ← groupName
  if ← conflicts name then fail .duplicateGroupName
  else capturingGroup inside start (some name)

def modifiedGroup (inside : Nested) (start : Nat) : Routine Term := do
  let opening ← attempt do
    let m ← modifiers
    eat ':'
    return m
  match opening with
  | some m => plainGroup inside start (some m)
  | none => failAt .invalidGroup (start + 1)

def group (inside : Nested) : Routine Term := do
  let start ← index
  eat '('
  if !(← sees 0 '?') then capturingGroup inside start none
  else if ← sees 1 ':' then
    advance
    advance
    plainGroup inside start none
  else if (← sees 1 '<') && (← supports .namedGroups) then
    advance
    namedGroup inside start
  else if ← supports .modifiers then
    advance
    modifiedGroup inside start
  else failAt .invalidGroup (start + 1)

/-! ### Atoms -/

def decimalEscape : Routine Nat := do
  require ((← peek 0).any fun c => 0x31 ≤ c.val && c.val ≤ 0x39)
  number 10

def numberedReference (start : Nat) : Routine Term := do
  let digits ← index
  let n ← decimalEscape
  (do let g ← grammar
      if n ≤ g.captures then return .reference (← spanFrom start) (.number n)
      else if g.exact then fail .invalidEscape
      else miss)
    <|> backTo digits

def namedReference (start : Nat) : Routine Term := do
  require (← grammar).namedReferences
  eat 'k'
  let name ← groupName <|> fail .invalidNamedReference
  let span ← spanFrom start
  await name
  return .reference span (.name name [])

def atomEscape (start : Nat) : Routine Term :=
  numberedReference start
    <|> Term.set <$> setEscape start
    <|> (Term.set ∘ CharSet.character) <$> characterEscape start
    <|> namedReference start
    <|> do
      require (← grammar).exact
      fail .invalidEscape

def escapedAtom : Routine Term := do
  let start ← index
  eat '\\'
  atomEscape start <|> backTo start

def anyCharacter : Routine Term := do
  let start ← index
  eat '.'
  return .any (← spanFrom start)

def plainCharacter (test : CodePoint → Bool) : Routine Term := do
  let start ← index
  Term.set <$> characterSetFrom start (← satisfy test)

def lonelyBackslash : Routine Term := do
  require (← sees 0 '\\')
  require (← sees 1 'c')
  let start ← index
  advance
  Term.set <$> characterSetFrom start '\\'

def strayBounds : Routine Term := do
  let _ ← bracedBounds true
  fail .nothingToRepeat

def atom (cls : Routine CharSet) (inside : Nested) : Routine Term :=
  anyCharacter
    <|> escapedAtom
    <|> Term.set <$> cls
    <|> group inside
    <|> plainCharacter (!·.isSyntaxCharacter)

def webAtom (cls : Routine CharSet) (inside : Nested) : Routine Term :=
  anyCharacter
    <|> escapedAtom
    <|> lonelyBackslash
    <|> Term.set <$> cls
    <|> group inside
    <|> strayBounds
    <|> plainCharacter (!·.isReservedInWebGrammar)

def term (cls : Routine CharSet) (inside : Nested) : Routine Term := do
  if (← grammar).exact then
    match ← attempt (assertion inside) with
    | some t => return t
    | none => quantified (← atom cls inside)
  else
    match ← attempt (assertion inside) with
    | some t => if ← isQuantifiable then quantified t else return t
    | none => quantified (← webAtom cls inside)

/-! ### Alternatives -/

def sequence (cls : Routine CharSet) (inside : Nested) (alternative : Nat) : Routine Sequence := do
  let start ← index
  modifyScope (·.enterAlternative alternative)
  let elements ← collect (unlessAtEnd (term cls inside))
  return .mk (← spanFrom start) elements

/-- The alternatives from a position on, with fuel for so many of them. -/
def followingFor (cls : Routine CharSet) (inside : Nested) : Nat → Nat → Routine (List Sequence)
  | 0, _ => exhausted
  | fuel + 1, alternative => do
    if ← eats '|' then
      let q ← sequence cls inside alternative
      return q :: (← followingFor cls inside fuel (alternative + 1))
    else return []

def noStrayQuantifier : Routine Unit := do
  match ← attempt (quantifier true) with
  | some _ => fail .nothingToRepeat
  | none => if ← eats '{' then fail .loneQuantifierBrackets else return ()

/-- Alternatives with bars between them, given the routines for classes and for what is inside
groups. -/
def alternatives (cls : Routine CharSet) (inside : Nested) : Routine (List Sequence) := do
  modifyScope GroupScope.enterDisjunction
  let first ← sequence cls inside 0
  let rest ← followingFor cls inside (← settings).fuel 1
  noStrayQuantifier
  modifyScope GroupScope.leaveDisjunction
  return first :: rest

/-- What stands one level further down. -/
def nested {α : Type} (r : Routine α) (start : Nat) : Routine α := do
  enterNesting start
  let a ← r
  leaveNesting
  return a

/-- A disjunction, with fuel for so many levels of groups and classes. -/
def disjunction : Nat → Routine (List Sequence)
  | 0 => exhausted
  | fuel + 1 => alternatives (charClass (fuel + 1) false) (nested (disjunction fuel))

end EcmaPattern.Routine
