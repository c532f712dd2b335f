import EcmaPattern.Grammar.Pattern
import EcmaPattern.Routine.Term

/-!
# Patterns and literals

The routines for whole patterns and literals. Their loops run on the fuel that the settings give
them, and so does the recursion over groups and classes.
-/

namespace EcmaPattern.Routine

def under {α : Type} (g : Grammar) (r : Routine α) : Routine α := fun σ m =>
  r { σ with grammar := g } m

def check {α : Type} : Except Fault α → Routine α
  | .ok a => pure a
  | .error f => fun _ _ => .fault f

/-- No names and no groups, as before a pass. -/
def clear : Routine Unit := fun _ m =>
  .done () { m with scope := m.scope.clear, opened := 0, depth := 0, pending := [] }

/-- At the start of a slice. -/
def standOn (slice : Slice) (paired : Bool) : Routine Unit := fun _ m =>
  .done () { m with window := m.window.reset slice.text slice.start slice.stop paired }

/-! ### Patterns -/

/-- Whether the parenthesis ahead opens a capturing group. -/
def seesCapture : Routine Bool := do
  if ← sees 1 '?' then return (← sees 2 '<') && !(← sees 3 '=') && !(← sees 3 '!')
  else return true

/-- Adds the capturing groups ahead to a count, with fuel for so many characters. -/
def countCapturesFor : Nat → Bool → Bool → Nat → Routine Nat
  | 0, _, _, _ => exhausted
  | fuel + 1, inClass, escaped, count => do
    match ← peek 0 with
    | none => return count
    | some c =>
      let captures ← seesCapture
      advance
      if escaped then countCapturesFor fuel inClass false count
      else if c == '\\' then countCapturesFor fuel inClass true count
      else if c == '[' then countCapturesFor fuel true false count
      else if c == ']' then countCapturesFor fuel false false count
      else if c == '(' && !inClass && captures then countCapturesFor fuel inClass false (count + 1)
      else countCapturesFor fuel inClass false count

def countCaptures : Routine Nat := do
  let start ← index
  let count ← countCapturesFor (← settings).fuel false false 0
  rewind start
  return count

def endOfPattern : Routine Unit := do
  match ← peek 0 with
  | none => return ()
  | some c =>
    if c == ')' then fail .unmatchedParenthesis
    else if c == '\\' then fail .trailingBackslash
    else if c.isOneOf [']', '}'] then fail .loneQuantifierBrackets
    else fail (.unexpectedCharacter c)

def resolved (p : Pattern) : Routine Pattern := fun _ m =>
  if m.pending.all m.scope.declares then .done (p.resolve m.scope.indexes) m
  else .fault ⟨.unknownNamedReference, m.window.index⟩

def pattern : Routine Pattern := do
  let start ← index
  let alternatives ← disjunction (← settings).fuel
  endOfPattern
  resolved ⟨← spanFrom start, alternatives⟩

/-- One pass over the pattern ahead, under a grammar that does not yet know how many capturing
groups there are. -/
def pass (g : Grammar) : Routine Pattern := do
  let captures ← countCaptures
  clear
  under { g with captures } pattern

def isNameless : Routine Bool := fun _ m => .done m.scope.isEmpty m

/-- The grammar for a pattern whose capturing groups have not been counted. -/
def grammarBefore (o : Options) (flags : FlagSet) (namedReferences : Bool) : Grammar where
  edition := o.edition
  strict := o.strict
  unicode := flags.unicodeMode
  sets := flags.unicodeSets
  namedReferences := namedReferences
  captures := 0

/-- Reads a slice as a pattern. If `\k` depends on there being a named group, and there is one, the
pattern is read again. -/
def readPattern (o : Options) (flags : FlagSet) (slice : Slice) : Routine Pattern := do
  if flags.unicode && flags.unicodeSets then failAt .conflictingFlags slice.start
  else
    standOn slice flags.unicodeMode
    let always := Pattern.alwaysNamedReferences o flags
    let p ← pass (grammarBefore o flags always)
    if !always && o.edition.supports .namedGroups && !(← isNameless) then
      rewind slice.start
      pass (grammarBefore o flags true)
    else return p

/-! ### Literals -/

/-- Goes to the slash that ends the body of a literal, with fuel for so many characters. A star at
the start ends it as well. -/
def bodyFor (start : Nat) : Nat → Bool → Bool → Routine Unit
  | 0, _, _ => exhausted
  | fuel + 1, inClass, escaped => do
    match (← peek 0).filter (!·.isLineTerminator) with
    | none => fail (if inClass then .unterminatedClass else .unterminatedLiteral)
    | some c =>
      if escaped then
        advance
        bodyFor start fuel inClass false
      else if c == '\\' then
        advance
        bodyFor start fuel inClass true
      else if c == '[' then
        advance
        bodyFor start fuel true false
      else if c == ']' then
        advance
        bodyFor start fuel false false
      else if c == '/' && !inClass || c == '*' && (← index) == start then return ()
      else
        advance
        bodyFor start fuel inClass false

def body : Routine Unit := do
  let start ← index
  bodyFor start (← settings).fuel false false
  require ((← index) != start)

/-- What is wrong with a slice that does not begin with a slash and a body. -/
def literalFault {α : Type} (slice : Slice) : Routine α := do
  if slice.stop ≤ slice.start then fail .emptyLiteral
  else
    match ← peek 0 with
    | some c => fail (.unexpectedCharacter c)
    | none => miss

/-- Reads the flags and the pattern of a literal whose flags start at the given offset. -/
def finishLiteral (o : Options) (slice : Slice) (flagsStart : Nat) : Routine Literal := do
  let flags ← check (Flags.read o.edition { slice with start := flagsStart })
  let pattern ← readPattern o flags.set
    { slice with start := slice.start + 1, stop := flagsStart - 1 }
  return ⟨⟨slice.start, slice.stop, slice.content⟩, pattern, flags⟩

def readLiteral (o : Options) (slice : Slice) : Routine Literal := do
  standOn slice false
  let flagsStart ← (do eat '/'; body; eat '/'; index) <|> literalFault slice
  finishLiteral o slice flagsStart

def readParts (o : Options) (source flags : Text) : Routine Literal := do
  let slice := Slice.whole (Literal.join source flags)
  standOn slice false
  finishLiteral o slice (source.length + 2)

end EcmaPattern.Routine
