import EcmaPattern.Grammar.Term
import EcmaPattern.Options

/-!
# Patterns and literals

A whole pattern, read in one or two passes, and a literal, which is a pattern between slashes
followed by flags. `Parser.pattern` reads one pass, `Pattern.readUnder` makes the passes there are
to make, and `Literal.read` splits a literal before it reads its parts.

The recursion here is on the nesting limit and on the text, and the model has no call stack that it
could exhaust. A reader whose stack overflows inside the limit, and which reports that as nesting
that is too deep, is outside of the model: here that fault is the limit's alone.
-/

namespace EcmaPattern

/-! ## Patterns

A whole pattern. The number of capturing groups is counted first, since a reference may stand before
its group. Whether `\k` begins a named reference can depend on there being a named group at all, in
which case a first pass finds out and a second one reads the pattern. -/

/-- Whether a parenthesis opens a capturing group, judged by the characters after it. -/
def opensCapture : List CodePoint → Bool
  | a :: rest =>
    if a == .ofChar '?' then
      -- `(?<=` and `(?<!` look behind, and any other `(?<` names a group
      match rest with
      | b :: rest => b == .ofChar '<' && !rest.head?.any (·.isOneOf ['=', '!'])
      | [] => false
    else true
  | [] => true

/-- The number of capturing groups among characters; `inClass` and `escaped` tell what the
characters before them were. -/
def countCaptures (inClass escaped : Bool) : List CodePoint → Nat
  | [] => 0
  | c :: rest =>
    if escaped then countCaptures inClass false rest
    else if c == .ofChar '\\' then countCaptures inClass true rest
    -- classes are not told apart from classes within classes: the first bracket ends them all
    else if c == .ofChar '[' then countCaptures true false rest
    else if c == .ofChar ']' then countCaptures false false rest
    else if c == .ofChar '(' && !inClass && opensCapture rest then
      countCaptures inClass false rest + 1
    else countCaptures inClass false rest

namespace Parser

/-- What is left when the alternatives of a pattern have been read must be nothing. -/
def endOfPattern : Parser Unit := fun _ s =>
  match s.cursor.current with
  | none => .done () s
  | some c =>
    let cause : Cause :=
      if c == .ofChar ')' then .unmatchedParenthesis
      else if c == .ofChar '\\' then .trailingBackslash
      else if c.isOneOf [']', '}'] then .loneQuantifierBrackets
      else .unexpectedCharacter c
    .fault ⟨cause, s.cursor.index⟩

/-- The pattern with its named references resolved; each must have a group. -/
def resolved (p : Pattern) : Parser Pattern := fun _ s =>
  if p.referredNames.all s.scope.declares then .done (p.resolve s.scope.indexes) s
  else .fault ⟨.unknownNamedReference, s.cursor.index⟩

/-- A whole pattern, with the given number of levels for groups and classes. -/
def pattern (depth : Nat) : Parser Pattern := do
  let mark ← here
  let alternatives ← disjunction depth
  endOfPattern
  resolved ⟨← spanFrom mark, alternatives⟩

/-- A pattern is read or is at fault. -/
theorem pattern_neverMisses (depth : Nat) : NeverMisses (pattern depth) := by
  refine neverMisses_here.bind fun mark => (disjunction_neverMisses depth).bind fun _ =>
    NeverMisses.bind ?_ fun _ => (neverMisses_spanFrom mark).bind fun span => ?_
  · intro g s h
    unfold endOfPattern at h
    split at h <;> simp at h
  · intro g s h
    unfold resolved at h
    split at h <;> simp at h

end Parser

namespace Pattern

def duplicateRule (e : Edition) : DuplicateRule :=
  if e.supports .duplicateNamedGroups then .separated else .forbidden

def grammarFor (o : Options) (flags : FlagSet) (namedReferences : Bool) (c : Cursor) : Grammar where
  edition := o.edition
  strict := o.strict
  unicode := flags.unicodeMode
  sets := flags.unicodeSets
  namedReferences := namedReferences
  captures := countCaptures false false (c.ahead.characters c.paired)

/-- One pass over a pattern, under a rule for names that stand twice. Gives the pattern and the
names of its groups. The parser of patterns never misses, so what is said of a miss does not matter.
-/
def pass (rule : DuplicateRule) (o : Options) (flags : FlagSet) (namedReferences : Bool)
    (c : Cursor) : Except Fault (Pattern × GroupScope) :=
  match Parser.pattern o.maxDepth (grammarFor o flags namedReferences c) ⟨c, .empty rule, 0⟩ with
  | .done p s => .ok (p, s.scope)
  | .miss => .error ⟨.emptyLiteral, c.index⟩
  | .fault f => .error f

/-- Whether `\k` begins a named reference whatever groups there are. -/
def alwaysNamedReferences (o : Options) (flags : FlagSet) : Bool :=
  (flags.unicode && o.edition.supports .namedGroups) || flags.unicodeSets ||
    (o.strict && o.edition.supports .strictNamedReferences)

/-- Reads what lies ahead of a cursor as a pattern, under a rule for names that stand twice. If `\k`
depends on there being a named group, and there is one, the pattern is read again. -/
def readUnder (rule : DuplicateRule) (o : Options) (flags : FlagSet) (c : Cursor) :
    Except Fault Pattern := do
  let always := alwaysNamedReferences o flags
  let (p, scope) ← pass rule o flags always c
  if !always && o.edition.supports .namedGroups && !scope.isEmpty then
    -- the tree of the first pass, and what it took for characters, is given up
    let (q, _) ← pass rule o flags true c
    return q
  else
    return p

def read (o : Options) (flags : FlagSet) (slice : Slice) : Except Fault Pattern :=
  if flags.unicode && flags.unicodeSets then .error ⟨.conflictingFlags, slice.start⟩
  else readUnder (duplicateRule o.edition) o flags (slice.cursor flags.unicodeMode)

end Pattern

/-! ## Literals

A literal is a pattern between slashes, followed by flags. Where the pattern ends is found first, by
a scan that knows only escapes and classes; then the flags are read, and then the pattern under
them. -/

def Flags.read (e : Edition) (slice : Slice) : Except Fault Flags := do
  let set ← (FlagSet.read e (slice.content.characters true)).mapError (·.shift slice.start)
  return ⟨⟨slice.start, slice.stop, slice.content⟩, set⟩

namespace Literal

/-- Scans units for the slash that ends a pattern, and gives how many lie before it. A slash in a
class or after a backslash ends nothing, and a pattern must end on the line on which it began. -/
def bodyLength (inClass escaped : Bool) : Text → Nat → Except (Cause × Nat) Nat
  | [], position => .error (if inClass then .unterminatedClass else .unterminatedLiteral, position)
  | u :: rest, position =>
    let c := CodePoint.ofUnit u
    if c.isLineTerminator then
      .error (if inClass then .unterminatedClass else .unterminatedLiteral, position)
    else if escaped then bodyLength inClass false rest (position + 1)
    else if c == .ofChar '\\' then bodyLength inClass true rest (position + 1)
    else if c == .ofChar '[' then bodyLength true false rest (position + 1)
    else if c == .ofChar ']' then bodyLength false false rest (position + 1)
    else if c == .ofChar '/' && !inClass then .ok position
    else bodyLength inClass false rest (position + 1)

/-- The length of the pattern in a literal. A literal begins with a slash, and a second slash or a
star right after it would make it a comment. -/
def patternLength (slice : Slice) : Except Fault Nat :=
  match slice.content with
  | [] => .error ⟨.emptyLiteral, slice.start⟩
  | u :: body =>
    if CodePoint.ofUnit u == .ofChar '/' then
      -- a comment is reported at its second character
      match body.head?.filter fun v => (CodePoint.ofUnit v).isOneOf ['/', '*'] with
      | some v => .error ⟨.unexpectedCharacter (.ofUnit v), slice.start + 1⟩
      | none => (bodyLength false false body 0).mapError fun (cause, position) =>
          ⟨cause, slice.start + 1 + position⟩
    else .error ⟨.unexpectedCharacter (.ofUnit u), slice.start⟩

/-- Reads a slice as a literal whose pattern has the given length: first the flags, then the pattern
under them. -/
def readParts (o : Options) (slice : Slice) (length : Nat) : Except Fault Literal := do
  let flagsStart := slice.start + length + 2
  let flags ← Flags.read o.edition { slice with start := flagsStart }
  let pattern ← Pattern.read o flags.set
    { slice with start := slice.start + 1, stop := flagsStart - 1 }
  return ⟨⟨slice.start, slice.stop, slice.content⟩, pattern, flags⟩

def read (o : Options) (slice : Slice) : Except Fault Literal := do
  readParts o slice (← patternLength slice)

def join (source flags : Text) : Text := .ofString "/" ++ source ++ .ofString "/" ++ flags

end Literal

end EcmaPattern
