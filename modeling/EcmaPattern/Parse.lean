import EcmaPattern.Grammar.Pattern
import EcmaPattern.Tree.Record

/-!
# Parsing

The requests that can be made, and their answers. An answer depends on the options and the request
alone. A session answers one request after another in the same registers, and each call finds in
them what the calls before it have left.
-/

namespace EcmaPattern

/-- Flags for a pattern, as a string or as a set. The characters of a string are taken one by one,
and a lead surrogate makes no pair with a trail surrogate after it. -/
inductive FlagChoice where
  | text (letters : List CodePoint)
  | set (s : FlagSet)

/-- The text that a diagnostic about a literal quotes: the literal, unless it is empty. -/
def literalSource (slice : Slice) : Option Text :=
  if slice.content.isEmpty then none else some slice.content

/-- The text that a diagnostic about a pattern quotes: the pattern between slashes, with the flag
that says how it is read. -/
def patternSource (slice : Slice) (flags : FlagSet) : Text :=
  let mode :=
    if flags.unicode && flags.unicodeSets then ""
    else if flags.unicodeSets then "v"
    else if flags.unicode then "u"
    else ""
  .ofString "/" ++ slice.content ++ .ofString "/" ++ .ofString mode

/-- Reads flags that stand at an offset of a source text. -/
def readFlags (e : Edition) (offset : Int) (source : Option Text) (letters : List CodePoint) :
    Except Diagnostic FlagSet :=
  (FlagSet.read e letters).mapError fun f => (Diagnostic.ofFault source f).shift offset

def FlagChoice.resolve (e : Edition) : FlagChoice → Except Failure FlagSet
  | .text letters => (readFlags e 0 none letters).mapError .diagnostic
  | .set s => .ok s

def parseLiteral (o : Options) (slice : Slice) : Except Failure Literal :=
  (Literal.read o slice).mapError (.ofFault (literalSource slice))

/-- Parses a pattern and flags as the literal that they make up. The pattern may hold slashes and
line ends that a literal may not. -/
def parseParts (o : Options) (source flags : Text) : Except Failure Literal :=
  let slice := Slice.whole (Literal.join source flags)
  (Literal.readParts o slice source.length).mapError (.ofFault (literalSource slice))

def parsePattern (o : Options) (flags : FlagChoice) (slice : Slice) :
    Except Failure Pattern := do
  let set ← flags.resolve o.edition
  (Pattern.read o set slice).mapError (.ofFault (some (patternSource slice set)))

def parseFlags (o : Options) (slice : Slice) : Except Failure Flags :=
  (Flags.read o.edition slice).mapError (.ofFault none)

/-- Something to parse. -/
inductive Request where
  | literal (slice : Slice)
  | parts (source flags : Text)
  | pattern (flags : FlagChoice) (slice : Slice)
  | flags (slice : Slice)

def Request.answer (o : Options) : Request → Except Failure Node
  | .literal slice => .literal <$> parseLiteral o slice
  | .parts source flagText => .literal <$> parseParts o source flagText
  | .pattern choice slice => .pattern <$> parsePattern o choice slice
  | .flags slice => .flags <$> parseFlags o slice

/-! ## Registers -/

/-- What kind of text a call reads. -/
inductive SourceKind where
  | literal
  | pattern
  | flags
  deriving DecidableEq

/-- What a parser holds during a call, and from one call to the next. -/
structure Registers where
  kind : SourceKind
  /-- Where the text starts that a diagnostic quotes. -/
  start : Nat
  /-- Where that text stops. -/
  stop : Nat
  reader : Reader
  /-- Whether patterns are read by code points. -/
  unicode : Bool
  /-- Whether classes are read by the set grammar. -/
  sets : Bool
  /-- Whether `\k` always begins a named reference. -/
  namedReferences : Bool
  /-- How many capturing groups were counted ahead of the pass. -/
  captures : Nat
  /-- How many capturing groups have been opened. -/
  opened : Nat
  /-- How many groups and classes are open. -/
  depth : Nat
  /-- The names referred to so far, which must all have a group in the end. -/
  pending : List GroupName
  scope : GroupScope

namespace Registers

def fresh (e : Edition) : Registers where
  kind := .literal
  start := 0
  stop := 0
  reader := .empty
  unicode := false
  sets := false
  namedReferences := false
  captures := 0
  opened := 0
  depth := 0
  pending := []
  scope := .empty (Pattern.duplicateRule e)

/-- All but the text and what is said of it as in a new parser. -/
def reset (e : Edition) (r : Registers) : Registers :=
  { fresh e with kind := r.kind, start := r.start, stop := r.stop, reader := r.reader }

def begin (e : Edition) (kind : SourceKind) (slice : Slice) (r : Registers) : Registers :=
  { reset e { r with kind, start := slice.start, stop := slice.stop } with
    reader := .ofSlice slice false }

def part (r : Registers) (start stop : Nat) : Slice := ⟨r.reader.slice.text, start, stop⟩

/-- The flag that says how patterns are read, for a diagnostic. -/
def mode (r : Registers) : String :=
  if r.unicode && !r.sets then "u" else if r.sets then "v" else ""

def source (r : Registers) : Option Text :=
  let slice := r.part r.start r.stop
  match r.kind with
  | .literal => literalSource slice
  | .pattern =>
    some (.ofString "/" ++ slice.content ++ .ofString "/" ++ .ofString r.mode)
  | .flags => none

def beginPattern (o : Options) (flags : FlagSet) (start stop : Nat) (r : Registers) : Registers :=
  { r with
    unicode := flags.unicodeMode
    sets := flags.unicodeSets
    namedReferences := Pattern.alwaysNamedReferences o flags
    reader := .ofSlice (r.part start stop) flags.unicodeMode }

/-- At the start of a pass over what lies ahead. -/
def beginPass (r : Registers) : Registers :=
  { r with
    captures := countCaptures false false (r.reader.cursor.ahead.characters r.reader.cursor.paired)
    scope := r.scope.clear
    opened := 0
    depth := 0
    pending := [] }

/-- At an offset of the text once more, for a pass that reads `\k` as a named reference. -/
def beginAgain (start : Nat) (r : Registers) : Registers :=
  { r with namedReferences := true, reader := r.reader.rewind start }

def grammar (o : Options) (r : Registers) : Grammar where
  edition := o.edition
  strict := o.strict
  unicode := r.unicode
  sets := r.sets
  namedReferences := r.namedReferences
  captures := r.captures

/-- Where the registers say that the parse has got to. -/
def state (r : Registers) : State := ⟨r.reader.cursor, r.scope, r.opened⟩

def moveTo (s : State) (r : Registers) : Registers :=
  { r with reader := { r.reader with cursor := s.cursor }, scope := s.scope, opened := s.opened }

def await (names : List GroupName) (r : Registers) : Registers :=
  { r with pending := r.pending ++ names }

end Registers

/-! ## Sessions -/

/-- What is done in the registers of a parser: it has a result or is broken off, and changes the
registers either way. -/
abbrev Session := ExceptT Failure (StateM Registers)

namespace Session

section

variable (o : Options) (residue : Registers → Registers)

/-- Breaks a call off. A fault may strike in the middle of anything, so what it leaves in the
registers is not worked out but given, as their `residue`. -/
def raise {α : Type} (f : Fault) : Session α := do
  let r ← get
  set (residue r)
  throw (.ofFault r.source f)

def check {α : Type} : Except Fault α → Session α
  | .ok a => pure a
  | .error f => raise residue f

/-- Runs a parser from where the registers are. The parsers that are run never miss, so what is
said of a miss does not matter. -/
def parse {α : Type} (p : Parser α) : Session α := do
  let r ← get
  match p (r.grammar o) r.state with
  | .done a s =>
    modify (Registers.moveTo s)
    return a
  | .miss => raise residue ⟨.emptyLiteral, r.reader.cursor.index⟩
  | .fault f => raise residue f

def consumePattern : Session Pattern := do
  modify Registers.beginPass
  let mark := (← get).reader.cursor
  let alternatives ← parse o residue (Parser.disjunction (o.maxDepth - (← get).depth))
  modify (Registers.await (Term.referredNamesOfAll alternatives))
  parse o residue Parser.endOfPattern
  let r ← get
  if r.pending.all r.scope.declares then
    let span ← parse o residue (Parser.spanFrom mark)
    return (Pattern.mk span alternatives).resolve r.scope.indexes
  else
    raise residue ⟨.unknownNamedReference, r.reader.cursor.index⟩

def readPattern (start stop : Nat) (flags : FlagSet) : Session Pattern := do
  if flags.unicode && flags.unicodeSets then
    raise residue ⟨.conflictingFlags, start⟩
  else
    modify (Registers.beginPattern o flags start stop)
    let p ← consumePattern o residue
    let r ← get
    if !r.namedReferences && o.edition.supports .namedGroups && !r.scope.isEmpty then
      modify (Registers.beginAgain start)
      consumePattern o residue
    else
      return p

def readFlags (start stop : Nat) : Session Flags := do
  check residue (Flags.read o.edition ((← get).part start stop))

/-- Reads a part of the text as a literal whose flags start at the given offset. -/
def readLiteral (start stop flagsStart : Nat) : Session Literal := do
  let flags ← readFlags o residue flagsStart stop
  let pattern ← readPattern o residue (start + 1) (flagsStart - 1) flags.set
  return ⟨⟨start, stop, ((← get).part start stop).content⟩, pattern, flags⟩

end

end Session

def Request.call (o : Options) (residue : Registers → Registers) : Request → Session Node
  | .literal slice => do
    modify (Registers.begin o.edition .literal slice)
    let length ← Session.check residue (Literal.patternLength (← get).reader.slice)
    let flagsStart := slice.start + length + 2
    modify fun r => { r with reader := r.reader.rewind flagsStart }
    .literal <$> Session.readLiteral o residue slice.start slice.stop flagsStart
  | .parts source flagText => do
    let slice := Slice.whole (Literal.join source flagText)
    modify (Registers.begin o.edition .literal slice)
    .literal <$> Session.readLiteral o residue slice.start slice.stop (source.length + 2)
  | .pattern choice slice => do
    let flags ← choice.resolve o.edition
    modify (Registers.begin o.edition .pattern slice)
    .pattern <$> Session.readPattern o residue slice.start slice.stop flags
  | .flags slice => do
    modify (Registers.begin o.edition .flags slice)
    .flags <$> Session.readFlags o residue slice.start slice.stop

/-- The answers to several requests, one after the other: each finds the registers as the one before
it has left them. -/
def Session.answers (o : Options) (residue : Registers → Registers) :
    Registers → List Request → List (Except Failure Node)
  | _, [] => []
  | r, q :: rest =>
    let (answer, left) := (q.call o residue).run.run r
    answer :: answers o residue left rest

/-- The answers of a new parser to several requests. What a broken-off call leaves behind does not
matter; here the registers stay as they are. -/
def Request.answers (o : Options) (requests : List Request) : List (Except Failure Node) :=
  Session.answers o id (.fresh o.edition) requests

end EcmaPattern
