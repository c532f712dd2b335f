import EcmaPattern.Cursor
import EcmaPattern.Diagnostic
import EcmaPattern.Tree.Term

/-!
# Parsers

A parser reads from a state under a grammar and does one of three things. It is done, with a value
and a new state; it misses, which changes nothing and lets another parser try; or it finds a fault,
which ends the parse. Because a miss carries no state, backtracking is always clean.
-/

namespace EcmaPattern

/-- The variant of the grammar in force. -/
structure Grammar where
  edition : Edition
  /-- Whether the extensions of the web grammar are refused. -/
  strict : Bool
  /-- Whether patterns are read by code points. -/
  unicode : Bool
  /-- Whether classes are read by the set grammar. -/
  sets : Bool
  /-- Whether `\k` always begins a named reference. -/
  namedReferences : Bool
  /-- How many capturing groups the pattern has. -/
  captures : Nat

/-- Whether the extensions of the web grammar are off. -/
def Grammar.exact (g : Grammar) : Bool := g.strict || g.unicode

/-- Where a parse has got to. -/
structure State where
  cursor : Cursor
  scope : GroupScope
  /-- How many capturing groups have been opened. -/
  opened : Nat

/-- What a parser does. -/
inductive Outcome (α : Type) where
  | done (value : α) (state : State)
  | miss
  | fault (f : Fault)

/-- A parser of values. -/
def Parser (α : Type) : Type := Grammar → State → Outcome α

namespace Parser

instance : Monad Parser where
  pure a := fun _ s => .done a s
  bind p f := fun g s =>
    match p g s with
    | .done a t => f a g t
    | .miss => .miss
    | .fault e => .fault e

/-- Changes nothing and lets another parser try. -/
def miss {α : Type} : Parser α := fun _ _ => .miss

def orElse {α : Type} (p : Parser α) (q : Unit → Parser α) : Parser α := fun g s =>
  match p g s with
  | .miss => q () g s
  | outcome => outcome

instance {α : Type} : OrElse (Parser α) := ⟨orElse⟩

def failAt {α : Type} (cause : Cause) (index : Nat) : Parser α := fun _ _ => .fault ⟨cause, index⟩

def fail {α : Type} (cause : Cause) : Parser α := fun _ s => .fault ⟨cause, s.cursor.index⟩

def grammar : Parser Grammar := fun g s => .done g s

def supports (f : Feature) : Parser Bool := fun g s => .done (g.edition.supports f) s

def here : Parser Cursor := fun _ s => .done s.cursor s

def require (condition : Bool) : Parser Unit := if condition then pure () else miss

def attempt {α : Type} (p : Parser α) : Parser (Option α) := fun g s =>
  match p g s with
  | .done a t => .done (some a) t
  | .miss => .done none s
  | .fault e => .fault e

/-! ### Laws -/

/-- A value is given where the parse stands. -/
theorem pure_apply {α : Type} (a : α) (g : Grammar) (s : State) :
    (pure a : Parser α) g s = .done a s := rfl

/-- One parser is run after the other; a miss or a fault of the first is that of both. -/
theorem bind_apply {α β : Type} (p : Parser α) (f : α → Parser β) (g : Grammar) (s : State) :
    (p >>= f) g s =
      match p g s with
      | .done a t => f a g t
      | .miss => .miss
      | .fault e => .fault e := rfl

/-- The second parser is run from where the first one started, and only if that missed. -/
theorem orElse_apply {α : Type} (p q : Parser α) (g : Grammar) (s : State) :
    (p <|> q) g s =
      match p g s with
      | .miss => q g s
      | outcome => outcome := rfl

instance : LawfulMonad Parser :=
  LawfulMonad.mk' Parser
    (fun p => by
      funext g s
      show (p >>= pure ∘ id) g s = p g s
      rw [bind_apply]
      cases p g s <;> rfl)
    (fun _ _ => rfl)
    (fun p f h => by
      funext g s
      simp only [bind_apply]
      cases p g s <;> rfl)

/-- The parser is done or finds a fault, whatever there is to read. -/
def NeverMisses {α : Type} (p : Parser α) : Prop := ∀ g s, p g s ≠ .miss

theorem neverMisses_pure {α : Type} (a : α) : NeverMisses (pure a : Parser α) := by
  intro g s h
  cases h

theorem neverMisses_here : NeverMisses here := by
  intro g s h
  cases h

theorem NeverMisses.bind {α β : Type} {p : Parser α} {f : α → Parser β} (hp : NeverMisses p)
    (hf : ∀ a, NeverMisses (f a)) : NeverMisses (p >>= f) := by
  intro g s h
  rw [bind_apply] at h
  split at h
  · exact hf _ _ _ h
  · exact hp g s ‹_›
  · cases h

/-- It is enough that the last alternative never misses. -/
theorem NeverMisses.orElse {α : Type} (p : Parser α) {q : Parser α} (hq : NeverMisses q) :
    NeverMisses (p <|> q) := by
  intro g s h
  rw [orElse_apply] at h
  split at h
  · exact hq g s h
  · exact ‹∀ _, _› h

/-! ### Characters -/

def sees (k : Nat) (c : CodePoint) : Parser Bool := fun _ s =>
  .done (s.cursor.peek k == some c) s

def atEnd : Parser Bool := fun _ s => .done s.cursor.current.isNone s

def satisfy (test : CodePoint → Bool) : Parser CodePoint := fun _ s =>
  match s.cursor.current with
  | some c => if test c then .done c { s with cursor := s.cursor.advance } else .miss
  | none => .miss

/-- Reads a character that has a value under the given function, and gives that value. -/
def select {α : Type} (value? : CodePoint → Option α) : Parser α := fun _ s =>
  match s.cursor.current.bind value? with
  | some a => .done a { s with cursor := s.cursor.advance }
  | none => .miss

def eat (c : CodePoint) : Parser Unit := do
  let _ ← satisfy (· == c)

def eatAll (cs : List Char) : Parser Unit := fun _ s =>
  match s.cursor.eat? (cs.map CodePoint.ofChar) with
  | some c => .done () { s with cursor := c }
  | none => .miss

/-- Reads the given character if it is there, and tells whether it was. -/
def eats (c : CodePoint) : Parser Bool := do
  return (← attempt (eat c)).isSome

/-- The span from an earlier place to the current one. -/
def spanFrom (mark : Cursor) : Parser Span := fun _ s =>
  .done ⟨mark.index, s.cursor.index, mark.textTo s.cursor.index⟩ s

theorem neverMisses_spanFrom (mark : Cursor) : NeverMisses (spanFrom mark) := by
  intro g s h
  cases h

/-! ### Repetition -/

/-- Repeats a parser until it misses, at most the given number of times. -/
def upTo {α : Type} (p : Parser α) : Nat → Parser (List α)
  | 0 => pure []
  | count + 1 => fun g s =>
    match p g s with
    | .done a t =>
      match upTo p count g t with
      | .done as u => .done (a :: as) u
      | .miss => .miss
      | .fault e => .fault e
    | .miss => .done [] s
    | .fault e => .fault e

/-- Repeats a parser until it misses. Since every repetition of a parser that reads something leaves
less to read, there are no more of them than units ahead. -/
def many {α : Type} (p : Parser α) : Parser (List α) := fun g s =>
  upTo p (s.cursor.remaining + 1) g s

/-- A repetition that may be empty never misses. -/
theorem neverMisses_upTo {α : Type} (p : Parser α) (count : Nat) : NeverMisses (upTo p count) := by
  induction count with
  | zero => exact neverMisses_pure []
  | succ count ih =>
    intro g s h
    unfold upTo at h
    split at h
    · split at h
      · cases h
      · exact ih _ _ ‹_›
      · cases h
    · cases h
    · cases h

/-- A repetition that may be empty never misses, however long it may be. -/
theorem neverMisses_many {α : Type} (p : Parser α) : NeverMisses (many p) :=
  fun g s => neverMisses_upTo p _ g s

def many1 {α : Type} (p : Parser α) : Parser (List α) := do
  let first ← p
  let rest ← many p
  return first :: rest

def times {α : Type} (p : Parser α) : Nat → Parser (List α)
  | 0 => pure []
  | count + 1 => do
    let first ← p
    let rest ← times p count
    return first :: rest

/-! ### Groups -/

def modifyScope (f : GroupScope → GroupScope) : Parser Unit := fun _ s =>
  .done () { s with scope := f s.scope }

theorem neverMisses_modifyScope (f : GroupScope → GroupScope) : NeverMisses (modifyScope f) := by
  intro g s h
  cases h

def conflicts (name : GroupName) : Parser Bool := fun _ s => .done (s.scope.conflicts name) s

/-- Opens a capturing group, with a name if it has one, and gives its number. -/
def openCapture (name : Option GroupName) : Parser Nat := fun _ s =>
  let index := s.opened + 1
  let scope := match name with
    | some n => s.scope.declare n index
    | none => s.scope
  .done index { s with opened := index, scope }

end Parser

end EcmaPattern
