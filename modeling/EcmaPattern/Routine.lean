import EcmaPattern.Grammar.Escape
import EcmaPattern.Window

/-!
# Routines

Parsers as routines that work on one memory. A routine has a result or misses, and either way the
memory is left as it is at that moment, so a routine that has read something before it misses has to
go back itself, or leave that to whoever has called it. Loops and recursion run on fuel.
-/

namespace EcmaPattern

/-- What stays the same throughout a pass. -/
structure Settings where
  grammar : Grammar
  /-- How deeply groups and classes may nest. -/
  maxDepth : Nat
  /-- How often a loop may be gone round. -/
  fuel : Nat

/-- What a pass works on. -/
structure Memory where
  window : Window
  scope : GroupScope
  /-- How many capturing groups have been opened. -/
  opened : Nat
  /-- How many groups and classes are open. -/
  depth : Nat
  /-- The names referred to so far, which must all have a group in the end. -/
  pending : List GroupName
  /-- Whether a quantifier may follow the assertion that was read last. -/
  quantifiable : Bool

/-- What a routine comes to. -/
inductive Result (α : Type) where
  | done (value : α) (memory : Memory)
  | miss (memory : Memory)
  | fault (f : Fault)
  | exhausted

def Routine (α : Type) : Type := Settings → Memory → Result α

namespace Routine

instance : Monad Routine where
  pure a := fun _ m => .done a m
  bind r k := fun σ m =>
    match r σ m with
    | .done a n => k a σ n
    | .miss n => .miss n
    | .fault f => .fault f
    | .exhausted => .exhausted

section

variable {α : Type}

def miss : Routine α := fun _ m => .miss m

/-- Out of fuel. -/
def exhausted : Routine α := fun _ _ => .exhausted

/-- Tries a routine and, if it misses, another, in the memory that the first one has left. -/
def orElse (r : Routine α) (q : Unit → Routine α) : Routine α := fun σ m =>
  match r σ m with
  | .miss n => q () σ n
  | result => result

instance : OrElse (Routine α) := ⟨orElse⟩

def attempt (r : Routine α) : Routine (Option α) := fun σ m =>
  match r σ m with
  | .done a n => .done (some a) n
  | .miss n => .done none n
  | .fault f => .fault f
  | .exhausted => .exhausted

def failAt (cause : Cause) (index : Nat) : Routine α := fun _ _ => .fault ⟨cause, index⟩

def fail (cause : Cause) : Routine α := fun _ m => .fault ⟨cause, m.window.index⟩

def require (condition : Bool) : Routine Unit := if condition then pure () else miss

def settings : Routine Settings := fun σ m => .done σ m

def grammar : Routine Grammar := fun σ m => .done σ.grammar m

def supports (f : Feature) : Routine Bool := fun σ m => .done (σ.grammar.edition.supports f) m

/-! ### The reader -/

def index : Routine Nat := fun _ m => .done m.window.index m

def peek (k : Nat) : Routine (Option CodePoint) := fun _ m => .done (m.window.peek k) m

def sees (k : Nat) (c : CodePoint) : Routine Bool := fun _ m => .done (m.window.peek k == some c) m

def advance : Routine Unit := fun _ m => .done () { m with window := m.window.advance }

def rewind (i : Nat) : Routine Unit := fun _ m => .done () { m with window := m.window.rewind i }

def backTo (i : Nat) : Routine α := do
  rewind i
  miss

def eatAll (cs : List Char) : Routine Unit := fun _ m =>
  match m.window.eat (cs.map CodePoint.ofChar) with
  | (true, w) => .done () { m with window := w }
  | (false, w) => .miss { m with window := w }

def eat (c : CodePoint) : Routine Unit := fun _ m =>
  match m.window.eat [c] with
  | (true, w) => .done () { m with window := w }
  | (false, w) => .miss { m with window := w }

def eats (c : CodePoint) : Routine Bool := do
  return (← attempt (eat c)).isSome

/-- Reads a character that has a value under the given function, and gives that value. -/
def select (value? : CodePoint → Option α) : Routine α := do
  match (← peek 0).bind value? with
  | some a =>
    advance
    return a
  | none => miss

def satisfy (test : CodePoint → Bool) : Routine CodePoint := do
  match (← peek 0).filter test with
  | some c =>
    advance
    return c
  | none => miss

def spanFrom (start : Nat) : Routine Span := fun _ m =>
  .done ⟨start, m.window.index, m.window.text.slice start m.window.index⟩ m

/-! ### Loops -/

/-- Repeats a routine until it misses, with fuel for so many repetitions. -/
def collectFor (r : Routine α) : Nat → Routine (List α)
  | 0 => exhausted
  | fuel + 1 => do
    match ← attempt r with
    | some a => return a :: (← collectFor r fuel)
    | none => return []

def collect (r : Routine α) : Routine (List α) := do
  collectFor r (← settings).fuel

/-- Repeats a routine until it misses, and misses itself if there was nothing at all. -/
def collect1 (r : Routine α) : Routine (List α) := do
  let as ← collect r
  require !as.isEmpty
  return as

def times (r : Routine α) : Nat → Routine (List α)
  | 0 => pure []
  | count + 1 => do
    let first ← r
    let rest ← times r count
    return first :: rest

end

/-! ### Groups and classes -/

/-- One level further down, for a construct that began at the given offset. -/
def enterNesting (start : Nat) : Routine Unit := fun σ m =>
  let depth := m.depth + 1
  if depth > σ.maxDepth then .fault ⟨.nestedTooDeeply, start⟩ else .done () { m with depth }

def leaveNesting : Routine Unit := fun _ m => .done () { m with depth := m.depth - 1 }

def modifyScope (f : GroupScope → GroupScope) : Routine Unit := fun _ m =>
  .done () { m with scope := f m.scope }

def conflicts (name : GroupName) : Routine Bool := fun _ m => .done (m.scope.conflicts name) m

/-- Opens a capturing group, with a name if it has one, and gives its number. -/
def openCapture (name : Option GroupName) : Routine Nat := fun _ m =>
  let index := m.opened + 1
  let scope := match name with
    | some n => m.scope.declare n index
    | none => m.scope
  .done index { m with opened := index, scope }

/-- A name has been referred to. -/
def await (name : GroupName) : Routine Unit := fun _ m =>
  .done () { m with pending := m.pending ++ [name] }

def isQuantifiable : Routine Bool := fun _ m => .done m.quantifiable m

def setQuantifiable (quantifiable : Bool) : Routine Unit := fun _ m =>
  .done () { m with quantifiable }

end Routine

end EcmaPattern
