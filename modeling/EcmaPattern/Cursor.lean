import EcmaPattern.Text

/-!
# Slices, cursors and readers

A `Slice` is a part of a text that is read on its own. A `Cursor` is a place in it with the units
that lie ahead, and moves forward a character at a time. A `Reader` is a cursor that can also be
sent to any offset.
-/

namespace EcmaPattern

/-- A place in a text, with what lies ahead of it. -/
structure Cursor where
  /-- The offset of the place, in code units. -/
  index : Nat
  /-- The units from here to the end of the slice. -/
  ahead : Text
  /-- Whether a surrogate pair reads as one character. -/
  paired : Bool
  deriving DecidableEq

namespace Cursor

def current (c : Cursor) : Option CodePoint := (c.ahead.uncons? c.paired).map (·.1)

/-- Past the character ahead; at the end, stays. -/
def advance (c : Cursor) : Cursor :=
  match c.ahead.uncons? c.paired with
  | none => c
  | some (ch, rest) => { c with index := c.index + ch.width, ahead := rest }

def window (c : Cursor) : Nat → List CodePoint
  | 0 => []
  | count + 1 =>
    match c.ahead.uncons? c.paired with
    | none => []
    | some (ch, _) => ch :: c.advance.window count

def peek (c : Cursor) (k : Nat) : Option CodePoint := (c.window (k + 1))[k]?

/-- A window is its first character and the window from the next place, with one slot less. -/
theorem window_succ (c : Cursor) (count : Nat) :
    c.window (count + 1) =
      match c.current with
      | none => []
      | some ch => ch :: c.advance.window count := by
  rw [window, current]
  cases c.ahead.uncons? c.paired <;> rfl

/-- The character nought places ahead is the one ahead. -/
theorem peek_zero (c : Cursor) : c.peek 0 = c.current := by
  rw [peek, window_succ]
  cases c.current <;> rfl

theorem advance_of_current_eq_none {c : Cursor} (h : c.current = none) : c.advance = c := by
  rw [current, Option.map_eq_none_iff] at h
  rw [advance, h]

/-- Looking further ahead is looking ahead from further on. -/
theorem peek_succ (c : Cursor) (k : Nat) : c.peek (k + 1) = c.advance.peek k := by
  rw [peek, window_succ]
  cases h : c.current with
  | some ch => rfl
  | none => rw [advance_of_current_eq_none h, peek, window_succ, h]; rfl

/-- Past the given characters, if they are what lies ahead. -/
def eat? (c : Cursor) : List CodePoint → Option Cursor
  | [] => some c
  | ch :: rest => if c.current = some ch then c.advance.eat? rest else none

def remaining (c : Cursor) : Nat := c.ahead.length

def textTo (c : Cursor) (stop : Nat) : Text := c.ahead.take (stop - c.index)

end Cursor

/-- A part of a text, from offset `start` up to offset `stop`. -/
structure Slice where
  text : Text
  start : Nat
  stop : Nat

namespace Slice

def whole (t : Text) : Slice := ⟨t, 0, t.length⟩

/-- From an offset up to another or, if none is given, to the end. -/
def between (t : Text) (start : Nat) (stop : Option Nat) : Slice := ⟨t, start, stop.getD t.length⟩

/-- The units of the slice; none if it ends before it starts. -/
def content (s : Slice) : Text := s.text.slice s.start s.stop

/-- The cursor at an offset, which sees as far as the end of the slice. -/
def cursorAt (s : Slice) (paired : Bool) (index : Nat) : Cursor :=
  ⟨index, s.text.slice index s.stop, paired⟩

def cursor (s : Slice) (paired : Bool) : Cursor := s.cursorAt paired s.start

end Slice

/-- A cursor over a slice that can be sent to any offset. -/
structure Reader where
  slice : Slice
  cursor : Cursor
  /-- How far before the start of the text the cursor's own count begins. -/
  before : Nat := 0

namespace Reader

def ofSlice (s : Slice) (paired : Bool) : Reader := { slice := s, cursor := s.cursor paired }

def empty : Reader := ofSlice (.whole []) false

def index (r : Reader) : Int := r.cursor.index - r.before

def rewind (r : Reader) (index : Nat) : Reader :=
  { r with cursor := r.slice.cursorAt r.cursor.paired index, before := 0 }

/-- To so many units before the start of the text. These are the last units of the text, and after
them reading goes on from its start. -/
def rewindBefore (r : Reader) (count : Nat) : Reader :=
  let tail := r.slice.text.drop (Text.offsetOf r.slice.text.length (-count))
  { r with cursor := ⟨0, tail ++ r.slice.text.take r.slice.stop, r.cursor.paired⟩, before := count }

/-- The text between two offsets; those below zero count from the end. -/
def text (r : Reader) (start stop : Int) : Text :=
  let length := r.slice.text.length
  r.slice.text.slice (Text.offsetOf length start) (Text.offsetOf length stop)

/-- Past the character ahead. -/
def advance (r : Reader) : Reader := { r with cursor := r.cursor.advance }

/-- Past the given characters, all or none of them, and whether they lay ahead. -/
def eat (r : Reader) (chars : List CodePoint) : Bool × Reader :=
  match r.cursor.eat? chars with
  | some c => (true, { r with cursor := c })
  | none => (false, r)

end Reader

end EcmaPattern
