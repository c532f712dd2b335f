import EcmaPattern.Cursor

/-!
# Windows

A reader that keeps the next four characters at hand. The slots are filled when the reader is sent
to an offset, each as wide as the character in it, and reading consults the slots alone.
-/

namespace EcmaPattern

/-- A character that lies ahead, if there is one, and how many units it takes. -/
structure Slot where
  char : Option CodePoint := none
  width : Nat := 1
  deriving DecidableEq

/-- A reader over a part of a text, with four slots for what lies ahead. -/
structure Window where
  text : Text
  paired : Bool
  /-- Where the part starts. -/
  start : Nat
  /-- Where the part stops. -/
  stop : Nat
  index : Nat
  slots : List Slot
  deriving DecidableEq

namespace Window

def empty : Window := ⟨[], false, 0, 0, 0, .replicate 4 {}⟩

/-- The character that begins with a unit, given the unit after it if the two may be joined. -/
def joinUnits (u : CodeUnit) (next : Option CodeUnit) : CodePoint :=
  match next.filter fun v => (CodePoint.ofUnit v).isTrail with
  | some v => .ofPair (.ofUnit u) (.ofUnit v)
  | none => .ofUnit u

/-- The character that begins at an offset. A lead surrogate may be joined with the unit after it if
that one lies in the part as well. -/
def charAt (w : Window) (i : Nat) : Option CodePoint :=
  if w.stop ≤ i then none
  else
    w.text[i]?.map fun u =>
      joinUnits u
        -- a pair that the end of the part cuts in two is not joined
        (if w.paired && (CodePoint.ofUnit u).isLead && i + 1 < w.stop then w.text[i + 1]? else none)

def slotAt (w : Window) (i : Nat) : Slot :=
  let char := w.charAt i
  ⟨char, if char.any (0xFFFF < ·.val) then 2 else 1⟩

/-- So many slots, the first for the character at the offset and each further one for the character
behind the one before. -/
def fill (w : Window) : Nat → Nat → List Slot
  | 0, _ => []
  | count + 1, i => w.slotAt i :: w.fill count (i + (w.slotAt i).width)

def rewind (w : Window) (i : Nat) : Window := { w with index := i, slots := w.fill 4 i }

def reset (w : Window) (text : Text) (start stop : Nat) (paired : Bool) : Window :=
  { w with text, paired, start, stop }.rewind start

def peek (w : Window) (k : Nat) : Option CodePoint := w.slots[k]?.bind Slot.char

def current (w : Window) : Option CodePoint := w.peek 0

/-- Past the character ahead; at the end, stays. -/
def advance (w : Window) : Window :=
  match w.slots with
  -- all slots are filled again, since the next character may be of another width
  | ⟨some _, width⟩ :: _ => w.rewind (w.index + width)
  | _ => w

def advanceBy : Nat → Window → Window
  | 0, w => w
  | k + 1, w => advanceBy k w.advance

/-- Whether the given characters are the first ones in the slots. -/
def shows (w : Window) (cs : List CodePoint) : Bool :=
  (w.slots.map Slot.char).take cs.length == cs.map some

/-- Past the given characters, all or none of them, and whether they lay ahead. -/
def eat (w : Window) (cs : List CodePoint) : Bool × Window :=
  if w.shows cs then (true, advanceBy cs.length w) else (false, w)

end Window

/-- What a reader can be told to do. -/
inductive Move where
  | advance
  | eat (c : CodePoint)
  | eat2 (c d : CodePoint)
  | eat3 (c d e : CodePoint)
  | rewind (i : Nat)

def Window.move (w : Window) : Move → Window
  | .advance => w.advance
  | .eat c => (w.eat [c]).2
  | .eat2 c d => (w.eat [c, d]).2
  | .eat3 c d e => (w.eat [c, d, e]).2
  | .rewind i => w.rewind i

def Window.run (w : Window) (moves : List Move) : Window := moves.foldl Window.move w

def Reader.move (r : Reader) : Move → Reader
  | .advance => r.advance
  | .eat c => (r.eat [c]).2
  | .eat2 c d => (r.eat [c, d]).2
  | .eat3 c d e => (r.eat [c, d, e]).2
  | .rewind i => r.rewind i

def Reader.run (r : Reader) (moves : List Move) : Reader := moves.foldl Reader.move r

end EcmaPattern
