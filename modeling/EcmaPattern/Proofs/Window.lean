import EcmaPattern.Proofs.Reading
import EcmaPattern.Window

/-!
# Windows

The slots of a window always hold the characters that lie ahead of it. Whatever moves a window has
made since it was set on a slice, it stands where a reader without slots would stand, each slot
shows the character that so many advances lead to, and characters are eaten as a whole or not at all
(`windows_show_what_lies_ahead`). The invariant is that the slots are those that a jump to the
present offset fills (`Window.Filled`).
-/

namespace EcmaPattern

/-! ## Characters ahead of a cursor

A cursor is determined by its text, its bounds, its mode and its index. So it is enough to know the
index that a window is at. -/

theorem Cursor.eq_of_fields {c d : Cursor} (hindex : c.index = d.index) (hahead : c.ahead = d.ahead)
    (hpaired : c.paired = d.paired) : c = d := by
  cases c
  cases d
  cases hindex
  cases hahead
  cases hpaired
  rfl

/-- To peek is to look a character up among those ahead. -/
theorem Cursor.peek_eq (c : Cursor) (k : Nat) : c.peek k = c.characters[k]? := by
  induction k generalizing c with
  | zero => rw [peek_zero, current_eq_head?, List.head?_eq_getElem?]
  | succ k ih =>
    rw [peek_succ, ih]
    cases h : c.current with
    | none => rw [advance_of_current_eq_none h, characters_eq_nil h, List.getElem?_nil]; rfl
    | some ch => rw [characters_eq_cons h, List.getElem?_cons_succ]

theorem Cursor.current_eq (c : Cursor) : c.current = c.characters[0]? := by
  rw [← peek_eq, peek_zero]

theorem Cursor.reaches_advance (c : Cursor) : c.Reaches c.advance := by
  cases h : c.current with
  | none => rw [advance_of_current_eq_none h]; exact .refl c
  | some ch => exact ⟨[ch], reads_singleton.mpr ⟨h, rfl⟩⟩

theorem Text.slice_eq_nil (t : Text) {i stop : Nat} (h : stop ≤ i) : t.slice i stop = [] := by
  rw [slice, List.drop_eq_nil_iff, List.length_take]
  omega

theorem Text.slice_eq_cons {t : Text} {i stop : Nat} {u : CodeUnit} (hi : i < stop)
    (hu : t[i]? = some u) : t.slice i stop = u :: t.slice (i + 1) stop := by
  have htake : (t.take stop)[i]? = some u := by rw [List.getElem?_take_of_lt hi, hu]
  obtain ⟨hlt, hget⟩ := List.getElem?_eq_some_iff.mp htake
  rw [slice, List.drop_eq_getElem_cons hlt, hget, slice]

theorem Text.head?_slice (t : Text) (i stop : Nat) :
    (t.slice i stop).head? = if i < stop then t[i]? else none := by
  rw [slice, List.head?_drop, List.getElem?_take]

/-- The first character of a text with a first unit. -/
theorem Text.uncons?_cons (paired : Bool) (u : CodeUnit) (rest : Text) :
    (uncons? paired (u :: rest)).map (·.1) =
      some (Window.joinUnits u
        (if paired && (CodePoint.ofUnit u).isLead then rest.head? else none)) := by
  cases rest with
  | nil => simp [uncons?, Window.joinUnits]
  | cons v rest =>
    rw [uncons?, isPair, ← Bool.and_assoc, List.head?_cons, Window.joinUnits]
    cases paired && (CodePoint.ofUnit u).isLead with
    | false => simp
    | true =>
      rw [Bool.true_and, if_pos rfl]
      cases hv : (CodePoint.ofUnit v).isTrail <;> simp [Option.filter, hv]

namespace Slice

variable {s : Slice} {paired : Bool} {i : Nat} {ch : CodePoint}

/-- Past a character is the place behind its units. -/
theorem advance_cursorAt (h : (s.cursorAt paired i).current = some ch) :
    (s.cursorAt paired i).advance = s.cursorAt paired (i + ch.width) := by
  obtain ⟨hahead, hindex, hpaired, -⟩ := Cursor.current_eq_some h
  have hdrop : s.text.slice (i + ch.width) s.stop = (s.cursorAt paired i).advance.ahead := by
    have hall : (s.text.take s.stop).drop i = ch.encode ++ (s.cursorAt paired i).advance.ahead :=
      hahead
    rw [Text.slice, ← List.drop_drop, hall, ← ch.length_encode, List.drop_left]
  exact Cursor.eq_of_fields hindex hdrop.symm hpaired

theorem characters_cursorAt_of_current_eq_none (h : (s.cursorAt paired i).current = none)
    (k : Nat) : (s.cursorAt paired (i + k)).characters = [] := by
  have hahead : (s.text.take s.stop).drop i = [] := Cursor.current_eq_none.mp h
  have hnil : s.text.slice (i + k) s.stop = [] := by
    rw [Text.slice, ← List.drop_drop, hahead, List.drop_nil]
  rw [Cursor.characters, cursorAt, hnil, Text.characters]

/-- A place that is reached from another in the slice is the one at its offset. -/
theorem eq_cursorAt_of_reaches {d : Cursor} (h : (s.cursorAt paired i).Reaches d) :
    d = s.cursorAt paired d.index :=
  Holds.eq_cursorAt (s := { s with start := i }) h

/-- What can be read from a place of the slice ends within it. -/
theorem le_stop_of_reaches {d : Cursor} (hv : s.Valid) (hi : i ≤ s.stop)
    (h : (s.cursorAt paired i).Reaches d) : d.index ≤ s.stop :=
  Holds.le_stop (s := { s with start := i }) ⟨hi, hv.stop_le_length⟩ h

theorem remaining_cursorAt (hv : s.Valid) (hi : i ≤ s.stop) :
    i + (s.cursorAt paired i).remaining = s.stop := by
  have hlength := hv.stop_le_length
  rw [Cursor.remaining, cursorAt, Text.slice, List.length_drop, List.length_take]
  omega

/-- Both ends of the slice lie in its text. It may end before it starts. -/
structure InText (s : Slice) : Prop where
  start_le_length : s.start ≤ s.text.length
  stop_le_length : s.stop ≤ s.text.length

/-- The slice; if it ends before it starts, the empty one at its start. -/
def ordered (s : Slice) : Slice := { s with stop := max s.start s.stop }

theorem Valid.inText (h : s.Valid) : s.InText :=
  ⟨Nat.le_trans h.start_le_stop h.stop_le_length, h.stop_le_length⟩

theorem InText.ordered (h : s.InText) : s.ordered.Valid :=
  ⟨Nat.le_max_left _ _, Nat.max_le.mpr ⟨h.start_le_length, h.stop_le_length⟩⟩

theorem length_ordered (s : Slice) : s.ordered.stop - s.ordered.start = s.stop - s.start := by
  show max s.start s.stop - s.start = s.stop - s.start
  omega

/-- Nothing else can be read in it. -/
theorem cursorAt_ordered (hi : s.start ≤ i) :
    s.ordered.cursorAt paired i = s.cursorAt paired i := by
  refine Cursor.eq_of_fields rfl ?_ rfl
  show (s.text.take (max s.start s.stop)).drop i = (s.text.take s.stop).drop i
  rcases Nat.le_total s.start s.stop with h | h
  · rw [Nat.max_eq_right h]
  · rw [Nat.max_eq_left h]
    exact (s.text.slice_eq_nil hi).trans (s.text.slice_eq_nil (Nat.le_trans h hi)).symm

/-- A slice that ends before it starts has no contents, as if it ended where it starts. -/
theorem content_ordered (s : Slice) : s.ordered.content = s.content :=
  congrArg Cursor.ahead (cursorAt_ordered (Nat.le_refl s.start) : s.ordered.cursorAt true _ = _)

end Slice

/-! ## What the slots show

The slots are a list that is filled from an offset. To advance shifts it and fills the last slot,
which is the same as to fill all slots from the next offset. -/

namespace Window

def slice (w : Window) : Slice := ⟨w.text, w.start, w.stop⟩

def cursor (w : Window) : Cursor := w.slice.cursorAt w.paired w.index

/-- The slots are those for the place at which the window stands. -/
def Filled (w : Window) : Prop := w.slots = w.fill 4 w.index

variable {w : Window} {i k : Nat}

/-- The character of a slot is the first one ahead of its offset. -/
theorem charAt_eq (w : Window) (i : Nat) :
    w.charAt i = (w.slice.cursorAt w.paired i).current := by
  show w.charAt i = ((w.text.slice i w.stop).uncons? w.paired).map (·.1)
  rw [charAt]
  split
  · next hstop =>
    rw [w.text.slice_eq_nil hstop]
    rfl
  · next hstop =>
    cases hu : w.text[i]? with
    | none =>
      have hnil : w.text.slice i w.stop = [] := by
        have hlength := List.getElem?_eq_none_iff.mp hu
        rw [Text.slice, List.drop_eq_nil_iff, List.length_take]
        omega
      rw [hnil]
      rfl
    | some u =>
      rw [Text.slice_eq_cons (by omega) hu, Text.uncons?_cons, Text.head?_slice, Option.map_some]
      cases w.paired && (CodePoint.ofUnit u).isLead <;>
        by_cases hnext : i + 1 < w.stop <;> simp [hnext]

theorem width_slotAt {ch : CodePoint} (h : (w.slice.cursorAt w.paired i).current = some ch) :
    (w.slotAt i).width = ch.width := by
  rw [slotAt, charAt_eq, h, CodePoint.width]
  simp

/-- The slots hold the characters ahead, one after the other. -/
theorem fill_getElem? {count : Nat} (hk : k < count) :
    (w.fill count i)[k]?.bind Slot.char = (w.slice.cursorAt w.paired i).characters[k]? := by
  induction count generalizing i k with
  | zero => omega
  | succ count ih =>
    have hchar : (w.slotAt i).char = (w.slice.cursorAt w.paired i).current := w.charAt_eq i
    rw [fill]
    cases k with
    | zero => rw [List.getElem?_cons_zero, Option.bind_some, hchar, Cursor.current_eq]
    | succ k =>
      rw [List.getElem?_cons_succ, ih (by omega)]
      cases h : (w.slice.cursorAt w.paired i).current with
      | none =>
        rw [Slice.characters_cursorAt_of_current_eq_none h, Cursor.characters_eq_nil h]
        rfl
      | some ch =>
        rw [width_slotAt h, ← Slice.advance_cursorAt h, Cursor.characters_eq_cons h,
          List.getElem?_cons_succ]

theorem length_fill (w : Window) (count i : Nat) : (w.fill count i).length = count := by
  induction count generalizing i with
  | zero => rfl
  | succ count ih => rw [fill, List.length_cons, ih]

/-- The slots hold the characters that lie ahead, one by one. -/
theorem map_char_fill (w : Window) (count i : Nat) :
    (w.fill count i).map Slot.char =
      (List.range count).map fun k => (w.slice.cursorAt w.paired i).characters[k]? := by
  refine List.ext_getElem (by simp [length_fill]) fun k hk _ => ?_
  rw [List.length_map, length_fill] at hk
  have hslot := fill_getElem? (w := w) (i := i) hk
  rw [List.getElem?_eq_getElem (by rwa [length_fill])] at hslot
  simpa using hslot

theorem filled_rewind (w : Window) (i : Nat) : (w.rewind i).Filled := rfl

theorem cursor_rewind (w : Window) (i : Nat) :
    (w.rewind i).cursor = w.slice.cursorAt w.paired i := rfl

theorem rewind_rewind (w : Window) (i j : Nat) : (w.rewind i).rewind j = w.rewind j := rfl

namespace Filled

variable {cs : List CodePoint}

/-- To rewind a filled window to where it is changes nothing. -/
theorem rewind_index (h : w.Filled) : w.rewind w.index = w := by
  rw [rewind, ← h]

/-- What a filled window shows in its slots lies ahead. -/
theorem peek_eq (h : w.Filled) (hk : k < 4) : w.peek k = w.cursor.peek k := by
  rw [peek, h, fill_getElem? hk, Cursor.peek_eq]
  rfl

theorem current_eq (h : w.Filled) : w.current = w.cursor.current := by
  rw [current, h.peek_eq (by decide), Cursor.peek_zero]

/-- Moving past a character is a jump to the place behind it. -/
theorem advance_eq (h : w.Filled) : w.advance = w.rewind w.cursor.advance.index := by
  have hslots : w.slots = w.slotAt w.index :: _ := h
  have hchar : (w.slotAt w.index).char = w.cursor.current := w.charAt_eq w.index
  cases hcurrent : w.cursor.current with
  | none =>
    have hslot : w.slotAt w.index = ⟨none, _⟩ := congrArg (Slot.mk · _) (hchar.trans hcurrent)
    rw [advance, hslots, hslot, Cursor.advance_of_current_eq_none hcurrent]
    exact h.rewind_index.symm
  | some ch =>
    have hslot : w.slotAt w.index = ⟨some ch, ch.width⟩ := by
      rw [← width_slotAt hcurrent, ← hchar.trans hcurrent]
    rw [advance, hslots, hslot, (Cursor.current_eq_some hcurrent).2.1]
    rfl

/-- To advance a window is to advance the place it stands at. -/
theorem cursor_advance (h : w.Filled) : w.advance.cursor = w.cursor.advance := by
  rw [h.advance_eq, cursor_rewind]
  cases hcurrent : w.cursor.current with
  | none => rw [Cursor.advance_of_current_eq_none hcurrent]; rfl
  | some ch =>
    rw [(Cursor.current_eq_some hcurrent).2.1, cursor, Slice.advance_cursorAt hcurrent]
    rfl

/-- A filled window is filled after it has advanced. -/
theorem advance (h : w.Filled) : w.advance.Filled := by
  rw [h.advance_eq]
  exact filled_rewind _ _

/-- So many advances lead past so many characters. -/
theorem reads_advanceBy (h : w.Filled) (k : Nat) :
    w.cursor.Reads (w.cursor.characters.take k) (advanceBy k w).cursor ∧
      advanceBy k w = w.rewind (advanceBy k w).cursor.index := by
  induction k generalizing w with
  | zero => exact ⟨Cursor.reads_nil.mpr rfl, h.rewind_index.symm⟩
  | succ k ih =>
    obtain ⟨hreads, hrewind⟩ := ih h.advance
    rw [h.cursor_advance] at hreads
    refine ⟨?_, ?_⟩
    · cases hcurrent : w.cursor.current with
      | none =>
        rw [Cursor.advance_of_current_eq_none hcurrent, Cursor.characters_eq_nil hcurrent,
          List.take_nil] at hreads
        rw [Cursor.characters_eq_nil hcurrent]
        exact hreads
      | some ch =>
        rw [Cursor.characters_eq_cons hcurrent, List.take_succ_cons]
        exact Cursor.reads_cons.mpr ⟨hcurrent, hreads⟩
    · show advanceBy k w.advance = w.rewind (advanceBy k w.advance).cursor.index
      rw [h.advance_eq] at hrewind ⊢
      exact hrewind

/-- The slots show which characters lie ahead, up to four. -/
theorem shows_iff (h : w.Filled) (hcs : cs.length ≤ 4) :
    w.shows cs = true ↔ cs <+: w.cursor.characters := by
  rw [shows, h, map_char_fill, ← List.map_take, List.take_range, Nat.min_eq_left hcs,
    beq_iff_eq, List.prefix_iff_getElem?, List.ext_getElem_iff]
  simp only [List.length_map, List.length_range, List.getElem_map, List.getElem_range, true_and]
  exact ⟨fun hall i hi => hall i hi hi, fun hall i hi _ => hall i hi⟩

/-- The window eats what a cursor at its place can read, or nothing. -/
theorem eat_eq (h : w.Filled) (hcs : cs.length ≤ 4) :
    w.eat cs = match w.cursor.eat? cs with
      | some d => (true, w.rewind d.index)
      | none => (false, w) := by
  rw [eat]
  split
  · next hshows =>
    obtain ⟨rest, hrest⟩ := (h.shows_iff hcs).mp hshows
    obtain ⟨hreads, hrewind⟩ := h.reads_advanceBy cs.length
    rw [← hrest, List.take_left] at hreads
    rw [show w.cursor.eat? cs = some (advanceBy cs.length w).cursor from hreads]
    exact congrArg (true, ·) hrewind
  · next hshows =>
    cases heat : w.cursor.eat? cs with
    | none => rfl
    | some d =>
      have hreads : w.cursor.Reads cs d := heat
      exact absurd ((h.shows_iff hcs).mpr ⟨_, hreads.characters.symm⟩) hshows

end Filled

/-! ## Moves

By induction on the list of moves. A jump may lead to any offset in the slice, also between the
halves of a pair, and fills the slots from there. -/

/-- The window stands within the part of the text that it is over. -/
structure Within (w : Window) (slice : Slice) (paired : Bool) : Prop where
  text : w.text = slice.text
  start : w.start = slice.start
  stop : w.stop = slice.stop
  paired : w.paired = paired
  start_le : slice.start ≤ w.index
  le_stop : w.index ≤ slice.stop
  filled : w.Filled

namespace Within

variable {slice : Slice} {paired : Bool} {d : Cursor} {cs : List CodePoint}

theorem slice_eq (h : w.Within slice paired) : w.slice = slice := by
  rw [Window.slice, h.text, h.start, h.stop]

theorem cursor_eq (h : w.Within slice paired) : w.cursor = slice.cursorAt paired w.index := by
  rw [cursor, h.slice_eq, h.paired]

/-- A window that is reset to a slice stands within it. -/
theorem reset (hv : slice.Valid) (w : Window) (paired : Bool) :
    (w.reset slice.text slice.start slice.stop paired).Within slice paired :=
  ⟨rfl, rfl, rfl, rfl, Nat.le_refl _, hv.start_le_stop, rfl⟩

/-- A window that is sent to an offset of its slice stays within it. -/
theorem rewind (h : w.Within slice paired) (hstart : slice.start ≤ i) (hstop : i ≤ slice.stop) :
    (w.rewind i).Within slice paired :=
  ⟨h.text, h.start, h.stop, h.paired, hstart, hstop, rfl⟩

theorem remaining (hv : slice.Valid) (h : w.Within slice paired) :
    w.index + w.cursor.remaining = slice.stop := by
  rw [h.cursor_eq]
  exact Slice.remaining_cursorAt hv h.le_stop

/-- A window that is sent to a place ahead of it stands there. -/
theorem rewind_of_reaches (hv : slice.Valid) (h : w.Within slice paired) (hd : w.cursor.Reaches d) :
    (w.rewind d.index).Within slice paired ∧ (w.rewind d.index).cursor = d := by
  rw [cursor_rewind, h.slice_eq, h.paired]
  rw [h.cursor_eq] at hd
  have hle : w.index ≤ d.index := hd.index_le
  exact ⟨h.rewind (Nat.le_trans h.start_le hle) (Slice.le_stop_of_reaches hv h.le_stop hd),
    (Slice.eq_cursorAt_of_reaches hd).symm⟩

theorem advance (hv : slice.Valid) (h : w.Within slice paired) : w.advance.Within slice paired := by
  rw [h.filled.advance_eq]
  exact (h.rewind_of_reaches hv w.cursor.reaches_advance).1

/-- So many characters are passed as there are, at most the given number. -/
theorem reads_advanceBy (hv : slice.Valid) (h : w.Within slice paired) (k : Nat) :
    (advanceBy k w).Within slice paired ∧
      w.cursor.Reads (w.cursor.characters.take k) (advanceBy k w).cursor := by
  refine ⟨?_, (h.filled.reads_advanceBy k).1⟩
  induction k generalizing w with
  | zero => exact h
  | succ k ih => exact ih (h.advance hv)

/-- So many advances later the window stands before the character that far ahead, or at the end. -/
theorem current_advanceBy (hv : slice.Valid) (h : w.Within slice paired) (k : Nat) :
    (advanceBy k w).current = w.cursor.characters[k]? := by
  obtain ⟨hwithin, hreads⟩ := h.reads_advanceBy hv k
  have hdrop : w.cursor.characters.drop k = (advanceBy k w).cursor.characters :=
    List.append_cancel_left ((List.take_append_drop k _).trans hreads.characters)
  rw [hwithin.filled.current_eq, Cursor.current_eq_head?, ← hdrop, List.head?_drop]

/-- A window with nothing ahead stands at the end of its part. -/
theorem index_of_current_eq_none (hv : slice.Valid) (h : w.Within slice paired)
    (hcurrent : w.current = none) : w.index = slice.stop := by
  have hremaining := h.remaining hv
  rw [h.filled.current_eq, Cursor.current_eq_none] at hcurrent
  rw [Cursor.remaining, hcurrent, List.length_nil, Nat.add_zero] at hremaining
  exact hremaining

/-- A window that eats stays within its slice. -/
theorem eat (hv : slice.Valid) (h : w.Within slice paired) (hcs : cs.length ≤ 4) :
    (w.eat cs).2.Within slice paired := by
  rw [h.filled.eat_eq hcs]
  split
  · next d hd => exact (h.rewind_of_reaches hv ⟨cs, hd⟩).1
  · exact h

/-- A window stays within its slice, whatever it is told to do. -/
theorem move (hv : slice.Valid) (h : w.Within slice paired) (m : Move)
    (hm : ∀ i, m = .rewind i → slice.start ≤ i ∧ i ≤ slice.stop) :
    (w.move m).Within slice paired := by
  cases m with
  | advance => exact h.advance hv
  | eat c => exact h.eat hv (by simp)
  | eat2 c d => exact h.eat hv (by simp)
  | eat3 c d e => exact h.eat hv (by simp)
  | rewind i =>
    obtain ⟨hstart, hstop⟩ := hm i rfl
    exact h.rewind hstart hstop

end Within

/-- The window stands within the part of the text that it is over, which may be empty because it
would end before it starts. -/
structure Over (w : Window) (slice : Slice) (paired : Bool) : Prop where
  slice_eq : w.slice.ordered = slice
  paired : w.paired = paired
  start_le : slice.start ≤ w.index
  le_stop : w.index ≤ slice.stop
  filled : w.Filled

namespace Over

variable {slice : Slice} {paired : Bool} {d : Cursor}

theorem text (h : w.Over slice paired) : w.text = slice.text := by
  rw [← h.slice_eq]
  rfl

theorem cursor_rewind (h : w.Over slice paired) (hi : slice.start ≤ i) :
    (w.rewind i).cursor = slice.cursorAt paired i := by
  obtain ⟨rfl, rfl, -, -, -⟩ := h
  exact (Slice.cursorAt_ordered (s := w.slice) hi).symm

theorem cursor_eq (h : w.Over slice paired) : w.cursor = slice.cursorAt paired w.index := by
  rw [← h.cursor_rewind h.start_le, h.filled.rewind_index]

theorem reset (w : Window) (slice : Slice) (paired : Bool) :
    (w.reset slice.text slice.start slice.stop paired).Over slice.ordered paired :=
  ⟨rfl, rfl, Nat.le_refl _, Nat.le_max_left _ _, rfl⟩

theorem remaining (hv : slice.Valid) (h : w.Over slice paired) :
    w.index + w.cursor.remaining = slice.stop := by
  rw [h.cursor_eq]
  exact Slice.remaining_cursorAt hv h.le_stop

/-- A window that is sent to a place ahead of it stands there. -/
theorem rewind_of_reaches (hv : slice.Valid) (h : w.Over slice paired) (hd : w.cursor.Reaches d) :
    (w.rewind d.index).Over slice paired ∧ (w.rewind d.index).cursor = d := by
  have hle : slice.start ≤ d.index := Nat.le_trans h.start_le hd.index_le
  rw [h.cursor_eq] at hd
  have hstop := Slice.le_stop_of_reaches hv h.le_stop hd
  rw [h.cursor_rewind hle]
  exact ⟨⟨h.slice_eq, h.paired, hle, hstop, rfl⟩, (Slice.eq_cursorAt_of_reaches hd).symm⟩

end Over

/-- From the start of a slice, advances lead from one of its characters to the next. -/
theorem current_advanceBy_reset {slice : Slice} (hv : slice.Valid) (w : Window) (paired : Bool)
    (k : Nat) : (advanceBy k (w.reset slice.text slice.start slice.stop paired)).current =
      (slice.content.characters paired)[k]? :=
  (Within.reset hv w paired).current_advanceBy hv k

/-- A reader that works out what lies ahead stands where the window does. -/
structure Mirrors (w : Window) (r : Reader) : Prop where
  slice : r.slice = w.slice
  cursor : r.cursor = w.cursor
  before : r.before = 0

namespace Mirrors

variable {slice : Slice} {paired : Bool} {r : Reader} {cs : List CodePoint}

theorem reset (w : Window) (slice : Slice) (paired : Bool) :
    (w.reset slice.text slice.start slice.stop paired).Mirrors (.ofSlice slice paired) :=
  ⟨rfl, rfl, rfl⟩

/-- A window eats what the reader eats that it mirrors. -/
theorem eat (hv : slice.Valid) (hw : w.Within slice paired) (h : w.Mirrors r)
    (hcs : cs.length ≤ 4) : (r.eat cs).1 = (w.eat cs).1 ∧ (w.eat cs).2.Mirrors (r.eat cs).2 := by
  rw [hw.filled.eat_eq hcs, Reader.eat, h.cursor]
  cases heat : w.cursor.eat? cs with
  | none => exact ⟨rfl, h⟩
  | some d =>
    have hcursor := (hw.rewind_of_reaches hv ⟨cs, heat⟩).2
    exact ⟨rfl, h.slice, hcursor.symm, h.before⟩

/-- A window goes on mirroring a reader, whatever both are told to do. -/
theorem move (hv : slice.Valid) (hw : w.Within slice paired) (h : w.Mirrors r) (m : Move) :
    (w.move m).Mirrors (r.move m) := by
  cases m with
  | advance =>
    refine ⟨?_, ?_, h.before⟩
    · show r.slice = w.advance.slice
      rw [hw.filled.advance_eq]
      exact h.slice
    · show r.cursor.advance = w.advance.cursor
      rw [hw.filled.cursor_advance, h.cursor]
  | eat c => exact (h.eat hv hw (by simp)).2
  | eat2 c d => exact (h.eat hv hw (by simp)).2
  | eat3 c d e => exact (h.eat hv hw (by simp)).2
  | rewind i =>
    refine ⟨h.slice, ?_, rfl⟩
    show r.slice.cursorAt r.cursor.paired i = w.slice.cursorAt w.paired i
    rw [h.slice, h.cursor]
    rfl

end Mirrors

/-- Whatever moves a window makes, it stays within its part of the text, next to the reader that
makes the same moves. -/
theorem Within.run {slice : Slice} {paired : Bool} {r : Reader} (hv : slice.Valid)
    (h : w.Within slice paired) (hr : w.Mirrors r) {moves : List Move}
    (hmoves : ∀ i, .rewind i ∈ moves → slice.start ≤ i ∧ i ≤ slice.stop) :
    (w.run moves).Within slice paired ∧ (w.run moves).Mirrors (r.run moves) := by
  induction moves generalizing w r with
  | nil => exact ⟨h, hr⟩
  | cons m moves ih =>
    refine ih (h.move hv m ?_) (hr.move hv h m) fun i hi => hmoves i (List.mem_cons_of_mem _ hi)
    rintro i rfl
    exact hmoves i List.mem_cons_self

/-- What the window shows is what lies ahead of it in the slice. -/
structure ShowsAhead (w : Window) (slice : Slice) (paired : Bool) : Prop where
  start_le : slice.start ≤ w.index
  le_stop : w.index ≤ slice.stop
  /-- Each slot shows the character that so many advances lead to. -/
  slots : ∀ k < 4, w.peek k = (advanceBy k w).current
  /-- Advances lead from one character of the text ahead to the next. -/
  advances : ∀ k,
    (advanceBy k w).current = ((slice.text.slice w.index slice.stop).characters paired)[k]?
  /-- One to three characters are eaten if they are those ahead; if not, nothing changes. -/
  eats : ∀ cs, cs.length ≤ 3 →
    (cs <+: (slice.text.slice w.index slice.stop).characters paired ∧
      w.eat cs = (true, advanceBy cs.length w) ∧
      (advanceBy cs.length w).index = w.index + (Text.ofCodePoints cs).length) ∨
    (¬cs <+: (slice.text.slice w.index slice.stop).characters paired ∧ w.eat cs = (false, w))

/-- A window within its slice shows what lies ahead. -/
theorem Within.showsAhead {slice : Slice} {paired : Bool} (hv : slice.Valid)
    (h : w.Within slice paired) : w.ShowsAhead slice paired where
  start_le := h.start_le
  le_stop := h.le_stop
  slots := by
    intro k hk
    rw [h.current_advanceBy hv, h.filled.peek_eq hk, Cursor.peek_eq]
  advances := by
    intro k
    rw [h.current_advanceBy hv, h.cursor_eq]
    rfl
  eats := by
    intro cs hcs
    have hahead : (slice.text.slice w.index slice.stop).characters paired =
        w.cursor.characters := by
      rw [h.cursor_eq]
      rfl
    rw [hahead, ← h.filled.shows_iff (by omega), Window.eat]
    cases hshows : w.shows cs with
    | false => exact .inr ⟨nofun, rfl⟩
    | true =>
      refine .inl ⟨rfl, rfl, ?_⟩
      obtain ⟨rest, hrest⟩ := (h.filled.shows_iff (by omega)).mp hshows
      have hreads := (h.filled.reads_advanceBy cs.length).1
      rw [← hrest, List.take_left] at hreads
      exact hreads.index

/-- Whatever a window is told after it has been set on a slice, with jumps to offsets of the slice
only, it stays in the slice, its four slots show the characters that so many advances lead to, and
it eats characters as a whole or not at all; it stands where a reader that works out anew what lies
ahead would stand. Advancing from the start leads through the characters of the slice to its end. -/
theorem windows_show_what_lies_ahead (slice : Slice) (hv : slice.Valid) (paired : Bool)
    (w : Window) :
    (∀ moves, (∀ i, .rewind i ∈ moves → slice.start ≤ i ∧ i ≤ slice.stop) →
      let v := (w.reset slice.text slice.start slice.stop paired).run moves
      let r := (Reader.ofSlice slice paired).run moves
      v.ShowsAhead slice paired ∧ r.index = v.index ∧ ∀ k < 4, r.cursor.peek k = v.peek k) ∧
    ∀ k,
      let v := advanceBy k (w.reset slice.text slice.start slice.stop paired)
      v.current = (slice.content.characters paired)[k]? ∧
        (v.current = none → v.index = slice.stop) := by
  have hreset := Within.reset hv w paired
  refine ⟨?_, ?_⟩
  · intro moves hmoves
    obtain ⟨hwithin, hmirrors⟩ := hreset.run hv (.reset w slice paired) hmoves
    refine ⟨hwithin.showsAhead hv, ?_, fun k hk => ?_⟩
    · rw [Reader.index, hmirrors.cursor, hmirrors.before, Int.natCast_zero, Int.sub_zero]
      rfl
    · rw [hmirrors.cursor, hwithin.filled.peek_eq hk]
  · intro k
    exact ⟨current_advanceBy_reset hv w paired k,
      (hreset.reads_advanceBy hv k).1.index_of_current_eq_none hv⟩

theorem windows_show_what_lies_ahead_inside_pair :
    let slice : Slice := ⟨.ofString "a😀😀b", 1, 4⟩
    slice.Valid ∧
      ((empty.reset slice.text 1 4 true).run [.advance, .rewind 2, .advance]).ShowsAhead slice
        true := by
  have hv : Slice.Valid ⟨.ofString "a😀😀b", 1, 4⟩ := ⟨by decide, by decide⟩
  refine ⟨hv, ((windows_show_what_lies_ahead _ hv true empty).1
    [.advance, .rewind 2, .advance] ?_).1⟩
  intro i hi
  obtain rfl : i = 2 := by simpa using hi
  exact ⟨by decide, by decide⟩

end Window

end EcmaPattern
