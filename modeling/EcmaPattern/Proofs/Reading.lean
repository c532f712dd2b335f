import EcmaPattern.Cursor
import EcmaPattern.Tree.Term

/-!
# Reading

What lies between two places in a text. `Cursor.Reads c cs d` says that the characters `cs` lead
from `c` to `d`; everything else that is known of the two places follows from it: the text between
them is the encoding of `cs` (`Reads.ahead`), the offsets differ by its length (`Reads.index`), and,
where surrogate pairs are single characters, `d` does not stand inside a pair (`Reads.not_isPair`).
The places of a slice are those that can be read from its start.

Key lemmas:

* `Cursor.reads_append` cuts a reading in two, and `Reads.trans` puts it together again;
* `Reads.textTo` says that the text between two places is what was read between them, which is how
  nodes come by their text;
* `Holds.remaining` and `Holds.le_stop` keep every place within its slice;
* `Cursor.reads_of_plain` reads a text of plain characters, whichever way pairs are read.
-/

namespace EcmaPattern

/-! ## The first character of a text

Taking a character off a text and encoding it gives the text back, and with pairs joined the
character that is taken off is never the first half of a pair. Both are facts about `Text.uncons?`;
places inherit them. -/

namespace Text

theorem uncons?_eq_none {paired : Bool} {t : Text} : t.uncons? paired = none ↔ t = [] := by
  match t with
  | [] => simp [uncons?]
  | [u] => simp [uncons?]
  | u :: v :: rest =>
    rw [uncons?]
    split <;> simp

/-- The units of the first character are those that are taken off. -/
theorem eq_encode_append {paired : Bool} {t rest : Text} {c : CodePoint}
    (h : t.uncons? paired = some (c, rest)) : t = c.encode ++ rest := by
  match t with
  | [] => simp [uncons?] at h
  | [u] =>
    simp only [uncons?, Option.some.injEq, Prod.mk.injEq] at h
    obtain ⟨rfl, rfl⟩ := h
    rw [encode_ofUnit]
    rfl
  | u :: v :: tail =>
    rw [uncons?] at h
    split at h
    · next hp =>
      simp only [Bool.and_eq_true] at hp
      cases h
      rw [encode_ofPair hp.2]
      rfl
    · cases h
      rw [encode_ofUnit]
      rfl

/-- Where surrogate pairs are single characters, the first character does not end inside one. -/
theorem not_isPair_of_uncons? {t rest : Text} {c : CodePoint} {u v : CodeUnit}
    (h : t.uncons? true = some (c, rest)) (hu : c.encode.getLast? = some u)
    (hv : rest.head? = some v) : isPair u v = false := by
  match t with
  | [] => simp [uncons?] at h
  | [w] =>
    simp only [uncons?, Option.some.injEq, Prod.mk.injEq] at h
    obtain ⟨-, rfl⟩ := h
    simp at hv
  | w :: x :: tail =>
    rw [uncons?, Bool.true_and] at h
    split at h
    · next hp =>
      cases h
      -- the character ends with a trail surrogate, which opens no pair
      rw [encode_ofPair hp] at hu
      obtain rfl : x = u := by simpa using hu
      simp only [isPair, Bool.and_eq_true, CodePoint.isTrail_iff] at hp
      have hlead : (CodePoint.ofUnit x).isLead = false := by
        rw [Bool.eq_false_iff, ne_eq, CodePoint.isLead_iff]
        omega
      rw [isPair, hlead, Bool.false_and]
    · next hp =>
      cases h
      rw [encode_ofUnit] at hu
      obtain rfl : w = u := by simpa using hu
      obtain rfl : x = v := by simpa using hv
      simpa using hp

/-- What is taken off first does not depend on where the text ends behind it. -/
theorem uncons?_of_append {paired : Bool} {c : CodePoint} {t rest : Text}
    (h : (c.encode ++ t ++ rest).uncons? paired = some (c, t ++ rest)) :
    (c.encode ++ t).uncons? paired = some (c, t) := by
  match hx : c.encode ++ t with
  | [] =>
    rw [List.append_eq_nil_iff, CodePoint.encode] at hx
    split at hx <;> cases hx.1
  | [u] =>
    rw [hx] at h
    cases rest with
    | nil => simpa [uncons?] using h
    | cons v rest =>
      simp only [List.singleton_append, uncons?] at h
      split at h
      · have hlength := congrArg (List.length ·.2) (Option.some.inj h)
        simp at hlength
        omega
      · obtain ⟨hc, ht⟩ := Prod.mk.inj (Option.some.inj h)
        obtain rfl : t = [] := List.append_left_eq_self.mp ht.symm
        rw [uncons?, hc]
  | u :: v :: x =>
    rw [hx] at h
    simp only [List.cons_append, uncons?] at h ⊢
    split at h <;> obtain ⟨hc, ht⟩ := Prod.mk.inj (Option.some.inj h)
    · next hp => rw [if_pos hp, hc, List.append_cancel_right ht]
    · next hp =>
      have ht : v :: x = t := List.append_cancel_right (List.cons_append.trans ht)
      rw [if_neg hp, hc, ht]

end Text

/-- A code point is encoded in as many units as it is wide. -/
theorem CodePoint.length_encode (c : CodePoint) : c.encode.length = c.width := by
  unfold CodePoint.encode CodePoint.width
  split
  · rw [if_neg (by omega)]
    rfl
  · rw [if_pos (by omega)]
    rfl

/-- Reading a character always gets further. -/
theorem CodePoint.width_pos (c : CodePoint) : 0 < c.width := by
  unfold CodePoint.width
  split <;> omega

/-! ## Places and the characters between them

`Cursor.Reads` is a function of the place and the characters, stated as a relation so that it can be
taken apart from both ends. Its induction is on the characters, and each lemma below has one step
that comes from the character ahead. -/

namespace Cursor

def characters (c : Cursor) : List CodePoint := c.ahead.characters c.paired

/-- The given characters lead from one place to another. -/
def Reads (c : Cursor) (cs : List CodePoint) (d : Cursor) : Prop := c.eat? cs = some d

/-- What is ahead of a place is its first character, encoded, and what is ahead of the next place.
-/
theorem current_eq_some {c : Cursor} {ch : CodePoint} (h : c.current = some ch) :
    c.ahead = ch.encode ++ c.advance.ahead ∧ c.advance.index = c.index + ch.width ∧
      c.advance.paired = c.paired ∧ c.ahead.uncons? c.paired = some (ch, c.advance.ahead) := by
  rw [current] at h
  cases hu : c.ahead.uncons? c.paired with
  | none => simp [hu] at h
  | some p =>
    obtain ⟨x, rest⟩ := p
    obtain rfl : x = ch := by simpa [hu] using h
    have hadv : c.advance = { c with index := c.index + x.width, ahead := rest } := by
      rw [advance, hu]
    rw [hadv]
    exact ⟨Text.eq_encode_append hu, rfl, rfl, rfl⟩

theorem current_eq_none {c : Cursor} : c.current = none ↔ c.ahead = [] := by
  rw [current, Option.map_eq_none_iff, Text.uncons?_eq_none]

/-- The characters ahead are the first one and those ahead of the next place. -/
theorem characters_eq_cons {c : Cursor} {ch : CodePoint} (h : c.current = some ch) :
    c.characters = ch :: c.advance.characters := by
  obtain ⟨-, -, hp, hu⟩ := current_eq_some h
  rw [characters, Text.characters_eq_uncons?, hu, characters, hp]

theorem characters_eq_nil {c : Cursor} (h : c.current = none) : c.characters = [] := by
  rw [characters, current_eq_none.mp h, Text.characters]

theorem current_eq_head? (c : Cursor) : c.current = c.characters.head? := by
  cases h : c.current with
  | none => rw [characters_eq_nil h]; rfl
  | some ch => rw [characters_eq_cons h]; rfl

@[simp] theorem reads_nil {c d : Cursor} : c.Reads [] d ↔ c = d := by
  simp [Reads, eat?]

theorem reads_cons {c d : Cursor} {ch : CodePoint} {cs : List CodePoint} :
    c.Reads (ch :: cs) d ↔ c.current = some ch ∧ c.advance.Reads cs d := by
  rw [Reads, eat?]
  split
  · next h => simp [h, Reads]
  · next h => simp [h]

/-- A place between two runs of characters can be named, so a reading can be cut in two. -/
theorem reads_append {c d : Cursor} {cs ds : List CodePoint} :
    c.Reads (cs ++ ds) d ↔ ∃ e, c.Reads cs e ∧ e.Reads ds d := by
  induction cs generalizing c with
  | nil => simp
  | cons ch cs ih =>
    rw [List.cons_append, reads_cons, ih]
    simp only [reads_cons, and_assoc, exists_and_left]

theorem reads_singleton {c d : Cursor} {ch : CodePoint} :
    c.Reads [ch] d ↔ c.current = some ch ∧ c.advance = d := by
  rw [reads_cons, reads_nil]

/-- Readings compose. -/
theorem Reads.trans {c d e : Cursor} {cs ds : List CodePoint} (h : c.Reads cs d)
    (h' : d.Reads ds e) : c.Reads (cs ++ ds) e :=
  reads_append.mpr ⟨d, h, h'⟩

namespace Reads

variable {c d : Cursor} {cs : List CodePoint}

theorem current_eq {ch : CodePoint} (h : c.Reads (ch :: cs) d) : c.current = some ch :=
  (reads_cons.mp h).1

/-- The text between two places is the encoding of the characters that lead from one to the
other. -/
theorem ahead (h : c.Reads cs d) : c.ahead = Text.ofCodePoints cs ++ d.ahead := by
  induction cs generalizing c with
  | nil =>
    obtain rfl := reads_nil.mp h
    rfl
  | cons ch cs ih =>
    obtain ⟨hc, h⟩ := reads_cons.mp h
    rw [(current_eq_some hc).1, ih h, Text.ofCodePoints, Text.ofCodePoints, List.flatMap_cons,
      List.append_assoc]

/-- A reading moves the offset by the units of what it reads. -/
theorem index (h : c.Reads cs d) : d.index = c.index + (Text.ofCodePoints cs).length := by
  induction cs generalizing c with
  | nil =>
    obtain rfl := reads_nil.mp h
    rfl
  | cons ch cs ih =>
    obtain ⟨hc, h⟩ := reads_cons.mp h
    have hlen := ch.length_encode
    rw [ih h, (current_eq_some hc).2.1, Text.ofCodePoints, Text.ofCodePoints, List.flatMap_cons,
      List.length_append, hlen, Nat.add_assoc]

theorem paired (h : c.Reads cs d) : d.paired = c.paired := by
  induction cs generalizing c with
  | nil =>
    obtain rfl := reads_nil.mp h
    rfl
  | cons ch cs ih =>
    obtain ⟨hc, h⟩ := reads_cons.mp h
    rw [ih h, (current_eq_some hc).2.2.1]

/-- What is ahead before a reading is what is read and what is ahead after it. -/
theorem characters (h : c.Reads cs d) : c.characters = cs ++ d.characters := by
  induction cs generalizing c with
  | nil =>
    obtain rfl := reads_nil.mp h
    rfl
  | cons ch cs ih =>
    obtain ⟨hc, h⟩ := reads_cons.mp h
    rw [characters_eq_cons hc, ih h, List.cons_append]

/-- The text between two places is what was read between them. -/
theorem textTo (h : c.Reads cs d) : c.textTo d.index = Text.ofCodePoints cs := by
  rw [Cursor.textTo, h.index, h.ahead, Nat.add_sub_cancel_left, List.take_left]

theorem index_le (h : c.Reads cs d) : c.index ≤ d.index := by
  rw [h.index]
  exact Nat.le_add_right _ _

theorem remaining_le (h : c.Reads cs d) : d.remaining ≤ c.remaining := by
  rw [remaining, remaining, h.ahead, List.length_append]
  exact Nat.le_add_left _ _

/-- Reading something leaves less to read. -/
theorem remaining_lt (h : c.Reads cs d) (hcs : cs ≠ []) : d.remaining < c.remaining := by
  obtain ⟨ch, cs, rfl⟩ := List.exists_cons_of_ne_nil hcs
  have hwidth := ch.width_pos
  rw [← ch.length_encode] at hwidth
  rw [remaining, remaining, h.ahead, Text.ofCodePoints, List.flatMap_cons]
  simp only [List.length_append]
  omega

/-- Where surrogate pairs are single characters, a place that was read to is not inside a pair. -/
theorem not_isPair (h : c.Reads cs d) (hp : c.paired = true) {u v : CodeUnit}
    (hu : (Text.ofCodePoints cs).getLast? = some u) (hv : d.ahead.head? = some v) :
    Text.isPair u v = false := by
  induction cs generalizing c with
  | nil => simp [Text.ofCodePoints] at hu
  | cons ch cs ih =>
    obtain ⟨hc, h⟩ := reads_cons.mp h
    obtain ⟨-, -, hp', hun⟩ := current_eq_some hc
    by_cases hcs : Text.ofCodePoints cs = []
    · -- the pair would begin with the last unit of `ch`
      have hd : c.advance.ahead = d.ahead := by rw [h.ahead, hcs, List.nil_append]
      have hch : Text.ofCodePoints (ch :: cs) = ch.encode := by
        show ch.encode ++ Text.ofCodePoints cs = ch.encode
        rw [hcs, List.append_nil]
      rw [hch] at hu
      rw [hp] at hun
      exact Text.not_isPair_of_uncons? hun hu (hd ▸ hv)
    · have hlast : (Text.ofCodePoints (ch :: cs)).getLast? = (Text.ofCodePoints cs).getLast? := by
        show (ch.encode ++ Text.ofCodePoints cs).getLast? = _
        rw [List.getLast?_append, List.getLast?_eq_some_getLast hcs, Option.some_or]
      rw [hlast] at hu
      exact ih h (hp'.trans hp) hu

end Reads

/-- The text between two places, read by itself, has the characters that lead from one to the
other. -/
theorem Reads.characters_text {c d : Cursor} {cs : List CodePoint} (h : c.Reads cs d) :
    (Text.ofCodePoints cs).characters c.paired = cs := by
  induction cs generalizing c with
  | nil => rfl
  | cons ch cs ih =>
    obtain ⟨hc, h⟩ := reads_cons.mp h
    obtain ⟨hahead, -, hp, hu⟩ := current_eq_some hc
    rw [hahead, h.ahead, ← List.append_assoc] at hu
    have hcons : Text.ofCodePoints (ch :: cs) = ch.encode ++ Text.ofCodePoints cs := rfl
    rw [Text.characters_eq_uncons?, hcons, Text.uncons?_of_append hu]
    show ch :: _ = _
    rw [← hp, ih h]

/-- What is ahead can be read. -/
theorem reads_of_characters {c : Cursor} {cs rest : List CodePoint}
    (h : c.characters = cs ++ rest) : ∃ d, c.Reads cs d := by
  induction cs generalizing c with
  | nil => exact ⟨c, reads_nil.mpr rfl⟩
  | cons ch cs ih =>
    have hc : c.current = some ch := by
      rw [current_eq_head?, h]
      rfl
    rw [characters_eq_cons hc] at h
    obtain ⟨d, hd⟩ := ih (List.cons.inj h).2
    exact ⟨d, reads_cons.mpr ⟨hc, hd⟩⟩

/-- A place can be read from another. -/
def Reaches (c d : Cursor) : Prop := ∃ cs, c.Reads cs d

theorem Reads.reaches {c d : Cursor} {cs : List CodePoint} (h : c.Reads cs d) : c.Reaches d :=
  ⟨cs, h⟩

theorem Reaches.refl (c : Cursor) : c.Reaches c := ⟨[], reads_nil.mpr rfl⟩

theorem Reaches.trans {c d e : Cursor} (h : c.Reaches d) (h' : d.Reaches e) : c.Reaches e := by
  obtain ⟨cs, h⟩ := h
  obtain ⟨ds, h'⟩ := h'
  exact ⟨cs ++ ds, h.trans h'⟩

/-- Nothing is read backwards. -/
theorem Reaches.index_le {c d : Cursor} (h : c.Reaches d) : c.index ≤ d.index := by
  obtain ⟨cs, h⟩ := h
  exact h.index_le

end Cursor

/-! ## Plain characters

Texts that are written out in a proof are made of characters that are one unit each and no half of a
pair. They are read alike whether pairs are joined or not, so such a text can be handled as a list
of characters. -/

/-- Whether a character is one unit that can be no part of a pair. -/
def CodePoint.isPlain (c : CodePoint) : Bool := c.val < 0xD800

/-- A plain character is one unit, which is no half of a pair. -/
theorem CodePoint.encode_of_isPlain {c : CodePoint} (h : c.isPlain = true) :
    ∃ u : CodeUnit, c.encode = [u] ∧ CodePoint.ofUnit u = c ∧
      (CodePoint.ofUnit u).isLead = false := by
  have hlt : c.val < 0xD800 := of_decide_eq_true h
  have hval : (UInt16.ofNat c.val).toNat = c.val := by
    rw [UInt16.toNat_ofNat']
    omega
  have hunit : CodePoint.ofUnit (UInt16.ofNat c.val) = c := by
    apply Fin.ext
    exact hval
  refine ⟨UInt16.ofNat c.val, by rw [encode, if_pos (by omega)], hunit, ?_⟩
  rw [hunit, ← Bool.not_eq_true, CodePoint.isLead_iff]
  omega

/-- A unit that begins no pair is a character by itself. -/
theorem Text.uncons?_of_not_lead {u : CodeUnit} (hu : (CodePoint.ofUnit u).isLead = false)
    (paired : Bool) (rest : Text) : uncons? paired (u :: rest) = some (.ofUnit u, rest) := by
  cases rest with
  | nil => rfl
  | cons v rest => simp [uncons?, isPair, hu]

/-- Plain characters can be read, whatever stands behind them. -/
theorem Cursor.reads_of_plain {cs : List CodePoint} (h : cs.all CodePoint.isPlain = true)
    (index : Nat) (rest : Text) (paired : Bool) :
    Cursor.Reads ⟨index, .ofCodePoints cs ++ rest, paired⟩ cs
      ⟨index + (Text.ofCodePoints cs).length, rest, paired⟩ := by
  induction cs generalizing index with
  | nil => exact reads_nil.mpr rfl
  | cons c cs ih =>
    rw [List.all_cons, Bool.and_eq_true] at h
    obtain ⟨u, hencode, hunit, hlead⟩ := CodePoint.encode_of_isPlain h.1
    have htext : Text.ofCodePoints (c :: cs) = u :: Text.ofCodePoints cs := by
      simp [Text.ofCodePoints, hencode]
    have huncons := Text.uncons?_of_not_lead hlead paired (Text.ofCodePoints cs ++ rest)
    have hrest := ih h.2 (index + 1)
    have hwidth : c.width = 1 := by
      rw [← c.length_encode, hencode]
      rfl
    rw [htext, List.cons_append, List.length_cons, Nat.add_comm _ 1, ← Nat.add_assoc]
    refine reads_cons.mpr ⟨?_, ?_⟩
    · rw [current, huncons, hunit]
      rfl
    · rw [advance, huncons, hunit]
      dsimp only
      rwa [hwidth]

/-! ## Places in a slice

A place of a slice is one that can be read from its start, and sees as far as the end of the slice.
That excludes offsets inside of a joined pair: `Holds.isBoundary` is what keeps spans and faults
from separating one. -/

def Span.between (c d : Cursor) : Span := ⟨c.index, d.index, c.textTo d.index⟩

namespace Slice

/-- The slice lies within its text and does not end before it starts. -/
structure Valid (s : Slice) : Prop where
  start_le_stop : s.start ≤ s.stop
  stop_le_length : s.stop ≤ s.text.length

/-- The place can be read from the start of the slice. -/
def Holds (s : Slice) (paired : Bool) (c : Cursor) : Prop := (s.cursor paired).Reaches c

/-- The offset does not separate the two units of a surrogate pair that lies in the slice. -/
def IsBoundary (s : Slice) (offset : Nat) : Prop :=
  ∀ i u v, s.start ≤ i → i + 1 < s.stop → s.text[i]? = some u → s.text[i + 1]? = some v →
    Text.isPair u v → offset ≠ i + 1

variable {s : Slice} {paired : Bool} {c d : Cursor}

theorem holds_cursor (s : Slice) (paired : Bool) : s.Holds paired (s.cursor paired) :=
  Cursor.Reaches.refl _

/-- A place that is reached from a place of the slice is a place of the slice. -/
theorem Holds.trans (h : s.Holds paired c) (h' : c.Reaches d) : s.Holds paired d :=
  Cursor.Reaches.trans h h'

theorem length_content (hs : s.Valid) : s.content.length = s.stop - s.start := by
  have := hs.stop_le_length
  rw [content, Text.slice, List.length_drop, List.length_take]
  omega

theorem Holds.start_le (h : s.Holds paired c) : s.start ≤ c.index := h.index_le

/-- A place in a slice is the one at its offset. -/
theorem Holds.eq_cursorAt (h : s.Holds paired c) : c = s.cursorAt paired c.index := by
  obtain ⟨cs, h⟩ := h
  have hidx : c.index = s.start + (Text.ofCodePoints cs).length := h.index
  have hahead : (s.text.take s.stop).drop s.start = Text.ofCodePoints cs ++ c.ahead := h.ahead
  have hdrop : (s.text.take s.stop).drop c.index = c.ahead := by
    rw [hidx, ← List.drop_drop, hahead, List.drop_left]
  have hpaired : c.paired = paired := h.paired
  rw [cursorAt, Text.slice, hdrop, ← hpaired]

/-- A place sees as far as the end of the slice, neither further nor less far. -/
theorem Holds.remaining (hs : s.Valid) (h : s.Holds paired c) :
    c.index + c.remaining = s.stop := by
  obtain ⟨cs, h⟩ := h
  have hlen := congrArg List.length h.ahead
  have hcontent := length_content hs
  have hidx : c.index = s.start + (Text.ofCodePoints cs).length := h.index
  have := hs.start_le_stop
  rw [List.length_append] at hlen
  rw [Cursor.remaining, hidx]
  have : s.content.length = (Text.ofCodePoints cs).length + c.ahead.length := hlen
  omega

/-- Places of a slice lie in it. -/
theorem Holds.le_stop (hs : s.Valid) (h : s.Holds paired c) : c.index ≤ s.stop := by
  have := h.remaining hs
  omega

/-- The units ahead of a place in a slice are those of the text. -/
theorem Holds.ahead_getElem? (hs : s.Valid) (h : s.Holds paired c) {k : Nat}
    (hk : k < c.remaining) : c.ahead[k]? = s.text[c.index + k]? := by
  have hrem := h.remaining hs
  have hahead : c.ahead = (s.text.take s.stop).drop c.index := congrArg Cursor.ahead h.eq_cursorAt
  rw [hahead, List.getElem?_drop, List.getElem?_take_of_lt (by omega)]

/-- The span between two places of a slice holds the text between their offsets. -/
theorem Holds.textTo_eq (hs : s.Valid) (hc : s.Holds paired c) (h : c.Reaches d) :
    c.textTo d.index = s.text.slice c.index d.index := by
  have hd : s.Holds paired d := hc.trans h
  have hahead : c.ahead = (s.text.take s.stop).drop c.index := congrArg Cursor.ahead hc.eq_cursorAt
  have hle := hd.le_stop hs
  rw [Cursor.textTo, hahead, Text.slice, List.drop_take, List.drop_take, List.take_take,
    Nat.min_eq_left (by omega)]

/-- Where surrogate pairs are single characters, no place of a slice separates one. -/
theorem Holds.isBoundary (hs : s.Valid) (h : s.Holds true c) : s.IsBoundary c.index := by
  intro i u v hi hi' hu hv hpair hidx
  have hremaining := h.remaining hs
  have hahead : c.ahead.head? = some v := by
    rw [List.head?_eq_getElem?, h.ahead_getElem? hs (by omega), hidx, Nat.add_zero, hv]
  obtain ⟨cs, h⟩ := h
  have hstart : c.index = s.start + (Text.ofCodePoints cs).length := h.index
  have hlast : (Text.ofCodePoints cs).getLast? = some u := by
    have hprefix : (s.text.take s.stop).drop s.start = Text.ofCodePoints cs ++ c.ahead := h.ahead
    have hget := congrArg (fun l => l[(Text.ofCodePoints cs).length - 1]?) hprefix
    simp only [List.getElem?_drop] at hget
    rw [List.getElem?_take_of_lt (by omega), List.getElem?_append_left (by omega)] at hget
    rw [List.getLast?_eq_getElem?, ← hget, ← hu]
    congr 1
    omega
  have hno := h.not_isPair rfl hlast hahead
  rw [hpair] at hno
  cases hno

theorem content_whole (t : Text) : (whole t).content = t := by
  simp [content, whole, Text.slice]

theorem cursor_whole (t : Text) (paired : Bool) : (whole t).cursor paired = ⟨0, t, paired⟩ :=
  congrArg (Cursor.mk 0 · paired) (content_whole t)

end Slice

end EcmaPattern
