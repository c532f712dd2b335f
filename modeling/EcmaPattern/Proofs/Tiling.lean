import EcmaPattern.Proofs.Passes
import EcmaPattern.Proofs.Resolution

/-!
# Tiling

The nodes of a tree tile the text that it was read from. Each node holds the text between its two
offsets, and `Node.LaidOut` says for each kind of node how its parts and the signs between them fill
that text without gap or overlap. Main statement: every tree that is returned is tiled
(`nodes_tile_source`). It follows from what one step of a derivation does (`Derives.tiled`).

The layout is defined on trees and texts alone, so the main statement can be read without knowing
how trees come about. Its proof has one lemma for each production: given that the parts are tiled
and where they stand, the node is. Resolution and the split of literals do not disturb it.

Key lemmas:

* `Node.Tiled.of_children`, from the children to the node;
* `Derives.tiled`, the induction over derivations;
* `Literal.delimited_of_patternLength`, that a literal is split at its slashes.
-/

namespace EcmaPattern

open EcmaPattern.Parser

/-! ## Parts of a text

The vocabulary of layouts: a text that is written at an offset, spans that follow each other
directly or with a sign in between, and spans that lie in a slice without separating a joined pair.
-/

/-- The characters stand in the text from an offset up to another. -/
def Text.Spells (t : Text) (i : Nat) (cs : List CodePoint) (j : Nat) : Prop :=
  j = i + (Text.ofCodePoints cs).length ∧ t.slice i j = Text.ofCodePoints cs

/-- The spans follow each other from an offset up to another, without gap or overlap. -/
def Contiguous : Nat → List Span → Nat → Prop
  | i, [], j => i = j
  | i, x :: xs, j => x.start = i ∧ Contiguous x.stop xs j

/-- The spans, at least one, follow each other from an offset up to another, with exactly one sign
between each two. -/
def Separated (t : Text) (sign : CodePoint) : Nat → List Span → Nat → Prop
  | _, [], _ => False
  | i, [x], j => x.start = i ∧ x.stop = j
  | i, x :: y :: xs, j =>
    x.start = i ∧ ∃ k, t.Spells x.stop [sign] k ∧ Separated t sign k (y :: xs) j

/-- The alternatives of a group fill the text up to its closing parenthesis. -/
def ClosesAfter (t : Text) (i : Nat) (qs : List Sequence) (j : Nat) : Prop :=
  ∃ k, Separated t '|' i (qs.map Sequence.span) k ∧ t.Spells k [')'] j

/-- The span lies in the slice and holds the text between its offsets. Where surrogate pairs are
single characters, neither offset separates one. -/
structure Span.LiesIn (slice : Slice) (paired : Bool) (x : Span) : Prop where
  start_le : slice.start ≤ x.start
  start_le_stop : x.start ≤ x.stop
  stop_le : x.stop ≤ slice.stop
  raw_eq : x.raw = slice.text.slice x.start x.stop
  boundary : paired = true → slice.IsBoundary x.start ∧ slice.IsBoundary x.stop

/-! ## The layout of nodes

For each kind of node, which signs stand where and which parts fill the rest. These are the
definitions that the main statement is about. -/

def CharSet.LaidOut (t : Text) : CharSet → Prop
  | character _ => True
  | escape .. => True
  | property .. => True
  | range s first last =>
    first.span.start = s.start ∧ t.Spells first.span.stop ['-'] last.span.start ∧
      last.span.stop = s.stop
  | strings s xs =>
    ∃ i j, t.Spells s.start ['\\', 'q', '{'] i ∧
      Separated t '|' i (xs.map ClassString.span) j ∧ t.Spells j ['}'] s.stop
  | operation s op left right =>
    left.span.start = s.start ∧
      t.Spells left.span.stop [.ofChar (operationSign op), .ofChar (operationSign op)]
        right.span.start ∧
      right.span.stop = s.stop
  | listing s negated _ elements =>
    ∃ i j, t.Spells s.start (classText negated) i ∧
      Contiguous i (elements.map CharSet.span) j ∧ t.Spells j [']'] s.stop
  | expression s negated contents =>
    t.Spells s.start (classText negated) contents.span.start ∧
      t.Spells contents.span.stop [']'] s.stop

def Term.LaidOut (t : Text) : Term → Prop
  | set s => s.LaidOut t
  | any _ => True
  | edge .. => True
  | wordBoundary .. => True
  | reference .. => True
  | look s direction negated qs =>
    ∃ i, t.Spells s.start (lookText direction negated) i ∧ ClosesAfter t i qs s.stop
  | group s none qs => ∃ i, t.Spells s.start ['(', '?', ':'] i ∧ ClosesAfter t i qs s.stop
  | group s (some m) qs =>
    t.Spells s.start ['(', '?'] m.span.start ∧
      ∃ i, t.Spells m.span.stop [':'] i ∧ ClosesAfter t i qs s.stop
  | capture s _ none qs => ∃ i, t.Spells s.start ['('] i ∧ ClosesAfter t i qs s.stop
  | capture s _ (some _) qs =>
    ∃ cs i,
      t.Spells s.start (.ofChar '(' :: .ofChar '?' :: .ofChar '<' :: (cs ++ [.ofChar '>'])) i ∧
      ClosesAfter t i qs s.stop
  | quantified s repetition element =>
    element.span.start = s.start ∧
      ∃ cs, QuantifierSpelling cs repetition ∧ t.Spells element.span.stop cs s.stop

namespace Node

/-- The parts of a node and the signs around them fill its text. -/
def LaidOut (t : Text) : Node → Prop
  | literal l =>
    t.Spells l.span.start ['/'] l.pattern.span.start ∧
      t.Spells l.pattern.span.stop ['/'] l.flags.span.start ∧ l.flags.span.stop = l.span.stop
  | pattern p => Separated t '|' p.span.start (p.alternatives.map Sequence.span) p.span.stop
  | flags _ => True
  | sequence q => Contiguous q.span.start (q.elements.map Term.span) q.span.stop
  | term e => e.LaidOut t
  | charSet x => x.LaidOut t
  | classString x => Contiguous x.span.start (x.characters.map Character.span) x.span.stop
  | modifiers m =>
    m.add.span.start = m.span.start ∧
      match m.remove with
      | none => m.add.span.stop = m.span.stop
      | some r => t.Spells m.add.span.stop ['-'] r.span.start ∧ r.span.stop = m.span.stop
  | modifierFlags _ => True

/-- Every node of the tree lies in the slice, and its parts fill its text. -/
def Tiled (slice : Slice) (paired : Bool) (root : Node) : Prop :=
  ∀ n ∈ root.descendants, n.span.LiesIn slice paired ∧ n.LaidOut slice.text

end Node

/-- The part of a tree fills the text between two places, and each of its nodes is tiled. -/
def Piece.Tiled (slice : Slice) (paired : Bool) (c : Cursor) (d : Cursor) : Piece → Prop
  | element x => x.span = .between c d ∧ (Node.charSet x).Tiled slice paired
  | charClass x => x.span = .between c d ∧ (Node.charSet x).Tiled slice paired
  | elements xs =>
    Contiguous c.index (xs.map CharSet.span) d.index ∧ ∀ x ∈ xs, (Node.charSet x).Tiled slice paired
  | term e => e.span = .between c d ∧ (Node.term e).Tiled slice paired
  | terms es =>
    Contiguous c.index (es.map Term.span) d.index ∧ ∀ e ∈ es, (Node.term e).Tiled slice paired
  | sequence q => q.span = .between c d ∧ (Node.sequence q).Tiled slice paired
  | alternatives qs =>
    Separated slice.text '|' c.index (qs.map Sequence.span) d.index ∧
      ∀ q ∈ qs, (Node.sequence q).Tiled slice paired
  | disjunction qs =>
    Separated slice.text '|' c.index (qs.map Sequence.span) d.index ∧
      ∀ q ∈ qs, (Node.sequence q).Tiled slice paired

/-! ## Places

From places to offsets: what has been read between two places of a slice is written there. -/

section Places

variable {slice : Slice} {paired : Bool} {c d : Cursor}

/-- What is read from a place of a slice is written there. -/
theorem Slice.Holds.spells (hv : slice.Valid) (hc : slice.Holds paired c) {cs : List CodePoint}
    (h : c.Reads cs d) : slice.text.Spells c.index cs d.index := by
  refine ⟨h.index, ?_⟩
  rw [← hc.textTo_eq hv h.reaches, h.textTo]

/-- The span between two places of a slice lies in it and separates no pair. -/
theorem Slice.Holds.liesIn (hv : slice.Valid) (hc : slice.Holds paired c) (h : c.Reaches d) :
    (Span.between c d).LiesIn slice paired where
  start_le := hc.start_le
  start_le_stop := h.index_le
  stop_le := (hc.trans h).le_stop hv
  raw_eq := hc.textTo_eq hv h
  boundary := by
    rintro rfl
    exact ⟨hc.isBoundary hv, (hc.trans h).isBoundary hv⟩

theorem start_of_between {x : Span} (h : x = .between c d) : x.start = c.index := by
  rw [h]
  rfl

theorem stop_of_between {x : Span} (h : x = .between c d) : x.stop = d.index := by
  rw [h]
  rfl

theorem Contiguous.cons {x : Span} {xs : List Span} {j : Nat} (hx : x = .between c d)
    (h : Contiguous d.index xs j) : Contiguous c.index (x :: xs) j := by
  refine ⟨start_of_between hx, ?_⟩
  rwa [stop_of_between hx]

theorem Separated.last {t : Text} {sign : CodePoint} {x : Span} (hx : x = .between c d) :
    Separated t sign c.index [x] d.index :=
  ⟨start_of_between hx, stop_of_between hx⟩

theorem Separated.cons {t : Text} {sign : CodePoint} {x : Span} {xs : List Span} {i j : Nat}
    (hx : x = .between c d) (hsign : t.Spells d.index [sign] i) (h : Separated t sign i xs j) :
    Separated t sign c.index (x :: xs) j := by
  cases xs with
  | nil => exact absurd h id
  | cons y ys =>
    refine ⟨start_of_between hx, i, ?_, h⟩
    rwa [stop_of_between hx]

/-- A set that stands for a term has the nodes of the set. -/
theorem Node.tiled_set {x : CharSet} :
    (Node.term (.set x)).Tiled slice paired ↔ (Node.charSet x).Tiled slice paired := by
  rw [Node.Tiled, Node.Tiled, Node.forall_descendants, Node.forall_descendants]
  exact Iff.rfl

/-- A node that fills the text between two places is tiled if it is laid out and the nodes under it
are tiled. -/
theorem Node.Tiled.of_children {n : Node} (hv : slice.Valid) (hc : slice.Holds paired c)
    (h : c.Reaches d) (hspan : n.span = .between c d) (hlaid : n.LaidOut slice.text)
    (hchildren : ∀ m ∈ n.children, m.Tiled slice paired) : n.Tiled slice paired := by
  rw [Node.Tiled, Node.forall_descendants, hspan]
  exact ⟨⟨hc.liesIn hv h, hlaid⟩, hchildren⟩

/-- A node without children is tiled if it spans what it is read from. -/
theorem Node.Tiled.of_leaf {n : Node} (hv : slice.Valid) (hc : slice.Holds paired c)
    (h : c.Reaches d) (hspan : n.span = .between c d) (hlaid : n.LaidOut slice.text)
    (hnil : n.children = []) : n.Tiled slice paired := by
  refine .of_children hv hc h hspan hlaid ?_
  rw [hnil]
  exact List.forall_mem_nil _

end Places

/-! ## One step

For each thing that is read in one step, and then for each production, that its node is tiled. -/

section Steps

variable {slice : Slice} {paired : Bool} {g : Grammar} {s t : State} (hv : slice.Valid)

include hv

/-- A character that is read is tiled. -/
theorem ReadsCharacter.tiled {p : Place} {c : Character} (h : ReadsCharacter g p s c t)
    (hs : slice.Holds paired s.cursor) : (Node.charSet (.character c)).Tiled slice paired :=
  .of_leaf hv hs h.reaches h.span_eq trivial rfl

theorem ReadsSetEscape.tiled {x : CharSet} (h : ReadsSetEscape g s x t)
    (hs : slice.Holds paired s.cursor) :
    x.span = .between s.cursor t.cursor ∧ (Node.charSet x).Tiled slice paired := by
  have hreaches := h.reaches
  cases h with
  | mk h hr =>
    cases h with
    | letter _ => exact ⟨rfl, .of_leaf hv hs hreaches rfl trivial rfl⟩
    | property => exact ⟨rfl, .of_leaf hv hs hreaches rfl trivial rfl⟩

/-- Characters that are read one after the other are tiled, each beginning where the last one ends.
-/
theorem Chain.tiled {p : Place} {cs : List Character} (h : Chain (ReadsCharacter g p) s cs t)
    (hs : slice.Holds paired s.cursor) :
    Contiguous s.cursor.index (cs.map Character.span) t.cursor.index ∧
      ∀ c ∈ cs, (Node.charSet (.character c)).Tiled slice paired := by
  induction h with
  | nil s => exact ⟨rfl, nofun⟩
  | cons head _ ih =>
    obtain ⟨hspans, htiled⟩ := ih (hs.trans head.reaches)
    exact ⟨.cons head.span_eq hspans, List.forall_mem_cons.mpr ⟨head.tiled hv hs, htiled⟩⟩

theorem ReadsString.tiled {x : ClassString} (h : ReadsString g s x t)
    (hs : slice.Holds paired s.cursor) :
    x.span = .between s.cursor t.cursor ∧ (Node.classString x).Tiled slice paired := by
  have hreaches := h.reaches
  cases h with
  | mk h =>
    obtain ⟨hspans, htiled⟩ := h.tiled hv hs
    refine ⟨rfl, .of_children hv hs hreaches rfl hspans ?_⟩
    rw [Node.children_classString, List.forall_mem_map]
    exact htiled

/-- Quoted strings are tiled, with bars between them. -/
theorem ReadsStrings.tiled {xs : List ClassString} (h : ReadsStrings g s xs t)
    (hs : slice.Holds paired s.cursor) :
    Separated slice.text '|' s.cursor.index (xs.map ClassString.span) t.cursor.index ∧
      ∀ x ∈ xs, (Node.classString x).Tiled slice paired := by
  induction h with
  | last h =>
    obtain ⟨hspan, htiled⟩ := h.tiled hv hs
    exact ⟨.last hspan, List.forall_mem_singleton.mpr htiled⟩
  | cons h hbar _ ih =>
    obtain ⟨hspan, htiled⟩ := h.tiled hv hs
    have ht := hs.trans h.reaches
    obtain ⟨hspans, htileds⟩ := ih (ht.trans hbar.cursor.reaches)
    exact ⟨.cons hspan (ht.spells hv hbar.cursor) hspans,
      List.forall_mem_cons.mpr ⟨htiled, htileds⟩⟩

theorem ReadsFlags.tiled {f : ModifierFlags} (h : ReadsFlags s f t)
    (hs : slice.Holds paired s.cursor) :
    f.span = .between s.cursor t.cursor ∧ (Node.modifierFlags f).Tiled slice paired := by
  have hreaches := h.reaches
  cases h with
  | mk _ _ hspan => exact ⟨hspan, .of_leaf hv hs hreaches hspan trivial rfl⟩

/-- Modifiers that are read are tiled. -/
theorem ReadsModifiers.tiled {m : Modifiers} (h : ReadsModifiers s m t)
    (hs : slice.Holds paired s.cursor) :
    m.span = .between s.cursor t.cursor ∧ (Node.modifiers m).Tiled slice paired := by
  have hreaches := h.reaches
  cases h with
  | add h =>
    obtain ⟨hspan, htiled⟩ := h.tiled hv hs
    refine ⟨rfl, .of_children hv hs hreaches rfl ?_ ?_⟩
    · exact ⟨start_of_between hspan, stop_of_between hspan⟩
    · intro n hn
      simp [Node.children, Node.fields, Field.parts] at hn
      subst hn
      exact htiled
  | remove h hr h' =>
    obtain ⟨hspan, htiled⟩ := h.tiled hv hs
    have ht := hs.trans h.reaches
    obtain ⟨hspan', htiled'⟩ := h'.tiled hv (ht.trans hr.cursor.reaches)
    refine ⟨rfl, .of_children hv hs hreaches rfl ?_ ?_⟩
    · refine ⟨start_of_between hspan, ?_, stop_of_between hspan'⟩
      rw [hspan, hspan']
      exact ht.spells hv hr.cursor
    · intro n hn
      simp [Node.children, Node.fields, Field.parts] at hn
      rcases hn with rfl | rfl
      · exact htiled
      · exact htiled'

/-- Alternatives that end before a closing parenthesis, and the nodes under them. -/
theorem Piece.Tiled.closesAfter {c d e : Cursor} {qs : List Sequence}
    (h : (Piece.disjunction qs).Tiled slice paired c d) (hd : slice.Holds paired d)
    (hclose : d.Reads [.ofChar ')'] e) : ClosesAfter slice.text c.index qs e.index :=
  ⟨d.index, h.1, hd.spells hv hclose⟩

/-- A node that holds alternatives between an opening text and a closing parenthesis is tiled if it
is laid out accordingly. -/
theorem Piece.Tiled.enclosed {b c d e : Cursor} {n : Node} {opening : List CodePoint}
    {qs : List Sequence} (h : (Piece.disjunction qs).Tiled slice paired c d)
    (hb : slice.Holds paired b) (hopen : b.Reads opening c) (hreaches : c.Reaches d)
    (hclose : d.Reads [.ofChar ')'] e) (hspan : n.span = .between b e)
    (hchildren : n.children = qs.map .sequence)
    (hlaid : ∀ i, slice.text.Spells b.index opening i → ClosesAfter slice.text i qs e.index →
      n.LaidOut slice.text) : n.Tiled slice paired := by
  have hd := (hb.trans hopen.reaches).trans hreaches
  have hall := hopen.reaches.trans (hreaches.trans hclose.reaches)
  have hlaid := hlaid c.index (hb.spells hv hopen) (h.closesAfter hv hd hclose)
  refine .of_children hv hb hall hspan hlaid ?_
  rw [hchildren, List.forall_mem_map]
  exact h.2

/-- What is derived between two places of a slice is tiled. -/
theorem Derives.tiled {x : Piece} (h : Derives g s x t) (hs : slice.Holds paired s.cursor) :
    x.Tiled slice paired s.cursor t.cursor := by
  have hreaches := h.reaches
  -- along the derivation each step finds the parts of its node next to one another
  induction h with
  | character h => exact ⟨h.span_eq, h.tiled hv hs⟩
  | setEscape h => exact h.tiled hv hs
  | range hc hdash hd _ =>
    have ht := hs.trans hc.reaches
    refine ⟨rfl, .of_children hv hs hreaches rfl ?_ ?_⟩
    · refine ⟨start_of_between hc.span_eq, ?_, stop_of_between hd.span_eq⟩
      rw [hc.span_eq, hd.span_eq]
      exact ht.spells hv hdash.cursor
    · rw [Node.children_range, List.forall_mem_cons, List.forall_mem_singleton]
      exact ⟨hc.tiled hv hs, hd.tiled hv (ht.trans hdash.cursor.reaches)⟩
  | strings _ hopen h hclose =>
    have ht := hs.trans hopen.cursor.reaches
    obtain ⟨hspans, htiled⟩ := h.tiled hv ht
    refine ⟨rfl, .of_children hv hs hreaches rfl ?_ ?_⟩
    · exact ⟨_, _, hs.spells hv hopen.cursor, hspans, (ht.trans h.reaches).spells hv hclose.cursor⟩
    · rw [Node.children_strings, List.forall_mem_map]
      exact htiled
  | operation _ hx hsign hy ihx ihy =>
    obtain ⟨hspan, htiled⟩ := ihx hs hx.reaches
    have ht := hs.trans hx.reaches
    obtain ⟨hspan', htiled'⟩ := ihy (ht.trans hsign.cursor.reaches) hy.reaches
    refine ⟨rfl, .of_children hv hs hreaches rfl ?_ ?_⟩
    · refine ⟨start_of_between hspan, ?_, stop_of_between hspan'⟩
      rw [hspan, hspan']
      exact ht.spells hv hsign.cursor
    · rw [Node.children_operation, List.forall_mem_cons, List.forall_mem_singleton]
      exact ⟨htiled, htiled'⟩
  | nested _ h ih => exact ih hs h.reaches
  | noElement s => exact ⟨rfl, nofun⟩
  | consElement h hxs ih ihs =>
    obtain ⟨hspan, htiled⟩ := ih hs h.reaches
    obtain ⟨hspans, htileds⟩ := ihs (hs.trans h.reaches) hxs.reaches
    exact ⟨.cons hspan hspans, List.forall_mem_cons.mpr ⟨htiled, htileds⟩⟩
  | listing hopen h hclose _ ih =>
    have ht := hs.trans hopen.cursor.reaches
    obtain ⟨hspans, htiled⟩ := ih ht h.reaches
    refine ⟨rfl, .of_children hv hs hreaches rfl ?_ ?_⟩
    · exact ⟨_, _, hs.spells hv hopen.cursor, hspans, (ht.trans h.reaches).spells hv hclose.cursor⟩
    · rw [Node.children_listing, List.forall_mem_map]
      exact htiled
  | expression _ hopen h hclose _ _ ih =>
    have ht := hs.trans hopen.cursor.reaches
    obtain ⟨hspan, htiled⟩ := ih ht h.reaches
    refine ⟨rfl, .of_children hv hs hreaches rfl ?_ ?_⟩
    · show slice.text.Spells _ _ _ ∧ slice.text.Spells _ _ _
      rw [hspan]
      exact ⟨hs.spells hv hopen.cursor, (ht.trans h.reaches).spells hv hclose.cursor⟩
    · rw [Node.children_expression, List.forall_mem_singleton]
      exact htiled
  | termCharacter h _ => exact ⟨h.span_eq, Node.tiled_set.mpr (h.tiled hv hs)⟩
  | termEscape h =>
    obtain ⟨hspan, htiled⟩ := h.tiled hv hs
    exact ⟨hspan, Node.tiled_set.mpr htiled⟩
  | termClass h ih =>
    obtain ⟨hspan, htiled⟩ := ih hs h.reaches
    exact ⟨hspan, Node.tiled_set.mpr htiled⟩
  | any _ => exact ⟨rfl, .of_leaf hv hs hreaches rfl trivial rfl⟩
  | edge _ => exact ⟨rfl, .of_leaf hv hs hreaches rfl trivial rfl⟩
  | wordBoundary _ => exact ⟨rfl, .of_leaf hv hs hreaches rfl trivial rfl⟩
  | look _ hopen h hclose ih =>
    have hqs := ih (hs.trans hopen.cursor.reaches) h.reaches
    refine ⟨rfl, hqs.enclosed hv hs hopen.cursor h.reaches hclose.cursor rfl
      (Node.children_look _ _ _ _) ?_⟩
    exact fun i hi hcloses => ⟨i, hi, hcloses⟩
  | group hopen h hclose ih =>
    have hqs := ih (hs.trans hopen.cursor.reaches) h.reaches
    refine ⟨rfl, hqs.enclosed hv hs hopen.cursor h.reaches hclose.cursor rfl
      (Node.children_group_none _ _) ?_⟩
    exact fun i hi hcloses => ⟨i, hi, hcloses⟩
  | modifiedGroup _ hopen hm hcolon h hclose ih =>
    have ht := hs.trans hopen.cursor.reaches
    have hu := ht.trans hm.reaches
    have hw := hu.trans hcolon.cursor.reaches
    obtain ⟨hspan, htiled⟩ := hm.tiled hv ht
    have hqs := ih hw h.reaches
    have hcloses := hqs.closesAfter hv (hw.trans h.reaches) hclose.cursor
    refine ⟨rfl, .of_children hv hs hreaches rfl ?_ ?_⟩
    · show slice.text.Spells _ _ _ ∧ ∃ i, slice.text.Spells _ _ i ∧ _
      rw [hspan]
      exact ⟨hs.spells hv hopen.cursor, _, hu.spells hv hcolon.cursor, hcloses⟩
    · rw [Node.children_group_some, List.forall_mem_cons, List.forall_mem_map]
      exact ⟨htiled, hqs.2⟩
  | capture hopen _ h hclose ih =>
    have hqs := ih (hs.trans hopen.cursor.reaches) h.reaches
    refine ⟨rfl, hqs.enclosed hv hs hopen.cursor h.reaches hclose.cursor rfl
      (Node.children_capture _ _ _ _) ?_⟩
    exact fun i hi hcloses => ⟨i, hi, hcloses⟩
  | namedCapture _ _ _ hopen h hclose ih =>
    have hqs := ih (hs.trans hopen.cursor.reaches) h.reaches
    refine ⟨rfl, hqs.enclosed hv hs hopen.cursor h.reaches hclose.cursor rfl
      (Node.children_capture _ _ _ _) ?_⟩
    exact fun i hi hcloses => ⟨_, i, hi, hcloses⟩
  | numbered _ _ _ _ _ => exact ⟨rfl, .of_leaf hv hs hreaches rfl trivial rfl⟩
  | named _ _ _ => exact ⟨rfl, .of_leaf hv hs hreaches rfl trivial rfl⟩
  | quantified h hq hr ih =>
    obtain ⟨hspan, htiled⟩ := ih hs h.reaches
    refine ⟨rfl, .of_children hv hs hreaches rfl ?_ ?_⟩
    · refine ⟨start_of_between hspan, _, hq, ?_⟩
      rw [hspan]
      exact (hs.trans h.reaches).spells hv hr.cursor
    · rw [Node.children_quantified, List.forall_mem_singleton]
      exact htiled
  | noTerm s => exact ⟨rfl, nofun⟩
  | consTerm h hes ih ihs =>
    obtain ⟨hspan, htiled⟩ := ih hs h.reaches
    obtain ⟨hspans, htileds⟩ := ihs (hs.trans h.reaches) hes.reaches
    exact ⟨.cons hspan hspans, List.forall_mem_cons.mpr ⟨htiled, htileds⟩⟩
  | sequence h ih =>
    obtain ⟨hspans, htiled⟩ := ih hs hreaches
    refine ⟨rfl, .of_children hv hs hreaches rfl hspans ?_⟩
    rw [Node.children_sequence, List.forall_mem_map]
    exact htiled
  | lastAlternative _ ih =>
    obtain ⟨hspan, htiled⟩ := ih hs hreaches
    exact ⟨.last hspan, List.forall_mem_singleton.mpr htiled⟩
  | consAlternative h hbar hqs ih ihs =>
    obtain ⟨hspan, htiled⟩ := ih hs h.reaches
    have ht := hs.trans h.reaches
    obtain ⟨hspans, htileds⟩ := ihs (ht.trans hbar.cursor.reaches) hqs.reaches
    exact ⟨.cons hspan (ht.spells hv hbar.cursor) hspans,
      List.forall_mem_cons.mpr ⟨htiled, htileds⟩⟩
  | disjunction _ ih => exact ih hs hreaches

end Steps

/-! ## Resolved trees

Layouts speak of spans and kinds, which resolution keeps. -/

section Resolved

variable (f : GroupName → List Nat)

theorem Term.map_span_resolveAll (qs : List Sequence) :
    (resolveAll f qs).map Sequence.span = qs.map Sequence.span := by
  rw [resolveAll_eq, List.map_map]
  exact List.map_congr_left fun q _ => span_resolveSequence f q

/-- How a term is laid out does not depend on what its references mean. -/
theorem Term.laidOut_resolve {t : Text} {e : Term} : (e.resolve f).LaidOut t ↔ e.LaidOut t := by
  cases e with
  | look => simp only [resolve, Term.LaidOut, ClosesAfter, map_span_resolveAll]
  | group span m => cases m <;> simp only [resolve, Term.LaidOut, ClosesAfter, map_span_resolveAll]
  | capture span index name =>
    cases name <;> simp only [resolve, Term.LaidOut, ClosesAfter, map_span_resolveAll]
  | quantified => simp only [resolve, Term.LaidOut, span_resolve]
  | reference span target => cases target <;> simp [resolve, Term.LaidOut]
  | _ => simp [resolve]

/-- Resolving named references leaves the layout as it is. -/
theorem Node.laidOut_resolve {t : Text} {n : Node} : (n.resolve f).LaidOut t ↔ n.LaidOut t := by
  cases n with
  | pattern p => simp only [resolve, Pattern.resolve, LaidOut, Term.map_span_resolveAll]
  | sequence q =>
    cases q
    simp only [resolve, Term.resolveSequence, LaidOut, Sequence.elements, Sequence.span,
      Term.resolveTerms_eq, List.map_map, Function.comp_def, Term.span_resolve]
  | term e => exact Term.laidOut_resolve f
  | _ => exact Iff.rfl

/-- A tiled tree stays tiled when its references are resolved. -/
theorem Node.Tiled.resolve {slice : Slice} {paired : Bool} {n : Node} (h : n.Tiled slice paired) :
    (n.resolve f).Tiled slice paired := by
  intro m hm
  rw [descendants_resolve] at hm
  obtain ⟨k, hk, rfl⟩ := List.mem_map.mp hm
  rw [span_resolve, laidOut_resolve]
  exact h k hk

end Resolved

/-! ## Patterns

A pass reads the whole slice, so its pattern spans it. -/

def Slice.span (s : Slice) : Span := ⟨s.start, s.stop, s.content⟩

/-- A pass that succeeds has read all of the slice. -/
theorem Pattern.tiled_of_pass {rule : DuplicateRule} {o : Options} {flags : FlagSet} {named : Bool}
    {slice : Slice} {paired : Bool} {p : Pattern} {scope : GroupScope} (hv : slice.Valid)
    (h : pass rule o flags named (slice.cursor paired) = .ok (p, scope)) :
    p.span = slice.span ∧ (Node.pattern p).Tiled slice paired := by
  obtain ⟨qs, t, hqs, hnone, -, rfl⟩ := derives_of_pass h
  have hs := slice.holds_cursor paired
  have ht := hs.trans hqs.reaches
  obtain ⟨hspans, htiled⟩ := hqs.tiled hv hs
  have hstop : t.cursor.index = slice.stop := by
    have hrem := ht.remaining hv
    rw [Cursor.remaining, Cursor.current_eq_none.mp hnone] at hrem
    exact hrem
  refine ⟨?_, ?_⟩
  · show Span.between (slice.cursor paired) t.cursor = slice.span
    rw [Span.between, hs.textTo_eq hv hqs.reaches, hstop]
    rfl
  · refine Node.Tiled.resolve (n := .pattern ⟨_, qs⟩) _
      (.of_children hv hs hqs.reaches rfl hspans ?_)
    rw [Node.children_pattern, List.forall_mem_map]
    exact htiled

/-! ## Literals

The two slashes and what lies around them. An ASCII unit is no half of a pair, so the offsets on
both sides of a slash separate none. -/

section Literals

variable {slice : Slice}

theorem Slice.isBoundary_start (s : Slice) : s.IsBoundary s.start := by
  intro i u v hi _ _ _ _ h
  omega

theorem Slice.isBoundary_stop (s : Slice) : s.IsBoundary s.stop := by
  intro i u v _ hi _ _ _ h
  omega

/-- A slash belongs to no surrogate pair. -/
theorem Text.Spells.isBoundary_slash {i j : Nat} (h : slice.text.Spells i ['/'] j) :
    slice.IsBoundary i ∧ slice.IsBoundary j := by
  obtain ⟨rfl, h⟩ := h
  have hslash : Text.ofCodePoints [.ofChar '/'] = [0x2F] := by decide
  have hunit : slice.text[i]? = some 0x2F := by
    have hget := congrArg (fun l => l[0]?) h
    simp only [hslash, Text.slice, List.getElem?_drop, Nat.add_zero] at hget
    rw [List.getElem?_take_of_lt (by simp)] at hget
    exact hget
  refine ⟨?_, ?_⟩
  · intro k u v _ _ _ hv hpair hk
    obtain rfl : i = k + 1 := hk
    rw [hunit] at hv
    cases hv
    rw [Text.isPair, Bool.and_eq_true] at hpair
    exact absurd hpair.2 (by decide)
  · intro k u v _ _ hu _ hpair hk
    obtain rfl : i = k := by
      simp only [hslash, List.length_singleton] at hk
      omega
    rw [hunit] at hu
    cases hu
    rw [Text.isPair, Bool.and_eq_true] at hpair
    exact absurd hpair.1 (by decide)

/-- What lies in a part of a slice lies in the slice, provided that the part cuts no pair. -/
theorem Span.LiesIn.widen {paired : Bool} {x : Span} {start stop : Nat}
    (h : x.LiesIn { slice with start := start, stop := stop } paired) (hstart : slice.start ≤ start)
    (hstop : stop ≤ slice.stop) (hb : slice.IsBoundary start) (hb' : slice.IsBoundary stop) :
    x.LiesIn slice paired := by
  have hwiden : ∀ offset, start ≤ offset → offset ≤ stop →
      Slice.IsBoundary { slice with start := start, stop := stop } offset →
      slice.IsBoundary offset := by
    intro offset hle hle' hinner i u v hi hi' hu hv hpair hoffset
    by_cases hcut : offset = start
    · exact hb i u v hi hi' hu hv hpair (hcut ▸ hoffset)
    · by_cases hcut' : offset = stop
      · exact hb' i u v hi hi' hu hv hpair (hcut' ▸ hoffset)
      · refine hinner i u v ?_ ?_ hu hv hpair hoffset
        · show start ≤ i
          omega
        · show i + 1 < stop
          omega
  have h₁ : start ≤ x.start := h.start_le
  have h₂ : x.stop ≤ stop := h.stop_le
  have h₃ := h.start_le_stop
  refine ⟨by omega, h₃, by omega, h.raw_eq, ?_⟩
  intro hp
  obtain ⟨hleft, hright⟩ := h.boundary hp
  exact ⟨hwiden _ h₁ (by omega) hleft, hwiden _ (by omega) h₂ hright⟩

/-- The slice begins with a slash, and a second one follows so many units after it. -/
structure Literal.Delimited (slice : Slice) (length : Nat) : Prop where
  opening : slice.text.Spells slice.start ['/'] (slice.start + 1)
  closing : slice.text.Spells (slice.start + length + 1) ['/'] (slice.start + length + 2)
  le_stop : slice.start + length + 2 ≤ slice.stop

/-- A literal that is split where a slash stands is tiled: its pattern, its flags, and the slashes
around the pattern. -/
theorem Literal.tiled_of_readParts {o : Options} {length : Nat} {l : Literal} (hv : slice.Valid)
    (hd : Delimited slice length) (h : readParts o slice length = .ok l) :
    l.span = slice.span ∧
      l.pattern.span = Slice.span ⟨slice.text, slice.start + 1, slice.start + length + 1⟩ ∧
      (Node.literal l).Tiled slice l.flags.set.unicodeMode := by
  obtain ⟨set, -, hflags, hpattern, hspan⟩ := readParts_eq_ok.mp h
  obtain ⟨named, scope, hpass⟩ := Pattern.pass_of_read hpattern
  have hle := hd.le_stop
  have hlength := hv.stop_le_length
  have hvalid : Slice.Valid ⟨slice.text, slice.start + 1, slice.start + length + 1⟩ :=
    ⟨by simp only; omega, by simp only; omega⟩
  obtain ⟨hpspan, htiled⟩ := Pattern.tiled_of_pass hvalid hpass
  obtain ⟨hb₀, hb₁⟩ := hd.opening.isBoundary_slash
  obtain ⟨hb₂, hb₃⟩ := hd.closing.isBoundary_slash
  have hset : l.flags.set = set := by rw [hflags]
  refine ⟨hspan, hpspan, ?_⟩
  rw [hset, Node.Tiled, Node.forall_descendants]
  -- the literal itself, what it is laid out as, and the nodes of its two parts
  refine ⟨⟨?_, ?_⟩, ?_⟩
  · show l.span.LiesIn _ _
    rw [hspan]
    exact ⟨Nat.le_refl _, hv.start_le_stop, Nat.le_refl _, rfl,
      fun _ => ⟨slice.isBoundary_start, slice.isBoundary_stop⟩⟩
  · show Text.Spells _ _ _ _ ∧ Text.Spells _ _ _ _ ∧ _
    rw [hspan, hpspan, hflags]
    exact ⟨hd.opening, hd.closing, rfl⟩
  · intro c hc
    rw [Node.children_literal] at hc
    rcases List.mem_cons.mp hc with rfl | hc
    · intro n hn
      obtain ⟨hlies, hlaid⟩ := htiled n hn
      exact ⟨hlies.widen (by omega) (by omega) hb₁ hb₂, hlaid⟩
    · rw [List.mem_singleton.mp hc, Node.forall_descendants]
      refine ⟨⟨?_, trivial⟩, ?_⟩
      · show l.flags.span.LiesIn _ _
        rw [hflags]
        exact ⟨by simp only; omega, hle, Nat.le_refl _, rfl, fun _ => ⟨hb₃, slice.isBoundary_stop⟩⟩
      · rw [Node.children_flags]
        intro m hm
        exact absurd hm List.not_mem_nil

/-! ### Where the slashes stand

The scan for the second slash counts units; that a slash stands at the offset it gives is shown by
induction on the text. -/

theorem Text.ofString_slash : Text.ofString "/" = [0x2F] := by decide

theorem Text.spells_slash {t : Text} {i : Nat} (h : t[i]? = some 0x2F) :
    t.Spells i ['/'] (i + 1) := by
  have hslash : Text.ofCodePoints [.ofChar '/'] = [0x2F] := by decide
  refine ⟨by rw [hslash]; rfl, ?_⟩
  obtain ⟨hlt, hget⟩ := List.getElem?_eq_some_iff.mp h
  rw [hslash, Text.slice, List.drop_take, Nat.add_sub_cancel_left, List.drop_eq_getElem_cons hlt,
    List.take_succ_cons, List.take_zero, hget]

theorem CodePoint.eq_slash_of_ofUnit {u : CodeUnit} (h : ofUnit u = ofChar '/') : u = 0x2F := by
  have hval : u.toNat = 0x2F := congrArg Fin.val h
  exact UInt16.toNat_inj.mp hval

/-- The scan for the end of a pattern stops at a slash. -/
theorem Literal.bodyLength_eq_ok {inClass escaped : Bool} {body : Text} {position n : Nat}
    (h : bodyLength inClass escaped body position = .ok n) :
    ∃ k, n = position + k ∧ body[k]? = some 0x2F := by
  induction body generalizing inClass escaped position with
  | nil => simp [bodyLength] at h
  | cons u rest ih =>
    -- every branch but the last but one goes on behind the unit
    have hstep : ∀ {a b : Bool}, bodyLength a b rest (position + 1) = .ok n →
        ∃ k, n = position + k ∧ (u :: rest)[k]? = some 0x2F := by
      intro a b h
      obtain ⟨k, rfl, hk⟩ := ih h
      exact ⟨k + 1, by omega, hk⟩
    rw [bodyLength] at h
    split at h
    · cases h
    split at h
    · exact hstep h
    split at h
    · exact hstep h
    split at h
    · exact hstep h
    split at h
    · exact hstep h
    split at h
    · next hslash =>
      cases h
      simp only [Bool.and_eq_true, beq_iff_eq] at hslash
      refine ⟨0, rfl, ?_⟩
      rw [CodePoint.eq_slash_of_ofUnit hslash.1]
      rfl
    · exact hstep h

/-- A unit of the contents is a unit of the text, before the end of the slice. -/
theorem Slice.content_getElem? {k : Nat} {u : CodeUnit} (h : slice.content[k]? = some u) :
    slice.text[slice.start + k]? = some u ∧ slice.start + k < slice.stop := by
  rw [Slice.content, Text.slice, List.getElem?_drop, List.getElem?_take] at h
  split at h
  · next hlt => exact ⟨h, hlt⟩
  · cases h

/-- The scan for the end of the pattern splits a literal at its slashes. -/
theorem Literal.delimited_of_patternLength {length : Nat} (h : patternLength slice = .ok length) :
    Delimited slice length := by
  rw [patternLength] at h
  cases hcontent : slice.content with
  | nil => simp [hcontent] at h
  | cons u body =>
    simp only [hcontent] at h
    split at h
    · next hslash =>
      obtain rfl := CodePoint.eq_slash_of_ofUnit (eq_of_beq hslash)
      have hopening := slice.content_getElem? (k := 0) (by rw [hcontent]; rfl)
      split at h
      · cases h
      · obtain ⟨k, hk, hclosing⟩ := bodyLength_eq_ok (Except.mapError_eq_ok.mp h)
        obtain rfl : length = k := by omega
        have hclosing := slice.content_getElem? (k := length + 1) (by rw [hcontent]; exact hclosing)
        exact ⟨Text.spells_slash hopening.1, Text.spells_slash hclosing.1, hclosing.2⟩
    · cases h

theorem Literal.join_eq (source flags : Text) :
    join source flags = 0x2F :: (source ++ 0x2F :: flags) := by
  simp [join, Text.ofString_slash]

/-- A pattern and flags that are put together are split where they were put together. -/
theorem Literal.delimited_join (source flags : Text) :
    Delimited (.whole (join source flags)) source.length := by
  have hjoin := join_eq source flags
  refine ⟨Text.spells_slash ?_, Text.spells_slash ?_, ?_⟩
  · show (join source flags)[0]? = _
    rw [hjoin]
    rfl
  · show (join source flags)[0 + source.length + 1]? = _
    rw [hjoin, Nat.zero_add, List.getElem?_cons_succ, List.getElem?_append_right (Nat.le_refl _),
      Nat.sub_self]
    rfl
  · show 0 + source.length + 2 ≤ (join source flags).length
    rw [hjoin, List.length_cons, List.length_append, List.length_cons]
    omega

theorem Slice.valid_whole (t : Text) : (whole t).Valid := ⟨Nat.zero_le _, Nat.le_refl _⟩

/-- The pattern of a joined literal. -/
theorem Literal.content_source (source flags : Text) :
    Slice.content ⟨join source flags, 1, source.length + 1⟩ = source := by
  simp [Slice.content, Text.slice, join_eq]

/-- The flags of a joined literal. -/
theorem Literal.content_flags (source flags : Text) :
    Slice.content ⟨join source flags, source.length + 2, (join source flags).length⟩ = flags := by
  rw [Slice.content, Text.slice, List.take_length, join_eq, List.drop_succ_cons,
    List.drop_length_add_append]
  rfl

end Literals

/-! ## Answers

The main statement, for requests of every kind, and a case of it. -/

/-- In every tree that is returned each node lies in the slice that was parsed and holds the text
between its offsets, and the parts of each node and the signs between them fill its text. A pattern
covers its slice and, in a literal, the text between the slashes. Where patterns are read by code
points, no offset of a node separates a surrogate pair. -/
theorem nodes_tile_source (o : Options) :
    (∀ choice slice p, slice.Valid → parsePattern o choice slice = .ok p →
      ∃ flags, choice.resolve o.edition = .ok flags ∧ p.span = slice.span ∧
        (Node.pattern p).Tiled slice flags.unicodeMode) ∧
    (∀ slice l, slice.Valid → parseLiteral o slice = .ok l →
      l.span = slice.span ∧ (Node.literal l).Tiled slice l.flags.set.unicodeMode) ∧
    (∀ source flags l, parseParts o source flags = .ok l →
      l.span = (Slice.whole (Literal.join source flags)).span ∧
        l.pattern.span = ⟨1, source.length + 1, source⟩ ∧
        (Node.literal l).Tiled (.whole (Literal.join source flags)) l.flags.set.unicodeMode) := by
  refine ⟨?_, ?_, ?_⟩
  · intro choice slice p hv h
    obtain ⟨flags, hflags, hread⟩ := parsePattern_eq_ok.mp h
    obtain ⟨named, scope, hpass⟩ := Pattern.pass_of_read hread
    exact ⟨flags, hflags, Pattern.tiled_of_pass hv hpass⟩
  · intro slice l hv h
    obtain ⟨length, hlength, hread⟩ := parseLiteral_eq_ok.mp h
    obtain ⟨hspan, -, htiled⟩ :=
      Literal.tiled_of_readParts hv (Literal.delimited_of_patternLength hlength) hread
    exact ⟨hspan, htiled⟩
  · intro source flags l h
    obtain ⟨hspan, hpattern, htiled⟩ := Literal.tiled_of_readParts (Slice.valid_whole _)
      (Literal.delimited_join source flags) (parseParts_eq_ok.mp h)
    refine ⟨hspan, ?_, htiled⟩
    rw [hpattern]
    simp [Slice.span, Slice.content, Slice.whole, Text.slice, Literal.join, Text.ofString_slash]

theorem nodes_tile_source_at_slice :
    ∃ p, parsePattern (.ofEdition .es2025 false) (.text ['u'])
        ⟨.ofString "a(?<n>[^😀-😂\\d]|\\k<n>{2})b", 1, 26⟩ = .ok p ∧
      p.span = Slice.span ⟨.ofString "a(?<n>[^😀-😂\\d]|\\k<n>{2})b", 1, 26⟩ ∧
      (Node.pattern p).Tiled ⟨.ofString "a(?<n>[^😀-😂\\d]|\\k<n>{2})b", 1, 26⟩ true := by
  obtain ⟨p, hp⟩ : ∃ p, parsePattern (.ofEdition .es2025 false) (.text ['u'])
      ⟨.ofString "a(?<n>[^😀-😂\\d]|\\k<n>{2})b", 1, 26⟩ = .ok p :=
    Except.exists_eq_ok (by decide +kernel)
  have hv : Slice.Valid ⟨.ofString "a(?<n>[^😀-😂\\d]|\\k<n>{2})b", 1, 26⟩ :=
    ⟨by decide, by decide +kernel⟩
  obtain ⟨flags, hflags, hspan, htiled⟩ := (nodes_tile_source _).1 _ _ p hv hp
  have hmode : flags.unicodeMode = true := by
    have hread : FlagSet.read .es2025 ['u'] = .ok { unicode := true } := by rfl
    have hresolve : FlagChoice.resolve .es2025 (.text ['u']) =
        .ok { unicode := true } := by
      rw [FlagChoice.resolve, readFlags, hread]
      rfl
    rw [Options.ofEdition, hresolve] at hflags
    cases hflags
    rfl
  rw [hmode] at htiled
  exact ⟨p, hp, hspan, htiled⟩

end EcmaPattern
