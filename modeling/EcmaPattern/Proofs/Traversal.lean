import EcmaPattern.Proofs.Fragments.Answers
import EcmaPattern.Proofs.QuantifierText
import EcmaPattern.Proofs.Tiling
import EcmaPattern.Proofs.Traces.Answers

/-!
# Traversal

A walk comes to the parts of a node in the order in which they start. In the trees that are returned
the parts of each node lie in it one after the other (`Node.Orderly`), so this is the order of the
text, and no part is a part of another. A walk over such a tree enters each node once and leaves it
once, the calls for a node enclose those for the nodes below it, and nodes are entered in the order
in which they start and left in the order in which they end (`walks_nest_in_text_order`).

Key lemmas:

* `Node.LaidOut.orderly`, with one case for each kind of node;
* `Node.balanced_calls` and `Node.InTextOrder.pairwise_calls`, on the calls of a whole walk;
* `Node.visit_eq_filter`, by which a walk that calls only some of the hooks is a part of the whole
  walk.
-/

namespace EcmaPattern

/-! ## Spans one after the other

That one span ends before the next begins, for the ways in which parts can be laid out. -/

theorem Text.Spells.le {t : Text} {i j : Nat} {cs : List CodePoint} (h : t.Spells i cs j) :
    i ≤ j := by
  rw [h.1]
  exact Nat.le_add_right _ _

/-- Characters that are written take up text. -/
theorem Text.Spells.lt {t : Text} {i j : Nat} {c : CodePoint} {cs : List CodePoint}
    (h : t.Spells i (c :: cs) j) : i < j := by
  have hwidth := c.width_pos
  have hlength := c.length_encode
  rw [h.1, ofCodePoints, List.flatMap_cons, List.length_append]
  omega

theorem Text.Spells.stop_le_length {t : Text} {i j : Nat} {c : CodePoint} {cs : List CodePoint}
    (h : t.Spells i (c :: cs) j) : j ≤ t.length := by
  have hlt := h.lt
  have hstop := h.1
  have hlength := congrArg List.length h.2
  rw [Text.slice, List.length_drop, List.length_take] at hlength
  omega

/-- Spans that follow each other lie between the two offsets, each before the next. -/
theorem Contiguous.between {i j : Nat} {xs : List Span} (h : Contiguous i xs j)
    (hle : ∀ x ∈ xs, x.start ≤ x.stop) :
    i ≤ j ∧ (∀ x ∈ xs, i ≤ x.start ∧ x.stop ≤ j) ∧ xs.Pairwise fun x y => x.stop ≤ y.start := by
  induction xs generalizing i with
  | nil =>
    obtain rfl : i = j := h
    exact ⟨Nat.le_refl _, List.forall_mem_nil _, .nil⟩
  | cons x xs ih =>
    obtain ⟨rfl, h⟩ := h
    obtain ⟨hx, hxs⟩ := List.forall_mem_cons.mp hle
    obtain ⟨hstop, hbetween, hpairs⟩ := ih h hxs
    refine ⟨Nat.le_trans hx hstop, List.forall_mem_cons.mpr ⟨⟨Nat.le_refl _, hstop⟩, ?_⟩,
      .cons (fun y hy => (hbetween y hy).1) hpairs⟩
    intro y hy
    exact ⟨Nat.le_trans hx (hbetween y hy).1, (hbetween y hy).2⟩

/-- Spans with a sign between each two lie between the two offsets, and none touches the next. -/
theorem Separated.between {t : Text} {sign : CodePoint} {i j : Nat} {xs : List Span}
    (h : Separated t sign i xs j) (hle : ∀ x ∈ xs, x.start ≤ x.stop) :
    i ≤ j ∧ (∀ x ∈ xs, i ≤ x.start ∧ x.stop ≤ j) ∧ xs.Pairwise fun x y => x.stop < y.start := by
  induction xs generalizing i with
  | nil => exact h.elim
  | cons x xs ih =>
    obtain ⟨hx, hxs⟩ := List.forall_mem_cons.mp hle
    cases xs with
    | nil =>
      obtain ⟨rfl, rfl⟩ := h
      exact ⟨hx, List.forall_mem_singleton.mpr ⟨Nat.le_refl _, Nat.le_refl _⟩,
        List.pairwise_singleton _ _⟩
    | cons y ys =>
      obtain ⟨rfl, k, hsign, h⟩ := h
      obtain ⟨hstop, hbetween, hpairs⟩ := ih h hxs
      have hlt := hsign.lt
      refine ⟨by omega, List.forall_mem_cons.mpr ⟨⟨Nat.le_refl _, by omega⟩, ?_⟩,
        .cons (fun z hz => Nat.lt_of_lt_of_le hlt (hbetween z hz).1) hpairs⟩
      intro z hz
      have hz' := hbetween z hz
      exact ⟨by omega, hz'.2⟩

/-! ## The parts of one node

For each kind of node, from how it is laid out. Some parts can be empty, as alternatives can, and
these are kept apart by a sign; terms and sets are not empty, and these may touch. -/

/-- Whether nodes of the kind are single signs or escapes, with no parts. -/
def Kind.isToken : Kind → Bool
  | character => true
  | escapeSet => true
  | property => true
  | anyCharacter => true
  | edge => true
  | wordBoundary => true
  | reference => true
  | _ => false

namespace Node

/-- The node is a term or a set, which is never empty and ends with a sign or with a part that is
one of these itself. -/
def isSolid : Node → Bool
  | term _ => true
  | charSet _ => true
  | _ => false

/-- The parts of a node lie in it one after the other, and only solid ones may touch. -/
structure Orderly (n : Node) : Prop where
  start_le_stop : n.span.start ≤ n.span.stop
  within : ∀ c ∈ n.children, n.span.start ≤ c.span.start ∧ c.span.stop ≤ n.span.stop
  apart : n.children.Pairwise fun a b =>
    a.span.stop < b.span.start ∨
      a.isSolid = true ∧ b.isSolid = true ∧ a.span.stop ≤ b.span.start
  solid : n.isSolid = true → n.span.start < n.span.stop ∧
    ∀ c ∈ n.children, c.isSolid = true ∨ c.span.stop < n.span.stop

namespace Orderly

variable {n : Node} {t : Text} {sign : CodePoint} {i j : Nat}

/-- A node without children is in order if its span is. -/
theorem of_leaf (hn : n.children = []) (hle : n.span.start ≤ n.span.stop)
    (hlt : n.isSolid = true → n.span.start < n.span.stop) : n.Orderly where
  start_le_stop := hle
  within := by simp [hn]
  apart := by simp [hn]
  solid := by simpa [hn] using hlt

/-- A node none of whose parts touches the next, nor the end of the node if that is solid. -/
theorem of_apart (hi : n.span.start ≤ i) (hij : i ≤ j) (hj : j ≤ n.span.stop)
    (hbetween : ∀ c ∈ n.children, i ≤ c.span.start ∧ c.span.stop ≤ j)
    (hpairs : n.children.Pairwise fun a b => a.span.stop < b.span.start)
    (hsolid : n.isSolid = true → j < n.span.stop) : n.Orderly := by
  refine ⟨by omega, ?_, hpairs.imp .inl, fun hn => ⟨?_, ?_⟩⟩
  · intro c hc
    have := hbetween c hc
    omega
  · have := hsolid hn
    omega
  · intro c hc
    have := hbetween c hc
    have := hsolid hn
    exact .inr (by omega)

/-- A node whose parts have a sign between each two. -/
theorem of_separated {cs : List Node} (hn : n.children = cs)
    (hle : ∀ c ∈ n.children, c.span.start ≤ c.span.stop)
    (h : Separated t sign i (cs.map Node.span) j) (hi : n.span.start ≤ i)
    (hj : j ≤ n.span.stop) (hsolid : n.isSolid = true → j < n.span.stop) : n.Orderly := by
  rw [← hn] at h
  obtain ⟨hij, hbetween, hpairs⟩ := h.between (List.forall_mem_map.mpr hle)
  rw [List.forall_mem_map] at hbetween
  rw [List.pairwise_map] at hpairs
  exact .of_apart hi hij hj hbetween hpairs hsolid

/-- A node whose parts are solid and follow each other. -/
theorem of_contiguous {cs : List Node} (hn : n.children = cs)
    (hle : ∀ c ∈ n.children, c.span.start ≤ c.span.stop)
    (hsolid : ∀ c ∈ cs, c.isSolid = true)
    (h : Contiguous i (cs.map Node.span) j) (hi : n.span.start ≤ i)
    (hj : j ≤ n.span.stop) (hlt : n.isSolid = true → i < j ∨ n.span.start < i ∨ j < n.span.stop) :
    n.Orderly := by
  rw [← hn] at h hsolid
  obtain ⟨hij, hbetween, hpairs⟩ := h.between (List.forall_mem_map.mpr hle)
  rw [List.forall_mem_map] at hbetween
  rw [List.pairwise_map] at hpairs
  refine ⟨by omega, ?_, ?_, fun hn => ⟨?_, fun c hc => .inl (hsolid c hc)⟩⟩
  · intro c hc
    have := hbetween c hc
    omega
  · exact hpairs.imp_of_mem fun ha hb hab => .inr ⟨hsolid _ ha, hsolid _ hb, hab⟩
  · have := hlt hn
    omega

/-- A node of two parts that do not touch. -/
theorem of_two {a b : Node} (hn : n.children = [a, b])
    (hle : ∀ c ∈ n.children, c.span.start ≤ c.span.stop) (hi : n.span.start ≤ a.span.start)
    (hab : a.span.stop < b.span.start) (hj : b.span.stop ≤ n.span.stop)
    (hsolid : n.isSolid = true → a.isSolid = true ∧ b.isSolid = true) : n.Orderly := by
  simp only [hn, List.forall_mem_cons, List.not_mem_nil, false_imp_iff, implies_true,
    and_true] at hle
  refine ⟨by omega, ?_, ?_, fun h => ⟨by omega, ?_⟩⟩
  · simp only [hn, List.forall_mem_cons, List.not_mem_nil, false_imp_iff, implies_true, and_true]
    omega
  · simp [hn, hab]
  · simp [hn, hsolid h]

end Orderly

end Node

section LaidOut

variable {t : Text}

/-- A set that is laid out has its parts in order. -/
theorem CharSet.LaidOut.orderly {x : CharSet} (h : x.LaidOut t)
    (hle : x.span.start ≤ x.span.stop)
    (hparts : ∀ c ∈ (Node.charSet x).children, c.span.start ≤ c.span.stop)
    (htoken : x.kind.isToken = true → x.span.start < x.span.stop) :
    (Node.charSet x).Orderly := by
  cases x with
  | character c => exact .of_leaf rfl hle fun _ => htoken rfl
  | escape span set negated => exact .of_leaf rfl hle fun _ => htoken rfl
  | property span p negated => exact .of_leaf rfl hle fun _ => htoken rfl
  | range span first last =>
    obtain ⟨hstart, hdash, hstop⟩ := h
    exact .of_two rfl hparts (Nat.le_of_eq hstart.symm) hdash.lt (Nat.le_of_eq hstop)
      fun _ => ⟨rfl, rfl⟩
  | strings span xs =>
    obtain ⟨i, j, hopen, hxs, hclose⟩ := h
    refine .of_separated (Node.children_strings span xs) hparts (by rwa [List.map_map])
      hopen.le hclose.le fun _ => hclose.lt
  | operation span op left right =>
    obtain ⟨hstart, hsign, hstop⟩ := h
    exact .of_two rfl hparts (Nat.le_of_eq hstart.symm) hsign.lt (Nat.le_of_eq hstop)
      fun _ => ⟨rfl, rfl⟩
  | listing span negated sets elements =>
    obtain ⟨i, j, hopen, hxs, hclose⟩ := h
    exact .of_contiguous (Node.children_listing span negated sets elements) hparts
      (List.forall_mem_map.mpr fun _ _ => rfl) (by rwa [List.map_map]) hopen.le hclose.le
      fun _ => .inr (.inr hclose.lt)
  | expression span negated contents =>
    obtain ⟨hopen, hclose⟩ := h
    exact .of_contiguous (Node.children_expression span negated contents) hparts
      (List.forall_mem_singleton.mpr rfl) ⟨rfl, rfl⟩ hopen.le hclose.le
      fun _ => .inr (.inr hclose.lt)

/-- A term that holds alternatives between an opening text and a closing parenthesis. -/
theorem ClosesAfter.orderly {e : Term} {c : CodePoint} {cs : List CodePoint} {i : Nat}
    {qs : List Sequence} (h : ClosesAfter t i qs e.span.stop)
    (hopen : t.Spells e.span.start (c :: cs) i)
    (hn : (Node.term e).children = qs.map Node.sequence)
    (hparts : ∀ c ∈ (Node.term e).children, c.span.start ≤ c.span.stop) :
    (Node.term e).Orderly := by
  obtain ⟨j, hqs, hclose⟩ := h
  exact .of_separated hn hparts (by rwa [List.map_map]) hopen.le hclose.le fun _ => hclose.lt

theorem QuantifierSpelling.exists_cons {cs : List CodePoint} {r : Repetition}
    (h : QuantifierSpelling cs r) : ∃ d ds, cs = d :: ds := by
  cases h with
  | greedy h => cases h <;> exact ⟨_, _, rfl⟩
  | lazy h => cases h <;> exact ⟨_, _, rfl⟩

/-- A term that is laid out has its parts in order. -/
theorem Term.LaidOut.orderly {e : Term} (h : e.LaidOut t) (hle : e.span.start ≤ e.span.stop)
    (hparts : ∀ c ∈ (Node.term e).children, c.span.start ≤ c.span.stop)
    (htoken : e.kind.isToken = true → e.span.start < e.span.stop) : (Node.term e).Orderly := by
  cases e with
  | set x =>
    obtain ⟨hle, hwithin, hapart, hsolid⟩ := CharSet.LaidOut.orderly h hle hparts htoken
    exact ⟨hle, hwithin, hapart, hsolid⟩
  | any span => exact .of_leaf rfl hle fun _ => htoken rfl
  | edge span edge => exact .of_leaf rfl hle fun _ => htoken rfl
  | wordBoundary span negated => exact .of_leaf rfl hle fun _ => htoken rfl
  | reference span target =>
    cases target <;> exact .of_leaf rfl hle fun _ => htoken rfl
  | look span direction negated qs =>
    obtain ⟨i, hopen, hqs⟩ := h
    obtain ⟨c, cs, hcs⟩ : ∃ c cs, lookText direction negated = c :: cs := by
      cases direction <;> cases negated <;> exact ⟨_, _, rfl⟩
    rw [hcs] at hopen
    exact hqs.orderly hopen (Node.children_look span direction negated qs) hparts
  | group span m qs =>
    cases m with
    | none =>
      obtain ⟨i, hopen, hqs⟩ := h
      exact hqs.orderly hopen (Node.children_group_none span qs) hparts
    -- the modifiers come first, up to the colon, and the alternatives behind it
    | some m =>
      obtain ⟨hopen, i, hcolon, j, hqs, hclose⟩ := h
      have hn := Node.children_group_some span m qs
      rw [hn] at hparts
      obtain ⟨hm, hparts⟩ := List.forall_mem_cons.mp hparts
      obtain ⟨hij, hbetween, hpairs⟩ := hqs.between
        (List.forall_mem_map.mpr (List.forall_mem_map.mp hparts))
      rw [List.forall_mem_map] at hbetween
      rw [List.pairwise_map] at hpairs
      have hlt := hcolon.lt
      have hm : m.span.start ≤ m.span.stop := hm
      refine .of_apart (i := m.span.start) (j := j) hopen.le (by omega) hclose.le ?_ ?_
        fun _ => hclose.lt
      · rw [hn]
        refine List.forall_mem_cons.mpr ⟨⟨Nat.le_refl _, ?_⟩, List.forall_mem_map.mpr ?_⟩
        · show m.span.stop ≤ j
          omega
        · intro q hq
          have hq := hbetween q hq
          show m.span.start ≤ q.span.start ∧ q.span.stop ≤ j
          omega
      · rw [hn]
        refine .cons (List.forall_mem_map.mpr fun q hq => ?_) (List.pairwise_map.mpr hpairs)
        have hq := hbetween q hq
        show m.span.stop < q.span.start
        omega
  | capture span index name qs =>
    cases name with
    | none =>
      obtain ⟨i, hopen, hqs⟩ := h
      exact hqs.orderly hopen (Node.children_capture span index none qs) hparts
    | some name =>
      obtain ⟨cs, i, hopen, hqs⟩ := h
      exact hqs.orderly hopen (Node.children_capture span index (some name) qs) hparts
  | quantified span r element =>
    obtain ⟨hstart, cs, hcs, hsign⟩ := h
    obtain ⟨d, ds, rfl⟩ := hcs.exists_cons
    exact .of_contiguous rfl hparts (List.forall_mem_singleton.mpr rfl) ⟨rfl, rfl⟩
      (Nat.le_of_eq hstart.symm) hsign.le fun _ => .inr (.inr hsign.lt)

/-- Where the parts of a node fill its text, they lie in it one after the other. -/
theorem Node.LaidOut.orderly {n : Node} (h : n.LaidOut t) (hle : n.span.start ≤ n.span.stop)
    (hparts : ∀ c ∈ n.children, c.span.start ≤ c.span.stop)
    (htoken : n.kind.isToken = true → n.span.start < n.span.stop) : n.Orderly := by
  cases n with
  | literal l =>
    obtain ⟨hopen, hclose, hstop⟩ := h
    exact .of_two rfl hparts hopen.le hclose.lt (Nat.le_of_eq hstop) nofun
  | pattern p =>
    exact .of_separated (Node.children_pattern p) hparts (by rwa [List.map_map]) (Nat.le_refl _)
      (Nat.le_refl _) nofun
  | flags f => exact .of_leaf rfl hle nofun
  | sequence q =>
    cases q with
    | mk span es =>
      exact .of_contiguous (Node.children_sequence span es) hparts
        (List.forall_mem_map.mpr fun _ _ => rfl) (by rwa [List.map_map]) (Nat.le_refl _)
        (Nat.le_refl _) nofun
  | term e => exact Term.LaidOut.orderly h hle hparts htoken
  | charSet x => exact CharSet.LaidOut.orderly h hle hparts htoken
  | classString x =>
    exact .of_contiguous (Node.children_classString x) hparts
      (List.forall_mem_map.mpr fun _ _ => rfl) (by rwa [List.map_map]) (Nat.le_refl _)
      (Nat.le_refl _) nofun
  | modifiers m =>
    obtain ⟨span, add, remove⟩ := m
    obtain ⟨hstart, h⟩ := h
    cases remove with
    | none =>
      have hadd : add.span.start ≤ add.span.stop :=
        hparts (.modifierFlags add) (List.mem_singleton_self _)
      exact .of_apart (Nat.le_of_eq hstart.symm) hadd (Nat.le_of_eq h)
        (List.forall_mem_singleton.mpr ⟨Nat.le_refl _, Nat.le_refl _⟩)
        (List.pairwise_singleton _ _) nofun
    | some remove =>
      exact .of_two rfl hparts (Nat.le_of_eq hstart.symm) h.1.lt (Nat.le_of_eq h.2) nofun
  | modifierFlags m => exact .of_leaf rfl hle nofun

end LaidOut

/-! ## Tokens

A sign or an escape is not empty, since reading it consumes something. -/

section Tokens

variable {g : Grammar} {s t : State}

theorem Cursor.Reads.index_lt {c d : Cursor} {ch : CodePoint} {cs : List CodePoint}
    (h : c.Reads (ch :: cs) d) : c.index < d.index := by
  have hwidth := ch.width_pos
  have hlength := ch.length_encode
  rw [h.index, Text.ofCodePoints, List.flatMap_cons, List.length_append]
  omega

theorem Cursor.Reaches.index_lt {c d : Cursor} (h : c.Reaches d) (hlt : d.remaining < c.remaining) :
    c.index < d.index := by
  obtain ⟨cs, h⟩ := h
  cases cs with
  | nil =>
    obtain rfl := Cursor.reads_nil.mp h
    omega
  | cons ch cs => exact h.index_lt

/-- A term takes up text, so two terms never begin together. -/
theorem Derives.term_start_lt {e : Term} (h : Derives g s (.term e) t) :
    e.span.start < e.span.stop := by
  rw [h.term_span]
  exact h.reaches.index_lt h.term_remaining_lt

theorem ReadsValue.index_lt {p : Place} {c : CodePoint} (h : ReadsValue g p s c t) :
    s.cursor.index < t.cursor.index := by
  obtain ⟨cs, hr, hcs⟩ := h.reads
  obtain ⟨d, ds, rfl⟩ : ∃ d ds, cs = d :: ds := by
    rcases hcs with ⟨rfl, -⟩ | hcs
    · exact ⟨_, _, rfl⟩
    · exact ⟨_, _, List.eq_cons_of_mem_head? hcs⟩
  exact hr.cursor.index_lt

theorem ReadsAtom.start_lt {d : Nat} {e : Term}
    (h : ReadsAtom g (Parser.charClass d false) (nestedAt d) s e t) :
    e.span.start < e.span.stop := by
  cases h with
  | any hr => exact hr.cursor.index_lt
  | reference h => exact h.term_start_lt
  | setEscape h => exact (Derives.termEscape h).term_start_lt
  | character h _ => exact h.index_lt
  | charClass h => exact (Derives.termClass (Parser.charClass_derives h)).term_start_lt
  | group h =>
    exact (Parser.group_derives (fun _ _ _ _ => Parser.nestedAt_derives) h).term_start_lt

/-- A sign or an escape is not empty. -/
theorem Given.start_lt {n : Node} (h : Given g s n t) (hk : n.kind.isToken = true) :
    n.span.start < n.span.stop := by
  cases h with
  | assertion h =>
    exact (Parser.assertion_derives (fun _ _ _ _ => Parser.nestedAt_derives) h).term_start_lt
  | atom h => exact h.start_lt
  | character h => exact h.index_lt
  | setEscape h => exact (Derives.termEscape h).term_start_lt
  | nested _ h => exact (Derives.termClass h).term_start_lt
  | @operation _ op _ _ _ _ => cases op <;> cases hk
  | _ => cases hk

end Tokens

/-! ## Trees in the order of the text

Orderly at every node. From it follow the order of starts over the whole tree and that no node
occurs twice. -/

namespace Node

/-- In each node of the tree the parts lie one after the other. -/
def InTextOrder (n : Node) : Prop := ∀ m ∈ n.descendants, m.Orderly

variable {n c m : Node}

/-- A tree is in the order of the text if its root is in order and its children are. -/
theorem inTextOrder_iff : n.InTextOrder ↔ n.Orderly ∧ ∀ c ∈ n.children, c.InTextOrder :=
  forall_descendants

theorem mem_descendants_self (n : Node) : n ∈ n.descendants := by
  rw [descendants_eq]
  exact List.mem_cons_self

/-- A node is not below one of its parts, which are smaller. -/
theorem sizeOf_le_of_mem_descendants (h : m ∈ n.descendants) : sizeOf m ≤ sizeOf n := by
  induction n using induction_on_children with
  | h n ih =>
    rw [descendants_eq] at h
    rcases List.mem_cons.mp h with rfl | h
    · exact Nat.le_refl _
    · obtain ⟨c, hc, hm⟩ := List.mem_flatMap.mp h
      exact Nat.le_trans (ih c hc hm) (Nat.le_of_lt (sizeOf_lt_of_mem_children hc))

/-- A node does not stand below its own child. -/
theorem not_mem_descendants_of_child (hc : c ∈ n.children) : n ∉ c.descendants := by
  intro h
  have hle := sizeOf_le_of_mem_descendants h
  have hlt := sizeOf_lt_of_mem_children hc
  omega

namespace InTextOrder

/-- All nodes of the tree lie in its root. -/
theorem within (h : n.InTextOrder) (hm : m ∈ n.descendants) :
    n.span.start ≤ m.span.start ∧ m.span.start ≤ m.span.stop ∧ m.span.stop ≤ n.span.stop := by
  induction n using induction_on_children with
  | h n ih =>
    obtain ⟨hn, hchildren⟩ := inTextOrder_iff.mp h
    rw [descendants_eq] at hm
    rcases List.mem_cons.mp hm with rfl | hm
    · exact ⟨Nat.le_refl _, hn.start_le_stop, Nat.le_refl _⟩
    · obtain ⟨c, hc, hm⟩ := List.mem_flatMap.mp hm
      have hm := ih c hc (hchildren c hc) hm
      have hc := hn.within c hc
      omega

/-- An empty node below a solid one lies before its end. -/
theorem stop_lt_of_empty (h : n.InTextOrder) (hn : n.isSolid = true) (hm : m ∈ n.descendants)
    (hempty : m.span.start = m.span.stop) : m.span.stop < n.span.stop := by
  induction n using induction_on_children with
  | h n ih =>
    obtain ⟨ho, hchildren⟩ := inTextOrder_iff.mp h
    obtain ⟨hlt, hends⟩ := ho.solid hn
    rw [descendants_eq] at hm
    rcases List.mem_cons.mp hm with rfl | hm
    · omega
    · obtain ⟨c, hc, hm⟩ := List.mem_flatMap.mp hm
      have hle := (ho.within c hc).2
      rcases hends c hc with hsolid | hlt
      · have hm := ih c hc (hchildren c hc) hsolid hm
        omega
      · have hm := (hchildren c hc).within hm
        omega

/-- Siblings have no nodes in common. -/
theorem disjoint_children (h : n.InTextOrder) :
    n.children.Pairwise fun a b => a.descendants.Disjoint b.descendants := by
  obtain ⟨ho, hchildren⟩ := inTextOrder_iff.mp h
  refine ho.apart.imp_of_mem fun {a b} ha hb hab m hma hmb => ?_
  have hwithin := (hchildren a ha).within hma
  have hwithin' := (hchildren b hb).within hmb
  rcases hab with hlt | ⟨hsolid, -, hle⟩
  · omega
  · -- only an empty node could lie in both, and it would lie at the end of `a`
    have hlt := (hchildren a ha).stop_lt_of_empty hsolid hma (by omega)
    omega

/-- The children of a node begin one after the other. -/
theorem starts_ascend (h : n.InTextOrder) :
    n.children.Pairwise fun a b => a.span.start < b.span.start := by
  obtain ⟨ho, hchildren⟩ := inTextOrder_iff.mp h
  refine ho.apart.imp_of_mem fun {a b} ha _ hab => ?_
  have ha := (inTextOrder_iff.mp (hchildren a ha)).1
  have hle := ha.start_le_stop
  rcases hab with hlt | ⟨hsolid, -, hle'⟩
  · omega
  · have hlt := (ha.solid hsolid).1
    omega

/-- Sorting the parts of a node by where they start gives them as they stand in the text. -/
theorem inOrder_eq (h : n.InTextOrder) : n.inOrder = n.children := by
  have hstarts := h.starts_ascend
  have hsorted : n.inOrder.Pairwise fun a b => a.span.start ≤ b.span.start :=
    (List.pairwise_mergeSort (fun a b c => by simpa using Nat.le_trans)
      (fun a b => by simpa using Nat.le_total _ _) n.declared).imp of_decide_eq_true
  refine List.Perm.eq_of_pairwise ?_ hsorted (hstarts.imp Nat.le_of_lt) n.inOrder_perm
  intro a b ha hb hab hba
  have hnodup : (n.children.map (·.span.start)).Nodup :=
    List.pairwise_map.mpr (hstarts.imp Nat.ne_of_lt)
  exact List.inj_on_of_nodup_map hnodup (n.inOrder_perm.subset ha) hb (Nat.le_antisymm hab hba)

/-- On a walk, each part of a node ends before the next one begins. -/
theorem siblings_ascend (h : n.InTextOrder) :
    n.inOrder.Pairwise fun a b => a.span.stop ≤ b.span.start := by
  rw [h.inOrder_eq]
  refine (inTextOrder_iff.mp h).1.apart.imp fun hab => ?_
  rcases hab with hlt | ⟨-, -, hle⟩
  · exact Nat.le_of_lt hlt
  · exact hle

end InTextOrder

/-! ## Walks

A walk is a list of calls. That it is balanced is an inductive relation on lists, so that what a
call encloses can be talked about without counting. -/

def calls (n : Node) : List Call := n.visit fun _ => true

end Node

/-- Each call that enters a node is followed by one that leaves it, and the calls between the two
are balanced themselves. -/
inductive Balanced : List Call → Prop
  | nil : Balanced []
  | enclose {n : Node} {inside rest : List Call} (hinside : Balanced inside)
      (hrest : Balanced rest) : Balanced (⟨.enter, n⟩ :: (inside ++ ⟨.leave, n⟩ :: rest))

/-- Balanced calls may be put one after the other. -/
theorem Balanced.append {cs ds : List Call} (hc : Balanced cs) (hd : Balanced ds) :
    Balanced (cs ++ ds) := by
  induction hc with
  | nil => exact hd
  | @enclose n inside rest hinside _ _ ih =>
    have happend : ⟨.enter, n⟩ :: (inside ++ ⟨.leave, n⟩ :: rest) ++ ds =
        ⟨.enter, n⟩ :: (inside ++ ⟨.leave, n⟩ :: (rest ++ ds)) := by
      rw [List.cons_append, List.append_assoc, List.cons_append]
    rw [happend]
    exact .enclose hinside ih

theorem Balanced.flatMap {ns : List Node} {f : Node → List Call} (h : ∀ n ∈ ns, Balanced (f n)) :
    Balanced (ns.flatMap f) := by
  induction ns with
  | nil => exact .nil
  | cons n ns ih =>
    rw [List.flatMap_cons]
    obtain ⟨hn, hns⟩ := List.forall_mem_cons.mp h
    exact hn.append (ih hns)

namespace Node

variable {n m : Node}

/-- The calls of a walk are one for entering, those for the parts, and one for leaving. -/
theorem calls_eq (n : Node) :
    n.calls = ⟨.enter, n⟩ :: (n.inOrder.flatMap calls ++ [⟨.leave, n⟩]) := by
  rw [calls, visit_eq]
  rfl

theorem mem_inOrder {c : Node} : c ∈ n.inOrder ↔ c ∈ n.children := n.inOrder_perm.mem_iff

/-- The calls of a walk are balanced: every node that is entered is left again, in reverse order. -/
theorem balanced_calls (n : Node) : Balanced n.calls := by
  induction n using induction_on_children with
  | h n ih =>
    rw [calls_eq]
    exact .enclose (.flatMap fun c hc => ih c (mem_inOrder.mp hc)) .nil

/-- The calls for a node are those for the nodes of its tree. -/
theorem mem_calls {c : Call} : c ∈ n.calls ↔ c.node ∈ n.descendants := by
  induction n using induction_on_children with
  | h n ih =>
    have hself : (c = ⟨.enter, n⟩ ∨ c = ⟨.leave, n⟩) ↔ c.node = n := by
      obtain ⟨moment, m⟩ := c
      cases moment <;> simp
    have hinside : c ∈ n.inOrder.flatMap calls ↔ c.node ∈ n.children.flatMap descendants := by
      simp only [List.mem_flatMap, mem_inOrder]
      exact exists_congr fun a => and_congr_right fun ha => ih a ha
    rw [calls_eq, descendants_eq, List.mem_cons, List.mem_append, List.mem_singleton, hinside,
      List.mem_cons, ← hself]
    tauto

/-- The calls for the nodes below a node are those between its own. -/
theorem mem_inside {c : Call} :
    c ∈ n.inOrder.flatMap calls ↔ c.node ∈ n.descendants ∧ c.node ≠ n := by
  have hinside : c ∈ n.inOrder.flatMap calls ↔ c.node ∈ n.children.flatMap descendants := by
    simp only [List.mem_flatMap, mem_inOrder, mem_calls]
  have hne : c.node ∈ n.children.flatMap descendants → c.node ≠ n := by
    rintro h rfl
    obtain ⟨a, ha, hmem⟩ := List.mem_flatMap.mp h
    exact not_mem_descendants_of_child ha hmem
  rw [hinside, descendants_eq, List.mem_cons]
  exact ⟨fun h => ⟨.inr h, hne h⟩, fun ⟨h, hn⟩ => h.resolve_left hn⟩

/-- The walk over a part of a tree is a part of the walk over the tree. -/
theorem exists_calls_eq (hm : m ∈ n.descendants) :
    ∃ before after, n.calls = before ++ m.calls ++ after := by
  induction n using induction_on_children with
  | h n ih =>
    rw [descendants_eq] at hm
    rcases List.mem_cons.mp hm with rfl | hm
    · exact ⟨[], [], by rw [List.nil_append, List.append_nil]⟩
    · obtain ⟨c, hc, hm⟩ := List.mem_flatMap.mp hm
      obtain ⟨before, after, hcalls⟩ := ih c hc hm
      obtain ⟨left, right, hchildren⟩ := List.append_of_mem (mem_inOrder.mpr hc)
      refine ⟨⟨.enter, n⟩ :: (left.flatMap calls ++ before),
        after ++ right.flatMap calls ++ [⟨.leave, n⟩], ?_⟩
      rw [calls_eq, hchildren, List.flatMap_append, List.flatMap_cons, hcalls]
      simp only [List.append_assoc, List.cons_append]

theorem callOf_eq (has : String → Bool) (moment : Moment) (n : Node) :
    n.callOf has moment = [⟨moment, n⟩].filter fun c => has c.hook := by
  rw [callOf, List.filter_cons, List.filter_nil, Call.hook]

/-- A handler gets the calls of the hooks that it has. -/
theorem visit_eq_filter (has : String → Bool) (n : Node) :
    n.visit has = n.calls.filter fun c => has c.hook := by
  induction n using induction_on_children with
  | h n ih =>
    have hcalls : n.calls = [⟨.enter, n⟩] ++ n.inOrder.flatMap calls ++ [⟨.leave, n⟩] :=
      n.visit_eq _
    have hinside : n.inOrder.flatMap (visit has) =
        (n.inOrder.flatMap calls).filter fun c => has c.hook := by
      rw [List.filter_flatMap, List.flatMap_def, List.flatMap_def,
        List.map_congr_left fun c hc => ih c (mem_inOrder.mp hc)]
    rw [visit_eq, hcalls, List.filter_append, List.filter_append, hinside, callOf_eq, callOf_eq]

/-- A relation holds between each call of a walk and the later ones if it holds between those for a
node and those for the nodes below it, and between those for siblings. -/
theorem InTextOrder.pairwise_calls {R : Call → Call → Prop} (h : n.InTextOrder)
    (henter : ∀ (a : Node) (c : Call), a.InTextOrder → c.node ∈ a.descendants →
      c ≠ ⟨.enter, a⟩ → R ⟨.enter, a⟩ c)
    (hleave : ∀ (a : Node) (c : Call), a.InTextOrder → c.node ∈ a.descendants →
      c ≠ ⟨.leave, a⟩ → R c ⟨.leave, a⟩)
    (hsiblings : ∀ (a b : Node) (c d : Call), a.InTextOrder → b.InTextOrder →
      a.descendants.Disjoint b.descendants → a.span.stop ≤ b.span.start →
      c.node ∈ a.descendants → d.node ∈ b.descendants → R c d) :
    n.calls.Pairwise R := by
  induction n using induction_on_children with
  | h n ih =>
    have hchildren := (inTextOrder_iff.mp h).2
    have hself := mem_descendants_self n
    -- the calls for one part and those for two parts that are apart
    have hinside : (n.inOrder.flatMap calls).Pairwise R := by
      rw [List.pairwise_flatMap]
      refine ⟨fun c hc => ih c (mem_inOrder.mp hc) (hchildren c (mem_inOrder.mp hc)), ?_⟩
      have hdisjoint := h.disjoint_children
      rw [← h.inOrder_eq] at hdisjoint
      refine (h.siblings_ascend.and hdisjoint).imp_of_mem fun {a b} ha hb hab c hc d hd => ?_
      exact hsiblings a b c d (hchildren a (mem_inOrder.mp ha)) (hchildren b (mem_inOrder.mp hb))
        hab.2 hab.1 (mem_calls.mp hc) (mem_calls.mp hd)
    rw [calls_eq, List.pairwise_cons, List.pairwise_append]
    refine ⟨fun c hc => ?_, hinside, List.pairwise_singleton _ _, fun c hc d hd => ?_⟩
    · rcases List.mem_append.mp hc with hc | hc
      · obtain ⟨hmem, hne⟩ := mem_inside.mp hc
        exact henter n c h hmem fun heq => hne (congrArg Call.node heq)
      · obtain rfl := List.mem_singleton.mp hc
        exact henter n _ h hself (by simp)
    · obtain rfl := List.mem_singleton.mp hd
      obtain ⟨hmem, hne⟩ := mem_inside.mp hc
      exact hleave n c h hmem fun heq => hne (congrArg Call.node heq)

/-- What a handler can rely on in a walk. -/
structure WalksInTextOrder (root : Node) : Prop where
  /-- The calls are nested. -/
  balanced : Balanced root.calls
  /-- Each node is entered and left, and no other is. -/
  complete : ∀ moment n, ⟨moment, n⟩ ∈ root.calls ↔ n ∈ root.descendants
  /-- No node is entered or left twice. -/
  once : root.calls.Nodup
  /-- Between the two calls for a node are the walks over its parts, which are the calls for the
  nodes below it. -/
  encloses : ∀ n ∈ root.descendants, ∃ before inside after,
    root.calls = before ++ ⟨.enter, n⟩ :: (inside ++ ⟨.leave, n⟩ :: after) ∧
      inside = n.inOrder.flatMap calls ∧ ∀ c, c ∈ inside ↔ c.node ∈ n.descendants ∧ c.node ≠ n
  /-- Each part of a node ends before the next one starts. -/
  siblings : ∀ n ∈ root.descendants, n.inOrder.Pairwise fun a b => a.span.stop ≤ b.span.start
  /-- Nodes are entered in the order in which they start. -/
  enters : (root.calls.filter (·.moment = .enter)).Pairwise fun c d =>
    c.node.span.start ≤ d.node.span.start
  /-- Nodes are left in the order in which they end. -/
  leaves : (root.calls.filter (·.moment = .leave)).Pairwise fun c d =>
    c.node.span.stop ≤ d.node.span.stop
  /-- Hooks that the handler lacks change nothing for the others. -/
  restricts : ∀ has, root.visit has = root.calls.filter fun c => has c.hook

namespace InTextOrder

/-- No call is made twice, since no two nodes of a tree in the order of the text are the same. -/
theorem nodup_calls (h : n.InTextOrder) : n.calls.Nodup := by
  refine h.pairwise_calls (fun a c _ _ hne => hne.symm) (fun a c _ _ hne => hne) ?_
  rintro a b c d - - hdisjoint - hc hd rfl
  exact hdisjoint hc hd

/-- Nodes are entered in the order in which they begin. -/
theorem enters_ascend (h : n.InTextOrder) :
    (n.calls.filter (·.moment = .enter)).Pairwise fun c d =>
      c.node.span.start ≤ d.node.span.start := by
  rw [List.pairwise_filter]
  refine h.pairwise_calls ?_ ?_ ?_
  · intro a c ha hc _ _ _
    exact (ha.within hc).1
  · intro a c _ _ _ _ hleave
    exact absurd (of_decide_eq_true hleave) nofun
  · intro a b c d ha hb _ hab hc hd _ _
    have hc := ha.within hc
    have hd := hb.within hd
    omega

/-- Nodes are left in the order in which they end. -/
theorem leaves_ascend (h : n.InTextOrder) :
    (n.calls.filter (·.moment = .leave)).Pairwise fun c d =>
      c.node.span.stop ≤ d.node.span.stop := by
  rw [List.pairwise_filter]
  refine h.pairwise_calls ?_ ?_ ?_
  · intro a c _ _ _ henter _
    exact absurd (of_decide_eq_true henter) nofun
  · intro a c ha hc _ _ _
    exact (ha.within hc).2.2
  · intro a b c d ha hb _ hab hc hd _ _
    have hc := ha.within hc
    have hd := hb.within hd
    omega

/-- A walk over a tree whose parts lie one after the other goes along the text. -/
theorem walksInTextOrder (h : n.InTextOrder) : n.WalksInTextOrder where
  balanced := n.balanced_calls
  complete := fun _ _ => mem_calls
  once := h.nodup_calls
  encloses := by
    intro m hm
    obtain ⟨before, after, hcalls⟩ := exists_calls_eq hm
    refine ⟨before, _, after, ?_, rfl, fun c => mem_inside⟩
    rw [hcalls, calls_eq m]
    simp only [List.append_assoc, List.cons_append, List.nil_append]
  siblings := fun m hm =>
    siblings_ascend fun k hk => h k (descendants_subset hm hk)
  enters := h.enters_ascend
  leaves := h.leaves_ascend
  restricts := fun has => n.visit_eq_filter has

end InTextOrder

end Node

/-! ## Answers

Every tree that is returned is laid out, and so is in the order of the text. -/

/-- A slice that lies within its text holds all that any slice shows a cursor. -/
theorem Slice.exists_valid (slice : Slice) :
    ∃ inner : Slice, inner.Valid ∧ ∀ paired, inner.cursor paired = slice.cursor paired := by
  refine ⟨⟨.replicate slice.start 0 ++ slice.content, slice.start,
    slice.start + slice.content.length⟩, ⟨Nat.le_add_right _ _, ?_⟩, fun paired => ?_⟩
  · refine Nat.le_of_eq ?_
    rw [List.length_append, List.length_replicate]
  · have hdrop : (List.replicate slice.start 0 ++ slice.content).drop slice.start = slice.content :=
      List.drop_left' List.length_replicate
    rw [cursor, cursorAt, Text.slice, List.drop_take, hdrop, Nat.add_sub_cancel_left,
      List.take_length]
    rfl

/-- The tree of a pass is in the order of the text. -/
theorem Pattern.inTextOrder_of_pass {rule : DuplicateRule} {o : Options} {flags : FlagSet}
    {named : Bool} {slice : Slice} {p : Pattern} {scope : GroupScope}
    (h : pass rule o flags named (slice.cursor flags.unicodeMode) = .ok (p, scope)) :
    (Node.pattern p).InTextOrder := by
  obtain ⟨inner, hv, hcursor⟩ := slice.exists_valid
  rw [← hcursor] at h
  have htiled := (tiled_of_pass hv h).2
  intro n hn
  refine (htiled n hn).2.orderly (htiled n hn).1.start_le_stop ?_ ?_
  · intro c hc
    refine (htiled c (Node.descendants_subset hn ?_)).1.start_le_stop
    rw [Node.descendants_eq]
    exact List.mem_cons_of_mem _ (List.mem_flatMap.mpr ⟨c, hc, c.mem_descendants_self⟩)
  · intro hk
    rcases given_of_pass h n hn with rfl | ⟨_, m, f, s, t, rfl, -, hgiven⟩
    · cases hk
    · rw [Node.kind_resolve] at hk
      rw [Node.span_resolve]
      exact hgiven.start_lt hk

/-- The tree of a literal is in the order of the text: its pattern stands before its flags. -/
theorem Literal.inTextOrder_of_readParts {o : Options} {slice : Slice} {length : Nat} {l : Literal}
    (hd : Delimited slice length) (h : readParts o slice length = .ok l) :
    (Node.literal l).InTextOrder := by
  obtain ⟨set, -, hflags, hpattern, hspan⟩ := readParts_eq_ok.mp h
  obtain ⟨named, scope, hpass⟩ := Pattern.pass_of_read hpattern
  have hclosing := hd.closing.stop_le_length
  have hvalid : Slice.Valid ⟨slice.text, slice.start + 1, slice.start + length + 1⟩ :=
    ⟨by simp only; omega, by simp only; omega⟩
  have hpspan : l.pattern.span =
      Slice.span ⟨slice.text, slice.start + 1, slice.start + length + 1⟩ :=
    (Pattern.tiled_of_pass hvalid hpass).1
  have hp := Pattern.inTextOrder_of_pass hpass
  have hle := hd.le_stop
  -- flags may be empty, but they have no parts
  have hf : (Node.flags l.flags).Orderly := by
    refine .of_leaf (Node.children_flags _) ?_ nofun
    rw [Node.span, hflags]
    exact hle
  have hlaid : (Node.literal l).LaidOut slice.text := by
    show Text.Spells _ _ _ _ ∧ Text.Spells _ _ _ _ ∧ _
    rw [hspan, hpspan, hflags]
    exact ⟨hd.opening, hd.closing, rfl⟩
  rw [Node.inTextOrder_iff, Node.children_literal]
  have hparts : ∀ c ∈ [Node.pattern l.pattern, .flags l.flags], c.InTextOrder := by
    refine List.forall_mem_cons.mpr ⟨hp, List.forall_mem_singleton.mpr ?_⟩
    rw [Node.inTextOrder_iff, Node.children_flags]
    exact ⟨hf, List.forall_mem_nil _⟩
  refine ⟨hlaid.orderly ?_ ?_ nofun, hparts⟩
  · rw [Node.span, hspan]
    show slice.start ≤ slice.stop
    omega
  · intro c hc
    exact (Node.inTextOrder_iff.mp (hparts c hc)).1.start_le_stop

/-- A walk over a tree that is returned enters each node once and leaves it once, properly nested,
and goes along the text: each part of a node ends before the next one starts, nodes are entered in
the order in which they start and left in the order in which they end. A handler that lacks some of
the hooks gets the same calls but for those. -/
theorem walks_nest_in_text_order (o : Options) :
    (∀ choice slice p, parsePattern o choice slice = .ok p →
      (Node.pattern p).WalksInTextOrder) ∧
    (∀ slice l, parseLiteral o slice = .ok l → (Node.literal l).WalksInTextOrder) ∧
    (∀ source flags l, parseParts o source flags = .ok l →
      (Node.literal l).WalksInTextOrder) := by
  refine ⟨?_, ?_, ?_⟩
  · intro choice slice p h
    obtain ⟨flags, -, hread⟩ := parsePattern_eq_ok.mp h
    obtain ⟨named, scope, hpass⟩ := Pattern.pass_of_read hread
    exact (Pattern.inTextOrder_of_pass hpass).walksInTextOrder
  · intro slice l h
    obtain ⟨length, hlength, hread⟩ := parseLiteral_eq_ok.mp h
    exact (Literal.inTextOrder_of_readParts (Literal.delimited_of_patternLength hlength)
      hread).walksInTextOrder
  · intro source flags l h
    exact (Literal.inTextOrder_of_readParts (Literal.delimited_join source flags)
      (parseParts_eq_ok.mp h)).walksInTextOrder

theorem walks_nest_in_text_order_over_modifiers :
    ∃ l, parseLiteral (.ofEdition .es2025 false) (.whole (.ofString "/(?i-s:|a)[b-d]*/u")) = .ok l ∧
      (Node.literal l).WalksInTextOrder := by
  obtain ⟨l, hl⟩ : ∃ l, parseLiteral (.ofEdition .es2025 false)
      (.whole (.ofString "/(?i-s:|a)[b-d]*/u")) = .ok l :=
    Except.exists_eq_ok (by decide +kernel)
  exact ⟨l, hl, (walks_nest_in_text_order _).2.1 _ l hl⟩

end EcmaPattern
