import EcmaPattern.Proofs.Captures

/-!
# Nesting

Groups, lookarounds and classes nest. `Node.depth` is how deeply they do in a tree, and
`Node.beneath` picks out those that have a given number of others above them, so that a tree is too
deep for a number of levels exactly if something lies beneath them (`Node.depth_le_iff`). What lies
beneath some levels of a tree that was read is picked out in the order of the text
(`Derives.beneath_ascends`).

Which constructs count as levels is a property of their kind alone, and so the two notions are
defined on all nodes at once. The equations that follow evaluate them for each production, and the
parser's limit is compared with them elsewhere.
-/

namespace EcmaPattern

/-- Whether nodes of the kind count as a level of nesting. -/
def Kind.nests : Kind → Bool
  | group => true
  | capturingGroup => true
  | lookaround => true
  | characterClass => true
  | expressionClass => true
  | _ => false

namespace Node

/-- The largest number of nodes that nest on a path from the node down. -/
def depth (n : Node) : Nat :=
  (if n.kind.nests then 1 else 0) + (n.children.attach.map fun ⟨c, _⟩ => c.depth).foldr max 0
termination_by sizeOf n
decreasing_by
  exact sizeOf_lt_of_mem_children ‹_›

/-- The nodes that nest and have just so many others above them in the tree, in the order of a
walk. -/
def beneath (levels : Nat) (n : Node) : List Node :=
  match n.kind.nests, levels with
  | true, 0 => [n]
  | true, levels + 1 => n.children.attach.flatMap fun ⟨c, _⟩ => c.beneath levels
  | false, levels => n.children.attach.flatMap fun ⟨c, _⟩ => c.beneath levels
termination_by sizeOf n
decreasing_by
  all_goals exact sizeOf_lt_of_mem_children ‹_›

/-- The depth of a node is one more than the greatest depth below it if it nests, and that depth if
it does not. -/
theorem depth_eq (n : Node) :
    n.depth = (if n.kind.nests then 1 else 0) + (n.children.map depth).foldr max 0 := by
  rw [depth, List.map_subtype (g := depth) (fun _ _ => rfl), List.unattach_attach]

theorem depth_leaf {n : Node} (h : n.kind.nests = false) (hc : n.children = []) : n.depth = 0 := by
  rw [depth_eq, h, hc]
  rfl

section Beneath

variable {n : Node}

theorem beneath_zero (h : n.kind.nests = true) : n.beneath 0 = [n] := by
  rw [beneath]
  exact h

/-- So many levels beneath a node that nests are one level fewer beneath its children. -/
theorem beneath_succ (h : n.kind.nests = true) (levels : Nat) :
    n.beneath (levels + 1) = n.children.flatMap (beneath levels) := by
  rw [beneath, List.flatMap_subtype (g := beneath levels) (fun _ _ => rfl), List.unattach_attach]
  exact h

/-- A node that does not nest counts as no level. -/
theorem beneath_of_not_nests (h : n.kind.nests = false) (levels : Nat) :
    n.beneath levels = n.children.flatMap (beneath levels) := by
  rw [beneath, List.flatMap_subtype (g := beneath levels) (fun _ _ => rfl), List.unattach_attach]
  exact h

theorem beneath_leaf (h : n.kind.nests = false) (hc : n.children = []) (levels : Nat) :
    n.beneath levels = [] := by
  rw [beneath_of_not_nests h, hc]
  rfl

end Beneath

/-- A greatest depth is bounded if each depth is. -/
theorem foldr_max_le {xs : List Nat} {k : Nat} : xs.foldr max 0 ≤ k ↔ ∀ x ∈ xs, x ≤ k := by
  induction xs with
  | nil => simp
  | cons x xs ih => rw [List.foldr_cons, Nat.max_le, ih, List.forall_mem_cons]

/-- A tree has no more than so many levels exactly if nothing lies beneath them. -/
theorem depth_le_iff {n : Node} {levels : Nat} : n.depth ≤ levels ↔ n.beneath levels = [] := by
  induction n using induction_on_children generalizing levels with
  | h n ih =>
    have hchildren : ∀ k, (n.children.map depth).foldr max 0 ≤ k ↔
        n.children.flatMap (beneath k) = [] := by
      intro k
      rw [foldr_max_le, List.forall_mem_map, List.flatMap_eq_nil_iff]
      exact forall₂_congr fun c hc => ih c hc
    rw [depth_eq]
    cases hn : n.kind.nests with
    | false =>
      rw [beneath_of_not_nests hn, ← hchildren]
      simp
    | true =>
      cases levels with
      | zero => simp [beneath_zero hn]
      | succ levels =>
        rw [beneath_succ hn, ← hchildren, if_pos rfl]
        omega

/-- Resolving references leaves the levels of a tree as they are. -/
theorem beneath_resolve (f : GroupName → List Nat) (n : Node) (levels : Nat) :
    (n.resolve f).beneath levels = (n.beneath levels).map (resolve f) := by
  induction n using induction_on_children generalizing levels with
  | h n ih =>
    have hchildren : ∀ k, (n.resolve f).children.flatMap (beneath k) =
        (n.children.flatMap (beneath k)).map (resolve f) := by
      intro k
      rw [children_resolve, List.flatMap_map, List.map_flatMap, List.flatMap_def, List.flatMap_def,
        List.map_congr_left fun c hc => ih c hc k]
    cases hn : n.kind.nests with
    | false =>
      rw [beneath_of_not_nests hn, beneath_of_not_nests (by rwa [kind_resolve]), hchildren]
    | true =>
      have hn' : (n.resolve f).kind.nests = true := by rwa [kind_resolve]
      cases levels with
      | zero =>
        rw [beneath_zero hn, beneath_zero hn']
        rfl
      | succ levels => rw [beneath_succ hn, beneath_succ hn', hchildren]

end Node

/-! ## Pieces of a tree

What lies beneath so many levels of a piece, given by the offsets at which it starts, since that is
where a fault would be reported. -/

namespace Piece

/-- Where the nodes of a part of a tree start that nest, with just so many others above them. -/
def beneath (levels : Nat) (x : Piece) : List Nat :=
  (x.nodes.flatMap (Node.beneath levels)).map (·.span.start)

/-- The same for a node that nests and starts at the given offset, with the part of a tree inside
it. -/
def enclosed (start : Nat) : Nat → Piece → List Nat
  | 0, _ => [start]
  | levels + 1, x => x.beneath levels

section Laws

variable (levels : Nat) (span : Span)

theorem beneath_single {x : Piece} {n : Node} (hx : x.nodes = [n]) :
    x.beneath levels = (n.beneath levels).map (·.span.start) := by
  rw [beneath, hx, List.flatMap_singleton]

/-- A node that does not nest adds nothing to what lies beneath the levels in its parts. -/
theorem beneath_around {x y : Piece} {n : Node} (hx : x.nodes = [n]) (hn : n.kind.nests = false)
    (hy : n.children = y.nodes) : x.beneath levels = y.beneath levels := by
  rw [beneath_single levels hx, Node.beneath_of_not_nests hn, hy]
  rfl

theorem beneath_leaf {x : Piece} {n : Node} (hx : x.nodes = [n]) (hn : n.kind.nests = false)
    (hc : n.children = []) : x.beneath levels = [] := by
  rw [beneath_single levels hx, Node.beneath_leaf hn hc]
  rfl

/-- A node that nests has one level less for its parts. -/
theorem beneath_nesting {x y : Piece} {n : Node} (hx : x.nodes = [n]) (hn : n.kind.nests = true)
    (hy : n.children.flatMap (Node.beneath (levels - 1)) =
      y.nodes.flatMap (Node.beneath (levels - 1))) :
    x.beneath levels = y.enclosed n.span.start levels := by
  rw [beneath_single levels hx]
  cases levels with
  | zero =>
    rw [Node.beneath_zero hn]
    rfl
  | succ levels =>
    rw [Node.beneath_succ hn, show levels = levels + 1 - 1 from rfl, hy]
    rfl

/-! ### Classes

Classes nest, what is in them besides classes does not. -/

@[simp] theorem beneath_character (c : Character) :
    (element (.character c)).beneath levels = [] := beneath_leaf levels rfl rfl rfl

@[simp] theorem beneath_range (c d : Character) :
    (element (.range span c d)).beneath levels = [] := by
  rw [beneath_single levels rfl, Node.beneath_of_not_nests rfl, Node.children_range]
  simp [Node.beneath_leaf (n := .charSet (.character _)) rfl rfl]

@[simp] theorem beneath_strings (xs : List ClassString) :
    (element (.strings span xs)).beneath levels = [] := by
  have hstring : ∀ x : ClassString, (Node.classString x).beneath levels = [] := by
    intro x
    rw [Node.beneath_of_not_nests rfl, Node.children_classString, List.flatMap_map]
    simp [Node.beneath_leaf (n := .charSet (.character _)) rfl rfl]
  rw [beneath_single levels rfl, Node.beneath_of_not_nests rfl, Node.children_strings,
    List.flatMap_map]
  simp [hstring]

theorem beneath_setSpelling {g : Grammar} {cs : List CodePoint} {make : Span → CharSet}
    (h : SetSpelling g cs make) : (element (make span)).beneath levels = [] := by
  cases h <;> exact beneath_leaf levels rfl rfl rfl

@[simp] theorem beneath_operation (op : SetOperation) (x y : CharSet) :
    (element (.operation span op x y)).beneath levels =
      (element x).beneath levels ++ (element y).beneath levels := by
  have hkind : (Node.charSet (.operation span op x y)).kind.nests = false := by cases op <;> rfl
  rw [beneath_single levels rfl, Node.beneath_of_not_nests hkind, Node.children_operation]
  simp [beneath, nodes]

@[simp] theorem beneath_noElement : (elements []).beneath levels = [] := rfl

@[simp] theorem beneath_elements (x : CharSet) (xs : List CharSet) :
    (elements (x :: xs)).beneath levels =
      (element x).beneath levels ++ (elements xs).beneath levels := by
  simp [beneath, nodes]

/-- Beneath a class stands what is beneath its elements, one level further down. -/
@[simp] theorem beneath_listing (negated sets : Bool) (xs : List CharSet) :
    (charClass (.listing span negated sets xs)).beneath levels =
      (elements xs).enclosed span.start levels := by
  apply beneath_nesting levels (n := .charSet (.listing span negated sets xs)) rfl rfl
  rw [Node.children_listing]
  rfl

@[simp] theorem beneath_expression (negated : Bool) (x : CharSet) :
    (charClass (.expression span negated x)).beneath levels =
      (element x).enclosed span.start levels := by
  apply beneath_nesting levels (n := .charSet (.expression span negated x)) rfl rfl
  rw [Node.children_expression]
  rfl

/-! ### Terms

Groups and lookarounds nest; quantifiers, sequences and alternatives do not. -/

theorem beneath_leafTerm {e : Term} (h : e.kind.nests = false) (hc : (Node.term e).children = []) :
    (term e).beneath levels = [] := beneath_leaf levels rfl h hc

@[simp] theorem beneath_set (x : CharSet) :
    (term (.set x)).beneath levels = (element x).beneath levels := by
  rw [beneath_single levels rfl, beneath_single levels rfl]
  have hchildren : (Node.term (.set x)).children = (Node.charSet x).children := rfl
  cases hx : x.kind.nests with
  | false =>
    rw [Node.beneath_of_not_nests (n := .term (.set x)) hx,
      Node.beneath_of_not_nests (n := .charSet x) hx, hchildren]
  | true =>
    cases levels with
    | zero =>
      rw [Node.beneath_zero (n := .term (.set x)) hx, Node.beneath_zero (n := .charSet x) hx]
      rfl
    | succ levels =>
      rw [Node.beneath_succ (n := .term (.set x)) hx, Node.beneath_succ (n := .charSet x) hx,
        hchildren]

@[simp] theorem beneath_look (direction : Direction) (negated : Bool) (qs : List Sequence) :
    (term (.look span direction negated qs)).beneath levels =
      (disjunction qs).enclosed span.start levels := by
  apply beneath_nesting levels (n := .term (.look span direction negated qs)) rfl rfl
  rw [Node.children_look]
  rfl

theorem beneath_modifiers (m : Modifiers) : (Node.modifiers m).beneath levels = [] := by
  have hflags : ∀ f, (Node.modifierFlags f).beneath levels = [] := fun f =>
    Node.beneath_leaf rfl rfl levels
  rw [Node.beneath_of_not_nests rfl]
  cases hr : m.remove <;> simp [Node.children, Node.fields, Field.parts, hr, hflags]

/-- Beneath a group stands what is beneath its alternatives, one level further down. -/
@[simp] theorem beneath_group (m : Option Modifiers) (qs : List Sequence) :
    (term (.group span m qs)).beneath levels = (disjunction qs).enclosed span.start levels := by
  apply beneath_nesting levels (n := .term (.group span m qs)) rfl rfl
  cases m with
  | none => rw [Node.children_group_none]; rfl
  | some m =>
    rw [Node.children_group_some, List.flatMap_cons, beneath_modifiers]
    rfl

@[simp] theorem beneath_capture (index : Nat) (name : Option GroupName) (qs : List Sequence) :
    (term (.capture span index name qs)).beneath levels =
      (disjunction qs).enclosed span.start levels := by
  apply beneath_nesting levels (n := .term (.capture span index name qs)) rfl rfl
  rw [Node.children_capture]
  rfl

@[simp] theorem beneath_quantified (r : Repetition) (e : Term) :
    (term (.quantified span r e)).beneath levels = (term e).beneath levels :=
  beneath_around levels rfl rfl (Node.children_quantified span r e)

/-- Beneath terms in a row stands what is beneath each of them, in order. -/
@[simp] theorem beneath_terms (e : Term) (es : List Term) :
    (terms (e :: es)).beneath levels = (term e).beneath levels ++ (terms es).beneath levels := by
  simp [beneath, nodes]

theorem beneath_append (es fs : List Term) :
    (terms (es ++ fs)).beneath levels = (terms es).beneath levels ++ (terms fs).beneath levels := by
  simp [beneath, nodes]

@[simp] theorem beneath_sequence (es : List Term) :
    (sequence (.mk span es)).beneath levels = (terms es).beneath levels :=
  beneath_around levels rfl rfl (Node.children_sequence span es)

@[simp] theorem beneath_noAlternative : (alternatives []).beneath levels = [] := rfl

@[simp] theorem beneath_alternatives (q : Sequence) (qs : List Sequence) :
    (alternatives (q :: qs)).beneath levels =
      (sequence q).beneath levels ++ (alternatives qs).beneath levels := by
  simp [beneath, nodes]

theorem beneath_disjunction (qs : List Sequence) :
    (disjunction qs).beneath levels = (alternatives qs).beneath levels := rfl

end Laws

end Piece

/-- Where the nodes of a pattern start that nest, with just so many others above them. -/
def Pattern.beneath (levels : Nat) (p : Pattern) : List Nat :=
  ((Node.pattern p).beneath levels).map (·.span.start)

/-- What lies beneath some levels of a pattern lies there in its alternatives, also when its
references have been resolved. -/
theorem Pattern.beneath_resolve (p : Pattern) (f : GroupName → List Nat) (levels : Nat) :
    (p.resolve f).beneath levels = (Piece.disjunction p.alternatives).beneath levels := by
  have hnode : Node.pattern (p.resolve f) = (Node.pattern p).resolve f := rfl
  rw [Pattern.beneath, hnode, Node.beneath_resolve, List.map_map, Node.beneath_of_not_nests rfl,
    Node.children_pattern, Piece.beneath]
  apply List.map_congr_left
  intro n _
  exact congrArg Span.start (Node.span_resolve f n)

/-! ## In the order of the text

The first of the constructs that are too deep is the first in the text. This is needed to know which
of them the parser comes to first. -/

/-- The offsets go up, from one offset to another. -/
def Ascends : Nat → List Nat → Nat → Prop
  | i, [], j => i ≤ j
  | i, k :: ks, j => i ≤ k ∧ Ascends k ks j

namespace Ascends

variable {i j k : Nat} {xs ys : List Nat}

theorem le (h : Ascends i xs j) : i ≤ j := by
  induction xs generalizing i with
  | nil => exact h
  | cons x xs ih => exact Nat.le_trans h.1 (ih h.2)

theorem of_le (hij : i ≤ j) (h : Ascends j xs k) : Ascends i xs k := by
  cases xs with
  | nil => exact Nat.le_trans hij h
  | cons x xs => exact ⟨Nat.le_trans hij h.1, h.2⟩

/-- Offsets that go up go up when put one after the other. -/
theorem append (h : Ascends i xs j) (h' : Ascends j ys k) : Ascends i (xs ++ ys) k := by
  induction xs generalizing i with
  | nil => exact h'.of_le h
  | cons x xs ih => exact ⟨h.1, ih h.2⟩

theorem le_of_mem {x : Nat} (h : Ascends i xs j) (hx : x ∈ xs) : i ≤ x := by
  induction xs generalizing i with
  | nil => cases hx
  | cons y ys ih =>
    rcases List.mem_cons.mp hx with rfl | hx
    · exact h.1
    · exact Nat.le_trans h.1 (ih h.2 hx)

/-- The first offset is the least. -/
theorem head_le {x : Nat} (h : Ascends i xs j) (hi : xs.head? = some k) (hx : x ∈ xs) : k ≤ x := by
  cases xs with
  | nil => cases hi
  | cons y ys =>
    cases hi
    rcases List.mem_cons.mp hx with rfl | hx
    · exact Nat.le_refl _
    · exact h.2.le_of_mem hx

end Ascends

section Derivations

variable {g : Grammar} {s t u v : State}

theorem Ascends.of_reaches (h : s.cursor.Reaches t.cursor) :
    Ascends s.cursor.index [] t.cursor.index := h.index_le

/-- What is enclosed starts in order, and so does the node around it. -/
theorem Piece.enclosed_ascends {x : Piece} {levels : Nat} (hst : s.cursor.Reaches t.cursor)
    (hx : ∀ levels, Ascends t.cursor.index (x.beneath levels) u.cursor.index)
    (huv : u.cursor.Reaches v.cursor) :
    Ascends s.cursor.index (x.enclosed s.cursor.index levels) v.cursor.index := by
  have hle := hst.index_le
  have hle' := huv.index_le
  cases levels with
  | zero => exact ⟨Nat.le_refl _, Nat.le_trans hle (Nat.le_trans (hx 0).le hle')⟩
  | succ levels =>
    have happend := ((hx levels).of_le hle).append (.of_reaches huv)
    rwa [List.append_nil] at happend

/-- What lies beneath some levels starts in the order of the text. -/
theorem Derives.beneath_ascends {x : Piece} (h : Derives g s x t) (levels : Nat) :
    Ascends s.cursor.index (x.beneath levels) t.cursor.index := by
  -- the induction forgets where the whole piece was read, which ranges and strings need
  have hself := h
  induction h generalizing levels with
  | character h =>
    rw [Piece.beneath_character]
    exact .of_reaches h.reaches
  | setEscape h =>
    cases h with
    | mk h hr =>
      rw [Piece.beneath_setSpelling levels _ h]
      exact .of_reaches hr.cursor.reaches
  | range =>
    rw [Piece.beneath_range]
    exact .of_reaches hself.reaches
  | strings =>
    rw [Piece.beneath_strings]
    exact .of_reaches hself.reaches
  | operation _ hx hsign hy ihx ihy =>
    rw [Piece.beneath_operation]
    exact (ihx levels hx).append ((ihy levels hy).of_le hsign.cursor.reaches.index_le)
  | nested _ h ih => exact ih levels h
  | noElement => exact Nat.le_refl _
  | consElement h hs ih ihs =>
    rw [Piece.beneath_elements]
    exact (ih levels h).append (ihs levels hs)
  -- what is enclosed has one level less, so the hypothesis is needed at all levels
  | listing hopen h hclose _ ih =>
    rw [Piece.beneath_listing]
    exact Piece.enclosed_ascends hopen.cursor.reaches (fun l => ih l h) hclose.cursor.reaches
  | expression _ hopen h hclose _ _ ih =>
    rw [Piece.beneath_expression]
    exact Piece.enclosed_ascends hopen.cursor.reaches (fun l => ih l h) hclose.cursor.reaches
  | termCharacter h _ =>
    rw [Piece.beneath_set, Piece.beneath_character]
    exact .of_reaches h.reaches
  | termEscape h =>
    cases h with
    | mk h hr =>
      rw [Piece.beneath_set, Piece.beneath_setSpelling levels _ h]
      exact .of_reaches hr.cursor.reaches
  | termClass h ih =>
    rw [Piece.beneath_set]
    exact ih levels h
  | any h | edge h | wordBoundary h | numbered _ _ _ _ h | named _ _ h =>
    rw [Piece.beneath_leafTerm levels rfl rfl]
    exact .of_reaches h.cursor.reaches
  | look _ hopen h hclose ih =>
    rw [Piece.beneath_look]
    exact Piece.enclosed_ascends hopen.cursor.reaches (fun l => ih l h) hclose.cursor.reaches
  | group hopen h hclose ih =>
    rw [Piece.beneath_group]
    exact Piece.enclosed_ascends hopen.cursor.reaches (fun l => ih l h) hclose.cursor.reaches
  | modifiedGroup _ hopen hm hcolon h hclose ih =>
    rw [Piece.beneath_group]
    exact Piece.enclosed_ascends
      (hopen.cursor.reaches.trans (hm.reaches.trans hcolon.cursor.reaches)) (fun l => ih l h)
      hclose.cursor.reaches
  | capture hopen _ h hclose ih | namedCapture _ _ _ hopen h hclose ih =>
    rw [Piece.beneath_capture]
    exact Piece.enclosed_ascends hopen.cursor.reaches (fun l => ih l h) hclose.cursor.reaches
  | quantified h _ hr ih =>
    have happend := (ih levels h).append (Ascends.of_reaches hr.cursor.reaches)
    rwa [List.append_nil, ← Piece.beneath_quantified] at happend
  | noTerm => exact Nat.le_refl _
  | consTerm h hs ih ihs =>
    rw [Piece.beneath_terms]
    exact (ih levels h).append (ihs levels hs)
  | sequence h ih =>
    rw [Piece.beneath_sequence]
    exact ih levels h
  | lastAlternative h ih =>
    rw [Piece.beneath_alternatives, Piece.beneath_noAlternative, List.append_nil]
    exact ih levels h
  | consAlternative h hbar hs ih ihs =>
    rw [Piece.beneath_alternatives]
    exact (ih levels h).append ((ihs levels hs).of_le hbar.cursor.reaches.index_le)
  | disjunction h ih => exact ih levels h

end Derivations

end EcmaPattern
