import EcmaPattern.Proofs.Captures
import Mathlib.Data.List.Nodup
import Mathlib.Data.List.Pairwise

/-!
# Places of groups

While a pattern is read, the place of a group is the path of alternatives that leads to it. Whether
the paths of two groups part in one disjunction can be told from the tree: they do exactly if the
groups stand in different alternatives of one node (`Derives.places`). So the rule for names that
stand twice, which the scope states about paths, is a rule about trees (`admits_iff_namesApart`).

The scope keeps a path for each group: which alternative of which disjunction it is in, from the
outermost one inwards. `PlacedFrom` says that the groups of a piece of a tree have paths that extend
the path at which the piece was read, and that two of them part as the tree says. It is shown along
derivations, so once for all parsers.

Key lemmas:

* `PlacedFrom.append`, for pieces one after the other;
* `PlacedFrom.disjunction`, where paths begin to part;
* `Derives.places`, by induction on the derivation.
-/

namespace EcmaPattern

/-! ## Groups in different alternatives

The relation that the rule for names speaks of, on trees. `Divides` asks it of a list of
alternatives, and `Parts` of any node beneath. -/

/-- The two groups stand in different ones of the alternatives. -/
def Divides (qs : List Sequence) (c d : Capture) : Prop :=
  ∃ (i j : Nat) (q q' : Sequence), i ≠ j ∧ qs[i]? = some q ∧ qs[j]? = some q' ∧
    c ∈ (Node.sequence q).captures ∧ d ∈ (Node.sequence q').captures

namespace Divides

variable {qs : List Sequence} {q : Sequence} {c d : Capture}

/-- Which of the groups is named first does not matter. -/
theorem symm (h : Divides qs c d) : Divides qs d c := by
  obtain ⟨i, j, q, q', hne, hi, hj, hc, hd⟩ := h
  exact ⟨j, i, q', q, hne.symm, hj, hi, hd, hc⟩

/-- Groups that stand in different alternatives are groups of the alternatives. -/
theorem mem (h : Divides qs c d) : c ∈ (Piece.disjunction qs).captures := by
  obtain ⟨i, j, q, q', -, hi, -, hc, -⟩ := h
  exact List.mem_flatMap.mpr ⟨.sequence q, List.mem_map_of_mem (List.mem_of_getElem? hi), hc⟩

theorem cons (h : Divides qs c d) : Divides (q :: qs) c d := by
  obtain ⟨i, j, p, p', hne, hi, hj, hc, hd⟩ := h
  exact ⟨i + 1, j + 1, p, p', by omega, hi, hj, hc, hd⟩

/-- A group of the first alternative and one of the others. -/
theorem first (hc : c ∈ (Node.sequence q).captures)
    (hd : d ∈ (Piece.alternatives qs).captures) : Divides (q :: qs) c d := by
  obtain ⟨n, hn, hd⟩ := List.mem_flatMap.mp hd
  obtain ⟨q', hq', rfl⟩ := List.mem_map.mp hn
  obtain ⟨j, hj⟩ := List.mem_iff_getElem?.mp hq'
  exact ⟨0, j + 1, q, q', by omega, rfl, hj, hc, hd⟩

/-- If both stand in the alternatives after the first, they are divided there, unless one of them
stands in the first as well. -/
theorem of_cons (h : Divides (q :: qs) c d) (hc : c ∉ (Node.sequence q).captures)
    (hd : d ∉ (Node.sequence q).captures) : Divides qs c d := by
  obtain ⟨i, j, p, p', hne, hi, hj, hpc, hpd⟩ := h
  cases i with
  | zero =>
    cases hi
    exact absurd hpc hc
  | succ i =>
    cases j with
    | zero =>
      cases hj
      exact absurd hpd hd
    | succ j => exact ⟨i, j, p, p', by omega, hi, hj, hpc, hpd⟩

/-- A single alternative divides nothing. -/
theorem not_single : ¬ Divides [q] c d := by
  rintro ⟨i, j, p, p', hne, hi, hj, -, -⟩
  have hi := (List.getElem?_eq_some_iff.mp hi).1
  have hj := (List.getElem?_eq_some_iff.mp hj).1
  simp only [List.length_singleton] at hi hj
  omega

/-- If neither stands in the alternatives after the first, they are not divided. -/
theorem mem_rest (h : Divides (q :: qs) c d) :
    c ∈ (Piece.alternatives qs).captures ∨ d ∈ (Piece.alternatives qs).captures := by
  obtain ⟨i, j, p, p', hne, hi, hj, hc, hd⟩ := h
  have hrest : ∀ {k p e}, (q :: qs)[k + 1]? = some p → e ∈ (Node.sequence p).captures →
      e ∈ (Piece.alternatives qs).captures := by
    intro k p e hk he
    exact List.mem_flatMap.mpr ⟨.sequence p, List.mem_map_of_mem (List.mem_of_getElem? hk), he⟩
  cases i with
  | succ i => exact .inl (hrest hi hc)
  | zero =>
    cases j with
    | zero => exact absurd rfl hne
    | succ j => exact .inr (hrest hj hd)

end Divides

namespace Node

/-- The alternatives of a node, if it is a pattern, a group or a lookaround. -/
def alternatives : Node → List Sequence
  | pattern p => p.alternatives
  | term (.group _ _ qs) => qs
  | term (.capture _ _ _ qs) => qs
  | term (.look _ _ _ qs) => qs
  | _ => []

theorem mem_children_of_mem_alternatives {n : Node} {q : Sequence} (h : q ∈ n.alternatives) :
    sequence q ∈ n.children := by
  have hq := List.mem_map_of_mem (f := sequence) h
  cases n with
  | pattern p =>
    rw [children_pattern]
    exact hq
  | term e =>
    cases e with
    | group span m qs =>
      cases m with
      | none => rw [children_group_none]; exact hq
      | some m => rw [children_group_some]; exact List.mem_cons_of_mem _ hq
    | capture span index name qs => rw [children_capture]; exact hq
    | look span direction negated qs => rw [children_look]; exact hq
    | _ => cases h
  | _ => cases h

/-- Somewhere in the tree there is a node such that the two groups stand in different alternatives
of it. -/
def Parts (n : Node) (c d : Capture) : Prop := ∃ m ∈ n.descendants, Divides m.alternatives c d

/-- Groups part in a tree if they part at its root or below a child. -/
theorem parts_iff {n : Node} {c d : Capture} :
    n.Parts c d ↔ Divides n.alternatives c d ∨ ∃ k ∈ n.children, k.Parts c d := by
  rw [Parts, descendants_eq]
  constructor
  · rintro ⟨m, hm, h⟩
    rcases List.mem_cons.mp hm with rfl | hm
    · exact .inl h
    · obtain ⟨k, hk, hm⟩ := List.mem_flatMap.mp hm
      exact .inr ⟨k, hk, m, hm, h⟩
  · rintro (h | ⟨k, hk, m, hm, h⟩)
    · exact ⟨n, List.mem_cons_self, h⟩
    · exact ⟨m, List.mem_cons_of_mem _ (List.mem_flatMap.mpr ⟨k, hk, hm⟩), h⟩

namespace Parts

variable {n : Node} {c d : Capture}

/-- Which of the groups is named first does not matter. -/
theorem symm (h : n.Parts c d) : n.Parts d c := by
  obtain ⟨m, hm, h⟩ := h
  exact ⟨m, hm, h.symm⟩

theorem mem (h : n.Parts c d) : c ∈ n.captures := by
  induction n using induction_on_children with
  | h n ih =>
    rw [captures_eq, List.mem_append, List.mem_flatMap]
    right
    rcases parts_iff.mp h with h | ⟨k, hk, h⟩
    · obtain ⟨k, hk, hc⟩ := List.mem_flatMap.mp h.mem
      refine ⟨k, ?_, hc⟩
      obtain ⟨q, hq, rfl⟩ := List.mem_map.mp hk
      exact mem_children_of_mem_alternatives hq
    · exact ⟨k, hk, ih k hk h⟩

end Parts

end Node

/-! ## Pieces of a tree

Derivations speak of pieces, which may be terms, sequences of terms or alternatives. For each
constructor, two groups are apart in the whole if they are apart in a part, or stand in two of its
alternatives. -/

namespace Piece

/-- The alternatives that a part of a tree consists of, if it does. -/
def choices : Piece → List Sequence
  | alternatives qs => qs
  | disjunction qs => qs
  | _ => []

/-- The two groups stand in different alternatives of the part of a tree, or of a node in it. -/
def Parts (x : Piece) (c d : Capture) : Prop :=
  Divides x.choices c d ∨ ∃ n ∈ x.nodes, n.Parts c d

theorem not_divides_nil {c d : Capture} : ¬ Divides [] c d := by
  rintro ⟨i, j, q, q', -, hi, -⟩
  cases hi

section Laws

variable {x y : Piece} {c d : Capture}

theorem Parts.symm (h : x.Parts c d) : x.Parts d c := by
  rcases h with h | ⟨n, hn, h⟩
  · exact .inl h.symm
  · exact .inr ⟨n, hn, h.symm⟩

theorem Parts.mem (h : x.Parts c d) : c ∈ x.captures := by
  rcases h with h | ⟨n, hn, h⟩
  · cases x with
    | alternatives qs => exact h.mem
    | disjunction qs => exact h.mem
    | _ => exact absurd h not_divides_nil
  · exact List.mem_flatMap.mpr ⟨n, hn, h.mem⟩

/-- Where a part of a tree is one node without alternatives, groups part in it as they do below the
node. -/
theorem parts_single {n : Node} (hx : x.nodes = [n]) (hchoices : x.choices = []) :
    x.Parts c d ↔ n.Parts c d := by
  simp [Parts, hx, hchoices, not_divides_nil]

/-- The groups of a node that has alternatives part in these or in a node of them. -/
theorem parts_enclosed {qs : List Sequence} {n : Node} (hx : x.nodes = [n])
    (hchoices : x.choices = []) (hqs : n.alternatives = qs)
    (hchildren : ∃ ns : List Node, n.children = ns ++ qs.map .sequence ∧
      ∀ m ∈ ns, m.captures = []) :
    x.Parts c d ↔ (disjunction qs).Parts c d := by
  obtain ⟨ns, hns, hnone⟩ := hchildren
  rw [parts_single hx hchoices, Node.parts_iff, hqs, hns, Parts]
  apply or_congr_right
  constructor
  · rintro ⟨k, hk, h⟩
    rcases List.mem_append.mp hk with hk | hk
    · have hmem := h.mem
      rw [hnone k hk] at hmem
      cases hmem
    · exact ⟨k, hk, h⟩
  · rintro ⟨k, hk, h⟩
    exact ⟨k, List.mem_append_right _ hk, h⟩

variable (span : Span)

theorem parts_look (direction : Direction) (negated : Bool) (qs : List Sequence) :
    (term (.look span direction negated qs)).Parts c d ↔ (disjunction qs).Parts c d :=
  parts_enclosed rfl rfl rfl
    ⟨[], Node.children_look span direction negated qs, List.forall_mem_nil _⟩

theorem parts_group (m : Option Modifiers) (qs : List Sequence) :
    (term (.group span m qs)).Parts c d ↔ (disjunction qs).Parts c d := by
  refine parts_enclosed (n := .term (.group span m qs)) rfl rfl rfl ?_
  cases m with
  | none => exact ⟨[], Node.children_group_none span qs, List.forall_mem_nil _⟩
  | some m =>
    refine ⟨[.modifiers m], Node.children_group_some _ _ _, fun n hn => ?_⟩
    rw [List.mem_singleton.mp hn, Node.captures_modifiers]

theorem parts_capture (index : Nat) (name : Option GroupName) (qs : List Sequence) :
    (term (.capture span index name qs)).Parts c d ↔ (disjunction qs).Parts c d :=
  parts_enclosed rfl rfl rfl ⟨[], Node.children_capture span index name qs, List.forall_mem_nil _⟩

/-- The groups of a node that has no alternatives part in the nodes under it. -/
theorem parts_around {n : Node} (hx : x.nodes = [n]) (hchoices : x.choices = [])
    (hn : n.alternatives = []) (hy : n.children = y.nodes) (hy' : y.choices = []) :
    x.Parts c d ↔ y.Parts c d := by
  rw [parts_single hx hchoices, Node.parts_iff, hn, hy, Parts, hy']

theorem parts_quantified (r : Repetition) (e : Term) :
    (term (.quantified span r e)).Parts c d ↔ (term e).Parts c d :=
  parts_around rfl rfl rfl (Node.children_quantified span r e) rfl

theorem parts_sequence (es : List Term) :
    (sequence (.mk span es)).Parts c d ↔ (terms es).Parts c d :=
  parts_around rfl rfl rfl (Node.children_sequence span es) rfl

/-- Groups part in terms if they part in one of them. Terms in a row are no choice. -/
theorem parts_terms (e : Term) (es : List Term) :
    (terms (e :: es)).Parts c d ↔ (term e).Parts c d ∨ (terms es).Parts c d := by
  simp [Parts, choices, nodes, not_divides_nil]

/-- Groups part in alternatives if these divide them or one of these parts them. -/
theorem parts_alternatives (q : Sequence) (qs : List Sequence) :
    (alternatives (q :: qs)).Parts c d ↔
      Divides (q :: qs) c d ∨ (sequence q).Parts c d ∨
        ∃ n ∈ (alternatives qs).nodes, n.Parts c d := by
  simp [Parts, choices, nodes, not_divides_nil]

end Laws

end Piece

/-! ## Paths

Serial numbers tell disjunctions apart. They grow, so that a path that is entered later is different
from all paths before it. -/

namespace ForkPath

/-- A fork that both paths take alike separates nothing. -/
theorem separated_cons_self (f : Fork) (r r' : ForkPath) :
    separated (f :: r) (f :: r') = separated r r' := by
  rw [separated, if_pos rfl]

theorem separated_nil_left (r : ForkPath) : separated [] r = false := rfl

/-- Paths that go on in different alternatives of one disjunction. -/
theorem separated_of_alternatives {serial a b : Nat} (h : a ≠ b) (r r' : ForkPath) :
    separated (⟨serial, a⟩ :: r) (⟨serial, b⟩ :: r') = true := by
  rw [separated, if_neg (by simpa using h)]
  exact beq_self_eq_true serial

/-- Paths that go on in different disjunctions. -/
theorem separated_of_serials {r r' : ForkPath}
    (h : ∀ f ∈ r, ∀ f' ∈ r', f.serial ≠ f'.serial) : separated r r' = false := by
  cases r with
  | nil => rfl
  | cons f r =>
    cases r' with
    | nil => rfl
    | cons f' r' =>
      have hne := h f List.mem_cons_self f' List.mem_cons_self
      rw [separated, if_neg (fun heq => hne (congrArg Fork.serial heq))]
      exact beq_false_of_ne hne

end ForkPath

/-- How a group is declared to which the path leads from a place, if it has a name. -/
def Capture.declaration? (place : ForkPath) (p : Capture × ForkPath) : Option Declaration :=
  p.1.name.map fun name => ⟨name, place ++ p.2, p.1.index⟩

/-- Between two scopes, the groups of a part of a tree are declared where their paths lead from a
place, and these paths are separated exactly if the groups part in the tree. -/
structure Placed (place : ForkPath) (scope : GroupScope) (x : Piece)
    (ps : List (Capture × ForkPath)) (scope' : GroupScope) : Prop where
  captures : ps.map Prod.fst = x.captures
  declared : scope'.declarations = scope.declarations ++ ps.filterMap (Capture.declaration? place)
  parts : ps.Pairwise fun p p' => ForkPath.separated p.2 p'.2 = true ↔ x.Parts p.1 p'.1

/-- The groups of a part of a tree are declared at places that begin with the part's own. -/
theorem Placed.mem {place : ForkPath} {scope scope' : GroupScope} {x : Piece}
    {ps : List (Capture × ForkPath)} {p : Capture × ForkPath} (h : Placed place scope x ps scope')
    (hp : p ∈ ps) : p.1 ∈ x.captures := by
  rw [← h.captures]
  exact List.mem_map_of_mem hp

/-- The forks of a path belong to disjunctions that were entered between two scopes. -/
def FreshPath (scope : GroupScope) (r : ForkPath) (scope' : GroupScope) : Prop :=
  ∀ f ∈ r, scope.entered < f.serial ∧ f.serial ≤ scope'.entered

/-- The groups of a part of a tree that is read at one place. -/
def PlacedHere (scope : GroupScope) (x : Piece) (scope' : GroupScope) : Prop :=
  scope'.path = scope.path ∧ scope.entered ≤ scope'.entered ∧
    ∃ ps, Placed scope.path scope x ps scope' ∧ ∀ p ∈ ps, FreshPath scope p.2 scope'

/-- The groups of alternatives, of which the first is read at the scope's place. -/
def PlacedFrom (scope : GroupScope) (x : Piece) (scope' : GroupScope) : Prop :=
  ∀ place serial a, scope.path = place ++ [⟨serial, a⟩] →
    (∃ b, scope'.path = place ++ [⟨serial, b⟩]) ∧ scope.entered ≤ scope'.entered ∧
      ∃ ps, Placed place scope x ps scope' ∧
        ∀ p ∈ ps, ∃ b r, p.2 = ⟨serial, b⟩ :: r ∧ a ≤ b ∧ FreshPath scope r scope'

namespace PlacedHere

variable {scope scope' scope'' : GroupScope} {x y z : Piece}

theorem nil (hx : x.captures = []) : PlacedHere scope x scope := by
  refine ⟨rfl, Nat.le_refl _, [], ⟨hx.symm, (List.append_nil _).symm, .nil⟩, nofun⟩

/-- Only the groups of a part of a tree matter, and how they part in it. -/
theorem congr (hc : y.captures = x.captures) (hp : ∀ {c d}, y.Parts c d ↔ x.Parts c d)
    (h : PlacedHere scope x scope') : PlacedHere scope y scope' := by
  obtain ⟨hpath, hle, ps, hplaced, hfresh⟩ := h
  refine ⟨hpath, hle, ps, ⟨?_, hplaced.declared, ?_⟩, hfresh⟩
  · rw [hplaced.captures, hc]
  · exact hplaced.parts.imp fun h => h.trans hp.symm

/-- What is read one after the other. Groups of the two parts do not part, since the paths to them
go on in different disjunctions. -/
theorem append (h : PlacedHere scope x scope') (h' : PlacedHere scope' y scope'')
    (hc : z.captures = x.captures ++ y.captures)
    (hp : ∀ {c d}, z.Parts c d ↔ x.Parts c d ∨ y.Parts c d)
    (hdisjoint : ∀ c ∈ x.captures, c ∉ y.captures) : PlacedHere scope z scope'' := by
  obtain ⟨hpath, hle, ps, hplaced, hfresh⟩ := h
  obtain ⟨hpath', hle', ps', hplaced', hfresh'⟩ := h'
  refine ⟨hpath'.trans hpath, Nat.le_trans hle hle', ps ++ ps', ⟨?_, ?_, ?_⟩, ?_⟩
  · rw [List.map_append, hplaced.captures, hplaced'.captures, hc]
  · rw [hplaced'.declared, hplaced.declared, hpath, List.filterMap_append, List.append_assoc]
  -- two groups of the first part, two of the second, or one of each
  · refine List.pairwise_append.mpr ⟨?_, ?_, ?_⟩
    · refine hplaced.parts.imp_of_mem fun hfirst _ h => h.trans ?_
      exact ⟨fun hx => hp.mpr (.inl hx), fun hz => (hp.mp hz).resolve_right fun hy =>
        hdisjoint _ (hplaced.mem hfirst) hy.mem⟩
    · refine hplaced'.parts.imp_of_mem fun hfirst _ h => h.trans ?_
      exact ⟨fun hy => hp.mpr (.inr hy), fun hz => (hp.mp hz).resolve_left fun hx =>
        hdisjoint _ hx.mem (hplaced'.mem hfirst)⟩
    · intro p hfirst p' hsecond
      -- serials of later disjunctions are greater, so the paths part in no disjunction
      have hseparated : ForkPath.separated p.2 p'.2 = false := by
        apply ForkPath.separated_of_serials
        intro f hf f' hf'
        have := (hfresh p hfirst f hf).2
        have := (hfresh' p' hsecond f' hf').1
        omega
      rw [hseparated]
      refine ⟨nofun, fun hz => ?_⟩
      rcases hp.mp hz with hx | hy
      · exact absurd (hplaced'.mem hsecond) (hdisjoint _ hx.symm.mem)
      · exact absurd hy.mem (hdisjoint _ (hplaced.mem hfirst))
  · intro p hp f hf
    rcases List.mem_append.mp hp with hp | hp
    · have := hfresh p hp f hf
      omega
    · have := hfresh' p hp f hf
      omega

/-- A capturing group is declared where it stands, and the groups inside it do not part from it. -/
theorem openCapture {span : Span} {index : Nat} {name : Option GroupName} {qs : List Sequence}
    (h : PlacedHere (match name with | some n => scope.declare n index | none => scope)
      (.disjunction qs) scope')
    (hnew : ⟨span.start, index, name⟩ ∉ (Piece.disjunction qs).captures) :
    PlacedHere scope (.term (.capture span index name qs)) scope' := by
  obtain ⟨hpath, hle, ps, hplaced, hfresh⟩ := h
  have hsame : (match name with | some n => scope.declare n index | none => scope).path =
      scope.path := by cases name <;> rfl
  have hentered : (match name with | some n => scope.declare n index | none => scope).entered =
      scope.entered := by cases name <;> rfl
  rw [hsame] at hpath hplaced
  rw [hentered] at hle
  -- the group has the place at which it opens; those inside it have longer paths
  refine ⟨hpath, hle, (⟨span.start, index, name⟩, []) :: ps, ⟨?_, ?_, ?_⟩, ?_⟩
  · rw [List.map_cons, hplaced.captures, Piece.captures_capture]
  · rw [hplaced.declared]
    cases name with
    | none => rfl
    | some n =>
      rw [List.filterMap_cons_some (b := ⟨n, scope.path, index⟩)
        (by simp [Capture.declaration?])]
      simp [GroupScope.declare]
  · refine List.pairwise_cons.mpr ⟨fun p hp => ?_, ?_⟩
    · rw [ForkPath.separated_nil_left, Piece.parts_capture]
      exact ⟨fun h => absurd h Bool.false_ne_true, fun h => absurd h.mem hnew⟩
    · exact hplaced.parts.imp fun h => h.trans (Piece.parts_capture ..).symm
  · intro p hp
    rcases List.mem_cons.mp hp with rfl | hp
    · exact List.forall_mem_nil _
    · intro f hf
      have := hfresh p hp f hf
      rwa [hentered] at this

/-- The alternatives of a disjunction, in a scope of their own. -/
theorem disjunction {qs : List Sequence}
    (h : PlacedFrom scope.enterDisjunction (.alternatives qs) scope') :
    PlacedHere scope (.disjunction qs) scope'.leaveDisjunction := by
  obtain ⟨⟨b, hpath⟩, hle, ps, hplaced, hfresh⟩ := h scope.path (scope.entered + 1) 0 rfl
  have hle : scope.entered + 1 ≤ scope'.entered := hle
  refine ⟨?_, by show scope.entered ≤ scope'.entered; omega, ps, ⟨hplaced.captures,
    hplaced.declared, hplaced.parts⟩, ?_⟩
  · show scope'.path.dropLast = _
    rw [hpath, List.dropLast_concat]
  · intro p hp f hf
    obtain ⟨b, r, heq, -, hr⟩ := hfresh p hp
    rw [heq] at hf
    show scope.entered < f.serial ∧ f.serial ≤ scope'.entered
    rcases List.mem_cons.mp hf with rfl | hf
    · simp only
      omega
    · have hserial : scope.entered + 1 < f.serial ∧ f.serial ≤ scope'.entered := hr f hf
      omega

end PlacedHere

/-- The same groups, seen from the place above. -/
theorem PlacedHere.above {place : ForkPath} {f : Fork} {scope scope' : GroupScope} {x : Piece}
    (h : PlacedHere scope x scope') (hplace : scope.path = place ++ [f]) :
    scope'.path = place ++ [f] ∧ scope.entered ≤ scope'.entered ∧
      ∃ ps, Placed place scope x ps scope' ∧
        ∀ p ∈ ps, ∃ r, p.2 = f :: r ∧ FreshPath scope r scope' := by
  obtain ⟨hpath, hle, ps, hplaced, hfresh⟩ := h
  rw [hplace] at hpath hplaced
  refine ⟨hpath, hle, ps.map fun p => (p.1, f :: p.2), ⟨?_, ?_, ?_⟩, ?_⟩
  · rw [List.map_map, ← hplaced.captures]
    rfl
  · rw [hplaced.declared, List.filterMap_map]
    congr 2
    funext p
    simp [Capture.declaration?]
  · rw [List.pairwise_map]
    refine hplaced.parts.imp fun h => ?_
    rw [ForkPath.separated_cons_self]
    exact h
  · intro p hp
    obtain ⟨p', hp', rfl⟩ := List.mem_map.mp hp
    exact ⟨p'.2, rfl, hfresh p' hp'⟩

/-- Going to the next alternative changes the last fork of the path alone. -/
theorem GroupScope.followingAlternative_eq {scope : GroupScope} {place : ForkPath}
    {serial a : Nat} (h : scope.path = place ++ [⟨serial, a⟩]) :
    scope.followingAlternative = { scope with path := place ++ [⟨serial, a + 1⟩] } := by
  have hlast : scope.path.getLast? = some ⟨serial, a⟩ := by rw [h, List.getLast?_concat]
  simp only [followingAlternative, enterAlternative, hlast]
  rw [h, List.dropLast_concat]

namespace PlacedFrom

variable {scope scope' scope'' : GroupScope} {q : Sequence} {qs : List Sequence}

/-- A single alternative is placed where it stands. -/
theorem last (h : PlacedHere scope (.sequence q) scope') :
    PlacedFrom scope (.alternatives [q]) scope' := by
  intro place serial a hplace
  obtain ⟨hpath, hle, ps, hplaced, hfresh⟩ := h.above hplace
  refine ⟨⟨a, hpath⟩, hle, ps, ⟨hplaced.captures, hplaced.declared, ?_⟩, ?_⟩
  · refine hplaced.parts.imp fun h => h.trans ?_
    rw [Piece.parts_alternatives]
    simp [Divides.not_single, Piece.nodes]
  · intro p hp
    obtain ⟨r, heq, hr⟩ := hfresh p hp
    exact ⟨a, r, heq, Nat.le_refl _, hr⟩

/-- Groups of different alternatives part. -/
theorem cons (h : PlacedHere scope (.sequence q) scope')
    (h' : PlacedFrom scope'.followingAlternative (.alternatives qs) scope'')
    (hdisjoint : ∀ c ∈ (Node.sequence q).captures, c ∉ (Piece.alternatives qs).captures) :
    PlacedFrom scope (.alternatives (q :: qs)) scope'' := by
  intro place serial a hplace
  obtain ⟨hpath, hle, ps, hplaced, hfresh⟩ := h.above hplace
  rw [GroupScope.followingAlternative_eq hpath] at h'
  -- behind the bar the path is the same but for the number of the alternative
  obtain ⟨hlast, hle', ps', hplaced', hfresh'⟩ := h' place serial (a + 1) rfl
  have hle' : scope'.entered ≤ scope''.entered := hle'
  have hmem : ∀ {p}, p ∈ ps → p.1 ∈ (Node.sequence q).captures := by
    intro p hp
    simpa [Piece.captures, Piece.nodes] using hplaced.mem hp
  refine ⟨hlast, Nat.le_trans hle hle', ps ++ ps', ⟨?_, ?_, ?_⟩, ?_⟩
  · rw [List.map_append, hplaced.captures, hplaced'.captures, Piece.captures_alternatives]
  · rw [hplaced'.declared, hplaced.declared, List.filterMap_append, List.append_assoc]
  · refine List.pairwise_append.mpr ⟨?_, ?_, ?_⟩
    · refine hplaced.parts.imp_of_mem fun hfirst hsecond h => h.trans ?_
      have hfirst := hdisjoint _ (hmem hfirst)
      have hsecond := hdisjoint _ (hmem hsecond)
      rw [Piece.parts_alternatives]
      refine ⟨fun hq => .inr (.inl hq), ?_⟩
      rintro (hq | hq | ⟨n, hn, hq⟩)
      · exact absurd hq.mem_rest (not_or.mpr ⟨hfirst, hsecond⟩)
      · exact hq
      · exact absurd (List.mem_flatMap.mpr ⟨n, hn, hq.mem⟩) hfirst
    · refine hplaced'.parts.imp_of_mem fun hfirst hsecond h => h.trans ?_
      have hfirst := fun hq => hdisjoint _ hq (hplaced'.mem hfirst)
      have hsecond := fun hq => hdisjoint _ hq (hplaced'.mem hsecond)
      rw [Piece.parts_alternatives]
      constructor
      · rintro (hqs | hqs)
        · exact .inl hqs.cons
        · exact .inr (.inr hqs)
      · rintro (hq | hq | hq)
        · exact .inl (hq.of_cons hfirst hsecond)
        · exact absurd ((Piece.parts_single rfl rfl).mp hq).mem hfirst
        · exact .inr hq
    -- a group before the bar and one behind it: here the paths part in this disjunction
    · intro p hp p' hp'
      obtain ⟨r, heq, -⟩ := hfresh p hp
      obtain ⟨b, r', heq', hb, -⟩ := hfresh' p' hp'
      rw [heq, heq', ForkPath.separated_of_alternatives (by omega), Piece.parts_alternatives]
      exact ⟨fun _ => .inl (.first (hmem hp) (hplaced'.mem hp')), fun _ => rfl⟩
  · intro p hp
    rcases List.mem_append.mp hp with hp | hp
    · obtain ⟨r, heq, hr⟩ := hfresh p hp
      refine ⟨a, r, heq, Nat.le_refl _, fun f hf => ?_⟩
      have := hr f hf
      omega
    · obtain ⟨b, r, heq, hb, hr⟩ := hfresh' p hp
      refine ⟨b, r, heq, by omega, fun f hf => ?_⟩
      have hserial : scope'.entered < f.serial ∧ f.serial ≤ scope''.entered := hr f hf
      omega

end PlacedFrom

/-! ## Along derivations

Groups get their places in the order in which they open, and the index of a group determines its
place. -/

section Derivations

variable {g : Grammar} {s t : State}

/-- The groups of a part of a tree have the numbers that follow. -/
theorem Derives.index_of_mem {x : Piece} {c : Capture} (h : Derives g s x t)
    (hc : c ∈ x.captures) : s.opened < c.index ∧ c.index ≤ t.opened := by
  have hnumbered := h.captures_numbered
  have hmem : c.index ∈ x.captures.map Capture.index := List.mem_map_of_mem hc
  rw [hnumbered.indexes, List.mem_range'_1] at hmem
  rw [hnumbered.opened]
  omega

def Piece.PlacedAt (scope : GroupScope) : Piece → GroupScope → Prop
  | alternatives qs, scope' => PlacedFrom scope (alternatives qs) scope'
  | x, scope' => PlacedHere scope x scope'

/-- No group of a tree stands twice. -/
theorem Derives.captures_nodup {x : Piece} (h : Derives g s x t) : x.captures.Nodup := by
  apply List.Nodup.of_map Capture.index
  rw [h.captures_numbered.indexes]
  exact List.nodup_range'

/-- The groups of a part of a tree that is read are declared where they stand in it. -/
theorem Derives.places {x : Piece} (h : Derives g s x t) : x.PlacedAt s.scope t.scope := by
  have hself := h
  induction h with
  | termCharacter h _ =>
    rw [h.keeps.scope]
    exact .nil (Piece.captures_set _)
  | termEscape h =>
    cases h with
    | mk _ hr =>
      rw [hr.scope]
      exact .nil (Piece.captures_set _)
  | termClass h _ =>
    rw [(h.keeps rfl).scope]
    exact .nil (Piece.captures_set _)
  | any h | edge h | wordBoundary h | numbered _ _ _ _ h | named _ _ h =>
    rw [h.scope]
    exact .nil (Piece.captures_leaf rfl rfl)
  | look _ hopen h hclose ih =>
    rw [hclose.scope, ← hopen.scope]
    exact PlacedHere.congr (Piece.captures_look _ _ _ _) (Piece.parts_look _ _ _ _) (ih h)
  | group hopen h hclose ih =>
    rw [hclose.scope, ← hopen.scope]
    exact PlacedHere.congr (Piece.captures_group _ _ _) (Piece.parts_group _ _ _) (ih h)
  | modifiedGroup _ hopen hm hcolon h hclose ih =>
    obtain ⟨cs, hread, -⟩ := hm.reads
    rw [hclose.scope, ← hopen.scope, ← hread.scope, ← hcolon.scope]
    exact PlacedHere.congr (Piece.captures_group _ _ _) (Piece.parts_group _ _ _) (ih h)
  -- a group is none of those inside it, since they have greater numbers
  | capture hopen _ h hclose ih | namedCapture _ _ _ hopen h hclose ih =>
    rw [hclose.scope, ← hopen.scope, ← hopen.opened]
    refine PlacedHere.openCapture (ih h) fun hmem => ?_
    exact Nat.lt_irrefl _ (h.index_of_mem hmem).1
  | quantified h _ hr ih =>
    rw [hr.scope]
    exact PlacedHere.congr (Piece.captures_quantified _ _ _) (Piece.parts_quantified _ _ _) (ih h)
  | noTerm s => exact PlacedHere.nil rfl
  | consTerm h hs ih ihs =>
    refine PlacedHere.append (ih h) (ihs hs) (Piece.captures_terms _ _) (Piece.parts_terms _ _) ?_
    intro c hc hc'
    have := h.index_of_mem hc
    have := hs.index_of_mem hc'
    omega
  | sequence h ih =>
    exact PlacedHere.congr (Piece.captures_sequence _ _) (Piece.parts_sequence _ _) (ih h)
  | lastAlternative h ih => exact PlacedFrom.last (ih h)
  -- no group stands on both sides of a bar, again by its number
  | consAlternative h hbar hs ih ihs =>
    refine PlacedFrom.cons (ih h) (hbar.scope ▸ ihs hs) ?_
    intro c hc hc'
    have hle := (h.index_of_mem (by simpa [Piece.captures, Piece.nodes] using hc)).2
    have hlt := (hs.index_of_mem hc').1
    rw [← hbar.opened] at hle
    exact absurd hle (Nat.not_le.mpr hlt)
  | disjunction h ih => exact PlacedHere.disjunction (ih h)
  | _ =>
    rw [(hself.keeps rfl).scope]
    exact PlacedHere.nil (Piece.captures_of_insideClass rfl)

end Derivations

/-! ## Names that stand twice

The scope has a rule that forbids names to stand twice or lets them stand twice where the paths
part. With the paths known from the tree this becomes a condition on the tree. -/

namespace Node

/-- No two groups of the tree have the same name, unless the edition lets names stand twice and the
groups stand in different alternatives of one node. -/
def NamesApart (e : Edition) (n : Node) : Prop :=
  ∀ c ∈ n.captures, ∀ d ∈ n.captures, c ≠ d → c.name = d.name →
    c.name = none ∨ e.supports .duplicateNamedGroups = true ∧ n.Parts c d

instance (qs : List Sequence) (c d : Capture) : Decidable (Divides qs c d) :=
  decidable_of_iff (∃ i : Fin qs.length, ∃ j : Fin qs.length, i ≠ j ∧
      c ∈ (Node.sequence qs[i]).captures ∧ d ∈ (Node.sequence qs[j]).captures) (by
    constructor
    · rintro ⟨i, j, hne, hc, hd⟩
      exact ⟨i, j, qs[i], qs[j], fun h => hne (Fin.ext h), by simp, by simp, hc, hd⟩
    · rintro ⟨i, j, q, q', hne, hi, hj, hc, hd⟩
      obtain ⟨hlt, rfl⟩ := List.getElem?_eq_some_iff.mp hi
      obtain ⟨hlt', rfl⟩ := List.getElem?_eq_some_iff.mp hj
      exact ⟨⟨i, hlt⟩, ⟨j, hlt'⟩, fun h => hne (congrArg Fin.val h), hc, hd⟩)

instance (n : Node) (c d : Capture) : Decidable (n.Parts c d) :=
  inferInstanceAs (Decidable (∃ m ∈ n.descendants, Divides m.alternatives c d))

instance (e : Edition) (n : Node) : Decidable (n.NamesApart e) :=
  inferInstanceAs (Decidable (∀ c ∈ n.captures, ∀ d ∈ n.captures, c ≠ d → c.name = d.name →
    c.name = none ∨ e.supports .duplicateNamedGroups = true ∧ n.Parts c d))

theorem alternatives_resolve (f : GroupName → List Nat) (n : Node) :
    (n.resolve f).alternatives = n.alternatives.map (Term.resolveSequence f) := by
  cases n with
  | pattern p => exact Term.resolveAll_eq f p.alternatives
  | term e =>
    cases e with
    | reference span target => cases target <;> simp [resolve, Term.resolve, alternatives]
    | _ => simp [resolve, Term.resolve, alternatives, Term.resolveAll_eq]
  | _ => rfl

/-- Resolving references does not move groups. -/
theorem parts_resolve (f : GroupName → List Nat) (n : Node) {c d : Capture} :
    (n.resolve f).Parts c d ↔ n.Parts c d := by
  have hcaptures : ∀ q, (sequence (Term.resolveSequence f q)).captures = (sequence q).captures :=
    fun q => captures_resolve f (sequence q)
  have hdivides : ∀ qs, Divides (qs.map (Term.resolveSequence f)) c d ↔ Divides qs c d := by
    intro qs
    constructor
    · rintro ⟨i, j, q, q', hne, hi, hj, hc, hd⟩
      rw [List.getElem?_map, Option.map_eq_some_iff] at hi hj
      obtain ⟨p, hi, rfl⟩ := hi
      obtain ⟨p', hj, rfl⟩ := hj
      rw [hcaptures] at hc hd
      exact ⟨i, j, p, p', hne, hi, hj, hc, hd⟩
    · rintro ⟨i, j, q, q', hne, hi, hj, hc, hd⟩
      refine ⟨i, j, _, _, hne, ?_, ?_, (hcaptures q).symm ▸ hc, (hcaptures q').symm ▸ hd⟩
      · rw [List.getElem?_map, hi]
        rfl
      · rw [List.getElem?_map, hj]
        rfl
  simp [Parts, descendants_resolve, alternatives_resolve, hdivides]

end Node

namespace DuplicateRule

/-- Whether the rule lets two places have the same name. -/
def Allows : DuplicateRule → ForkPath → ForkPath → Prop
  | forbidden, _, _ => False
  | separated, place, place' => place.separated place' = true
  | unchecked, _, _ => True

/-- The rule lets all of the declarations stand. -/
def Admits (rule : DuplicateRule) (ds : List Declaration) : Prop :=
  ds.Pairwise fun d d' => d.name = d'.name → rule.Allows d.path d'.path

end DuplicateRule

/-- From ES2025 on, a name may stand twice if the places are separated; before, it may not. -/
theorem allows_duplicateRule {e : Edition} {place place' : ForkPath} :
    (Pattern.duplicateRule e).Allows place place' ↔
      e.supports .duplicateNamedGroups = true ∧ place.separated place' = true := by
  rw [Pattern.duplicateRule]
  split
  · next h => simp [DuplicateRule.Allows, h]
  · next h => simp [DuplicateRule.Allows, h]

/-- The edition lets two groups of a part of a tree have the names that they have. -/
def Piece.LetsStand (x : Piece) (e : Edition) (c d : Capture) : Prop :=
  c.name = d.name → c.name = none ∨ e.supports .duplicateNamedGroups = true ∧ x.Parts c d

theorem Piece.LetsStand.symm {x : Piece} {e : Edition} {c d : Capture} (h : x.LetsStand e c d) :
    x.LetsStand e d c := by
  intro hname
  rw [hname]
  exact (h hname.symm).imp_right (And.imp_right Piece.Parts.symm)

/-- What the rule of an edition says of two places is said of the groups that stand there. -/
theorem allows_iff_letsStand {e : Edition} {x : Piece} {p p' : Capture × ForkPath}
    (h : ForkPath.separated p.2 p'.2 = true ↔ x.Parts p.1 p'.1) :
    (∀ d, Capture.declaration? [] p = some d → ∀ d', Capture.declaration? [] p' = some d' →
        d.name = d'.name → (Pattern.duplicateRule e).Allows d.path d'.path) ↔
      x.LetsStand e p.1 p'.1 := by
  simp only [allows_duplicateRule, Piece.LetsStand, ← h]
  obtain ⟨⟨start, index, name⟩, r⟩ := p
  obtain ⟨⟨start', index', name'⟩, r'⟩ := p'
  cases name with
  | none => simp [Capture.declaration?]
  | some n =>
    cases name' with
    | none => simp [Capture.declaration?]
    | some n' => simp [Capture.declaration?]

/-- Whether the rule of an edition lets the names of a pattern stand can be told from the tree. -/
theorem Pattern.admits_iff_namesApart {rule : DuplicateRule} {o : Options} {flags : FlagSet}
    {named : Bool} {c : Cursor} {p : Pattern} {scope : GroupScope}
    (h : pass rule o flags named c = .ok (p, scope)) (e : Edition) :
    (duplicateRule e).Admits scope.declarations ↔ (Node.pattern p).NamesApart e := by
  obtain ⟨qs, t, hqs, -, rfl, rfl⟩ := derives_of_pass h
  obtain ⟨-, -, ps, hplaced, -⟩ := hqs.places
  have hparts : ∀ {a b}, (Node.pattern (resolve t.scope.indexes
      ⟨.between c t.cursor, qs⟩)).Parts a b ↔ (Piece.disjunction qs).Parts a b := by
    intro a b
    show ((Node.pattern _).resolve _).Parts a b ↔ _
    rw [Node.parts_resolve, Node.parts_iff, Node.children_pattern]
    rfl
  have hdeclared : t.scope.declarations = ps.filterMap (Capture.declaration? []) :=
    hplaced.declared
  have hnodup := hqs.captures_nodup
  -- declarations come from groups in order, so a condition on pairs of them is one on groups
  have hpairs : (duplicateRule e).Admits t.scope.declarations ↔
      (Piece.disjunction qs).captures.Pairwise ((Piece.disjunction qs).LetsStand e) := by
    rw [DuplicateRule.Admits, hdeclared, List.pairwise_filterMap, ← hplaced.captures,
      List.pairwise_map]
    constructor
    · exact hplaced.parts.imp₂ fun p p' hsame => (allows_iff_letsStand hsame).mp
    · exact hplaced.parts.imp₂ fun p p' hsame => (allows_iff_letsStand hsame).mpr
  have hsymm : Std.Symm ((Piece.disjunction qs).LetsStand e) :=
    ⟨fun c d => Piece.LetsStand.symm⟩
  rw [hpairs, Node.NamesApart, captures_resolve]
  simp only [hparts]
  constructor
  · intro hpairs c hc d hd hne
    exact hpairs.forall hc hd hne
  · exact hnodup.pairwise_of_forall_ne

end EcmaPattern
