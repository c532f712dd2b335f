import EcmaPattern.Proofs.GroupPlaces
import EcmaPattern.Proofs.ResolvedReferences

/-!
# References and numbers in a tree

The number of a group depends on how many groups open before it, and what a reference means depends
on all groups of the pattern. So a part of a tree can stand for itself only up to the numbers of its
groups (`Term.raise`), and only if no reference stands in it (`Node.Refers`). Then it is not changed
when references are resolved (`Term.resolve_eq_self`), and it keeps its names apart if the whole
tree does (`Node.NamesApart.of_mem`), whatever numbers its groups have (`Node.NamesApart.of_raise`).
-/

namespace EcmaPattern

/-! ## References

To refer is to be a reference or to hold one. What does not refer is left as it is when references
are resolved. -/

def Node.Refers (n : Node) : Prop := ∃ m ∈ n.descendants, m.kind = .reference

namespace Node

/-- A tree refers if its root is a reference or a child refers. -/
theorem refers_iff {n : Node} : n.Refers ↔ n.kind = .reference ∨ ∃ c ∈ n.children, c.Refers := by
  rw [Refers, descendants_eq]
  constructor
  · rintro ⟨m, hm, hkind⟩
    rcases List.mem_cons.mp hm with rfl | hm
    · exact .inl hkind
    · obtain ⟨c, hc, hm⟩ := List.mem_flatMap.mp hm
      exact .inr ⟨c, hc, m, hm, hkind⟩
  · rintro (hkind | ⟨c, hc, m, hm, hkind⟩)
    · exact ⟨n, List.mem_cons_self, hkind⟩
    · exact ⟨m, List.mem_cons_of_mem n (List.mem_flatMap.mpr ⟨c, hc, hm⟩), hkind⟩

theorem Refers.of_child {n c : Node} (h : c.Refers) (hc : c ∈ n.children) : n.Refers :=
  refers_iff.mpr (.inr ⟨c, hc, h⟩)

/-- Resolving makes no reference and takes none away. -/
theorem refers_resolve {f : GroupName → List Nat} {n : Node} :
    (n.resolve f).Refers ↔ n.Refers := by
  simp [Refers, descendants_resolve]

theorem referredNames_of_not_refers {n : Node} (h : ¬ n.Refers) : n.referredNames = [] := by
  rw [referredNames, List.filterMap_eq_nil_iff]
  intro m hm
  have hkind : m.kind ≠ .reference := fun hkind => h ⟨m, hm, hkind⟩
  cases m with
  | term e =>
    cases e with
    | reference span target => exact absurd rfl hkind
    | _ => rfl
  | _ => rfl

end Node

namespace Term

variable (f : GroupName → List Nat)

mutual

/-- Where no name is referred to, there is nothing to resolve. -/
theorem resolve_eq_self (e : Term) (h : e.referredNames = []) : e.resolve f = e := by
  cases e with
  | reference span target => cases target <;> simp_all [resolve, referredNames]
  | look span direction negated qs =>
    rw [referredNames] at h
    rw [resolve, resolveAll_eq_self qs h]
  | group span m qs =>
    rw [referredNames] at h
    rw [resolve, resolveAll_eq_self qs h]
  | capture span index name qs =>
    rw [referredNames] at h
    rw [resolve, resolveAll_eq_self qs h]
  | quantified span r e =>
    rw [referredNames] at h
    rw [resolve, resolve_eq_self e h]
  | _ => simp [resolve]

theorem resolveTerms_eq_self (es : List Term) (h : referredNamesOfTerms es = []) :
    resolveTerms f es = es := by
  cases es with
  | nil => rw [resolveTerms]
  | cons e es =>
    rw [referredNamesOfTerms, List.append_eq_nil_iff] at h
    rw [resolveTerms, resolve_eq_self e h.1, resolveTerms_eq_self es h.2]

/-- Where no name is referred to, there is nothing to resolve. -/
theorem resolveSequence_eq_self (q : Sequence) (h : referredNamesOfSequence q = []) :
    resolveSequence f q = q := by
  cases q with
  | mk span es =>
    rw [referredNamesOfSequence] at h
    rw [resolveSequence, resolveTerms_eq_self es h]

theorem resolveAll_eq_self (qs : List Sequence) (h : referredNamesOfAll qs = []) :
    resolveAll f qs = qs := by
  cases qs with
  | nil => rw [resolveAll]
  | cons q qs =>
    rw [referredNamesOfAll, List.append_eq_nil_iff] at h
    rw [resolveAll, resolveSequence_eq_self q h.1, resolveAll_eq_self qs h.2]

end

def AnyRefers (qs : List Sequence) : Prop := ∃ q ∈ qs, (Node.sequence q).Refers

theorem AnyRefers.of_children {qs : List Sequence} {n : Node} (h : AnyRefers qs)
    (hn : ∀ q ∈ qs, .sequence q ∈ n.children) : n.Refers := by
  obtain ⟨q, hq, hrefers⟩ := h
  exact hrefers.of_child (hn q hq)

/-! ## Numbers

`raise` adds a number to the index of every group in a tree. It changes no kind, no span and no
name, so all that is asked of trees elsewhere commutes with it. -/

mutual

/-- The term, with so many more groups before it. -/
def raise (j : Nat) : Term → Term
  | look s direction negated alternatives => look s direction negated (raiseAll j alternatives)
  | group s modifiers alternatives => group s modifiers (raiseAll j alternatives)
  | capture s index name alternatives => capture s (index + j) name (raiseAll j alternatives)
  | quantified s repetition element => quantified s repetition (element.raise j)
  | t => t

def raiseTerms (j : Nat) : List Term → List Term
  | [] => []
  | t :: rest => t.raise j :: raiseTerms j rest

def raiseSequence (j : Nat) : Sequence → Sequence
  | .mk s elements => .mk s (raiseTerms j elements)

def raiseAll (j : Nat) : List Sequence → List Sequence
  | [] => []
  | s :: rest => raiseSequence j s :: raiseAll j rest

end

theorem raiseTerms_eq (j : Nat) (es : List Term) : raiseTerms j es = es.map (raise j) := by
  induction es with
  | nil => rw [raiseTerms, List.map_nil]
  | cons e es ih => rw [raiseTerms, List.map_cons, ih]

theorem raiseAll_eq (j : Nat) (qs : List Sequence) : raiseAll j qs = qs.map (raiseSequence j) := by
  induction qs with
  | nil => rw [raiseAll, List.map_nil]
  | cons q qs ih => rw [raiseAll, List.map_cons, ih]

/-- Counting more groups before it changes no term into one of another kind. -/
@[simp] theorem kind_raise (j : Nat) (e : Term) : (e.raise j).kind = e.kind := by
  cases e <;> simp [raise, kind]

@[simp] theorem isLookahead_raise (j : Nat) (e : Term) :
    (e.raise j).isLookahead = e.isLookahead := by
  cases e with
  | look span direction negated qs => cases direction <;> simp [raise, isLookahead]
  | _ => simp [raise, isLookahead]

end Term

def Capture.raise (j : Nat) (c : Capture) : Capture := { c with index := c.index + j }

/-- Different groups stay different. -/
theorem Capture.raise_injective (j : Nat) : Function.Injective (raise j) := by
  rintro ⟨start, index, name⟩ ⟨start', index', name'⟩ h
  simp only [raise, mk.injEq, Nat.add_right_cancel_iff] at h ⊢
  exact h

namespace Node

variable (j : Nat)

/-- The node, with so many more groups before it. -/
def raise : Node → Node
  | literal l => literal { l with pattern.alternatives := Term.raiseAll j l.pattern.alternatives }
  | pattern p => pattern { p with alternatives := Term.raiseAll j p.alternatives }
  | sequence q => sequence (Term.raiseSequence j q)
  | term e => term (e.raise j)
  | n => n

@[simp] theorem kind_raise (n : Node) : (n.raise j).kind = n.kind := by
  cases n with
  | term e => exact Term.kind_raise j e
  | _ => rfl

theorem map_sequence_raise (qs : List Sequence) :
    (Term.raiseAll j qs).map sequence = (qs.map sequence).map (raise j) := by
  rw [Term.raiseAll_eq, List.map_map, List.map_map]
  rfl

/-- A set holds no groups. -/
theorem map_raise_children_charSet (x : CharSet) :
    (charSet x).children.map (raise j) = (charSet x).children := by
  cases x <;> simp [children, fields, CharSet.fields, Field.parts, raise]

theorem children_raise_term (e : Term) :
    (term (e.raise j)).children = (term e).children.map (raise j) := by
  cases e with
  | set x =>
    simp only [Term.raise]
    exact (map_raise_children_charSet j x).symm
  | look span direction negated qs =>
    rw [Term.raise, children_look, children_look, map_sequence_raise]
  | group span m qs =>
    cases m with
    | none => rw [Term.raise, children_group_none, children_group_none, map_sequence_raise]
    | some m =>
      rw [Term.raise, children_group_some, children_group_some, map_sequence_raise, List.map_cons]
      rfl
  | capture span index name qs =>
    rw [Term.raise, children_capture, children_capture, map_sequence_raise]
  | quantified span r e =>
    rw [Term.raise, children_quantified, children_quantified]
    rfl
  | reference span target =>
    cases target <;> simp [Term.raise, children, fields, Term.fields, Field.parts]
  | _ => simp [Term.raise, children, fields, Term.fields, Field.parts]

/-- The children of a raised node are the raised children. -/
theorem children_raise (n : Node) : (n.raise j).children = n.children.map (raise j) := by
  cases n with
  | literal l => rfl
  | pattern p => rw [raise, children_pattern, children_pattern, map_sequence_raise]
  | sequence q =>
    cases q with
    | mk span es =>
      rw [raise, Term.raiseSequence, children_sequence, children_sequence, Term.raiseTerms_eq,
        List.map_map, List.map_map]
      rfl
  | term e => exact children_raise_term j e
  | charSet x => exact (map_raise_children_charSet j x).symm
  | flags s => rfl
  | classString x => simp [raise, children, fields, Field.parts]
  | modifiers m => cases hm : m.remove <;> simp [raise, children, fields, Field.parts, hm]
  | modifierFlags m => rfl

theorem descendants_raise (n : Node) : (n.raise j).descendants = n.descendants.map (raise j) :=
  descendants_of_children (children_raise j) n

theorem refers_raise {n : Node} : (n.raise j).Refers ↔ n.Refers := by
  simp [Refers, descendants_raise]

theorem capture?_raise (n : Node) : (n.raise j).capture? = n.capture?.map (Capture.raise j) := by
  cases n with
  | term e => cases e <;> simp [raise, Term.raise, capture?, Capture.raise]
  | _ => rfl

/-- The groups of a raised tree are the raised groups. -/
theorem captures_raise (n : Node) : (n.raise j).captures = n.captures.map (Capture.raise j) := by
  rw [captures, descendants_raise, List.filterMap_map, captures, List.map_filterMap]
  exact congrArg (List.filterMap · n.descendants) (funext (capture?_raise j))

theorem alternatives_raise (n : Node) :
    (n.raise j).alternatives = n.alternatives.map (Term.raiseSequence j) := by
  cases n with
  | pattern p => exact Term.raiseAll_eq j p.alternatives
  | term e => cases e <;> simp [raise, Term.raise, alternatives, Term.raiseAll_eq]
  | _ => rfl

end Node

/-- Raised groups are divided as the groups are. -/
theorem Divides.of_raise {j : Nat} {qs : List Sequence} {c d : Capture}
    (h : Divides (qs.map (Term.raiseSequence j)) (c.raise j) (d.raise j)) : Divides qs c d := by
  have hmem : ∀ {q : Sequence} {c : Capture},
      c.raise j ∈ (Node.sequence (Term.raiseSequence j q)).captures →
        c ∈ (Node.sequence q).captures := by
    intro q c hc
    change c.raise j ∈ ((Node.sequence q).raise j).captures at hc
    rwa [Node.captures_raise, List.mem_map_of_injective (Capture.raise_injective j)] at hc
  obtain ⟨i, i', q, q', hne, hi, hi', hc, hd⟩ := h
  rw [List.getElem?_map, Option.map_eq_some_iff] at hi hi'
  obtain ⟨p, hi, rfl⟩ := hi
  obtain ⟨p', hi', rfl⟩ := hi'
  exact ⟨i, i', p, p', hne, hi, hi', hmem hc, hmem hd⟩

/-! ## Names that are kept apart

Whether two groups stand in different alternatives does not depend on their numbers. In a part of
the tree there are fewer groups and the same alternatives, so names which are apart in the whole
tree are apart there. -/

namespace Node

variable {n m k : Node} {c d : Capture} {e : Edition}

/-- The numbers of groups have no influence on where they part. -/
theorem Parts.of_raise {j : Nat} (h : (n.raise j).Parts (c.raise j) (d.raise j)) :
    n.Parts c d := by
  obtain ⟨_, hraised, h⟩ := h
  rw [descendants_raise] at hraised
  obtain ⟨m, hm, rfl⟩ := List.mem_map.mp hraised
  rw [alternatives_raise] at h
  exact ⟨m, hm, h.of_raise⟩

/-- Names stand apart in a raised tree only if they do in the tree. -/
theorem NamesApart.of_raise {j : Nat} (h : (n.raise j).NamesApart e) : n.NamesApart e := by
  intro c hc d hd hne hname
  have hmem : ∀ {c}, c ∈ n.captures → c.raise j ∈ (n.raise j).captures := by
    intro c hc
    rw [captures_raise]
    exact List.mem_map_of_mem hc
  have hapart := h _ (hmem hc) _ (hmem hd) (fun heq => hne (Capture.raise_injective j heq)) hname
  exact hapart.imp_right (And.imp_right Parts.of_raise)

/-- Alternatives of a node are among its children, in order. -/
theorem sublist_children (n : Node) : (n.alternatives.map sequence).Sublist n.children := by
  cases n with
  | pattern p =>
    rw [children_pattern]
    exact .refl _
  | term e =>
    cases e with
    | group span m qs =>
      cases m with
      | none => rw [children_group_none]; exact .refl _
      | some m => rw [children_group_some]; exact List.sublist_cons_self _ _
    | capture span index name qs => rw [children_capture]; exact .refl _
    | look span direction negated qs => rw [children_look]; exact .refl _
    | _ => exact List.nil_sublist _
  | _ => exact List.nil_sublist _

/-- Where no group stands twice, groups of one child do not part above it. -/
theorem Parts.of_child (hnodup : n.captures.Nodup) (hk : k ∈ n.children) (hc : c ∈ k.captures)
    (hd : d ∈ k.captures) (h : n.Parts c d) : k.Parts c d := by
  rw [captures_eq] at hnodup
  have hdisjoint : n.children.Pairwise fun a b => a.captures.Disjoint b.captures :=
    (List.nodup_flatMap.mp (List.Nodup.of_append_right hnodup)).2
  have hsymm : Std.Symm fun a b : Node => a.captures.Disjoint b.captures :=
    ⟨fun _ _ h => List.disjoint_symm h⟩
  have hsame : ∀ {k' c}, k' ∈ n.children → c ∈ k.captures → c ∈ k'.captures → k' = k := by
    intro k' c hk' hc hc'
    by_contra hne
    exact hdisjoint.forall hk' hk hne hc' hc
  rcases parts_iff.mp h with ⟨i, j, q, q', hne, hi, hj, hq, hq'⟩ | ⟨k', hk', h⟩
  · -- the child would be two of the alternatives, which have no group in common
    have heq := hsame (mem_children_of_mem_alternatives (List.mem_of_getElem? hj)) hd hq'
    have hpairs := List.pairwise_iff_getElem.mp
      (List.pairwise_map.mp (hdisjoint.sublist n.sublist_children))
    obtain ⟨hlt, rfl⟩ := List.getElem?_eq_some_iff.mp hi
    obtain ⟨hlt', rfl⟩ := List.getElem?_eq_some_iff.mp hj
    have hapart : (sequence n.alternatives[i]).captures.Disjoint
        (sequence n.alternatives[j]).captures := by
      rcases Nat.lt_or_gt_of_ne hne with h | h
      · exact hpairs i j hlt hlt' h
      · exact List.disjoint_symm (hpairs j i hlt' hlt h)
    rw [heq] at hapart
    exact absurd hc (hapart hq)
  · exact hsame hk' hc h.mem ▸ h

/-- A part of a tree keeps its names apart if the whole tree does. -/
theorem NamesApart.of_mem (h : n.NamesApart e) (hnodup : n.captures.Nodup)
    (hm : m ∈ n.descendants) : m.NamesApart e := by
  induction n using induction_on_children with
  | h n ih =>
    rw [descendants_eq] at hm
    rcases List.mem_cons.mp hm with rfl | hm
    · exact h
    · obtain ⟨k, hk, hm⟩ := List.mem_flatMap.mp hm
      have hmem : ∀ {c}, c ∈ k.captures → c ∈ n.captures := by
        intro c hc
        rw [captures_eq]
        exact List.mem_append_right _ (List.mem_flatMap.mpr ⟨k, hk, hc⟩)
      refine ih k hk ?_ ?_ hm
      · intro c hc d hd hne hname
        exact (h c (hmem hc) d (hmem hd) hne hname).imp_right
          (And.imp_right (.of_child hnodup hk hc hd))
      · rw [captures_eq] at hnodup
        exact (List.nodup_flatMap.mp (List.Nodup.of_append_right hnodup)).1 k hk

/-! ## Nodes by themselves

The constructs that can be parsed again are terms, but for a class inside a class. That is an
element, and it is read as a term when it stands alone. -/

/-- The term that a node is, or would be if it stood by itself. -/
def asTerm? : Node → Option Term
  | term e => some e
  | charSet x => some (.set x)
  | _ => none

section AsTerm

variable {j : Nat} {e' : Term}

/-- By itself a node has the nodes below it that it has. -/
theorem eq_of_asTerm? (h : n.asTerm? = some e') :
    (term e').kind = n.kind ∧ (term e').children = n.children := by
  cases n with
  | term e => cases h; exact ⟨rfl, rfl⟩
  | charSet x => cases h; exact ⟨rfl, rfl⟩
  | _ => cases h

theorem referredNames_of_asTerm? (hrefers : ¬ n.Refers) (h : n.asTerm? = some (e'.raise j)) :
    e'.referredNames = [] := by
  obtain ⟨hkind, hchildren⟩ := eq_of_asTerm? h
  have hclean : ¬ ((term e').raise j).Refers := by
    intro hraised
    change (term (e'.raise j)).Refers at hraised
    rw [refers_iff, hkind, hchildren, ← refers_iff] at hraised
    exact hrefers hraised
  rw [← Term.referredNames_node]
  exact referredNames_of_not_refers (mt (refers_raise j).mpr hclean)

/-- A construct by itself has the groups that it has in its place, with fewer before them. -/
theorem captures_of_asTerm? (h : n.asTerm? = some (e'.raise j)) :
    (term e').captures.map (Capture.raise j) = n.captures := by
  rw [← captures_raise]
  cases n with
  | term e => cases h; rfl
  | charSet x =>
    have hset : (charSet x).captures = [] := captures_of_insideClass rfl
    rw [raise, ← Option.some.inj h, captures_set, hset]
  | _ => cases h

/-- Names stand apart in a construct by itself if they do in its place. -/
theorem NamesApart.of_asTerm? (hn : n.NamesApart e) (h : n.asTerm? = some (e'.raise j)) :
    (term e').NamesApart e := by
  apply NamesApart.of_raise (j := j)
  cases n with
  | term e => cases h; exact hn
  | charSet x =>
    intro c hc
    rw [raise, ← Option.some.inj h, captures_set] at hc
    cases hc
  | _ => cases h

end AsTerm

end Node

end EcmaPattern
