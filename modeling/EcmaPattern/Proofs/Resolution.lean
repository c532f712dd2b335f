import EcmaPattern.Tree.Traversal

/-!
# Resolution

What holds of a tree node by node, and that resolving the named references of a tree changes nothing
but these references: the nodes of the resolved tree are the nodes of the tree, each resolved
(`Node.descendants_resolve`), and they stand where they stood.

The children of a node are computed from its fields, and the lemmas of the first section evaluate
that once for each kind. After them no proof unfolds fields again.
-/

namespace EcmaPattern

/-! ## Nodes of a tree

`Node.induction_on_children` is the induction principle that most statements about trees use: to
show something of a node, show it from its children. `filterMap_descendants` and
`forall_descendants` unroll a walk over all nodes by one level. -/

namespace Node

section Children

variable (span : Span)

theorem children_range (first last : Character) :
    (charSet (.range span first last)).children =
      [charSet (.character first), charSet (.character last)] := rfl

theorem children_strings (xs : List ClassString) :
    (charSet (.strings span xs)).children = xs.map classString :=
  List.append_nil _

theorem children_operation (op : SetOperation) (left right : CharSet) :
    (charSet (.operation span op left right)).children = [charSet left, charSet right] := rfl

theorem children_listing (negated sets : Bool) (xs : List CharSet) :
    (charSet (.listing span negated sets xs)).children = xs.map charSet :=
  List.append_nil _

theorem children_expression (negated : Bool) (x : CharSet) :
    (charSet (.expression span negated x)).children = [charSet x] := rfl

theorem children_look (direction : Direction) (negated : Bool) (qs : List Sequence) :
    (term (.look span direction negated qs)).children = qs.map sequence :=
  List.append_nil _

theorem children_group_none (qs : List Sequence) :
    (term (.group span none qs)).children = qs.map sequence :=
  List.append_nil _

theorem children_group_some (m : Modifiers) (qs : List Sequence) :
    (term (.group span (some m) qs)).children = modifiers m :: qs.map sequence :=
  congrArg (modifiers m :: ·) (List.append_nil _)

theorem children_capture (index : Nat) (name : Option GroupName) (qs : List Sequence) :
    (term (.capture span index name qs)).children = qs.map sequence :=
  List.append_nil _

theorem children_quantified (r : Repetition) (e : Term) :
    (term (.quantified span r e)).children = [term e] := rfl

theorem children_sequence (es : List Term) :
    (sequence (.mk span es)).children = es.map term :=
  List.append_nil _

theorem children_pattern (p : Pattern) : (pattern p).children = p.alternatives.map sequence :=
  List.append_nil _

theorem children_classString (x : ClassString) :
    (classString x).children = x.characters.map fun c => charSet (.character c) :=
  List.append_nil _

theorem children_literal (l : Literal) :
    (literal l).children = [pattern l.pattern, flags l.flags] := rfl

theorem children_flags (f : Flags) : (flags f).children = [] := rfl

end Children

/-- What holds of a node whenever it holds of the nodes directly under it holds of all nodes. -/
theorem induction_on_children {P : Node → Prop} (h : ∀ n : Node, (∀ c ∈ n.children, P c) → P n)
    (n : Node) : P n := by
  induction hk : sizeOf n using Nat.strongRecOn generalizing n with
  | _ k ih =>
    subst hk
    apply h
    intro c hc
    exact ih (sizeOf c) (sizeOf_lt_of_mem_children hc) c rfl

/-- What holds of all nodes of a tree holds of its root and of all nodes below each child. -/
theorem forall_descendants {P : Node → Prop} {n : Node} :
    (∀ m ∈ n.descendants, P m) ↔ P n ∧ ∀ c ∈ n.children, ∀ m ∈ c.descendants, P m := by
  rw [descendants_eq]
  constructor
  · intro h
    refine ⟨h n List.mem_cons_self, ?_⟩
    intro c hc m hm
    exact h m (List.mem_cons_of_mem n (List.mem_flatMap.mpr ⟨c, hc, hm⟩))
  · rintro ⟨hn, hc⟩ m hm
    rcases List.mem_cons.mp hm with rfl | hm
    · exact hn
    · obtain ⟨c, hmem, hm⟩ := List.mem_flatMap.mp hm
      exact hc c hmem m hm

/-- What is done to each child is done to each node of a tree. -/
theorem descendants_of_children {f : Node → Node}
    (h : ∀ n, (f n).children = n.children.map f) (n : Node) :
    (f n).descendants = n.descendants.map f := by
  induction n using induction_on_children with
  | h n ih =>
    rw [descendants_eq, descendants_eq n, h, List.flatMap_map, List.map_cons, List.map_flatMap]
    rw [List.flatMap_def, List.flatMap_def, List.map_congr_left ih]

/-- What is picked out of the nodes of a tree comes from the root or from the trees under it. -/
theorem filterMap_descendants {α : Type} (f : Node → Option α) (n : Node) :
    n.descendants.filterMap f =
      (f n).toList ++ n.children.flatMap fun c => c.descendants.filterMap f := by
  rw [descendants_eq, List.filterMap_cons, List.filterMap_flatMap]
  cases f n <;> rfl

end Node

/-! ## Resolved terms

Resolution is a structural recursion over terms and lists of them; here it is brought into the form
of maps. -/

namespace Term

variable (f : GroupName → List Nat)

/-- The recursion over a list of terms resolves each of them. -/
theorem resolveTerms_eq (ts : List Term) : resolveTerms f ts = ts.map (resolve f) := by
  induction ts with
  | nil => rw [resolveTerms, List.map_nil]
  | cons t ts ih => rw [resolveTerms, List.map_cons, ih]

theorem resolveAll_eq (qs : List Sequence) : resolveAll f qs = qs.map (resolveSequence f) := by
  induction qs with
  | nil => rw [resolveAll, List.map_nil]
  | cons q qs ih => rw [resolveAll, List.map_cons, ih]

/-- Resolving moves nothing. -/
@[simp] theorem span_resolve (t : Term) : (t.resolve f).span = t.span := by
  cases t with
  | reference span target => cases target <;> simp [resolve, Term.span]
  | _ => simp [resolve, Term.span]

/-- Resolving changes no term into one of another kind. -/
@[simp] theorem kind_resolve (t : Term) : (t.resolve f).kind = t.kind := by
  cases t with
  | reference span target => cases target <;> simp [resolve, kind]
  | _ => simp [resolve, kind]

@[simp] theorem span_resolveSequence (q : Sequence) : (resolveSequence f q).span = q.span := by
  cases q
  rw [resolveSequence]
  rfl

variable {f} in
/-- Only a set is resolved to a set. -/
theorem resolve_eq_set {t : Term} {x : CharSet} (h : t.resolve f = .set x) : t = .set x := by
  cases t with
  | set y => simpa [resolve] using h
  | reference span target => cases target <;> simp [resolve] at h
  | _ => simp [resolve] at h

end Term

/-! ## Resolved trees

Resolving a node resolves its children and leaves its kind and its span as they are. So whatever is
said of kinds and spans carries over from the tree that was read to the one that is returned. -/

namespace Node

variable (f : GroupName → List Nat)

def resolve : Node → Node
  | literal l => literal { l with pattern := l.pattern.resolve f }
  | pattern p => pattern (p.resolve f)
  | sequence s => sequence (Term.resolveSequence f s)
  | term t => term (t.resolve f)
  | n => n

@[simp] theorem span_resolve (n : Node) : (n.resolve f).span = n.span := by
  cases n with
  | sequence s => exact Term.span_resolveSequence f s
  | term t => exact Term.span_resolve f t
  | _ => rfl

@[simp] theorem kind_resolve (n : Node) : (n.resolve f).kind = n.kind := by
  cases n with
  | term t => exact Term.kind_resolve f t
  | _ => rfl

/-- The nodes under the parts of a field, resolved. -/
theorem parts_alternatives (qs : List Sequence) :
    (Term.alternativesField (Term.resolveAll f qs)).2.parts =
      (Term.alternativesField qs).2.parts.map (resolve f) := by
  simp only [Term.alternativesField, Field.parts, Term.resolveAll_eq, List.map_map]
  rfl

theorem children_charSet (x : CharSet) :
    (charSet x).children.map (resolve f) = (charSet x).children := by
  cases x <;> simp [children, fields, CharSet.fields, Field.parts, resolve]

theorem children_term (t : Term) :
    (term (t.resolve f)).children = (term t).children.map (resolve f) := by
  cases t with
  | set s =>
    have : (term (.set s)).children = (charSet s).children := rfl
    simp only [Term.resolve, this, children_charSet]
  | look span direction negated qs =>
    simp only [Term.resolve, children, fields, Term.fields, List.flatMap_cons, List.flatMap_nil,
      List.map_append, parts_alternatives]
    simp [Field.parts]
  | group span m qs =>
    simp only [Term.resolve, children, fields, Term.fields, List.flatMap_cons, List.flatMap_nil,
      List.map_append, parts_alternatives]
    cases m <;> simp [Field.parts, resolve]
  | capture span index name qs =>
    simp only [Term.resolve, children, fields, Term.fields, List.flatMap_cons, List.flatMap_nil,
      List.map_append, parts_alternatives]
    simp [Field.parts]
  | reference span target =>
    cases target <;> simp [Term.resolve, children, fields, Term.fields, Field.parts]
  | quantified span repetition element =>
    simp [Term.resolve, children, fields, Term.fields, Field.parts, resolve]
  | _ => simp [Term.resolve, children, fields, Term.fields, Field.parts]

/-- The children of a resolved node are the resolved children. -/
theorem children_resolve (n : Node) : (n.resolve f).children = n.children.map (resolve f) := by
  cases n with
  | literal l => rfl
  | pattern p =>
    show (pattern (p.resolve f)).children = _
    simp only [children, fields, Pattern.resolve, List.flatMap_cons, List.flatMap_nil,
      List.append_nil, parts_alternatives]
  | sequence q =>
    cases q
    simp only [resolve, Term.resolveSequence, Term.resolveTerms_eq, children, fields, Field.parts,
      List.flatMap_cons, List.flatMap_nil, List.append_nil, List.map_map]
    rfl
  | term t => exact children_term f t
  | charSet x => exact (children_charSet f x).symm
  | flags s => simp [resolve, children, fields, FlagSet.entries, Field.parts]
  | classString x => simp [resolve, children, fields, Field.parts]
  | modifiers m =>
    cases hm : m.remove <;> simp [resolve, children, fields, Field.parts, hm]
  | modifierFlags m => simp [resolve, children, fields, Field.parts]

/-- The nodes of a resolved tree are the nodes of the tree, resolved. -/
theorem descendants_resolve (n : Node) :
    (n.resolve f).descendants = n.descendants.map (resolve f) :=
  descendants_of_children (children_resolve f) n

end Node

end EcmaPattern
