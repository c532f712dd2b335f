import EcmaPattern.Proofs.Agreement.References
import EcmaPattern.Proofs.NamedReferences
import EcmaPattern.Proofs.Tiling

/-!
# Resolved references

A reference by name may stand before its groups, so it is resolved when the pattern has been read,
from what the scope of group names has collected. The scope collects just the named groups of the
tree (`Pattern.indexes_of_derives`), so a reference in an answer lists the numbers of all groups of
that answer with its name (`Pattern.resolved_of_pass`). A pass that has read everything, and has
read a reference to a name that no group has, finds fault at the end (`Pattern.pass_of_unknown`).
-/

namespace EcmaPattern

open EcmaPattern.Parser

/-! ## References of a tree

References as nodes, and the names they refer to, in the order of the tree. Resolution fills in
numbers and changes no name. -/

namespace Node

def indexesOf (n : Node) (name : GroupName) : List Nat :=
  (n.captures.filter (·.name == some name)).map Capture.index

/-- Every reference by name lists the numbers of the groups of the tree with that name: in order,
each once, and at least one. -/
def Resolved (tree : Node) : Prop :=
  ∀ span name indexes, term (.reference span (.name name indexes)) ∈ tree.descendants →
    indexes = tree.indexesOf name ∧ indexes.Pairwise (· < ·) ∧ indexes ≠ []

def referredNames (n : Node) : List GroupName := n.descendants.filterMap referredName?

/-- Only a reference by name becomes one when it is resolved, and keeps its name. -/
theorem eq_reference_of_resolve {f : GroupName → List Nat} {n : Node} {span : Span}
    {name : GroupName} {indexes : List Nat}
    (h : n.resolve f = term (.reference span (.name name indexes))) :
    ∃ old, n = term (.reference span (.name name old)) ∧ f name = indexes := by
  cases n with
  | term e =>
    cases e with
    | reference span' target =>
      cases target with
      | number k => simp [resolve, Term.resolve] at h
      | name name' old =>
        simp only [resolve, Term.resolve, term.injEq, Term.reference.injEq, Target.name.injEq] at h
        obtain ⟨rfl, rfl, h⟩ := h
        exact ⟨old, rfl, h⟩
    | _ => simp [resolve, Term.resolve] at h
  | _ => cases h

/-- The names of a tree are that of its root, if it is a reference, and those of its children, in
order. -/
theorem referredNames_eq (n : Node) :
    n.referredNames = n.referredName?.toList ++ n.children.flatMap referredNames :=
  filterMap_descendants referredName? n

/-- No reference stands in a class. -/
theorem referredNames_of_insideClass {n : Node} (hn : n.insideClass) : n.referredNames = [] := by
  rw [referredNames, List.filterMap_eq_nil_iff]
  intro m hm
  have hm := insideClass_of_mem_descendants hn hm
  cases m with
  | charSet x => rfl
  | classString x => rfl
  | _ => cases hm

theorem referredNames_modifiers (m : Modifiers) : (modifiers m).referredNames = [] := by
  rw [referredNames, List.filterMap_eq_nil_iff]
  intro n hn
  cases n with
  | term e => exact absurd hn not_mem_descendants_modifiers
  | _ => rfl

end Node

namespace Term

mutual

/-- The names that a term refers to are those of its nodes. -/
theorem referredNames_node : (e : Term) → (Node.term e).referredNames = e.referredNames
  | set x => by
    have hset : (Node.charSet x).referredNames = [] := Node.referredNames_of_insideClass rfl
    rw [Node.referredNames_eq] at hset ⊢
    rw [referredNames] <;> first | exact hset | nofun
  | any _ => by rw [Node.referredNames_eq, referredNames] <;> first | rfl | nofun
  | edge _ _ => by rw [Node.referredNames_eq, referredNames] <;> first | rfl | nofun
  | wordBoundary _ _ => by rw [Node.referredNames_eq, referredNames] <;> first | rfl | nofun
  | reference _ (.number _) => by rw [Node.referredNames_eq, referredNames] <;> first | rfl | nofun
  | reference _ (.name _ _) => by rw [Node.referredNames_eq, referredNames]; rfl
  | look _ _ _ qs => by
    rw [Node.referredNames_eq, Node.children_look, referredNames, ← referredNames_nodes qs]
    rfl
  | group _ none qs => by
    rw [Node.referredNames_eq, Node.children_group_none, referredNames, ← referredNames_nodes qs]
    rfl
  | group _ (some m) qs => by
    rw [Node.referredNames_eq, Node.children_group_some, List.flatMap_cons,
      Node.referredNames_modifiers, referredNames, ← referredNames_nodes qs]
    rfl
  | capture _ _ _ qs => by
    rw [Node.referredNames_eq, Node.children_capture, referredNames, ← referredNames_nodes qs]
    rfl
  | quantified _ _ e => by
    rw [Node.referredNames_eq, Node.children_quantified, List.flatMap_singleton,
      referredNames_node e, referredNames]
    rfl

theorem referredNames_termNodes : (es : List Term) →
    (es.map Node.term).flatMap Node.referredNames = referredNamesOfTerms es
  | [] => by rw [referredNamesOfTerms]; rfl
  | e :: es => by
    rw [List.map_cons, List.flatMap_cons, referredNames_node e, referredNames_termNodes es,
      referredNamesOfTerms]

theorem referredNames_sequenceNode : (q : Sequence) →
    (Node.sequence q).referredNames = referredNamesOfSequence q
  | .mk _ es => by
    rw [Node.referredNames_eq, Node.children_sequence, referredNamesOfSequence,
      ← referredNames_termNodes es]
    rfl

/-- The names that nodes refer to are those that the alternatives they are made of refer to. -/
theorem referredNames_nodes : (qs : List Sequence) →
    (qs.map Node.sequence).flatMap Node.referredNames = referredNamesOfAll qs
  | [] => by rw [referredNamesOfAll]; rfl
  | q :: qs => by
    rw [List.map_cons, List.flatMap_cons, referredNames_sequenceNode q, referredNames_nodes qs,
      referredNamesOfAll]

end

end Term

/-- The names that a pattern refers to are those of its nodes. -/
theorem Pattern.referredNames_node (p : Pattern) :
    (Node.pattern p).referredNames = p.referredNames := by
  rw [Node.referredNames_eq, Node.children_pattern, Term.referredNames_nodes]
  rfl

/-! ## What the scope has collected

The declarations of the final scope are the named groups of the tree. So what a name is resolved to
can be read off the tree, and it is in ascending order since groups are numbered in the order in
which they start. -/

theorem GroupScope.indexes_eq (scope : GroupScope) (name : GroupName) :
    scope.indexes name = (scope.entries.filter (·.1 == name)).map (·.2) := by
  rw [entries, List.filter_map, List.map_map]
  rfl

/-- A name is declared if some group has it. -/
theorem GroupScope.declares_eq (scope : GroupScope) (name : GroupName) :
    scope.declares name = !(scope.indexes name).isEmpty := by
  rw [declares, indexes, declarationsOf, List.isEmpty_map]
  induction scope.declarations with
  | nil => rfl
  | cons d ds ih => cases h : d.name == name <;> simp [h, ih]

/-- The numbers of the groups with a name are the numbers of those groups in the tree that have it.
-/
theorem Capture.filter_named? (name : GroupName) (cs : List Capture) :
    ((cs.filterMap Capture.named?).filter (·.1 == name)).map (·.2) =
      (cs.filter (·.name == some name)).map Capture.index := by
  induction cs with
  | nil => rfl
  | cons c cs ih =>
    obtain ⟨start, index, name?⟩ := c
    cases name? with
    | none => exact ih
    | some n => by_cases h : n = name <;> simp [Capture.named?, h, ih]

namespace Pattern

variable {rule : DuplicateRule} {o : Options} {flags : FlagSet} {named : Bool} {c : Cursor}
  {p : Pattern} {scope : GroupScope}

/-- The scope in which the alternatives of a pattern end has the numbers of just the groups that
stand in them. -/
theorem indexes_of_derives {g : Grammar} {qs : List Sequence} {t : State} (span : Span)
    (h : Derives g ⟨c, .empty rule, 0⟩ (.disjunction qs) t) :
    t.scope.indexes = (Node.pattern ⟨span, qs⟩).indexesOf := by
  funext name
  have hentries : t.scope.entries = (Piece.disjunction qs).captures.filterMap Capture.named? :=
    h.captures_declared
  rw [GroupScope.indexes_eq, hentries, Capture.filter_named?, Node.indexesOf, Node.captures_eq,
    Node.children_pattern]
  rfl

/-- Groups with one name are listed in the order of their numbers. -/
theorem indexesOf_increasing {g : Grammar} {qs : List Sequence} {t : State} (span : Span)
    (h : Derives g ⟨c, .empty rule, 0⟩ (.disjunction qs) t) (name : GroupName) :
    ((Node.pattern ⟨span, qs⟩).indexesOf name).Pairwise (· < ·) := by
  have hcaptures : (Node.pattern ⟨span, qs⟩).captures = (Piece.disjunction qs).captures := by
    rw [Node.captures_eq, Node.children_pattern]
    rfl
  have hall : ((Piece.disjunction qs).captures.map Capture.index).Pairwise (· < ·) := by
    rw [h.captures_numbered.indexes]
    exact List.pairwise_lt_range'
  rw [Node.indexesOf, hcaptures]
  exact hall.sublist (List.filter_sublist.map Capture.index)

/-- Resolving references changes no group, and so not what a name means. -/
theorem indexesOf_resolve (p : Pattern) (f : GroupName → List Nat) :
    (Node.pattern (p.resolve f)).indexesOf = (Node.pattern p).indexesOf := by
  funext name
  rw [Node.indexesOf, show Node.pattern (p.resolve f) = (Node.pattern p).resolve f from rfl,
    Node.captures_resolve, Node.indexesOf]

/-- In the pattern that a pass gives, every reference by name is resolved. -/
theorem resolved_of_pass (h : pass rule o flags named c = .ok (p, scope)) :
    (Node.pattern p).Resolved := by
  obtain ⟨qs, t, hqs, -, rfl, hdeclared, rfl⟩ := pass_eq_ok.mp h
  have hderives := disjunction_derives hqs
  have hindexes := indexes_of_derives (.between c t.cursor) hderives
  intro span name indexes hn
  rw [show Node.pattern (Pattern.resolve _ _) = (Node.pattern _).resolve _ from rfl,
    Node.descendants_resolve] at hn
  obtain ⟨m, hm, hresolve⟩ := List.mem_map.mp hn
  obtain ⟨old, rfl, rfl⟩ := Node.eq_reference_of_resolve hresolve
  -- the pass has made sure that the names that are referred to are declared
  have hmem : name ∈ (Node.pattern ⟨.between c t.cursor, qs⟩).referredNames :=
    List.mem_filterMap.mpr ⟨_, hm, rfl⟩
  rw [referredNames_node] at hmem
  have hname := List.all_eq_true.mp hdeclared name hmem
  rw [GroupScope.declares_eq, Bool.not_eq_true', List.isEmpty_eq_false_iff] at hname
  rw [indexesOf_resolve, ← hindexes]
  refine ⟨rfl, ?_, hname⟩
  rw [hindexes]
  exact indexesOf_increasing _ hderives name

/-! ## References that cannot be resolved

A pass that reaches the end of its text with a name that no group has is at fault there. Which
passes are made is a relation here (`MakesPass`), because the fault may be that of the first pass or
of the second. -/

/-- A pass that has read everything is at fault at the end if it has read a reference to a name that
no group has. -/
theorem pass_of_unknown {qs : List Sequence} {t : State} {name : GroupName} {span : Span}
    (hqs : disjunction o.maxDepth (grammarFor o flags named c) ⟨c, .empty rule, 0⟩ = .done qs t)
    (hend : t.cursor.current = none)
    (hname : name ∈ (Node.pattern ⟨span, qs⟩).referredNames)
    (hunknown : (Node.pattern ⟨span, qs⟩).indexesOf name = []) :
    pass rule o flags named c = .error ⟨.unknownNamedReference, t.cursor.index⟩ := by
  have hdeclares : t.scope.declares name = false := by
    rw [GroupScope.declares_eq, indexes_of_derives span (disjunction_derives hqs), hunknown]
    rfl
  rw [referredNames_node] at hname
  rw [pass_of_disjunction_done hqs hend, if_neg]
  intro hall
  rw [List.all_eq_true.mp hall name hname] at hdeclares
  cases hdeclares

/-- A pass over a slice that reading it as a pattern makes: the first one, or the one that follows
if `\k` depends on there being a named group and the first one has found such a group. -/
inductive MakesPass (o : Options) (flags : FlagSet) (slice : Slice) : Bool → Prop
  | first (hflags : (flags.unicode && flags.unicodeSets) = false) :
    MakesPass o flags slice (alwaysNamedReferences o flags)
  | second {p : Pattern} {scope : GroupScope}
    (hflags : (flags.unicode && flags.unicodeSets) = false)
    (hfirst : pass (duplicateRule o.edition) o flags (alwaysNamedReferences o flags)
      (slice.cursor flags.unicodeMode) = .ok (p, scope))
    (hagain : (!alwaysNamedReferences o flags && o.edition.supports .namedGroups &&
      !scope.isEmpty) = true) :
    MakesPass o flags slice true

/-- A fault that a pass finds is the answer. -/
theorem read_of_pass_error {slice : Slice} {f : Fault} (hmade : MakesPass o flags slice named)
    (h : pass (duplicateRule o.edition) o flags named (slice.cursor flags.unicodeMode) =
      .error f) : read o flags slice = .error f := by
  cases hmade with
  | first hflags =>
    rw [read, hflags, if_neg Bool.false_ne_true, readUnder_of_pass_error h]
  | second hflags hfirst hagain =>
    rw [read, hflags, if_neg Bool.false_ne_true, readUnder_of_pass_ok hfirst, if_pos hagain, h]
    rfl

/-- A slice is refused at its end if a pass that is made has read all of it, and in it a reference
to a name that no group has. -/
theorem read_of_unknown {slice : Slice} {qs : List Sequence} {t : State} {name : GroupName}
    {span : Span} (hv : slice.Valid) (hmade : MakesPass o flags slice named)
    (hqs : disjunction o.maxDepth (grammarFor o flags named (slice.cursor flags.unicodeMode))
      ⟨slice.cursor flags.unicodeMode, .empty (duplicateRule o.edition), 0⟩ = .done qs t)
    (hend : t.cursor.current = none)
    (hname : name ∈ (Node.pattern ⟨span, qs⟩).referredNames)
    (hunknown : (Node.pattern ⟨span, qs⟩).indexesOf name = []) :
    read o flags slice = .error ⟨.unknownNamedReference, slice.stop⟩ := by
  have hheld : slice.Holds flags.unicodeMode t.cursor :=
    (slice.holds_cursor _).trans (disjunction_derives hqs).reaches
  have hstop : t.cursor.index = slice.stop := by
    have hremaining := hheld.remaining hv
    rwa [Cursor.remaining, Cursor.current_eq_none.mp hend] at hremaining
  rw [← hstop]
  exact read_of_pass_error hmade (pass_of_unknown hqs hend hname hunknown)

end Pattern

/-! ## Requests

From patterns to requests of every kind, for which it has to be said which part of the text is read
as a pattern. -/

/-- What a request reads as a pattern, and under which flags. -/
inductive Request.ReadsPattern (o : Options) : Request → Slice → FlagSet → Prop
  | pattern {choice : FlagChoice} {slice : Slice} {flags : FlagSet} (hv : slice.Valid)
    (hflags : choice.resolve o.edition = .ok flags) :
    ReadsPattern o (.pattern choice slice) slice flags
  | literal {slice : Slice} {length : Nat} {flags : FlagSet} (hv : slice.Valid)
    (hlength : Literal.patternLength slice = .ok length)
    (hflags : FlagSet.read o.edition
      ((Slice.content { slice with start := slice.start + length + 2 }).characters true) =
        .ok flags) :
    ReadsPattern o (.literal slice)
      { slice with start := slice.start + 1, stop := slice.start + length + 1 } flags
  | parts {source flagText : Text} {flags : FlagSet}
    (hflags : FlagSet.read o.edition (flagText.characters true) = .ok flags) :
    ReadsPattern o (.parts source flagText)
      ⟨Literal.join source flagText, 1, source.length + 1⟩ flags

namespace Request

variable {o : Options} {q : Request} {slice : Slice} {flags : FlagSet}

/-- What a request reads as a pattern lies within its text. -/
theorem ReadsPattern.valid (h : q.ReadsPattern o slice flags) : slice.Valid := by
  have hpart : ∀ {whole : Slice} {length : Nat}, whole.Valid → Literal.Delimited whole length →
      Slice.Valid { whole with start := whole.start + 1, stop := whole.start + length + 1 } := by
    intro whole length hv hd
    have hstop := hd.le_stop
    have hlength := hv.stop_le_length
    exact ⟨by simp only; omega, by simp only; omega⟩
  cases h with
  | pattern hv => exact hv
  | literal hv hlength => exact hpart hv (Literal.delimited_of_patternLength hlength)
  | @parts source flagText =>
    have hv := hpart (Slice.valid_whole _) (Literal.delimited_join source flagText)
    simpa [Slice.whole] using hv

/-- What is wrong with the pattern is what is wrong with the request. -/
theorem ReadsPattern.answer_of_error {f : Fault} (h : q.ReadsPattern o slice flags)
    (hread : Pattern.read o flags slice = .error f) :
    ∃ source, q.answer o = .error (.ofFault source f) := by
  -- literals and parts read the same way once their flags are known
  have hparts : ∀ {whole : Slice} {length : Nat},
      FlagSet.read o.edition
        ((Slice.content { whole with start := whole.start + length + 2 }).characters true) =
          .ok flags →
      Pattern.read o flags
        { whole with start := whole.start + 1, stop := whole.start + length + 1 } = .error f →
      Literal.readParts o whole length = .error f := by
    intro whole length hflags hread
    rw [Literal.readParts, Flags.read, hflags]
    show (Pattern.read o flags
      { whole with start := whole.start + 1, stop := whole.start + length + 1 } >>= _) = _
    rw [hread]
    rfl
  cases h with
  | @pattern choice _ _ _ hflags =>
    refine ⟨some (patternSource slice flags), ?_⟩
    rw [answer, parsePattern, hflags]
    show _ <$> (Pattern.read _ _ _).mapError _ = _
    rw [hread]
    rfl
  | @literal whole length _ _ hlength hflags =>
    refine ⟨literalSource whole, ?_⟩
    rw [answer, parseLiteral, Literal.read, hlength]
    show _ <$> (Literal.readParts _ _ _).mapError _ = _
    rw [hparts hflags hread]
    rfl
  | @parts source flagText _ hflags =>
    refine ⟨literalSource (.whole (Literal.join source flagText)), ?_⟩
    rw [answer, parseParts]
    show _ <$> (Literal.readParts _ _ _).mapError _ = _
    have hwhole : Literal.readParts o (.whole (Literal.join source flagText)) source.length =
        .error f := by
      apply hparts
      · simpa [Slice.whole, Literal.content_flags] using hflags
      · simpa [Slice.whole] using hread
    rw [hwhole]
    rfl

/-- The groups and the references of a literal are those of its pattern. -/
theorem resolved_literal {l : Literal} (h : (Node.pattern l.pattern).Resolved) :
    (Node.literal l).Resolved := by
  have hflags : (Node.flags l.flags).descendants = [.flags l.flags] := by
    rw [Node.descendants_eq, Node.children_flags]
    rfl
  have hdescendants : (Node.literal l).descendants =
      .literal l :: ((Node.pattern l.pattern).descendants ++ [.flags l.flags]) := by
    rw [Node.descendants_eq, Node.children_literal]
    simp [hflags]
  have hindexes : ∀ name, (Node.literal l).indexesOf name =
      (Node.pattern l.pattern).indexesOf name := by
    intro name
    rw [Node.indexesOf, Node.captures, hdescendants, List.filterMap_cons_none rfl,
      List.filterMap_append, List.filterMap_cons_none rfl, List.filterMap_nil, List.append_nil]
    rfl
  intro span name indexes hmem
  rw [hdescendants] at hmem
  rw [hindexes]
  exact h span name indexes (by simpa using hmem)

/-- In the tree that answers a request every reference by name is resolved. -/
theorem resolved_of_answer {n : Node} (h : q.answer o = .ok n) : n.Resolved := by
  rcases pass_of_answer h with
    ⟨f, rfl⟩ | ⟨rule, flags, named, c, p, scope, hpass, rfl | ⟨l, rfl, rfl⟩⟩
  · intro span name indexes hmem
    rw [Node.descendants_eq, Node.children_flags] at hmem
    simp at hmem
  · exact Pattern.resolved_of_pass hpass
  · exact resolved_literal (Pattern.resolved_of_pass hpass)

end Request

/-- References by name are resolved fully and exactly. In the tree that answers a request, such a
reference lists the numbers of all groups of that tree with its name, in order, and there is one. If
a pass that the request makes reads its pattern to the end, and in it a reference to a name that no
group has, the answer is that the reference is unknown, at the end of the pattern. -/
theorem references_resolved_exactly (o : Options) (q : Request) :
    (∀ n, q.answer o = .ok n → n.Resolved) ∧
    ∀ slice flags named qs t, q.ReadsPattern o slice flags →
      Pattern.MakesPass o flags slice named →
      disjunction o.maxDepth (Pattern.grammarFor o flags named (slice.cursor flags.unicodeMode))
        ⟨slice.cursor flags.unicodeMode, .empty (Pattern.duplicateRule o.edition), 0⟩ =
          .done qs t →
      t.cursor.current = none →
      ∀ span name, name ∈ (Node.pattern ⟨span, qs⟩).referredNames →
        (Node.pattern ⟨span, qs⟩).indexesOf name = [] →
        ∃ source, q.answer o =
          .error (.diagnostic
            ⟨false, .ofString "Invalid named capture referenced", slice.stop, source⟩) := by
  refine ⟨fun n => Request.resolved_of_answer, ?_⟩
  intro slice flags named qs t hreads hmade hqs hend span name hname hunknown
  exact hreads.answer_of_error
    (Pattern.read_of_unknown hreads.valid hmade hqs hend hname hunknown)

/-- One name is referred to before and after its two groups; the other has no group, which the
second of two passes finds out. -/
theorem references_resolved_exactly_over_two_passes :
    (∃ p, parsePattern (.ofEdition .es2025 false) (.set {})
        (.whole (.ofString "\\k<n>(?<n>a)|(?<n>\\k<n>)")) = .ok p ∧ (Node.pattern p).Resolved) ∧
      ∃ source, parsePattern (.ofEdition .es2025 false) (.set {})
        ⟨.ofString "((?<n>a)\\k<m>)", 1, 13⟩ =
          .error (.diagnostic
            ⟨false, .ofString "Invalid named capture referenced", 13, source⟩) := by
  constructor
  · obtain ⟨p, hp⟩ : ∃ p, parsePattern (.ofEdition .es2025 false) (.set {})
        (.whole (.ofString "\\k<n>(?<n>a)|(?<n>\\k<n>)")) = .ok p :=
      Except.exists_eq_ok (by decide +kernel)
    have hanswer : (Request.pattern (.set {})
        (.whole (.ofString "\\k<n>(?<n>a)|(?<n>\\k<n>)"))).answer (.ofEdition .es2025 false) =
          .ok (.pattern p) := by
      rw [Request.answer, hp]
      rfl
    exact ⟨p, hp, (references_resolved_exactly _ _).1 _ hanswer⟩
  · obtain ⟨slice, hslice⟩ : ∃ slice, slice = Slice.mk (.ofString "((?<n>a)\\k<m>)") 1 13 :=
      ⟨_, rfl⟩
    have hreads : (Request.pattern (.set {}) slice).ReadsPattern (.ofEdition .es2025 false) slice
        {} :=
      .pattern (by rw [hslice]; exact ⟨by decide, by decide +kernel⟩) rfl
    -- the first pass reads the reference as text and finds a group with a name
    have hpass : (Pattern.pass .separated (.ofEdition .es2025 false) {} false
        (slice.cursor false)).toOption.any (fun x => !x.2.isEmpty) = true := by
      rw [hslice]
      decide +kernel
    obtain ⟨⟨q, scope⟩, hfirst, hscope⟩ := Except.exists_eq_ok_of_any hpass
    obtain ⟨qs, t, hqs, htest⟩ := Outcome.exists_eq_done
      (x := disjunction Options.defaultMaxDepth.toNat
        (Pattern.grammarFor (.ofEdition .es2025 false) {} true (slice.cursor false))
        ⟨slice.cursor false, .empty .separated, 0⟩)
      (f := fun qs t => t.cursor.current.isNone &&
        (Term.referredNamesOfAll qs).contains [.ofChar 'm'] && t.scope.indexes [.ofChar 'm'] == [])
      (by rw [hslice]; decide +kernel)
    simp only [Bool.and_eq_true, Option.isNone_iff_eq_none, List.contains_iff_mem, beq_iff_eq]
      at htest
    obtain ⟨⟨hend, hname⟩, hunknown⟩ := htest
    rw [Pattern.indexes_of_derives ⟨0, 0, []⟩ (disjunction_derives hqs)] at hunknown
    obtain ⟨source, h⟩ := (references_resolved_exactly _ _).2 slice {} true qs t hreads
      (.second rfl hfirst (by rw [hscope]; decide)) hqs hend ⟨0, 0, []⟩ [.ofChar 'm']
      (by rw [Pattern.referredNames_node]; exact hname) hunknown
    refine ⟨source, ?_⟩
    rw [hslice] at h
    cases hp : parsePattern (.ofEdition .es2025 false) (.set {})
        ⟨.ofString "((?<n>a)\\k<m>)", 1, 13⟩ with
    | ok p => rw [Request.answer, hp] at h; cases h
    | error d => rw [Request.answer, hp] at h; cases h; rfl

end EcmaPattern
