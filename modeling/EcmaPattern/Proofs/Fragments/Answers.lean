import EcmaPattern.Proofs.DuplicateNames.Answers
import EcmaPattern.Proofs.Fragments.Constructs
import EcmaPattern.Proofs.Slices

/-!
# Constructs that are parsed again

The text of a group, a lookaround or a class is a pattern of its own. If no reference stands in it,
the answer for that text is a pattern whose only term is the construct, moved to the start and with
its groups numbered from one on (`constructs_parsed_again`): neither the number of groups in the
whole pattern, nor their names, nor that a name makes a second pass necessary, has any influence.
-/

namespace EcmaPattern

open EcmaPattern.Parser

/-! ## Patterns of one term

A pattern with the construct for its only term has the groups and the nodes of the construct. -/

namespace Node

variable {n m : Node} {e : Term} {span span' : Span}

theorem descendants_subset (hm : m ∈ n.descendants) : m.descendants ⊆ n.descendants := by
  induction n using induction_on_children with
  | h n ih =>
    rw [descendants_eq n] at hm ⊢
    rcases List.mem_cons.mp hm with rfl | hm
    · rw [← descendants_eq]
      exact List.Subset.refl _
    · obtain ⟨c, hc, hm⟩ := List.mem_flatMap.mp hm
      intro k hk
      exact List.mem_cons_of_mem _ (List.mem_flatMap.mpr ⟨c, hc, ih c hc hm hk⟩)

/-- The groups of a node below are groups of the node. -/
theorem captures_subset (hm : m ∈ n.descendants) : m.captures ⊆ n.captures := by
  intro c hc
  obtain ⟨k, hk, hcapture⟩ := List.mem_filterMap.mp hc
  exact List.mem_filterMap.mpr ⟨k, descendants_subset hm hk, hcapture⟩

/-- A pattern of one term has the groups of the term. -/
theorem captures_single : (pattern ⟨span, [.mk span' [e]]⟩).captures = (term e).captures := by
  rw [captures_eq, children_pattern]
  simp [capture?, captures_eq (sequence _), children_sequence]

/-- The groups of a pattern of one term part where those of the term do. -/
theorem namesApart_single {edition : Edition} (h : (term e).NamesApart edition) :
    (pattern ⟨span, [.mk span' [e]]⟩).NamesApart edition := by
  have hmem : term e ∈ (pattern ⟨span, [.mk span' [e]]⟩).descendants := by
    rw [descendants_eq, children_pattern]
    simp [descendants_eq (sequence _), children_sequence, descendants_eq (term e)]
  intro c hc d hd hne hname
  rw [captures_single] at hc hd
  refine (h c hc d hd hne hname).imp_right (And.imp_right ?_)
  rintro ⟨k, hk, hdivides⟩
  exact ⟨k, descendants_subset hmem hk, hdivides⟩

end Node

/-! ## Patterns

The passes for the text of the construct may be fewer than for the whole text. It does not matter:
references are the only thing that passes differ in, and the construct has none. -/

namespace Pattern

variable {o : Options} {flags : FlagSet} {named : Bool} {c : Cursor} {p : Pattern}
  {scope : GroupScope} {m : Node}

/-- A pass that succeeds gives only names that its rule admits. -/
theorem admits_of_pass {rule : DuplicateRule} (h : pass rule o flags named c = .ok (p, scope)) :
    rule.Admits scope.declarations := by
  obtain ⟨qs, t, hqs, -, rfl, -, -⟩ := pass_eq_ok.mp h
  have hchecks := disjunction_checks (g := grammarFor o flags named c) o.maxDepth
    ⟨c, .empty rule, 0⟩
  have hrule : t.scope.rule = rule := (hchecks.grows hqs).rule
  rcases hchecks.checks with ⟨-, hadmitted⟩ | ⟨⟨i, hi⟩, -⟩
  · have hall := hadmitted qs t hqs .nil
    rwa [GroupScope.Admitted, hrule] at hall
  · rw [hqs] at hi
    cases hi

/-- Without a check for names, the text of a construct is read as the construct. If the whole
pattern has no named group, neither has the construct, and both are read in one pass; and if the
whole pattern is read in two, the construct may be read in two as well. -/
theorem readUnder_of_construct {rule : DuplicateRule} (h : readUnder rule o flags c = .ok p)
    (hm : m ∈ (Node.pattern p).descendants) (hnests : m.kind.nests = true)
    (hrefers : ¬ m.Refers) :
    ∃ span e, readUnder .unchecked o flags ⟨m.span.start, m.span.raw, c.paired⟩ =
        .ok ⟨span, [.mk span [e]]⟩ ∧
      m.asTerm? = some (e.raise (p.groupsBefore m.span.start)) := by
  obtain ⟨q, scope, hq, hp⟩ := readUnder_eq_ok.mp h
  split at hp
  · next hagain =>
    simp only [Bool.and_eq_true, Bool.not_eq_true'] at hagain
    obtain ⟨scope', hp⟩ := hp
    obtain ⟨span, e, scope'', he, hterm⟩ := pass_of_construct hp hm hnests hrefers
    -- the whole pattern took two passes; the construct has no references, so either pass will do
    refine ⟨span, e, readUnder_of_referredNames hagain.1.1 hagain.1.2 he ?_, hterm⟩
    have hnone := Node.referredNames_of_asTerm? hrefers hterm
    simp [referredNames, Term.referredNamesOfAll, Term.referredNamesOfSequence,
      Term.referredNamesOfTerms, hnone]
  · next honce =>
    subst hp
    obtain ⟨span, e, scope', he, hterm⟩ := pass_of_construct hq hm hnests hrefers
    refine ⟨span, e, ?_, hterm⟩
    -- no named group in the whole pattern, hence none in the construct and no second pass either
    have hempty : scope.isEmpty = true → scope'.isEmpty = true := by
      rw [isEmpty_of_pass hq, isEmpty_of_pass he, hasNamedGroup, hasNamedGroup,
        Node.captures_single, Bool.not_eq_true', Bool.not_eq_true', List.any_eq_false,
        List.any_eq_false]
      intro hnone x hx
      have hx' : x.raise (q.groupsBefore m.span.start) ∈ m.captures := by
        rw [← Node.captures_of_asTerm? hterm]
        exact List.mem_map_of_mem hx
      exact hnone (x.raise _) (Node.captures_subset hm hx')
    rw [readUnder_of_pass_ok he, if_neg]
    intro hagain
    apply honce
    simp only [Bool.and_eq_true, Bool.not_eq_true'] at hagain ⊢
    refine ⟨hagain.1, ?_⟩
    rw [← Bool.not_eq_true]
    exact fun hscope => Bool.eq_false_iff.mp hagain.2 (hempty hscope)

/-- The names of a construct are kept apart, so the check has no influence. -/
theorem readUnder_construct (h : readUnder (duplicateRule o.edition) o flags c = .ok p)
    (hm : m ∈ (Node.pattern p).descendants) (hnests : m.kind.nests = true)
    (hrefers : ¬ m.Refers) :
    ∃ span e, readUnder (duplicateRule o.edition) o flags ⟨m.span.start, m.span.raw, c.paired⟩ =
        .ok ⟨span, [.mk span [e]]⟩ ∧
      m.asTerm? = some (e.raise (p.groupsBefore m.span.start)) := by
  obtain ⟨named, scope, hpass⟩ := pass_of_readUnder h
  have hapart : (Node.pattern p).NamesApart o.edition :=
    (admits_iff_namesApart hpass o.edition).mp (admits_of_pass hpass)
  have hnodup : (Node.pattern p).captures.Nodup := by
    obtain ⟨qs, t, hqs, -, -, rfl⟩ := derives_of_pass hpass
    rw [captures_resolve]
    exact hqs.captures_nodup
  have hconstruct : m.NamesApart o.edition := hapart.of_mem hnodup hm
  obtain ⟨span, e, hread, hterm⟩ := readUnder_of_construct h hm hnests hrefers
  refine ⟨span, e, ?_, hterm⟩
  rcases readUnder_checked o flags _ _ hread with ⟨-, hread⟩ | ⟨hnot, -⟩
  · exact hread
  · exact absurd (Node.namesApart_single (hconstruct.of_asTerm? hterm)) hnot

/-- The text of a construct, moved to the start. -/
theorem readUnder_whole {k : Nat} {t : Text} {paired : Bool} {rule : DuplicateRule} {span : Span}
    {e : Term} (h : readUnder rule o flags ⟨k, t, paired⟩ = .ok ⟨span, [.mk span [e]]⟩) :
    ∃ q span' e', readUnder rule o flags ((Slice.whole t).cursor paired) = .ok q ∧
      q.alternatives = [.mk span' [e']] ∧ e'.shift k = e := by
  have hcursor : (⟨k, t, paired⟩ : Cursor) = ((Slice.whole t).cursor paired).shift k := by
    have hcontent : (Slice.whole t).text.slice 0 t.length = t := Slice.content_whole t
    rw [Slice.cursor, Slice.cursorAt, Cursor.shift]
    exact congrArg (Cursor.mk k · paired) hcontent.symm
  rw [hcursor, readUnder_shift, Except.mapError_eq_ok] at h
  obtain ⟨q, hq, hshift⟩ := Except.map_eq_ok.mp h
  refine ⟨q, ?_⟩
  have halternatives : Term.shiftAll k q.alternatives = [.mk span [e]] :=
    congrArg Pattern.alternatives hshift
  rw [Term.shiftAll_eq, List.map_eq_singleton_iff] at halternatives
  obtain ⟨⟨span', es⟩, hq', hsequence⟩ := halternatives
  rw [Term.shiftSequence, Sequence.mk.injEq, Term.shiftTerms_eq,
    List.map_eq_singleton_iff] at hsequence
  obtain ⟨-, e', rfl, he'⟩ := hsequence
  exact ⟨span', e', hq, hq', he'⟩

end Pattern

/-! ## Requests

The depth of a construct alone is less than in the whole, so no limit is exceeded that was not
exceeded before. -/

instance (n : Node) : Decidable n.Refers :=
  inferInstanceAs (Decidable (∃ m ∈ n.descendants, m.kind = .reference))

/-- A group, a lookaround or a class of an answer, in which no reference stands, is parsed again
from its text: the answer for that text is a pattern of one alternative, which is one term, and this
term is the construct if it is moved to where the construct stands and so many groups come before it
as open before the construct. -/
theorem constructs_parsed_again (o : Options) (choice : FlagChoice) (slice : Slice) (p : Pattern)
    (h : parsePattern o choice slice = .ok p) (x : Node) (hx : x ∈ (Node.pattern p).descendants)
    (hnests : x.kind.nests = true) (hrefers : ¬ x.Refers) :
    ∃ (q : Pattern) (a : Sequence) (e : Term),
      parsePattern o choice (.whole x.span.raw) = .ok q ∧ q.alternatives = [a] ∧
      a.elements = [e] ∧
      x.asTerm? = some ((e.shift x.span.start).raise (p.groupsBefore x.span.start)) := by
  obtain ⟨flags, hflags, hread⟩ := parsePattern_eq_ok.mp h
  obtain ⟨hconflict, hread⟩ := Pattern.read_eq_ok.mp hread
  obtain ⟨span, e, hconstruct, hterm⟩ := Pattern.readUnder_construct hread hx hnests hrefers
  obtain ⟨q, span', e', hq, halternatives, rfl⟩ := Pattern.readUnder_whole hconstruct
  refine ⟨q, .mk span' [e'], e', ?_, halternatives, rfl, hterm⟩
  exact parsePattern_eq_ok.mpr ⟨flags, hflags, Pattern.read_eq_ok.mpr ⟨hconflict, hq⟩⟩

/-- A group with a name that stands twice, behind another group and a reference to the name; it is
read twice, in the whole pattern and by itself. -/
theorem constructs_parsed_again_with_names :
    ∃ (p : Pattern) (x : Node),
      parsePattern (.ofEdition .es2025 false) (.set {})
        (.whole (.ofString "(a)\\k<n>(?:(?<n>[b])|(?<n>c(?=d)))")) = .ok p ∧
      x ∈ (Node.pattern p).descendants ∧ x.kind.nests = true ∧ ¬ x.Refers ∧
      ∃ (q : Pattern) (a : Sequence) (e : Term),
        parsePattern (.ofEdition .es2025 false) (.set {})
          (.whole (.ofString "(?:(?<n>[b])|(?<n>c(?=d)))")) = .ok q ∧
        q.alternatives = [a] ∧ a.elements = [e] ∧ x.asTerm? = some ((e.shift 8).raise 1) := by
  have hany : (parsePattern (.ofEdition .es2025 false) (.set {})
      (.whole (.ofString "(a)\\k<n>(?:(?<n>[b])|(?<n>c(?=d)))"))).toOption.any
        (fun p => (Node.pattern p).descendants.any fun x => decide (x.kind.nests = true ∧
          ¬ x.Refers ∧ x.span.raw = .ofString "(?:(?<n>[b])|(?<n>c(?=d)))" ∧
          x.span.start = 8 ∧ p.groupsBefore x.span.start = 1)) = true := by
    decide +kernel
  obtain ⟨p, hp, htest⟩ := Except.exists_eq_ok_of_any hany
  obtain ⟨x, hx, htest⟩ := List.any_eq_true.mp htest
  obtain ⟨hnests, hrefers, hraw, hstart, hbefore⟩ := of_decide_eq_true htest
  obtain ⟨q, a, e, hq, halternatives, helements, hterm⟩ :=
    constructs_parsed_again _ _ _ p hp x hx hnests hrefers
  rw [hraw] at hq
  rw [hbefore, hstart] at hterm
  exact ⟨p, x, hp, hx, hnests, hrefers, q, a, e, hq, halternatives, helements, hterm⟩

end EcmaPattern
