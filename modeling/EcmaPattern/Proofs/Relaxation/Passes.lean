import EcmaPattern.Proofs.FaultPlaces
import EcmaPattern.Proofs.Relaxation.Terms

/-!
# Passes in relaxed grammars

A pass that succeeds under a grammar succeeds under a relaxed one, with the same groups and the same
scope of group names (`Pattern.pass_relaxed`). There is one exception: the digits of an escape in a
named reference can become the digits of a quantifier, of which there may be too many. Whether the
scope declares a name can be told from the tree (`Pattern.isEmpty_of_pass`), so it is also the tree
that decides about a second pass.
-/

namespace EcmaPattern

open EcmaPattern.Parser

def Pattern.hasNamedGroup (p : Pattern) : Bool := (Node.pattern p).captures.any (·.name.isSome)

namespace Pattern

variable {rule : DuplicateRule} {o o' : Options} {flags : FlagSet} {named named' : Bool}
  {c : Cursor} {p : Pattern} {scope : GroupScope}

theorem grammarFor_sets (h : (grammarFor o flags named c).sets = true) :
    (grammarFor o flags named c).unicode = true := by
  show (flags.unicode || flags.unicodeSets) = true
  rw [show flags.unicodeSets = true from h, Bool.or_true]

/-- Where no name is declared, no reference by name has succeeded. -/
theorem referredNames_eq_nil {names : List GroupName} (h : names.all scope.declares = true)
    (hscope : scope.isEmpty = true) : names = [] := by
  cases names with
  | nil => rfl
  | cons name names =>
    rw [List.all_cons, Bool.and_eq_true, GroupScope.declares, List.isEmpty_iff.mp hscope] at h
    cases h.1

/-- A pass under a relaxed grammar gives the groups and the scope of a pass under the grammar, and
what it gives nests alike. It gives the same tree if the same is taken for a named reference, or if
no group has a name. But where a name is referred to and this is not taken for a reference, it may
find that a number is too long. -/
theorem pass_relaxed
    (hg : (grammarFor o flags named c).RelaxesTo (grammarFor o' flags named' c))
    (hdepth : o'.maxDepth = o.maxDepth) (h : pass rule o flags named c = .ok (p, scope)) :
    (∃ q, pass rule o' flags named' c = .ok (q, scope) ∧
      (Node.pattern q).captures = (Node.pattern p).captures ∧
      (∀ levels, q.beneath levels = p.beneath levels) ∧
      (named' = named ∨ scope.isEmpty = true → q = p)) ∨
    named' ≠ named ∧ p.referredNames ≠ [] ∧
      ∃ f, pass rule o' flags named' c = .error f ∧ f.IsOfLongNumber c := by
  obtain ⟨qs, t, hqs, hnone, rfl, hnames, rfl⟩ := pass_eq_ok.mp h
  have hrelaxed := disjunction_relaxed hg grammarFor_sets hqs (.inl hnone)
  rw [← hdepth] at hrelaxed
  rcases hrelaxed.symm with ⟨⟨hkept, hrefers⟩, f, hf, n, -, hcause⟩ | ⟨qs', hqs', halike⟩
  · right
    refine ⟨hkept, ?_, f, pass_of_disjunction_fault hf, ?_⟩
    · rwa [referredNames, resolve, Term.referredNamesOfAll_resolve]
    -- the number that is too long is one of this pass, so its digits are found in the text
    · have hafter : Outcome.After c (.fault f : Outcome (List Sequence)) := by
        rw [← hf]
        exact disjunction_staysAfter _ _ (.refl c)
      refine hafter.cause.resolve_left ?_
      rw [hcause]
      exact Bool.false_ne_true
  refine .inl ⟨(Pattern.mk (.between c t.cursor) qs').resolve t.scope.indexes, ?_, ?_, ?_, ?_⟩
  · refine pass_eq_ok.mpr ⟨qs', t, hqs', hnone, rfl, ?_, rfl⟩
    rw [List.all_eq_true] at hnames ⊢
    exact fun name hname => hnames name (halike.names name hname)
  · rw [captures_resolve, captures_resolve]
    exact halike.captures
  · intro levels
    rw [beneath_resolve, beneath_resolve]
    exact halike.beneath levels
  · intro hkept
    obtain ⟨⟩ := halike.same (hkept.imp_right (referredNames_eq_nil hnames))
    rfl

/-- After a pass, the scope is empty exactly if no group of the tree has a name. -/
theorem isEmpty_of_pass (h : pass rule o flags named c = .ok (p, scope)) :
    scope.isEmpty = !p.hasNamedGroup := by
  obtain ⟨qs, t, hqs, -, rfl, rfl⟩ := derives_of_pass h
  have hentries : t.scope.entries = (Piece.disjunction qs).captures.filterMap Capture.named? :=
    hqs.captures_declared
  have hempty : t.scope.isEmpty = t.scope.entries.isEmpty := by
    rw [GroupScope.isEmpty, GroupScope.entries, List.isEmpty_map]
  rw [hempty, hentries, hasNamedGroup, captures_resolve]
  -- a group is declared exactly if it has a name
  induction (Piece.disjunction qs).captures with
  | nil => rfl
  | cons x xs ih =>
    obtain ⟨start, index, name⟩ := x
    cases name with
    | none => exact ih
    | some n => rfl

/-! ## The grammar of the web

Giving up references by name is one way to relax a grammar, and giving up the strict rules is the
other. Under the web grammar both passes of a pattern are related in the first way. -/

section Web

variable (hstrict : o.strict = false) (hmode : flags.unicodeMode = false)

include hstrict hmode

/-- Taking `\k` for text relaxes the grammar of the web. -/
theorem grammarFor_relaxesTo_text :
    (grammarFor o flags true c).RelaxesTo (grammarFor o flags false c) where
  edition := rfl
  unicode := rfl
  sets := rfl
  captures := rfl
  strict := id
  names := .inr ⟨rfl, by simp [Grammar.exact, grammarFor, hstrict, hmode]⟩

theorem alwaysNamedReferences_eq_false : alwaysNamedReferences o flags = false := by
  rw [FlagSet.unicodeMode, Bool.or_eq_false_iff] at hmode
  simp [alwaysNamedReferences, hstrict, hmode.1, hmode.2]

/-- A pattern is read in one pass or in two: a first one that takes `\k` for text and, if it finds a
named group, a second one. -/
theorem readUnder_web (hedition : .es2018 ≤ o.edition) :
    readUnder rule o flags c = .ok p ↔
      ∃ q scope, pass rule o flags false c = .ok (q, scope) ∧
        if scope.isEmpty then q = p else ∃ scope', pass rule o flags true c = .ok (p, scope') := by
  have hgroups : o.edition.supports .namedGroups = true := decide_eq_true hedition
  rw [readUnder_eq_ok, alwaysNamedReferences_eq_false hstrict hmode, hgroups]
  constructor
  · rintro ⟨q, scope, hq, h⟩
    refine ⟨q, scope, hq, ?_⟩
    cases hempty : scope.isEmpty <;> simpa [hempty] using h
  · rintro ⟨q, scope, hq, h⟩
    refine ⟨q, scope, hq, ?_⟩
    cases hempty : scope.isEmpty <;> simpa [hempty] using h

end Web

end Pattern

end EcmaPattern
