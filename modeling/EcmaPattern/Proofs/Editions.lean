import EcmaPattern.Proofs.Agreement.Terms

/-!
# Later editions

Editions only add to the language: what an edition accepts, every later edition accepts with the
same tree. A single pass carries over, since text that a later edition reads differently was at
fault before (`Pattern.pass_later`). What is left to show is that the passes fit together: a later
edition may make one pass where an earlier one made two, and flags that were known stay known.
-/

namespace EcmaPattern

def Options.inEdition (o : Options) (e : Edition) : Options := { o with edition := e }

/-! ## Names that stand twice

Before ES2025 a name may not stand twice; after, it may in different alternatives. A scope under the
later rule finds fewer conflicts. -/

/-- The rule of a later edition in place of one: what was forbidden may now be allowed. -/
def DuplicateRule.later (e : Edition) : DuplicateRule → DuplicateRule
  | .forbidden => Pattern.duplicateRule e
  | .separated => .separated
  | .unchecked => .unchecked

/-- The rule of an edition is turned into the rule of a later one. -/
theorem DuplicateRule.later_duplicateRule {e e' : Edition} (h : e ≤ e') :
    DuplicateRule.later e' (Pattern.duplicateRule e) = Pattern.duplicateRule e' := by
  rw [Pattern.duplicateRule]
  split
  · next hsupported =>
    rw [Pattern.duplicateRule, if_pos (Edition.supports_mono h hsupported)]
    rfl
  · rfl

/-- A name that was given nowhere conflicts with nothing. -/
theorem GroupScope.conflicts_eq_false {s : GroupScope} {name : GroupName}
    (h : s.declares name = false) : s.conflicts name = false := by
  have hnone : s.declarationsOf name = [] := by
    rw [declares, List.any_eq_false] at h
    exact List.filter_eq_nil_iff.mpr h
  unfold conflicts
  split
  · exact h
  · rw [hnone]
    rfl
  · rfl

/-- Under the rule of a later edition a name conflicts as before, unless it conflicted before. -/
theorem GroupScope.conflicts_later (e : Edition) (s : GroupScope) (name : GroupName) :
    (s.underRule (DuplicateRule.later e)).conflicts name = s.conflicts name ∨
      s.conflicts name = true := by
  cases hconflicts : s.conflicts name with
  | true => exact .inr rfl
  | false =>
    left
    cases hrule : s.rule with
    | forbidden =>
      refine conflicts_eq_false ?_
      rw [conflicts, hrule] at hconflicts
      exact hconflicts
    | separated =>
      rw [← hconflicts, conflicts, conflicts, underRule, hrule]
      rfl
    | unchecked =>
      rw [← hconflicts, conflicts, conflicts, underRule, hrule]
      rfl

/-! ## Flags

Later editions know more flags, and those that were known keep their meaning. -/

theorem Flag.availableIn_mono {e e' : Edition} (h : e ≤ e') {f : Flag}
    (hf : f.availableIn e = true) : f.availableIn e' = true := by
  rw [availableIn] at hf ⊢
  cases hfeature : f.feature? with
  | none => rfl
  | some feature =>
    rw [hfeature] at hf
    exact Edition.supports_mono h hf

namespace FlagSet

/-- Flags that an edition reads are read alike in a later one, letter by letter. -/
theorem collect_mono {e e' : Edition} (h : e ≤ e') {cs : List CodePoint}
    {seen result : List (Flag × Nat)} {index : Nat} (hc : collect e seen index cs = .ok result) :
    collect e' seen index cs = .ok result := by
  induction cs generalizing seen index with
  | nil => exact hc
  | cons c cs ih =>
    rw [collect] at hc ⊢
    cases hf : Flag.ofLetter? c with
    | none => rw [hf] at hc; cases hc
    | some f =>
      simp only [hf] at hc ⊢
      split at hc
      · cases hc
      · next hnew =>
        rw [if_neg hnew]
        split at hc
        · next havailable =>
          rw [if_pos (Flag.availableIn_mono h havailable)]
          exact ih hc
        · cases hc

/-- A string of flags that an edition reads is read alike in a later one. -/
theorem read_mono {e e' : Edition} (h : e ≤ e') {letters : List CodePoint} {set : FlagSet}
    (hr : read e letters = .ok set) : read e' letters = .ok set := by
  obtain ⟨seen, hseen, hr⟩ := Except.bind_eq_ok.mp hr
  exact Except.bind_eq_ok.mpr ⟨seen, collect_mono h hseen, hr⟩

end FlagSet

theorem FlagChoice.resolve_mono {e e' : Edition} (h : e ≤ e') {choice : FlagChoice} {set : FlagSet}
    (hc : choice.resolve e = .ok set) : choice.resolve e' = .ok set := by
  cases choice with
  | set s => exact hc
  | text letters =>
    have hread := Except.mapError_eq_ok.mp (Except.mapError_eq_ok.mp hc)
    exact Except.mapError_eq_ok.mpr (Except.mapError_eq_ok.mpr (FlagSet.read_mono h hread))

namespace Pattern

variable {o : Options} {e : Edition} {flags : FlagSet} {named named' : Bool} {c : Cursor}
  {p : Pattern} {scope : GroupScope}

/-! ## Passes

A pass of an edition and a pass of a later one are compared with every fault of the first excused.
What the first reads, the second reads. -/

/-- The grammars of an edition and of a later one; whatever the earlier one finds fault with, the
later one may accept. -/
def editionComparison (o : Options) (e : Edition) (he : o.edition ≤ e) (flags : FlagSet)
    (named named' : Bool) (hnamed : named' = named ∨ (o.strict || flags.unicodeMode) = true)
    (c : Cursor) : Comparison where
  left := grammarFor o flags named c
  right := grammarFor (o.inEdition e) flags named' c
  scope := (·.underRule (DuplicateRule.later e))
  halts _ _ := True
  unicode := rfl
  sets := rfl
  captures := rfl
  exact := rfl
  edition := .inr ⟨he, fun _ _ => trivial⟩
  strict := .inl rfl
  names := hnamed

/-- What a pass accepts, a pass by a later edition accepts, also one that takes `\k` for a reference
where the grammar is exact. -/
theorem pass_later (he : o.edition ≤ e)
    (hnamed : named' = named ∨
      (o.strict || flags.unicodeMode) = true ∧ named = false ∧ named' = true)
    (h : pass (duplicateRule o.edition) o flags named c = .ok (p, scope)) :
    pass (duplicateRule e) (o.inEdition e) flags named' c =
      .ok (p, scope.underRule (DuplicateRule.later e)) := by
  have hexcuses : (editionComparison o e he flags named named' (hnamed.imp_right And.left)
      c).ExcusesNames := hnamed.imp_right fun h => ⟨h.2.1, h.2.2, fun _ _ => trivial⟩
  have hscopes : (editionComparison o e he flags named named' (hnamed.imp_right And.left)
      c).MapsScopes :=
    .of_underRule rfl fun s name =>
      (s.conflicts_later e name).imp_right fun h => ⟨h, fun _ _ => trivial⟩
  have hrule : GroupScope.underRule (.empty (duplicateRule o.edition)) (DuplicateRule.later e) =
      .empty (duplicateRule e) := by
    rw [← DuplicateRule.later_duplicateRule he]
    rfl
  rcases pass_agrees o (o.inEdition e) hscopes hexcuses rfl rfl rfl hrule with heq | ⟨f, hf, -⟩
  · rw [h] at heq
    exact heq
  · rw [h] at hf
    cases hf

/-- An edition without named groups declares no name. -/
theorem isEmpty_of_not_supports {rule : DuplicateRule} {slice : Slice} {paired : Bool}
    (ho : o.edition.supports .namedGroups = false)
    (h : pass rule o flags named (slice.cursor paired) = .ok (p, scope)) :
    scope.isEmpty = true := by
  have hunnamed : ∀ n ∈ (Node.pattern p).descendants,
      ∀ capture, n.capture? = some capture → capture.name = none := by
    refine forall_nodes_of_pass
      (P := fun n => ∀ capture, n.capture? = some capture → capture.name = none) ?_ ?_ ?_ h
    · intro s e t _ he capture hcapture
      cases he with
      | namedCapture hg => exact absurd (ho.symm.trans hg) Bool.false_ne_true
      | capture => cases hcapture; rfl
      | _ => cases hcapture
    · intro n hn capture hcapture
      cases n with
      | term e => exact absurd rfl (hn e)
      | _ => cases hcapture
    · intro f n hn capture hcapture
      rw [Node.capture?_resolve] at hcapture
      exact hn capture hcapture
  rw [isEmpty_of_pass h, Bool.not_eq_true', hasNamedGroup, List.any_eq_false]
  intro capture hcapture
  obtain ⟨n, hn, hcapture⟩ := List.mem_filterMap.mp hcapture
  rw [hunnamed n hn capture hcapture]
  exact Bool.false_ne_true

/-! ## One pass or two

The later edition may read in one pass what the earlier one read in two, or the other way around. In
each case one of the passes of the later edition corresponds to the one that gave the answer. -/

/-- A later edition takes `\k` for a reference at least as often, and more often only where the
grammar is exact. -/
theorem alwaysNamedReferences_later (flags : FlagSet) (he : o.edition ≤ e) :
    alwaysNamedReferences (o.inEdition e) flags = alwaysNamedReferences o flags ∨
      (o.strict || flags.unicodeMode) = true ∧ alwaysNamedReferences o flags = false ∧
        alwaysNamedReferences (o.inEdition e) flags = true := by
  have hgroups : o.edition.supports .namedGroups = true → e.supports .namedGroups = true :=
    Edition.supports_mono he
  have hstrict : o.edition.supports .strictNamedReferences = true →
      e.supports .strictNamedReferences = true := Edition.supports_mono he
  simp only [alwaysNamedReferences, Options.inEdition, FlagSet.unicodeMode]
  grind

/-- A pattern that an edition reads is read alike in a later one, even where that makes other
passes: what counts is the answer. -/
theorem readUnder_later {slice : Slice} {paired : Bool} (he : o.edition ≤ e)
    (h : readUnder (duplicateRule o.edition) o flags (slice.cursor paired) = .ok p) :
    readUnder (duplicateRule e) (o.inEdition e) flags (slice.cursor paired) = .ok p := by
  obtain ⟨q, scope, hq, hp⟩ := readUnder_eq_ok.mp h
  rcases alwaysNamedReferences_later flags he with hsame | ⟨hexact, hbefore, hafter⟩
  · -- as many passes are made: an edition without named groups has declared no name
    have hagain : ((o.inEdition e).edition.supports .namedGroups &&
        !(scope.underRule (DuplicateRule.later e)).isEmpty) =
          (o.edition.supports .namedGroups && !scope.isEmpty) := by
      show (e.supports .namedGroups && !scope.isEmpty) = _
      cases hgroups : o.edition.supports .namedGroups with
      | true => rw [Edition.supports_mono he hgroups]
      | false => rw [isEmpty_of_not_supports hgroups hq, Bool.not_true, Bool.and_false,
          Bool.and_false]
    refine readUnder_eq_ok.mpr ⟨q, _, pass_later he (.inl hsame) hq, ?_⟩
    rw [hsame, Bool.and_assoc, hagain, ← Bool.and_assoc]
    split
    · next hcond =>
      rw [if_pos hcond] at hp
      obtain ⟨scope', hp⟩ := hp
      exact ⟨_, pass_later he (.inl rfl) hp⟩
    · next hcond => rwa [if_neg hcond] at hp
  · -- the one pass that is made now gives what the last of the passes gave before
    have hlast : ∃ scope', pass (duplicateRule e) (o.inEdition e) flags true (slice.cursor paired) =
        .ok (p, scope') := by
      split at hp
      · obtain ⟨scope', hp⟩ := hp
        exact ⟨_, pass_later he (.inl rfl) hp⟩
      · subst hp
        exact ⟨_, pass_later he (.inr ⟨hexact, hbefore, rfl⟩) hq⟩
    obtain ⟨scope', hlast⟩ := hlast
    refine readUnder_eq_ok.mpr ⟨p, scope', by rw [hafter]; exact hlast, ?_⟩
    rw [hafter]
    rfl

/-- A slice that an edition reads as a pattern is read alike in a later one. -/
theorem read_later {slice : Slice} (he : o.edition ≤ e) (h : read o flags slice = .ok p) :
    read (o.inEdition e) flags slice = .ok p := by
  rw [read_eq_ok] at h ⊢
  exact ⟨h.1, readUnder_later he h.2⟩

end Pattern

/-- A literal that an edition reads is read alike in a later one. -/
theorem Literal.readParts_later {o : Options} {e : Edition} (he : o.edition ≤ e) {slice : Slice}
    {length : Nat} {l : Literal} (h : readParts o slice length = .ok l) :
    readParts (o.inEdition e) slice length = .ok l := by
  obtain ⟨set, hset, hflags, hpattern, hspan⟩ := readParts_eq_ok.mp h
  exact readParts_eq_ok.mpr
    ⟨set, FlagSet.read_mono he hset, hflags, Pattern.read_later he hpattern, hspan⟩

/-- Whatever an edition accepts, a later one accepts with the same tree: a pattern, a pattern and
flags, or a literal. -/
theorem trees_kept_by_later_editions (o : Options) (e : Edition) (he : o.edition ≤ e) :
    (∀ choice slice p, parsePattern o choice slice = .ok p →
      parsePattern (o.inEdition e) choice slice = .ok p) ∧
    (∀ source flags l, parseParts o source flags = .ok l →
      parseParts (o.inEdition e) source flags = .ok l) ∧
    ∀ slice l, parseLiteral o slice = .ok l → parseLiteral (o.inEdition e) slice = .ok l := by
  refine ⟨?_, ?_, ?_⟩
  · intro choice slice p h
    obtain ⟨flags, hflags, hread⟩ := parsePattern_eq_ok.mp h
    exact parsePattern_eq_ok.mpr
      ⟨flags, FlagChoice.resolve_mono he hflags, Pattern.read_later he hread⟩
  · intro source flags l h
    exact parseParts_eq_ok.mpr (Literal.readParts_later he (parseParts_eq_ok.mp h))
  · intro slice l h
    obtain ⟨length, hlength, hread⟩ := parseLiteral_eq_ok.mp h
    exact parseLiteral_eq_ok.mpr ⟨length, hlength, Literal.readParts_later he hread⟩

/-- A pattern with a name that later editions spell in more ways, one with a property, and a literal
whose references an earlier edition reads in two passes. -/
theorem trees_kept_by_later_editions_at_names :
    (∃ p, parsePattern (.ofEdition .es2018 true) (.set {})
        (.whole (.ofString "(?<\\u0061>x)(?<=\\1)")) = .ok p ∧
      parsePattern (.ofEdition .latest true) (.set {})
        (.whole (.ofString "(?<\\u0061>x)(?<=\\1)")) = .ok p) ∧
    (∃ l, parseParts (.ofEdition .es2018 false) (.ofString "\\p{Script=Greek}") (.ofString "u") =
        .ok l ∧
      parseParts (.ofEdition .latest false) (.ofString "\\p{Script=Greek}") (.ofString "u") =
        .ok l) ∧
    ∃ l, parseLiteral (.ofEdition .es2019 false) (.whole (.ofString "/\\k<a>(?<a>b)/s")) = .ok l ∧
      parseLiteral (.ofEdition .latest false) (.whole (.ofString "/\\k<a>(?<a>b)/s")) = .ok l := by
  refine ⟨?_, ?_, ?_⟩
  · obtain ⟨p, hp⟩ := Except.exists_eq_ok (x := parsePattern (.ofEdition .es2018 true) (.set {})
      (.whole (.ofString "(?<\\u0061>x)(?<=\\1)"))) (by decide +kernel)
    exact ⟨p, hp, (trees_kept_by_later_editions (.ofEdition .es2018 true) .latest
      (by decide)).1 _ _ p hp⟩
  · obtain ⟨l, hl⟩ := Except.exists_eq_ok (x := parseParts (.ofEdition .es2018 false)
      (.ofString "\\p{Script=Greek}") (.ofString "u")) (by decide +kernel)
    exact ⟨l, hl, (trees_kept_by_later_editions (.ofEdition .es2018 false) .latest
      (by decide)).2.1 _ _ l hl⟩
  · obtain ⟨l, hl⟩ := Except.exists_eq_ok (x := parseLiteral (.ofEdition .es2019 false)
      (.whole (.ofString "/\\k<a>(?<a>b)/s"))) (by decide +kernel)
    exact ⟨l, hl, (trees_kept_by_later_editions (.ofEdition .es2019 false) .latest
      (by decide)).2.2 _ l hl⟩

end EcmaPattern
