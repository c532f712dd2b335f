import EcmaPattern.Proofs.Agreement.References
import EcmaPattern.Proofs.Strictness

/-!
# Named references under the strict rules

Before the edition that always takes a strict `\k` for a named reference, a strict pattern that is
read by code units is read in two passes, of which the first has no named references. The strict
rules let no letter stand for itself after a backslash, so the first pass finds fault with every
`\k`, and the second is never made. A pattern with a named group is therefore read as a pass with
named references reads it exactly if it is of a later edition or nothing in it refers to a name.

Two comparisons are used. One excuses every fault at an escaped `k` and shows that the first pass
fails if it comes upon one; the other shows, by `disjunction_keeps`, that it is the pass with
references if it does not. Which of the two happens is decided by whether the tree of the pass with
references refers to a name.
-/

namespace EcmaPattern

namespace Pattern

variable {rule : DuplicateRule} {o : Options} {flags : FlagSet} {c : Cursor} {p : Pattern}
  {scope : GroupScope}

/-- The strict grammar without named references beside the one with them. Only the former is at
fault where a `k` is escaped. -/
def referenceComparison (o : Options) (flags : FlagSet) (c : Cursor) : Comparison where
  left := grammarFor o.strictly flags false c
  right := grammarFor o.strictly flags true c
  scope := id
  halts d f := d.AtNameEscape ∧ f = ⟨.invalidEscape, d.advance.index⟩
  unicode := rfl
  sets := rfl
  captures := rfl
  exact := rfl
  edition := .inl rfl
  strict := .inl rfl
  names := .inr rfl

/-- The same two grammars the other way round; nothing excuses a difference. -/
def textComparison (o : Options) (flags : FlagSet) (c : Cursor) : Comparison where
  left := grammarFor o.strictly flags true c
  right := grammarFor o.strictly flags false c
  scope := id
  halts _ _ := False
  unicode := rfl
  sets := rfl
  captures := rfl
  exact := rfl
  edition := .inl rfl
  strict := .inl rfl
  names := .inr rfl

/-- Without named references, a strict pass gives what one with them gives, or finds fault with an
escaped `k`. -/
theorem pass_without_references (rule : DuplicateRule) (o : Options) (flags : FlagSet)
    (c : Cursor) :
    pass rule o.strictly flags true c = pass rule o.strictly flags false c ∨
      ∃ d, c.Reaches d ∧ d.AtNameEscape ∧
        pass rule o.strictly flags false c = .error ⟨.invalidEscape, d.advance.index⟩ := by
  have hexcuses : (referenceComparison o flags c).ExcusesNames :=
    .inr ⟨rfl, rfl, fun _ hd => ⟨hd, rfl⟩⟩
  rcases pass_agrees o.strictly o.strictly (.of_id rfl) hexcuses rfl rfl rfl rfl
    with heq | ⟨f, hf, d, hd, hname, rfl⟩
  · left
    rw [heq]
    cases pass rule o.strictly flags false c <;> rfl
  · exact .inr ⟨d, hd, hname, hf⟩

/-- Conversely, it gives the tree of a pass with named references if that refers to no name. -/
theorem pass_of_referredNames (h : pass rule o.strictly flags true c = .ok (p, scope))
    (hp : p.referredNames = []) : pass rule o.strictly flags false c = .ok (p, scope) := by
  obtain ⟨qs, t, hqs, hnone, hscope, hdeclared, rfl⟩ := pass_eq_ok.mp h
  have hnames : Term.referredNamesOfAll qs = [] := by
    rw [← Term.referredNamesOfAll_resolve scope.indexes]
    exact hp
  have hkept := (Parser.disjunction_keeps (k := textComparison o flags c) rfl rfl rfl rfl
    o.maxDepth).done hqs hnames
  exact pass_eq_ok.mpr ⟨qs, t, hkept, hnone, hscope, hdeclared, rfl⟩

/-- A pass without named references gives a tree that refers to no name. -/
theorem referredNames_of_pass (h : pass rule o flags false c = .ok (p, scope)) :
    p.referredNames = [] := by
  obtain ⟨qs, t, hqs, -, -, rfl⟩ := derives_of_pass h
  rw [referredNames, resolve, Term.referredNamesOfAll_resolve]
  exact hqs.referredNames_eq_nil rfl

/-- A second pass may be made only over what is read by code units. -/
theorem unicodeMode_eq_false (halways : alwaysNamedReferences o flags = false)
    (hgroups : o.edition.supports .namedGroups = true) : flags.unicodeMode = false := by
  simp only [alwaysNamedReferences, hgroups, Bool.and_true, Bool.or_eq_false_iff] at halways
  rw [FlagSet.unicodeMode, halways.1.1, halways.1.2]
  rfl

/-- Where a second pass may be made, it gives the scope of the first and a tree that nests alike. -/
theorem passes_alike {q : Pattern} {scope' : GroupScope}
    (halways : alwaysNamedReferences o flags = false)
    (hgroups : o.edition.supports .namedGroups = true)
    (hp : pass rule o flags false c = .ok (p, scope))
    (hq : pass rule o flags true c = .ok (q, scope')) :
    scope' = scope ∧ ∀ levels, q.beneath levels = p.beneath levels := by
  have hmode := unicodeMode_eq_false halways hgroups
  cases hstrict : o.strict with
  | false =>
    rcases pass_relaxed (grammarFor_relaxesTo_text hstrict hmode) rfl hq with
      ⟨p', hp', -, hbeneath, -⟩ | ⟨-, -, f, hf, -⟩
    · rw [hp] at hp'
      cases hp'
      exact ⟨rfl, fun levels => (hbeneath levels).symm⟩
    · rw [hp] at hf
      cases hf
  | true =>
    -- the strict rules leave the first pass no `\k` to be read differently
    have ho := Options.strictly_eq_self hstrict
    rcases pass_without_references rule o flags c with heq | ⟨d, -, -, herror⟩
    · rw [ho, hp, hq] at heq
      cases heq
      exact ⟨rfl, fun _ => rfl⟩
    · rw [ho, hp] at herror
      cases herror

/-- Where a second pass may be made and refers to no name, what it gives is the answer. -/
theorem readUnder_of_referredNames (halways : alwaysNamedReferences o flags = false)
    (hgroups : o.edition.supports .namedGroups = true)
    (h : pass rule o flags true c = .ok (p, scope)) (hp : p.referredNames = []) :
    readUnder rule o flags c = .ok p := by
  obtain ⟨q, hq, hsame⟩ : ∃ q, pass rule o flags false c = .ok (q, scope) ∧
      (scope.isEmpty = true → q = p) := by
    cases hstrict : o.strict with
    | false =>
      have hmode := unicodeMode_eq_false halways hgroups
      rcases pass_relaxed (grammarFor_relaxesTo_text hstrict hmode) rfl h with
        ⟨q, hq, -, -, hsame⟩ | ⟨-, hrefers, -⟩
      · exact ⟨q, hq, fun hempty => hsame (.inr hempty)⟩
      · exact absurd hp hrefers
    | true =>
      have ho := Options.strictly_eq_self hstrict
      exact ⟨p, ho ▸ pass_of_referredNames (ho.symm ▸ h) hp, fun _ => rfl⟩
  rw [← halways] at hq
  rw [readUnder_of_pass_ok hq, halways, hgroups]
  cases hempty : scope.isEmpty with
  | true => exact congrArg Except.ok (hsame hempty)
  | false =>
    rw [h]
    rfl

/-- A strict pattern with a named group, read by code units, is that of a pass with named
references, or else the pass before it finds fault with an escaped `k`. -/
theorem readUnder_strictly (hmode : flags.unicodeMode = false) (hedition : .es2018 ≤ o.edition)
    (hp : pass rule o.strictly flags true c = .ok (p, scope)) (hnamed : p.hasNamedGroup = true) :
    (readUnder rule o.strictly flags c = .ok p ∧ (.es2023 ≤ o.edition ∨ p.referredNames = [])) ∨
      (¬(.es2023 ≤ o.edition) ∧ p.referredNames ≠ [] ∧ ∃ d, c.Reaches d ∧ d.AtNameEscape ∧
        readUnder rule o.strictly flags c = .error ⟨.invalidEscape, d.advance.index⟩) := by
  have halways : alwaysNamedReferences o.strictly flags =
      o.edition.supports .strictNamedReferences := by
    rw [FlagSet.unicodeMode, Bool.or_eq_false_iff] at hmode
    simp [alwaysNamedReferences, Options.strictly, hmode.1, hmode.2]
  have hgroups : o.strictly.edition.supports .namedGroups = true := decide_eq_true hedition
  have hscope : scope.isEmpty = false := by rw [isEmpty_of_pass hp, hnamed]; rfl
  by_cases hlater : .es2023 ≤ o.edition
  · -- there is one pass, with named references
    refine .inl ⟨?_, .inl hlater⟩
    have hsince : o.edition.supports .strictNamedReferences = true := decide_eq_true hlater
    rw [hsince] at halways
    refine readUnder_eq_ok.mpr ⟨p, scope, by rw [halways]; exact hp, ?_⟩
    rw [halways]
    rfl
  · have hsince : o.edition.supports .strictNamedReferences = false := decide_eq_false hlater
    rw [hsince] at halways
    rcases pass_without_references rule o flags c with heq | ⟨d, hd, hname, herror⟩
    · have hfirst : pass rule o.strictly flags false c = .ok (p, scope) := heq ▸ hp
      refine .inl ⟨?_, .inr (referredNames_of_pass hfirst)⟩
      refine readUnder_eq_ok.mpr ⟨p, scope, by rw [halways]; exact hfirst, ?_⟩
      rw [halways, hgroups, hscope]
      exact ⟨scope, hp⟩
    · refine .inr ⟨hlater, ?_, d, hd, hname, ?_⟩
      · intro hnil
        rw [pass_of_referredNames hp hnil] at herror
        cases herror
      · rw [readUnder, halways, herror]
        rfl

end Pattern

/-- Under the strict rules and by code units, let a pass with named references accept a pattern with
a named group. The answer is its tree exactly if the edition always takes a strict `\k` for a
reference, or nothing refers to a name; else it is a fault after the backslash of a `\k`. -/
theorem strict_references_decided_by_edition (o : Options) (choice : FlagChoice) (slice : Slice)
    (flags : FlagSet) (p : Pattern) (scope : GroupScope)
    (hflags : choice.resolve o.edition = .ok flags) (hmode : flags.unicodeMode = false)
    (hedition : .es2018 ≤ o.edition)
    (hpass : Pattern.pass (Pattern.duplicateRule o.edition) o.strictly flags true
      (slice.cursor false) = .ok (p, scope)) (hnamed : p.hasNamedGroup = true) :
    (parsePattern o.strictly choice slice = .ok p ↔
      .es2023 ≤ o.edition ∨ p.referredNames = []) ∧
    (parsePattern o.strictly choice slice ≠ .ok p → ∃ c, slice.Holds false c ∧ c.AtNameEscape ∧
      parsePattern o.strictly choice slice =
        .error (.ofFault (some (patternSource slice flags))
          ⟨.invalidEscape, c.advance.index⟩)) := by
  have hanswer : parsePattern o.strictly choice slice =
      (Pattern.readUnder (Pattern.duplicateRule o.edition) o.strictly flags
        (slice.cursor false)).mapError (.ofFault (some (patternSource slice flags))) :=
    parsePattern_eq_readUnder (o := o.strictly) hflags hmode
  rw [hanswer]
  rcases Pattern.readUnder_strictly hmode hedition hpass hnamed
    with ⟨hok, hreason⟩ | ⟨hlater, hnames, c, hc, hname, herror⟩
  · rw [hok]
    exact ⟨⟨fun _ => hreason, fun _ => rfl⟩, fun hne => absurd rfl hne⟩
  · rw [herror]
    refine ⟨⟨fun h => (by cases h), fun h => ?_⟩, fun _ => ⟨c, hc, hname, rfl⟩⟩
    exact absurd h (by rintro (h | h) <;> contradiction)

/-- In an edition of two passes, a reference by number to a named group. -/
theorem strict_references_decided_by_edition_by_number :
    ∃ p, p.hasNamedGroup = true ∧ p.referredNames = [] ∧
      parsePattern (.ofEdition .es2018 true) (.set {}) (.whole (.ofString "(?<a>x)\\1")) =
        .ok p := by
  have hany : (Pattern.pass (Pattern.duplicateRule .es2018) (.ofEdition .es2018 true) {} true
      ((Slice.whole (.ofString "(?<a>x)\\1")).cursor false)).toOption.any
        (fun result => result.1.hasNamedGroup && result.1.referredNames.isEmpty) = true := by
    decide +kernel
  obtain ⟨⟨p, scope⟩, hpass, htest⟩ := Except.exists_eq_ok_of_any hany
  obtain ⟨hnamed, hnames⟩ := (Bool.and_eq_true _ _).mp htest
  have hnil : p.referredNames = [] := List.isEmpty_iff.mp hnames
  have hdecided := strict_references_decided_by_edition (.ofEdition .es2018 true) (.set {})
    (.whole (.ofString "(?<a>x)\\1")) {} p scope rfl rfl (by decide) hpass hnamed
  exact ⟨p, hnamed, hnil, hdecided.1.mpr (.inr hnil)⟩

/-- In such an edition, a reference by name is at fault, although a pass with named references
accepts it. -/
theorem strict_references_missed_at_name :
    ∃ p scope, Pattern.pass (Pattern.duplicateRule .es2018) (.ofEdition .es2018 true) {} true
        ((Slice.whole (.ofString "(?<a>x)\\k<a>")).cursor false) = .ok (p, scope) ∧
      p.hasNamedGroup = true ∧
      parsePattern (.ofEdition .es2018 true) (.set {}) (.whole (.ofString "(?<a>x)\\k<a>")) ≠
        .ok p := by
  have hany : (Pattern.pass (Pattern.duplicateRule .es2018) (.ofEdition .es2018 true) {} true
      ((Slice.whole (.ofString "(?<a>x)\\k<a>")).cursor false)).toOption.any
        (fun result => result.1.hasNamedGroup) = true := by
    decide +kernel
  obtain ⟨⟨p, scope⟩, hpass, hnamed⟩ := Except.exists_eq_ok_of_any hany
  refine ⟨p, scope, hpass, hnamed, fun heq => ?_⟩
  have hfault : (parsePattern (.ofEdition .es2018 true) (.set {})
    (.whole (.ofString "(?<a>x)\\k<a>"))).isOk = false := by decide +kernel
  rw [heq] at hfault
  cases hfault

end EcmaPattern
