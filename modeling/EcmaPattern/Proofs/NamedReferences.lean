import EcmaPattern.Proofs.LongNumbers

/-!
# Named references in the grammar of the web

Read by code units, the grammar of the web takes `\k` for a named reference only if the pattern has
a named group, which is not known before the pattern has been read. A first pass reads `\k` as text.
It finds the groups that a pass with named references would find, so it decides rightly whether
there is a second pass. Only a number can get in the way: what is an escape in a name may be a
quantifier in the text, and its decimal digits too many to be converted
(`named_reference_lost_to_long_number`).

The proof compares the first pass, which has no references, with a pass that has them. By
`Pattern.pass_relaxed` the two find the same groups, so the first one comes upon a named group
exactly if the tree has one; in that case a second pass is made, and it is the pass with references.
If it has none, no reference can be resolved, and `\k` is read as text.
-/

namespace EcmaPattern

def Node.referredName? : Node → Option GroupName
  | term (.reference _ (.name name _)) => some name
  | _ => none

theorem Node.referredName?_resolve (f : GroupName → List Nat) (n : Node) :
    (n.resolve f).referredName? = n.referredName? := by
  cases n with
  | term e =>
    cases e with
    | reference span target => cases target <;> simp [resolve, Term.resolve, referredName?]
    | _ => simp [resolve, Term.resolve, referredName?]
  | _ => rfl

namespace Pattern

/-- A pass that reads `\k` as text gives no reference by name. -/
theorem referredName?_of_pass {rule : DuplicateRule} {o : Options} {flags : FlagSet} {slice : Slice}
    {paired : Bool} {p : Pattern} {scope : GroupScope}
    (h : pass rule o flags false (slice.cursor paired) = .ok (p, scope)) :
    ∀ n ∈ (Node.pattern p).descendants, n.referredName? = none := by
  refine forall_nodes_of_pass (P := fun n => n.referredName? = none) ?_ ?_ ?_ h
  · intro s e t _ he
    cases he with
    | named hg => cases hg
    | _ => rfl
  · intro n hn
    cases n with
    | term e => exact absurd rfl (hn e)
    | _ => rfl
  · intro f n hn
    rw [Node.referredName?_resolve, hn]

section Web

variable {rule : DuplicateRule} {o : Options} {flags : FlagSet} {slice : Slice} {p : Pattern}
  {scope : GroupScope} (hstrict : o.strict = false) (hedition : .es2018 ≤ o.edition)
  (hmode : flags.unicodeMode = false)

include hstrict hedition hmode

/-- If a pass with named references finds a named group, so does the pass before it, and the pattern
is read again; unless the pass before it finds that a number is too long. -/
theorem readUnder_of_hasNamedGroup
    (hp : pass rule o flags true (slice.cursor false) = .ok (p, scope))
    (hnamed : p.hasNamedGroup = true) :
    ((∃ q, pass rule o flags false (slice.cursor false) = .ok (q, scope) ∧
        (Node.pattern q).captures = (Node.pattern p).captures) ∧
      readUnder rule o flags (slice.cursor false) = .ok p) ∨
    p.referredNames ≠ [] ∧ ∃ f, f.IsOfLongNumber (slice.cursor false) ∧
      pass rule o flags false (slice.cursor false) = .error f ∧
      readUnder rule o flags (slice.cursor false) = .error f := by
  rcases pass_relaxed (grammarFor_relaxesTo_text hstrict hmode) rfl hp with
    ⟨q, hq, hcaptures, -⟩ | ⟨-, hrefers, f, hf, hlong⟩
  · refine .inl ⟨⟨q, hq, hcaptures⟩, ?_⟩
    rw [readUnder_web hstrict hmode hedition]
    refine ⟨q, scope, hq, ?_⟩
    rw [isEmpty_of_pass hp, hnamed]
    exact ⟨scope, hp⟩
  · refine .inr ⟨hrefers, f, hlong, hf, readUnder_of_pass_error ?_⟩
    rw [alwaysNamedReferences_eq_false hstrict hmode]
    exact hf

/-- The named groups of a pattern tell which pass it comes from. -/
theorem pass_of_hasNamedGroup (h : readUnder rule o flags (slice.cursor false) = .ok p) :
    ∃ scope, pass rule o flags p.hasNamedGroup (slice.cursor false) = .ok (p, scope) := by
  rw [readUnder_web hstrict hmode hedition] at h
  obtain ⟨q, scope, hq, hp⟩ := h
  cases hempty : scope.isEmpty with
  | true =>
    rw [hempty] at hp
    obtain rfl : q = p := hp
    rw [isEmpty_of_pass hq, Bool.not_eq_true'] at hempty
    rw [hempty]
    exact ⟨scope, hq⟩
  | false =>
    rw [hempty] at hp
    obtain ⟨scope', hp⟩ := hp
    -- the first pass ends in the scope of the second, so one of the groups has a name
    rcases pass_relaxed (grammarFor_relaxesTo_text hstrict hmode) rfl hp with
      ⟨q', hq', -⟩ | ⟨-, -, f, hf, -⟩
    · obtain ⟨-, rfl⟩ := Prod.mk.inj (Except.ok.inj (hq.symm.trans hq'))
      rw [isEmpty_of_pass hp, Bool.not_eq_false'] at hempty
      rw [hempty]
      exact ⟨scope, hp⟩
    · rw [hq] at hf
      cases hf

end Web

end Pattern

/-- Whether `\k` begins a named reference is decided by whether the pattern has a named group. If a
pass with named references succeeds and finds a named group, then the pass without them succeeds and
finds the same groups, and the answer is the tree of the former; but if a name is referred to, the
pass without named references may come to a number that is too long, and then there is no answer.
Conversely, an answer with a named group is the tree of a pass with named references, and an answer
without one is the tree of a pass without them, in which nothing is referred to by name. -/
theorem named_references_decided_by_groups (o : Options) (choice : FlagChoice) (slice : Slice)
    {flags : FlagSet} (hstrict : o.strict = false) (hedition : .es2018 ≤ o.edition)
    (hflags : choice.resolve o.edition = .ok flags) (hmode : flags.unicodeMode = false) :
    (∀ p scope,
      Pattern.pass (Pattern.duplicateRule o.edition) o flags true (slice.cursor false) =
        .ok (p, scope) → p.hasNamedGroup = true →
      ((∃ q scope',
          Pattern.pass (Pattern.duplicateRule o.edition) o flags false (slice.cursor false) =
            .ok (q, scope') ∧
          (Node.pattern q).captures = (Node.pattern p).captures) ∧
        parsePattern o choice slice = .ok p) ∨
      (p.referredNames ≠ [] ∧ ∃ f n, f.IsOfLongNumber (slice.cursor false) ∧
        f.cause = .tooManyDigits n ∧
        Pattern.pass (Pattern.duplicateRule o.edition) o flags false (slice.cursor false) =
          .error f ∧
        parsePattern o choice slice = .error (.tooManyDigits n))) ∧
    ∀ p, parsePattern o choice slice = .ok p →
      (p.hasNamedGroup = true → ∃ scope,
        Pattern.pass (Pattern.duplicateRule o.edition) o flags true (slice.cursor false) =
          .ok (p, scope)) ∧
      (p.hasNamedGroup = false →
        (∃ scope,
          Pattern.pass (Pattern.duplicateRule o.edition) o flags false (slice.cursor false) =
            .ok (p, scope)) ∧
        ∀ n ∈ (Node.pattern p).descendants, n.referredName? = none) := by
  have hparse : parsePattern o choice slice =
      (Pattern.readUnder (Pattern.duplicateRule o.edition) o flags (slice.cursor false)).mapError
        (.ofFault (some (patternSource slice flags))) := parsePattern_eq_readUnder hflags hmode
  constructor
  · intro p scope hp hnamed
    -- either the first pass finds the groups too, or it comes to a number that is too long
    rcases Pattern.readUnder_of_hasNamedGroup hstrict hedition hmode hp hnamed with
      ⟨⟨q, hq, hcaptures⟩, hread⟩ | ⟨hrefers, f, hlong, hf, hread⟩
    · refine .inl ⟨⟨q, scope, hq, hcaptures⟩, ?_⟩
      rw [hparse, hread]
      rfl
    · obtain ⟨cs, -, -, -, -, -, -, -, hcause⟩ := id hlong
      refine .inr ⟨hrefers, f, cs.length, hlong, hcause, hf, ?_⟩
      rw [hparse, hread]
      exact congrArg Except.error (Failure.ofFault_eq_tooManyDigits.mpr hcause)
  · intro p hp
    rw [hparse, Except.mapError_eq_ok] at hp
    obtain ⟨scope, hpass⟩ := Pattern.pass_of_hasNamedGroup hstrict hedition hmode hp
    constructor
    · intro hnamed
      rw [hnamed] at hpass
      exact ⟨scope, hpass⟩
    · intro hnone
      rw [hnone] at hpass
      exact ⟨⟨scope, hpass⟩, Pattern.referredName?_of_pass hpass⟩

/-- The name is a dollar sign, which the first pass reads as an edge, and once it is written as an
escape, whose braces the first pass reads as bounds. -/
theorem named_references_decided_by_groups_at_dollar :
    ∃ slice p q scope scope', slice = .whole (.ofString "(?<$>a)\\k<$>{2}|\\k<\\u{24}>+?") ∧
      Pattern.pass .separated (.ofEdition .es2025 false) {} true (slice.cursor false) =
        .ok (p, scope) ∧
      Pattern.pass .separated (.ofEdition .es2025 false) {} false (slice.cursor false) =
        .ok (q, scope') ∧
      p.hasNamedGroup = true ∧ (Node.pattern q).captures = (Node.pattern p).captures ∧
      parsePattern (.ofEdition .es2025 false) (.set {}) slice = .ok p := by
  obtain ⟨slice, hslice⟩ :
      ∃ slice, slice = Slice.whole (.ofString "(?<$>a)\\k<$>{2}|\\k<\\u{24}>+?") := ⟨_, rfl⟩
  have hread : (Pattern.pass .separated (.ofEdition .es2025 false) {} true
      (slice.cursor false)).toOption.any (fun x => !x.2.isEmpty) = true := by
    rw [hslice]
    decide +kernel
  obtain ⟨⟨p, scope⟩, hp, hscope⟩ := Except.exists_eq_ok_of_any hread
  have hnamed : p.hasNamedGroup = true := by
    rwa [Pattern.isEmpty_of_pass hp, Bool.not_not] at hscope
  have hanswered : (parsePattern (.ofEdition .es2025 false) (.set {}) slice).isOk = true := by
    rw [hslice]
    decide +kernel
  rcases (named_references_decided_by_groups (.ofEdition .es2025 false) (.set {}) slice rfl
    (by decide) rfl rfl).1 p scope hp hnamed with ⟨⟨q, scope', hq, hcaptures⟩, hparse⟩ | hlost
  · exact ⟨slice, p, q, scope, scope', hslice, hp, hq, hnamed, hcaptures, hparse⟩
  · obtain ⟨-, f, n, -, -, -, herror⟩ := hlost
    exact absurd herror (Except.ne_error_of_isOk hanswered)

/-- The group is found, and the name is read as an escape. But first the escape is read as bounds
of 4302 digits. -/
theorem named_reference_lost_to_long_number :
    (∃ p scope, Pattern.pass (Pattern.duplicateRule .es2025) (.ofEdition .es2025 false) {} true
        ((Slice.whole paddedText).cursor false) = .ok (p, scope) ∧ p.hasNamedGroup = true) ∧
    ∃ n, parsePattern (.ofEdition .es2025 false) (.set {}) (.whole paddedText) =
      .error (.tooManyDigits n) := by
  refine ⟨Pattern.pass_paddedText false, ?_⟩
  obtain ⟨f, n, hpass, -, hcause⟩ := Pattern.pass_paddedText_as_text
  exact ⟨n, parsePattern_of_pass_error rfl rfl hpass hcause⟩

end EcmaPattern
