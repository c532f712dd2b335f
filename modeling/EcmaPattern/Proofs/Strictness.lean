import EcmaPattern.Proofs.LongNumbers

/-!
# Strict answers

What is accepted under the strict rules is accepted without them, with the same tree. A single pass
carries over as it is. But the strict rules of later editions take `\k` for a named reference in one
pass, where the grammar of the web may need two; then the first of the two decides whether the
second is made, and either way the tree is the same. Only if the first finds that a number is too
long, the tree is lost (`strict_tree_lost_to_long_number`).

Strict options are compared with the same options without the strict rules. By code points these
read `\k` alike, by code units it depends on the edition; `readUnder_leniently` goes through the
three cases. The excuse is stated exactly: the edition is one that always has strict references,
something in the tree refers to a name, and the first pass without the rules finds that a number is
too long.
-/

namespace EcmaPattern

namespace Options

def strictly (o : Options) : Options := { o with strict := true }

def leniently (o : Options) : Options := { o with strict := false }

theorem strictly_eq_self {o : Options} (h : o.strict = true) : o.strictly = o := by
  cases o
  cases h
  rfl

end Options

def FindsLongNumber {α : Type} (x : Except Fault α) : Prop :=
  ∃ f n, x = .error f ∧ 4300 < n ∧ f.cause = .tooManyDigits n

/-- A number that is too long is found, whatever would have come after it. -/
theorem FindsLongNumber.bind {α β : Type} {x : Except Fault α} (h : FindsLongNumber x)
    (f : α → Except Fault β) : FindsLongNumber (x >>= f) := by
  obtain ⟨e, n, he, hlong⟩ := h
  exact ⟨e, n, Except.bind_eq_error.mpr (.inl he), hlong⟩

/-- What a caller sees of it. -/
theorem FindsLongNumber.mapError {α : Type} {x : Except Fault α} (h : FindsLongNumber x)
    (source : Option Text) :
    ∃ n, 4300 < n ∧ x.mapError (Failure.ofFault source) = .error (.tooManyDigits n) := by
  obtain ⟨e, n, rfl, hlong, hcause⟩ := h
  exact ⟨n, hlong, congrArg Except.error (Failure.ofFault_eq_tooManyDigits.mpr hcause)⟩

namespace Pattern

variable {rule : DuplicateRule} {o : Options} {flags : FlagSet} {c : Cursor} {p : Pattern}
  {scope : GroupScope}

/-- Giving up the strict rules relaxes the grammar. -/
theorem grammarFor_relaxesTo_lenient (named : Bool) :
    (grammarFor o.strictly flags named c).RelaxesTo (grammarFor o.leniently flags named c) where
  edition := rfl
  unicode := rfl
  sets := rfl
  captures := rfl
  strict := nofun
  names := .inl rfl

/-- By code units, so does giving up the strict rules and taking `\k` for text. -/
theorem grammarFor_relaxesTo_lenient_text (hmode : flags.unicodeMode = false) :
    (grammarFor o.strictly flags true c).RelaxesTo (grammarFor o.leniently flags false c) where
  edition := rfl
  unicode := rfl
  sets := rfl
  captures := rfl
  strict := nofun
  names := .inr ⟨rfl, by simp [Grammar.exact, grammarFor, Options.leniently, hmode]⟩

/-- One pass under the strict rules is the same pass without them. -/
theorem pass_leniently {named : Bool} (h : pass rule o.strictly flags named c = .ok (p, scope)) :
    pass rule o.leniently flags named c = .ok (p, scope) := by
  rcases pass_relaxed (grammarFor_relaxesTo_lenient named) rfl h with
    ⟨q, hq, -, -, hsame⟩ | ⟨hne, -⟩
  · rwa [hsame (.inl rfl)] at hq
  · exact absurd rfl hne

/-- The strict rules make a difference for `\k` only by code units and in an edition that has named
groups. -/
theorem unicodeMode_of_strict (hstrict : alwaysNamedReferences o.strictly flags = true)
    (hlenient : alwaysNamedReferences o.leniently flags = false) :
    flags.unicodeMode = false ∧ .es2023 ≤ o.edition := by
  have hsince : o.edition.supports .strictNamedReferences = true := by
    simp only [alwaysNamedReferences, Options.strictly, Options.leniently, Bool.true_and,
      Bool.false_and, Bool.or_false] at hstrict hlenient
    rw [hlenient] at hstrict
    exact hstrict
  have hedition : Edition.es2023 ≤ o.edition := of_decide_eq_true hsince
  have hgroups : o.edition.supports .namedGroups = true :=
    decide_eq_true (Nat.le_trans (by decide) hedition)
  refine ⟨?_, hedition⟩
  simp only [alwaysNamedReferences, Options.leniently, hgroups, Bool.and_true, Bool.false_and,
    Bool.or_false] at hlenient
  exact hlenient

/-- What is read under the strict rules is read without them, but for references that a first pass
takes for letters: then a number may be too long. -/
theorem readUnder_leniently (h : readUnder rule o.strictly flags c = .ok p) :
    readUnder rule o.leniently flags c = .ok p ∨ .es2023 ≤ o.edition ∧ p.referredNames ≠ [] ∧
      FindsLongNumber (readUnder rule o.leniently flags c) := by
  obtain ⟨q, scope, hq, hp⟩ := readUnder_eq_ok.mp h
  by_cases hsame : alwaysNamedReferences o.leniently flags = alwaysNamedReferences o.strictly flags
  · -- the passes are made for the same reasons
    rw [← hsame] at hq hp
    refine .inl (readUnder_eq_ok.mpr ⟨q, scope, pass_leniently hq, ?_⟩)
    show if !alwaysNamedReferences o.leniently flags && o.edition.supports .namedGroups &&
      !scope.isEmpty then _ else _
    split
    · next hcond =>
      obtain ⟨scope', hp⟩ := (if_pos hcond).mp hp
      exact ⟨scope', pass_leniently hp⟩
    · next hcond => exact (if_neg hcond).mp hp
  · -- the strict rules make one pass, with named references
    obtain ⟨hstrict, hlenient⟩ : alwaysNamedReferences o.strictly flags = true ∧
        alwaysNamedReferences o.leniently flags = false := by
      simp only [alwaysNamedReferences, Options.strictly, Options.leniently, Bool.true_and,
        Bool.false_and, Bool.or_false] at hsame ⊢
      cases hother : (flags.unicode && o.edition.supports .namedGroups || flags.unicodeSets) <;>
        simp_all
    obtain ⟨hmode, hedition⟩ := unicodeMode_of_strict hstrict hlenient
    rw [hstrict] at hq hp
    obtain rfl : q = p := hp
    rcases pass_relaxed (grammarFor_relaxesTo_lenient_text hmode) rfl hq with
      ⟨q', hq', -, -, hkept⟩ | ⟨-, hrefers, f, hf, hlong⟩
    · have hgroups : Edition.es2018 ≤ o.edition := Nat.le_trans (by decide) hedition
      refine .inl ((readUnder_web (o := o.leniently) rfl hmode hgroups).mpr ⟨q', scope, hq', ?_⟩)
      split
      · next hempty => exact hkept (.inr hempty)
      · exact ⟨scope, pass_leniently hq⟩
    · obtain ⟨cs, -, -, -, -, -, -, hmany, hcause⟩ := hlong
      refine .inr ⟨hedition, hrefers, f, cs.length, readUnder_of_pass_error ?_, hmany, hcause⟩
      rw [hlenient]
      exact hf

/-- The same of a slice, whose flags do not depend on the rules. -/
theorem read_leniently {slice : Slice} (h : read o.strictly flags slice = .ok p) :
    read o.leniently flags slice = .ok p ∨ .es2023 ≤ o.edition ∧ p.referredNames ≠ [] ∧
      FindsLongNumber (read o.leniently flags slice) := by
  obtain ⟨hconflict, h⟩ := read_eq_ok.mp h
  rw [read, hconflict, if_neg Bool.false_ne_true]
  exact readUnder_leniently h

end Pattern

/-- The same of a literal. -/
theorem Literal.readParts_leniently {o : Options} {slice : Slice} {length : Nat} {l : Literal}
    (h : readParts o.strictly slice length = .ok l) :
    readParts o.leniently slice length = .ok l ∨
      .es2023 ≤ o.edition ∧ l.pattern.referredNames ≠ [] ∧
        FindsLongNumber (readParts o.leniently slice length) := by
  rw [readParts] at h ⊢
  obtain ⟨f, hf, h⟩ := Except.bind_eq_ok.mp h
  obtain ⟨p, hp, h⟩ := Except.bind_eq_ok.mp h
  cases h
  have hflags : Flags.read o.leniently.edition { slice with start := slice.start + length + 2 } =
      .ok f := hf
  rcases Pattern.read_leniently hp with hp' | ⟨hedition, hrefers, hlong⟩
  · exact .inl (Except.bind_eq_ok.mpr ⟨f, hflags, Except.bind_eq_ok.mpr ⟨p, hp', rfl⟩⟩)
  · rw [hflags]
    exact .inr ⟨hedition, hrefers, hlong.bind _⟩

/-- Whatever is accepted under the strict rules is accepted without them, with the same tree: a
pattern, a pattern and flags, or a literal. But where the strict rules make one pass and a name is
referred to, the passes made without them may come to a number that is too long. -/
theorem strict_trees_kept (o : Options) :
    (∀ choice slice p, parsePattern o.strictly choice slice = .ok p →
      parsePattern o.leniently choice slice = .ok p ∨
        .es2023 ≤ o.edition ∧ p.referredNames ≠ [] ∧ ∃ n, 4300 < n ∧
          parsePattern o.leniently choice slice = .error (.tooManyDigits n)) ∧
    (∀ source flags l, parseParts o.strictly source flags = .ok l →
      parseParts o.leniently source flags = .ok l ∨
        .es2023 ≤ o.edition ∧ l.pattern.referredNames ≠ [] ∧ ∃ n, 4300 < n ∧
          parseParts o.leniently source flags = .error (.tooManyDigits n)) ∧
    ∀ slice l, parseLiteral o.strictly slice = .ok l →
      parseLiteral o.leniently slice = .ok l ∨
        .es2023 ≤ o.edition ∧ l.pattern.referredNames ≠ [] ∧ ∃ n, 4300 < n ∧
          parseLiteral o.leniently slice = .error (.tooManyDigits n) := by
  refine ⟨?_, ?_, ?_⟩
  · intro choice slice p h
    obtain ⟨flags, hflags, hread⟩ := parsePattern_eq_ok.mp h
    rcases Pattern.read_leniently hread with hread' | ⟨hedition, hrefers, hlong⟩
    · exact .inl (parsePattern_eq_ok.mpr ⟨flags, hflags, hread'⟩)
    · refine .inr ⟨hedition, hrefers, ?_⟩
      have hflags' : choice.resolve o.leniently.edition = .ok flags := hflags
      rw [parsePattern, hflags']
      exact hlong.mapError _
  · intro source flags l h
    rcases Literal.readParts_leniently (parseParts_eq_ok.mp h) with
      hread | ⟨hedition, hrefers, hlong⟩
    · exact .inl (parseParts_eq_ok.mpr hread)
    · exact .inr ⟨hedition, hrefers, hlong.mapError _⟩
  · intro slice l h
    obtain ⟨length, hlength, hread⟩ := parseLiteral_eq_ok.mp h
    rcases Literal.readParts_leniently hread with hread' | ⟨hedition, hrefers, hlong⟩
    · exact .inl (parseLiteral_eq_ok.mpr ⟨length, hlength, hread'⟩)
    · refine .inr ⟨hedition, hrefers, ?_⟩
      rw [parseLiteral, Literal.read, hlength]
      exact hlong.mapError _

/-- A pattern in which the rules differ about how many passes there are, a pattern by code points,
and a literal with a class of the set grammar. -/
theorem strict_trees_kept_with_names :
    (∃ p, parsePattern (.ofEdition .es2023 true) (.set {})
        (.whole (.ofString "(?<$>[\\w-]|\\/)\\k<$>{2,}(?!$)")) = .ok p ∧
      parsePattern (.ofEdition .es2023 false) (.set {})
        (.whole (.ofString "(?<$>[\\w-]|\\/)\\k<$>{2,}(?!$)")) = .ok p) ∧
    (∃ l, parseParts (.ofEdition .es2018 true) (.ofString "a\\u{61}") (.ofString "u") = .ok l ∧
      parseParts (.ofEdition .es2018 false) (.ofString "a\\u{61}") (.ofString "u") = .ok l) ∧
    ∃ l, parseLiteral (.ofEdition .es2024 true) (.whole (.ofString "/[\\d--[5]]/v")) = .ok l ∧
      parseLiteral (.ofEdition .es2024 false) (.whole (.ofString "/[\\d--[5]]/v")) = .ok l := by
  refine ⟨?_, ?_, ?_⟩
  · obtain ⟨p, hp⟩ := Except.exists_eq_ok (x := parsePattern (.ofEdition .es2023 true) (.set {})
      (.whole (.ofString "(?<$>[\\w-]|\\/)\\k<$>{2,}(?!$)"))) (by decide +kernel)
    refine ⟨p, hp, ((strict_trees_kept (.ofEdition .es2023 true)).1 _ _ p hp).resolve_right ?_⟩
    rintro ⟨-, -, n, -, herror⟩
    exact Except.ne_error_of_isOk (by decide +kernel) herror
  · obtain ⟨l, hl⟩ := Except.exists_eq_ok (x := parseParts (.ofEdition .es2018 true)
      (.ofString "a\\u{61}") (.ofString "u")) (by decide +kernel)
    refine ⟨l, hl, ((strict_trees_kept (.ofEdition .es2018 true)).2.1 _ _ l hl).resolve_right ?_⟩
    rintro ⟨hedition, -⟩
    exact absurd hedition (by decide)
  · obtain ⟨l, hl⟩ := Except.exists_eq_ok (x := parseLiteral (.ofEdition .es2024 true)
      (.whole (.ofString "/[\\d--[5]]/v"))) (by decide +kernel)
    refine ⟨l, hl, ((strict_trees_kept (.ofEdition .es2024 true)).2.2 _ l hl).resolve_right ?_⟩
    rintro ⟨-, -, n, -, herror⟩
    exact Except.ne_error_of_isOk (by decide +kernel) herror

/-- Under the strict rules the name is read as an escape. Without them the escape is first read as
bounds of 4302 digits. -/
theorem strict_tree_lost_to_long_number :
    (∃ p, parsePattern (.ofEdition .es2025 true) (.set {}) (.whole paddedText) = .ok p) ∧
    ∃ n, parsePattern (.ofEdition .es2025 false) (.set {}) (.whole paddedText) =
      .error (.tooManyDigits n) := by
  constructor
  · obtain ⟨p, scope, hpass, -⟩ := Pattern.pass_paddedText true
    refine ⟨p, parsePattern_eq_ok.mpr ⟨{}, rfl, ?_⟩⟩
    exact Pattern.read_eq_ok.mpr ⟨rfl, Pattern.readUnder_eq_ok.mpr ⟨p, scope, hpass, rfl⟩⟩
  · obtain ⟨f, n, hpass, -, hcause⟩ := Pattern.pass_paddedText_as_text
    exact ⟨n, parsePattern_of_pass_error rfl rfl hpass hcause⟩

end EcmaPattern
