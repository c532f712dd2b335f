import EcmaPattern.Proofs.Agreement.Terms
import EcmaPattern.Proofs.Strictness

/-!
# Strict answers by code points

By code points the web grammar is off already, so the strict rules should change nothing. They do
change one thing: inside a class, a `\c` that begins no control letter is text unless the strict
rules are in force, where by code points it should be at fault either way. That is the only
difference, and the set grammar does not even have that one.

The comparison has one excuse, the fault at a lone `\c`. So a pass under the strict rules is the
pass without them, or it is at fault there (`Pattern.pass_strictly`). By code points there is only
ever one pass, and the statement carries over to answers. A pattern on which the two differ is given
at the end.
-/

namespace EcmaPattern

namespace Pattern

variable {rule : DuplicateRule} {o : Options} {flags : FlagSet} {c : Cursor}

/-- By code points, whether `\k` begins a named reference depends on the edition alone, and no
second pass is made. -/
theorem readUnder_by_code_points (hmode : flags.unicodeMode = true) :
    readUnder rule o flags c = (pass rule o flags (alwaysNamedReferences o flags) c).map (·.1) := by
  have hcondition :
      (!alwaysNamedReferences o flags && o.edition.supports .namedGroups) = false := by
    rw [FlagSet.unicodeMode] at hmode
    unfold alwaysNamedReferences
    revert hmode
    cases flags.unicode <;> cases flags.unicodeSets <;> cases o.edition.supports .namedGroups <;>
      simp
  rw [readUnder]
  cases pass rule o flags (alwaysNamedReferences o flags) c with
  | error f => rfl
  | ok result =>
    show (if !alwaysNamedReferences o flags && o.edition.supports .namedGroups &&
      !result.2.isEmpty then _ else _) = _
    rw [hcondition, Bool.false_and]
    rfl

/-- By code points, the strict rules play no part in it. -/
theorem alwaysNamedReferences_strictly (hmode : flags.unicodeMode = true) :
    alwaysNamedReferences o.strictly flags = alwaysNamedReferences o.leniently flags := by
  have hsince : o.edition.supports .namedGroups = false →
      o.edition.supports .strictNamedReferences = false := Edition.not_supports (by decide)
  rw [FlagSet.unicodeMode] at hmode
  simp only [alwaysNamedReferences, Options.strictly, Options.leniently, Bool.true_and,
    Bool.false_and, Bool.or_false]
  revert hmode hsince
  cases flags.unicode <;> cases flags.unicodeSets <;> cases o.edition.supports .namedGroups <;> simp

/-- The strict grammar beside the one without the strict rules, by code points. -/
def strictComparison (o : Options) (flags : FlagSet) (hmode : flags.unicodeMode = true)
    (named : Bool) (c : Cursor) : Comparison where
  left := grammarFor o.strictly flags named c
  right := grammarFor o.leniently flags named c
  scope := id
  halts d f := flags.unicodeSets = false ∧ d.AtLoneControl ∧ f = ⟨.invalidEscape, d.advance.index⟩
  unicode := rfl
  sets := rfl
  captures := rfl
  exact := by simp [Grammar.exact, grammarFor, hmode]
  edition := .inl rfl
  strict := .inr ⟨rfl, hmode, fun hsets _ hd => ⟨hsets, hd, rfl⟩⟩
  names := .inl rfl

/-- A strict pass by code points gives the same as one without the strict rules, unless it finds
fault with a lone `\c`. -/
theorem pass_strictly (rule : DuplicateRule) (o : Options) (c : Cursor)
    (hmode : flags.unicodeMode = true) (named : Bool) :
    pass rule o.leniently flags named c = pass rule o.strictly flags named c ∨
      flags.unicodeSets = false ∧ ∃ d, c.Reaches d ∧ d.AtLoneControl ∧
        pass rule o.strictly flags named c = .error ⟨.invalidEscape, d.advance.index⟩ := by
  rcases pass_agrees (k := strictComparison o flags hmode named c) o.strictly o.leniently
    (.of_id rfl) (.inl rfl) rfl rfl rfl rfl with heq | ⟨f, hf, d, hd, hsets, hlone, rfl⟩
  · left
    rw [heq]
    cases pass rule o.strictly flags named c <;> rfl
  · exact .inr ⟨hsets, d, hd, hlone, hf⟩

/-- By code points, a slice is read alike under either rules, unless a lone `\c` in a class is found
under the strict ones. -/
theorem read_strictly (o : Options) (slice : Slice) (hmode : flags.unicodeMode = true) :
    read o.strictly flags slice = read o.leniently flags slice ∨
      flags.unicodeSets = false ∧ ∃ d, slice.Holds true d ∧ d.AtLoneControl ∧
        read o.strictly flags slice = .error ⟨.invalidEscape, d.advance.index⟩ := by
  rw [read, read]
  cases flags.unicode && flags.unicodeSets with
  | true => exact .inl rfl
  | false =>
    rw [if_neg Bool.false_ne_true, if_neg Bool.false_ne_true, readUnder_by_code_points hmode,
      readUnder_by_code_points hmode, alwaysNamedReferences_strictly hmode, hmode]
    have hrule : duplicateRule o.strictly.edition = duplicateRule o.leniently.edition := rfl
    rw [hrule]
    rcases pass_strictly (duplicateRule o.leniently.edition) o (slice.cursor true) hmode
      (alwaysNamedReferences o.leniently flags) with heq | ⟨hsets, d, hd, hlone, herror⟩
    · exact .inl (by rw [heq])
    · exact .inr ⟨hsets, d, hd, hlone, by rw [herror]; rfl⟩

end Pattern

/-- By code points, the strict rules change an answer only if there is no set grammar and the strict
answer finds fault with a `\c` that no Latin letter follows. -/
theorem strict_answers_by_code_points (o : Options) (choice : FlagChoice) (slice : Slice)
    (hmode : ∀ flags, choice.resolve o.edition = .ok flags → flags.unicodeMode = true) :
    parsePattern o.strictly choice slice = parsePattern o.leniently choice slice ∨
      ∃ flags c, choice.resolve o.edition = .ok flags ∧ flags.unicodeSets = false ∧
        slice.Holds true c ∧ c.AtLoneControl ∧
        parsePattern o.strictly choice slice =
          .error (.ofFault (some (patternSource slice flags))
            ⟨.invalidEscape, c.advance.index⟩) := by
  have hanswer : ∀ o' : Options, o'.edition = o.edition → parsePattern o' choice slice =
      (choice.resolve o.edition >>= fun flags => (Pattern.read o' flags slice).mapError
        (.ofFault (some (patternSource slice flags)))) := by
    intro o' hedition
    rw [parsePattern, hedition]
  rw [hanswer o.strictly rfl, hanswer o.leniently rfl]
  cases hflags : choice.resolve o.edition with
  | error d => exact .inl rfl
  | ok flags =>
    rcases Pattern.read_strictly o slice (hmode flags hflags)
      with heq | ⟨hsets, c, hc, hlone, herror⟩
    · left
      show (Pattern.read o.strictly flags slice).mapError _ = _
      rw [heq]
      rfl
    · refine .inr ⟨flags, c, rfl, hsets, hc, hlone, ?_⟩
      show (Pattern.read o.strictly flags slice).mapError _ = _
      rw [herror]
      rfl

/-- With a letter after the `\c`, the two answers are the same tree. -/
theorem strict_answers_by_code_points_with_letter :
    ∃ p, parsePattern (.ofEdition .latest true) (.set { unicode := true })
        (.whole (.ofString "[\\cA-\\u{61}]")) = .ok p ∧
      parsePattern (.ofEdition .latest false) (.set { unicode := true })
        (.whole (.ofString "[\\cA-\\u{61}]")) = .ok p := by
  obtain ⟨p, hp⟩ := Except.exists_eq_ok (x := parsePattern (.ofEdition .latest true)
    (.set { unicode := true }) (.whole (.ofString "[\\cA-\\u{61}]"))) (by decide +kernel)
  rcases strict_answers_by_code_points (.ofEdition .latest true) (.set { unicode := true })
    (.whole (.ofString "[\\cA-\\u{61}]")) (by rintro _ ⟨⟩; rfl)
    with heq | ⟨_, _, _, _, _, _, herror⟩
  · exact ⟨p, hp, heq ▸ hp⟩
  · exact absurd (hp.symm.trans herror) nofun

/-- Without one, only the strict rules find fault. -/
theorem strict_answers_differ_at_lone_control :
    parsePattern (.ofEdition .latest true) (.set { unicode := true }) (.whole (.ofString "[\\c]")) ≠
      parsePattern (.ofEdition .latest false) (.set { unicode := true })
        (.whole (.ofString "[\\c]")) := by
  intro heq
  have hstrict : (parsePattern (.ofEdition .latest true) (.set { unicode := true })
    (.whole (.ofString "[\\c]"))).isOk = false := by decide +kernel
  have hlenient : (parsePattern (.ofEdition .latest false) (.set { unicode := true })
    (.whole (.ofString "[\\c]"))).isOk = true := by decide +kernel
  rw [heq, hlenient] at hstrict
  cases hstrict

end EcmaPattern
