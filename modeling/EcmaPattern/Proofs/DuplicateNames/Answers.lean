import EcmaPattern.Proofs.DuplicateNames
import EcmaPattern.Proofs.StrictReferences

/-!
# Names that stand twice

Two groups may have one name only if no match takes part in both. The answer to a request is the
tree that it would have without a check for that, if the tree keeps to the rule; and if it does not,
the answer is that a name stands twice (`duplicates_refused_exactly`).
-/

namespace EcmaPattern

open EcmaPattern.Parser

/-! ## Answers under another rule

A request has a rule by its edition. The unchecked answer is the answer to the same request under
the rule that lets names stand twice anywhere. -/

def Pattern.readBy (rule : DuplicateRule) (o : Options) (flags : FlagSet) (slice : Slice) :
    Except Fault Pattern :=
  if flags.unicode && flags.unicodeSets then .error ⟨.conflictingFlags, slice.start⟩
  else readUnder rule o flags (slice.cursor flags.unicodeMode)

/-- Reads a slice as a literal whose pattern has the given length, under a rule for names that stand
twice. -/
def Literal.readPartsBy (rule : DuplicateRule) (o : Options) (slice : Slice) (length : Nat) :
    Except Fault Literal := do
  let flagsStart := slice.start + length + 2
  let flags ← Flags.read o.edition { slice with start := flagsStart }
  let pattern ← Pattern.readBy rule o flags.set
    { slice with start := slice.start + 1, stop := flagsStart - 1 }
  return ⟨⟨slice.start, slice.stop, slice.content⟩, pattern, flags⟩

def Request.answerBy (rule : DuplicateRule) (o : Options) : Request → Except Failure Node
  | .literal slice =>
    .literal <$> (Literal.patternLength slice >>= Literal.readPartsBy rule o slice).mapError
      (.ofFault (literalSource slice))
  | .parts source flagText =>
    let slice := Slice.whole (Literal.join source flagText)
    .literal <$> (Literal.readPartsBy rule o slice source.length).mapError
      (.ofFault (literalSource slice))
  | .pattern choice slice =>
    .pattern <$> (choice.resolve o.edition >>= fun set =>
      (Pattern.readBy rule o set slice).mapError (.ofFault (some (patternSource slice set))))
  | .flags slice => .flags <$> parseFlags o slice

/-- The answer to a request is that under the rule of its edition. -/
theorem Request.answerBy_duplicateRule (o : Options) (q : Request) :
    q.answerBy (Pattern.duplicateRule o.edition) o = q.answer o := by
  cases q <;> rfl

/-! ## Results of a check

The answer is kept or replaced by the fault that a name stands twice, at some place. Where it is
replaced no rule admits the names of the tree that would have been given. -/

/-- If the second result is a value, then the first is that value, if it passes, and else that it
does not. -/
def CheckedBy {ε α : Type} (report : Nat → ε) (passes : α → Prop) (x y : Except ε α) : Prop :=
  ∀ a, y = .ok a → passes a ∧ x = .ok a ∨ ¬ passes a ∧ ∃ i, x = .error (report i)

/-- What is found where a name stands twice. -/
def Fault.twiceNamed (i : Nat) : Fault := ⟨.duplicateGroupName, i⟩

def Diagnostic.twiceNamed (source : Option Text) (i : Nat) : Diagnostic :=
  ⟨false, .ofString "Duplicate capture group name", i, source⟩

namespace CheckedBy

variable {ε α β : Type} {report : Nat → ε} {passes : α → Prop} {passes' : β → Prop}
  {x y : Except ε α}

theorem refl (h : ∀ a, x = .ok a → passes a) : CheckedBy report passes x x :=
  fun a ha => .inl ⟨h a ha, ha⟩

theorem error {e : ε} : CheckedBy report passes x (.error e) := by
  intro a ha
  cases ha

theorem map {f : α → β} (hf : ∀ a, passes' (f a) ↔ passes a) (h : CheckedBy report passes x y) :
    CheckedBy report passes' (f <$> x) (f <$> y) := by
  intro b hb
  obtain ⟨a, ha, rfl⟩ := Except.map_eq_ok.mp hb
  rw [hf]
  rcases h a ha with ⟨hpasses, rfl⟩ | ⟨hfails, i, rfl⟩
  · exact .inl ⟨hpasses, rfl⟩
  · exact .inr ⟨hfails, i, rfl⟩

/-- Faults are reported with the text that they are in. -/
theorem ofFault {x y : Except Fault α} (source : Option Text)
    (h : CheckedBy Fault.twiceNamed passes x y) :
    CheckedBy (fun i => .diagnostic (.twiceNamed source i)) passes
      (x.mapError (Failure.ofFault source)) (y.mapError (Failure.ofFault source)) := by
  intro a ha
  rcases h a (Except.mapError_eq_ok.mp ha) with ⟨hpasses, rfl⟩ | ⟨hfails, i, rfl⟩
  · exact .inl ⟨hpasses, rfl⟩
  · exact .inr ⟨hfails, i, rfl⟩

/-- The check does not bear on what comes first. -/
theorem bind {z : Except ε β} {f g : β → Except ε α}
    (h : ∀ b, z = .ok b → CheckedBy report passes (f b) (g b)) :
    CheckedBy report passes (z >>= f) (z >>= g) := by
  cases z with
  | error e => exact .error
  | ok b => exact h b rfl

end CheckedBy

/-! ## Patterns

Two passes are made if the first one finds a named group. Both are checked by the same rule, and the
tree that is given is the one of the last pass. -/

namespace Pattern

/-- A pass under a rule gives what it would give without a check if the rule admits the names. -/
theorem pass_checked (rule : DuplicateRule) (o : Options) (flags : FlagSet) (named : Bool)
    (c : Cursor) {p : Pattern} {scope : GroupScope}
    (h : pass .unchecked o flags named c = .ok (p, scope)) :
    rule.Admits scope.declarations ∧ pass rule o flags named c = .ok (p, { scope with rule }) ∨
      ¬ rule.Admits scope.declarations ∧
        ∃ i, pass rule o flags named c = .error (.twiceNamed i) := by
  obtain ⟨qs, t, hqs, hnone, rfl, hnames, rfl⟩ := pass_eq_ok.mp h
  have hchecks := disjunction_checks (g := grammarFor o flags named c) o.maxDepth
    ⟨c, .empty rule, 0⟩
  rcases hchecks.checks with ⟨heq, hadmitted⟩ | ⟨⟨i, hi⟩, -, hrefused⟩
  · left
    obtain ⟨u, hu, rfl⟩ : ∃ u, disjunction o.maxDepth (grammarFor o flags named c)
        ⟨c, .empty rule, 0⟩ = .done qs u ∧ u.inScope .unchecked = t := by
      have hdone := heq.symm.trans hqs
      cases hu : disjunction o.maxDepth (grammarFor o flags named c) ⟨c, .empty rule, 0⟩ with
      | done a u => rw [hu] at hdone; cases hdone; exact ⟨u, rfl, rfl⟩
      | miss => rw [hu] at hdone; cases hdone
      | fault e => rw [hu] at hdone; cases hdone
    have hrule : u.scope.rule = rule := (hchecks.grows hu).rule
    have hscope : { (u.inScope .unchecked).scope with rule } = u.scope := by rw [← hrule]; rfl
    rw [hscope]
    have hempty : (GroupScope.empty rule).Admitted := .nil
    constructor
    · have hall := hadmitted qs u hu hempty
      rwa [GroupScope.Admitted, hrule] at hall
    · exact pass_eq_ok.mpr ⟨qs, u, hu, hnone, rfl, hnames, rfl⟩
  · exact .inr ⟨hrefused qs t hqs, i, pass_of_disjunction_fault hi⟩

/-- A pattern is read as without a check if its tree keeps its names apart. -/
theorem readUnder_checked (o : Options) (flags : FlagSet) (c : Cursor) :
    CheckedBy .twiceNamed (fun p => (Node.pattern p).NamesApart o.edition)
      (readUnder (duplicateRule o.edition) o flags c) (readUnder .unchecked o flags c) := by
  intro p hp
  obtain ⟨q, scope, hq, hp⟩ := readUnder_eq_ok.mp hp
  have hchecked := pass_checked (duplicateRule o.edition) o flags _ c hq
  split at hp
  · next hagain =>
    -- the second pass gives the names that the first gives
    obtain ⟨scope', hp⟩ := hp
    have hagain' := hagain
    simp only [Bool.and_eq_true, Bool.not_eq_true'] at hagain'
    rw [hagain'.1.1] at hq
    obtain rfl := (passes_alike hagain'.1.1 hagain'.1.2 hq hp).1
    have hapart := admits_iff_namesApart hp o.edition
    rcases hchecked with ⟨hadmits, hfirst⟩ | ⟨hrefused, i, herror⟩
    · obtain ⟨-, hsecond⟩ :=
        (pass_checked (duplicateRule o.edition) o flags true c hp).resolve_right
          fun h => h.1 hadmits
      refine .inl ⟨hapart.mp hadmits, readUnder_eq_ok.mpr ⟨q, _, hfirst, ?_⟩⟩
      exact (if_pos hagain).mpr ⟨_, hsecond⟩
    · exact .inr ⟨mt hapart.mpr hrefused, i, readUnder_of_pass_error herror⟩
  · next hagain =>
    subst hp
    have hapart := admits_iff_namesApart hq o.edition
    rcases hchecked with ⟨hadmits, hfirst⟩ | ⟨hrefused, i, herror⟩
    · exact .inl ⟨hapart.mp hadmits, readUnder_eq_ok.mpr ⟨q, _, hfirst, (if_neg hagain).mpr rfl⟩⟩
    · exact .inr ⟨mt hapart.mpr hrefused, i, readUnder_of_pass_error herror⟩

/-- Under the rule of its edition a slice is read as without a rule, unless names stand twice that
may not. -/
theorem readBy_checked (o : Options) (flags : FlagSet) (slice : Slice) :
    CheckedBy .twiceNamed (fun p => (Node.pattern p).NamesApart o.edition)
      (readBy (duplicateRule o.edition) o flags slice) (readBy .unchecked o flags slice) := by
  rw [readBy, readBy]
  split
  · exact .error
  · exact readUnder_checked o flags _

end Pattern

/-! ## Requests

The nodes around a pattern have no groups, so names are apart in a literal if they are in its
pattern. -/

namespace Node

theorem namesApart_flags (f : Flags) (e : Edition) : (flags f).NamesApart e := by
  intro c hc
  rw [captures_eq, children_flags] at hc
  cases hc

/-- The names of a literal are those of its pattern. -/
theorem namesApart_literal (l : Literal) (e : Edition) :
    (literal l).NamesApart e ↔ (pattern l.pattern).NamesApart e := by
  have hflags : (flags l.flags).captures = [] := by
    rw [captures_eq, children_flags]
    rfl
  have hcaptures : (literal l).captures = (pattern l.pattern).captures := by
    rw [captures_eq, children_literal]
    simp [capture?, hflags]
  have hparts : ∀ c d, (literal l).Parts c d ↔ (pattern l.pattern).Parts c d := by
    intro c d
    have hnone : ¬ (flags l.flags).Parts c d := by
      intro h
      have hmem := h.mem
      rw [hflags] at hmem
      cases hmem
    rw [parts_iff, children_literal]
    simp [alternatives, Piece.not_divides_nil, hnone]
  simp only [NamesApart, hcaptures, hparts]

end Node

namespace Request

/-- The same of a literal. -/
theorem readPartsBy_checked (o : Options) (slice : Slice) (length : Nat) :
    CheckedBy .twiceNamed (fun l => (Node.literal l).NamesApart o.edition)
      (Literal.readPartsBy (Pattern.duplicateRule o.edition) o slice length)
      (Literal.readPartsBy .unchecked o slice length) := by
  refine .bind fun flags _ => ?_
  refine (Pattern.readBy_checked o _ _).map (f := fun p => Literal.mk _ p flags) fun p => ?_
  exact Node.namesApart_literal _ _

/-- An answer is the answer without a check, if the tree keeps its names apart. -/
theorem answer_checked (o : Options) (q : Request) :
    ∃ source, CheckedBy (fun i => .diagnostic (.twiceNamed source i))
      (fun n => n.NamesApart o.edition) (q.answer o) (q.answerBy .unchecked o) := by
  rw [← answerBy_duplicateRule]
  cases q with
  | literal slice =>
    refine ⟨literalSource slice, .map (f := Node.literal) (fun _ => Iff.rfl) ?_⟩
    apply CheckedBy.ofFault
    exact .bind fun length _ => readPartsBy_checked o slice length
  | parts source flagText =>
    refine ⟨literalSource (.whole (Literal.join source flagText)), ?_⟩
    refine .map (f := Node.literal) (fun _ => Iff.rfl) ?_
    apply CheckedBy.ofFault
    exact readPartsBy_checked o _ _
  | pattern choice slice =>
    cases hflags : choice.resolve o.edition with
    | error d =>
      refine ⟨none, ?_⟩
      rw [answerBy, answerBy, hflags]
      exact .error
    | ok flags =>
      refine ⟨some (patternSource slice flags), .map (f := Node.pattern) (fun _ => Iff.rfl) ?_⟩
      rw [hflags]
      apply CheckedBy.ofFault
      exact Pattern.readBy_checked o flags slice
  | flags slice =>
    refine ⟨none, .refl fun n hn => ?_⟩
    obtain ⟨f, -, rfl⟩ := Except.map_eq_ok.mp hn
    exact Node.namesApart_flags f _

end Request

/-- Names that stand twice are refused exactly if two groups that have one can take part in one
match. Without the check let a request be answered with a tree. If the tree keeps its names apart,
it is the answer; if not, the answer is that a name stands twice. -/
theorem duplicates_refused_exactly (o : Options) (q : Request) (n : Node)
    (h : q.answerBy .unchecked o = .ok n) :
    (n.NamesApart o.edition → q.answer o = .ok n) ∧
    (¬ n.NamesApart o.edition → ∃ (i : Nat) (source : Option Text),
      q.answer o =
        .error (.diagnostic ⟨false, .ofString "Duplicate capture group name", i, source⟩)) := by
  obtain ⟨source, hchecked⟩ := q.answer_checked o
  rcases hchecked n h with ⟨hapart, hanswer⟩ | ⟨hnot, i, hanswer⟩
  · exact ⟨fun _ => hanswer, fun hnot => absurd hapart hnot⟩
  · exact ⟨fun hapart => absurd hapart hnot, fun _ => ⟨i, source, hanswer⟩⟩

/-- A name that stands in two alternatives, in one of them deeper, and one that stands in two
disjunctions of one alternative; both patterns are read twice. -/
theorem duplicates_refused_exactly_by_alternatives :
    (∃ n, Request.answerBy .unchecked (.ofEdition .es2025 false) (.pattern (.set {})
        (.whole (.ofString "\\k<n>(?<n>a)|(?:b|(?<n>c))"))) = .ok n ∧
      Request.answer (.ofEdition .es2025 false) (.pattern (.set {})
        (.whole (.ofString "\\k<n>(?<n>a)|(?:b|(?<n>c))"))) = .ok n) ∧
    ∃ (i : Nat) (source : Option Text), Request.answer (.ofEdition .es2025 false)
        (.pattern (.set {}) (.whole (.ofString "(?:(?<n>a)|b)(?:c|(?<n>d))"))) =
      .error (.diagnostic ⟨false, .ofString "Duplicate capture group name", i, source⟩) := by
  constructor
  · have hany : (Request.answerBy .unchecked (.ofEdition .es2025 false) (.pattern (.set {})
        (.whole (.ofString "\\k<n>(?<n>a)|(?:b|(?<n>c))")))).toOption.any
          (fun n => decide (n.NamesApart .es2025)) = true := by decide +kernel
    obtain ⟨n, hn, htest⟩ := Except.exists_eq_ok_of_any hany
    exact ⟨n, hn, (duplicates_refused_exactly _ _ n hn).1 (of_decide_eq_true htest)⟩
  · have hany : (Request.answerBy .unchecked (.ofEdition .es2025 false) (.pattern (.set {})
        (.whole (.ofString "(?:(?<n>a)|b)(?:c|(?<n>d))")))).toOption.any
          (fun n => decide (¬ n.NamesApart .es2025)) = true := by decide +kernel
    obtain ⟨n, hn, htest⟩ := Except.exists_eq_ok_of_any hany
    exact (duplicates_refused_exactly _ _ n hn).2 (of_decide_eq_true htest)

end EcmaPattern
