import EcmaPattern.Parse
import EcmaPattern.Proofs.Derivation.Terms
import EcmaPattern.Proofs.Results

/-!
# Passes

What it takes for a pass over a pattern to succeed, and from which pass the pattern comes that a
request is answered with.

Everything about a returned tree goes through here: a request is answered by one of at most two
passes (`Request.pass_of_answer`), a pass is a derivation up to the end of the text
(`derives_of_pass`), and the other direction says what a pass comes to when its alternatives are
known (`pass_of_disjunction_done`).
-/

namespace EcmaPattern

open EcmaPattern.Parser

/-- The options of an edition with the nesting limit that holds when none is asked for. -/
def Options.ofEdition (e : Edition) (strict : Bool) : Options :=
  ⟨e, strict, defaultMaxDepth.toNat, by decide⟩

/-! ## One pass

A pass reads alternatives, finds the end, and resolves names. Any of the three can fail, and each
failure is told apart, since errors are stated exactly elsewhere. -/

namespace Pattern

variable {rule : DuplicateRule} {o : Options} {flags : FlagSet} {named : Bool} {c : Cursor}
  {p : Pattern} {scope : GroupScope}

/-- The end of a pattern is the end of the text. -/
theorem endOfPattern_eq_done {g : Grammar} {s t : State} {x : Unit} :
    endOfPattern g s = .done x t ↔ s.cursor.current = none ∧ s = t := by
  rw [endOfPattern]
  cases s.cursor.current <;> simp

/-- Names are resolved if each of them has a group. -/
theorem resolved_eq_done {g : Grammar} {s t : State} {q : Pattern} :
    resolved q g s = .done p t ↔
      q.referredNames.all s.scope.declares = true ∧ q.resolve s.scope.indexes = p ∧ s = t := by
  rw [resolved]
  split
  · next h => simp [h]
  · next h => simp [h]

/-- A pass succeeds if the alternatives that it reads are all there is, and each name that they
refer to is declared. -/
theorem pass_eq_ok :
    pass rule o flags named c = .ok (p, scope) ↔
      ∃ qs t, disjunction o.maxDepth (grammarFor o flags named c) ⟨c, .empty rule, 0⟩ = .done qs t ∧
        t.cursor.current = none ∧ t.scope = scope ∧
        (Term.referredNamesOfAll qs).all scope.declares = true ∧
        p = (Pattern.mk (.between c t.cursor) qs).resolve scope.indexes := by
  -- the parser of whole patterns, before its outcome becomes the answer of a pass
  have hdone : ∀ s, Parser.pattern o.maxDepth (grammarFor o flags named c) ⟨c, .empty rule, 0⟩ =
        .done p s ↔
      ∃ qs, disjunction o.maxDepth (grammarFor o flags named c) ⟨c, .empty rule, 0⟩ = .done qs s ∧
        s.cursor.current = none ∧ (Term.referredNamesOfAll qs).all s.scope.declares = true ∧
        p = (Pattern.mk (.between c s.cursor) qs).resolve s.scope.indexes := by
    intro s
    rw [Parser.pattern, here_bind, bind_eq_done]
    constructor
    · rintro ⟨qs, t, hqs, h⟩
      obtain ⟨_, u, hend, h⟩ := bind_eq_done.mp h
      obtain ⟨hnone, rfl⟩ := endOfPattern_eq_done.mp hend
      rw [spanFrom_bind] at h
      obtain ⟨hnames, rfl, rfl⟩ := resolved_eq_done.mp h
      exact ⟨qs, hqs, hnone, hnames, rfl⟩
    · rintro ⟨qs, hqs, hnone, hnames, rfl⟩
      refine ⟨qs, s, hqs, ?_⟩
      rw [bind_of_done (endOfPattern_eq_done (x := ()).mpr ⟨hnone, rfl⟩), spanFrom_bind]
      exact resolved_eq_done.mpr ⟨hnames, rfl, rfl⟩
  rw [pass]
  constructor
  · intro h
    split at h
    · next q s hs =>
      cases h
      obtain ⟨qs, hqs, hnone, hnames, rfl⟩ := (hdone s).mp hs
      exact ⟨qs, s, hqs, hnone, rfl, hnames, rfl⟩
    · cases h
    · cases h
  · rintro ⟨qs, t, hqs, hnone, rfl, hnames, rfl⟩
    rw [(hdone t).mpr ⟨qs, hqs, hnone, hnames, rfl⟩]

/-- What a pass reads is derived, up to the end. -/
theorem derives_of_pass (h : pass rule o flags named c = .ok (p, scope)) :
    ∃ qs t, Derives (grammarFor o flags named c) ⟨c, .empty rule, 0⟩ (.disjunction qs) t ∧
      t.cursor.current = none ∧ t.scope = scope ∧
      p = (Pattern.mk (.between c t.cursor) qs).resolve scope.indexes := by
  obtain ⟨qs, t, hqs, hnone, hscope, -, hp⟩ := pass_eq_ok.mp h
  exact ⟨qs, t, disjunction_derives hqs, hnone, hscope, hp⟩

section

variable {f : Fault} {qs : List Sequence} {t : State}

theorem endOfPattern_neverMisses : NeverMisses endOfPattern := by
  intro g s h
  rw [endOfPattern] at h
  split at h <;> cases h

/-- A fault within the alternatives is the fault of the pass. -/
theorem pass_of_disjunction_fault
    (h : disjunction o.maxDepth (grammarFor o flags named c) ⟨c, .empty rule, 0⟩ = .fault f) :
    pass rule o flags named c = .error f := by
  rw [pass, Parser.pattern, here_bind, bind_apply, h]

/-- What is left behind the alternatives is the fault of the pass. -/
theorem pass_of_endOfPattern_fault
    (h : disjunction o.maxDepth (grammarFor o flags named c) ⟨c, .empty rule, 0⟩ = .done qs t)
    (hend : endOfPattern (grammarFor o flags named c) t = .fault f) :
    pass rule o flags named c = .error f := by
  rw [pass, Parser.pattern, here_bind, bind_of_done h, bind_apply, hend]

/-- A pass whose alternatives reach the end of the text is decided by the names that are referred
to. -/
theorem pass_of_disjunction_done
    (h : disjunction o.maxDepth (grammarFor o flags named c) ⟨c, .empty rule, 0⟩ = .done qs t)
    (hend : t.cursor.current = none) :
    pass rule o flags named c =
      if (Term.referredNamesOfAll qs).all t.scope.declares then
        .ok ((Pattern.mk (.between c t.cursor) qs).resolve t.scope.indexes, t.scope)
      else .error ⟨.unknownNamedReference, t.cursor.index⟩ := by
  rw [pass, Parser.pattern, here_bind, bind_of_done h,
    bind_of_done (endOfPattern_eq_done (x := ()).mpr ⟨hend, rfl⟩), spanFrom_bind, resolved,
    referredNames]
  cases (Term.referredNamesOfAll qs).all t.scope.declares <;> rfl

end

/-! ## One pass or two

A second pass is made only if `\k` can still be taken either way and the first pass came upon a
named group. What the second pass gives is then the answer, whatever the first gave. -/

/-- The pattern comes from one pass, which reads `\k` as a named reference if it always is one, or
if there is a named group. -/
theorem readUnder_eq_ok :
    readUnder rule o flags c = .ok p ↔
      ∃ q scope, pass rule o flags (alwaysNamedReferences o flags) c = .ok (q, scope) ∧
        if !alwaysNamedReferences o flags && o.edition.supports .namedGroups && !scope.isEmpty then
          ∃ scope', pass rule o flags true c = .ok (p, scope')
        else q = p := by
  rw [readUnder, Except.bind_eq_ok]
  constructor
  · rintro ⟨⟨q, scope⟩, hq, h⟩
    refine ⟨q, scope, hq, ?_⟩
    dsimp only at h
    split at h
    · next hcond =>
      rw [if_pos hcond]
      obtain ⟨⟨q', scope'⟩, hq', h⟩ := Except.bind_eq_ok.mp h
      cases h
      exact ⟨scope', hq'⟩
    · next hcond =>
      rw [if_neg hcond]
      cases h
      rfl
  · rintro ⟨q, scope, hq, h⟩
    refine ⟨(q, scope), hq, ?_⟩
    dsimp only
    split
    · next hcond =>
      rw [if_pos hcond] at h
      obtain ⟨scope', hp⟩ := h
      rw [hp]
      rfl
    · next hcond =>
      rw [if_neg hcond] at h
      rw [h]
      rfl

/-- If the first pass fails, there is no second. -/
theorem readUnder_of_pass_error {f : Fault}
    (h : pass rule o flags (alwaysNamedReferences o flags) c = .error f) :
    readUnder rule o flags c = .error f := by
  rw [readUnder, h]
  rfl

/-- If the first pass succeeds, the answer is its pattern or, where names turned up, that of a
second pass. -/
theorem readUnder_of_pass_ok
    (h : pass rule o flags (alwaysNamedReferences o flags) c = .ok (p, scope)) :
    readUnder rule o flags c =
      if !alwaysNamedReferences o flags && o.edition.supports .namedGroups && !scope.isEmpty then
        Prod.fst <$> pass rule o flags true c
      else .ok p := by
  rw [readUnder, h]
  show (if _ then _ else _) = _
  split
  · cases pass rule o flags true c <;> rfl
  · rfl

/-- A pattern that is read is what one of the passes gave. -/
theorem pass_of_readUnder (h : readUnder rule o flags c = .ok p) :
    ∃ named scope, pass rule o flags named c = .ok (p, scope) := by
  obtain ⟨q, scope, hq, h⟩ := readUnder_eq_ok.mp h
  split at h
  · obtain ⟨scope', hp⟩ := h
    exact ⟨true, scope', hp⟩
  · subst h
    exact ⟨_, scope, hq⟩

theorem read_eq_ok {slice : Slice} :
    read o flags slice = .ok p ↔
      (flags.unicode && flags.unicodeSets) = false ∧
        readUnder (duplicateRule o.edition) o flags (slice.cursor flags.unicodeMode) = .ok p := by
  rw [read]
  cases flags.unicode && flags.unicodeSets <;> simp

/-- A pattern that is read from a slice is what one of the passes gave. -/
theorem pass_of_read {slice : Slice} (h : read o flags slice = .ok p) :
    ∃ named scope,
      pass (duplicateRule o.edition) o flags named (slice.cursor flags.unicodeMode) =
        .ok (p, scope) :=
  pass_of_readUnder (read_eq_ok.mp h).2

end Pattern

/-! ## Requests

A request adds the reading of flags and, for literals, the split. Each is an equivalence, so that
what holds of reading a slice carries over to all of them. -/

/-- A pattern is given if its flags can be read and it can be read under them. -/
theorem parsePattern_eq_ok {o : Options} {choice : FlagChoice} {slice : Slice} {p : Pattern} :
    parsePattern o choice slice = .ok p ↔
      ∃ flags, choice.resolve o.edition = .ok flags ∧ Pattern.read o flags slice = .ok p := by
  rw [parsePattern, Except.bind_eq_ok]
  simp only [Except.mapError_eq_ok]

/-- If the first pass finds that a number is too long, there is nothing else to be told. -/
theorem parsePattern_of_pass_error {o : Options} {choice : FlagChoice} {flags : FlagSet}
    {slice : Slice} {f : Fault} {n : Nat} (hflags : choice.resolve o.edition = .ok flags)
    (hconflict : (flags.unicode && flags.unicodeSets) = false)
    (h : Pattern.pass (Pattern.duplicateRule o.edition) o flags
      (Pattern.alwaysNamedReferences o flags) (slice.cursor flags.unicodeMode) = .error f)
    (hcause : f.cause = .tooManyDigits n) :
    parsePattern o choice slice = .error (.tooManyDigits n) := by
  have hread : Pattern.read o flags slice = .error f := by
    rw [Pattern.read, hconflict, if_neg Bool.false_ne_true]
    exact Pattern.readUnder_of_pass_error h
  rw [parsePattern, hflags]
  show (Pattern.read o flags slice).mapError _ = _
  rw [hread]
  exact congrArg Except.error (Failure.ofFault_eq_tooManyDigits.mpr hcause)

/-- By code units, the flags do not conflict. -/
theorem parsePattern_eq_readUnder {o : Options} {choice : FlagChoice} {flags : FlagSet}
    {slice : Slice} (hflags : choice.resolve o.edition = .ok flags)
    (hmode : flags.unicodeMode = false) :
    parsePattern o choice slice =
      (Pattern.readUnder (Pattern.duplicateRule o.edition) o flags (slice.cursor false)).mapError
        (.ofFault (some (patternSource slice flags))) := by
  have hconflict : (flags.unicode && flags.unicodeSets) = false := by
    rw [FlagSet.unicodeMode, Bool.or_eq_false_iff] at hmode
    rw [hmode.1, Bool.false_and]
  rw [parsePattern, hflags]
  show (Pattern.read o flags slice).mapError _ = _
  rw [Pattern.read, hconflict, if_neg Bool.false_ne_true, hmode]

/-- A literal is given if its flags can be read and the pattern can be read under them. -/
theorem Literal.readParts_eq_ok {o : Options} {slice : Slice} {length : Nat} {l : Literal} :
    Literal.readParts o slice length = .ok l ↔
      ∃ set, FlagSet.read o.edition
          (({ slice with start := slice.start + length + 2 } : Slice).content.characters true) =
            .ok set ∧
        l.flags = ⟨⟨slice.start + length + 2, slice.stop,
          ({ slice with start := slice.start + length + 2 } : Slice).content⟩, set⟩ ∧
        Pattern.read o set
          { slice with start := slice.start + 1, stop := slice.start + length + 1 } =
            .ok l.pattern ∧
        l.span = ⟨slice.start, slice.stop, slice.content⟩ := by
  rw [readParts, Except.bind_eq_ok]
  constructor
  · rintro ⟨f, hf, h⟩
    obtain ⟨set, hset, hf⟩ := Except.bind_eq_ok.mp hf
    cases hf
    obtain ⟨p, hp, h⟩ := Except.bind_eq_ok.mp h
    cases h
    exact ⟨set, Except.mapError_eq_ok.mp hset, rfl, hp, rfl⟩
  · rintro ⟨set, hset, hf, hp, hspan⟩
    obtain ⟨span, p, f⟩ := l
    obtain rfl : f = _ := hf
    obtain rfl : span = _ := hspan
    refine ⟨_, Except.bind_eq_ok.mpr ⟨set, Except.mapError_eq_ok.mpr hset, rfl⟩, ?_⟩
    exact Except.bind_eq_ok.mpr ⟨p, hp, rfl⟩

/-- A literal is given if it can be split and its parts can be read. -/
theorem parseLiteral_eq_ok {o : Options} {slice : Slice} {l : Literal} :
    parseLiteral o slice = .ok l ↔
      ∃ length, Literal.patternLength slice = .ok length ∧
        Literal.readParts o slice length = .ok l := by
  rw [parseLiteral, Except.mapError_eq_ok, Literal.read, Except.bind_eq_ok]

/-- A pattern and flags are read as the literal they make up. -/
theorem parseParts_eq_ok {o : Options} {source flags : Text} {l : Literal} :
    parseParts o source flags = .ok l ↔
      Literal.readParts o (.whole (Literal.join source flags)) source.length = .ok l := by
  rw [parseParts, Except.mapError_eq_ok]

/-- A request is answered with flags, or with a pattern that a pass gives, by itself or in a
literal. -/
theorem Request.pass_of_answer {o : Options} {q : Request} {n : Node} (h : q.answer o = .ok n) :
    (∃ f, n = .flags f) ∨ ∃ rule flags named c p scope,
      Pattern.pass rule o flags named c = .ok (p, scope) ∧
        (n = .pattern p ∨ ∃ l : Literal, l.pattern = p ∧ n = .literal l) := by
  have hparts : ∀ {whole length l}, Literal.readParts o whole length = .ok l →
      ∃ rule flags named c scope, Pattern.pass rule o flags named c = .ok (l.pattern, scope) := by
    intro whole length l hl
    obtain ⟨set, -, -, hp, -⟩ := Literal.readParts_eq_ok.mp hl
    obtain ⟨named, scope, hpass⟩ := Pattern.pass_of_read hp
    exact ⟨_, _, named, _, scope, hpass⟩
  cases q with
  | literal slice =>
    obtain ⟨l, hl, rfl⟩ := Except.map_eq_ok.mp h
    obtain ⟨length, -, hl⟩ := parseLiteral_eq_ok.mp hl
    obtain ⟨rule, flags, named, c, scope, hpass⟩ := hparts hl
    exact .inr ⟨rule, flags, named, c, l.pattern, scope, hpass, .inr ⟨l, rfl, rfl⟩⟩
  | parts source flagText =>
    obtain ⟨l, hl, rfl⟩ := Except.map_eq_ok.mp h
    obtain ⟨rule, flags, named, c, scope, hpass⟩ := hparts (parseParts_eq_ok.mp hl)
    exact .inr ⟨rule, flags, named, c, l.pattern, scope, hpass, .inr ⟨l, rfl, rfl⟩⟩
  | pattern choice slice =>
    obtain ⟨p, hp, rfl⟩ := Except.map_eq_ok.mp h
    obtain ⟨flags, -, hp⟩ := parsePattern_eq_ok.mp hp
    obtain ⟨named, scope, hpass⟩ := Pattern.pass_of_read hp
    exact .inr ⟨_, flags, named, _, p, scope, hpass, .inl rfl⟩
  | flags slice =>
    obtain ⟨f, -, rfl⟩ := Except.map_eq_ok.mp h
    exact .inl ⟨f, rfl⟩

end EcmaPattern
