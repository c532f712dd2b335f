import EcmaPattern.Proofs.Agreement.Names
import EcmaPattern.Proofs.FaultPlaces.Answers
import EcmaPattern.Proofs.FlagText
import EcmaPattern.Proofs.Relaxation.Passes
import EcmaPattern.Proofs.Scan
import EcmaPattern.Proofs.SetGrammar.Characters

/-!
# Numbers that are too long

No more than 4300 decimal digits are converted to a number. Where a bound or the number of a
reference has more, a call ends with neither a tree nor a diagnostic. Nothing else makes it end so:
the digits stand right before the place of the fault (`Pattern.isOfLongNumber_of_read`,
`Literal.isOfLongNumber_of_read`).

The bounds of `paddedBounds` are too long (`Pattern.read_paddedBounds`). Of hexadecimal digits there
may be any number. So the escape in a name can be padded with zeros, and
`paddedText` is a pattern with such a name in a reference. A pass that takes `\k` for a reference
reads it (`Pattern.pass_paddedText`). To a pass of the web grammar that takes `\k` for text, the
braces of the escape are bounds, and those are too long (`Pattern.pass_paddedText_as_text`).
-/

namespace EcmaPattern

open EcmaPattern.Parser

/-! ## Where they are found

Along all layers of a call, from the pass to the answer: if the fault says that a number is too
long, the digits stand there. -/

namespace Pattern

variable {rule : DuplicateRule} {o : Options} {flags : FlagSet} {named : Bool} {c : Cursor}
  {f : Fault} {n : Nat}

/-- A pass finds a number too long only behind its decimal digits. -/
theorem isOfLongNumber_of_pass (h : pass rule o flags named c = .error f)
    (hcause : f.cause = .tooManyDigits n) : f.IsOfLongNumber c := by
  rw [pass] at h
  split at h
  · cases h
  · cases h
    cases hcause
  · next hfault =>
    cases h
    rcases pattern_eq_fault hfault with hfound | ⟨qs, t, -, hend⟩
    · refine hfound.cause.resolve_left fun hterms => ?_
      rw [hcause] at hterms
      cases hterms
    · -- what stands behind the alternatives is a single character
      rw [endOfPattern] at hend
      split at hend
      · cases hend
      · cases hend
        dsimp only at hcause
        split at hcause
        · cases hcause
        · split at hcause
          · cases hcause
          · split at hcause
            · cases hcause
            · cases hcause

theorem isOfLongNumber_of_readUnder (h : readUnder rule o flags c = .error f)
    (hcause : f.cause = .tooManyDigits n) : f.IsOfLongNumber c := by
  rw [readUnder, Except.bind_eq_error] at h
  rcases h with h | ⟨⟨p, scope⟩, -, h⟩
  · exact isOfLongNumber_of_pass h hcause
  · dsimp only at h
    split at h
    · rcases Except.bind_eq_error.mp h with h | ⟨q, -, h⟩
      · exact isOfLongNumber_of_pass h hcause
      · cases h
    · cases h

/-- If a number is too long, then more digits than are converted stand right before the place where
this is found. -/
theorem isOfLongNumber_of_read {slice : Slice} (h : read o flags slice = .error f)
    (hcause : f.cause = .tooManyDigits n) : f.IsOfLongNumber (slice.cursor flags.unicodeMode) := by
  rw [read] at h
  split at h
  · cases h
    cases hcause
  · exact isOfLongNumber_of_readUnder h hcause

end Pattern

namespace Literal

variable {o : Options} {slice : Slice} {f : Fault} {n : Nat}

/-- A literal has a number that is too long only where one is written in its pattern. -/
theorem isOfLongNumber_of_readParts {length : Nat} (h : readParts o slice length = .error f)
    (hcause : f.cause = .tooManyDigits n) :
    ∃ paired, f.IsOfLongNumber ((body slice length).cursor paired) := by
  rw [readParts, Except.bind_eq_error] at h
  rcases h with h | ⟨flags, -, h⟩
  · rcases Except.bind_eq_error.mp h with h | ⟨set, -, h⟩
    · obtain ⟨e, he, rfl⟩ := Except.mapError_eq_error.mp h
      have hflags : e.cause.isOfFlags = true := FlagSet.cause_of_read he
      have hcause : e.cause = .tooManyDigits n := hcause
      rw [hcause] at hflags
      cases hflags
    · cases h
  · rcases Except.bind_eq_error.mp h with h | ⟨p, -, h⟩
    · exact ⟨_, Pattern.isOfLongNumber_of_read h hcause⟩
    · cases h

/-- No number stands in a literal but in its pattern. -/
theorem isOfLongNumber_of_read (h : read o slice = .error f)
    (hcause : f.cause = .tooManyDigits n) :
    ∃ length paired, f.IsOfLongNumber ((body slice length).cursor paired) := by
  rw [read, Except.bind_eq_error] at h
  rcases h with h | ⟨length, -, h⟩
  · rw [patternLength] at h
    split at h
    · cases h
      cases hcause
    · split at h
      · split at h
        · cases h
          cases hcause
        · obtain ⟨⟨cause, k⟩, hscan, rfl⟩ := Except.mapError_eq_error.mp h
          have hcause : cause = .tooManyDigits n := hcause
          rcases cause_of_bodyLength hscan with hscan | hscan
          · rw [hscan] at hcause
            cases hcause
          · rw [hscan] at hcause
            cases hcause
      · cases h
        cases hcause
  · exact ⟨length, isOfLongNumber_of_readParts h hcause⟩

end Literal

/-! ## Passes that come to one

A chain of terms that is read and then a term that overflows make the whole pass overflow. -/

section Passes

variable {g : Grammar} {s : State}

/-- If a term of the first alternative has a number that is too long, so has the disjunction. -/
theorem Parser.disjunction_overflows {depth : Nat}
    (h : RunsOver (term (charClass depth false) (nestedAt depth)) g
      (s.inScope GroupScope.enterDisjunction)) : (disjunction depth g s).Overflows := by
  have hfirst : (sequence (charClass depth false) (nestedAt depth) g
      (s.inScope GroupScope.enterDisjunction)).Overflows := by
    rw [sequence, here_bind]
    exact Overflows.bind (h.many (progresses_term g))
  have henter : modifyScope GroupScope.enterDisjunction g s =
      .done () (s.inScope GroupScope.enterDisjunction) := rfl
  rw [disjunction_eq_nestedAt, alternatives, bind_of_done henter]
  exact Overflows.bind hfirst

/-- Terms up to the end of the text are the only alternative. -/
theorem Parser.disjunction_of_terms {depth : Nat} {es : List Term} {t : State}
    (h : many (term (charClass depth false) (nestedAt depth)) g
      (s.inScope GroupScope.enterDisjunction) = .done es t) (ht : t.cursor.current = none) :
    disjunction depth g s =
      .done [.mk (.between s.cursor t.cursor) es] (t.inScope GroupScope.leaveDisjunction) := by
  have henter : modifyScope GroupScope.enterDisjunction g s =
      .done () (s.inScope GroupScope.enterDisjunction) := rfl
  have hsequence : sequence (charClass depth false) (nestedAt depth) g
      (s.inScope GroupScope.enterDisjunction) =
        .done (.mk (.between s.cursor t.cursor) es) t := by
    rw [sequence, here_bind, bind_of_done h]
    rfl
  have hbar : followingSequence (charClass depth false) (nestedAt depth) g t = .miss :=
    bind_of_miss (eat_eq_miss.mpr (by rw [ht]; decide))
  rw [disjunction_eq_nestedAt, alternatives, bind_of_done henter, bind_of_done hsequence,
    bind_of_done (many_none hbar), bind_of_done (noStrayQuantifier_of_closes (.inl ht))]
  rfl

end Passes

/-! ## A name with a padded escape

The padded escape is the same name as without the zeros. As bounds the same digits are too many. -/

/-- Digits of an `a`, after more zeros than there may be decimal digits. -/
def paddedDigits : List CodePoint := List.replicate 4300 (.ofChar '0') ++ [.ofChar '6', .ofChar '1']

/-- A reference to the group `a`, which is written as an escape. -/
def paddedReference : List CodePoint :=
  .ofChar '\\' :: .ofChar 'k' :: .ofChar '<' :: .ofChar '\\' :: .ofChar 'u' :: .ofChar '{' ::
    (paddedDigits ++ [.ofChar '}', .ofChar '>'])

/-- A letter that is repeated as often as the digits say. -/
def paddedBounds : List CodePoint :=
  .ofChar 'a' :: .ofChar '{' :: (paddedDigits ++ [.ofChar '}'])

def paddedText : Text := .ofCodePoints paddedReference ++ .ofString "(?<a>x)"

/-- The padded digits are digits in both bases that numbers are read in. -/
theorem digits_padded {base : Nat} (h : base = 10 ∨ base = 16) :
    Digits base paddedDigits (List.replicate 4300 0 ++ [6, 1]) := by
  rw [Digits, paddedDigits, List.map_append, List.map_append, List.map_replicate,
    List.map_replicate]
  rcases h with rfl | rfl <;> rfl

/-- Zeros in front do not change a hexadecimal number, however many there are. -/
theorem ofDigits_padded (k : Nat) (ds : List Nat) :
    ofDigits 16 (List.replicate k 0 ++ ds) = ofDigits 16 ds := by
  induction k with
  | zero => rfl
  | succ k ih => exact ih

theorem isPlain_paddedDigits : paddedDigits.all CodePoint.isPlain = true := by
  rw [paddedDigits, List.all_append, List.all_replicate]
  rfl

theorem isPlain_paddedBounds : paddedBounds.all CodePoint.isPlain = true := by
  simp only [paddedBounds, List.all_cons, List.all_append, isPlain_paddedDigits]
  rfl

theorem isPlain_paddedReference : paddedReference.all CodePoint.isPlain = true := by
  simp only [paddedReference, List.all_cons, List.all_append, isPlain_paddedDigits]
  rfl

section Padded

variable {g : Grammar} {s t : State} {cls : Parser CharSet} {inside : Nested}

/-- As bounds, the digits go on up to the closing brace. -/
theorem Parser.quantified_padded_overflows {mark : Cursor} {e : Term} {rest : List CodePoint}
    (hr : s.Reads (.ofChar '{' :: (paddedDigits ++ .ofChar '}' :: rest)) t) :
    (quantified mark e g s).Overflows := by
  obtain ⟨u, hopen, hr⟩ := State.reads_cons.mp hr
  obtain ⟨v, hdigits, hclose⟩ := State.reads_append.mp hr
  refine quantified_overflows (quantifier_overflows hopen.current_eq
    (bracedBounds_overflows false hopen ?_))
  refine number_overflows_of_digits (digits_padded (.inl rfl)) ?_ hdigits ?_
  · rw [List.length_append, List.length_replicate]
    decide
  · rw [hclose.current_eq]
    decide

/-- Where `\k` is text, the braces behind it are bounds. -/
theorem Parser.runsOver_padded (hg : g.exact = false) (hnames : g.namedReferences = false)
    (hcls : ∀ s : State, s.cursor.current ≠ some (.ofChar '[') → cls g s = .miss)
    (hr : s.Reads paddedReference t) : RunsOver (term cls inside) g s := by
  obtain ⟨a, hk, hr⟩ : ∃ a, s.Reads ['\\', 'k'] a ∧
      a.Reads (.ofChar '<' :: .ofChar '\\' :: .ofChar 'u' :: .ofChar '{' ::
        (paddedDigits ++ [.ofChar '}', .ofChar '>'])) t := State.reads_append.mp hr
  obtain ⟨b, hangle, hr⟩ := State.reads_cons.mp hr
  obtain ⟨c, hu, hr⟩ : ∃ c, b.Reads ['\\', 'u'] c ∧
      c.Reads (.ofChar '{' :: (paddedDigits ++ [.ofChar '}', .ofChar '>'])) t :=
    State.reads_append.mp hr
  obtain ⟨d, hopen, -⟩ := State.reads_cons.mp hr
  have ha : a.atQuantifier = false := by rw [State.atQuantifier, hangle.current_eq]; decide
  have hb : b.atQuantifier = false := by rw [State.atQuantifier, hu.current_eq]; decide
  have hletter : term cls inside g s = .done (characterTerm s a 'k') a :=
    (term_escaped_k hg hnames hk).trans (quantified_eq_self ha)
  have hbounds : bracedBounds true g a = .miss := by
    refine bracedBounds_eq_miss ?_
    rw [hangle.current_eq]
    decide
  have hbracket : term cls inside g a = .done (characterTerm a b '<') b :=
    (term_plain hg hcls hangle (by decide) hbounds).trans (quantified_eq_self hb)
  refine RunsOver.after (Overflows.runsOver ?_) (.cons hletter (.single hbracket))
  rw [term_escaped_u hg hu hopen.current_eq]
  exact quantified_padded_overflows hr

theorem Parser.nameCharacter_of_braces {test : CodePoint → Bool} {cs : List CodePoint}
    {ds : List Nat} {v : CodePoint} (hunicode : g.unicode = false)
    (hjoins : g.edition.supports .unicodeGroupNames = true) (hcs : Digits 16 cs ds) (hne : ds ≠ [])
    (hv : CodePoint.ofInt? (ofDigits 16 ds) = some v) (htest : test v = true)
    (hr : s.Reads (.ofChar '\\' :: .ofChar 'u' :: .ofChar '{' :: (cs ++ [.ofChar '}'])) t) :
    nameCharacter test g s = .done v t := by
  obtain ⟨u, hslash, hr⟩ := State.reads_cons.mp hr
  have hescape : unicodeEscape true g u = .done v t :=
    unicodeEscape_of_characterEscape hr.moves hr.current_eq (.braced hr.cursor hcs hne hv)
  rw [nameCharacter, grammar_bind, hunicode, hjoins,
    bind_of_done (satisfy_eq_done.mpr ⟨rfl, hslash⟩)]
  refine bind_eq_done.mpr ⟨v, t, orElse_of_done ?_, ?_⟩
  · exact require_bind_eq_done.mpr ⟨rfl, hescape⟩
  · rw [htest]
    rfl

/-- The name of the reference is the letter that its escape stands for. -/
theorem Parser.groupName_padded (hunicode : g.unicode = false)
    (hjoins : g.edition.supports .unicodeGroupNames = true)
    (hr : s.Reads (.ofChar '<' :: .ofChar '\\' :: .ofChar 'u' :: .ofChar '{' ::
      (paddedDigits ++ [.ofChar '}', .ofChar '>'])) t) : groupName g s = .done ['a'] t := by
  obtain ⟨u, hopen, hr⟩ := State.reads_cons.mp hr
  obtain ⟨v, hescape, hclose⟩ : ∃ v, u.Reads (.ofChar '\\' :: .ofChar 'u' :: .ofChar '{' ::
      (paddedDigits ++ [.ofChar '}'])) v ∧ v.Reads ['>'] t := by
    rw [← State.reads_append]
    simpa using hr
  have hvalue : CodePoint.ofInt? (ofDigits 16 (List.replicate 4300 0 ++ [6, 1])) =
      some (.ofChar 'a') := by
    rw [ofDigits_padded]
    rfl
  have hname : identifierName g u = .done ['a'] v := by
    have hfirst : nameCharacter CodePoint.isIdentifierStart g u = .done (.ofChar 'a') v :=
      nameCharacter_of_braces hunicode hjoins (digits_padded (.inr rfl))
        (List.append_ne_nil_of_right_ne_nil _ (List.cons_ne_nil _ _)) hvalue
        (by decide +kernel) hescape
    rw [identifierName, bind_of_done hfirst,
      bind_of_done (many_none (nameCharacter_eq_miss nameTest_part hclose.current_eq))]
    rfl
  rw [groupName, bind_of_done (eat_eq_done (x := ()).mpr hopen),
    bind_of_done (orElse_of_done hname),
    bind_of_done (orElse_of_done (eat_eq_done (x := ()).mpr hclose))]
  rfl

/-- Where `\k` begins a reference, the term ends with the name. -/
theorem Parser.term_padded (hnames : g.namedReferences = true) (hunicode : g.unicode = false)
    (hjoins : g.edition.supports .unicodeGroupNames = true) (hr : s.Reads paddedReference t)
    (ht : t.atQuantifier = false) :
    term cls inside g s =
      .done (.reference (.between s.cursor t.cursor) (.name ['a'] [])) t := by
  obtain ⟨u, hslash, hr⟩ := State.reads_cons.mp hr
  obtain ⟨v, hk, hr⟩ := State.reads_cons.mp hr
  have hcurrent := hk.current_eq
  have hnamed : namedReference s.cursor g u =
      .done (.reference (.between s.cursor t.cursor) (.name ['a'] [])) t := by
    rw [namedReference, grammar_bind, require_bind_eq_done]
    refine ⟨hnames, ?_⟩
    rw [bind_of_done (eat_eq_done (x := ()).mpr hk),
      bind_of_done (orElse_of_done (groupName_padded hunicode hjoins hr))]
    rfl
  -- the alternatives before the reference miss: a `k` is no digit and no set, and stands for
  -- nothing
  have hnumber : numberedReference s.cursor g u = .miss := by
    rw [numberedReference, sees_bind, require_bind_eq_miss]
    refine .inr (bind_of_miss ?_)
    rw [number_eq_miss, hcurrent]
    decide
  have hcharacter : characterEscape s.cursor g u = .miss :=
    bind_of_miss (escapedValue_k_eq_miss hnames hcurrent)
  have hescaped : escapedAtom g s =
      .done (.reference (.between s.cursor t.cursor) (.name ['a'] [])) t := by
    rw [escapedAtom, here_bind, bind_of_done (eat_eq_done (x := ()).mpr hslash), atomEscape,
      orElse_of_miss hnumber,
      orElse_of_miss (map_eq_miss.mpr (setEscape_eq_miss hcurrent (by decide) (by decide))),
      orElse_of_miss (map_eq_miss.mpr hcharacter)]
    exact orElse_of_done hnamed
  -- a backslash begins an assertion only with a `b` behind it
  have hassertion : assertion inside g s = .miss := by
    refine assertion_eq_miss ?_ ?_
    · rw [hslash.current_eq]
      rintro _ ⟨⟩
      decide
    · intro w hw
      obtain ⟨-, rfl⟩ := State.reads_singleton.mp hw
      obtain ⟨-, rfl⟩ := State.reads_singleton.mp hslash
      rw [hcurrent]
      decide
  have hany : anyCharacter g s = .miss :=
    anyCharacter_eq_miss (by rw [hslash.current_eq]; decide)
  rw [term, here_bind, grammar_bind, bind_of_done (attempt_of_miss hassertion)]
  -- both kinds of atoms come to the escape after a single miss
  cases hg : g.exact with
  | true =>
    have hatom : atom cls inside g s =
        .done (.reference (.between s.cursor t.cursor) (.name ['a'] [])) t := by
      rw [atom, orElse_of_miss hany]
      exact orElse_of_done hescaped
    exact (bind_of_done hatom).trans (quantified_eq_self ht)
  | false =>
    have hatom : webAtom cls inside g s =
        .done (.reference (.between s.cursor t.cursor) (.name ['a'] [])) t := by
      rw [webAtom, orElse_of_miss hany]
      exact orElse_of_done hescaped
    exact (bind_of_done hatom).trans (quantified_eq_self ht)

/-- The scan for groups passes over the reference. -/
theorem inert_paddedReference : Inert paddedReference := by
  have hdigits : Unmarked paddedDigits := (digits_padded (.inl rfl)).unmarked
  exact Unmarked.inert (.escaped _ (.cons rfl (.escaped _ (.cons rfl
    (hdigits.append (.cons rfl (.single rfl)))))))

theorem length_paddedReference : (Text.ofCodePoints paddedReference).length = 4310 := by
  have hlength : ∀ {cs : List CodePoint}, cs.all CodePoint.isPlain = true →
      (Text.ofCodePoints cs).length = cs.length := by
    intro cs h
    induction cs with
    | nil => rfl
    | cons c cs ih =>
      rw [List.all_cons, Bool.and_eq_true] at h
      obtain ⟨u, hencode, -⟩ := CodePoint.encode_of_isPlain h.1
      have hrest : (Text.ofCodePoints cs).length = cs.length := ih h.2
      simpa [Text.ofCodePoints, hencode] using hrest
  rw [hlength isPlain_paddedReference, paddedReference, paddedDigits]
  simp only [List.length_cons, List.length_append, List.length_replicate, List.length_nil]

end Padded

/-! ## The two passes

One theorem for each reading of the text, which differ in whether `\k` is a reference. -/

namespace Pattern

/-- Where `\k` begins a reference, the text is accepted, strict or not. -/
theorem pass_paddedText (strict : Bool) :
    ∃ p scope, pass .separated (.ofEdition .es2025 strict) {} true
        ((Slice.whole paddedText).cursor false) = .ok (p, scope) ∧ p.hasNamedGroup = true := by
  rw [Slice.cursor_whole]
  let o : Options := .ofEdition .es2025 strict
  let g : Grammar := ⟨.es2025, strict, false, false, true, 1⟩
  let s : State := (State.mk ⟨0, paddedText, false⟩ (.empty .separated) 0).inScope
    GroupScope.enterDisjunction
  let t : State := { s with cursor := ⟨4310, .ofString "(?<a>x)", false⟩ }
  have hr : s.Reads paddedReference t := by
    have hreads := State.reads_of_plain (s := s) isPlain_paddedReference rfl
    rw [length_paddedReference] at hreads
    exact hreads
  have hg : grammarFor o {} true ⟨0, paddedText, false⟩ = g := by
    have hscan : countCaptures false false (paddedText.characters false) = 1 :=
      inert_paddedReference.scan hr false
    rw [grammarFor, hscan]
    rfl
  -- what stands behind the reference is short
  have hrest : ∃ es u, many (term (charClass o.maxDepth false) (nestedAt o.maxDepth)) g t =
      .done es u ∧ (u.cursor.current.isNone && !u.scope.leaveDisjunction.isEmpty &&
        u.scope.leaveDisjunction.declares ['a'] &&
        (Term.referredNamesOfTerms es).isEmpty) = true := by
    refine Outcome.exists_eq_done ?_
    cases strict with
    | true => decide +kernel
    | false => decide +kernel
  obtain ⟨es, u, hes, hu⟩ := hrest
  simp only [Bool.and_eq_true, Option.isNone_iff_eq_none, Bool.not_eq_true',
    List.isEmpty_iff] at hu
  obtain ⟨⟨⟨hend, hgroups⟩, hdeclared⟩, hnames⟩ := hu
  have hfirst : term (charClass o.maxDepth false) (nestedAt o.maxDepth) g s =
      .done (.reference (.between s.cursor t.cursor) (.name ['a'] [])) t :=
    term_padded rfl rfl rfl hr (by decide)
  obtain ⟨all, hterms, hall⟩ : ∃ all, many (term (charClass o.maxDepth false)
      (nestedAt o.maxDepth)) g s = .done all u ∧
        Term.referredNamesOfTerms all = [[.ofChar 'a']] := by
    refine ⟨_, many_cons (progresses_term g) hfirst hes, ?_⟩
    rw [Term.referredNamesOfTerms, hnames]
    rfl
  have hdisjunction : disjunction o.maxDepth g ⟨⟨0, paddedText, false⟩, .empty .separated, 0⟩ =
      .done [.mk (.between s.cursor u.cursor) all] (u.inScope GroupScope.leaveDisjunction) :=
    disjunction_of_terms hterms hend
  obtain ⟨p, hpass⟩ : ∃ p, pass .separated o {} true ⟨0, paddedText, false⟩ =
      .ok (p, u.scope.leaveDisjunction) := by
    rw [← hg] at hdisjunction
    refine ⟨_, pass_eq_ok.mpr ⟨_, u.inScope GroupScope.leaveDisjunction, hdisjunction, hend, rfl,
      ?_, rfl⟩⟩
    rw [Term.referredNamesOfAll, Term.referredNamesOfSequence, hall]
    simpa [Term.referredNamesOfAll] using hdeclared
  have hnamed : u.scope.leaveDisjunction.isEmpty = !p.hasNamedGroup := isEmpty_of_pass hpass
  rw [hgroups] at hnamed
  exact ⟨p, _, hpass, by simpa using hnamed⟩

/-- Where `\k` is text, a number in the text is too long. -/
theorem pass_paddedText_as_text :
    ∃ f n, pass .separated (.ofEdition .es2025 false) {} false
        ((Slice.whole paddedText).cursor false) = .error f ∧ 4300 < n ∧
      f.cause = .tooManyDigits n := by
  rw [Slice.cursor_whole]
  let o : Options := .ofEdition .es2025 false
  let g : Grammar := grammarFor o {} false ⟨0, paddedText, false⟩
  let s : State := (State.mk ⟨0, paddedText, false⟩ (.empty .separated) 0).inScope
    GroupScope.enterDisjunction
  have hr := State.reads_of_plain (s := s) isPlain_paddedReference rfl
  obtain ⟨f, hf, n, hn, hcause⟩ : (disjunction o.maxDepth g
      ⟨⟨0, paddedText, false⟩, .empty .separated, 0⟩).Overflows := disjunction_overflows
    (runsOver_padded rfl rfl (fun _ => charClass_eq_miss) hr)
  exact ⟨f, n, pass_of_disjunction_fault hf, hn, hcause⟩

/-- The bounds of the letter are too long. -/
theorem read_paddedBounds :
    ∃ f n, read (.ofEdition .es2025 false) {} (.whole (.ofCodePoints paddedBounds)) = .error f ∧
      4300 < n ∧ f.cause = .tooManyDigits n := by
  let o : Options := .ofEdition .es2025 false
  let g : Grammar := grammarFor o {} false ⟨0, .ofCodePoints paddedBounds, false⟩
  let s : State := (State.mk ⟨0, .ofCodePoints paddedBounds, false⟩ (.empty .separated) 0).inScope
    GroupScope.enterDisjunction
  have hr := State.reads_of_plain (s := s) isPlain_paddedBounds (List.append_nil _).symm
  obtain ⟨u, hletter, hr⟩ := State.reads_cons.mp hr
  have hbounds : bracedBounds true g s = .miss :=
    bracedBounds_eq_miss (by rw [hletter.current_eq]; decide)
  have hterm : (term (charClass o.maxDepth false) (nestedAt o.maxDepth) g s).Overflows := by
    rw [term_plain rfl (fun _ => charClass_eq_miss) hletter (by decide) hbounds]
    exact quantified_padded_overflows hr
  obtain ⟨f, hf, n, hn, hcause⟩ : (disjunction o.maxDepth g
      ⟨⟨0, .ofCodePoints paddedBounds, false⟩, .empty .separated, 0⟩).Overflows :=
    disjunction_overflows (Overflows.runsOver hterm)
  have hpass : pass .separated o {} false ⟨0, .ofCodePoints paddedBounds, false⟩ = .error f :=
    pass_of_disjunction_fault hf
  refine ⟨f, n, ?_, hn, hcause⟩
  rw [read, Slice.cursor_whole]
  exact readUnder_of_pass_error hpass

end Pattern

end EcmaPattern
