import EcmaPattern.Proofs.DuplicateNames
import EcmaPattern.Proofs.Extension.Terms
import EcmaPattern.Proofs.FaultPlaces.Answers
import EcmaPattern.Proofs.FlagText
import EcmaPattern.Proofs.QuantifierText
import EcmaPattern.Proofs.ResolvedReferences

/-!
# Where patterns end

Alternatives are read for as long as a term, a bar or a quantifier can be read. So where they end is
known from where none of these begins (`disjunction_ends`): at the end of the text, at a closing
sign, or before a backslash with nothing to escape. For each of these there is a fault that names
it, so that no pattern is refused for an unexpected character, and a literal only for one that is
there.

Key lemmas:

* `declinesTerm_of_term`, on what lies ahead if no term can be read;
* `disjunction_ends`, which puts together what terms, bars and quantifiers leave;
* `Cause.eq_of_message`, by which the message tells the cause.
-/

namespace EcmaPattern

/-- Whether it is about what is written in patterns. -/
def Cause.isOfPatterns : Cause → Bool
  | .unterminatedLiteral | .emptyLiteral | .conflictingFlags => false
  | .invalidFlag _ | .unexpectedCharacter _ => false
  | _ => true

/-- What is found inside a disjunction is about patterns. -/
theorem Fault.FoundAfter.isOfPatterns {f : Fault} {c : Cursor} (h : f.FoundAfter c) :
    f.cause.isOfPatterns = true := by
  rcases h.cause with hterms | ⟨cs, -, -, -, -, -, -, -, hlong⟩
  · -- the causes of terms are causes of patterns
    cases hcause : f.cause with
    | unterminatedLiteral | emptyLiteral | conflictingFlags | invalidFlag | unexpectedCharacter =>
      rw [hcause] at hterms
      cases hterms
    | _ => rfl
  · rw [hlong]
    rfl

/-- No term begins here: there is nothing left, a sign stands here that only separates, repeats or
closes, or, by the grammar of the web, a backslash is all that is left. -/
inductive State.DeclinesTerm (g : Grammar) (s : State) : Prop
  | stop (h : s.cursor.current = none)
  | sign {c : CodePoint} (h : s.cursor.current = some c)
      (hc : c.isOneOf [')', '|', '*', '+', '?'] = true)
  | bracket {c : CodePoint} (hg : g.exact = true) (h : s.cursor.current = some c)
      (hc : c.isOneOf [']', '{', '}'] = true)
  | backslash (hg : g.exact = false) (h : s.cursor.ahead = [0x5C])

/-- Alternatives can end here. -/
inductive State.EndsAlternatives (g : Grammar) (s : State) : Prop
  | stop (h : s.cursor.current = none)
  | parenthesis (h : s.cursor.current = some (.ofChar ')'))
  | bracket {c : CodePoint} (hg : g.exact = true) (h : s.cursor.current = some c)
      (hc : c.isOneOf [']', '}'] = true)
  | backslash (hg : g.exact = false) (h : s.cursor.ahead = [0x5C])

namespace Parser

variable {g : Grammar} {s t : State}

/-! ## Terms

Everything may begin a term but the few signs of `DeclinesTerm`. So the first character is gone
through, and for each of the others one of the alternatives does not miss. -/

section Terms

variable {cls : Parser CharSet} {inside : Nested} (hinside : ∀ mark, NeverMisses (inside mark))

include hinside

/-- A parenthesis always begins a group, or is a fault. -/
theorem group_ne_miss (h : s.cursor.current = some (.ofChar '(')) : group inside g s ≠ .miss := by
  have hplain : ∀ mark m, NeverMisses (plainGroup inside mark m) := fun mark m =>
    (hinside mark).bind fun _ => NeverMisses.bind (.orElse _ fun _ _ => fail_ne_miss) fun _ =>
      (neverMisses_spanFrom mark).bind fun _ => neverMisses_pure _
  have hmodified : ∀ mark, NeverMisses (modifiedGroup inside mark) := by
    refine fun mark => (neverMisses_attempt _).bind fun o => ?_
    cases o with
    | some m => exact hplain mark (some m)
    | none => exact fun _ _ => failAt_ne_miss
  have hnamed : ∀ mark u, u.cursor.current = some (.ofChar '<') →
      namedGroup inside mark g u ≠ .miss := by
    intro mark u hbracket hmiss
    rcases bind_eq_miss.mp hmiss with hmiss | ⟨name, v, -, hmiss⟩
    -- once the bracket has been read, the name is there or is a fault
    · rcases eat_bind_eq_miss.mp hmiss with hne | ⟨w, -, hmiss⟩
      · exact hne hbracket
      · refine NeverMisses.bind (.orElse _ fun _ _ => fail_ne_miss) (fun name => ?_) g w hmiss
        exact NeverMisses.bind (.orElse _ fun _ _ => fail_ne_miss) fun _ => neverMisses_pure name
    · change (if v.scope.conflicts name then fail .duplicateGroupName
        else capturingGroup inside mark (some name) : Parser Term) g v = .miss at hmiss
      split at hmiss
      · cases hmiss
      · exact capturingGroup_neverMisses hinside mark _ g v hmiss
  intro hmiss
  rw [group, here_bind] at hmiss
  rcases eat_bind_eq_miss.mp hmiss with hne | ⟨u, -, hmiss⟩
  · exact hne h
  rcases bind_eq_miss.mp hmiss with hmiss | ⟨question, v, -, hmiss⟩
  · exact ((neverMisses_attempt _).bind fun _ => neverMisses_pure _) g u hmiss
  cases question with
  | false => exact capturingGroup_neverMisses hinside _ none g v hmiss
  | true =>
    rcases bind_eq_miss.mp hmiss with hmiss | ⟨colon, w, -, hmiss⟩
    · exact ((neverMisses_attempt _).bind fun _ => neverMisses_pure _) g v hmiss
    cases colon with
    | true => exact hplain _ none g w hmiss
    | false =>
      rw [if_neg Bool.false_ne_true, supports_bind, sees_bind] at hmiss
      split at hmiss
      · next hname =>
        rw [Bool.and_eq_true, beq_iff_eq, Cursor.peek_zero] at hname
        exact hnamed _ w hname.2 hmiss
      · exact hmodified _ g w hmiss

omit hinside in
/-- No term is read where there is neither an assertion nor an atom. -/
theorem parts_eq_miss_of_term (h : term cls inside g s = .miss) :
    assertion inside g s = .miss ∧
      (if g.exact then atom cls inside else webAtom cls inside) g s = .miss := by
  cases ha : assertion inside g s with
  | done e u =>
    rw [term_of_assertion ha] at h
    split at h
    · exact absurd h (neverMisses_quantified _ e g u)
    · cases h
  | miss =>
    rw [term_of_atom ha] at h
    rcases bind_eq_miss.mp h with h | ⟨e, u, -, h⟩
    · exact ⟨rfl, h⟩
    · exact absurd h (neverMisses_quantified _ e g u)
  | fault f =>
    rw [term, here_bind, grammar_bind, bind_apply, attempt, ha] at h
    cases h

omit hinside in
/-- The signs of edges are assertions. -/
theorem current_ne_edge (h : assertion inside g s = .miss) :
    s.cursor.current ≠ some (.ofChar '^') ∧ s.cursor.current ≠ some (.ofChar '$') := by
  obtain ⟨hedge, -⟩ := orElse_eq_miss.mp h
  rw [edgeAssertion, here_bind] at hedge
  have hsign : ∀ {d : CodePoint} {e : Edge},
      (do eat d; return e : Parser Edge) g s = .miss → s.cursor.current ≠ some d := by
    intro d e h
    rcases eat_bind_eq_miss.mp h with hne | ⟨_, _, h⟩
    · exact hne
    · cases h
  rcases bind_eq_miss.mp hedge with hedge | ⟨_, _, -, hedge⟩
  · obtain ⟨hstart, hstop⟩ := orElse_eq_miss.mp hedge
    exact ⟨hsign hstart, hsign hstop⟩
  · cases hedge

omit hinside in
/-- A dot is an atom. -/
theorem current_ne_dot (h : anyCharacter g s = .miss) : s.cursor.current ≠ some (.ofChar '.') := by
  rw [anyCharacter, here_bind] at h
  rcases eat_bind_eq_miss.mp h with hne | ⟨_, _, h⟩
  · exact hne
  · cases h

omit hinside in
/-- A character is an atom if the grammar has no other use for it. -/
theorem test_of_plainCharacter {test : CodePoint → Bool} (h : plainCharacter test g s = .miss)
    {c : CodePoint} (hc : s.cursor.current = some c) : test c = false := by
  rw [plainCharacter, here_bind] at h
  rcases bind_eq_miss.mp h with h | ⟨_, _, -, h⟩
  · exact satisfy_eq_miss.mp h c hc
  · cases h

omit hinside in
/-- By the grammar of the web, a backslash begins no atom only if nothing follows it: a character
that may not be escaped is a `c`, before which the backslash stands for itself, or the `k` of a
named reference. -/
theorem ahead_of_backslash (hg : g.exact = false) (hescaped : escapedAtom g s = .miss)
    (hlonely : lonelyBackslash g s = .miss) (hc : s.cursor.current = some (.ofChar '\\')) :
    s.cursor.ahead = [0x5C] := by
  obtain ⟨u, hu⟩ : ∃ u, s.Reads ['\\'] u := ⟨_, State.reads_singleton.mpr ⟨hc, rfl⟩⟩
  rw [escapedAtom, here_bind] at hescaped
  have hatom : atomEscape s.cursor g u = .miss := by
    rcases eat_bind_eq_miss.mp hescaped with hne | ⟨v, hv, hmiss⟩
    · exact absurd hc hne
    · rw [(State.reads_singleton.mp hu).2, ← (State.reads_singleton.mp hv).2]
      exact hmiss
  rw [lonelyBackslash, here_bind] at hlonely
  have hletter : u.cursor.current ≠ some (.ofChar 'c') := by
    rcases eat_bind_eq_miss.mp hlonely with hne | ⟨v, hv, hmiss⟩
    · exact absurd hc hne
    · rw [sees_bind, require_bind_eq_miss, Cursor.peek_zero, beq_eq_false_iff_ne] at hmiss
      rw [(State.reads_singleton.mp hu).2, ← (State.reads_singleton.mp hv).2]
      exact hmiss.resolve_right fun h => by cases h
  obtain ⟨-, hmiss⟩ := orElse_eq_miss.mp hatom
  obtain ⟨-, hmiss⟩ := orElse_eq_miss.mp hmiss
  obtain ⟨hcharacter, hmiss⟩ := orElse_eq_miss.mp hmiss
  obtain ⟨hnamed, -⟩ := orElse_eq_miss.mp hmiss
  -- the last alternative of an escape takes almost any character, so its miss says the most
  have hidentity : identityEscape g u = .miss := by
    have hvalue : escapedValue g u = .miss := by
      rcases bind_eq_miss.mp (map_eq_miss.mp hcharacter) with hvalue | ⟨_, _, -, hvalue⟩
      · exact hvalue
      · cases hvalue
    rw [escapedValue, grammar_bind] at hvalue
    simp only [orElse_eq_miss] at hvalue
    exact hvalue.2.2.2.2.2.2
  -- a character it does not take is a `c` or a `k`, and each of these has an alternative of its own
  have hnone : u.cursor.current = none := by
    rw [Option.eq_none_iff_forall_ne_some]
    intro c hcur
    rw [identityEscape, grammar_bind] at hidentity
    have htest := satisfy_eq_miss.mp hidentity c hcur
    rw [Grammar.exact, Bool.or_eq_false_iff] at hg
    simp only [isIdentityEscape, hg.1, hg.2, Bool.false_eq_true, if_false] at htest
    split at htest
    · next hnames =>
      simp only [CodePoint.isOneOf, List.any_cons, List.any_nil, Bool.or_false, Bool.not_eq_false',
        Bool.or_eq_true, beq_iff_eq] at htest
      rcases htest with rfl | rfl
      · exact hletter hcur
      · exact namedReference_ne_miss hnames hcur hnamed
    · simp only [CodePoint.isOneOf, List.any_cons, List.any_nil, Bool.or_false, Bool.not_eq_false',
        beq_iff_eq] at htest
      exact hletter (htest ▸ hcur)
  have hahead := hu.cursor.ahead
  rw [Cursor.current_eq_none.mp hnone] at hahead
  rw [hahead]
  decide

variable (hcls : ∀ s, s.cursor.current = some (.ofChar '[') → cls g s ≠ .miss)

include hcls

/-- Where no term is read, none begins. -/
theorem declinesTerm_of_term (h : term cls inside g s = .miss) : s.DeclinesTerm g := by
  cases hcur : s.cursor.current with
  | none => exact .stop hcur
  | some c =>
    obtain ⟨hassertion, hatom⟩ := parts_eq_miss_of_term h
    have hne : ∀ {d : CodePoint}, s.cursor.current ≠ some d → c ≠ d := by
      rintro d hd rfl
      exact hd hcur
    obtain ⟨hcaret, hdollar⟩ := current_ne_edge hassertion
    -- where a class or a group could begin, missing means that its sign is not there
    have hclass : cls g s = .miss → s.cursor.current ≠ some (.ofChar '[') :=
      fun hmiss hbracket => hcls s hbracket hmiss
    have hgroup : group inside g s = .miss → s.cursor.current ≠ some (.ofChar '(') :=
      fun hmiss hparen => group_ne_miss hinside hparen hmiss
    cases hg : g.exact with
    | true =>
      rw [hg, if_pos rfl, atom] at hatom
      simp only [orElse_eq_miss, map_eq_miss] at hatom
      obtain ⟨hany, hescaped, hset, hparen, hplain⟩ := hatom
      -- no plain character either, so one of the reserved signs; those that begin something are out
      have hsyntax := test_of_plainCharacter hplain hcur
      have hslash := hne (current_ne_slash hg hescaped)
      have hdot := hne (current_ne_dot hany)
      have hbracket := hne (hclass hset)
      have hparenthesis := hne (hgroup hparen)
      simp only [CodePoint.isSyntaxCharacter, CodePoint.isOneOf, List.any_cons, List.any_nil,
        Bool.or_false, Bool.not_eq_false', Bool.or_eq_true, beq_iff_eq] at hsyntax
      by_cases hsign : c.isOneOf [')', '|', '*', '+', '?'] = true
      · exact .sign hcur hsign
      · refine .bracket hg hcur ?_
        simp only [CodePoint.isOneOf, List.any_cons, List.any_nil, Bool.or_false, Bool.or_eq_true,
          beq_iff_eq] at hsign ⊢
        have hcaret := hne hcaret
        have hdollar := hne hdollar
        grind
    | false =>
      rw [hg, if_neg Bool.false_ne_true, webAtom] at hatom
      simp only [orElse_eq_miss, map_eq_miss] at hatom
      obtain ⟨hany, hescaped, hlonely, hset, hparen, -, hplain⟩ := hatom
      -- the web grammar reserves fewer signs, and a backslash only hangs at the end
      have hreserved := test_of_plainCharacter hplain hcur
      have hdot := hne (current_ne_dot hany)
      have hbracket := hne (hclass hset)
      have hparenthesis := hne (hgroup hparen)
      simp only [CodePoint.isReservedInWebGrammar, CodePoint.isOneOf, List.any_cons, List.any_nil,
        Bool.or_false, Bool.not_eq_false', Bool.or_eq_true, beq_iff_eq] at hreserved
      by_cases hslash : c = .ofChar '\\'
      · exact .backslash hg (ahead_of_backslash hg hescaped hlonely (hslash ▸ hcur))
      · refine .sign hcur ?_
        simp only [CodePoint.isOneOf, List.any_cons, List.any_nil, Bool.or_false, Bool.or_eq_true,
          beq_iff_eq]
        have hcaret := hne hcaret
        have hdollar := hne hdollar
        grind

end Terms

/-! ## Alternatives

The end of alternatives is where neither a bar nor a quantifier lies ahead, and no term. -/

theorem neverMisses_nestedAt (depth : Nat) (mark : Cursor) : NeverMisses (nestedAt depth mark) := by
  cases depth with
  | zero => exact fun g s => failAt_ne_miss (g := g) (s := s)
  | succ depth => exact disjunction_neverMisses depth

/-- A bracket always begins a class, or is a fault. -/
theorem charClass_ne_miss (depth : Nat) (nested : Bool)
    (h : s.cursor.current = some (.ofChar '[')) : charClass depth nested g s ≠ .miss := by
  cases depth with
  | zero =>
    intro hmiss
    rw [charClass, here_bind] at hmiss
    rcases eat_bind_eq_miss.mp hmiss with hne | ⟨_, _, hmiss⟩
    · exact hne h
    · cases hmiss
  | succ depth => exact classBody_ne_miss h

section Alternatives

variable {depth : Nat}

/-- An alternative ends where no term can be read. -/
theorem term_eq_miss_of_sequence {q : Sequence}
    (h : sequence (charClass depth false) (nestedAt depth) g s = .done q t) :
    term (charClass depth false) (nestedAt depth) g t = .miss := by
  obtain ⟨es, hes, -⟩ := sequence_eq_done h
  exact ((many_eq_done (progresses_term g)).mp hes).2

/-- However many alternatives follow, the last ends where no term can be read. -/
theorem term_eq_miss_of_followingSequences {qs : List Sequence}
    (h : Chain (fun s q t =>
      followingSequence (charClass depth false) (nestedAt depth) g s = .done q t) s qs t)
    (hs : term (charClass depth false) (nestedAt depth) g s = .miss) :
    term (charClass depth false) (nestedAt depth) g t = .miss := by
  induction h with
  | nil s => exact hs
  | cons head _ ih =>
    obtain ⟨u, -, hq⟩ := followingSequence_eq_done head
    exact ih (term_eq_miss_of_sequence hq)

/-- Behind the last alternative no bar stands. -/
theorem current_ne_bar
    (h : followingSequence (charClass depth false) (nestedAt depth) g s = .miss) :
    s.cursor.current ≠ some (.ofChar '|') := by
  rcases eat_bind_eq_miss.mp h with hne | ⟨u, -, h⟩
  · exact hne
  · exact absurd h (((neverMisses_modifyScope _).bind fun _ => sequence_neverMisses _ _) g u)

/-- Where nothing is found to repeat nothing, no sign of a quantifier stands. -/
theorem atQuantifier_of_noStrayQuantifier {x : Unit} (h : noStrayQuantifier g s = .done x t) :
    s.atQuantifier = false := by
  have hquantifier := noStrayQuantifier_ends h
  have hbrace : s.cursor.current ≠ some (.ofChar '{') := by
    rcases orElse_eq_done.mp h with h | ⟨-, h⟩
    · obtain ⟨_, _, -, h⟩ := bind_eq_done.mp h
      exact absurd h fail_ne_done
    · rcases orElse_eq_done.mp h with h | ⟨h, -⟩
      · obtain ⟨_, -, h⟩ := eat_bind_eq_done.mp h
        exact absurd h fail_ne_done
      · rcases eat_bind_eq_miss.mp h with hne | ⟨_, _, h⟩
        · exact hne
        · cases h
  have hsign : ∀ {d : CodePoint} {b : Bounds}, Bounds.WrittenAs b [d] →
      s.cursor.current ≠ some d := fun hb hd =>
    hquantifier ⟨_, _, _, hb, Cursor.characters_eq_cons hd⟩
  rw [Bool.eq_false_iff, State.atQuantifier, Ne, Option.any_eq_true]
  rintro ⟨c, hcur, hc⟩
  simp only [CodePoint.isOneOf, List.any_cons, List.any_nil, Bool.or_false, Bool.or_eq_true,
    beq_iff_eq] at hc
  rcases hc with rfl | rfl | rfl | rfl
  · exact hsign .star hcur
  · exact hsign .plus hcur
  · exact hsign .question hcur
  · exact hbrace hcur

/-- Alternatives end at the end, at a sign that closes something, or before a backslash that is all
that is left. -/
theorem disjunction_ends {qs : List Sequence} (h : disjunction depth g s = .done qs t) :
    t.EndsAlternatives g := by
  rw [disjunction_eq_nestedAt, alternatives] at h
  obtain ⟨_, u₁, -, h⟩ := bind_eq_done.mp h
  obtain ⟨q, u₂, hq, h⟩ := bind_eq_done.mp h
  obtain ⟨rest, u₃, hrest, h⟩ := bind_eq_done.mp h
  obtain ⟨_, u₄, hstray, h⟩ := bind_eq_done.mp h
  obtain rfl := noStrayQuantifier_eq_done hstray
  obtain ⟨_, u₅, hleave, h⟩ := bind_eq_done.mp h
  obtain ⟨-, rfl⟩ := Outcome.done.inj hleave
  obtain ⟨-, rfl⟩ := pure_eq_done.mp h
  obtain ⟨hchain, hbar⟩ :=
    (many_eq_done (progresses_followingSequence (progresses_term g))).mp hrest
  have hbar := current_ne_bar hbar
  have hterm := term_eq_miss_of_followingSequences hchain (term_eq_miss_of_sequence hq)
  obtain ⟨hstar, hplus, hquestion, hbrace⟩ :=
    State.atQuantifier_eq_false (atQuantifier_of_noStrayQuantifier hstray)
  cases declinesTerm_of_term (neverMisses_nestedAt depth) (fun _ => charClass_ne_miss depth false)
    hterm with
  | stop hcur => exact .stop hcur
  | sign hcur hc =>
    simp only [CodePoint.isOneOf, List.any_cons, List.any_nil, Bool.or_false, Bool.or_eq_true,
      beq_iff_eq] at hc
    rw [hcur] at hbar hstar hplus hquestion
    rcases hc with rfl | rfl | rfl | rfl | rfl
    · exact .parenthesis hcur
    · exact absurd rfl hbar
    · exact absurd rfl hstar
    · exact absurd rfl hplus
    · exact absurd rfl hquestion
  | bracket hg hcur hc =>
    simp only [CodePoint.isOneOf, List.any_cons, List.any_nil, Bool.or_false, Bool.or_eq_true,
      beq_iff_eq] at hc
    rw [hcur] at hbrace
    rcases hc with rfl | rfl | rfl
    · exact .bracket hg hcur (by decide)
    · exact absurd rfl hbrace
    · exact .bracket hg hcur (by decide)
  | backslash hg hahead => exact .backslash hg hahead

end Alternatives

/-- What is left when alternatives have been read is a fault with a name of its own. -/
theorem cause_of_endOfPattern {f : Fault} (ht : t.EndsAlternatives g)
    (h : endOfPattern g t = .fault f) : f.cause.isOfPatterns = true := by
  rw [endOfPattern] at h
  cases ht with
  | stop hcur =>
    rw [hcur] at h
    cases h
  | parenthesis hcur =>
    rw [hcur] at h
    cases h
    rfl
  | bracket _ hcur hc =>
    simp only [CodePoint.isOneOf, List.any_cons, List.any_nil, Bool.or_false, Bool.or_eq_true,
      beq_iff_eq] at hc
    rw [hcur] at h
    rcases hc with rfl | rfl
    · cases h
      rfl
    · cases h
      rfl
  | backslash _ hahead =>
    have hcur : t.cursor.current = some (.ofChar '\\') := by
      rw [Cursor.current, hahead]
      show some (CodePoint.ofUnit 0x5C) = _
      decide
    rw [hcur] at h
    cases h
    rfl

/-- Whatever is wrong with a pattern, it is nothing that a pattern has no name for. -/
theorem cause_of_pattern {depth : Nat} {f : Fault} (h : pattern depth g s = .fault f) :
    f.cause.isOfPatterns = true := by
  rcases pattern_eq_fault h with hfound | ⟨qs, t, hqs, hend⟩
  · exact hfound.isOfPatterns
  · exact cause_of_endOfPattern (disjunction_ends hqs) hend

end Parser

open EcmaPattern.Parser

/-! ## Passes

What follows a pattern is looked at once more, and each character at which alternatives may end has
its own fault there. -/

namespace Pattern

variable {rule : DuplicateRule} {o : Options} {flags : FlagSet} {named : Bool} {f : Fault}

/-- What is wrong with a pattern is about patterns, apart from what is left behind it. -/
theorem cause_of_pass {c : Cursor} (h : pass rule o flags named c = .error f) :
    f.cause.isOfPatterns = true := by
  rw [pass] at h
  split at h
  · cases h
  · next hmiss => exact absurd hmiss (pattern_neverMisses o.maxDepth _ _)
  · next hfault =>
    cases h
    exact cause_of_pattern hfault

theorem cause_of_readUnder {c : Cursor} (h : readUnder rule o flags c = .error f) :
    f.cause.isOfPatterns = true := by
  rw [readUnder, Except.bind_eq_error] at h
  rcases h with h | ⟨⟨p, scope⟩, -, h⟩
  · exact cause_of_pass h
  · dsimp only at h
    split at h
    · rcases Except.bind_eq_error.mp h with h | ⟨q, -, h⟩
      · exact cause_of_pass h
      · cases h
    · cases h

/-- Flags that exclude each other are refused before the pattern is looked at. -/
theorem cause_of_read {slice : Slice} (h : read o flags slice = .error f) :
    f.cause.isOfFlags = true ∨ f.cause.isOfPatterns = true := by
  rw [read] at h
  split at h
  · cases h
    exact .inl rfl
  · exact .inr (cause_of_readUnder h)

/-- Where the alternatives of a pattern end, told from the options and the flags. -/
theorem disjunction_ends {slice : Slice} (hstop : slice.stop ≤ slice.text.length)
    {qs : List Sequence} {t : State} {ch : CodePoint}
    (h : disjunction o.maxDepth (grammarFor o flags named (slice.cursor flags.unicodeMode))
      ⟨slice.cursor flags.unicodeMode, .empty rule, 0⟩ = .done qs t)
    (hcur : t.cursor.current = some ch) :
    ch = .ofChar ')' ∨
      (o.strict || flags.unicodeMode) = true ∧ (ch = .ofChar ']' ∨ ch = .ofChar '}') ∨
      (o.strict || flags.unicodeMode) = false ∧ ch = .ofChar '\\' ∧
        t.cursor.index + 1 = slice.stop := by
  cases Parser.disjunction_ends h with
  | stop hnone =>
    rw [hnone] at hcur
    cases hcur
  | parenthesis hparen =>
    rw [hparen] at hcur
    exact .inl (Option.some.inj hcur).symm
  | bracket hg hbracket hc =>
    rw [hbracket] at hcur
    obtain rfl := Option.some.inj hcur
    simp only [CodePoint.isOneOf, List.any_cons, List.any_nil, Bool.or_false, Bool.or_eq_true,
      beq_iff_eq] at hc
    exact .inr (.inl ⟨hg, hc.imp Eq.symm Eq.symm⟩)
  | backslash hg hahead =>
    have hholds : slice.Holds flags.unicodeMode t.cursor := by
      have hafter := disjunction_staysAfter
        (g := grammarFor o flags named (slice.cursor flags.unicodeMode)) o.maxDepth
        ⟨slice.cursor flags.unicodeMode, .empty rule, 0⟩ (.refl _)
      rwa [h] at hafter
    have hlength := congrArg (fun c : Cursor => c.ahead.length) hholds.eq_cursorAt
    simp only [hahead, Slice.cursorAt, Text.slice, List.length_drop, List.length_take,
      List.length_singleton] at hlength
    have hslash : t.cursor.current = some (.ofChar '\\') := by
      rw [Cursor.current, hahead]
      show some (CodePoint.ofUnit 0x5C) = _
      decide
    rw [hslash] at hcur
    exact .inr (.inr ⟨hg, (Option.some.inj hcur).symm, by omega⟩)

end Pattern

/-! ## Literals

What a literal begins with can be unexpected, and what its body begins with; behind these nothing
can, since the body is cut out before it is parsed. -/

namespace Literal

variable {o : Options} {slice : Slice} {f : Fault}

/-- What is wrong with a literal that can be split is about flags or about patterns. -/
theorem cause_of_readParts {length : Nat} (h : readParts o slice length = .error f) :
    f.cause.isOfFlags = true ∨ f.cause.isOfPatterns = true := by
  rw [readParts, Except.bind_eq_error] at h
  rcases h with h | ⟨flags, -, h⟩
  · rcases Except.bind_eq_error.mp h with h | ⟨set, -, h⟩
    · obtain ⟨e, he, rfl⟩ := Except.mapError_eq_error.mp h
      have hcause : e.cause.isOfFlags = true := FlagSet.cause_of_read he
      exact .inl hcause
    · cases h
  · rcases Except.bind_eq_error.mp h with h | ⟨p, -, h⟩
    · exact Pattern.cause_of_read h
    · cases h

/-- A literal in which no pattern is found between slashes is not closed, or begins with a character
that is out of place; that character is there. -/
theorem cause_of_patternLength (hlt : slice.start < slice.stop)
    (hstop : slice.stop ≤ slice.text.length) (h : patternLength slice = .error f) :
    f.cause = .unterminatedClass ∨ f.cause = .unterminatedLiteral ∨
      ∃ ch, f.cause = .unexpectedCharacter ch ∧
        (slice.cursorAt false f.index).current = some ch := by
  have hlength := Slice.length_content ⟨Nat.le_of_lt hlt, hstop⟩
  have hcurrent : ∀ k u, slice.content[k]? = some u →
      (slice.cursorAt false (slice.start + k)).current = some (.ofUnit u) := by
    intro k u hu
    have hdrop : (slice.cursorAt false (slice.start + k)).ahead = slice.content.drop k :=
      List.drop_drop.symm
    obtain ⟨hk, rfl⟩ := List.getElem?_eq_some_iff.mp hu
    rw [Cursor.current, hdrop, List.drop_eq_getElem_cons hk]
    cases slice.content.drop (k + 1) <;> rfl
  rw [patternLength] at h
  cases hcontent : slice.content with
  | nil =>
    rw [hcontent, List.length_nil] at hlength
    omega
  | cons u body =>
    rw [hcontent] at hcurrent
    simp only [hcontent] at h
    split at h
    · split at h
      · next v hv =>
        cases h
        refine .inr (.inr ⟨_, rfl, hcurrent 1 v ?_⟩)
        rw [Option.filter_eq_some_iff, List.head?_eq_getElem?] at hv
        exact hv.1
      · obtain ⟨⟨cause, k⟩, hscan, rfl⟩ := Except.mapError_eq_error.mp h
        exact (cause_of_bodyLength hscan).imp_right .inl
    · cases h
      exact .inr (.inr ⟨_, rfl, hcurrent 0 u rfl⟩)

/-- A literal that is not empty is never called empty, and if a character of it is unexpected, that
character is there. -/
theorem cause_of_read (hlt : slice.start < slice.stop) (hstop : slice.stop ≤ slice.text.length)
    (h : read o slice = .error f) :
    f.cause ≠ .emptyLiteral ∧
      ∀ ch, f.cause = .unexpectedCharacter ch →
        (slice.cursorAt false f.index).current = some ch := by
  rw [read, Except.bind_eq_error] at h
  rcases h with h | ⟨length, -, h⟩
  · rcases cause_of_patternLength hlt hstop h with hcause | hcause | ⟨ch, hcause, hcurrent⟩
    · rw [hcause]
      exact ⟨by decide, by rintro _ ⟨⟩⟩
    · rw [hcause]
      exact ⟨by decide, by rintro _ ⟨⟩⟩
    · rw [hcause]
      refine ⟨by rintro ⟨⟩, ?_⟩
      rintro _ ⟨⟩
      exact hcurrent
  · refine ⟨fun hcause => ?_, fun ch hcause => ?_⟩ <;>
      rcases cause_of_readParts h with hfalse | hfalse <;>
      · rw [hcause] at hfalse
        cases hfalse

end Literal

/-! ## Answers -/

/-- Only an unexpected character is reported in the words for one. -/
theorem Cause.eq_of_message {cause : Cause} {ch : CodePoint}
    (h : cause.message = (unexpectedCharacter ch).message) :
    ∃ c, cause = .unexpectedCharacter c := by
  -- the first three letters tell the wording from all others
  have hnaming : ∀ (what : String) (c : CodePoint), 3 ≤ (Text.ofString what).length →
      (naming what c).take 3 = (Text.ofString what).take 3 := by
    intro what c hle
    rw [naming, List.append_assoc, List.append_assoc]
    exact List.take_append_of_le_length hle
  have htake := congrArg (List.take 3) h
  rw [message, hnaming _ _ (by decide)] at htake
  cases cause with
  | unexpectedCharacter c => exact ⟨c, rfl⟩
  | invalidFlag c =>
    rw [message, hnaming _ _ (by decide)] at htake
    exact absurd htake (by decide)
  | duplicatedFlag c =>
    rw [message, hnaming _ _ (by decide)] at htake
    exact absurd htake (by decide)
  | tooManyDigits n =>
    rw [message, List.append_assoc, List.take_append_of_le_length (by decide)] at htake
    exact absurd htake (by decide)
  | _ => exact absurd htake (by decide +kernel)

/-- No other cause is worded as an unexpected character is. -/
theorem Cause.message_ne_unexpected {cause : Cause}
    (h : cause.isOfFlags = true ∨ cause.isOfPatterns = true) (ch : CodePoint) :
    cause.message ≠ (unexpectedCharacter ch).message := by
  intro hmessage
  obtain ⟨c, rfl⟩ := eq_of_message hmessage
  rcases h with hfalse | hfalse <;> cases hfalse

/-- The alternatives of a pattern end at the end of what is read, at a closing parenthesis, by an
exact grammar at a closing bracket or brace, and by the grammar of the web before a backslash that
is the last unit. So whichever pass reads it, no pattern is refused for an unexpected character, and
no diagnostic says so. A literal that is not empty is not called empty, and can be refused for a
character only if that character stands where the fault is. -/
theorem unexpected_characters_are_there (o : Options) :
    (∀ rule flags named (slice : Slice) qs t ch, slice.stop ≤ slice.text.length →
      disjunction o.maxDepth (Pattern.grammarFor o flags named (slice.cursor flags.unicodeMode))
        ⟨slice.cursor flags.unicodeMode, .empty rule, 0⟩ = .done qs t →
      t.cursor.current = some ch →
      ch = .ofChar ')' ∨
        (o.strict || flags.unicodeMode) = true ∧ (ch = .ofChar ']' ∨ ch = .ofChar '}') ∨
        (o.strict || flags.unicodeMode) = false ∧ ch = .ofChar '\\' ∧
          t.cursor.index + 1 = slice.stop) ∧
    (∀ rule flags named c f ch, Pattern.pass rule o flags named c = .error f →
      f.cause ≠ .unexpectedCharacter ch) ∧
    (∀ choice slice d ch, parsePattern o choice slice = .error d →
      d.message ≠ (Cause.unexpectedCharacter ch).message) ∧
    (∀ source flags d ch, parseParts o source flags = .error d →
      d.message ≠ (Cause.unexpectedCharacter ch).message) ∧
    ∀ (slice : Slice) f, slice.start < slice.stop → slice.stop ≤ slice.text.length →
      Literal.read o slice = .error f →
      f.cause ≠ .emptyLiteral ∧
        ∀ ch, f.cause = .unexpectedCharacter ch →
          (slice.cursorAt false f.index).current = some ch := by
  refine ⟨?_, ?_, ?_, ?_, ?_⟩
  · intro rule flags named slice qs t ch hstop h hcur
    exact Pattern.disjunction_ends hstop h hcur
  · intro rule flags named c f ch h hcause
    -- all causes of a pass are causes of patterns, and this is none of them
    have hfalse := Pattern.cause_of_pass h
    rw [hcause] at hfalse
    cases hfalse
  · intro choice slice d ch h
    rw [parsePattern, Except.bind_eq_error] at h
    rcases h with h | ⟨flags, -, h⟩
    · cases choice with
      | set flags => cases h
      | text letters =>
        obtain ⟨e, he, rfl⟩ := Except.mapError_eq_error.mp h
        obtain ⟨f, hf, rfl⟩ := Except.mapError_eq_error.mp he
        exact Cause.message_ne_unexpected (.inl (FlagSet.cause_of_read hf)) ch
    · obtain ⟨f, hf, rfl⟩ := Except.mapError_eq_error.mp h
      rw [Failure.message_ofFault]
      exact Cause.message_ne_unexpected (Pattern.cause_of_read hf) ch
  · intro source flags d ch h
    obtain ⟨f, hf, rfl⟩ := Except.mapError_eq_error.mp h
    rw [Failure.message_ofFault]
    exact Cause.message_ne_unexpected (Literal.cause_of_readParts hf) ch
  · intro slice f hlt hstop h
    exact Literal.cause_of_read hlt hstop h

theorem unexpected_characters_are_there_at_once :
    (∃ qs t, disjunction Options.defaultMaxDepth.toNat
        (Pattern.grammarFor (.ofEdition .es2025 false) {} false
          (Slice.cursor ⟨.ofString "x(a|b)\\y", 1, 7⟩ false))
        ⟨Slice.cursor ⟨.ofString "x(a|b)\\y", 1, 7⟩ false, .empty .separated, 0⟩ = .done qs t ∧
      t.cursor.current = some (.ofChar '\\') ∧ t.cursor.index + 1 = 7) ∧
    (∃ d, parsePattern (.ofEdition .es2025 false) (.text ['v'])
        (.whole (.ofString "a]")) = .error d ∧
      ∀ ch, d.message ≠ (Cause.unexpectedCharacter ch).message) ∧
    ∃ f, Literal.read (.ofEdition .es2025 false) ⟨.ofString "x/*/", 1, 4⟩ = .error f ∧
      f.cause ≠ .emptyLiteral ∧ ∃ ch, f.cause = .unexpectedCharacter ch ∧
        (Slice.cursorAt ⟨.ofString "x/*/", 1, 4⟩ false f.index).current = some ch := by
  obtain ⟨hends, -, hpattern, -, hliteral⟩ :=
    unexpected_characters_are_there (.ofEdition .es2025 false)
  refine ⟨?_, ?_, ?_⟩
  -- the slice is hidden behind a name, so that only the evaluation unfolds it
  · obtain ⟨slice, hslice⟩ : ∃ slice, slice = Slice.mk (.ofString "x(a|b)\\y") 1 7 := ⟨_, rfl⟩
    obtain ⟨qs, t, hqs, hcur⟩ := Outcome.exists_eq_done
      (x := disjunction Options.defaultMaxDepth.toNat
        (Pattern.grammarFor (.ofEdition .es2025 false) {} false (slice.cursor false))
        ⟨slice.cursor false, .empty .separated, 0⟩)
      (f := fun _ t => t.cursor.current == some (.ofChar '\\'))
      (by rw [hslice]; decide +kernel)
    have hcur := eq_of_beq hcur
    have hlength : slice.stop ≤ slice.text.length := by
      rw [hslice]
      decide +kernel
    rw [← hslice]
    refine ⟨qs, t, hqs, hcur, ?_⟩
    rcases hends .separated {} false slice qs t _ hlength hqs hcur with
      hfalse | ⟨-, hfalse | hfalse⟩ | ⟨-, -, hindex⟩
    · exact absurd hfalse (by decide)
    · exact absurd hfalse (by decide)
    · exact absurd hfalse (by decide)
    · rw [hindex, hslice]
  · obtain ⟨d, hd⟩ : ∃ d, parsePattern (.ofEdition .es2025 false) (.text ['v'])
        (.whole (.ofString "a]")) = .error d := Except.exists_eq_error (by decide +kernel)
    exact ⟨d, hd, fun ch => hpattern _ _ d ch hd⟩
  · have hf : Literal.read (.ofEdition .es2025 false) ⟨.ofString "x/*/", 1, 4⟩ =
        .error ⟨.unexpectedCharacter (.ofUnit 0x2A), 2⟩ := by rfl
    obtain ⟨hempty, hthere⟩ := hliteral _ _ (by decide) (by decide +kernel) hf
    exact ⟨_, hf, hempty, _, rfl, hthere _ rfl⟩

end EcmaPattern
