import EcmaPattern.Proofs.Nesting
import EcmaPattern.Proofs.Relaxation.Classes

/-!
# Named references as text

Where `\k` begins no named reference, the grammar of the web reads the text of one all the same, as
terms of other kinds (`reference_text`): an escaped letter, angle brackets, and the characters of
the name. Among these a dollar sign becomes an edge, and the braces of an escape can become the
bounds of a quantifier. None of these terms is a group or refers to one.

There is one way in which this can go wrong. Between the braces of an escape there may be any number
of leading zeros; taken for bounds, the digits are decimal ones, and these can be too many.

The reading is put together from single terms. `ReadsBare` says that some terms without groups and
references lead from one state to another; `FallsApart` allows in addition that a number runs over
on the way. The text of a reference is followed character by character, and at each of them one has
to know that no quantifier begins behind it.
-/

namespace EcmaPattern

def State.atQuantifier (s : State) : Bool := s.cursor.current.any (·.isOneOf ['*', '+', '?', '{'])

theorem State.atQuantifier_eq_false {s : State} (h : s.atQuantifier = false) :
    s.cursor.current ≠ some (.ofChar '*') ∧ s.cursor.current ≠ some (.ofChar '+') ∧
      s.cursor.current ≠ some (.ofChar '?') ∧ s.cursor.current ≠ some (.ofChar '{') := by
  rw [atQuantifier] at h
  refine ⟨?_, ?_, ?_, ?_⟩ <;> intro hc <;> rw [hc] at h <;> exact absurd h (by decide)

/-- Whether a quantifier may begin is told by the first character. -/
theorem State.Reads.atQuantifier {s t : State} {c : CodePoint} {cs : List CodePoint}
    (h : s.Reads (c :: cs) t) : s.atQuantifier = c.isOneOf ['*', '+', '?', '{'] := by
  rw [State.atQuantifier, h.current_eq]
  rfl

/-- What lies ahead is not a character for which a test turns out otherwise. -/
theorem State.current_ne {s : State} {test : CodePoint → Bool} {b : Bool}
    (h : ∀ c, s.cursor.current = some c → test c = b) {d : CodePoint}
    (hd : test d = !b) : s.cursor.current ≠ some d := by
  intro hcur
  simp [h d hcur] at hd

/-- A character with no meaning of its own in the grammar of the web. -/
def CodePoint.isUnreserved (c : CodePoint) : Bool :=
  !c.isOneOf ['^', '$', '\\', '.', '*', '+', '?', '(', ')', '[', '|', '{']

namespace CodePoint

variable {c : CodePoint}

/-- An unreserved character may stand for itself in the web grammar. -/
theorem isReservedInWebGrammar_eq_false (h : c.isUnreserved = true) :
    c.isReservedInWebGrammar = false :=
  isOneOf_eq_false isUnreserved h rfl

/-- Digits are unreserved. -/
theorem isUnreserved_of_digit {base : Nat} (h : (c.digit? base).isSome = true) :
    c.isUnreserved = true := by
  rw [isUnreserved, Bool.not_eq_true']
  exact isOneOf_eq_false (·.hexValue?.isSome) (isSome_hexValue? h) rfl

/-- The dollar sign is the only character of names that is reserved. -/
theorem isUnreserved_of_identifier (h : c.isIdentifierStart ∨ c.isIdentifierPart)
    (hne : c ≠ .ofChar '$') : c.isUnreserved = true := by
  have hdollar : (CodePoint.ofChar '$' == c) = false := beq_eq_false_iff_ne.mpr hne.symm
  have hother : c.isOneOf ['^', '\\', '.', '*', '+', '?', '(', ')', '[', '|', '{'] = false :=
    isOneOf_eq_false isNameLike (isNameLike_of_identifier h) rfl
  simp only [isUnreserved, isOneOf, List.any_cons, hdollar, Bool.false_or] at hother ⊢
  rw [hother]
  rfl

end CodePoint

/-! ## Names that a tree refers to

The recursions that collect names, in the form of maps over lists, and that resolving changes no
name. -/

namespace Term

/-- The names that terms refer to are those of each term, in order. -/
theorem referredNamesOfTerms_eq_flatMap (es : List Term) :
    referredNamesOfTerms es = es.flatMap referredNames := by
  induction es with
  | nil => simp [referredNamesOfTerms]
  | cons e es ih => rw [referredNamesOfTerms, ih, List.flatMap_cons]

theorem referredNamesOfAll_eq_flatMap (qs : List Sequence) :
    referredNamesOfAll qs = qs.flatMap referredNamesOfSequence := by
  induction qs with
  | nil => simp [referredNamesOfAll]
  | cons q qs ih => rw [referredNamesOfAll, ih, List.flatMap_cons]

variable (f : GroupName → List Nat)

mutual

/-- A reference keeps its name when it is resolved. -/
theorem referredNames_resolve (e : Term) : (e.resolve f).referredNames = e.referredNames := by
  cases e with
  | reference span target => cases target <;> simp [resolve, referredNames]
  | look span direction negated qs =>
    simpa [resolve, referredNames] using referredNamesOfAll_resolve qs
  | group span m qs => simpa [resolve, referredNames] using referredNamesOfAll_resolve qs
  | capture span index name qs =>
    simpa [resolve, referredNames] using referredNamesOfAll_resolve qs
  | quantified span r e => simpa [resolve, referredNames] using referredNames_resolve e
  | _ => simp [resolve, referredNames]

theorem referredNamesOfTerms_resolve (es : List Term) :
    referredNamesOfTerms (resolveTerms f es) = referredNamesOfTerms es := by
  cases es with
  | nil => simp [resolveTerms]
  | cons e es =>
    simp only [resolveTerms, referredNamesOfTerms]
    rw [referredNames_resolve e, referredNamesOfTerms_resolve es]

theorem referredNamesOfSequence_resolve (q : Sequence) :
    referredNamesOfSequence (resolveSequence f q) = referredNamesOfSequence q := by
  cases q with
  | mk span es =>
    simp only [resolveSequence, referredNamesOfSequence]
    exact referredNamesOfTerms_resolve es

theorem referredNamesOfAll_resolve (qs : List Sequence) :
    referredNamesOfAll (resolveAll f qs) = referredNamesOfAll qs := by
  cases qs with
  | nil => simp [resolveAll]
  | cons q qs =>
    simp only [resolveAll, referredNamesOfAll]
    rw [referredNamesOfSequence_resolve q, referredNamesOfAll_resolve qs]

end

end Term

/-! ## Parts of a tree without groups and references

To be `Bare` is to have no groups and no references, to be flat, and to have nothing nested. It
composes, so that terms one after the other are bare if each is. -/

namespace Piece

def referredNames : Piece → List GroupName
  | term e => e.referredNames
  | terms es => Term.referredNamesOfTerms es
  | sequence q => Term.referredNamesOfSequence q
  | alternatives qs => Term.referredNamesOfAll qs
  | disjunction qs => Term.referredNamesOfAll qs
  | _ => []

theorem captures_append (es fs : List Term) :
    (terms (es ++ fs)).captures = (terms es).captures ++ (terms fs).captures := by
  simp [captures, nodes]

theorem referredNames_append (es fs : List Term) :
    (terms (es ++ fs)).referredNames = (terms es).referredNames ++ (terms fs).referredNames := by
  induction es with
  | nil => simp [referredNames, Term.referredNamesOfTerms]
  | cons e es ih =>
    simp only [referredNames, List.cons_append, Term.referredNamesOfTerms] at ih ⊢
    rw [ih, List.append_assoc]

/-- Nothing nests in the part of a tree, no group is in it and no reference to one by name. -/
structure Bare (x : Piece) : Prop where
  captures : x.captures = []
  beneath : ∀ levels, x.beneath levels = []
  names : x.referredNames = []

namespace Bare

theorem nil : Bare (terms []) :=
  ⟨rfl, fun _ => rfl, by simp [referredNames, Term.referredNamesOfTerms]⟩

/-- Terms without groups and references may be put one after the other. -/
theorem append {es fs : List Term} (h : Bare (terms es)) (h' : Bare (terms fs)) :
    Bare (terms (es ++ fs)) := by
  constructor
  · rw [captures_append, h.captures, h'.captures]
    rfl
  · intro levels
    rw [beneath_append, h.beneath, h'.beneath]
    rfl
  · rw [referredNames_append, h.names, h'.names]
    rfl

theorem single {e : Term} (h : Bare (term e)) : Bare (terms [e]) := by
  constructor
  · rw [captures_terms, h.captures]
    rfl
  · intro levels
    rw [beneath_terms, h.beneath]
    rfl
  · simpa [referredNames, Term.referredNamesOfTerms] using h.names

theorem character (c : Character) : Bare (term (.set (.character c))) :=
  ⟨captures_set _, fun levels => by simp, by simp [referredNames, Term.referredNames]⟩

theorem edge (span : Span) (e : Edge) : Bare (term (.edge span e)) :=
  ⟨captures_leaf rfl rfl, fun levels => beneath_leafTerm levels rfl rfl,
    by simp [referredNames, Term.referredNames]⟩

theorem quantified {e : Term} (h : Bare (term e)) (span : Span) (r : Repetition) :
    Bare (term (.quantified span r e)) := by
  constructor
  · rw [captures_quantified, h.captures]
  · intro levels
    rw [beneath_quantified, h.beneath]
  · simpa [referredNames, Term.referredNames] using h.names

end Bare

end Piece

namespace Parser

variable {g : Grammar} {s t u : State}

/-! ## What a quantifier begins with

A quantifier begins with one of four signs. Where none of these lies ahead, a term stays as it is.
-/

/-- Where no quantifier may begin, none is read. -/
theorem quantifier_eq_miss {lenient : Bool} (h : s.atQuantifier = false) :
    quantifier lenient g s = .miss := by
  obtain ⟨hstar, hplus, hquestion, hbrace⟩ := State.atQuantifier_eq_false h
  apply bind_of_miss
  rw [quantifierBounds, orElse_of_miss (bind_of_miss (eat_eq_miss.mpr hstar)),
    orElse_of_miss (bind_of_miss (eat_eq_miss.mpr hplus)),
    orElse_of_miss (bind_of_miss (eat_eq_miss.mpr hquestion))]
  exact bind_of_miss (eat_eq_miss.mpr hbrace)

/-- Where no quantifier may begin, a term stays what it is. -/
theorem quantified_eq_self {mark : Cursor} {e : Term} (h : s.atQuantifier = false) :
    quantified mark e g s = .done e s := by
  rw [quantified, bind_of_done (attempt_of_miss (quantifier_eq_miss h))]
  rfl

theorem quantified_overflows {mark : Cursor} {e : Term} (h : (quantifier false g s).Overflows) :
    (quantified mark e g s).Overflows := Overflows.bind (Overflows.attempt h)

/-! ## What no assertion begins with

Terms are assertions or atoms, and assertions are tried first, so for every term below it has to be
shown that no assertion begins with its first character. -/

/-- Two signs are missed if the second does not follow the first. -/
theorem eatAll_pair_eq_miss {c d : Char}
    (h : ∀ t, s.Reads [.ofChar c] t → t.cursor.current ≠ some (.ofChar d)) :
    eatAll [c, d] g s = .miss := by
  rw [eatAll_eq_miss, List.map_cons, List.map_singleton, Cursor.eat?]
  split
  · next hc =>
    rw [Cursor.eat?, if_neg]
    exact h _ (State.reads_singleton.mpr ⟨hc, rfl⟩)
  · rfl

theorem lookaround_eq_miss {inside : Nested} (h : s.cursor.current ≠ some (.ofChar '(')) :
    lookaround inside g s = .miss := by
  rw [lookaround, here_bind]
  apply bind_of_miss
  rw [lookOpening]
  apply bind_of_miss
  apply eatAll_pair_eq_miss
  intro t hr
  exact absurd hr.current_eq h

/-- A character that begins no assertion is none. -/
theorem assertion_eq_miss {inside : Nested}
    (h : ∀ c, s.cursor.current = some c → c.isOneOf ['^', '$', '('] = false)
    (hword : ∀ t, s.Reads ['\\'] t →
      t.cursor.current ≠ some (.ofChar 'b') ∧ t.cursor.current ≠ some (.ofChar 'B')) :
    assertion inside g s = .miss := by
  have hedge : edgeAssertion g s = .miss := by
    rw [edgeAssertion, here_bind]
    apply bind_of_miss
    rw [orElse_eq_miss]
    exact ⟨bind_of_miss (eat_eq_miss.mpr (State.current_ne h rfl)),
      bind_of_miss (eat_eq_miss.mpr (State.current_ne h rfl))⟩
  have hboundary : wordBoundary g s = .miss := by
    rw [wordBoundary, here_bind]
    apply bind_of_miss
    rw [orElse_eq_miss]
    exact ⟨bind_of_miss (eatAll_pair_eq_miss fun t hr => (hword t hr).2),
      bind_of_miss (eatAll_pair_eq_miss fun t hr => (hword t hr).1)⟩
  rw [assertion, orElse_of_miss hedge, orElse_of_miss hboundary]
  exact lookaround_eq_miss (State.current_ne h rfl)

/-! ## What no atom begins with

Of the alternatives of an atom all but one must miss. Each of them asks for a first character that
is not the one at hand. -/

theorem anyCharacter_eq_miss (h : s.cursor.current ≠ some (.ofChar '.')) :
    anyCharacter g s = .miss := by
  rw [anyCharacter, here_bind, bind_of_miss (eat_eq_miss.mpr h)]

theorem escapedAtom_eq_miss (h : s.cursor.current ≠ some (.ofChar '\\')) :
    escapedAtom g s = .miss := by
  rw [escapedAtom, here_bind, bind_of_miss (eat_eq_miss.mpr h)]

theorem lonelyBackslash_eq_miss (h : s.cursor.current ≠ some (.ofChar '\\')) :
    lonelyBackslash g s = .miss := by
  rw [lonelyBackslash, here_bind, bind_of_miss (eat_eq_miss.mpr h)]

theorem group_eq_miss {inside : Nested} (h : s.cursor.current ≠ some (.ofChar '(')) :
    group inside g s = .miss := by
  rw [group, here_bind, bind_of_miss (eat_eq_miss.mpr h)]

theorem charClass_eq_miss {depth : Nat} {nested : Bool}
    (h : s.cursor.current ≠ some (.ofChar '[')) : charClass depth nested g s = .miss := by
  cases depth with
  | zero =>
    rw [charClass, here_bind, bind_of_miss (eat_eq_miss.mpr h)]
  | succ depth =>
    rw [charClass, classBody, here_bind, bind_of_miss (eat_eq_miss.mpr h)]

theorem bracedBounds_eq_miss {lenient : Bool} (h : s.cursor.current ≠ some (.ofChar '{')) :
    bracedBounds lenient g s = .miss := by
  rw [bracedBounds, bind_of_miss (eat_eq_miss.mpr h)]

/-! ## Single characters as terms

A character that stands for itself, and the dollar sign, which as a term is an edge. -/

def characterTerm (s t : State) (v : CodePoint) : Term :=
  .set (.character ⟨.between s.cursor t.cursor, v⟩)

section Text

variable (hg : g.exact = false) {cls : Parser CharSet} {inside : Nested}
  (hcls : ∀ s : State, s.cursor.current ≠ some (.ofChar '[') → cls g s = .miss)

include hg

/-- A term of the web grammar is an atom and what follows it, if no assertion begins. -/
theorem term_of_webAtom {e : Term} (ha : assertion inside g s = .miss)
    (he : webAtom cls inside g s = .done e t) :
    term cls inside g s = quantified s.cursor e g t := by
  rw [term, here_bind, grammar_bind, bind_of_done (attempt_of_miss ha)]
  simp only [hg, Bool.false_eq_true, if_false]
  rw [bind_of_done he]

omit hg in
/-- A dollar sign is read as the end of the input. -/
theorem term_edge (hr : s.Reads ['$'] t) :
    term cls inside g s = .done (.edge (.between s.cursor t.cursor) .stop) t := by
  have hcur := hr.current_eq
  have hedge : edgeAssertion g s = .done (.edge (.between s.cursor t.cursor) .stop) t := by
    rw [edgeAssertion, here_bind, bind_of_done (a := Edge.stop) (u := t)]
    · rfl
    · rw [orElse_of_miss (bind_of_miss (eat_eq_miss.mpr (by rw [hcur]; decide)))]
      exact bind_of_done (eat_eq_done (x := ()).mpr hr)
  have hassertion : assertion inside g s = .done (.edge (.between s.cursor t.cursor) .stop) t :=
    orElse_of_done hedge
  rw [term, here_bind, grammar_bind, bind_of_done (attempt_of_done hassertion)]
  simp only [Term.isLookahead, Bool.and_false, Bool.false_eq_true, if_false]
  rfl

include hcls

/-- A character that is not reserved is read, with the quantifier after it. A brace must not begin
bounds. -/
theorem term_plain {c : CodePoint} (hr : s.Reads [c] t) (hc : c.isReservedInWebGrammar = false)
    (hbounds : bracedBounds true g s = .miss) :
    term cls inside g s = quantified s.cursor (characterTerm s t c) g t := by
  have hplain : ∀ d, s.cursor.current = some d → d.isReservedInWebGrammar = false := by
    rw [hr.current_eq]
    rintro _ ⟨⟩
    exact hc
  have hstray : strayBounds g s = .miss := bind_of_miss hbounds
  apply term_of_webAtom hg
  · apply assertion_eq_miss
    · intro d hd
      exact CodePoint.isOneOf_eq_false (!·.isReservedInWebGrammar) (by rw [hplain d hd]; rfl) rfl
    · intro u hu
      exact absurd hu.current_eq (State.current_ne hplain rfl)
  · rw [webAtom, orElse_of_miss (anyCharacter_eq_miss (State.current_ne hplain rfl)),
      orElse_of_miss (escapedAtom_eq_miss (State.current_ne hplain rfl)),
      orElse_of_miss (lonelyBackslash_eq_miss (State.current_ne hplain rfl)),
      orElse_of_miss (map_eq_miss.mpr (hcls s (State.current_ne hplain rfl))),
      orElse_of_miss (group_eq_miss (State.current_ne hplain rfl)),
      orElse_of_miss hstray, plainCharacter, here_bind,
      bind_of_done (satisfy_eq_done.mpr ⟨by rw [hc]; rfl, hr⟩)]
    exact map_eq_done.mpr ⟨_, characterSetFrom_eq_done.mpr ⟨rfl, rfl⟩, rfl⟩

/-! ## Escaped characters as terms

By code units `\k` and `\u` can be letters, and an escape with four digits is still an escape. -/

omit hg hcls in
theorem zeroEscape_eq_miss (h : s.cursor.current ≠ some (.ofChar '0')) :
    zeroEscape g s = .miss := by
  rw [zeroEscape]
  split
  · rfl
  · exact bind_of_miss (eat_eq_miss.mpr h)

omit hg hcls in
/-- The escapes that a letter other than those of the first kinds can begin. -/
theorem escapedValue_of_letter {c : CodePoint} (hc : s.cursor.current = some c)
    (hcontrol : controlValue? c = none)
    (hne : c.isOneOf ['c', '0', 'x'] = false) :
    escapedValue g s = (unicodeEscape g.unicode <|> (do require !g.exact; legacyOctal)
      <|> identityEscape : Parser CodePoint) g s := by
  have hother : ∀ d, s.cursor.current = some d → d.isOneOf ['c', '0', 'x'] = false := by
    rw [hc]
    rintro _ ⟨⟩
    exact hne
  have hselect : controlEscape g s = .miss := by
    rw [controlEscape, select_eq_miss, hc]
    exact hcontrol
  have hletter : controlLetter g s = .miss :=
    bind_of_miss (eat_eq_miss.mpr (State.current_ne hother rfl))
  have hhex : hexEscape g s = .miss := bind_of_miss (eat_eq_miss.mpr (State.current_ne hother rfl))
  rw [escapedValue, grammar_bind, orElse_of_miss hselect, orElse_of_miss hletter,
    orElse_of_miss (zeroEscape_eq_miss (State.current_ne hother rfl)), orElse_of_miss hhex]

omit hg hcls in
/-- Where no Unicode escape begins, a letter stands for itself. -/
theorem escapedValue_identity {c : CodePoint} (hr : s.Reads [c] t)
    (hidentity : isIdentityEscape g c = true) (hu : unicodeEscape g.unicode g s = .miss)
    (hcontrol : controlValue? c = none)
    (hne : c.isOneOf ['c', '0', 'x'] = false)
    (hdigit : c.digit? 8 = none) : escapedValue g s = .done c t := by
  have hcur := hr.current_eq
  have hoctal : (do require !g.exact; legacyOctal : Parser CodePoint) g s = .miss := by
    refine require_bind_eq_miss.mpr (.inr (bind_of_miss ?_))
    rw [digit, select_eq_miss, hcur]
    exact hdigit
  rw [escapedValue_of_letter hcur hcontrol hne, orElse_of_miss hu, orElse_of_miss hoctal,
    identityEscape, grammar_bind]
  exact satisfy_eq_done.mpr ⟨hidentity, hr⟩

omit hcls in
/-- A letter after a backslash that begins no other kind of term stands for a character. -/
theorem term_escaped {c v : CodePoint} (hslash : s.Reads ['\\'] u)
    (hc : u.cursor.current = some c) (hv : escapedValue g u = .done v t)
    (hb : c.isOneOf ['b', 'B'] = false) (hdigit : c.digit? 10 = none)
    (hset : escapeSet? c = none) (hproperty : propertyLetter? c = none) :
    term cls inside g s = quantified s.cursor (characterTerm s t v) g t := by
  have hcur := hslash.current_eq
  -- the alternatives before characters miss on the letter
  have hnumber : numberedReference s.cursor g u = .miss := by
    rw [numberedReference, sees_bind, require_bind_eq_miss]
    refine .inr (bind_of_miss ?_)
    rw [number_eq_miss, hc]
    exact hdigit
  have hescaped : escapedAtom g s = .done (characterTerm s t v) t := by
    rw [escapedAtom, here_bind, bind_of_done (eat_eq_done (x := ()).mpr hslash), atomEscape,
      orElse_of_miss hnumber,
      orElse_of_miss (map_eq_miss.mpr (setEscape_eq_miss hc hset hproperty))]
    apply orElse_of_done
    refine map_eq_done.mpr ⟨⟨.between s.cursor t.cursor, v⟩, ?_, rfl⟩
    rw [characterEscape, bind_of_done hv]
    rfl
  apply term_of_webAtom hg
  · apply assertion_eq_miss
    · rw [hcur]
      rintro _ ⟨⟩
      decide
    · intro w hw
      obtain ⟨-, rfl⟩ := State.reads_singleton.mp hw
      obtain ⟨-, rfl⟩ := State.reads_singleton.mp hslash
      rw [hc]
      constructor
      · rintro ⟨⟩
        exact absurd hb (by decide)
      · rintro ⟨⟩
        exact absurd hb (by decide)
  · rw [webAtom, orElse_of_miss (anyCharacter_eq_miss (by rw [hcur]; decide))]
    exact orElse_of_done hescaped

omit hcls in
/-- An escaped `k` stands for itself where it is no reference. -/
theorem escapedValue_k (hN : g.namedReferences = false) (hr : s.Reads ['k'] t) :
    escapedValue g s = .done 'k' t := by
  refine escapedValue_identity hr ?_ ?_ rfl rfl rfl
  · rw [Grammar.exact, Bool.or_eq_false_iff] at hg
    simp only [isIdentityEscape, hg.1, hg.2, hN, Bool.false_eq_true, if_false]
    decide
  · apply bind_of_miss
    rw [eat_eq_miss, hr.current_eq]
    decide

omit hcls in
/-- A term that begins with an escaped `k` is the letter, where that is no reference. -/
theorem term_escaped_k (hN : g.namedReferences = false) (hr : s.Reads ['\\', 'k'] t) :
    term cls inside g s = quantified s.cursor (characterTerm s t 'k') g t := by
  obtain ⟨u, hslash, hk⟩ := State.reads_cons.mp hr
  exact term_escaped hg hslash hk.current_eq (escapedValue_k hg hN hk) rfl rfl rfl
    rfl

omit hcls in
/-- By code units an escaped `u` before a brace stands for itself. -/
theorem term_escaped_u (hr : s.Reads ['\\', 'u'] t)
    (hnext : t.cursor.current = some (.ofChar '{')) :
    term cls inside g s = quantified s.cursor (characterTerm s t 'u') g t := by
  obtain ⟨v, hslash, hu⟩ := State.reads_cons.mp hr
  have hcur := hu.current_eq
  have hexact := hg
  rw [Grammar.exact, Bool.or_eq_false_iff] at hexact
  refine term_escaped hg hslash hcur (escapedValue_identity hu ?_ ?_ rfl rfl rfl) rfl rfl rfl rfl
  · simp only [isIdentityEscape, hexact.1, hexact.2, Bool.false_eq_true, if_false]
    cases g.namedReferences <;> decide
  · -- a brace is no hexadecimal digit, and braces are read only by code points
    have hhex : fixedHex 4 g t = .miss := by
      refine map_eq_miss.mpr (bind_of_miss ?_)
      rw [digit, select_eq_miss, hnext]
      decide
    rw [unicodeEscape, bind_of_done (eat_eq_done (x := ()).mpr hu), hexact.2]
    rw [orElse_of_miss (require_bind_eq_miss.mpr (.inl rfl)),
      orElse_of_miss (map_eq_miss.mpr hhex), orElse_of_miss (require_bind_eq_miss.mpr (.inl rfl)),
      grammar_bind, hexact.1]
    rfl

omit hg hcls in
theorem times_digit_of_digits {base : Nat} {cs : List CodePoint} {ds : List Nat}
    (h : Digits base cs ds) (hr : s.Reads cs t) :
    times (digit base) cs.length g s = .done ds t := by
  induction cs generalizing s ds with
  | nil =>
    obtain rfl : ds = [] := List.length_eq_zero_iff.mp h.length_eq.symm
    rw [hr.eq_of_nil]
    rfl
  | cons c cs ih =>
    cases ds with
    | nil => cases h.length_eq
    | cons d ds =>
      obtain ⟨hd, htail⟩ := List.cons.inj h
      obtain ⟨u, hc, hrest⟩ := State.reads_cons.mp hr
      rw [List.length_cons, times, bind_of_done (digit_eq_done.mpr ⟨c, hd, hc⟩),
        bind_of_done (ih htail hrest)]
      rfl

omit hcls in
/-- By code units a Unicode escape with four digits is still one character. -/
theorem term_unicodeEscape {cs : List CodePoint} {ds : List Nat} (h : Digits 16 cs ds)
    (hl : cs.length = 4) (hr : s.Reads (.ofChar '\\' :: .ofChar 'u' :: cs) t) :
    term cls inside g s =
      quantified s.cursor (characterTerm s t (.ofNat (ofDigits 16 ds))) g t := by
  obtain ⟨v, hslash, hr⟩ := State.reads_cons.mp hr
  obtain ⟨w, hu, hr⟩ := State.reads_cons.mp hr
  have hcur := hu.current_eq
  have hexact := hg
  rw [Grammar.exact, Bool.or_eq_false_iff] at hexact
  have hhex : fixedHex 4 g w = .done (ofDigits 16 ds) t := by
    refine map_eq_done.mpr ⟨ds, ?_, rfl⟩
    rw [← hl]
    exact times_digit_of_digits h hr
  refine term_escaped hg hslash hcur ?_ rfl rfl rfl rfl
  rw [escapedValue_of_letter hcur rfl rfl]
  apply orElse_of_done
  rw [unicodeEscape, bind_of_done (eat_eq_done (x := ()).mpr hu), hexact.2,
    orElse_of_miss (require_bind_eq_miss.mpr (.inl rfl))]
  exact orElse_of_done (map_eq_done.mpr ⟨_, hhex, rfl⟩)

/-! ## Runs of characters

Terms one after the other. The characters of a name are unreserved, apart from the dollar sign and
escapes. -/

abbrev Terms (cls : Parser CharSet) (inside : Nested) (g : Grammar) :
    State → List Term → State → Prop :=
  Chain fun s e t => term cls inside g s = .done e t

/-- Terms without groups and references can be read between two states. -/
def ReadsBare (cls : Parser CharSet) (inside : Nested) (g : Grammar) (s t : State) : Prop :=
  ∃ es, Terms cls inside g s es t ∧ (Piece.terms es).Bare

omit hg hcls in
/-- Readings of terms without groups and references compose. -/
theorem ReadsBare.trans (h : ReadsBare cls inside g s t) (h' : ReadsBare cls inside g t u) :
    ReadsBare cls inside g s u := by
  obtain ⟨es, hes, hbare⟩ := h
  obtain ⟨fs, hfs, hbare'⟩ := h'
  exact ⟨es ++ fs, hes.append hfs, hbare.append hbare'⟩

/-- Bare terms can be read between two states, unless a number in them is too long. -/
def FallsApart (cls : Parser CharSet) (inside : Nested) (g : Grammar) (s t : State) : Prop :=
  ReadsBare cls inside g s t ∨ RunsOver (term cls inside) g s

omit hg hcls in
/-- What falls apart may be put one after the other. -/
theorem FallsApart.trans (h : FallsApart cls inside g s t) (h' : FallsApart cls inside g t u) :
    FallsApart cls inside g s u := by
  rcases h with h | hover
  · rcases h' with h' | hover
    · exact .inl (h.trans h')
    · obtain ⟨es, hes, -⟩ := h
      exact .inr (hover.after hes)
  · exact .inr hover

omit hg hcls in
/-- A character with no quantifier after it. -/
theorem ReadsBare.of_quantified {c : Character}
    (h : term cls inside g s = quantified s.cursor (.set (.character c)) g t)
    (ht : t.atQuantifier = false) : ReadsBare cls inside g s t := by
  rw [quantified_eq_self ht] at h
  exact ⟨[.set (.character c)], .single h, .single (.character c)⟩

omit hg hcls in
theorem atQuantifier_of_isUnreserved {c : CodePoint} {cs : List CodePoint}
    (hr : s.Reads (c :: cs) t) (hc : c.isUnreserved = true) : s.atQuantifier = false := by
  rw [hr.atQuantifier]
  exact CodePoint.isOneOf_eq_false CodePoint.isUnreserved hc rfl

/-- An unreserved character is a term of its own. -/
theorem readsBare_unreserved {c : CodePoint} (hr : s.Reads [c] t) (hc : c.isUnreserved = true)
    (ht : t.atQuantifier = false) : ReadsBare cls inside g s t := by
  refine .of_quantified (term_plain hg hcls hr ?_ ?_) ht
  · exact CodePoint.isReservedInWebGrammar_eq_false hc
  · apply bracedBounds_eq_miss
    rw [hr.current_eq]
    rintro ⟨⟩
    exact absurd hc (by decide)

/-- Unreserved characters are terms, one by one. -/
theorem readsBare_text {cs : List CodePoint} (hr : s.Reads cs t)
    (hcs : ∀ c ∈ cs, c.isUnreserved = true) (ht : t.atQuantifier = false) :
    ReadsBare cls inside g s t := by
  induction cs generalizing s with
  | nil =>
    rw [hr.eq_of_nil]
    exact ⟨[], .nil t, .nil⟩
  | cons c cs ih =>
    obtain ⟨u, hc, hrest⟩ := State.reads_cons.mp hr
    have hu : u.atQuantifier = false := by
      cases cs with
      | nil => rwa [hrest.eq_of_nil]
      | cons d ds => exact atQuantifier_of_isUnreserved hrest (hcs d (by simp))
    exact (readsBare_unreserved hg hcls hc (hcs c (by simp)) hu).trans
      (ih hrest fun d hd => hcs d (List.mem_cons_of_mem c hd))

/-! ## The braces of an escape

What stands between braces are hexadecimal digits. If all of them are decimal, the letter before the
brace is repeated as often as they say; if only the first ones are, the bounds break off and the
brace is text; if none is, the same. In the first case the digits may be too many to be converted,
and there is no way around it. -/

omit hg hcls in
/-- Of two readings from one place, the one that does not reach a given character is the first part
of the one that ends with it. -/
theorem reads_firstPart {cs ds : List CodePoint} {d : CodePoint} (h : s.Reads (cs ++ [d]) t)
    (h' : s.Reads ds u) (hd : d ∉ ds) : ∃ es, cs = ds ++ es ∧ u.Reads (es ++ [d]) t := by
  induction ds generalizing s cs with
  | nil =>
    rw [← h'.eq_of_nil]
    exact ⟨cs, rfl, h⟩
  | cons c ds ih =>
    obtain ⟨v, hc, h'⟩ := State.reads_cons.mp h'
    obtain ⟨hcur, rfl⟩ := State.reads_singleton.mp hc
    cases cs with
    | nil =>
      obtain ⟨hcur', -⟩ := State.reads_singleton.mp h
      rw [hcur] at hcur'
      cases hcur'
      exact absurd List.mem_cons_self hd
    | cons c' cs =>
      obtain ⟨w, hc', hrest⟩ := State.reads_cons.mp h
      obtain ⟨hcur', rfl⟩ := State.reads_singleton.mp hc'
      rw [hcur] at hcur'
      cases hcur'
      obtain ⟨es, rfl, hes⟩ := ih hrest h' fun hmem => hd (List.mem_cons_of_mem c hmem)
      exact ⟨es, rfl, hes⟩

omit hcls in
/-- By the web grammar, bounds that break off are none. -/
theorem incompleteBounds_eq_miss {α : Type} (lenient : Bool) :
    (incompleteBounds lenient : Parser α) g s = .miss := by
  rw [incompleteBounds, grammar_bind, hg, Bool.not_false, Bool.or_true]
  rfl

omit hcls in
/-- Hexadecimal digits between braces are bounds if they are all decimal, and no bounds else, unless
too many of them are decimal. -/
theorem bracedBounds_of_hex {cs : List CodePoint} {ds : List Nat} (h : Digits 16 cs ds)
    (hr : s.Reads (.ofChar '{' :: (cs ++ [.ofChar '}'])) t) :
    (∃ b, ∀ lenient, bracedBounds lenient g s = .done b t) ∨
      (∀ lenient, bracedBounds lenient g s = .miss) ∨
      ∀ lenient, (bracedBounds lenient g s).Overflows := by
  obtain ⟨u, hopen, hr⟩ := State.reads_cons.mp hr
  have hbegin : ∀ lenient, bracedBounds lenient g s = (do
      let least ← number 10 <|> incompleteBounds lenient
      let greatest ← if ← eats ',' then attempt (number 10) else pure (some least)
      eat '}' <|> incompleteBounds lenient
      if !lenient && outOfOrder (least, greatest) then fail .quantifierOutOfOrder
      else return (least, greatest) : Parser Bounds) g u := by
    intro lenient
    rw [bracedBounds, bind_of_done (eat_eq_done (x := ()).mpr hopen)]
  -- how far the digits are decimal decides: all of them, some of them, or none
  cases hn : number 10 g u with
  | fault e =>
    exact .inr (.inr fun lenient => bracedBounds_overflows lenient hopen (number_overflows hn))
  | miss =>
    refine .inr (.inl fun lenient => ?_)
    rw [hbegin]
    apply bind_of_miss
    rw [orElse_of_miss hn, incompleteBounds_eq_miss hg]
  | done n v =>
    obtain ⟨cs', ds', hr', hcs', -⟩ := number_eq_done hn
    obtain ⟨es, rfl, hes⟩ := reads_firstPart hr hr' fun hmem =>
      absurd (hcs'.isSome_of_mem hmem) (by decide)
    have hcomma : v.cursor.current ≠ some (.ofChar ',') := by
      cases es with
      | nil =>
        rw [hes.current_eq]
        decide
      | cons e es =>
        rw [hes.current_eq]
        rintro ⟨⟩
        exact absurd (h.isSome_of_mem (List.mem_append_right cs' List.mem_cons_self)) (by decide)
    -- what is left once the number has been read
    have hafter : ∀ lenient, bracedBounds lenient g s = (do
        eat '}' <|> incompleteBounds lenient
        if !lenient && outOfOrder (n, some n) then fail .quantifierOutOfOrder
        else return (n, some n) : Parser Bounds) g v := by
      intro lenient
      rw [hbegin, bind_of_done (orElse_of_done hn), bind_of_done (eats_of_ne hcomma)]
      rfl
    cases es with
    | nil =>
      refine .inl ⟨(n, some n), fun lenient => ?_⟩
      rw [hafter, bind_of_done (orElse_of_done (eat_eq_done (x := ()).mpr hes))]
      simp [outOfOrder]
      rfl
    | cons e es =>
      refine .inr (.inl fun lenient => ?_)
      rw [hafter]
      apply bind_of_miss
      have hclose : v.cursor.current ≠ some (.ofChar '}') := by
        rw [hes.current_eq]
        rintro ⟨⟩
        exact absurd (h.isSome_of_mem (List.mem_append_right cs' List.mem_cons_self)) (by decide)
      rw [orElse_of_miss (eat_eq_miss.mpr hclose), incompleteBounds_eq_miss hg]

/-- By code units a code point between braces falls apart: into a `u` that is repeated as often as
the digits say, if they are decimal, or else into the characters it is written with. Decimal digits
may be too many to convert, and then that is found. -/
theorem fallsApart_braced {cs : List CodePoint} {ds : List Nat} (h : Digits 16 cs ds)
    (hne : ds ≠ [])
    (hr : s.Reads (.ofChar '\\' :: .ofChar 'u' :: .ofChar '{' :: (cs ++ [.ofChar '}'])) t)
    (ht : t.atQuantifier = false) : FallsApart cls inside g s t := by
  obtain ⟨u, hu, hbraces⟩ : ∃ u, s.Reads ['\\', 'u'] u ∧
      u.Reads (.ofChar '{' :: (cs ++ [.ofChar '}'])) t := State.reads_append.mp hr
  obtain ⟨v, hopen, hrest⟩ := State.reads_cons.mp hbraces
  have hcur := hopen.current_eq
  have hterm : term cls inside g s = quantified s.cursor (characterTerm s u 'u') g u :=
    term_escaped_u hg hu hcur
  have hbounds : quantifierBounds false g u = bracedBounds false g u :=
    quantifierBounds_of_brace hcur
  rcases bracedBounds_of_hex hg h hbraces with ⟨⟨least, greatest⟩, hdone⟩ | hmiss | hlong
  · -- the braces repeat the letter
    have hquantifier : quantifier false g u = .done ⟨least, greatest, true⟩ t := by
      rw [quantifier, bind_of_done (hbounds.trans (hdone false))]
      exact bind_of_done (eats_of_ne (State.atQuantifier_eq_false ht).2.2.1)
    rw [quantified, bind_of_done (attempt_of_done hquantifier)] at hterm
    exact .inl ⟨_, .single hterm, .single (.quantified (.character _) _ _)⟩
  · -- the braces and what is between them stand for themselves
    have hmissed : quantifier false g u = .miss := bind_of_miss (hbounds.trans (hmiss false))
    rw [quantified, bind_of_done (attempt_of_miss hmissed)] at hterm
    have hletter : ReadsBare cls inside g s u := ⟨_, .single hterm, .single (.character _)⟩
    have hdigits : ∀ c ∈ cs ++ [.ofChar '}'], CodePoint.isUnreserved c = true := by
      intro c hc
      rcases List.mem_append.mp hc with hc | hc
      · exact CodePoint.isUnreserved_of_digit (h.isSome_of_mem hc)
      · rw [List.mem_singleton.mp hc]
        decide
    have hv : v.atQuantifier = false := by
      cases cs with
      | nil => exact absurd (List.length_eq_zero_iff.mp h.length_eq.symm) hne
      | cons c cs => exact atQuantifier_of_isUnreserved hrest (hdigits c (by simp))
    have hbrace : ReadsBare cls inside g u v :=
      .of_quantified (term_plain hg hcls hopen (by decide) (hmiss true)) hv
    exact .inl (hletter.trans (hbrace.trans (readsBare_text hg hcls hrest hdigits ht)))
  · -- the letter cannot be repeated so often
    refine .inr (Overflows.runsOver ?_)
    rw [hterm]
    exact quantified_overflows (quantifier_overflows hcur (hlong false))

/-! ## Names

Escapes, characters and names fall apart, and then references do. -/

/-- By code units a Unicode escape falls apart, in whichever way it is written. -/
theorem fallsApart_unicodeEscape {wide : Bool} {cs : List CodePoint} {v : CodePoint}
    (h : UnicodeEscape wide cs v) (hr : s.Reads (.ofChar '\\' :: cs) t)
    (ht : t.atQuantifier = false) : FallsApart cls inside g s t := by
  cases h with
  | fixed h hl => exact .inl (.of_quantified (term_unicodeEscape hg h hl hr) ht)
  | braced _ h hne _ => exact fallsApart_braced hg hcls h hne hr ht
  | @pair cs₁ cs₂ _ _ _ h₁ h₂ hl₁ hl₂ _ _ =>
    obtain ⟨u, hlead, htrail⟩ : ∃ u, s.Reads (.ofChar '\\' :: .ofChar 'u' :: cs₁) u ∧
        u.Reads (.ofChar '\\' :: .ofChar 'u' :: cs₂) t := State.reads_append.mp hr
    have hu : u.atQuantifier = false := by
      rw [htrail.atQuantifier]
      decide
    exact .inl ((ReadsBare.of_quantified (term_unicodeEscape hg h₁ hl₁ hlead) hu).trans
      (.of_quantified (term_unicodeEscape hg h₂ hl₂ htrail) ht))

/-- A character of a name falls apart into characters that stand for themselves. -/
theorem fallsApart_nameCharacter {g₀ : Grammar} {cs : List CodePoint} {c : CodePoint}
    (h : NameCharacter g₀ cs c) (hc : c.isIdentifierStart ∨ c.isIdentifierPart)
    (hr : s.Reads cs t) (ht : t.atQuantifier = false) : FallsApart cls inside g s t := by
  cases h with
  | plain c =>
    -- a dollar sign is read as the end of the text
    by_cases hdollar : c = .ofChar '$'
    · subst hdollar
      exact .inl ⟨_, .single (term_edge hr), .single (.edge _ _)⟩
    · exact .inl (readsBare_unreserved hg hcls hr
        (CodePoint.isUnreserved_of_identifier hc hdollar) ht)
  | escaped h => exact fallsApart_unicodeEscape hg hcls h hr ht
  | @pair a b _ ha hb =>
    have hsurrogate : ∀ c : CodePoint, c.isSurrogate = true → c.isUnreserved = true := by
      intro c hc
      rw [CodePoint.isUnreserved, Bool.not_eq_true']
      exact CodePoint.isOneOf_eq_false CodePoint.isSurrogate hc rfl
    refine .inl (readsBare_text hg hcls hr ?_ ht)
    intro c hmem
    apply hsurrogate
    rcases List.mem_cons.mp hmem with rfl | hmem
    · rw [CodePoint.isSurrogate, ha, Bool.true_or]
    · rw [List.mem_singleton.mp hmem, CodePoint.isSurrogate, hb, Bool.or_true]

omit hg hcls in
/-- No quantifier begins where a character of a name begins. -/
theorem atQuantifier_of_nameCharacter {g₀ : Grammar} {cs ds : List CodePoint} {c : CodePoint}
    (h : NameCharacter g₀ cs c) (hc : c.isIdentifierStart ∨ c.isIdentifierPart)
    (hr : s.Reads (cs ++ ds) t) : s.atQuantifier = false := by
  cases h with
  | plain c =>
    by_cases hdollar : c = .ofChar '$'
    · rw [hr.atQuantifier, hdollar]
      decide
    · exact atQuantifier_of_isUnreserved hr (CodePoint.isUnreserved_of_identifier hc hdollar)
  | escaped h =>
    rw [hr.atQuantifier]
    decide
  | pair _ ha hb =>
    rw [hr.atQuantifier]
    exact CodePoint.isOneOf_eq_false CodePoint.isLead ha rfl

/-- A name falls apart, character by character. Nothing in it opens a group or refers to one. -/
theorem fallsApart_name {g₀ : Grammar} {cs : List CodePoint} {name : GroupName}
    (h : NameSpelling g₀ cs name) (hr : s.Reads cs t) (ht : t.atQuantifier = false) :
    FallsApart cls inside g s t := by
  induction h generalizing s with
  | nil =>
    rw [hr.eq_of_nil]
    exact .inl ⟨[], .nil t, .nil⟩
  | cons h hc tail ih =>
    obtain ⟨u, hfirst, hrest⟩ := State.reads_append.mp hr
    have hu : u.atQuantifier = false := by
      cases tail with
      | nil => rwa [hrest.eq_of_nil]
      | cons h' hc' _ => exact atQuantifier_of_nameCharacter h' hc' hrest
    exact (fallsApart_nameCharacter hg hcls h hc hfirst hu).trans (ih hrest)

/-- Where `\k` begins no named reference, the text of one is read up to its last bracket as terms
without groups and references, unless a number in it is too long. -/
theorem reference_text {g₀ : Grammar} {cs : List CodePoint} {name : GroupName}
    (hN : g.namedReferences = false) (h : NameSpelling g₀ cs name)
    (hr : s.Reads (.ofChar '\\' :: .ofChar 'k' :: .ofChar '<' :: (cs ++ [.ofChar '>'])) t) :
    ∃ u, FallsApart cls inside g s u ∧ u.Reads ['>'] t := by
  obtain ⟨v, hk, hr⟩ : ∃ v, s.Reads ['\\', 'k'] v ∧
      v.Reads (.ofChar '<' :: (cs ++ [.ofChar '>'])) t := State.reads_append.mp hr
  obtain ⟨w, hopen, hrest⟩ := State.reads_cons.mp hr
  obtain ⟨u, hname, hclose⟩ := State.reads_append.mp hrest
  -- between the parts of a reference no quantifier begins, so each part is read by itself
  have hv : v.atQuantifier = false := by
    rw [hopen.atQuantifier]
    decide
  have hu : u.atQuantifier = false := by
    rw [hclose.atQuantifier]
    decide
  have hw : w.atQuantifier = false := by
    cases h with
    | nil => rwa [hname.eq_of_nil]
    | cons h hc _ => exact atQuantifier_of_nameCharacter h hc hname
  have hletter : ReadsBare cls inside g s v := .of_quantified (term_escaped_k hg hN hk) hv
  have hbracket : ReadsBare cls inside g v w :=
    readsBare_unreserved hg hcls hopen (by decide) hw
  exact ⟨u, .trans (.inl (hletter.trans hbracket)) (fallsApart_name hg hcls h hname hu), hclose⟩

end Text

end Parser

end EcmaPattern
