import EcmaPattern.Proofs.Relaxation.Names

/-!
# Terms in relaxed grammars

What a grammar reads up to the end of a group or of the pattern, a relaxed grammar reads as well
(`disjunction_relaxed`). The two trees are alike: they have the same groups in the same places and,
unless a named reference is no longer taken for one, they are the same tree. One term of the grammar
can be several terms of the relaxed one, since the text of a named reference falls apart into
characters; so terms are compared in sequence. A tree that refers to a name can be lost, where the
relaxed grammar finds that a number is too long.

Key lemmas:

* `escapedAtom_relaxed`, which is where a reference may be dropped;
* `terms_relaxed`, by induction on the chain of terms, where one term may become several;
* `alternatives_relaxed` and `disjunction_relaxed`, by induction on the levels that are left.
-/

namespace EcmaPattern

/-! ## Parts of trees that are alike

`Alike` compares what is asked of trees elsewhere: groups, names and levels of nesting. If
references are kept it is equality. The lemmas go through the constructors. -/

namespace Piece

/-- The second part of a tree has the groups of the first, nests as it does, and refers to no
further names. If references are `kept`, or there are none, the two are the same. -/
structure Alike (kept : Prop) (x y : Piece) : Prop where
  captures : y.captures = x.captures
  beneath : ∀ levels, y.beneath levels = x.beneath levels
  names : ∀ n ∈ y.referredNames, n ∈ x.referredNames
  same : kept ∨ x.referredNames = [] → y = x

namespace Alike

variable {kept : Prop} {x y x' y' : Piece}

theorem refl (x : Piece) : Alike kept x x := ⟨rfl, fun _ => rfl, fun _ hn => hn, fun _ => rfl⟩

/-- What is alike is alike inside a construct. -/
theorem enclosed (h : Alike kept x y) (start levels : Nat) :
    y.enclosed start levels = x.enclosed start levels := by
  cases levels with
  | zero => rfl
  | succ levels => exact h.beneath levels

/-- What is alike stays so when the same is put around it. -/
theorem around (h : Alike kept x y)
    (hcaptures : y.captures = x.captures → y'.captures = x'.captures)
    (hbeneath : ∀ levels, y'.beneath levels = x'.beneath levels)
    (hx : x'.referredNames = x.referredNames) (hy : y'.referredNames = y.referredNames)
    (hsame : y = x → y' = x') : Alike kept x' y' := by
  constructor
  · exact hcaptures h.captures
  · exact hbeneath
  · rw [hx, hy]
    exact h.names
  · rw [hx]
    exact fun hkept => hsame (h.same hkept)

section Terms

variable (span : Span) {e e' : Term} {es es' fs fs' : List Term} {q q' : Sequence}
  {qs qs' : List Sequence}

theorem look (h : Alike kept (disjunction qs) (disjunction qs')) (direction : Direction)
    (negated : Bool) : Alike kept (term (.look span direction negated qs))
      (term (.look span direction negated qs')) := by
  refine h.around (fun hc => by simpa using hc) (fun levels => by simp [h.enclosed]) ?_ ?_ ?_
  · simp [referredNames, Term.referredNames]
  · simp [referredNames, Term.referredNames]
  · rintro ⟨⟩
    rfl

theorem group (h : Alike kept (disjunction qs) (disjunction qs')) (m : Option Modifiers) :
    Alike kept (term (.group span m qs)) (term (.group span m qs')) := by
  refine h.around (fun hc => by simpa using hc) (fun levels => by simp [h.enclosed]) ?_ ?_ ?_
  · simp [referredNames, Term.referredNames]
  · simp [referredNames, Term.referredNames]
  · rintro ⟨⟩
    rfl

theorem capture (h : Alike kept (disjunction qs) (disjunction qs')) (index : Nat)
    (name : Option GroupName) : Alike kept (term (.capture span index name qs))
      (term (.capture span index name qs')) := by
  refine h.around (fun hc => by simpa using hc) (fun levels => by simp [h.enclosed]) ?_ ?_ ?_
  · simp [referredNames, Term.referredNames]
  · simp [referredNames, Term.referredNames]
  · rintro ⟨⟩
    rfl

theorem quantified (h : Alike kept (term e) (term e')) (r : Repetition) :
    Alike kept (term (.quantified span r e)) (term (.quantified span r e')) := by
  refine h.around (fun hc => by simpa using hc) (fun levels => by simp [h.beneath]) ?_ ?_ ?_
  · simp [referredNames, Term.referredNames]
  · simp [referredNames, Term.referredNames]
  · rintro ⟨⟩
    rfl

theorem single (h : Alike kept (term e) (term e')) : Alike kept (terms [e]) (terms [e']) := by
  refine h.around (fun hc => by simpa using hc) (fun levels => by simp [h.beneath]) ?_ ?_ ?_
  · simp [referredNames, Term.referredNamesOfTerms]
  · simp [referredNames, Term.referredNamesOfTerms]
  · rintro ⟨⟩
    rfl

theorem sequence (h : Alike kept (terms es) (terms es')) :
    Alike kept (sequence (.mk span es)) (sequence (.mk span es')) := by
  refine h.around (fun hc => by simpa using hc) (fun levels => by simp [h.beneath]) ?_ ?_ ?_
  · simp [referredNames, Term.referredNamesOfSequence]
  · simp [referredNames, Term.referredNamesOfSequence]
  · rintro ⟨⟩
    rfl

theorem disjunction (h : Alike kept (alternatives qs) (alternatives qs')) :
    Alike kept (disjunction qs) (disjunction qs') := by
  refine h.around (fun hc => hc) h.beneath rfl rfl ?_
  rintro ⟨⟩
  rfl

/-- Terms that are alike may be put one after the other. -/
theorem append (h : Alike kept (terms es) (terms es')) (h' : Alike kept (terms fs) (terms fs')) :
    Alike kept (terms (es ++ fs)) (terms (es' ++ fs')) := by
  constructor
  · rw [captures_append, captures_append, h.captures, h'.captures]
  · intro levels
    rw [beneath_append, beneath_append, h.beneath, h'.beneath]
  · intro n hn
    rw [referredNames_append, List.mem_append] at hn ⊢
    exact hn.imp (h.names n) (h'.names n)
  · intro hkept
    rw [referredNames_append, List.append_eq_nil_iff] at hkept
    obtain ⟨⟩ := h.same (hkept.imp_right And.left)
    obtain ⟨⟩ := h'.same (hkept.imp_right And.right)
    rfl

/-- Alternatives that are alike may be put in front of alternatives that are. -/
theorem cons (h : Alike kept (.sequence q) (.sequence q'))
    (h' : Alike kept (alternatives qs) (alternatives qs')) :
    Alike kept (alternatives (q :: qs)) (alternatives (q' :: qs')) := by
  constructor
  · rw [captures_alternatives, captures_alternatives, h.captures, h'.captures]
  · intro levels
    rw [beneath_alternatives, beneath_alternatives, h.beneath, h'.beneath]
  · intro n hn
    simp only [referredNames, Term.referredNamesOfAll, List.mem_append] at hn ⊢
    exact hn.imp (h.names n) (h'.names n)
  · intro hkept
    simp only [referredNames, Term.referredNamesOfAll, List.append_eq_nil_iff] at hkept
    obtain ⟨⟩ := h.same (hkept.imp_right And.left)
    obtain ⟨⟩ := h'.same (hkept.imp_right And.right)
    rfl

end Terms

end Alike

end Piece

/-- The tree refers to a name, and references are not kept. -/
def Piece.Unkept (kept : Prop) (x : Piece) : Prop := ¬kept ∧ x.referredNames ≠ []

namespace Piece.Unkept

variable {kept : Prop}

/-- Whether references are kept depends only on the names. -/
theorem of_names {x x' : Piece} (h : x.Unkept kept) (hnames : x'.referredNames = x.referredNames) :
    x'.Unkept kept :=
  ⟨h.1, hnames ▸ h.2⟩

theorem cons {e : Term} {es : List Term} (h : (term e).Unkept kept ∨ (terms es).Unkept kept) :
    (terms (e :: es)).Unkept kept := by
  refine ⟨h.elim And.left And.left, fun hnil => ?_⟩
  rw [referredNames, Term.referredNamesOfTerms, List.append_eq_nil_iff] at hnil
  exact h.elim (·.2 hnil.1) (·.2 hnil.2)

theorem alternatives {q : Sequence} {qs : List Sequence}
    (h : (sequence q).Unkept kept ∨ (Piece.alternatives qs).Unkept kept) :
    (Piece.alternatives (q :: qs)).Unkept kept := by
  refine ⟨h.elim And.left And.left, fun hnil => ?_⟩
  rw [referredNames, Term.referredNamesOfAll, List.append_eq_nil_iff] at hnil
  exact h.elim (·.2 hnil.1) (·.2 hnil.2)

end Piece.Unkept

/-- What a relaxed grammar makes of a value: a value alike, in the same text, unless the value
refers to a name that is not kept, when a number may be too long. -/
def Outcome.ReadsLike {α : Type} (kept : Prop) (piece : α → Piece) (o : Outcome α) (a : α)
    (t : State) : Prop :=
  (∃ b, o = .done b t ∧ Piece.Alike kept (piece a) (piece b)) ∨
    (piece a).Unkept kept ∧ o.Overflows

/-- Whether a group or the pattern may end here. -/
def State.Closes (s : State) : Prop :=
  s.cursor.current = none ∨ s.cursor.current = some (.ofChar ')')

namespace Parser

variable {g g' : Grammar} {s t u : State}

section Relaxed

variable (h : g.RelaxesTo g')

include h

/-! ## Escapes

A backslash and a `k` is a reference by one grammar and may be a letter by the other. All other
escapes are the same. -/

/-- A reference by number is read alike, since the relaxed grammar counts the same groups. -/
theorem numberedReference_stable (mark : Cursor) : Stable (numberedReference mark) g g' :=
  numberedReference_maps (Pairing.relaxingTrees g g') rfl h.alike h.captures

omit h in
/-- Unless `k` may be escaped to stand for itself, it begins no character. -/
theorem escapedValue_k_of_identity (hidentity : isIdentityEscape g 'k' = false)
    (hc : s.cursor.current = some (.ofChar 'k')) : escapedValue g s = .miss := by
  have hunicode : unicodeEscape g.unicode g s = .miss :=
    bind_of_miss (eat_eq_miss.mpr (by rw [hc]; decide))
  have hoctal : (do require !g.exact; legacyOctal : Parser CodePoint) g s = .miss := by
    refine require_bind_eq_miss.mpr (.inr (bind_of_miss ?_))
    rw [digit, select_eq_miss, hc]
    decide
  rw [escapedValue_of_letter hc rfl rfl, orElse_of_miss hunicode,
    orElse_of_miss hoctal, identityEscape, grammar_bind, satisfy_eq_miss, hc]
  rintro _ ⟨⟩
  exact hidentity

omit h in
/-- Where `\k` begins a named reference, it does not stand for itself. -/
theorem isIdentityEscape_k (hN : g.namedReferences = true) : isIdentityEscape g 'k' = false := by
  have hpart : CodePoint.isIdentifierPart 'k' :=
    CodePoint.isIdentifierPart_of_alphanumeric (by decide)
  unfold isIdentityEscape
  split
  · decide
  · split
    · rw [hpart]
      rfl
    · decide

omit h in
/-- Where `\k` begins a named reference, it begins no character. -/
theorem escapedValue_k_eq_miss (hN : g.namedReferences = true)
    (hc : s.cursor.current = some (.ofChar 'k')) : escapedValue g s = .miss :=
  escapedValue_k_of_identity (isIdentityEscape_k hN) hc

omit h in
/-- Behind an escaped `k` that begins a reference, there is one, or a fault. -/
theorem namedReference_ne_miss {mark : Cursor} (hN : g.namedReferences = true)
    (hc : s.cursor.current = some (.ofChar 'k')) : namedReference mark g s ≠ .miss := by
  intro he
  rw [namedReference, grammar_bind, hN, require_bind_eq_miss] at he
  rcases he with he | he
  · cases he
  rcases eat_bind_eq_miss.mp he with he | ⟨u, -, he⟩
  · exact he hc
  rcases bind_eq_miss.mp he with he | ⟨name, v, -, he⟩
  · exact absurd (orElse_eq_miss.mp he).2 fail_ne_miss
  · cases he

omit h in
theorem namedReference_eq_miss {mark : Cursor} (hc : s.cursor.current ≠ some (.ofChar 'k')) :
    namedReference mark g s = .miss := by
  rw [namedReference, grammar_bind, require_bind_eq_miss]
  exact .inr (bind_of_miss (eat_eq_miss.mpr hc))

/-- A named reference of the grammar that the relaxed grammar takes for text. -/
def DropsReference (g g' : Grammar) (s : State) (e : Term) (t : State) : Prop :=
  g'.exact = false ∧ g.namedReferences = true ∧ g'.namedReferences = false ∧
    ∃ cs name, NameSpelling g cs name ∧
    s.Reads (.ofChar '\\' :: .ofChar 'k' :: .ofChar '<' :: (cs ++ [.ofChar '>'])) t ∧
    e = .reference (.between s.cursor t.cursor) (.name name [])

/-- A reference by name is read alike if the relaxed grammar has them. -/
theorem namedReference_relaxed {mark : Cursor} {e : Term} (hN : g'.namedReferences = true)
    (he : namedReference mark g s = .done e t) : namedReference mark g' s = .done e t := by
  have hrest : Stable (namedReference mark) g g' :=
    namedReference_maps (Pairing.relaxingTrees g g') rfl (hN.trans (h.names_of_names hN).symm)
      (groupName_stable h)
  exact hrest.eq_done he

/-- A term behind a backslash is read as it was, or it is a reference that the relaxed grammar takes
for a letter. -/
theorem escapedAtom_relaxed {e : Term} (he : escapedAtom g s = .done e t) :
    escapedAtom g' s = .done e t ∨ DropsReference g g' s e t := by
  rw [escapedAtom, here_bind] at he ⊢
  obtain ⟨u, hslash, he⟩ := eat_bind_eq_done.mp he
  rw [bind_of_done (eat_eq_done (x := ()).mpr hslash)]
  rw [atomEscape] at he ⊢
  rcases orElse_eq_done.mp he with he | ⟨hnumber, he⟩
  · exact .inl (orElse_of_done ((numberedReference_stable h _).eq_done he))
  rw [orElse_of_miss ((numberedReference_stable h _).miss hnumber)]
  rcases orElse_eq_done.mp he with he | ⟨hset, he⟩
  · exact .inl (orElse_of_done (Stable.eq_done (setEscape_stable h _).map he))
  rw [orElse_of_miss (Stable.miss (setEscape_stable h _).map hset)]
  rcases orElse_eq_done.mp he with he | ⟨hcharacter, he⟩
  · obtain ⟨c, hc, rfl⟩ := map_eq_done.mp he
    exact .inl (orElse_of_done (map_eq_done.mpr ⟨c, characterEscape_relaxed h hc, rfl⟩))
  rcases orElse_eq_done.mp he with he | ⟨-, he⟩
  · obtain ⟨cs, name, hN, hcs, hr, rfl⟩ := namedReference_eq_done he
    cases hN' : g'.namedReferences with
    | true =>
      -- the relaxed grammar tries the characters first, and `k` is none of them
      obtain ⟨v, hk, -⟩ := State.reads_cons.mp hr
      have hmiss : characterEscape s.cursor g' u = .miss :=
        bind_of_miss (escapedValue_k_eq_miss hN' hk.current_eq)
      rw [orElse_of_miss (map_eq_miss.mpr hmiss)]
      exact .inl (orElse_of_done (namedReference_relaxed h hN' he))
    | false =>
      rcases h.names with hsame | ⟨-, hg'⟩
      · rw [hN, hN'] at hsame
        cases hsame
      · exact .inr ⟨hg', hN, hN', cs, name, hcs, hslash.trans hr, rfl⟩
  · rw [grammar_bind, require_bind_eq_done] at he
    exact absurd he.2 fail_ne_done

/-- A backslash that begins no term does so because nothing can be escaped after it. -/
theorem escapedAtom_miss_relaxed (he : escapedAtom g s = .miss) : escapedAtom g' s = .miss := by
  rw [escapedAtom, here_bind] at he ⊢
  rcases eat_bind_eq_miss.mp he with hslash | ⟨u, hslash, he⟩
  · exact bind_of_miss (eat_eq_miss.mpr hslash)
  rw [bind_of_done (eat_eq_done (x := ()).mpr hslash)]
  obtain ⟨hnumber, he⟩ := orElse_eq_miss.mp he
  obtain ⟨hset, he⟩ := orElse_eq_miss.mp he
  obtain ⟨hcharacter, he⟩ := orElse_eq_miss.mp he
  obtain ⟨hnamed, he⟩ := orElse_eq_miss.mp he
  have hg : g.exact = false := by
    rcases require_bind_eq_miss.mp he with hg | he
    · exact hg
    · exact absurd he fail_ne_miss
  -- at the letter `k` the grammar would have read a reference or a character
  have hk : u.cursor.current ≠ some (.ofChar 'k') := by
    intro hk
    cases hN : g.namedReferences with
    | true => exact namedReference_ne_miss hN hk hnamed
    | false =>
      have hvalue := escapedValue_k hg hN (State.reads_singleton.mpr ⟨hk, rfl⟩)
      rw [map_eq_miss, characterEscape, bind_of_done hvalue] at hcharacter
      cases hcharacter
  have hstrict : g.strict = false := (Bool.or_eq_false_iff.mp hg).1
  rw [atomEscape, orElse_of_miss ((numberedReference_stable h _).miss hnumber),
    orElse_of_miss (Stable.miss (setEscape_stable h _).map hset),
    orElse_of_miss (map_eq_miss.mpr (characterEscape_eq_miss h hstrict hk
      (map_eq_miss.mp hcharacter))),
    orElse_of_miss (namedReference_eq_miss hk), grammar_bind, h.not_exact hg]
  rfl

omit h in
/-- By an exact grammar, a backslash always begins a term, or is a fault. -/
theorem current_ne_slash (hg : g.exact = true) (he : escapedAtom g s = .miss) :
    s.cursor.current ≠ some (.ofChar '\\') := by
  rw [escapedAtom, here_bind] at he
  rcases eat_bind_eq_miss.mp he with hslash | ⟨u, -, he⟩
  · exact hslash
  obtain ⟨-, he⟩ := orElse_eq_miss.mp he
  obtain ⟨-, he⟩ := orElse_eq_miss.mp he
  obtain ⟨-, he⟩ := orElse_eq_miss.mp he
  obtain ⟨-, he⟩ := orElse_eq_miss.mp he
  rw [grammar_bind, hg, require_bind_eq_miss] at he
  rcases he with he | he
  · cases he
  · exact absurd he fail_ne_miss

/-! ## Groups

What is inside a group is simulated by hypothesis. The parenthesis that closes it is where the
hypothesis, which speaks of ends only, can be applied. -/

abbrev AlikeTerms (kept : Prop) (e e' : Term) : Prop := Piece.Alike kept (.term e) (.term e')

/-- A term with a reference by name that is not kept. -/
abbrev UnkeptTerm (kept : Prop) (e : Term) : Prop := (Piece.term e).Unkept kept

section Nesting

variable {kept : Prop} {inside : Nested}
  (hinside : ∀ mark s qs t, inside mark g s = .done qs t → t.Closes →
    (inside mark g' s).ReadsLike kept .disjunction qs t)
  (hmisses : ∀ mark, NeverMisses (inside mark))

omit h

include hinside hmisses

/-- What stands inside a construct, with the parenthesis that closes it. -/
theorem enclosed_simulates {R : Term → Term → Prop} (mark : Cursor)
    (make : Span → List Sequence → Term)
    (hmake : ∀ span qs qs', Piece.Alike kept (.disjunction qs) (.disjunction qs') →
      R (make span qs) (make span qs'))
    (hnames : ∀ span qs, (Piece.term (make span qs)).referredNames =
      (Piece.disjunction qs).referredNames) :
    Simulates (UnkeptTerm kept) R
      (inside mark >>= fun qs => closeGroup >>= fun _ => spanFrom mark >>= fun span =>
        pure (make span qs))
      (inside mark >>= fun qs => closeGroup >>= fun _ => spanFrom mark >>= fun span =>
        pure (make span qs)) g g' := by
  apply Simulates.of_outcomes
  · intro s e t he
    obtain ⟨qs, u, hqs, he⟩ := bind_eq_done.mp he
    obtain ⟨v, hclose, he⟩ := closeGroup_bind_eq_done.mp he
    rw [spanFrom_bind] at he
    obtain ⟨rfl, rfl⟩ := pure_eq_done.mp he
    rcases hinside _ _ _ _ hqs (.inr hclose.current_eq) with ⟨qs', hqs', halike⟩ | ⟨hunkept, hlong⟩
    · refine .inl ⟨make (.between mark v.cursor) qs', ?_, hmake _ _ _ halike⟩
      rw [bind_of_done hqs']
      exact closeGroup_bind_eq_done.mpr ⟨v, hclose, rfl⟩
    · exact .inr ⟨hunkept.of_names (hnames _ _), Overflows.bind hlong⟩
  · -- once it has begun, a construct ends or is at fault
    intro s he
    rcases bind_eq_miss.mp he with he | ⟨qs, u, -, he⟩
    · exact absurd he (hmisses mark g s)
    rcases bind_eq_miss.mp he with he | ⟨_, v, -, he⟩
    · exact absurd (orElse_eq_miss.mp he).2 fail_ne_miss
    · cases he

theorem plainGroup_simulates (mark : Cursor) (m : Option Modifiers) :
    Simulates (UnkeptTerm kept) (AlikeTerms kept) (plainGroup inside mark m)
      (plainGroup inside mark m) g g' :=
  enclosed_simulates hinside hmisses mark (fun span qs => .group span m qs)
    (fun span _ _ halike => halike.group span m) fun _ _ => by
      simp [Piece.referredNames, Term.referredNames]

/-- A capturing group is simulated if what is inside it is, with the same number. -/
theorem capturingGroup_simulates (mark : Cursor) (name : Option GroupName) :
    Simulates (UnkeptTerm kept) (AlikeTerms kept) (capturingGroup inside mark name)
      (capturingGroup inside mark name) g g' := by
  have hopen : Stable (openCapture name) g g' := .of_eq fun _ => rfl
  exact .after hopen fun index => enclosed_simulates hinside hmisses mark
    (fun span qs => .capture span index name qs)
    (fun span _ _ halike => halike.capture span index name) fun _ _ => by
      simp [Piece.referredNames, Term.referredNames]

include h

theorem namedGroup_simulates (mark : Cursor) :
    Simulates (UnkeptTerm kept) (AlikeTerms kept) (namedGroup inside mark)
      (namedGroup inside mark) g g' := by
  have hconflicts : ∀ name, Stable (conflicts name) g g' := fun _ => .of_eq fun _ => rfl
  refine .after (groupName_stable h) fun name => .after (hconflicts name) fun conflict => ?_
  cases conflict with
  | true => exact .of_fault (Pairing.relaxing_free g g') fun _ => ⟨_, rfl⟩
  | false => exact capturingGroup_simulates hinside hmisses mark (some name)

theorem modifiedGroup_simulates (mark : Cursor) :
    Simulates (UnkeptTerm kept) (AlikeTerms kept) (modifiedGroup inside mark)
      (modifiedGroup inside mark) g g' := by
  have hopening : Stable (do
      require (← supports .modifiers)
      let m ← modifiers
      eat ':'
      return m : Parser Modifiers) g g' :=
    (supports_pairs (congrArg (Edition.supports · .modifiers) h.edition)).bind fun _ =>
      (require_pairs _).bind fun _ =>
        Pairing.Pairs.bind (modifiers_maps (Pairing.relaxingTrees g g')) fun _ =>
          (eat_stable _).bind fun _ => .pure rfl
  refine .after hopening.attempt fun o => ?_
  cases o with
  | some m => exact plainGroup_simulates hinside hmisses mark (some m)
  | none => exact .of_fault (Pairing.relaxing_free g g') fun _ => ⟨_, rfl⟩

/-- A group is simulated if what is inside it is. -/
theorem group_simulates :
    Simulates (UnkeptTerm kept) (AlikeTerms kept) (group inside) (group inside) g g' := by
  refine .here_bind ?_
  rintro _ mark rfl
  refine .after (eat_stable _) fun _ => .after (eats_stable _) fun question => ?_
  cases question with
  | false => exact capturingGroup_simulates hinside hmisses mark none
  | true =>
    refine .after (eats_stable _) fun colon => ?_
    cases colon with
    | true => exact plainGroup_simulates hinside hmisses mark none
    | false =>
      refine .after (supports_pairs (congrArg (Edition.supports · .namedGroups) h.edition)) fun _ =>
        .after (sees_stable _) fun _ => ?_
      split
      · exact namedGroup_simulates h hinside hmisses mark
      · exact modifiedGroup_simulates h hinside hmisses mark

/-- An assertion is simulated, and may be quantified if it could be before. -/
theorem assertion_simulates :
    Simulates (UnkeptTerm kept)
      (fun e e' => AlikeTerms kept e e' ∧ e'.isLookahead = e.isLookahead)
      (assertion inside) (assertion inside) g g' := by
  have hsame : ∀ {p : Parser Term}, Stable p g g' → Simulates (UnkeptTerm kept)
      (fun e e' => AlikeTerms kept e e' ∧ e'.isLookahead = e.isLookahead) p p g g' :=
    fun hp => .of_pairs (hp.mono fun _ _ heq => heq ▸ ⟨.refl _, rfl⟩)
  refine (hsame (.of_eq fun _ => rfl)).orElse ((hsame (.of_eq fun _ => rfl)).orElse ?_)
  have hopening : Stable lookOpening g g' :=
    lookOpening_pairs (congrArg (Edition.supports · .lookbehind) h.edition)
  refine .here_bind ?_
  rintro _ mark rfl
  refine .after hopening fun (direction, negated) => ?_
  exact enclosed_simulates hinside hmisses mark
    (fun span qs => .look span direction negated qs)
    (fun span _ _ halike => ⟨halike.look span direction negated, by cases direction <;> rfl⟩)
    fun _ _ => by simp [Piece.referredNames, Term.referredNames]

/-! ## Atoms

The grammar and the relaxed one may take the alternatives of an atom in different lists, since one
may have the extensions and the other not. -/

variable {cls : Parser CharSet} (hcls : Stable cls g g')

include hcls

omit hcls h hinside hmisses in
theorem anyCharacter_stable : Stable anyCharacter g g' :=
  anyCharacter_maps (Pairing.relaxingTrees g g')

omit hcls h hinside hmisses in
theorem plainCharacter_stable (test : CodePoint → Bool) : Stable (plainCharacter test) g g' :=
  plainCharacter_maps (Pairing.relaxingTrees g g') (Pairing.relaxing_level g g') test

omit hcls h hinside hmisses in
/-- A character that stands for itself by the exact grammars does so in the grammar of the web. -/
theorem plainCharacter_web {e : Term}
    (he : plainCharacter (!·.isSyntaxCharacter) g s = .done e t) :
    (strayBounds <|> plainCharacter (!·.isReservedInWebGrammar) : Parser Term) g' s =
      .done e t := by
  rw [plainCharacter, here_bind] at he
  obtain ⟨c, u, hc, he⟩ := bind_eq_done.mp he
  obtain ⟨hplain, hr⟩ := satisfy_eq_done.mp hc
  have hbrace : s.cursor.current ≠ some (.ofChar '{') := by
    rw [hr.current_eq]
    rintro ⟨⟩
    exact absurd hplain (by decide)
  have hreserved : c.isReservedInWebGrammar = false :=
    CodePoint.isOneOf_eq_false (!·.isSyntaxCharacter) hplain rfl
  have hstray : strayBounds g' s = .miss := bind_of_miss (bracedBounds_eq_miss hbrace)
  rw [orElse_of_miss hstray, plainCharacter, here_bind,
    bind_of_done (satisfy_eq_done.mpr ⟨by rw [hreserved]; rfl, hr⟩)]
  exact Stable.eq_done (characterSetFrom_stable _ _).map he

omit hcls h hinside hmisses in
/-- What is stable is simulated, and loses nothing. -/
theorem Stable.simulates {p : Parser Term} (hp : Stable p g g') :
    Simulates (UnkeptTerm kept) (AlikeTerms kept) p p g g' :=
  .of_pairs (hp.mono fun _ _ heq => heq ▸ .refl _)

omit hcls hinside hmisses in
/-- Atoms begin with a dot or a backslash, or else depend on the grammar. -/
theorem atomOr_relaxed {e : Term} {p p' : Parser Term}
    (hp : escapedAtom g s = .miss → p g s = .done e t → (p' g' s).ReadsLike kept .term e t)
    (he : (anyCharacter <|> escapedAtom <|> p : Parser Term) g s = .done e t) :
    ((anyCharacter <|> escapedAtom <|> p' : Parser Term) g' s).ReadsLike kept .term e t ∨
      DropsReference g g' s e t := by
  rcases orElse_eq_done.mp he with he | ⟨hdot, he⟩
  · exact .inl (.inl ⟨e, orElse_of_done (anyCharacter_stable.eq_done he), .refl _⟩)
  rw [orElse_of_miss (anyCharacter_stable.miss hdot)]
  rcases orElse_eq_done.mp he with he | ⟨hslash, he⟩
  · rcases escapedAtom_relaxed h he with he' | hdrops
    · exact .inl (.inl ⟨e, orElse_of_done he', .refl _⟩)
    · exact .inr hdrops
  · rw [orElse_of_miss (escapedAtom_miss_relaxed h hslash)]
    exact .inl (hp hslash he)

/-- An atom is read as one that is alike, whichever grammar the atom is of. -/
theorem atom_relaxed {e : Term}
    (he : (if g.exact then atom cls inside else webAtom cls inside) g s = .done e t) :
    ((if g'.exact then atom cls inside else webAtom cls inside) g' s).ReadsLike kept .term e t ∨
      DropsReference g g' s e t := by
  have hset : Simulates (UnkeptTerm kept) (AlikeTerms kept) (Term.set <$> cls)
      (Term.set <$> cls) g g' :=
    Stable.simulates hcls.map
  have hgroup := group_simulates h hinside hmisses
  cases hg : g.exact with
  | false =>
    rw [hg] at he
    rw [h.not_exact hg]
    have hlonely : Stable lonelyBackslash g g' :=
      lonelyBackslash_maps (Pairing.relaxingTrees g g')
    have hstray : Stable strayBounds g g' :=
      strayBounds_maps (Pairing.relaxingTrees g g') h.alike
    refine atomOr_relaxed h (fun _ => ?_) he
    exact Simulates.done (hlonely.simulates.orElse (hset.orElse (hgroup.orElse
      (hstray.simulates.orElse (plainCharacter_stable _).simulates))))
  | true =>
    rw [hg] at he
    cases hg' : g'.exact with
    | true =>
      refine atomOr_relaxed h (fun _ => ?_) he
      exact Simulates.done (hset.orElse (hgroup.orElse (plainCharacter_stable _).simulates))
    | false =>
      -- from an exact grammar to that of the web, which knows two more kinds of atoms
      refine atomOr_relaxed h (fun hslash => ?_) he
      intro he
      rw [orElse_of_miss (lonelyBackslash_eq_miss (current_ne_slash hg hslash))]
      exact hset.orElse_done (hgroup.orElse_done fun he =>
        .inl ⟨e, plainCharacter_web he, .refl _⟩) he

/-! ## Terms

A term is read as one that is alike, or, if it was a reference, as the terms its text falls apart
into. -/

omit hcls hinside hmisses in
theorem quantified_simulates (mark : Cursor) {e e' : Term} (halike : AlikeTerms kept e e') :
    Simulates (fun _ => False) (AlikeTerms kept) (quantified mark e) (quantified mark e') g g' := by
  refine .after (quantifier_pairs h.alike false).attempt fun o => ?_
  cases o with
  | some r => exact .spanFrom_bind rfl fun span => .pure (halike.quantified span r)
  | none => exact .pure halike

omit hcls hinside hmisses h in
/-- A quantifier does not bring back a reference that was lost. -/
theorem unkept_of_quantified {mark : Cursor} {e e' : Term}
    (he : quantified mark e g s = .done e' t) (hunkept : UnkeptTerm kept e) :
    UnkeptTerm kept e' := by
  obtain ⟨o, u, -, he⟩ := bind_eq_done.mp he
  cases o with
  | some r =>
    obtain ⟨rfl, -⟩ := pure_eq_done.mp he
    exact hunkept.of_names (by simp [Piece.referredNames, Term.referredNames])
  | none =>
    obtain ⟨rfl, -⟩ := pure_eq_done.mp he
    exact hunkept

/-- What a relaxed grammar makes of a term: terms alike, in the same text, unless the term refers to
a name, when a number in one of those terms may be too long. -/
def RelaxedTerms (cls : Parser CharSet) (inside : Nested) (g g' : Grammar) (s : State) (e : Term)
    (t : State) : Prop :=
  (∃ es, Terms cls inside g' s es t ∧
      Piece.Alike (g'.namedReferences = g.namedReferences) (.terms [e]) (.terms es)) ∨
    UnkeptTerm (g'.namedReferences = g.namedReferences) e ∧ RunsOver (term cls inside) g' s

omit h hcls hinside hmisses in
/-- One term that is read as one. -/
theorem relaxedTerms_of_readsLike {e : Term}
    (he : (term cls inside g' s).ReadsLike (g'.namedReferences = g.namedReferences) .term e t) :
    RelaxedTerms cls inside g g' s e t := by
  rcases he with ⟨e', he', halike⟩ | ⟨hunkept, hlong⟩
  · exact .inl ⟨[e'], .single he', halike.single⟩
  · exact .inr ⟨hunkept, [], s, .nil s, hlong⟩

omit hcls hinside hmisses in
/-- Where a reference was repeated, the bracket at its end is. The tree of the reference has no
groups, that of the bracket has no references either. -/
theorem quantified_bracket {mark : Cursor} {span : Span} {name : GroupName} {v : State} {e : Term}
    (he : quantified mark (.reference span (.name name [])) g t = .done e u) :
    (∃ e', quantified v.cursor (characterTerm v t '>') g' t = .done e' u ∧ (Piece.term e').Bare) ∧
      (Piece.term e).captures = [] ∧ (∀ levels, (Piece.term e).beneath levels = []) ∧
      (Piece.term e).referredNames ≠ [] := by
  rw [quantified] at he
  obtain ⟨o, w, ho, he⟩ := bind_eq_done.mp he
  have ho' := Stable.eq_done (quantifier_pairs h.alike false).attempt ho
  rw [quantified, bind_of_done ho']
  cases o with
  | some r =>
    obtain ⟨rfl, rfl⟩ := pure_eq_done.mp he
    refine ⟨⟨_, rfl, .quantified (.character _) _ _⟩, ?_, fun levels => ?_, ?_⟩
    · rw [Piece.captures_quantified]
      exact Piece.captures_leaf rfl rfl
    · rw [Piece.beneath_quantified]
      exact Piece.beneath_leafTerm levels rfl rfl
    · simp [Piece.referredNames, Term.referredNames]
  | none =>
    obtain ⟨rfl, rfl⟩ := pure_eq_done.mp he
    refine ⟨⟨_, rfl, .character _⟩, Piece.captures_leaf rfl rfl,
      fun levels => Piece.beneath_leafTerm levels rfl rfl, ?_⟩
    simp [Piece.referredNames, Term.referredNames]

omit hcls hinside hmisses in
/-- Where the text of a named reference falls apart, a quantifier after it repeats the last
bracket. -/
theorem dropped_relaxed (hmiss : ∀ s : State, s.cursor.current ≠ some (.ofChar '[') →
      cls g' s = .miss) {e e' : Term} (hdrops : DropsReference g g' s e t)
    (he : quantified s.cursor e g t = .done e' u) :
    RelaxedTerms cls inside g g' s e' u := by
  obtain ⟨hg', hN, hN', cs, name, hname, hr, rfl⟩ := hdrops
  obtain ⟨v, hapart, hclose⟩ : ∃ v, FallsApart cls inside g' s v ∧ v.Reads ['>'] t :=
    reference_text hg' hmiss hN' hname hr
  have hbracket : term cls inside g' v = quantified v.cursor (characterTerm v t '>') g' t := by
    refine term_plain hg' hmiss hclose (by decide) (bracedBounds_eq_miss ?_)
    rw [hclose.current_eq]
    decide
  obtain ⟨⟨e'', he'', hbare''⟩, hcaptures, hbeneath, hnames⟩ := quantified_bracket h (v := v) he
  have hunkept : g'.namedReferences ≠ g.namedReferences := by
    rw [hN, hN']
    exact Bool.false_ne_true
  rcases hapart with ⟨es, hes, hbare⟩ | hover
  · have hall : (Piece.terms (es ++ [e''])).Bare := hbare.append (.single hbare'')
    refine .inl ⟨es ++ [e''], hes.append (.single (hbracket.trans he'')), ?_, ?_, ?_, ?_⟩
    · rw [hall.captures, Piece.captures_terms, hcaptures]
      rfl
    · intro levels
      rw [hall.beneath, Piece.beneath_terms, hbeneath]
      rfl
    · rw [hall.names]
      exact fun _ hn => absurd hn List.not_mem_nil
    · rintro (hkept | hnone)
      · exact absurd hkept hunkept
      · rw [Piece.referredNames] at hnames
        simp only [Piece.referredNames, Term.referredNamesOfTerms, List.append_nil] at hnone
        exact absurd hnone hnames
  · exact .inr ⟨⟨hunkept, hnames⟩, hover⟩

end Nesting

/-! ## Terms in sequence

The relaxed grammar reads on where the other one stops unless an end lies ahead, so the statement is
about chains of terms up to an end. Behind a term no quantifier begins, or it would have been read
with the term. -/

omit h in
/-- A term that begins with an assertion is that assertion, with a quantifier if it may have one. -/
theorem term_of_assertion {cls : Parser CharSet} {inside : Nested} {a : Term}
    (ha : assertion inside g s = .done a u) :
    term cls inside g s =
      (if !g.exact && a.isLookahead then quantified s.cursor a else pure a) g u := by
  rw [term, here_bind, grammar_bind, bind_of_done (attempt_of_done ha)]

omit h in
theorem term_of_atom {cls : Parser CharSet} {inside : Nested} (ha : assertion inside g s = .miss) :
    term cls inside g s =
      ((if g.exact then atom cls inside else webAtom cls inside) >>= quantified s.cursor) g s := by
  rw [term, here_bind, grammar_bind, bind_of_done (attempt_of_miss ha)]
  cases g.exact <;> rfl

section Sequences

variable {cls : Parser CharSet} {inside : Nested} (hcls : Stable cls g g')
  (hmiss : ∀ (g : Grammar) (s : State), s.cursor.current ≠ some (.ofChar '[') → cls g s = .miss)
  (hinside : ∀ mark s qs t, inside mark g s = .done qs t → t.Closes →
    (inside mark g' s).ReadsLike (g'.namedReferences = g.namedReferences) .disjunction qs t)
  (hmisses : ∀ mark, NeverMisses (inside mark))

include hcls hmiss hinside hmisses

omit hcls hmiss in
/-- A term that begins with an assertion is read as one that is alike. By an exact grammar nothing
but an atom can be repeated, so it matters what comes after an assertion. -/
theorem assertion_term_relaxed {a e : Term} (ha : assertion inside g s = .done a u)
    (he : term cls inside g s = .done e t) (ht : g.exact = true → t.atQuantifier = false) :
    (term cls inside g' s).ReadsLike (g'.namedReferences = g.namedReferences) .term e t := by
  rw [term_of_assertion ha] at he
  rcases ((assertion_simulates h hinside hmisses).done ha).symm with
    ⟨hunkept, hlong⟩ | ⟨a', ha', halike, hlook⟩
  · refine .inr ⟨?_, ?_⟩
    · split at he
      · exact unkept_of_quantified he hunkept
      · obtain ⟨rfl, -⟩ := pure_eq_done.mp he
        exact hunkept
    · rw [term, here_bind, grammar_bind]
      exact Overflows.bind (Overflows.attempt hlong)
  cases hg : g.exact with
  | false =>
    rw [hg] at he
    cases hahead : a.isLookahead with
    | true =>
      rw [hahead] at he
      obtain ⟨e', he', halike'⟩ := (quantified_simulates h s.cursor halike).eq_done he
      refine .inl ⟨e', ?_, halike'⟩
      rw [term_of_assertion ha', h.not_exact hg, hlook, hahead]
      exact he'
    | false =>
      rw [hahead] at he
      obtain ⟨rfl, rfl⟩ := pure_eq_done.mp he
      refine .inl ⟨a', ?_, halike⟩
      rw [term_of_assertion ha', hlook, hahead, Bool.and_false]
      rfl
  | true =>
    -- the relaxed grammar would repeat a lookahead, but no quantifier follows
    rw [hg] at he
    obtain ⟨rfl, rfl⟩ := pure_eq_done.mp he
    refine .inl ⟨a', ?_, halike⟩
    rw [term_of_assertion ha']
    split
    · exact quantified_eq_self (ht hg)
    · rfl

/-- A term is read as one term or, if it is a named reference, as several. -/
theorem term_relaxed {e : Term} (he : term cls inside g s = .done e t)
    (ht : g.exact = true → t.atQuantifier = false) : RelaxedTerms cls inside g g' s e t := by
  cases ha : assertion inside g s with
  | fault f =>
    rw [term, here_bind, grammar_bind, bind_apply, attempt, ha] at he
    cases he
  | done a u =>
    exact relaxedTerms_of_readsLike (assertion_term_relaxed h hinside hmisses ha he ht)
  | miss =>
    have ha' : assertion inside g' s = .miss :=
      (assertion_simulates h hinside hmisses).miss rfl trivial ha
    rw [term_of_atom ha] at he
    obtain ⟨a, u, hatom, he⟩ := bind_eq_done.mp he
    rcases atom_relaxed h hinside hmisses hcls hatom with
      (⟨a', hatom', halike⟩ | ⟨hunkept, hlong⟩) | hdrops
    · obtain ⟨e', he', halike'⟩ := (quantified_simulates h s.cursor halike).eq_done he
      refine relaxedTerms_of_readsLike (.inl ⟨e', ?_, halike'⟩)
      rw [term_of_atom ha', bind_of_done hatom', he']
    · refine relaxedTerms_of_readsLike (.inr ⟨unkept_of_quantified he hunkept, ?_⟩)
      rw [term_of_atom ha']
      exact Overflows.bind hlong
    · exact dropped_relaxed h (hmiss g') hdrops he

omit h hcls hinside hmisses in
/-- A term begins neither with a sign that separates terms or repeats them nor, by an exact grammar,
with a brace. -/
theorem term_eq_miss
    (hs : ∀ c, s.cursor.current = some c → c.isOneOf ['|', ')', '*', '+', '?', '{'] = true)
    (hbrace : g.exact = false → s.cursor.current ≠ some (.ofChar '{')) :
    term cls inside g s = .miss := by
  -- the signs are reserved by both grammars, a brace by the web grammar only where it begins bounds
  have hplain : ∀ {test : CodePoint → Bool},
      (∀ c, s.cursor.current = some c → test c = false) → plainCharacter test g s = .miss := by
    intro test htest
    rw [plainCharacter, here_bind, bind_of_miss (satisfy_eq_miss.mpr htest)]
  have hassertion : assertion inside g s = .miss := by
    apply assertion_eq_miss
    · intro c hcur
      exact CodePoint.isOneOf_eq_false (·.isOneOf ['|', ')', '*', '+', '?', '{']) (hs c hcur) rfl
    · intro t hr
      exact absurd hr.current_eq (State.current_ne hs rfl)
  rw [term_of_atom hassertion]
  apply bind_of_miss
  have hany := anyCharacter_eq_miss (g := g) (State.current_ne hs rfl)
  have hescaped := escapedAtom_eq_miss (g := g) (State.current_ne hs rfl)
  have hset := map_eq_miss (f := Term.set).mpr (hmiss g s (State.current_ne hs rfl))
  have hgroup : group inside g s = .miss := group_eq_miss (State.current_ne hs rfl)
  cases hg : g.exact with
  | true =>
    rw [if_pos rfl, atom, orElse_of_miss hany, orElse_of_miss hescaped, orElse_of_miss hset,
      orElse_of_miss hgroup]
    apply hplain
    intro c hcur
    rw [Bool.not_eq_false']
    exact CodePoint.of_isOneOf CodePoint.isSyntaxCharacter (hs c hcur) rfl
  | false =>
    have hlonely := lonelyBackslash_eq_miss (g := g) (State.current_ne hs rfl)
    have hstray : strayBounds g s = .miss := bind_of_miss (bracedBounds_eq_miss (hbrace hg))
    rw [if_neg Bool.false_ne_true, webAtom, orElse_of_miss hany, orElse_of_miss hescaped,
      orElse_of_miss hlonely, orElse_of_miss hset, orElse_of_miss hgroup, orElse_of_miss hstray]
    apply hplain
    intro c hcur
    rw [Bool.not_eq_false']
    have hreserved : (c.isReservedInWebGrammar || c == .ofChar '{') = true :=
      CodePoint.of_isOneOf (fun c => c.isReservedInWebGrammar || c == .ofChar '{') (hs c hcur) rfl
    rw [Bool.or_eq_true, beq_iff_eq] at hreserved
    exact hreserved.resolve_right fun heq => hbrace hg (heq ▸ hcur)

omit h hcls hinside hmisses in
/-- By an exact grammar, a term does not begin where a quantifier might. -/
theorem atQuantifier_of_term (hg : g.exact = true) {e : Term}
    (he : term cls inside g s = .done e t) : s.atQuantifier = false := by
  rw [Bool.eq_false_iff]
  intro hq
  have hmissed : term cls inside g s = .miss := by
    apply term_eq_miss hmiss
    · intro c hcur
      rw [State.atQuantifier, hcur] at hq
      exact CodePoint.of_isOneOf (·.isOneOf ['|', ')', '*', '+', '?', '{']) hq rfl
    · intro hfalse
      rw [hg] at hfalse
      cases hfalse
  rw [hmissed] at he
  cases he

/-- Terms in sequence are read as terms in sequence. -/
theorem terms_relaxed {es : List Term} (hes : Terms cls inside g s es t)
    (ht : t.atQuantifier = false) :
    (∃ es', Terms cls inside g' s es' t ∧
      Piece.Alike (g'.namedReferences = g.namedReferences) (.terms es) (.terms es')) ∨
    (Piece.terms es).Unkept (g'.namedReferences = g.namedReferences) ∧
      RunsOver (term cls inside) g' s := by
  induction hes with
  | nil s => exact .inl ⟨[], .nil s, .refl _⟩
  | @cons s u t e es head tail ih =>
    -- another term begins after this one, or the sequence ends
    have hu : g.exact = true → u.atQuantifier = false := by
      intro hg
      cases tail with
      | nil => exact ht
      | cons next _ => exact atQuantifier_of_term hmiss hg next
    rcases term_relaxed h hcls hmiss hinside hmisses head hu with ⟨es', hes', halike'⟩ | hover
    · rcases ih ht with ⟨fs, hfs, halike⟩ | hover
      · exact .inl ⟨es' ++ fs, hes'.append hfs, halike'.append halike⟩
      · exact .inr ⟨.cons (.inr hover.1), hover.2.after hes'⟩
    · exact .inr ⟨.cons (.inl hover.1), hover.2⟩

/-! ## Alternatives

Alternatives end at a bar, at a parenthesis or at the end of the text, and at each of these both
grammars stop. -/

variable (hprogress : Progresses (term cls inside) g')

include hprogress

/-- An alternative is read as one that is alike, up to where it has to end. -/
theorem sequence_relaxed {q : Sequence} (hq : sequence cls inside g s = .done q t)
    (ht : t.Closes ∨ t.cursor.current = some (.ofChar '|')) :
    (sequence cls inside g' s).ReadsLike (g'.namedReferences = g.namedReferences) .sequence q
      t := by
  have hend : ∀ c, t.cursor.current = some c → c.isOneOf ['|', ')'] = true := by
    intro c hcur
    rcases ht with (hnone | hclose) | hbar
    · rw [hcur] at hnone
      cases hnone
    · rw [hcur] at hclose
      cases hclose
      decide
    · rw [hcur] at hbar
      cases hbar
      decide
  obtain ⟨es, hes, rfl⟩ := sequence_eq_done hq
  have ht : t.atQuantifier = false := by
    rw [State.atQuantifier]
    cases hcur : t.cursor.current with
    | none => rfl
    | some c =>
      exact CodePoint.isOneOf_eq_false (·.isOneOf ['|', ')']) (hend c hcur) rfl
  rcases (terms_relaxed h hcls hmiss hinside hmisses (chain_of_many hes) ht).symm with
    ⟨hunkept, hover⟩ | ⟨es', hes', halike⟩
  · refine .inr ⟨hunkept, ?_⟩
    rw [sequence, here_bind]
    exact Overflows.bind (hover.many hprogress)
  refine .inl ⟨.mk (.between s.cursor t.cursor) es', ?_, halike.sequence _⟩
  -- the relaxed grammar stops here as well, for no term begins with what ends a sequence
  rw [sequence, here_bind, bind_of_done ((many_eq_done hprogress).mpr ⟨hes', ?_⟩)]
  · rfl
  · apply term_eq_miss hmiss
    · intro c hcur
      exact CodePoint.of_isOneOf (·.isOneOf ['|', ')', '*', '+', '?', '{']) (hend c hcur) rfl
    · intro _ hbrace
      exact absurd (hend _ hbrace) (by decide)

/-- Alternatives behind bars are read as ones that are alike, by induction from the last to the
first. Each of them ends where the next bar stands. -/
theorem followingSequences_relaxed {qs : List Sequence}
    (hqs : Chain (fun s q t => followingSequence cls inside g s = .done q t) s qs t)
    (ht : t.Closes) :
    (∃ qs', Chain (fun s q t => followingSequence cls inside g' s = .done q t) s qs' t ∧
      Piece.Alike (g'.namedReferences = g.namedReferences) (.alternatives qs)
        (.alternatives qs')) ∨
    (Piece.alternatives qs).Unkept (g'.namedReferences = g.namedReferences) ∧
      RunsOver (followingSequence cls inside) g' s := by
  induction hqs with
  | nil s => exact .inl ⟨[], .nil s, .refl _⟩
  | @cons s u t q qs head tail ih =>
    have hu : u.Closes ∨ u.cursor.current = some (.ofChar '|') := by
      cases tail with
      | nil => exact .inl ht
      | cons next _ =>
        obtain ⟨v, hbar, -⟩ := eat_bind_eq_done.mp next
        exact .inr hbar.current_eq
    obtain ⟨v, hbar, hq⟩ := followingSequence_eq_done head
    rcases sequence_relaxed h hcls hmiss hinside hmisses hprogress hq hu with
      ⟨q', hq', halike'⟩ | ⟨hunkept, hlong⟩
    · have head' : followingSequence cls inside g' s = .done q' u :=
        eat_bind_eq_done.mpr ⟨v, hbar, hq'⟩
      rcases ih ht with ⟨qs', hqs', halike⟩ | ⟨hunkept, hover⟩
      · exact .inl ⟨q' :: qs', .cons head' hqs', halike'.cons halike⟩
      · exact .inr ⟨.alternatives (.inr hunkept), hover.after (.single head')⟩
    · refine .inr ⟨.alternatives (.inl hunkept), Overflows.runsOver ?_⟩
      rw [followingSequence, bind_of_done (eat_eq_done (x := ()).mpr hbar)]
      exact hlong

omit h hcls hmiss hinside hmisses in
theorem progresses_followingSequence : Progresses (followingSequence cls inside) g' := by
  intro s q t hq
  obtain ⟨u, hbar, hq⟩ := followingSequence_eq_done hq
  have hlt := hbar.remaining_lt
  obtain ⟨es, hes, -⟩ := sequence_eq_done hq
  have hle : ∀ {s es t}, Terms cls inside g' s es t → t.cursor.remaining ≤ s.cursor.remaining := by
    intro s es t hes
    induction hes with
    | nil s => exact Nat.le_refl _
    | cons head _ ih => exact Nat.le_trans ih (Nat.le_of_lt (hprogress _ _ _ head))
  exact Nat.lt_of_le_of_lt (hle (chain_of_many hes)) hlt

omit h hcls hmiss hinside hmisses hprogress in
/-- Where a group or the pattern may end, no quantifier is stray. -/
theorem noStrayQuantifier_of_closes (hs : s.Closes) : noStrayQuantifier g s = .done () s := by
  have hq : s.atQuantifier = false := by
    rw [State.atQuantifier]
    rcases hs with hs | hs <;> rw [hs] <;> decide
  rw [noStrayQuantifier, orElse_of_miss (bind_of_miss (quantifier_eq_miss hq)),
    orElse_of_miss (bind_of_miss (eat_eq_miss.mpr (State.atQuantifier_eq_false hq).2.2.2))]
  rfl

/-- Alternatives are read as ones that are alike, up to where they have to close. -/
theorem alternatives_relaxed {qs : List Sequence} (hqs : alternatives cls inside g s = .done qs t)
    (ht : t.Closes) : (alternatives cls inside g' s).ReadsLike
      (g'.namedReferences = g.namedReferences) .disjunction qs t := by
  obtain ⟨q, rest, u, v, hq, hrest, -, rfl, rfl⟩ := alternatives_eq_done hqs
  have hclose : v.Closes := ht
  have hchain := chain_of_many hrest
  -- behind the first alternative stands a bar or the end
  have hu : u.Closes ∨ u.cursor.current = some (.ofChar '|') := by
    cases hchain with
    | nil => exact .inl hclose
    | cons next _ =>
      obtain ⟨w, hbar, -⟩ := eat_bind_eq_done.mp next
      exact .inr hbar.current_eq
  have henter : modifyScope GroupScope.enterDisjunction g' s =
      .done () (s.inScope GroupScope.enterDisjunction) := rfl
  rcases (sequence_relaxed h hcls hmiss hinside hmisses hprogress hq hu).symm with
    ⟨hunkept, hlong⟩ | ⟨q', hq', halike⟩
  · refine .inr ⟨.alternatives (.inl hunkept), ?_⟩
    rw [alternatives, bind_of_done henter]
    exact Overflows.bind hlong
  rcases (followingSequences_relaxed h hcls hmiss hinside hmisses hprogress hchain hclose).symm
    with ⟨hunkept, hover⟩ | ⟨rest', hrest', halike'⟩
  · refine .inr ⟨.alternatives (.inr hunkept), ?_⟩
    rw [alternatives, bind_of_done henter, bind_of_done hq']
    exact Overflows.bind (hover.many (progresses_followingSequence hprogress))
  -- the repetition of the relaxed grammar stops here as well, since no bar lies ahead
  have hmany : many (followingSequence cls inside) g' u = .done rest' v := by
    refine (many_eq_done (progresses_followingSequence hprogress)).mpr ⟨hrest', ?_⟩
    refine bind_of_miss (eat_eq_miss.mpr ?_)
    rcases hclose with hs | hs <;> rw [hs] <;> decide
  refine .inl ⟨q' :: rest', ?_, (halike.cons halike').disjunction⟩
  rw [alternatives, bind_of_done henter, bind_of_done hq', bind_of_done hmany,
    bind_of_done (noStrayQuantifier_of_closes hclose)]
  rfl

end Sequences

/-- Up to the end of a group or of the pattern, a relaxed grammar reads what a grammar reads. -/
theorem disjunction_relaxed (hsets : g.sets = true → g.unicode = true) {depth : Nat}
    {qs : List Sequence} (hqs : disjunction depth g s = .done qs t) (ht : t.Closes) :
    (disjunction depth g' s).ReadsLike (g'.namedReferences = g.namedReferences) .disjunction qs
      t := by
  -- by induction on the depth that is left; at depth zero nothing may stand inside a group
  have hcls : ∀ depth nested, Stable (charClass depth nested) g g' := charClass_stable h hsets
  have hmiss : ∀ depth (g : Grammar) (s : State), s.cursor.current ≠ some (.ofChar '[') →
      charClass depth false g s = .miss := fun _ _ _ => charClass_eq_miss
  induction depth generalizing s t qs with
  | zero =>
    refine alternatives_relaxed h (hcls 0 false) (hmiss 0) ?_ ?_ ?_ hqs ht
    · intro mark s qs t hqs
      exact absurd hqs failAt_ne_done
    · intro mark g s
      exact failAt_ne_miss
    · intro s e t he
      refine (term_derives ?_ (fun _ _ _ => charClass_derives) he).term_remaining_lt
      intro mark s qs t hqs
      exact absurd hqs failAt_ne_done
  | succ depth ih =>
    refine alternatives_relaxed h (hcls (depth + 1) false) (hmiss (depth + 1)) ?_ ?_ ?_ hqs ht
    · intro mark s qs t
      exact ih
    · exact fun _ => disjunction_neverMisses depth
    · intro s e t he
      exact (term_derives (fun _ _ _ _ => disjunction_derives) (fun _ _ _ => charClass_derives)
        he).term_remaining_lt

end Relaxed

end Parser

end EcmaPattern
