import EcmaPattern.Proofs.Agreement.Classes
import EcmaPattern.Proofs.Relaxation.Passes

/-!
# Patterns side by side

Terms, alternatives and whole patterns agree under the grammars of a comparison
(`pattern_agrees`), and so do passes (`Pattern.pass_agrees`). What opens with a parenthesis and a
question mark is where editions differ: an edition without lookbehinds takes `(?<` for a group and
has no such group, and one without names or modifiers has no group of that kind. An escaped `k` is
where it matters whether there are references by name.
-/

namespace EcmaPattern

/-- Features that came together or later are not there either. -/
theorem Edition.not_supports {e : Edition} {f f' : Feature} (h : f.since ≤ f'.since)
    (hf : e.supports f = false) : e.supports f' = false := by
  rw [supports, decide_eq_false_iff_not] at hf ⊢
  exact fun hf' => hf (Nat.le_trans h hf')

namespace Parser

variable {k : Comparison} {g : Grammar} {s t u : State}

/-! ## Escapes

A reference by number, a set, a character or a reference by name, in this order. If the first
grammar has no references by name, an escaped `k` is a letter or a fault, and in the first case the
comparison must excuse it. -/

/-- A reference by number agrees, since both grammars count the same groups. -/
theorem numberedReference_agrees (mark : Cursor) : Agrees k (numberedReference mark) :=
  .of_pairs fun b => numberedReference_maps (k.trees b) rfl (k.alike b) k.captures

/-- A reference by name agrees where both grammars have them, or where none begins. -/
theorem namedReference_agreesAt (mark : Cursor)
    (h : k.right.namedReferences = k.left.namedReferences ∨
      s.cursor.current ≠ some (.ofChar 'k')) : AgreesAt k (namedReference mark) s := by
  rcases h with heq | hne
  · have hnamed : Agrees k (namedReference mark) :=
      .grammar_bind (by rw [heq]) ((require_agrees _).bind fun _ => (eat_agrees _).bind fun _ =>
        (groupName_agrees.orElse (fail_agrees _)).bind fun _ =>
          (spanFrom_agrees mark).bind fun _ => pure_agrees _)
    exact hnamed s
  · exact (miss_agrees s).congr (namedReference_eq_miss hne) (namedReference_eq_miss hne)

/-- What follows a backslash agrees if escapes for sets and references by name do. -/
theorem atomEscape_agreesAt {mark : Cursor} (hset : AgreesAt k (setEscape mark) s)
    (hnamed : AgreesAt k (namedReference mark) s) : AgreesAt k (atomEscape mark) s :=
  (numberedReference_agrees mark s).orElse fun _ => hset.map.orElse fun _ =>
    ((characterEscape_agrees mark).map s).orElse fun _ => hnamed.orElse fun _ =>
      exact_fail_agrees _ s

/-- By an exact grammar, a letter that begins no escape is a fault. -/
theorem atomEscape_eq_fault {mark : Cursor} (hg : g.exact = true) {c : CodePoint}
    (hc : s.cursor.current = some c) (hdigit : c.digit? 10 = none)
    (hset : setEscape mark g s = .miss) (hvalue : escapedValue g s = .miss)
    (hnamed : namedReference mark g s = .miss) :
    atomEscape mark g s = .fault ⟨.invalidEscape, s.cursor.index⟩ := by
  have hnumber : numberedReference mark g s = .miss := by
    rw [numberedReference, sees_bind, require_bind_eq_miss]
    refine .inr (bind_of_miss ?_)
    rw [number_eq_miss, hc]
    exact hdigit
  have hcharacter : characterEscape mark g s = .miss := bind_of_miss hvalue
  rw [atomEscape, orElse_of_miss hnumber, orElse_of_miss (map_eq_miss.mpr hset),
    orElse_of_miss (map_eq_miss.mpr hcharacter), orElse_of_miss hnamed, grammar_bind, hg]
  rfl

/-- What begins with a backslash is read alike, or was at fault by the first grammar. -/
theorem escapedAtom_agrees (hnames : k.ExcusesNames) : Agrees k escapedAtom := by
  intro s
  have hread (h : ∀ u, s.Reads ['\\'] u → AgreesAt k (atomEscape s.cursor) u) :
      AgreesAt k escapedAtom s := by
    refine (here_agrees s).bind fun mark _ hmark => ?_
    cases hmark
    exact .eat_bind h
  by_cases hslash : s.cursor.current = some (.ofChar '\\')
  · have hu : s.Reads ['\\'] { s with cursor := s.cursor.advance } :=
      State.reads_singleton.mpr ⟨hslash, rfl⟩
    have hfault {e : Fault} (hstops : k.Stops s.cursor e)
        (he : atomEscape s.cursor k.left { s with cursor := s.cursor.advance } = .fault e) :
        AgreesAt k escapedAtom s := by
      refine .of_fault (e := e) ?_ hstops
      rw [escapedAtom, here_bind, bind_of_done (eat_eq_done (x := ()).mpr hu), he]
    -- sets and references by name are the two alternatives that can differ
    have hagrees (hset : AgreesAt k (setEscape s.cursor) { s with cursor := s.cursor.advance })
        (hnamed : k.right.namedReferences = k.left.namedReferences ∨
          s.cursor.advance.current ≠ some (.ofChar 'k')) : AgreesAt k escapedAtom s := by
      refine hread fun u hu' => ?_
      obtain ⟨-, rfl⟩ := State.reads_singleton.mp hu'
      exact atomEscape_agreesAt hset (namedReference_agreesAt _ hnamed)
    rcases setEscape_agreesAt (k := k) (s := { s with cursor := s.cursor.advance }) s.cursor
      with hset | hgains
    · rcases hnames with heq | ⟨hleft, hright, hstops⟩
      · exact hagrees hset (.inl heq)
      by_cases hk : s.cursor.advance.current = some (.ofChar 'k')
      · -- the first grammar has no references, and an exact one lets no letter stand for itself
        have hexact : k.left.exact = true := k.names.resolve_left (by simp [hleft, hright])
        have hidentity : isIdentityEscape k.left 'k' = false := by
          rw [← k.isIdentityEscape_eq]
          exact isIdentityEscape_k hright
        refine hfault ⟨s.cursor, .refl _, hstops _ ⟨hslash, hk⟩⟩ (atomEscape_eq_fault hexact hk rfl
          (setEscape_eq_miss hk rfl rfl) (escapedValue_k_of_identity hidentity hk) ?_)
        rw [namedReference, grammar_bind, hleft]
        rfl
      · exact hagrees hset (.inr hk)
    -- the letter of a property escape is at fault where there are no such escapes
    · have hexact : k.left.exact = true := by rw [Grammar.exact, hgains.unicode, Bool.or_true]
      have hnamed : namedReference s.cursor k.left { s with cursor := s.cursor.advance } = .miss :=
        namedReference_eq_miss (hgains.current_ne (c := .ofChar 'k') rfl)
      rcases hgains.letter with hl | hl
      · exact hfault (hgains.stops.stops _ _) (atomEscape_eq_fault hexact hl rfl
          (hgains.setEscape_eq_miss _) hgains.escapedValue_eq_miss hnamed)
      · exact hfault (hgains.stops.stops _ _) (atomEscape_eq_fault hexact hl rfl
          (hgains.setEscape_eq_miss _) hgains.escapedValue_eq_miss hnamed)
  · exact hread fun u hu => absurd hu.current_eq hslash

/-! ## Assertions

The opening of a lookaround reads `(?<` as far as `(?` where there are no lookbehinds, and then
misses. -/

theorem edgeAssertion_agrees : Agrees k edgeAssertion :=
  .of_pairs fun b => edgeAssertion_maps (k.trees b)

theorem wordBoundary_agrees : Agrees k wordBoundary :=
  .of_pairs fun b => wordBoundary_maps (k.trees b)

theorem closeGroup_agrees : Agrees k closeGroup := (eat_agrees _).orElse (fail_agrees _)

/-- The opening of a lookaround agrees, unless it looks behind and only one edition has that. -/
theorem lookOpening_agreesAt
    (h : k.right.edition.supports .lookbehind = k.left.edition.supports .lookbehind ∨
      ∀ u, s.Reads ['(', '?'] u → u.cursor.current ≠ some (.ofChar '<')) :
    AgreesAt k lookOpening s := by
  have hsign : ∀ behind : Bool, Agrees k (do
      let negated ← (do eat '='; return false) <|> (do eat '!'; return true)
      return (if behind then .behind else .ahead, negated) : Parser (Direction × Bool)) := by
    intro behind
    refine Agrees.bind (Agrees.orElse ?_ ?_) fun _ => pure_agrees _
    · exact (eat_agrees _).bind fun _ => pure_agrees _
    · exact (eat_agrees _).bind fun _ => pure_agrees _
  refine (eatAll_agrees _ s).bind fun _ u hu => ?_
  rcases h with heq | hne
  · refine .supports_bind heq ?_
    cases k.left.edition.supports .lookbehind with
    | true => exact (eats_agrees _).bind hsign u
    | false => exact hsign false u
  · -- where no angle bracket follows, it does not matter who would read it
    have hbehind : ∀ (g : Grammar) (v : State), v.cursor = u.cursor →
        eats '<' g v = .done false v := by
      intro g v hv
      exact eats_of_ne (by rw [hv]; exact hne u (eatAll_eq_done.mp hu))
    have hsame : ∀ (g : Grammar) (v : State), v.cursor = u.cursor → (do
        let behind ← if ← supports .lookbehind then eats '<' else pure false
        let negated ← (do eat '='; return false) <|> (do eat '!'; return true)
        return (if behind then .behind else .ahead, negated) : Parser (Direction × Bool)) g v =
          (do
        let negated ← (do eat '='; return false) <|> (do eat '!'; return true)
        return (if false then .behind else .ahead, negated) : Parser (Direction × Bool)) g v := by
      intro g v hv
      rw [supports_bind]
      cases g.edition.supports .lookbehind with
      | true => exact bind_of_done (hbehind g v hv)
      | false => rfl
    exact (hsign false u).congr (hsame _ _ rfl) (hsame _ _ rfl)

section Nesting

variable {inside : Nested} (hinside : ∀ mark, Agrees k (inside mark))

include hinside

theorem assertion_agreesAt
    (h : k.right.edition.supports .lookbehind = k.left.edition.supports .lookbehind ∨
      ∀ u, s.Reads ['(', '?'] u → u.cursor.current ≠ some (.ofChar '<')) :
    AgreesAt k (assertion inside) s := by
  have hlook : AgreesAt k (lookaround inside) s := by
    refine (here_agrees s).bind fun mark _ hmark => ?_
    cases hmark
    exact (lookOpening_agreesAt h).bind fun opening t _ =>
      ((hinside _).bind fun _ => closeGroup_agrees.bind fun _ => (spanFrom_agrees _).bind fun _ =>
        pure_agrees _) t
  exact (edgeAssertion_agrees s).orElse fun _ => (wordBoundary_agrees s).orElse fun _ => hlook

/-! ## Groups

Names and modifiers demand an edition. An edition that lacks them is at fault behind the question
mark, at an offset that both runs know. -/

omit hinside in
theorem modifiers_agrees : Agrees k modifiers := .of_pairs fun b => modifiers_maps (k.trees b)

theorem plainGroup_agrees (mark : Cursor) (m : Option Modifiers) :
    Agrees k (plainGroup inside mark m) :=
  (hinside mark).bind fun _ => closeGroup_agrees.bind fun _ => (spanFrom_agrees mark).bind fun _ =>
    pure_agrees _

variable (hscopes : k.MapsScopes)

include hscopes

theorem capturingGroup_agrees (mark : Cursor) (name : Option GroupName) :
    Agrees k (capturingGroup inside mark name) :=
  (openCapture_agrees hscopes name).bind fun _ => (hinside mark).bind fun _ =>
    closeGroup_agrees.bind fun _ => (spanFrom_agrees mark).bind fun _ => pure_agrees _

/-- A name that conflicts by the first rule is a fault, so the second rule does not matter there. -/
theorem namedGroup_agrees (mark : Cursor) : Agrees k (namedGroup inside mark) := by
  refine groupName_agrees.bind fun name s => ?_
  rcases hscopes.conflicts s.scope name with heq | ⟨hleft, hstops⟩
  · have hchoice : AgreesAt k (if s.scope.conflicts name then fail .duplicateGroupName
        else capturingGroup inside mark (some name)) s := by
      split
      · exact fail_agrees _ s
      · exact capturingGroup_agrees hinside hscopes mark _ s
    refine hchoice.congr rfl ?_
    show (if (k.scope s.scope).conflicts name then fail .duplicateGroupName
      else capturingGroup inside mark (some name) : Parser Term) k.right (k.across s) = _
    rw [heq]
  · refine .of_fault (e := ⟨.duplicateGroupName, s.cursor.index⟩) ?_
      (Comparison.StopsAlways.stops hstops _ _)
    show (if s.scope.conflicts name then fail .duplicateGroupName
      else capturingGroup inside mark (some name) : Parser Term) k.left s = _
    rw [hleft]
    rfl

omit hinside hscopes in
/-- Without modifiers, what is neither plain nor named is no group. -/
theorem modifiedGroup_eq_fault (h : g.edition.supports .modifiers = false) (mark : Cursor) :
    modifiedGroup inside mark g s = .fault ⟨.invalidGroup, mark.index + 1⟩ := by
  have hopening : (do
      require (← supports .modifiers)
      let m ← modifiers
      eat ':'
      return m : Parser Modifiers) g s = .miss := by
    rw [supports_bind, h]
    rfl
  rw [modifiedGroup, bind_of_done (attempt_of_miss hopening)]
  rfl

omit hscopes in
theorem modifiedGroup_agrees (mark : Cursor) : Agrees k (modifiedGroup inside mark) := by
  rcases k.supports_cases .modifiers with heq | ⟨hleft, -, hstops⟩
  · have hopening : Agrees k (do
        require (← supports .modifiers)
        let m ← modifiers
        eat ':'
        return m : Parser Modifiers) :=
      .supports_bind heq ((require_agrees _).bind fun _ => modifiers_agrees.bind fun _ =>
        (eat_agrees _).bind fun _ => pure_agrees _)
    refine hopening.attempt.bind fun o => ?_
    cases o with
    | some m => exact plainGroup_agrees hinside mark _
    | none => exact failAt_agrees _ _
  · exact fun s => .of_fault (modifiedGroup_eq_fault hleft mark) (hstops.stops _ _)

/-- A group agrees if what is inside it does. -/
theorem group_agrees : Agrees k (group inside) := by
  refine here_agrees.bind fun mark => (eat_agrees _).bind fun _ => (eats_agrees _).bind
    fun question => ?_
  cases question with
  | false => exact capturingGroup_agrees hinside hscopes mark none
  | true =>
    refine (eats_agrees _).bind fun colon => ?_
    cases colon with
    | true => exact plainGroup_agrees hinside mark none
    | false =>
      rcases k.supports_cases .namedGroups with heq | ⟨hleft, -, hstops⟩
      · refine .supports_bind heq ((sees_agrees _ _).bind fun _ => ?_)
        split
        · exact namedGroup_agrees hinside hscopes mark
        · exact modifiedGroup_agrees hinside mark
      · intro s
        refine .of_fault (e := ⟨.invalidGroup, mark.index + 1⟩) ?_ (hstops.stops _ _)
        rw [if_neg Bool.false_ne_true, supports_bind, sees_bind, hleft, Bool.false_and,
          if_neg Bool.false_ne_true]
        exact modifiedGroup_eq_fault (Edition.not_supports (by decide) hleft) mark

/-! ## Terms

A lookbehind that only the second edition has is neither an assertion nor a group by the first, so
it is a fault (`term_eq_fault`). In all other cases the term agrees, part by part. -/

omit hinside hscopes in
/-- An edition without lookbehinds takes their opening for that of a group, and there is no such
group. -/
theorem group_eq_fault (h : g.edition.supports .lookbehind = false) (hr : s.Reads ['(', '?'] u)
    (hu : u.cursor.current = some (.ofChar '<')) :
    group inside g s = .fault ⟨.invalidGroup, s.cursor.index + 1⟩ := by
  obtain ⟨t, hopen, hquestion⟩ := State.reads_cons.mp hr
  have hcolon : eats ':' g u = .done false u := eats_of_ne (by rw [hu]; decide)
  have hnamed : g.edition.supports .namedGroups = false := Edition.not_supports (by decide) h
  rw [group, here_bind, bind_of_done (eat_eq_done (x := ()).mpr hopen),
    bind_of_done (eats_eq_done.mpr (.inl ⟨rfl, hquestion⟩)), if_pos rfl, bind_of_done hcolon,
    if_neg Bool.false_ne_true, supports_bind, sees_bind, hnamed, Bool.false_and,
    if_neg Bool.false_ne_true]
  exact modifiedGroup_eq_fault (Edition.not_supports (by decide) h) s.cursor

section Classes

variable {cls : Parser CharSet} (hcls : Agrees k cls)
  (hmiss : ∀ (g : Grammar) (s : State), s.cursor.current ≠ some (.ofChar '[') → cls g s = .miss)

omit hinside hscopes in
theorem assertion_eq_miss_of_behind (h : g.edition.supports .lookbehind = false)
    (hr : s.Reads ['(', '?'] u) (hu : u.cursor.current = some (.ofChar '<')) :
    assertion inside g s = .miss := by
  have hs := hr.current_eq
  have hedge : edgeAssertion g s = .miss := by
    rw [edgeAssertion, here_bind]
    apply bind_of_miss
    rw [orElse_of_miss (bind_of_miss (eat_eq_miss.mpr (by rw [hs]; decide)))]
    exact bind_of_miss (eat_eq_miss.mpr (by rw [hs]; decide))
  have hword : wordBoundary g s = .miss := by
    have hslash : ∀ c, eatAll ['\\', c] g s = .miss := fun c => eatAll_pair_eq_miss fun v hv => by
      have := hv.current_eq
      rw [hs] at this
      exact absurd this (by decide)
    rw [wordBoundary, here_bind]
    apply bind_of_miss
    rw [orElse_of_miss (bind_of_miss (hslash 'B'))]
    exact bind_of_miss (hslash 'b')
  have hopening : lookOpening g s = .miss := by
    rw [lookOpening, bind_of_done (eatAll_eq_done (x := ()).mpr hr), supports_bind, h,
      if_neg Bool.false_ne_true, bind_of_done (pure_apply false g u)]
    apply bind_of_miss
    rw [orElse_of_miss (bind_of_miss (eat_eq_miss.mpr (by rw [hu]; decide)))]
    exact bind_of_miss (eat_eq_miss.mpr (by rw [hu]; decide))
  rw [assertion, orElse_of_miss hedge, orElse_of_miss hword, lookaround, here_bind,
    bind_of_miss hopening]

omit hinside hscopes in
include hmiss in
/-- Where lookbehinds are not known, one is no assertion and no group, and so it is a fault. -/
theorem term_eq_fault (h : g.edition.supports .lookbehind = false) (hr : s.Reads ['(', '?'] u)
    (hu : u.cursor.current = some (.ofChar '<')) :
    term cls inside g s = .fault ⟨.invalidGroup, s.cursor.index + 1⟩ := by
  have hs := hr.current_eq
  have hany := anyCharacter_eq_miss (g := g) (s := s) (by rw [hs]; decide)
  have hescaped := escapedAtom_eq_miss (g := g) (s := s) (by rw [hs]; decide)
  have hlonely := lonelyBackslash_eq_miss (g := g) (s := s) (by rw [hs]; decide)
  have hset := map_eq_miss (f := Term.set).mpr (hmiss g s (by rw [hs]; decide))
  have hgroup : group inside g s = .fault ⟨.invalidGroup, s.cursor.index + 1⟩ :=
    group_eq_fault h hr hu
  have hatom : (if g.exact then atom cls inside else webAtom cls inside) g s =
      .fault ⟨.invalidGroup, s.cursor.index + 1⟩ := by
    split
    · rw [atom, orElse_of_miss hany, orElse_of_miss hescaped, orElse_of_miss hset, orElse_apply,
        hgroup]
    · rw [webAtom, orElse_of_miss hany, orElse_of_miss hescaped, orElse_of_miss hlonely,
        orElse_of_miss hset, orElse_apply, hgroup]
  rw [term_of_atom (assertion_eq_miss_of_behind h hr hu), bind_apply, hatom]

omit hinside hscopes in
theorem plainCharacter_agrees (test : CodePoint → Bool) : Agrees k (plainCharacter test) :=
  .of_pairs fun b => plainCharacter_maps (k.trees b) (k.level b) test

omit hinside hscopes in
theorem anyCharacter_agrees : Agrees k anyCharacter :=
  .of_pairs fun b => anyCharacter_maps (k.trees b)

include hinside hcls hscopes in
/-- An atom agrees if classes and what is inside groups do. -/
theorem atom_agrees (hnames : k.ExcusesNames) : Agrees k (atom cls inside) :=
  anyCharacter_agrees.orElse ((escapedAtom_agrees hnames).orElse (hcls.map.orElse
    ((group_agrees hinside hscopes).orElse (plainCharacter_agrees _))))

include hinside hcls hscopes in
theorem webAtom_agrees (hnames : k.ExcusesNames) : Agrees k (webAtom cls inside) := by
  have hlonely : Agrees k lonelyBackslash := .of_pairs fun b => lonelyBackslash_maps (k.trees b)
  have hstray : Agrees k strayBounds := .of_pairs fun b => strayBounds_maps (k.trees b) (k.alike b)
  exact anyCharacter_agrees.orElse ((escapedAtom_agrees hnames).orElse (hlonely.orElse
    (hcls.map.orElse ((group_agrees hinside hscopes).orElse
      (hstray.orElse (plainCharacter_agrees _))))))

include hinside hcls hmiss in
/-- A term agrees if classes and what is inside groups do. Lookbehinds that one edition lacks are a
fault of that edition. -/
theorem term_agrees (hnames : k.ExcusesNames) : Agrees k (term cls inside) := by
  intro s
  have hterm (hassertion : AgreesAt k (assertion inside) s) : AgreesAt k (term cls inside) s := by
    refine (here_agrees s).bind fun mark _ hmark => ?_
    cases hmark
    refine .grammar_bind (by rw [k.exact]) (hassertion.attempt.bind fun o t _ => ?_)
    cases o with
    | some e =>
      dsimp only
      split
      · exact quantified_agrees _ _ t
      · exact pure_agrees _ t
    | none =>
      cases k.left.exact with
      | true => exact (atom_agrees hinside hscopes hcls hnames).bind (quantified_agrees s.cursor) t
      | false =>
        exact (webAtom_agrees hinside hscopes hcls hnames).bind (quantified_agrees s.cursor) t
  rcases k.supports_cases .lookbehind with heq | ⟨hleft, -, hstops⟩
  · exact hterm (assertion_agreesAt hinside (.inl heq))
  · by_cases hbehind : ∃ u, s.Reads ['(', '?'] u ∧ u.cursor.current = some (.ofChar '<')
    · obtain ⟨u, hr, hu⟩ := hbehind
      exact .of_fault (term_eq_fault hmiss hleft hr hu) (hstops.stops _ _)
    · exact hterm (assertion_agreesAt hinside (.inr fun u hr hu => hbehind ⟨u, hr, hu⟩))

include hinside hcls hmiss

theorem sequence_agrees (hnames : k.ExcusesNames) : Agrees k (sequence cls inside) :=
  here_agrees.bind fun mark => (term_agrees hinside hscopes hcls hmiss hnames).many.bind fun _ =>
    (spanFrom_agrees mark).bind fun _ => pure_agrees _

/-! ## Alternatives

By induction on the levels that are left. -/

omit hinside hcls hmiss hscopes in
theorem noStrayQuantifier_agrees : Agrees k noStrayQuantifier :=
  .of_pairs fun b => noStrayQuantifier_pairs (k.alike b)

/-- Alternatives agree if classes and what is inside groups do. -/
theorem alternatives_agrees (hnames : k.ExcusesNames) : Agrees k (alternatives cls inside) := by
  have hsequence := sequence_agrees hinside hscopes hcls hmiss hnames
  have hfollowing : Agrees k (followingSequence cls inside) :=
    (eat_agrees _).bind fun _ =>
      (modifyScope_agrees hscopes.followingAlternative).bind fun _ => hsequence
  exact (modifyScope_agrees hscopes.enterDisjunction).bind fun _ =>
    hsequence.bind fun _ => hfollowing.many.bind fun _ => noStrayQuantifier_agrees.bind fun _ =>
      (modifyScope_agrees hscopes.leaveDisjunction).bind fun _ => pure_agrees _

end Classes

end Nesting

/-- A disjunction is read alike, or was at fault by the first grammar. -/
theorem disjunction_agrees (hscopes : k.MapsScopes) (hnames : k.ExcusesNames) (depth : Nat) :
    Agrees k (disjunction depth) := by
  -- by induction on the depth that is left, on which the parser itself recurses
  induction depth with
  | zero =>
    exact alternatives_agrees (fun mark => failAt_agrees _ _) hscopes (charClass_agrees 0 false)
      (fun _ _ => charClass_eq_miss) hnames
  | succ depth ih =>
    exact alternatives_agrees (fun _ => ih) hscopes (charClass_agrees (depth + 1) false)
      (fun _ _ => charClass_eq_miss) hnames

/-! ## Patterns

Behind the alternatives the end of the text is looked for and names are resolved, which uses that
the scopes mean the same. -/

theorem endOfPattern_agrees : Agrees k endOfPattern := by
  intro s
  rw [AgreesAt, endOfPattern, endOfPattern, k.across_cursor]
  cases s.cursor.current with
  | none => exact Pairing.Outcomes.done rfl ⟨.refl s.cursor, rfl⟩
  | some c => exact Pairing.Outcomes.fault rfl

/-- Names are resolved alike, since the scopes mean the same. -/
theorem resolved_agrees (hscopes : k.MapsScopes) (p : Pattern) : Agrees k (resolved p) := by
  intro s
  have hdeclares : (k.across s).scope.declares = s.scope.declares := hscopes.declares s.scope
  have hindexes : (k.across s).scope.indexes = s.scope.indexes := hscopes.indexes s.scope
  rw [AgreesAt, resolved, resolved, hdeclares, hindexes]
  cases p.referredNames.all s.scope.declares with
  | true => exact Pairing.Outcomes.done rfl ⟨.refl s.cursor, rfl⟩
  | false => exact Pairing.Outcomes.fault rfl

/-- A pattern agrees, by induction on the levels that are left. -/
theorem pattern_agrees (hscopes : k.MapsScopes) (hnames : k.ExcusesNames) (depth : Nat) :
    Agrees k (pattern depth) :=
  here_agrees.bind fun mark => (disjunction_agrees hscopes hnames depth).bind fun _ =>
    endOfPattern_agrees.bind fun _ => (spanFrom_agrees mark).bind fun _ =>
      resolved_agrees hscopes _

end Parser

/-! ## Passes

A pass counts groups before it begins. Both grammars are given the same count, since it does not
depend on them. -/

namespace Pattern

variable {flags : FlagSet} {named named' : Bool} {c : Cursor} {k : Comparison}

/-- A pass under the second grammar gives what the pass under the first gives, up to the scope,
unless that finds an excused fault. -/
theorem pass_agrees {rule rule' : DuplicateRule} (o o' : Options) (hscopes : k.MapsScopes)
    (hnames : k.ExcusesNames) (hleft : k.left = grammarFor o flags named c)
    (hright : k.right = grammarFor o' flags named' c) (hdepth : o'.maxDepth = o.maxDepth)
    (hrule : k.scope (.empty rule) = .empty rule') :
    pass rule' o' flags named' c =
        (pass rule o flags named c).map (fun (p, scope) => (p, k.scope scope)) ∨
      ∃ f, pass rule o flags named c = .error f ∧ k.Stops c f := by
  have hagrees := (Parser.pattern_agrees hscopes hnames o.maxDepth ⟨c, .empty rule, 0⟩ :
    Parser.AgreesAt k (Parser.pattern o.maxDepth) _).agrees
  have hstart : k.across ⟨c, .empty rule, 0⟩ = ⟨c, .empty rule', 0⟩ := by
    rw [← hrule]
    rfl
  rw [hstart, hleft, hright] at hagrees
  simp only [pass, hdepth]
  rcases hagrees with heq | ⟨f, hf, hstops⟩
  · rw [heq]
    left
    cases Parser.pattern o.maxDepth (grammarFor o flags named c) ⟨c, .empty rule, 0⟩ <;> rfl
  · right
    rw [hf]
    exact ⟨f, rfl, hstops⟩

end Pattern

end EcmaPattern
