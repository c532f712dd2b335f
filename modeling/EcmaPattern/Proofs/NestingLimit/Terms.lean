import EcmaPattern.Proofs.NestingLimit

/-!
# Terms with fewer levels

Alternatives for which groups and classes may nest less deeply are read as those for which they may
nest more deeply, up to the first place that is too deep (`disjunction_limits`).

Key lemmas:

* `enclosed_limits`, which all groups and lookarounds have in common;
* `sequence_limits`, where a term that is too deep is followed by other terms;
* `disjunction_limits`, by induction on the levels of the second parser.
-/

namespace EcmaPattern.Parser

variable {g : Grammar} {units levels : Nat} {s t : State}

abbrev deepTerm (levels : Nat) (e : Term) : List Nat := (Piece.term e).beneath levels

abbrev deepSequence (levels : Nat) (q : Sequence) : List Nat := (Piece.sequence q).beneath levels

abbrev deepDisjunction (levels : Nat) (qs : List Sequence) : List Nat :=
  (Piece.disjunction qs).beneath levels

/-- What is too deep in terms is too deep in one of them, in order. -/
theorem deepTerms_eq_flatMap (es : List Term) :
    (Piece.terms es).beneath levels = es.flatMap (deepTerm levels) := by
  induction es with
  | nil => rfl
  | cons e es ih => rw [Piece.beneath_terms, List.flatMap_cons, ← ih]

theorem deepDisjunction_eq_flatMap (qs : List Sequence) :
    deepDisjunction levels qs = qs.flatMap (deepSequence levels) := by
  induction qs with
  | nil => rfl
  | cons q qs ih =>
    rw [deepDisjunction, Piece.beneath_disjunction, Piece.beneath_alternatives, List.flatMap_cons,
      ← ih]
    rfl

/-! ## Terms that do not nest

They are read alike whatever the levels, so agreement is all that is needed. -/

theorem edgeAssertion_limits : Limits g units (deepTerm levels) edgeAssertion edgeAssertion := by
  apply edgeAssertion_agrees.limits
  intro s e t h
  rw [edgeAssertion, here_bind] at h
  obtain ⟨edge, u, -, h⟩ := bind_eq_done.mp h
  obtain ⟨rfl, -⟩ := pure_eq_done.mp h
  exact Piece.beneath_leafTerm levels rfl rfl

theorem wordBoundary_limits : Limits g units (deepTerm levels) wordBoundary wordBoundary := by
  apply wordBoundary_agrees.limits
  intro s e t h
  rw [wordBoundary, here_bind] at h
  obtain ⟨negated, u, -, h⟩ := bind_eq_done.mp h
  obtain ⟨rfl, -⟩ := pure_eq_done.mp h
  exact Piece.beneath_leafTerm levels rfl rfl

theorem anyCharacter_limits : Limits g units (deepTerm levels) anyCharacter anyCharacter := by
  apply anyCharacter_agrees.limits
  intro s e t h
  rw [anyCharacter, here_bind] at h
  obtain ⟨_, u, -, h⟩ := bind_eq_done.mp h
  obtain ⟨rfl, -⟩ := pure_eq_done.mp h
  exact Piece.beneath_leafTerm levels rfl rfl

/-- A character is a term that does not nest. -/
theorem characterSetFrom_limits (mark : Cursor) (v : CodePoint) :
    Limits g units (deepTerm levels) (Term.set <$> characterSetFrom mark v)
      (Term.set <$> characterSetFrom mark v) := by
  apply (characterSetFrom_agrees mark v).map.limits
  intro s e t h
  obtain ⟨x, hx, rfl⟩ := map_eq_done.mp h
  obtain ⟨rfl, -⟩ := characterSetFrom_eq_done.mp hx
  exact (Piece.beneath_set levels _).trans (Piece.beneath_character levels _)

theorem plainCharacter_limits (test : CodePoint → Bool) :
    Limits g units (deepTerm levels) (plainCharacter test) (plainCharacter test) :=
  fun s => .after (here_agrees s) fun mark t _ => .after (satisfy_agrees test t) fun v u _ =>
    characterSetFrom_limits mark v u

theorem lonelyBackslash_limits :
    Limits g units (deepTerm levels) lonelyBackslash lonelyBackslash :=
  fun s => .after (here_agrees s) fun mark t _ => .after (eat_agrees _ t) fun _ u _ =>
    .after (sees_agrees 0 _ u) fun c v _ => .after (require_agrees c v) fun _ w _ =>
      characterSetFrom_limits mark _ w

/-- A term behind a backslash does not nest. -/
theorem escapedAtom_limits : Limits g units (deepTerm levels) escapedAtom escapedAtom := by
  refine fun s => .after (here_agrees s) fun mark t _ => .after (eat_agrees _ t) fun _ u _ => ?_
  -- each of the alternatives nests nothing, so agreement is enough
  have hnumbered : Limits g units (deepTerm levels) (numberedReference mark)
      (numberedReference mark) := by
    apply (numberedReference_agrees mark).limits
    intro s e t h
    obtain ⟨n, cs, -, -, -, -, -, rfl⟩ := numberedReference_eq_done h
    exact Piece.beneath_leafTerm levels rfl rfl
  have hset : Limits g units (deepTerm levels) (Term.set <$> setEscape mark)
      (Term.set <$> setEscape mark) := by
    apply ((setEscape_agrees rfl mark).map).limits
    intro s e t h
    obtain ⟨x, hx, rfl⟩ := map_eq_done.mp h
    obtain ⟨cs, make, -, hcs, rfl⟩ := setEscape_eq_done hx
    exact (Piece.beneath_set levels _).trans (Piece.beneath_setSpelling levels _ hcs)
  have hcharacter : Limits g units (deepTerm levels)
      ((Term.set ∘ CharSet.character) <$> characterEscape mark)
      ((Term.set ∘ CharSet.character) <$> characterEscape mark) := by
    apply (characterEscape_agrees mark).map.limits
    intro s e t h
    obtain ⟨c, -, rfl⟩ := map_eq_done.mp h
    exact (Piece.beneath_set levels _).trans (Piece.beneath_character levels _)
  have hnamed : Limits g units (deepTerm levels) (namedReference mark) (namedReference mark) := by
    apply Agrees.limits (fun s => namedReference_agreesAt mark (.inl rfl))
    intro s e t h
    obtain ⟨cs, name, -, -, -, rfl⟩ := namedReference_eq_done h
    exact Piece.beneath_leafTerm levels rfl rfl
  have hfault : Limits g units (deepTerm levels)
      (do require (← grammar).exact; fail .invalidEscape : Parser Term)
      (do require (← grammar).exact; fail .invalidEscape) := by
    apply (exact_fail_agrees _).limits
    intro s e t h
    rw [grammar_bind, require_bind_eq_done] at h
    exact absurd h.2 fail_ne_done
  exact hnumbered.orElse (hset.orElse (hcharacter.orElse (hnamed.orElse hfault))) u

theorem strayBounds_limits : Limits g units (deepTerm levels) strayBounds strayBounds :=
  Agrees.limits ((bracedBounds_agrees true).bind fun _ => fail_agrees _)
    fun _ _ _ h => absurd h strayBounds_ne_done

/-! ## Groups and lookarounds

With no levels left the opening is a fault at once, at the place of the parenthesis. With levels
left the alternatives inside have one level less, on both sides. -/

section Nested

variable {inside inside' : Nested}
  (hinside : ∀ mark : Cursor, Limits g levels
    (fun qs => (Piece.disjunction qs).enclosed mark.index levels) (inside mark) (inside' mark))

include hinside

/-- What is inside a construct, up to the parenthesis that closes it. -/
theorem enclosed_limits (make : Span → List Sequence → Term)
    (hmake : ∀ span qs,
      deepTerm levels (make span qs) = (Piece.disjunction qs).enclosed span.start levels)
    (mark : Cursor) :
    Limits g levels (deepTerm levels)
      (do let qs ← inside mark
          closeGroup
          return make (← spanFrom mark) qs : Parser Term)
      (do let qs ← inside' mark
          closeGroup
          return make (← spanFrom mark) qs) := by
  intro s
  refine (hinside mark s).followed (fun qs => ?_) ?_ fun qs => ?_
  · exact closeGroup_agrees.bind fun _ => (spanFrom_agrees mark).bind fun _ => pure_agrees _
  · intro qs t e u h
    obtain ⟨_, v, -, h⟩ := bind_eq_done.mp h
    rw [spanFrom_bind] at h
    obtain ⟨rfl, -⟩ := pure_eq_done.mp h
    exact hmake _ qs
  · exact NeverMisses.bind (.orElse _ fun _ _ => fail_ne_miss) fun _ =>
      (neverMisses_spanFrom mark).bind fun _ => neverMisses_pure _

/-- A lookaround is limited one level deeper than what is inside it. -/
theorem lookaround_limits :
    Limits g (levels + 1) (deepTerm levels) (lookaround inside) (lookaround inside') := by
  have hopening : Agrees (.same g) lookOpening := fun s => lookOpening_agreesAt (.inl rfl)
  refine fun s => .after (here_agrees s) fun mark t _ => .after_reading (hopening t) ?_ ?_
  · rintro ⟨direction, negated⟩ u hu
    have hr := (lookOpening_eq_done hu).1
    cases direction <;> cases negated <;> exact hr.remaining_lt
  · rintro ⟨direction, negated⟩ u -
    exact enclosed_limits hinside (fun span qs => .look span direction negated qs)
      (fun _ _ => Piece.beneath_look levels _ _ _ _) mark u

theorem assertion_limits :
    Limits g (levels + 1) (deepTerm levels) (assertion inside) (assertion inside') :=
  edgeAssertion_limits.orElse (wordBoundary_limits.orElse (lookaround_limits hinside))

theorem plainGroup_limits (mark : Cursor) (m : Option Modifiers) :
    Limits g levels (deepTerm levels) (plainGroup inside mark m) (plainGroup inside' mark m) :=
  enclosed_limits hinside (fun span qs => .group span m qs)
    (fun _ _ => Piece.beneath_group levels _ _ _) mark

/-- The rest of a capturing group is limited as what is inside it. -/
theorem capturingGroup_limits (mark : Cursor) (name : Option GroupName) :
    Limits g levels (deepTerm levels) (capturingGroup inside mark name)
      (capturingGroup inside' mark name) :=
  fun s => .after (openCapture_agrees (.same g) name s) fun index t _ =>
    enclosed_limits hinside (fun span qs => .capture span index name qs)
      (fun _ _ => Piece.beneath_capture levels _ _ _ _) mark t

theorem namedGroup_limits (mark : Cursor) :
    Limits g levels (deepTerm levels) (namedGroup inside mark) (namedGroup inside' mark) := by
  have hconflicts (name : GroupName) : Agrees (.same g) (conflicts name) :=
    conflicts_agrees fun _ => rfl
  refine fun s => .after (groupName_agrees s) fun name t _ => .after (hconflicts name t) ?_
  rintro (_ | _) u -
  · exact capturingGroup_limits hinside mark _ u
  · exact (fail_agrees _ u).limits fun e v h => absurd h fail_ne_done

theorem modifiedGroup_limits (mark : Cursor) :
    Limits g levels (deepTerm levels) (modifiedGroup inside mark) (modifiedGroup inside' mark) := by
  have hopening : Agrees (.same g) (do
      require (← supports .modifiers)
      let m ← modifiers
      eat ':'
      return m : Parser Modifiers) :=
    .supports_bind rfl ((require_agrees _).bind fun _ => modifiers_agrees.bind
      fun _ => (eat_agrees _).bind fun _ => pure_agrees _)
  refine fun s => .after (hopening.attempt s) ?_
  rintro (_ | m) t -
  · exact (failAt_agrees _ _ t).limits fun e u h => absurd h failAt_ne_done
  · exact plainGroup_limits hinside mark (some m) t

/-- A group is limited one level deeper than what is inside it. -/
theorem group_limits :
    Limits g (levels + 1) (deepTerm levels) (group inside) (group inside') := by
  refine fun s => .after (here_agrees s) fun mark t _ => .after_reading (eat_agrees _ t)
    (fun _ u hu => (eat_eq_done.mp hu).remaining_lt) fun _ u _ => .after (eats_agrees _ u) ?_
  rintro (_ | _) v -
  · exact capturingGroup_limits hinside mark none v
  · refine .after (eats_agrees _ v) ?_
    rintro (_ | _) w -
    · refine .after (supports_agrees rfl w) fun named x _ => .after (sees_agrees _ _ x)
        fun bracket y _ => ?_
      split
      · exact namedGroup_limits hinside mark y
      · exact modifiedGroup_limits hinside mark y
    · exact plainGroup_limits hinside mark none w

end Nested

/-! ## Terms in sequence

The first node beneath the levels is the first one of the first term that has such a node: what has
been read before is not too deep, or the first parser would have broken off there. -/

/-- A quantifier is no level of its own. -/
theorem deepTerm_of_quantified {mark : Cursor} {e e' : Term}
    (h : quantified mark e g s = .done e' t) : deepTerm levels e' = deepTerm levels e := by
  obtain ⟨o, u, -, h⟩ := bind_eq_done.mp h
  cases o with
  | some r =>
    obtain ⟨span, v, -, h⟩ := bind_eq_done.mp h
    obtain ⟨rfl, -⟩ := pure_eq_done.mp h
    exact Piece.beneath_quantified levels _ _ _
  | none =>
    obtain ⟨rfl, -⟩ := pure_eq_done.mp h
    rfl

section Terms

variable {cls cls' : Parser CharSet} {inside inside' : Nested}
  (hcls : Limits g (levels + 1) (deepElement levels) cls cls')
  (hinside : ∀ mark : Cursor, Limits g levels
    (fun qs => (Piece.disjunction qs).enclosed mark.index levels) (inside mark) (inside' mark))

include hcls hinside

omit hinside in
/-- A class that stands as a term is limited as a class. -/
theorem classTerm_limits :
    Limits g (levels + 1) (deepTerm levels) (Term.set <$> cls) (Term.set <$> cls') :=
  fun s => (hcls s).map fun x => Piece.beneath_set levels x

/-- An atom is limited if classes and what is inside groups are. -/
theorem atom_limits :
    Limits g (levels + 1) (deepTerm levels) (atom cls inside) (atom cls' inside') :=
  anyCharacter_limits.orElse (escapedAtom_limits.orElse ((classTerm_limits hcls).orElse
    ((group_limits hinside).orElse (plainCharacter_limits _))))

theorem webAtom_limits :
    Limits g (levels + 1) (deepTerm levels) (webAtom cls inside) (webAtom cls' inside') :=
  anyCharacter_limits.orElse (escapedAtom_limits.orElse (lonelyBackslash_limits.orElse
    ((classTerm_limits hcls).orElse ((group_limits hinside).orElse
      (strayBounds_limits.orElse (plainCharacter_limits _))))))

/-- A term is limited if classes and what is inside groups are. Its quantifier is read behind
whatever was too deep in it. -/
theorem term_limits :
    Limits g (levels + 1) (deepTerm levels) (term cls inside) (term cls' inside') := by
  refine fun s => .after (here_agrees s) fun mark t _ => .grammar_bind ?_
  -- a quantifier follows its element without a miss, and it holds what is too deep there
  have hquantified : ∀ {p p' : Parser Term}, Limits g (levels + 1) (deepTerm levels) p p' →
      Limits g (levels + 1) (deepTerm levels) (p >>= quantified mark) (p' >>= quantified mark) := by
    intro p p' h s
    exact (h s).followed (quantified_agrees mark) (fun e t e' u h => deepTerm_of_quantified h)
      (neverMisses_quantified mark)
  -- what follows an assertion or its miss, what it keeps of the tree, and that it does not miss
  refine (assertion_limits hinside t).attempt.bind ?_ ?_ ?_
  · rintro (_ | e) u - he
    · cases g.exact with
      | true => exact hquantified (atom_limits hcls hinside) u
      | false => exact hquantified (webAtom_limits hcls hinside) u
    · dsimp only
      split
      · apply (quantified_agrees mark e u).limits
        intro e' v h
        rw [deepTerm_of_quantified h]
        exact he
      · apply (pure_agrees e u).limits
        intro e' v h
        obtain ⟨rfl, -⟩ := pure_eq_done.mp h
        exact he
  · rintro (_ | e) u e' v h
    · exact List.nil_prefix
    · dsimp only at h
      split at h
      · rw [deepTerm_of_quantified h]
        exact List.prefix_rfl
      · obtain ⟨rfl, -⟩ := pure_eq_done.mp h
        exact List.prefix_rfl
  · rintro (_ | e) he
    · exact absurd rfl he
    · dsimp only
      split
      · exact neverMisses_quantified mark e
      · exact neverMisses_pure e

/-- An alternative is limited, term by term. -/
theorem sequence_limits :
    Limits g (levels + 1) (deepSequence levels) (sequence cls inside) (sequence cls' inside') := by
  refine fun s => .after (here_agrees s) fun mark t _ =>
    ((term_limits hcls hinside).many t).followed (fun es => ?_) ?_ fun es => ?_
  · exact (spanFrom_agrees mark).bind fun _ => pure_agrees _
  · intro es u q v h
    rw [spanFrom_bind] at h
    obtain ⟨rfl, -⟩ := pure_eq_done.mp h
    rw [deepSequence, Piece.beneath_sequence, deepTerms_eq_flatMap]
  · exact (neverMisses_spanFrom mark).bind fun _ => neverMisses_pure _

theorem followingSequence_limits :
    Limits g (levels + 1) (deepSequence levels) (followingSequence cls inside)
      (followingSequence cls' inside') :=
  fun s => .after (eat_agrees _ s) fun _ t _ =>
    .after (modifyScope_agrees (Comparison.MapsScopes.same g).followingAlternative t)
      fun _ u _ => sequence_limits hcls hinside u

/-- Alternatives are limited, one by one, if classes and what is inside groups are. -/
theorem alternatives_limits :
    Limits g (levels + 1) (deepDisjunction levels) (alternatives cls inside)
      (alternatives cls' inside') := by
  have hrest : ∀ {first : Sequence}, deepSequence levels first = [] →
      Limits g (levels + 1) (deepDisjunction levels)
        (many (followingSequence cls inside) >>= fun rest => endOfAlternatives (first :: rest))
        (many (followingSequence cls' inside') >>= fun rest =>
          endOfAlternatives (first :: rest)) := by
    intro first hfirst s
    refine ((followingSequence_limits hcls hinside).many s).followed
      (fun rest => endOfAlternatives_agrees (.same g) _) ?_
      fun rest => neverMisses_endOfAlternatives _
    intro rest t qs u h
    rw [endOfAlternatives_eq_done h, deepDisjunction_eq_flatMap, List.flatMap_cons, hfirst,
      List.nil_append]
  refine fun s => .after (modifyScope_agrees (Comparison.MapsScopes.same g).enterDisjunction s)
    fun _ t _ => (sequence_limits hcls hinside t).bind (fun first u _ hfirst => hrest hfirst u)
      ?_ fun first _ => ?_
  · intro first u qs v h
    obtain ⟨rest, w, -, h⟩ := bind_eq_done.mp h
    rw [endOfAlternatives_eq_done h, deepDisjunction_eq_flatMap, List.flatMap_cons]
    exact List.prefix_append _ _
  · exact (neverMisses_many _).bind fun rest => neverMisses_endOfAlternatives _

end Terms

/-- Alternatives with fewer levels left for what is in them. -/
theorem disjunction_limits {levels' : Nat} (hle : levels ≤ levels') :
    Limits g (levels + 1) (deepDisjunction levels) (disjunction levels) (disjunction levels') := by
  induction levels generalizing levels' with
  | zero =>
    refine fun s => ?_
    cases levels' with
    | zero =>
      refine alternatives_limits (charClass_limits (Nat.le_refl 0) false) (fun mark => ?_) s
      exact (failAt_agrees _ _).limits fun s qs t h => absurd h failAt_ne_done
    | succ levels' =>
      refine alternatives_limits (charClass_limits hle false) (fun mark s => ?_) s
      exact .inr ⟨mark.index, rfl, Nat.zero_le _, disjunction_neverMisses levels' g s,
        fun qs t _ => rfl⟩
  | succ levels ih =>
    obtain ⟨levels', rfl⟩ := Nat.exists_eq_add_one_of_ne_zero (Nat.ne_zero_of_lt hle)
    exact fun s => alternatives_limits (charClass_limits hle false)
      (fun mark => ih (Nat.le_of_succ_le_succ hle)) s

end EcmaPattern.Parser
