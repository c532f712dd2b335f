import EcmaPattern.Proofs.Agreement.Names
import EcmaPattern.Proofs.Relaxation.Classes

/-!
# Classes side by side

Classes agree under the grammars of a comparison (`charClass_agrees`). There are two places to look
at. Outside the set grammar, a lone `\c` is text by the web grammar, and this is also so by code
points unless the grammar is strict (`classAtom_agrees`). By the set grammar, contents end where no
operand begins; so where only the second grammar has property escapes, the first one stops before
the backslash, and the bracket that should be there is missing (`AgreesOrBlocked`).

Key lemmas:

* `classAtom_agrees`, where a lone `\c` is excused;
* `classSetContents_agrees`, whose conclusion allows the first run to be blocked;
* `charClass_agrees`, by induction on the levels, where being blocked turns out to be a fault.
-/

namespace EcmaPattern.Parser

variable {α β : Type} {k : Comparison} {s t u : State}

/-! ## Class ranges

An atom that begins with a backslash is split off as `escapedClassAtom`, because only there do the
grammars differ: by a property that one of them lacks, or by strictness. -/

theorem classEscapedValue_agrees : Agrees k classEscapedValue :=
  .of_pairs fun _ => classEscapedValue_pairs k.unicode k.exact

/-- An escape in a class agrees, unless it is a property that only the second grammar has. -/
theorem classEscape_agreesAt (mark : Cursor) :
    AgreesAt k (classEscape mark) s ∨ GainsProperty k s.cursor := by
  refine (setEscape_agreesAt mark).imp_left fun hset => ?_
  have hvalue : Agrees k (do characterSetFrom mark (← classEscapedValue) : Parser CharSet) :=
    classEscapedValue_agrees.bind fun _ => characterSetFrom_agrees mark _
  exact (hvalue s).orElse fun _ => hset.orElse fun _ => (characterEscape_agrees mark).map s

theorem GainsProperty.classEscape_eq_miss (h : GainsProperty k s.cursor) (mark : Cursor) :
    classEscape mark k.left s = .miss := by
  have hvalue : classEscapedValue k.left s = .miss := by
    rw [classEscapedValue, orElse_of_miss (bind_of_miss (eat_eq_miss.mpr (h.current_ne rfl))),
      orElse_of_miss, classControlLetter_eq_miss (h.current_ne rfl)]
    rw [grammar_bind, require_bind_eq_miss]
    exact .inr (bind_of_miss (eat_eq_miss.mpr (h.current_ne rfl)))
  rw [classEscape, orElse_of_miss (bind_of_miss hvalue), orElse_of_miss (h.setEscape_eq_miss mark),
    map_eq_miss, characterEscape, bind_of_miss h.escapedValue_eq_miss]

/-- A backslash before a `c` that begins no escape of a class is a lone one. -/
theorem atLoneControl {g : Grammar} {mark : Cursor} (hslash : s.Reads ['\\'] u)
    (hc : u.cursor.current = some (.ofChar 'c')) (hmiss : classEscape mark g u = .miss) :
    s.cursor.AtLoneControl := by
  obtain ⟨hcur, rfl⟩ := State.reads_singleton.mp hslash
  refine ⟨hcur, hc, fun d hd => ?_⟩
  obtain ⟨-, hmiss⟩ := orElse_eq_miss.mp hmiss
  rw [orElse_eq_miss, map_eq_miss, characterEscape] at hmiss
  rcases bind_eq_miss.mp hmiss.2 with hvalue | ⟨v, w, -, h⟩
  · -- else the two would be a control letter
    obtain ⟨-, hvalue⟩ := orElse_eq_miss.mp hvalue
    obtain ⟨hletter, -⟩ := orElse_eq_miss.mp hvalue
    rcases eat_bind_eq_miss.mp hletter with hne | ⟨w, hw, hletter⟩
    · exact absurd hc hne
    · obtain ⟨-, rfl⟩ := State.reads_singleton.mp hw
      rcases bind_eq_miss.mp hletter with hletter | ⟨_, _, -, h⟩
      · exact satisfy_eq_miss.mp hletter d hd
      · cases h
  · cases h

theorem classBackslash_agrees (mark : Cursor) (h : k.right.strict = k.left.strict) :
    Agrees k (classBackslash mark) :=
  .grammar_bind (by rw [h]) ((require_agrees _).bind fun _ => (sees_agrees _ _).bind fun _ =>
    (require_agrees _).bind fun _ => characterSetFrom_agrees mark _)

/-- A backslash stands for itself only before a `c`, and not in the strict grammar. -/
theorem classBackslash_eq_miss {g : Grammar} {mark : Cursor}
    (h : g.strict = true ∨ s.cursor.current ≠ some (.ofChar 'c')) :
    classBackslash mark g s = .miss := by
  rw [classBackslash, grammar_bind, require_bind_eq_miss]
  rcases h with h | h
  · exact .inl (by rw [h]; rfl)
  · refine .inr ?_
    rw [sees_bind, require_bind_eq_miss, Cursor.peek_zero]
    exact .inl (beq_eq_false_iff_ne.mpr h)

/-- An atom of a class that begins with a backslash; its mark is the place before it. -/
def escapedClassAtom (mark : Cursor) : Parser CharSet := do
  eat '\\'
  classEscape mark
    <|> classBackslash mark
    <|> do
      require (← grammar).exact
      fail .invalidEscape

theorem classAtom_eq :
    classAtom = (do
      let mark ← here
      (do characterSetFrom mark (← satisfy fun c => !c.isOneOf ['\\', ']']))
        <|> escapedClassAtom mark) := rfl

/-- Where nothing can be made of a backslash, that is the fault, if the grammar has no extensions.
-/
theorem escapedClassAtom_eq_fault {g : Grammar} {mark : Cursor} (hg : g.exact = true)
    (hslash : s.Reads ['\\'] u) (hescape : classEscape mark g u = .miss)
    (hbackslash : classBackslash mark g u = .miss) :
    escapedClassAtom mark g s = .fault ⟨.invalidEscape, u.cursor.index⟩ := by
  rw [escapedClassAtom, bind_of_done (eat_eq_done (x := ()).mpr hslash), orElse_of_miss hescape,
    orElse_of_miss hbackslash, grammar_bind, hg]
  rfl

/-- After a backslash in a class, the grammars agree, or a lone `\c` is a fault by the first. -/
theorem escapedClassAtom_agrees (hsets : k.left.sets = false) (mark : Cursor) :
    Agrees k (escapedClassAtom mark) := by
  intro s
  have hexact : k.left.unicode = true → k.left.exact = true := fun hu => by
    rw [Grammar.exact, hu, Bool.or_true]
  by_cases hslash : s.cursor.current = some (.ofChar '\\')
  · have hu : s.Reads ['\\'] { s with cursor := s.cursor.advance } :=
      State.reads_singleton.mpr ⟨hslash, rfl⟩
    rcases classEscape_agreesAt (k := k) (s := { s with cursor := s.cursor.advance }) mark
      with hescape | hgains
    -- where the escape agrees, only the lone backslash is left to compare
    · have hrest (hbackslash : classEscape mark k.left { s with cursor := s.cursor.advance } =
          .miss → AgreesAt k (classBackslash mark) { s with cursor := s.cursor.advance }) :
          AgreesAt k (escapedClassAtom mark) s := by
        refine .eat_bind fun v hv => ?_
        obtain ⟨-, rfl⟩ := State.reads_singleton.mp hv
        exact hescape.orElse fun hmiss => (hbackslash hmiss).orElse fun _ => exact_fail_agrees _ _
      rcases k.strict with hstrict | ⟨hleft, hunicode, hstops⟩
      · exact hrest fun _ => classBackslash_agrees mark hstrict _
      -- the strict rules lack a lone `\c`, and this is the one place where that shows
      by_cases hlone : s.cursor.advance.current = some (.ofChar 'c') ∧
          classEscape mark k.left { s with cursor := s.cursor.advance } = .miss
      · have hfault := escapedClassAtom_eq_fault (hexact hunicode) hu hlone.2
          (classBackslash_eq_miss (.inl hleft))
        exact .of_fault hfault
          ⟨s.cursor, .refl _, hstops hsets _ (atLoneControl hu hlone.1 hlone.2)⟩
      · -- without a `c`, the web grammar has nothing to add
        refine hrest fun hmiss => ?_
        have hc : s.cursor.advance.current ≠ some (.ofChar 'c') := fun hc => hlone ⟨hc, hmiss⟩
        exact (miss_agrees _).congr (classBackslash_eq_miss (.inr hc))
          (classBackslash_eq_miss (.inr hc))
    -- a property escape of the second edition only is no escape at all by the first
    · have hfault := escapedClassAtom_eq_fault (hexact hgains.unicode) hu
        (hgains.classEscape_eq_miss mark) (classBackslash_eq_miss (.inr (hgains.current_ne rfl)))
      exact .of_fault hfault (hgains.stops.stops _ _)
  · exact .eat_bind fun u hu => absurd hu.current_eq hslash

/-- An atom of a class agrees. Where a property begins by the second grammar only, the first one is
at fault or has extensions that read the letter. -/
theorem classAtom_agrees (hsets : k.left.sets = false) : Agrees k classAtom := by
  rw [classAtom_eq]
  refine here_agrees.bind fun mark => .orElse ?_ (escapedClassAtom_agrees hsets mark)
  exact (satisfy_agrees _).bind fun _ => characterSetFrom_agrees mark _

theorem classRange_agrees (mark : Cursor) (low dash high : CharSet) :
    Agrees k (classRange mark low dash high) :=
  .of_pairs fun b =>
    Pairing.Maps.of_map_id (classRange_maps (k.trees b) rfl (k.alike b) low dash high)

/-- The contents of a class agree outside the set grammar. -/
theorem classRanges_agrees (hsets : k.left.sets = false) : Agrees k classRanges := by
  have hatom : Agrees k classAtom := classAtom_agrees hsets
  have hitem : Agrees k classRangeItem := by
    refine here_agrees.bind fun mark => hatom.bind fun low => here_agrees.bind fun dashMark =>
      (eats_agrees _).bind fun hyphen => ?_
    cases hyphen with
    | false => exact pure_agrees _
    | true =>
      refine (characterSetFrom_agrees dashMark _).bind fun dash => hatom.attempt.bind fun high => ?_
      cases high with
      | some high => exact classRange_agrees mark low dash high
      | none => exact pure_agrees _
  exact hitem.many.map

/-! ## Operands of the set grammar

The first grammar is `Blocked` before a backslash that begins a property escape by the second
grammar only. There the first one has no operand, and no character either. -/

theorem classSetCharacter_agrees : Agrees k classSetCharacter :=
  .of_pairs fun b =>
    classSetCharacter_maps (k.trees b) (k.level b) (escapedValue_agrees.pairs b)

theorem classSetRange_agrees (first : Character) (mark : Cursor) :
    Agrees k (classSetRange first mark) :=
  .of_pairs fun b =>
    classSetRange_maps (k.trees b) (k.level b) (escapedValue_agrees.pairs b) rfl first

theorem classStrings_agrees : Agrees k classStrings :=
  .of_pairs fun b => classStrings_maps (k.trees b) (k.level b) (escapedValue_agrees.pairs b)

/-- A property escape begins here by the second grammar only. -/
structure Blocked (k : Comparison) (s : State) : Prop where
  slash : s.cursor.current = some (.ofChar '\\')
  gains : GainsProperty k s.cursor.advance

section Operands

variable {inner : Parser CharSet} (hinner : Agrees k inner)
  (hmiss : ∀ s : State, s.cursor.current ≠ some (.ofChar '[') → inner k.left s = .miss)

/-- An escape for a set agrees, unless the first grammar is blocked there. -/
theorem escapedSet_agreesAt : AgreesAt k escapedSet s ∨ Blocked k s := by
  by_cases hblocked : Blocked k s
  · exact .inr hblocked
  refine .inl ((here_agrees s).bind fun mark _ hmark => ?_)
  cases hmark
  refine .eat_bind fun u hu => ?_
  obtain ⟨hslash, rfl⟩ := State.reads_singleton.mp hu
  rcases setEscape_agreesAt (k := k) (s := { s with cursor := s.cursor.advance }) s.cursor
    with hset | hgains
  · exact hset
  · exact absurd ⟨hslash, hgains⟩ hblocked

include hinner in
theorem classSetOperand_agreesAt : AgreesAt k (classSetOperand inner) s ∨ Blocked k s :=
  escapedSet_agreesAt.imp_left fun hset => (hinner s).orElse fun _ => hset.orElse fun _ =>
    (classStrings_agrees s).orElse fun _ => classSetCharacter_agrees.map s

theorem Blocked.classSetCharacter_eq_miss (h : Blocked k s) :
    classSetCharacter k.left s = .miss := by
  have hslash : s.Reads ['\\'] { s with cursor := s.cursor.advance } :=
    State.reads_singleton.mpr ⟨h.slash, rfl⟩
  have hgains : GainsProperty k ({ s with cursor := s.cursor.advance } : State).cursor := h.gains
  have hplain : plainClassSetCharacter k.left s = .miss := by
    rw [plainClassSetCharacter, satisfy_eq_miss, h.slash]
    rintro _ ⟨⟩
    rw [Bool.and_eq_false_iff]
    exact .inr (by decide)
  have hpunctuator : satisfy CodePoint.isClassSetPunctuator k.left
      { s with cursor := s.cursor.advance } = .miss := by
    rw [satisfy_eq_miss]
    intro c hc
    rcases hgains.letter with hl | hl <;> rw [hl] at hc <;> cases hc <;> decide
  rw [classSetCharacter, here_bind, orElse_of_miss (bind_of_miss hplain),
    bind_of_done (eat_eq_done (x := ()).mpr hslash), characterEscape,
    orElse_of_miss (bind_of_miss hgains.escapedValue_eq_miss),
    orElse_of_miss (bind_of_miss hpunctuator)]
  exact bind_of_miss (eat_eq_miss.mpr (hgains.current_ne rfl))

include hmiss in
/-- Where it is blocked, the first grammar finds no operand. -/
theorem Blocked.classSetOperand_eq_miss (h : Blocked k s) :
    classSetOperand inner k.left s = .miss := by
  have hslash : s.Reads ['\\'] { s with cursor := s.cursor.advance } :=
    State.reads_singleton.mpr ⟨h.slash, rfl⟩
  have hset : escapedSet k.left s = .miss := by
    rw [escapedSet, here_bind, bind_of_done (eat_eq_done (x := ()).mpr hslash)]
    exact h.gains.setEscape_eq_miss (s := { s with cursor := s.cursor.advance }) _
  have hstrings : classStrings k.left s = .miss := by
    rw [classStrings, here_bind]
    apply bind_of_miss
    rw [eatAll_eq_miss, List.map_cons, Cursor.eat?, if_pos h.slash, List.map_cons, Cursor.eat?,
      if_neg]
    exact h.gains.current_ne (s := { s with cursor := s.cursor.advance }) rfl
  rw [classSetOperand, orElse_of_miss (hmiss s (by rw [h.slash]; decide)), orElse_of_miss hset,
    orElse_of_miss hstrings, map_eq_miss]
  exact h.classSetCharacter_eq_miss

end Operands

/-! ## Contents of the set grammar

Agreement is weakened to `AgreesOrBlocked`, which says that the first run may also stop at a place
where it is blocked. It is closed under the combinators as long as what comes first agrees outright.
-/

/-- The parser agrees from the state or, by the first grammar, gets no further than a place where it
is blocked. -/
def AgreesOrBlocked (k : Comparison) (p : Parser α) (s : State) : Prop :=
  AgreesAt k p s ∨ ∃ a t, p k.left s = .done a t ∧ Blocked k t

namespace AgreesOrBlocked

variable {p q : Parser α} {f : α → Parser β}

/-- What is blocked behind something that agrees is blocked. -/
theorem bind (hp : AgreesAt k p s)
    (hf : ∀ a t, p k.left s = .done a t → AgreesOrBlocked k (f a) t) :
    AgreesOrBlocked k (p >>= f) s := by
  cases h : p k.left s with
  | done a t =>
    rcases hf a t h with hagrees | ⟨b, u, hb, hblocked⟩
    · refine .inl (hp.bind fun a' t' h' => ?_)
      rw [h] at h'
      cases h'
      exact hagrees
    · exact .inr ⟨b, u, by rw [bind_of_done h, hb], hblocked⟩
  | miss => exact .inl (hp.bind fun _ _ h' => by rw [h] at h'; cases h')
  | fault e => exact .inl (hp.bind fun _ _ h' => by rw [h] at h'; cases h')

/-- What is blocked in the second choice is blocked, if the first one agrees. -/
theorem orElse (hp : AgreesAt k p s) (hq : AgreesOrBlocked k q s) :
    AgreesOrBlocked k (p <|> q) s := by
  cases h : p k.left s with
  | miss =>
    rcases hq with hagrees | ⟨a, t, ha, hblocked⟩
    · exact .inl (hp.orElse fun _ => hagrees)
    · exact .inr ⟨a, t, by rw [orElse_of_miss h, ha], hblocked⟩
  | done a t => exact .inl (hp.orElse fun h' => by rw [h] at h'; cases h')
  | fault e => exact .inl (hp.orElse fun h' => by rw [h] at h'; cases h')

theorem map {f : α → β} (hp : AgreesOrBlocked k p s) : AgreesOrBlocked k (f <$> p) s := by
  rcases hp with hagrees | ⟨a, t, ha, hblocked⟩
  · exact .inl hagrees.map
  · exact .inr ⟨f a, t, map_eq_done.mpr ⟨a, ha, rfl⟩, hblocked⟩

/-- What follows must be at fault where the first grammar is blocked. -/
theorem then_fault (hp : AgreesOrBlocked k p s) (hf : ∀ a, Agrees k (f a))
    (hblocked : ∀ a t, Blocked k t → ∃ e, f a k.left t = .fault e) : AgreesAt k (p >>= f) s := by
  rcases hp with hagrees | ⟨a, t, ha, ht⟩
  · exact hagrees.bind fun a t _ => hf a t
  · obtain ⟨e, he⟩ := hblocked a t ht
    exact .of_fault (by rw [bind_of_done ha, he]) (ht.gains.stops.stops _ _)

end AgreesOrBlocked

section Contents

variable {inner : Parser CharSet} (hinner : Agrees k inner)
  (hmiss : ∀ s : State, s.cursor.current ≠ some (.ofChar '[') → inner k.left s = .miss)

include hinner hmiss

theorem operationStep_agrees (mark : Cursor) (op : SetOperation) :
    Agrees k (operationStep inner mark op) := by
  have hoperand : Agrees k (classSetOperand inner <|> fail .invalidCharacterInClass) := by
    intro s
    rcases classSetOperand_agreesAt hinner with hagrees | hblocked
    · exact hagrees.orElse fun _ => fail_agrees _ s
    · refine .of_fault (e := ⟨.invalidCharacterInClass, s.cursor.index⟩) ?_
        (hblocked.gains.stops.stops _ _)
      rw [orElse_of_miss (hblocked.classSetOperand_eq_miss hmiss)]
      rfl
  refine (eatAll_agrees _).bind fun _ => (sees_agrees _ _).bind fun _ => ?_
  split
  · exact fail_agrees _
  · exact hoperand.bind fun _ => (spanFrom_agrees mark).bind fun _ => pure_agrees _

/-- A chain of operations agrees: where its right side would be blocked, there is a fault anyway. -/
theorem operationChain_agrees (mark : Cursor) (op : SetOperation) (first : CharSet) :
    Agrees k (operationChain inner mark op first) :=
  (operationStep_agrees hinner hmiss mark op).many1.bind fun _ => pure_agrees _

omit hmiss in
theorem unionItem_agreesAt : AgreesAt k (unionItem inner) s ∨ Blocked k s := by
  have hcharacter (mark : Cursor) : Agrees k (do
      let c ← classSetCharacter
      classSetRange c mark <|> pure (.character c) : Parser CharSet) :=
    classSetCharacter_agrees.bind fun c => (classSetRange_agrees c mark).orElse (pure_agrees _)
  exact (classSetOperand_agreesAt hinner).imp_left fun hoperand =>
    (here_agrees s).bind fun mark _ hmark => by
      cases hmark
      exact (hcharacter s.cursor s).orElse fun _ => hoperand

omit hinner in
theorem Blocked.unionItem_eq_miss (h : Blocked k s) : unionItem inner k.left s = .miss := by
  rw [unionItem, here_bind, orElse_of_miss (bind_of_miss h.classSetCharacter_eq_miss)]
  exact h.classSetOperand_eq_miss hmiss

/-- A union goes on until it is blocked. -/
theorem unionItems_agree (count : Nat) (s : State) :
    AgreesOrBlocked k (upTo (unionItem inner) count) s := by
  induction count generalizing s with
  | zero => exact .inl (pure_agrees [] s)
  | succ count ih =>
    rw [upTo_succ_eq]
    rcases unionItem_agreesAt hinner (s := s) with hagrees | hblocked
    · refine .bind hagrees.attempt fun o t _ => ?_
      cases o with
      | some x => exact (ih t).map
      | none => exact .inl (pure_agrees [] t)
    · refine .inr ⟨[], s, ?_, hblocked⟩
      rw [bind_of_done (attempt_of_miss (hblocked.unionItem_eq_miss hmiss))]
      rfl

/-- The members of a union agree until one is blocked; there the repetition ends under the first
grammar. -/
theorem union_agrees (s : State) : AgreesOrBlocked k (many (unionItem inner)) s :=
  (unionItems_agree hinner hmiss (s.cursor.remaining + 1) s).imp_left fun h => h.congr rfl rfl

theorem classSetFrom_agrees (mark : Cursor) (first : CharSet) (s : State) :
    AgreesOrBlocked k (classSetFrom inner mark first) s :=
  .orElse (operationChain_agrees hinner hmiss mark _ first s) <|
    .orElse (operationChain_agrees hinner hmiss mark _ first s)
      (union_agrees hinner hmiss s).map

omit hinner hmiss in
theorem classSetFault_agrees : Agrees k classSetFault :=
  .of_pairs fun b => Pairing.Maps.of_map_id (classSetFault_maps (k.trees b) (k.level b).losing)

omit hinner hmiss in
/-- Where contents are blocked at their start, the backslash is the fault. -/
theorem Blocked.classSetFault_eq_fault (h : Blocked k s) :
    classSetFault k.left s = .fault ⟨.invalidEscape, s.cursor.advance.index⟩ := by
  have hslash : s.Reads ['\\'] { s with cursor := s.cursor.advance } :=
    State.reads_singleton.mpr ⟨h.slash, rfl⟩
  simp only [classSetFault, Cursor.peek_zero, h.slash, beq_self_eq_true, if_true]
  rw [bind_of_done (eat_eq_done (x := ()).mpr hslash)]
  rfl

/-- Contents agree, or the first grammar gets no further than a place where it is blocked. -/
theorem classSetExpression_agrees (s : State) :
    AgreesOrBlocked k (classSetExpression inner) s := by
  refine .bind (here_agrees s) fun mark _ hmark => ?_
  cases hmark
  refine .bind (classSetCharacter_agrees.attempt s) fun o t ho => ?_
  cases o with
  | some c =>
    refine .bind ((classSetRange_agrees c s.cursor).attempt t) fun o u _ => ?_
    cases o with
    | some range => exact (union_agrees hinner hmiss u).map
    | none => exact classSetFrom_agrees hinner hmiss s.cursor _ u
  | none =>
    rcases classSetOperand_agreesAt hinner (s := t) with hagrees | hblocked
    · refine .bind hagrees.attempt fun o u _ => ?_
      cases o with
      | some x => exact classSetFrom_agrees hinner hmiss s.cursor x u
      | none => exact .inl (classSetFault_agrees u)
    · refine .inl (.of_fault (e := ⟨.invalidEscape, t.cursor.advance.index⟩) ?_
        (hblocked.gains.stops.stops _ _))
      dsimp only
      rw [bind_of_done (attempt_of_miss (hblocked.classSetOperand_eq_miss hmiss))]
      exact hblocked.classSetFault_eq_fault

theorem classSetContents_agrees (s : State) : AgreesOrBlocked k (classSetContents inner) s := by
  refine .bind (atEnd_agrees s) fun done t _ => .bind (sees_agrees _ _ t) fun closes u _ => ?_
  split
  · exact .inl (pure_agrees [] u)
  · exact classSetExpression_agrees hinner hmiss u

end Contents

/-! ## Classes

A run that is blocked does not stand before a bracket, so the class is not closed and the first
grammar is at fault, as it should be. -/

/-- A class closes under both grammars or under neither. -/
theorem closeClass_agrees (nested : Bool) : Agrees k (closeClass nested) :=
  .of_pairs fun b => closeClass_pairs (k.level b) nested

/-- Where the contents are blocked, the bracket that closes the class is missing. -/
theorem Blocked.closeClass_eq_fault (h : Blocked k s) (nested : Bool) :
    ∃ e, closeClass nested k.left s = .fault e := by
  rw [closeClass, orElse_of_miss (eat_eq_miss.mpr (by rw [h.slash]; decide))]
  cases nested with
  | true => exact ⟨_, rfl⟩
  | false =>
    refine ⟨⟨.invalidCharacterInClass, s.cursor.index⟩, ?_⟩
    rw [bind_apply, atEnd, h.slash]
    rfl

theorem classOf_agrees (mark : Cursor) (negated : Bool) (elements : List CharSet) :
    Agrees k (classOf mark negated elements) :=
  .of_pairs fun _ => classOf_pairs rfl rfl k.sets negated elements

/-- A class agrees if the classes inside it do: where its contents are blocked, it cannot be closed
under the first grammar, and that is a fault. -/
theorem classBody_agrees {inner : Parser CharSet} (hinner : Agrees k inner)
    (hmiss : ∀ s : State, s.cursor.current ≠ some (.ofChar '[') → inner k.left s = .miss)
    (nested : Bool) : Agrees k (classBody inner nested) := by
  refine here_agrees.bind fun mark => (eat_agrees _).bind fun _ => (eats_agrees _).bind
    fun negated => .grammar_bind (by rw [k.sets]) ?_
  have hrest : ∀ elements : List CharSet, Agrees k (do
      closeClass nested
      if negated && elements.any CharSet.mayContainStrings then fail .negatedClassWithStrings
      else classOf mark negated elements : Parser CharSet) := by
    intro elements
    refine (closeClass_agrees nested).bind fun _ => ?_
    split
    · exact fail_agrees _
    · exact classOf_agrees mark negated elements
  cases hsets : k.left.sets with
  | false => exact (classRanges_agrees hsets).bind hrest
  | true =>
    intro s
    refine (classSetContents_agrees hinner hmiss s).then_fault hrest fun elements t ht => ?_
    obtain ⟨e, he⟩ := ht.closeClass_eq_fault nested
    exact ⟨e, by dsimp only; rw [bind_apply, he]⟩

/-- A class is read alike, or was at fault by the first grammar. -/
theorem charClass_agrees (depth : Nat) (nested : Bool) : Agrees k (charClass depth nested) := by
  induction depth generalizing nested with
  | zero =>
    exact here_agrees.bind fun mark => (eat_agrees _).bind fun _ => failAt_agrees _ _
  | succ depth ih => exact classBody_agrees (ih true) (fun _ => charClass_eq_miss) nested

end EcmaPattern.Parser
