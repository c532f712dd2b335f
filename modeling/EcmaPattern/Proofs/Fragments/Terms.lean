import EcmaPattern.Proofs.Fragments
import EcmaPattern.Proofs.Fragments.Numbers

/-!
# Terms in fragments

Groups and lookarounds are read in a text that is cut off as they are in the whole text, as long as
nothing in them refers to a group: then only the numbers of the groups differ, by the number of
groups that open before the text (`disjunction_follows`). A group or a lookaround that ends where
the text is cut off is read from the text that is cut off alone (`group_carries`,
`lookaround_carries`).

Key lemmas:

* `Carries.after` and the lemmas around it, for a construct whose end may lie beyond the cut;
* `enclosed_carries`, which all groups and lookarounds have in common;
* `disjunction_follows`, by induction on the levels that are left.
-/

namespace EcmaPattern

namespace Parser

open Term

variable {k : Cut}

/-! ## Terms that hold no groups

Their values are the same in both texts. Only a reference to a group is an exception, since its
value depends on what else there is in the pattern. -/

/-- A parser of terms, run over the text that is cut off: what refers to a group is excused. -/
abbrev TermFollows (k : Cut) (p q : Parser Term) : Prop :=
  Follows k (fun e => (Node.term e).Refers) (raise k.groups) p q

abbrev AlternativesFollow (k : Cut) (p q : Parser (List Sequence)) : Prop :=
  Follows k AnyRefers (raiseAll k.groups) p q

theorem edgeAssertion_follows : TermFollows k edgeAssertion edgeAssertion := by
  have hedge : ∀ (c : CodePoint) edge, c.mayPart = false → k.pairing.Pairs Eq
      (do eat c; return edge : Parser Edge) (do eat c; return edge) :=
    fun c edge hc => (sign_pairs hc).bind fun _ => .pure rfl
  exact .here_bind fun m m' hm => .after ((hedge _ _ (by decide)).orElse (hedge _ _ (by decide)))
    fun edge => .spanFrom_bind hm fun span => .pure (by simp [raise, Cut.pairing])

theorem wordBoundary_follows : TermFollows k wordBoundary wordBoundary := by
  have hletter : ∀ (cs : List Char) negated,
      cs.all (fun c => !(CodePoint.ofChar c).mayPart) = true → k.pairing.Pairs Eq
        (do eatAll cs; return negated : Parser Bool) (do eatAll cs; return negated) :=
    fun cs negated hcs => (eatAll_pairs hcs).bind fun _ => .pure rfl
  exact .here_bind fun m m' hm =>
    .after ((hletter _ _ (by decide)).orElse (hletter _ _ (by decide))) fun negated =>
      .spanFrom_bind hm fun span => .pure (by simp [raise, Cut.pairing])

theorem anyCharacter_follows : TermFollows k anyCharacter anyCharacter :=
  .here_bind fun m m' hm => .after (sign_pairs (by decide)) fun _ =>
    .spanFrom_bind hm fun span => .pure (by simp [raise, Cut.pairing])

/-- A set holds no groups. -/
theorem set_follows {p q : Parser CharSet} (h : k.pairing.Goes k.Past Eq p q) :
    TermFollows k (Term.set <$> p) (Term.set <$> q) :=
  h.map_of (fun x y hxy => by rw [hxy]; simp [raise]) fun _ _ _ => .inl

theorem plainCharacter_follows (test : CodePoint → Bool) :
    TermFollows k (plainCharacter test) (plainCharacter test) :=
  .here_bind fun m _ hm => (k.pairing_losing.satisfy test).bind
    (fun v => set_follows (.of_pairs (characterSetFrom_maps k.trees hm v)))
    (retains_past fun v => (characterSetFrom_proceeds m v).bind fun _ => .pure _)

theorem lonelyBackslash_follows : TermFollows k lonelyBackslash lonelyBackslash :=
  .here_bind fun _ _ hm => .after (sign_pairs (by decide)) fun _ =>
    .after (k.pairing_losing.sees _) fun _ => .after (require_pairs _) fun _ =>
      set_follows (.of_pairs (characterSetFrom_maps k.trees hm _))

theorem strayBounds_follows : TermFollows k strayBounds strayBounds :=
  .after (bracedBounds_pairs k.pairing_alike true) fun _ => .of_pairs (.fail rfl)

/-- A name does not read the closing sign. -/
theorem groupName_within : k.pairing.Pairs Eq groupName groupName :=
  groupName_pairs k.pairing_alike rfl fun _ => Cut.isOneOf_sign

section References

variable {m m' : Cursor} (hm : k.pairing.Marks m m')

include hm

/-- A reference by name is excused, whatever it means. -/
theorem namedReference_follows : TermFollows k (namedReference m) (namedReference m') :=
  .grammar_bind (.after (require_pairs _) fun _ => .after (sign_pairs (by decide)) fun _ =>
    .after (groupName_within.orElse (.fail rfl)) fun name =>
      .spanFrom_bind hm fun span => .pure (by simp [raise, Cut.pairing]))

variable (hcaptures : k.captures ≤ k.left.captures)

include hcaptures

omit hm in
/-- A number that is no reference in the whole text is none in a part of it, where there are not
more groups. -/
theorem numberedReference_follows :
    TermFollows k (numberedReference m) (numberedReference m') := by
  refine .after (k.pairing_losing.sees _) fun _ => .after (require_pairs _) fun _ =>
    .after number_pairs fun n => .of_free k.pairing_free ?_ ?_
  · intro s s' e t hs _ hdone
    rw [grammar_bind] at hdone
    split at hdone
    · rw [spanFrom_bind] at hdone
      obtain ⟨rfl, -⟩ := pure_eq_done.mp hdone
      exact .inl (.inr (Node.refers_iff.mpr (.inl rfl)))
    · split at hdone <;> cases hdone
  · intro s s' hs _ hmiss
    rw [grammar_bind] at hmiss ⊢
    split at hmiss
    · cases hmiss
    · next hn =>
      have hexact : k.pairing.right.exact = k.pairing.left.exact := rfl
      split at hmiss
      · cases hmiss
      · next hweb =>
        have hn' : ¬n ≤ k.pairing.right.captures := fun hle => hn (Nat.le_trans hle hcaptures)
        rw [if_neg hn', hexact, if_neg hweb]
        rfl

/-- What is behind a backslash follows, unless it refers to a group. -/
theorem atomEscape_follows : TermFollows k (atomEscape m) (atomEscape m') := by
  have hcharacter : TermFollows k
      ((Term.set ∘ CharSet.character) <$> characterEscape m)
      ((Term.set ∘ CharSet.character) <$> characterEscape m') :=
    (characterEscape_goes k.trees k.pairing_losing hm
      (escapedValue_goes k.pairing_losing k.pairing_sameRules)).map_of
        (fun c d hcd => by rw [show d = c from hcd.symm]; simp [raise]) fun _ _ _ => .inl
  have hset : TermFollows k (Term.set <$> setEscape m) (Term.set <$> setEscape m') :=
    set_follows (.of_pairs (setEscape_maps k.trees hm k.pairing_sameProperties))
  exact (numberedReference_follows hcaptures).orElse (hset.orElse (hcharacter.orElse
    ((namedReference_follows hm).orElse (.of_pairs (exact_fail_pairs k.pairing_alike rfl)))))

end References

/-- A term behind a backslash follows, unless it refers to a group. -/
theorem escapedAtom_follows (hcaptures : k.captures ≤ k.left.captures) :
    TermFollows k escapedAtom escapedAtom :=
  .here_bind fun _ _ hm => .after (sign_pairs (by decide)) fun _ => atomEscape_follows hm hcaptures

/-! ## Quantifiers

A quantifier holds the element it is about, so numbers are raised in it. The bounds do not close
anything; their brace is not among the closing signs. -/

/-- A quantifier does not make a reference disappear. -/
theorem quantified_refers {g : Grammar} {mark : Cursor} {e e' : Term} {s t : State}
    (h : quantified mark e g s = .done e' t) (he : (Node.term e).Refers) :
    (Node.term e').Refers := by
  obtain ⟨o, u, -, h⟩ := bind_eq_done.mp h
  cases o with
  | none =>
    obtain ⟨rfl, -⟩ := pure_eq_done.mp h
    exact he
  | some r =>
    dsimp only at h
    rw [spanFrom_bind] at h
    obtain ⟨rfl, -⟩ := pure_eq_done.mp h
    exact he.of_child (by rw [Node.children_quantified]; exact List.mem_singleton_self _)

/-- A quantifier is read alike behind a term and behind the raised term. -/
theorem quantified_follows {m m' : Cursor} (hm : k.pairing.Marks m m') (e : Term) :
    TermFollows k (quantified m (e.raise k.groups)) (quantified m' e) := by
  refine .after (quantifier_pairs k.pairing_alike false).attempt fun o => ?_
  cases o with
  | some r => exact .spanFrom_bind hm fun span => .pure (by rw [raise]; rfl)
  | none => exact .pure rfl

theorem quantified_proceeds (g : Grammar) (mark : Cursor) (e : Term) :
    Proceeds g (quantified mark e) :=
  ⟨neverMisses_quantified mark e g, (quantified_agrees mark e).advances⟩

/-! ## Groups

A group opens, reads alternatives and closes. Its closing sign may be the one at the cut, and then
nothing of the group is left to be read, or it may stand before it. -/

theorem progresses_closeGroup (g : Grammar) : Progresses closeGroup g := by
  refine (progresses_eat _ g).orElse ?_
  intro s x t hx
  exact absurd hx fail_ne_done

theorem closeGroup_proceeds (g : Grammar) : Proceeds g closeGroup :=
  .orElse (.of_progresses (progresses_eat _ g)) (.fail _)

/-- The parenthesis that closes a group may be the sign before the cut. -/
theorem closeGroup_follows : k.pairing.Goes k.Past Eq closeGroup closeGroup := by
  have hsign : k.pairing.Goes k.Past Eq (eat ')') (eat ')') :=
    k.pairing_losing.bind (k.pairing_losing.satisfy _) (fun _ => .pure rfl) fun _ => .pure _
  exact hsign.orElse (.of_pairs (.fail rfl))

/-- A construct is read over the text that is cut off as over the whole text, also if it ends at
the cut. -/
structure Carries (k : Cut) (p q : Parser Term) : Prop where
  follows : TermFollows k p q
  closes : Closes k (fun e => (Node.term e).Refers) (raise k.groups) p q

namespace Carries

variable {α : Type} {p q : Parser Term}

/-- What comes before the construct's own end may be any pair of runs. -/
theorem after {p q : Parser α} {r r' : α → Parser Term} (hp : k.pairing.Pairs Eq p q)
    (hr : ∀ a, Carries k (r a) (r' a)) : Carries k (p >>= r) (q >>= r') :=
  ⟨.after hp fun a => (hr a).follows, .after hp fun a => (hr a).closes⟩

theorem here_bind {r r' : Cursor → Parser Term}
    (hr : ∀ m m', k.pairing.Marks m m' → Carries k (r m) (r' m')) :
    Carries k (here >>= r) (here >>= r') :=
  ⟨.here_bind fun m m' hm => (hr m m' hm).follows, .here_bind fun m m' hm => (hr m m' hm).closes⟩

theorem ite {c : Prop} [Decidable c] {p' q' : Parser Term} (hp : Carries k p q)
    (hp' : Carries k p' q') : Carries k (if c then p else p') (if c then q else q') :=
  ⟨.ite hp.follows hp'.follows, .ite hp.closes hp'.closes⟩

theorem failAt (cause : Cause) (index : Nat) (q : Parser Term) :
    Carries k (failAt cause index) q := by
  refine ⟨failAt_follows _ _ _, ?_⟩
  intro s s' e t _ hdone
  exact absurd hdone failAt_ne_done

/-- What is carried over in some states is carried over from others that lead to them. -/
theorem of_states {p₂ q₂ : Parser Term}
    (hp : ∀ s s', k.Within s s' → ∃ u u' r r', Carries k r r' ∧ k.Within u u' ∧
      (p₂ k.left s = r k.left u ∨ ∃ e, p₂ k.left s = .fault e) ∧
      q₂ k.right s' = r' k.right u') : Carries k p₂ q₂ := by
  constructor
  · intro s s' hs _
    obtain ⟨u, u', r, r', hr, hu, hleft, hright⟩ := hp s s' hs
    rw [show q₂ k.pairing.right s' = r' k.right u' from hright]
    rcases hleft with hleft | ⟨e, hleft⟩
    · rw [show p₂ k.pairing.left s = r k.left u from hleft]
      exact hr.follows u u' hu trivial
    · rw [show p₂ k.pairing.left s = .fault e from hleft]
      exact .excused trivial
  · intro s s' e t hs hdone
    obtain ⟨u, u', r, r', hr, hu, hleft, hright⟩ := hp s s' hs
    rcases hleft with hleft | ⟨f, hleft⟩
    · rw [hright]
      exact hr.closes _ _ _ _ hu (hleft ▸ hdone)
    · rw [hleft] at hdone
      cases hdone

/-- A capturing group gets a lower number in the text that is cut off. -/
theorem openCapture_bind {name : Option GroupName} {r r' : Nat → Parser Term}
    (hr : ∀ index, Carries k (r (index + k.groups)) (r' index)) :
    Carries k (openCapture name >>= r) (openCapture name >>= r') := by
  refine .of_states fun s s' hs => ?_
  have heq : s.opened + 1 = s'.opened + 1 + k.groups := by rw [hs.opened]; omega
  refine ⟨s.openCapture name, s'.openCapture name, _, _, hr (s'.opened + 1),
    ⟨hs.cursor, hs.ahead, heq, ?_⟩, .inl (heq ▸ rfl), rfl⟩
  cases name <;> exact hs.rule

/-- Where names are not checked, none is refused. -/
theorem unlessConflicts {name : GroupName} (h : Carries k p q) :
    Carries k (do if ← conflicts name then fail .duplicateGroupName else p)
      (do if ← conflicts name then fail .duplicateGroupName else q) := by
  refine .of_states fun s s' hs => ⟨s, s', p, q, h, hs, ?_, ?_⟩
  · change (if s.scope.conflicts name then fail .duplicateGroupName else p : Parser Term) _ _ = _ ∨
      ∃ e, (if s.scope.conflicts name then fail .duplicateGroupName else p : Parser Term) _ _ = _
    split
    · exact .inr ⟨_, rfl⟩
    · exact .inl rfl
  · show (if s'.scope.conflicts name then fail .duplicateGroupName else q : Parser Term) _ _ = _
    rw [GroupScope.conflicts, hs.rule]
    rfl

end Carries

section Enclosed

variable {inside inside' : Nested} (hinside : ∀ m m', k.pairing.Marks m m' →
  AlternativesFollow k (inside m) (inside' m'))

include hinside

/-- What is inside a construct, up to the parenthesis that closes it. -/
theorem enclosed_carries {make make' : Span → List Sequence → Term} {m m' : Cursor}
    (hm : k.pairing.Marks m m')
    (hmake : ∀ span qs, (make' span qs).raise k.groups = make span (raiseAll k.groups qs))
    (hchild : ∀ span qs, ∀ q ∈ qs, .sequence q ∈ (Node.term (make span qs)).children) :
    Carries k
      (do let qs ← inside m
          closeGroup
          return make (← spanFrom m) qs : Parser Term)
      (do let qs ← inside' m'
          closeGroup
          return make' (← spanFrom m') qs) := by
  -- a reference inside is one of the whole, so the excuse carries over
  have hrefers : ∀ {qs : List Sequence} {u t : State} {e : Term},
      (do closeGroup; return make (← spanFrom m) qs : Parser Term) k.left u =
        .done e t → AnyRefers qs → (Node.term e).Refers := by
    intro qs u t e h hqs
    obtain ⟨v, -, h⟩ := closeGroup_bind_eq_done.mp h
    rw [spanFrom_bind] at h
    obtain ⟨rfl, -⟩ := pure_eq_done.mp h
    exact hqs.of_children (hchild _ qs)
  have hclose : ∀ qs, TermFollows k
      (do closeGroup; return make (← spanFrom m) (raiseAll k.groups qs))
      (do closeGroup; return make' (← spanFrom m') qs) := fun qs =>
    closeGroup_follows.bind (fun _ => .spanFrom_bind hm fun span => .pure (hmake span qs))
      (retains_past fun _ => .spanFrom_bind m fun _ => .pure _)
  constructor
  · exact (hinside m m' hm).bind hclose
      (fun qs => .bind (closeGroup_proceeds _) fun _ => .spanFrom_bind _ fun _ => .pure _) hrefers
  -- and if the parenthesis is the one at the cut, it is the last sign of the second text
  · refine .bind (hinside m m' hm) (fun qs => ?_) (fun qs => ?_) hrefers
    · intro s s' e t hs hdone hstop _
      obtain ⟨rfl, hahead⟩ := hm
      obtain ⟨u, hr, h⟩ := closeGroup_bind_eq_done.mp hdone
      rw [spanFrom_bind] at h
      obtain ⟨rfl, rfl⟩ := pure_eq_done.mp h
      obtain ⟨u', hr', hend, hindex⟩ := hs.close hr hstop
      have hspan : Span.between _ u.cursor = .between m' u'.cursor :=
        hahead.between (hindex.trans hend.index.symm) (Nat.le_of_eq hend.index)
      refine ⟨make' (.between m' u'.cursor) qs, u', ?_, ?_, hend⟩
      · exact closeGroup_bind_eq_done.mpr ⟨u', hr', rfl⟩
      · rw [hspan, hmake]
    · exact (progresses_closeGroup _).bind fun _ =>
        (Proceeds.spanFrom_bind _ fun _ => .pure _).advances

/-- A lookaround is carried over, also if it ends at the cut. -/
theorem lookaround_carries : Carries k (lookaround inside) (lookaround inside') := by
  refine .here_bind fun m m' hm => .after (lookOpening_pairs rfl) ?_
  rintro ⟨direction, negated⟩
  refine enclosed_carries hinside hm (fun span qs => by rw [raise]) fun span qs q hq => ?_
  rw [Node.children_look]
  exact List.mem_map_of_mem hq

section Marks

variable {m m' : Cursor} (hm : k.pairing.Marks m m')

include hm

/-- A capturing group is carried over, with a lower number. -/
theorem capturingGroup_carries (name : Option GroupName) :
    Carries k (capturingGroup inside m name) (capturingGroup inside' m' name) := by
  refine .openCapture_bind fun index => enclosed_carries hinside hm
    (fun span qs => by rw [raise]) fun span qs q hq => ?_
  rw [Node.children_capture]
  exact List.mem_map_of_mem hq

theorem plainGroup_carries (modifiers : Option Modifiers) :
    Carries k (plainGroup inside m modifiers) (plainGroup inside' m' modifiers) := by
  refine enclosed_carries hinside hm (fun span qs => by rw [raise]) fun span qs q hq => ?_
  have hmem : Node.sequence q ∈ qs.map Node.sequence := List.mem_map_of_mem hq
  cases modifiers with
  | none => rwa [Node.children_group_none]
  | some _ =>
    rw [Node.children_group_some]
    exact List.mem_cons_of_mem _ hmem

theorem modifiedGroup_carries :
    Carries k (modifiedGroup inside m) (modifiedGroup inside' m') := by
  have hopening : k.pairing.Pairs Eq (do
      require (← supports .modifiers)
      let m ← modifiers
      eat ':'
      return m : Parser Modifiers) (do
      require (← supports .modifiers)
      let m ← modifiers
      eat ':'
      return m) :=
    .bind (supports_pairs rfl) fun _ => (require_pairs _).bind fun _ =>
      Pairing.Pairs.bind (modifiers_maps k.trees) fun _ => (sign_pairs (by decide)).bind fun _ =>
        .pure rfl
  refine .after hopening.attempt fun o => ?_
  cases o with
  | some found => exact plainGroup_carries hinside hm (some found)
  | none => exact .failAt _ _ _

end Marks

/-- A group is carried over, also if it ends at the cut. -/
theorem group_carries : Carries k (group inside) (group inside') :=
  .here_bind fun _ _ hm => .after (sign_pairs (by decide)) fun _ =>
    .after (eats_pairs (Pairing.not_parts (by decide))) fun _ => .ite
      (.after (eats_pairs (Pairing.not_parts (by decide))) fun _ =>
        .ite (plainGroup_carries hinside hm none)
          (.after (supports_pairs rfl) fun _ => .after (k.pairing_losing.sees _) fun _ => .ite
            (.after groupName_within fun name =>
              .unlessConflicts (capturingGroup_carries hinside hm (some name)))
            (modifiedGroup_carries hinside hm)))
      (capturingGroup_carries hinside hm none)

/-- An assertion follows if what is inside it does. -/
theorem assertion_follows : TermFollows k (assertion inside) (assertion inside') :=
  edgeAssertion_follows.orElse (wordBoundary_follows.orElse (lookaround_carries hinside).follows)

end Enclosed

/-! ## Alternatives

Alternatives end at a closing parenthesis, at a bar or at the end of the text. At the cut the second
run is at its end, and the first one has a parenthesis or bracket before it. -/

/-- The parsers of what nests, run over the whole text and over the text that is cut off. -/
structure NestedTerms (k : Cut) (cls cls' : Parser CharSet) (inside inside' : Nested) : Prop where
  captures : k.captures ≤ k.left.captures
  classes : k.pairing.Goes k.Past Eq cls cls'
  alternatives : ∀ m m', k.pairing.Marks m m' → AlternativesFollow k (inside m) (inside' m')
  left : Progresses (term cls inside) k.left
  right : Progresses (term cls' inside') k.right

section Alternatives

variable {cls cls' : Parser CharSet} {inside inside' : Nested}
  (hnested : NestedTerms k cls cls' inside inside')

include hnested

/-- An atom follows if classes and what is inside groups do. -/
theorem atom_follows : TermFollows k (atom cls inside) (atom cls' inside') :=
  anyCharacter_follows.orElse ((escapedAtom_follows hnested.captures).orElse
    ((set_follows hnested.classes).orElse ((group_carries hnested.alternatives).follows.orElse
      (plainCharacter_follows _))))

theorem webAtom_follows : TermFollows k (webAtom cls inside) (webAtom cls' inside') :=
  anyCharacter_follows.orElse ((escapedAtom_follows hnested.captures).orElse
    (lonelyBackslash_follows.orElse ((set_follows hnested.classes).orElse
      ((group_carries hnested.alternatives).follows.orElse
        (strayBounds_follows.orElse (plainCharacter_follows _))))))

/-- A term follows if classes and what is inside groups do. -/
theorem term_follows : TermFollows k (term cls inside) (term cls' inside') := by
  refine .here_bind fun m m' hm => .grammar_bind ?_
  have hquantified : ∀ {p q : Parser Term}, TermFollows k p q →
      TermFollows k (p >>= quantified m) (q >>= quantified m') :=
    fun h => h.bind (quantified_follows hm) (quantified_proceeds _ _) quantified_refers
  refine (assertion_follows hnested.alternatives).attempt_bind ?_ (fun e => ?_) (fun e => ?_) ?_
  · have hexact : k.pairing.right.exact = k.pairing.left.exact := rfl
    rw [hexact]
    cases k.pairing.left.exact with
    | true => exact hquantified (atom_follows hnested)
    | false => exact hquantified (webAtom_follows hnested)
  · dsimp only
    rw [isLookahead_raise]
    exact .ite (quantified_follows hm e) (.pure rfl)
  · exact .ite (quantified_proceeds _ _ e) (.pure e)
  · intro e u e' t h he
    dsimp only at h
    split at h
    · exact quantified_refers h he
    · obtain ⟨rfl, -⟩ := pure_eq_done.mp h
      exact he

/-- A parser of alternatives, run over the text that is cut off. -/
abbrev SequenceFollows (k : Cut) (p q : Parser Sequence) : Prop :=
  Follows k (fun a => (Node.sequence a).Refers) (raiseSequence k.groups) p q

/-- An alternative follows, term by term. -/
theorem sequence_follows : SequenceFollows k (sequence cls inside) (sequence cls' inside') := by
  refine .here_bind fun m m' hm => ((term_follows hnested).many hnested.left
    hnested.right).bind (fun es => .spanFrom_bind hm fun span => .pure ?_)
    (fun es => .spanFrom_bind _ fun _ => .pure _) ?_
  · rw [raiseSequence, raiseTerms_eq]
    rfl
  · rintro es u q t h ⟨e, he, hrefers⟩
    rw [spanFrom_bind] at h
    obtain ⟨rfl, -⟩ := pure_eq_done.mp h
    exact hrefers.of_child (by rw [Node.children_sequence]; exact List.mem_map_of_mem he)

theorem followingSequence_follows :
    SequenceFollows k (followingSequence cls inside) (followingSequence cls' inside') :=
  .after (eat_pairs (k.pairing_losing.not_parts (by decide))) fun _ =>
    .after (modifyScope_within GroupScope.rule_followingAlternative) fun _ =>
      sequence_follows hnested

omit hnested in
theorem endOfAlternatives_follows (qs : List Sequence) :
    AlternativesFollow k (endOfAlternatives (raiseAll k.groups qs)) (endOfAlternatives qs) :=
  .after (noStrayQuantifier_pairs k.pairing_alike) fun _ =>
    .after (modifyScope_within (f := GroupScope.leaveDisjunction) fun _ => rfl) fun _ => .pure rfl

omit hnested in
theorem endOfAlternatives_proceeds (g : Grammar) (qs : List Sequence) :
    Proceeds g (endOfAlternatives qs) :=
  ⟨neverMisses_endOfAlternatives qs g, (endOfAlternatives_agrees (.same g) qs).advances⟩

/-- Alternatives follow if classes and what is inside groups do; what was read before a bar is not
lost behind it. -/
theorem alternatives_follow :
    AlternativesFollow k (alternatives cls inside) (alternatives cls' inside') := by
  have hleft := progresses_followingSequence hnested.left
  have hmany := (followingSequence_follows hnested).many hleft
    (progresses_followingSequence hnested.right)
  have hrest : ∀ first : Sequence, AlternativesFollow k
      (many (followingSequence cls inside) >>= fun rest =>
        endOfAlternatives (raiseSequence k.groups first :: rest))
      (many (followingSequence cls' inside') >>= fun rest =>
        endOfAlternatives (first :: rest)) := by
    intro first
    refine hmany.bind (fun rest => ?_) (fun rest => endOfAlternatives_proceeds _ _) ?_
    · rw [← raiseAll_eq, ← raiseAll]
      exact endOfAlternatives_follows (first :: rest)
    · rintro rest u qs t h ⟨q, hq, hrefers⟩
      rw [endOfAlternatives_eq_done h]
      exact ⟨q, List.mem_cons_of_mem _ hq, hrefers⟩
  refine .after (modifyScope_within (f := GroupScope.enterDisjunction) fun _ => rfl) fun _ =>
    (sequence_follows hnested).bind hrest (fun first => ?_) ?_
  · exact .bind (.many (.of_progresses hleft)) fun rest => endOfAlternatives_proceeds _ _
  · intro first u qs t h hrefers
    obtain ⟨rest, v, -, h⟩ := bind_eq_done.mp h
    rw [endOfAlternatives_eq_done h]
    exact ⟨first, List.mem_cons_self, hrefers⟩

end Alternatives

/-- Alternatives are read in a text that is cut off as in the whole text, if not fewer levels are
left for what is in them. -/
theorem disjunction_follows (hcaptures : k.captures ≤ k.left.captures) {depth depth' : Nat}
    (h : depth ≤ depth') : AlternativesFollow k (disjunction depth) (disjunction depth') := by
  -- a term that is read is derived, so something of the text is read
  have hprogress : ∀ {g : Grammar} {depth : Nat} {inside : Nested},
      (∀ mark s qs t, inside mark g s = .done qs t → Derives g s (.disjunction qs) t) →
        Progresses (term (charClass depth false) inside) g :=
    fun hinside s e t he =>
      (term_derives hinside (fun _ _ _ => charClass_derives) he).term_remaining_lt
  have hzero : ∀ g mark s qs t, (failAt .nestedTooDeeply mark : Parser (List Sequence)) g s =
      .done qs t → Derives g s (.disjunction qs) t := fun _ _ _ _ _ h => absurd h failAt_ne_done
  induction depth generalizing depth' with
  | zero =>
    cases depth' with
    | zero =>
      exact alternatives_follow ⟨hcaptures, charClass_follows h false false,
        fun _ _ _ => failAt_follows _ _ _, hprogress fun mark => hzero _ mark.index,
        hprogress fun mark => hzero _ mark.index⟩
    | succ depth' =>
      exact alternatives_follow ⟨hcaptures, charClass_follows h false false,
        fun _ _ _ => failAt_follows _ _ _, hprogress fun mark => hzero _ mark.index,
        hprogress fun _ _ _ _ => disjunction_derives⟩
  | succ depth ih =>
    cases depth' with
    | zero => omega
    | succ depth' =>
      exact alternatives_follow ⟨hcaptures, charClass_follows h false false,
        fun _ _ _ => ih (by omega), hprogress fun _ _ _ _ => disjunction_derives,
        hprogress fun _ _ _ _ => disjunction_derives⟩

end Parser

end EcmaPattern
