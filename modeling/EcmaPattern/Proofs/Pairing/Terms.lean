import EcmaPattern.Grammar.Pattern
import EcmaPattern.Proofs.Pairing.Classes

/-!
# Terms in two runs

The parsers that are put together in terms, but have nothing nested in them, are gone through first:
modifiers, assertions of one place, references and single characters. As with the leaves of the
grammar, each asks only that the two grammars agree on what it asks of them.

Groups have to be opened in both runs and disjunctions to be entered, so what nests is compared only
where the runs are whole. Terms, groups and alternatives that are read in one of two such runs are
read in the other too, and with them whole disjunctions (`disjunction_maps`).

Key lemmas:

* `modifierFlags_maps`, where a fault is reported at a place that is neither the current one nor
  remembered;
* `term_maps` and `alternatives_maps`, over parsers for what nests;
* `disjunction_maps`, by induction on the levels that are left.
-/

namespace EcmaPattern.Parser

open Pairing

variable {k : Pairing} (v : k.Trees)

/-! ## Modifiers

A letter that stands twice is reported where it stands for the second time. That is the one place
besides the current one and those that were remembered at which a term is found to be at fault; it
lies between the two, and both runs come by it. -/

/-- A letter that stood before lies among the letters. -/
theorem firstRepeat_lt {α : Type} [BEq α] {seen as : List α} {position i : Nat} {a : α}
    (h : firstRepeat seen position as = some (a, i)) :
    position ≤ i ∧ i < position + as.length := by
  induction as generalizing seen position with
  | nil => cases h
  | cons c rest ih =>
    rw [firstRepeat] at h
    split at h
    · cases h
      simp
    · have := ih h
      rw [List.length_cons]
      omega

/-- Letters of modifiers are one unit each. -/
theorem length_ofCodePoints_letters {letters : List CodePoint}
    (h : ∀ c ∈ letters, isModifierLetter c = true) :
    (Text.ofCodePoints letters).length = letters.length := by
  induction letters with
  | nil => rfl
  | cons c rest ih =>
    obtain ⟨hc, hrest⟩ := List.forall_mem_cons.mp h
    have hwidth : c.encode.length = 1 := by
      simp only [isModifierLetter, CodePoint.isOneOf, List.any_cons, List.any_nil, Bool.or_false,
        Bool.or_eq_true, beq_iff_eq] at hc
      rcases hc with rfl | rfl | rfl <;> decide
    have hlength : (Text.ofCodePoints (c :: rest)).length =
        c.encode.length + (Text.ofCodePoints rest).length := List.length_append
    rw [hlength, hwidth, ih hrest, List.length_cons, Nat.add_comm]

theorem isModifierLetter_of_mayPart {c : CodePoint} (h : c.mayPart = true) :
    isModifierLetter c = false :=
  CodePoint.isOneOf_eq_false CodePoint.mayPart h rfl

/-- What is read in the first run is read in the second, if no character of it is one at which the
runs part. -/
theorem reads_of_beside {s s' t : State} {cs : List CodePoint} (hs : k.Beside s s')
    (hr : s.Reads cs t) (hcs : ∀ c ∈ cs, ¬ k.Parts c) :
    ∃ t', s'.Reads cs t' ∧ k.Beside t t' := by
  induction cs generalizing s s' with
  | nil =>
    obtain rfl := hr.eq_of_nil
    exact ⟨s', .refl s', hs⟩
  | cons c cs ih =>
    obtain ⟨hhead, htail⟩ := List.forall_mem_cons.mp hcs
    obtain ⟨u, hc, hrest⟩ := State.reads_cons.mp hr
    obtain ⟨u', hc', hu⟩ := k.read hs hhead hc
    obtain ⟨t', hrest', ht⟩ := ih hu hrest htail
    exact ⟨t', State.reads_cons.mpr ⟨u', hc', hrest'⟩, ht⟩

/-- A run of letters names the same flags in both runs, and repeats a letter in both or in neither.
-/
theorem modifierFlags_maps : k.Maps v.flags modifierFlags modifierFlags := by
  intro s s' hs
  have hletter : k.Pairs Eq (satisfy isModifierLetter) (satisfy isModifierLetter) :=
    satisfy_pairs fun c hc => isModifierLetter_of_mayPart (k.mayPart_of_parts hc)
  have hletters := hletter.many (progresses_satisfy _ _) (progresses_satisfy _ _)
  rw [modifierFlags, here_bind, here_bind]
  refine (hletters s s' hs).bind fun letters t letters' t' hmany hmany' hsame ht => ?_
  cases hsame
  obtain ⟨hr, hall⟩ := reads_of_chain_satisfy (chain_of_many hmany)
  cases hrepeat : firstRepeat [] 0 letters with
  | none =>
    dsimp only
    exact Maps.spanned (k.marks hs) (fun span => v.flags_mk span _ _ _) t t' ht
  | some pair =>
    obtain ⟨letter, i⟩ := pair
    have hlt := (firstRepeat_lt hrepeat).2
    -- the place before the second of the two letters
    have hbefore : ∀ d ∈ letters.take i, isModifierLetter d = true :=
      fun d hd => hall d (List.mem_of_mem_take hd)
    rw [← List.take_append_drop i letters] at hr
    obtain ⟨u, hu, -⟩ := State.reads_append.mp hr
    obtain ⟨u', hu', hbeside⟩ := reads_of_beside hs hu fun d hd hparts => by
      have hnone := isModifierLetter_of_mayPart (k.mayPart_of_parts hparts)
      rw [hbefore d hd] at hnone
      cases hnone
    have hindex : ∀ {x y : State}, x.Reads (letters.take i) y →
        y.cursor.index = x.cursor.index + i := by
      intro x y hxy
      rw [hxy.cursor.index, length_ofCodePoints_letters hbefore, List.length_take,
        Nat.min_eq_left (by omega)]
    have hblames : k.Blames ⟨.duplicatedFlag letter, u.cursor.index⟩
        ⟨.duplicatedFlag letter, u'.cursor.index⟩ := k.blames (k.marks hbeside) rfl
    rw [hindex hu, hindex hu'] at hblames
    exact .fault hblames

theorem noLetters_flags (f : ModifierFlags) : noLetters (v.flags f) = noLetters f := by
  obtain ⟨s, _, _, _⟩ := f
  rw [v.flags_mk]
  exact v.isEmpty_span s

/-- Whether flags clash does not depend on where they stand. -/
theorem clash?_flags (add remove : ModifierFlags) :
    clash? (v.flags add) (v.flags remove) = clash? add remove := by
  obtain ⟨_, _, _, _⟩ := add
  obtain ⟨_, _, _, _⟩ := remove
  rw [v.flags_mk, v.flags_mk]
  rfl

theorem removedFlags_maps (add : ModifierFlags) :
    k.Maps v.flags (removedFlags add) (removedFlags (v.flags add)) := by
  refine (modifierFlags_maps v).bind fun remove =>
    (sees_pairs (Pairing.not_parts (by decide))).bind fun colon => ?_
  rw [noLetters_flags, noLetters_flags, clash?_flags]
  refine .ite (.fail rfl) ?_
  cases clash? add remove with
  | some letter => exact .fail rfl
  | none => exact .pure rfl

/-- Modifiers are images of each other. -/
theorem modifiers_maps : k.Maps v.modifiers modifiers modifiers := by
  refine .here_bind fun m m' hm => (modifierFlags_maps v).bind fun add =>
    (eats_pairs (Pairing.not_parts (by decide))).bind fun hyphen => ?_
  rw [noLetters_flags]
  refine .ite .miss ?_
  have hrest : ∀ remove : Option ModifierFlags, k.Maps v.modifiers
      (do return ⟨← spanFrom m, add, remove⟩)
      (do return ⟨← spanFrom m', v.flags add, remove.map v.flags⟩) :=
    fun remove => .spanFrom_bind hm fun span => .pure (v.modifiers_mk span add remove)
  refine .ite (Maps.bind (f := Option.map v.flags) ?_ hrest) (hrest none)
  exact (removedFlags_maps v add).map fun _ => rfl

/-! ## Assertions without contents

Edges and word boundaries are signs; the opening of a lookaround asks whether the edition looks
behind. -/

theorem edgeAssertion_maps : k.Maps v.term edgeAssertion edgeAssertion := by
  refine .here_bind fun m m' hm => Pairs.bind ?_ fun e =>
    Maps.spanned hm fun span => v.term_edge span e
  exact .orElse ((sign_pairs (by decide)).bind fun _ => .pure rfl)
    ((sign_pairs (by decide)).bind fun _ => .pure rfl)

theorem wordBoundary_maps : k.Maps v.term wordBoundary wordBoundary := by
  refine .here_bind fun m m' hm => Pairs.bind ?_ fun negated =>
    Maps.spanned hm fun span => v.term_wordBoundary span negated
  exact .orElse ((eatAll_pairs (by decide)).bind fun _ => .pure rfl)
    ((eatAll_pairs (by decide)).bind fun _ => .pure rfl)

theorem lookOpening_pairs
    (h : k.right.edition.supports .lookbehind = k.left.edition.supports .lookbehind) :
    k.Pairs Eq lookOpening lookOpening := by
  have hsign : k.Pairs Eq ((do eat '='; return false) <|> (do eat '!'; return true) : Parser Bool)
      ((do eat '='; return false) <|> (do eat '!'; return true)) :=
    .orElse ((sign_pairs (by decide)).bind fun _ => .pure rfl)
      ((sign_pairs (by decide)).bind fun _ => .pure rfl)
  refine (eatAll_pairs (by decide)).bind fun _ => (supports_pairs h).bind fun _ => .ite ?_ ?_
  · exact (eats_pairs (Pairing.not_parts (by decide))).bind fun _ => hsign.bind fun _ => .pure rfl
  · exact Pairs.bind (.pure rfl) fun _ => hsign.bind fun _ => .pure rfl

/-! ## References and characters

A reference by number asks how many groups were counted, so the two grammars have to agree on that;
a reference by name is not resolved yet and asks for nothing but its name. -/

/-- A set that stands as a term is an image if it is one as a set. -/
theorem set_map_maps {p q : Parser CharSet} (h : k.Maps v.set p q) :
    k.Maps v.term (Term.set <$> p) (Term.set <$> q) :=
  h.map v.term_set

section Marks

variable {m m' : Cursor} (hm : k.Marks m m')

include hm

/-- A number that is too large is a fault by an exact grammar, and no reference by another. -/
theorem numberedReference_maps (h : k.Alike) (hcaptures : k.right.captures = k.left.captures) :
    k.Maps v.term (numberedReference m) (numberedReference m') := by
  refine (sees_pairs (Pairing.not_parts (by decide))).bind fun _ => (require_pairs _).bind fun _ =>
    number_pairs.bind fun _ => .grammar_bind ?_
  rw [hcaptures]
  refine .ite (Maps.spanned hm fun span => v.term_reference span _) ?_
  rcases h.exact with hexact | ⟨hexact, hfree⟩
  · rw [hexact]
    exact .ite (.fail rfl) .miss
  · rw [hexact]
    exact .of_free hfree

/-- References by name are images of each other, if both grammars have them and names are read
alike. -/
theorem namedReference_maps (h : k.right.namedReferences = k.left.namedReferences)
    (hname : k.Pairs Eq groupName groupName) :
    k.Maps v.term (namedReference m) (namedReference m') := by
  refine .grammar_bind ?_
  rw [h]
  exact (require_pairs _).bind fun _ => (sign_pairs (by decide)).bind fun _ =>
    Pairs.bind (hname.orElse (.fail rfl)) fun _ =>
      Maps.spanned hm fun span => v.term_reference span _

end Marks

theorem anyCharacter_maps : k.Maps v.term anyCharacter anyCharacter :=
  .here_bind fun _ _ hm => (sign_pairs (by decide)).bind fun _ => Maps.spanned hm v.term_any

theorem lonelyBackslash_maps : k.Maps v.term lonelyBackslash lonelyBackslash :=
  .here_bind fun m m' hm => (sign_pairs (by decide)).bind fun _ =>
    (sees_pairs (Pairing.not_parts (by decide))).bind fun _ => (require_pairs _).bind fun _ =>
      set_map_maps v (characterSetFrom_maps v hm _)

theorem strayBounds_maps (h : k.Alike) : k.Maps v.term strayBounds strayBounds :=
  Pairs.bind (bracedBounds_pairs h true) fun _ => .fail rfl

/-- A quantifier that follows nothing is found in both runs or in neither. -/
theorem noStrayQuantifier_pairs (h : k.Alike) :
    k.Pairs Eq noStrayQuantifier noStrayQuantifier := by
  refine .orElse ?_ (.orElse ?_ (.pure rfl))
  · exact (quantifier_pairs h true).bind fun _ => .fail rfl
  · exact (sign_pairs (by decide)).bind fun _ => .fail rfl

theorem plainCharacter_maps (hl : k.Level) (test : CodePoint → Bool) :
    k.Maps v.term (plainCharacter test) (plainCharacter test) :=
  .here_bind fun _ _ hm => (hl.satisfy test).bind fun c =>
    set_map_maps v (characterSetFrom_maps v hm c)

/-! ## Groups and lookarounds

Opening a group changes the count and the scope in both runs alike. What is inside is compared by a
hypothesis on the nested parser, which is discharged at the end. -/

variable (hw : k.Whole)

include hw

theorem closeGroup_pairs : k.Pairs Eq closeGroup closeGroup := (hw.eat _).orElse (.fail rfl)

/-- The parsers of what is inside a construct, given the place at which the construct began. -/
def NestedMaps (v : k.Trees) (inside : Nested) : Prop :=
  ∀ {m m' : Cursor}, k.Marks m m' → k.Maps (List.map v.sequence) (inside m) (inside m')

/-- A group that opens gets the same number in both runs. -/
theorem openCapture_pairs (name : Option GroupName) :
    k.Pairs Eq (openCapture name) (openCapture name) := by
  intro s s' hs
  have hdone : ∀ scope, k.Outcomes Eq (.done (s.opened + 1) ⟨s.cursor, scope, s.opened + 1⟩)
      (.done (s.opened + 1) ⟨s'.cursor, scope, s.opened + 1⟩) :=
    fun scope => .done rfl (hw.withScope scope (s.opened + 1) hs)
  unfold openCapture
  rw [hw.opened hs, hw.scope hs]
  exact hdone _

theorem modifyScope_pairs (f : GroupScope → GroupScope) :
    k.Pairs Eq (modifyScope f) (modifyScope f) := by
  intro s s' hs
  show k.Outcomes Eq (.done () ⟨s.cursor, f s.scope, s.opened⟩)
    (.done () ⟨s'.cursor, f s'.scope, s'.opened⟩)
  rw [hw.opened hs, hw.scope hs]
  exact .done rfl (hw.withScope _ _ hs)

section Groups

variable {inside : Nested} (hinside : NestedMaps v inside)

include hinside

/-- Assertions are images of each other, if what is inside them is. -/
theorem assertion_maps : k.Maps v.term (assertion inside) (assertion inside) := by
  have hlook : k.Maps v.term (lookaround inside) (lookaround inside) :=
    .here_bind fun m m' hm => (lookOpening_pairs (by rw [hw.grammar])).bind
      fun (direction, negated) => (hinside hm).bind fun qs => (closeGroup_pairs hw).bind fun _ =>
        Maps.spanned hm fun span => v.term_look span direction negated qs
  exact (edgeAssertion_maps v).orElse ((wordBoundary_maps v).orElse hlook)

theorem plainGroup_maps {m m' : Cursor} (hm : k.Marks m m') (modifiers : Option Modifiers) :
    k.Maps v.term (plainGroup inside m modifiers)
      (plainGroup inside m' (modifiers.map v.modifiers)) :=
  (hinside hm).bind fun qs => (closeGroup_pairs hw).bind fun _ =>
    Maps.spanned hm fun span => v.term_group span modifiers qs

theorem capturingGroup_maps {m m' : Cursor} (hm : k.Marks m m') (name : Option GroupName) :
    k.Maps v.term (capturingGroup inside m name) (capturingGroup inside m' name) :=
  (openCapture_pairs hw name).bind fun index => (hinside hm).bind fun qs =>
    (closeGroup_pairs hw).bind fun _ =>
      Maps.spanned hm fun span => v.term_capture span index name qs

/-- A group that is none is reported behind its parenthesis. -/
theorem modifiedGroup_maps {m m' c c' : Cursor} (hm : k.Marks m m') (hc : k.Marks c c')
    (hparen : m.Reads ['('] c) (hparen' : m'.Reads ['('] c') :
    k.Maps v.term (modifiedGroup inside m) (modifiedGroup inside m') := by
  have hopening : k.Maps v.modifiers
      (do require (← supports .modifiers); let m ← modifiers; eat ':'; return m)
      (do require (← supports .modifiers); let m ← modifiers; eat ':'; return m) :=
    (supports_pairs (by rw [hw.grammar])).bind fun _ => (require_pairs _).bind fun _ =>
      (modifiers_maps v).bind fun _ => (hw.eat _).bind fun _ => .pure rfl
  refine hopening.attempt.bind fun o => ?_
  cases o with
  | some m => exact plainGroup_maps v hw hinside hm (some m)
  | none =>
    have hindex : c.index = m.index + 1 := hparen.index
    have hindex' : c'.index = m'.index + 1 := hparen'.index
    dsimp only [Option.map_none]
    rw [← hindex, ← hindex']
    exact .failAt rfl hc

/-- Groups are images of each other, if what is inside them is. -/
theorem group_maps : k.Maps v.term (group inside) (group inside) := by
  intro s s' hs
  have hm := k.marks hs
  rw [group, here_bind, here_bind]
  refine (hw.eat _ s s' hs).bind fun _ t _ t' hparen hparen' _ ht => ?_
  have hread := (eat_eq_done.mp hparen).cursor
  have hread' := (eat_eq_done.mp hparen').cursor
  have hnamed : k.Maps v.term (namedGroup inside s.cursor) (namedGroup inside s'.cursor) := by
    refine Pairs.bind hw.groupName fun name => Pairs.bind (fun u u' hu => ?_)
      fun _ => .ite (.fail rfl) (capturingGroup_maps v hw hinside hm (some name))
    exact .done (by rw [hw.scope hu]) hu
  -- a group with a name or with modifiers
  have hmarked : k.Maps v.term (do
      if (← supports .namedGroups) && (← sees 0 '<') then namedGroup inside s.cursor
      else modifiedGroup inside s.cursor) (do
      if (← supports .namedGroups) && (← sees 0 '<') then namedGroup inside s'.cursor
      else modifiedGroup inside s'.cursor) :=
    (supports_pairs (by rw [hw.grammar])).bind fun _ => (hw.sees _).bind fun _ =>
      .ite hnamed (modifiedGroup_maps v hw hinside hm (k.marks ht) hread hread')
  refine Pairs.bind (hw.eats _) (fun question => .ite ?_ ?_) t t' ht
  · exact (hw.eats _).bind fun colon => .ite (plainGroup_maps v hw hinside hm none) hmarked
  · exact capturingGroup_maps v hw hinside hm none

end Groups

/-! ## Atoms

The two lists of atoms, with and without the extensions. In whole runs it is the same list. -/

theorem escapedAtom_maps : k.Maps v.term escapedAtom escapedAtom := by
  refine .here_bind fun m m' hm => (hw.eat _).bind fun _ => ?_
  have hcharacter : k.Maps v.term ((Term.set ∘ CharSet.character) <$> characterEscape m)
      ((Term.set ∘ CharSet.character) <$> characterEscape m') :=
    (characterEscape_maps v hm hw.escapedValue).map fun c => by
      rw [Function.comp_apply, Function.comp_apply, v.term_set, v.set_character]
  have hfault : k.Maps v.term (do require (← grammar).exact; fail .invalidEscape)
      (do require (← grammar).exact; fail .invalidEscape) :=
    hw.grammar_bind ((require_pairs _).bind fun _ => .fail rfl)
  exact (numberedReference_maps v hm hw.alike (by rw [hw.grammar])).orElse
    ((set_map_maps v (setEscape_maps v hm hw.sameProperties)).orElse (hcharacter.orElse
      ((namedReference_maps v hm (by rw [hw.grammar]) hw.groupName).orElse hfault)))

section Terms

variable {cls : Parser CharSet} {inside : Nested} (hcls : k.Maps v.set cls cls)
  (hinside : NestedMaps v inside)

include hcls hinside

/-- Atoms are images of each other, if classes and what is inside groups are. -/
theorem atom_maps : k.Maps v.term (atom cls inside) (atom cls inside) :=
  (anyCharacter_maps v).orElse ((escapedAtom_maps v hw).orElse ((set_map_maps v hcls).orElse
    ((group_maps v hw hinside).orElse (plainCharacter_maps v hw.toLevel _))))

/-- The same of atoms of the web grammar. -/
theorem webAtom_maps : k.Maps v.term (webAtom cls inside) (webAtom cls inside) :=
  (anyCharacter_maps v).orElse ((escapedAtom_maps v hw).orElse ((lonelyBackslash_maps v).orElse
    ((set_map_maps v hcls).orElse ((group_maps v hw hinside).orElse
      ((strayBounds_maps v hw.alike).orElse (plainCharacter_maps v hw.toLevel _))))))

omit hw hcls hinside in
/-- Whether a quantifier may follow an assertion does not depend on where it stands. -/
theorem isLookahead_term (e : Term) : (v.term e).isLookahead = e.isLookahead := by
  cases e with
  | look s direction negated alternatives =>
    rw [v.term_look]
    cases direction <;> rfl
  | _ => simp [Term.isLookahead, v.term_set, v.term_any, v.term_edge, v.term_wordBoundary,
      v.term_group, v.term_capture, v.term_reference, v.term_quantified]

/-- Terms are images of each other, if classes and what is inside groups are. -/
theorem term_maps : k.Maps v.term (term cls inside) (term cls inside) := by
  refine .here_bind fun m m' hm => hw.grammar_bind
    ((assertion_maps v hw hinside).attempt.bind fun o => ?_)
  have hquantified : ∀ e, k.Maps v.term (quantified m e) (quantified m' (v.term e)) := fun e =>
    quantified_pairs hm hw.alike rfl fun span r => v.term_quantified span r e
  cases o with
  | some e =>
    show k.Maps _ _ (if !k.left.exact && (v.term e).isLookahead then _ else _)
    rw [isLookahead_term]
    exact .ite (hquantified e) (.pure rfl)
  | none =>
    exact .ite ((atom_maps v hw hcls hinside).bind hquantified)
      ((webAtom_maps v hw hcls hinside).bind hquantified)

/-! ## Alternatives

A bar moves both scopes on. The repetition over alternatives is one over a parser that makes
progress, since it reads the bar. -/

/-- Alternatives are images of each other, term by term. -/
theorem sequence_maps : k.Maps v.sequence (sequence cls inside) (sequence cls inside) :=
  .here_bind fun _ _ hm => ((term_maps v hw hcls hinside).many hw.remaining).bind fun es =>
    .spanFrom_bind hm fun span => .pure (v.sequence_mk span es)

/-- Alternatives between bars are images of each other, if classes and what is inside groups are.
The recursion over the levels of nesting goes through here. -/
theorem alternatives_maps :
    k.Maps (List.map v.sequence) (alternatives cls inside) (alternatives cls inside) := by
  have hfollowing : k.Maps v.sequence (followingSequence cls inside)
      (followingSequence cls inside) :=
    (hw.eat _).bind fun _ => (modifyScope_pairs hw _).bind fun _ =>
      sequence_maps v hw hcls hinside
  exact (modifyScope_pairs hw _).bind fun _ => (sequence_maps v hw hcls hinside).bind fun q =>
    (hfollowing.many hw.remaining).bind fun qs => (noStrayQuantifier_pairs hw.alike).bind fun _ =>
      (modifyScope_pairs hw _).bind fun _ => .pure rfl

end Terms

/-- A disjunction that is read in one run is read in the other. -/
theorem disjunction_maps (depth : Nat) :
    k.Maps (List.map v.sequence) (disjunction depth) (disjunction depth) := by
  induction depth with
  | zero => exact alternatives_maps v hw (charClass_maps v hw 0 false) fun hm => .failAt rfl hm
  | succ depth ih =>
    exact alternatives_maps v hw (charClass_maps v hw (depth + 1) false) fun _ => ih

end EcmaPattern.Parser
