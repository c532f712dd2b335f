import EcmaPattern.Grammar.CharClass
import EcmaPattern.Grammar.Term
import EcmaPattern.Proofs.Pairing.Losses

/-!
# Classes in two runs

Where the two runs of a pairing have the same text ahead (`Level`), what is said of a class in both
of them is that its tree in the second run is that of the first, but for the spans. What the trees
of the second run are is said by `Trees`: a function for each kind of part, that goes through
whatever the part is made of. Where spans stay what they are, trees do too (`Trees.same`).

The parsers of a class are gone through once, for runs of which the first may get past a closing
sign and be lost (`Losing`). Level runs lose nothing, so what goes there is read in both.

The parsers of the set grammar ask little of the two grammars: that characters are escaped alike in
both, and that the same properties are known. Ranges ask for the same rules, too (`SameRules`). For
classes as a whole the runs may be by one grammar and keep the same scopes (`Whole`), so that they
can differ only in where they are.

Key lemmas:

* `Trees.mayContainStrings_set`: the check on negated classes does not see spans;
* `classSetContents_goes` and `classRanges_goes`, for the two grammars of contents;
* `charClass_goes`, by induction on the levels that are left, and `charClass_maps` for whole runs.
-/

namespace EcmaPattern

namespace Pairing

/-- The same text lies ahead in both runs. -/
structure Level (k : Pairing) : Prop where
  not_parts : ∀ c, ¬ k.Parts c
  remaining : ∀ s s', k.Beside s s' → s'.cursor.remaining = s.cursor.remaining

/-- The two runs do the same, but for where they are. -/
structure Whole (k : Pairing) : Prop extends k.Level where
  grammar : k.right = k.left
  scope : ∀ {s s'}, k.Beside s s' → s'.scope = s.scope
  opened : ∀ {s s'}, k.Beside s s' → s'.opened = s.opened
  withScope : ∀ {s s'} (scope : GroupScope) (opened : Nat), k.Beside s s' →
    k.Beside { s with scope, opened } { s' with scope, opened }

/-- What stands behind a backslash means the same in both runs. -/
structure SameRules (k : Pairing) : Prop where
  unicode : k.right.unicode = k.left.unicode
  strict : k.right.strict = k.left.strict
  namedReferences : k.right.namedReferences = k.left.namedReferences

/-- What the parts of a tree of the first run are in the second. -/
structure Trees (k : Pairing) where
  character : Character → Character
  string : ClassString → ClassString
  set : CharSet → CharSet
  flags : ModifierFlags → ModifierFlags
  modifiers : Modifiers → Modifiers
  term : Term → Term
  sequence : Sequence → Sequence
  isEmpty_span : ∀ s, ((k.span s).start == (k.span s).stop) = (s.start == s.stop)
  character_mk : ∀ s v, character ⟨s, v⟩ = ⟨k.span s, v⟩
  string_mk : ∀ s cs, string ⟨s, cs⟩ = ⟨k.span s, cs.map character⟩
  set_character : ∀ c, set (.character c) = .character (character c)
  set_escape : ∀ s e negated, set (.escape s e negated) = .escape (k.span s) e negated
  set_property : ∀ s p negated, set (.property s p negated) = .property (k.span s) p negated
  set_range : ∀ s first last,
    set (.range s first last) = .range (k.span s) (character first) (character last)
  set_strings : ∀ s xs, set (.strings s xs) = .strings (k.span s) (xs.map string)
  set_operation : ∀ s op left right,
    set (.operation s op left right) = .operation (k.span s) op (set left) (set right)
  set_listing : ∀ s negated sets xs,
    set (.listing s negated sets xs) = .listing (k.span s) negated sets (xs.map set)
  set_expression : ∀ s negated x,
    set (.expression s negated x) = .expression (k.span s) negated (set x)
  flags_mk : ∀ s ignoreCase multiline dotAll,
    flags ⟨s, ignoreCase, multiline, dotAll⟩ = ⟨k.span s, ignoreCase, multiline, dotAll⟩
  modifiers_mk : ∀ s add remove,
    modifiers ⟨s, add, remove⟩ = ⟨k.span s, flags add, remove.map flags⟩
  term_set : ∀ x, term (.set x) = .set (set x)
  term_any : ∀ s, term (.any s) = .any (k.span s)
  term_edge : ∀ s e, term (.edge s e) = .edge (k.span s) e
  term_wordBoundary : ∀ s negated, term (.wordBoundary s negated) = .wordBoundary (k.span s) negated
  term_look : ∀ s direction negated qs,
    term (.look s direction negated qs) = .look (k.span s) direction negated (qs.map sequence)
  term_group : ∀ s m qs,
    term (.group s m qs) = .group (k.span s) (m.map modifiers) (qs.map sequence)
  term_capture : ∀ s index name qs,
    term (.capture s index name qs) = .capture (k.span s) index name (qs.map sequence)
  term_reference : ∀ s target, term (.reference s target) = .reference (k.span s) target
  term_quantified : ∀ s r e, term (.quantified s r e) = .quantified (k.span s) r (term e)
  sequence_mk : ∀ s es, sequence (.mk s es) = .mk (k.span s) (es.map term)

variable {k : Pairing}

/-! ## What lies ahead in both runs

In level runs nothing parts, so every question about the text ahead has one answer. The lemmas of
the previous module apply without a side condition. -/

namespace Level

variable (hl : k.Level)

include hl

theorem eat (c : CodePoint) : k.Pairs Eq (Parser.eat c) (Parser.eat c) :=
  Parser.eat_pairs (hl.not_parts c)

theorem eats (c : CodePoint) : k.Pairs Eq (Parser.eats c) (Parser.eats c) :=
  Parser.eats_pairs (hl.not_parts c)

theorem sees (c : CodePoint) : k.Pairs Eq (Parser.sees 0 c) (Parser.sees 0 c) :=
  Parser.sees_pairs (hl.not_parts c)

theorem satisfy (test : CodePoint → Bool) :
    k.Pairs Eq (Parser.satisfy test) (Parser.satisfy test) :=
  Parser.satisfy_pairs fun c hc => absurd hc (hl.not_parts c)

/-- The same character lies ahead in both runs, or none in either. -/
theorem current_eq {s s' : State} (hs : k.Beside s s') :
    s'.cursor.current = s.cursor.current := by
  have hnone : ∀ {u : State}, (∀ c, u.cursor.current = some c → k.Parts c) →
      u.cursor.current = none :=
    fun hu => Option.eq_none_iff_forall_ne_some.mpr fun c hc => hl.not_parts c (hu c hc)
  rcases ahead_cases hs with ⟨c, t, t', -, hr, hr', -⟩ | ⟨hparts, hparts'⟩
  · rw [hr.current_eq, hr'.current_eq]
  · rw [hnone hparts, hnone hparts']

theorem atEnd : k.Pairs Eq Parser.atEnd Parser.atEnd :=
  fun _ _ hs => .done (by rw [hl.current_eq hs]) hs

/-- No run is ever lost. -/
theorem losing : k.Losing fun _ => False where
  signs hc := absurd hc (hl.not_parts _)
  current := hl.current_eq
  passes hs hc := by
    obtain ⟨t', hr', ht⟩ := k.read hs (hl.not_parts _) (State.reads_singleton.mpr ⟨hc, rfl⟩)
    obtain ⟨-, rfl⟩ := State.reads_singleton.mp hr'
    exact .inl ht
  stays hfalse _ := hfalse
  free hfalse := hfalse.elim

end Level

namespace SameRules

variable (h : k.SameRules)

include h

theorem alike : k.Alike := ⟨h.unicode, .inl h.strict⟩

theorem exact : k.right.exact = k.left.exact := by
  rw [Grammar.exact, Grammar.exact, h.strict, h.unicode]

/-- The same characters may be escaped to stand for themselves. -/
theorem isIdentityEscape_eq :
    Parser.isIdentityEscape k.right = Parser.isIdentityEscape k.left := by
  funext c
  unfold Parser.isIdentityEscape
  rw [h.unicode, h.strict, h.namedReferences]

end SameRules

/-! ## Runs by one grammar

If moreover both runs are by one grammar, what they ask of it has one answer too, and the hypotheses
about properties and extensions are met. -/

namespace Whole

variable (hw : k.Whole)

include hw

theorem sameRules : k.SameRules :=
  ⟨by rw [hw.grammar], by rw [hw.grammar], by rw [hw.grammar]⟩

theorem alike : k.Alike := hw.sameRules.alike

theorem sameProperties : k.SameProperties where
  unicode := by rw [hw.grammar]
  supports := by rw [hw.grammar]
  pair _ _ := .inl (by rw [hw.grammar])
  lone _ _ := .inl (by rw [hw.grammar])

/-- What is asked of the grammar is asked of the same one. -/
theorem grammar_bind {α β : Type} {R : α → β → Prop} {f : Grammar → Parser α}
    {f' : Grammar → Parser β} (h : k.Pairs R (f k.left) (f' k.left)) :
    k.Pairs R (Parser.grammar >>= f) (Parser.grammar >>= f') := by
  refine .grammar_bind ?_
  rwa [hw.grammar]

theorem identityEscape : k.Pairs Eq Parser.identityEscape Parser.identityEscape :=
  hw.grammar_bind (hw.satisfy _)

/-- In whole runs under grammars that agree on escapes, an escape has the same value. -/
theorem escapedValue : k.Pairs Eq Parser.escapedValue Parser.escapedValue :=
  Parser.escapedValue_pairs hw.alike (by rw [hw.grammar]) hw.identityEscape

/-- In whole runs a name is the same. -/
theorem groupName : k.Pairs Eq Parser.groupName Parser.groupName :=
  Parser.groupName_pairs hw.alike (by rw [hw.grammar]) fun c hc => absurd hc (hw.not_parts c)

end Whole

/-! ## Trees of the second run

What the parsers ask of a part of a tree is not where it is, so the answer is the same in both
runs. -/

namespace Trees

/-- Where spans stay what they are, so do trees. -/
def same (h : k.span = id) : k.Trees where
  character := id
  string := id
  set := id
  flags := id
  modifiers := id
  term := id
  sequence := id
  isEmpty_span _ := by rw [h]; rfl
  character_mk _ _ := by rw [h]; rfl
  string_mk _ _ := by rw [h, List.map_id]; rfl
  set_character _ := rfl
  set_escape _ _ _ := by rw [h]; rfl
  set_property _ _ _ := by rw [h]; rfl
  set_range _ _ _ := by rw [h]; rfl
  set_strings _ _ := by rw [h, List.map_id]; rfl
  set_operation _ _ _ _ := by rw [h]; rfl
  set_listing _ _ _ _ := by rw [h, List.map_id]; rfl
  set_expression _ _ _ := by rw [h]; rfl
  flags_mk _ _ _ _ := by rw [h]; rfl
  modifiers_mk _ _ _ := by rw [h, Option.map_id]; rfl
  term_set _ := rfl
  term_any _ := by rw [h]; rfl
  term_edge _ _ := by rw [h]; rfl
  term_wordBoundary _ _ := by rw [h]; rfl
  term_look _ _ _ _ := by rw [h, List.map_id]; rfl
  term_group _ _ _ := by rw [h, List.map_id, Option.map_id]; rfl
  term_capture _ _ _ _ := by rw [h, List.map_id]; rfl
  term_reference _ _ := by rw [h]; rfl
  term_quantified _ _ _ := by rw [h]; rfl
  sequence_mk _ _ := by rw [h, List.map_id]; rfl

variable (v : k.Trees)

@[simp] theorem value_character (c : Character) : (v.character c).value = c.value := by
  rw [show c = ⟨c.span, c.value⟩ from rfl, v.character_mk]

@[simp] theorem character?_set (x : CharSet) :
    (v.set x).character? = x.character?.map v.character := by
  cases x <;> simp [CharSet.character?, v.set_character, v.set_escape, v.set_property, v.set_range,
    v.set_strings, v.set_operation, v.set_listing, v.set_expression]

@[simp] theorem isOperation_set (x : CharSet) : (v.set x).isOperation = x.isOperation := by
  cases x <;> simp [CharSet.isOperation, v.set_character, v.set_escape, v.set_property,
    v.set_range, v.set_strings, v.set_operation, v.set_listing, v.set_expression]

@[simp] theorem characters_string (x : ClassString) :
    (v.string x).characters = x.characters.map v.character := by
  rw [show x = ⟨x.span, x.characters⟩ from rfl, v.string_mk]

open CharSet in
mutual

/-- Changing its spans does not make a set contain strings, or stop it from doing so. -/
theorem mayContainStrings_set : (x : CharSet) →
    (v.set x).mayContainStrings = x.mayContainStrings
  | .character _ => by simp [v.set_character, mayContainStrings]
  | .escape .. => by simp [v.set_escape, mayContainStrings]
  | .property .. => by simp [v.set_property, mayContainStrings]
  | .range .. => by simp [v.set_range, mayContainStrings]
  | .strings _ alternatives => by
    simp [v.set_strings, mayContainStrings, Function.comp_def]
  | .operation _ .intersection left right => by
    simp only [v.set_operation, mayContainStrings, mayContainStrings_set left,
      mayContainStrings_set right]
  | .operation _ .subtraction left _ => by
    simp only [v.set_operation, mayContainStrings, mayContainStrings_set left]
  | .listing _ _ _ elements => by
    simp only [v.set_listing, mayContainStrings, anyMayContainStrings_set elements]
  | .expression _ _ contents => by
    simp only [v.set_expression, mayContainStrings, mayContainStrings_set contents]

theorem anyMayContainStrings_set : (xs : List CharSet) →
    anyMayContainStrings (xs.map v.set) = anyMayContainStrings xs
  | [] => rfl
  | x :: xs => by
    rw [List.map_cons, anyMayContainStrings, anyMayContainStrings, mayContainStrings_set x,
      anyMayContainStrings_set xs]

end

theorem any_mayContainStrings_set (xs : List CharSet) :
    (xs.map v.set).any CharSet.mayContainStrings = xs.any CharSet.mayContainStrings := by
  rw [← CharSet.anyMayContainStrings_eq, v.anyMayContainStrings_set,
    CharSet.anyMayContainStrings_eq]

/-- A chain of operations is changed step by step. -/
theorem foldl_operation (op : SetOperation) (steps : List (Span × CharSet)) (first : CharSet) :
    v.set (steps.foldl (fun left (span, right) => .operation span op left right) first) =
      (steps.map (Prod.map k.span v.set)).foldl
        (fun left (span, right) => .operation span op left right) (v.set first) := by
  induction steps generalizing first with
  | nil => rfl
  | cons step steps ih =>
    rw [List.foldl_cons, ih, List.map_cons, List.foldl_cons, v.set_operation]
    rfl

end Trees

end Pairing

namespace Parser

open Pairing

variable {k : Pairing} (v : k.Trees)

/-! ## Characters and ranges

None of the signs that are looked for here is one at which runs part. -/

section Marks

variable {m m' : Cursor} (hm : k.Marks m m')

include hm

/-- If the values of escapes are the same, their trees are images of each other. -/
theorem characterEscape_maps (hvalue : k.Pairs Eq escapedValue escapedValue) :
    k.Maps v.character (characterEscape m) (characterEscape m') :=
  hvalue.bind fun _ => characterFrom_pairs hm fun span => v.character_mk span _

/-- An escape for a set gives the image of what the one beside it gives. -/
theorem setEscape_maps (h : k.SameProperties) : k.Maps v.set (setEscape m) (setEscape m') :=
  setEscape_pairs h hm v.set_escape v.set_property

theorem characterSetFrom_maps (c : CodePoint) :
    k.Maps v.set (characterSetFrom m c) (characterSetFrom m' c) :=
  Maps.map (characterFrom_pairs hm fun span => v.character_mk span c) v.set_character

/-- A range between sets is a fault by an exact grammar, and no range by another. -/
theorem classRange_maps (h : k.Alike) (low dash high : CharSet) :
    k.Maps (List.map v.set) (classRange m low dash high)
      (classRange m' (v.set low) (v.set dash) (v.set high)) := by
  have hother : k.Maps (List.map v.set)
      (do if (← grammar).exact then fail .invalidCharacterClass else return [low, dash, high])
      (do if (← grammar).exact then fail .invalidCharacterClass
          else return [v.set low, v.set dash, v.set high]) := by
    refine .grammar_bind ?_
    rcases h.exact with hexact | ⟨hexact, hfree⟩
    · rw [hexact]
      exact .ite (.fail rfl) (.pure rfl)
    · rw [hexact]
      exact .of_free hfree
  unfold classRange
  rw [v.character?_set, v.character?_set]
  cases low.character? with
  | none => exact hother
  | some first =>
    cases high.character? with
    | none => exact hother
    | some last =>
      simp only [Option.map_some, v.value_character]
      refine .ite (.fail rfl) (.spanFrom_bind hm fun span => .pure ?_)
      rw [List.map_cons, List.map_nil, v.set_range]

/-- Whether a class is a list or one operation does not depend on spans. -/
theorem classOf_maps (h : k.right.sets = k.left.sets) (negated : Bool)
    (elements : List CharSet) :
    k.Maps v.set (classOf m negated elements) (classOf m' negated (elements.map v.set)) := by
  refine .grammar_bind (.spanFrom_bind hm fun span => ?_)
  rw [h]
  have hlisting : k.Maps v.set (pure (.listing span negated k.left.sets elements))
      (pure (.listing (k.span span) negated k.left.sets (elements.map v.set))) :=
    .pure (v.set_listing ..)
  match elements with
  | [] => exact hlisting
  | [contents] =>
    simp only [List.map_cons, List.map_nil, v.isOperation_set] at hlisting ⊢
    exact .ite (.pure (v.set_expression ..)) hlisting
  | _ :: _ :: _ => exact hlisting

/-- The same elements make the same class, where spans stay what they are. -/
theorem classOf_pairs (hspan : k.span = id) (h : k.right.sets = k.left.sets) (negated : Bool)
    (elements : List CharSet) :
    k.Pairs Eq (classOf m negated elements) (classOf m' negated elements) := by
  have hclass := classOf_maps (.same hspan) hm h negated elements
  rwa [show elements.map (Trees.same hspan).set = elements from List.map_id elements] at hclass

end Marks

theorem classControlLetter_pairs (h : k.right.exact = k.left.exact) :
    k.Pairs Eq classControlLetter classControlLetter := by
  have hletter : ∀ c : CodePoint, c.mayPart = true →
      (c.isDecimalDigit || c.isOneOf ['_']) = false := fun c hc => by
    rw [CodePoint.isDecimalDigit_of_mayPart hc, Bool.false_or]
    exact CodePoint.isOneOf_eq_false CodePoint.mayPart hc rfl
  refine .grammar_bind ?_
  rw [h]
  exact (require_pairs _).bind fun _ => (sign_pairs (by decide)).bind fun _ =>
    (satisfy_pairs fun c hc => hletter c (k.mayPart_of_parts hc)).bind fun _ => .pure rfl

theorem classEscapedValue_pairs (hunicode : k.right.unicode = k.left.unicode)
    (hexact : k.right.exact = k.left.exact) :
    k.Pairs Eq classEscapedValue classEscapedValue := by
  have hhyphen : k.Pairs Eq
      (do require (← grammar).unicode; eat '-'; return '-' : Parser CodePoint)
      (do require (← grammar).unicode; eat '-'; return '-') := by
    refine .grammar_bind ?_
    rw [hunicode]
    exact (require_pairs _).bind fun _ => (sign_pairs (by decide)).bind fun _ => .pure rfl
  exact .orElse ((sign_pairs (by decide)).bind fun _ => .pure rfl)
    (hhyphen.orElse (classControlLetter_pairs hexact))

/-! ## The set grammar

From the smallest part to the largest, as they are put together by the parsers. The first run may
get past a bracket or a parenthesis at which the runs part, since any sign may be escaped; behind a
plain character it does not, because the set grammar reserves these signs. The parser of inner
classes is a hypothesis throughout. -/

variable {past : State → Prop} (h : k.Losing past)

section Losing

include h

theorem characterEscape_goes {m m' : Cursor} (hm : k.Marks m m')
    (hvalue : k.Goes past Eq escapedValue escapedValue) :
    k.GoesTo past v.character (characterEscape m) (characterEscape m') :=
  h.bind hvalue (fun c => .of_pairs (characterFrom_pairs hm fun span => v.character_mk span c))
    fun _ => characterFrom_proceeds _ _

/-- No closing sign stands for itself here, and before another sign both texts answer alike. -/
theorem plainClassSetCharacter_pairs :
    k.Pairs Eq plainClassSetCharacter plainClassSetCharacter := by
  have htest : ∀ (doubled : Bool) (c : CodePoint), k.Parts c →
      (!(doubled && c.isClassSetDoublePunctuator) && !c.isClassSetSyntax) = false := by
    intro doubled c hc
    have hreserved : (!c.isClassSetSyntax) = false :=
      h.test_of_parts (p := fun c => !c.isClassSetSyntax) (by decide) hc
    rw [hreserved, Bool.and_false]
  intro s s' hs
  by_cases hparts : ∀ c, s.cursor.current = some c → ¬ k.Parts c
  · rw [plainClassSetCharacter, plainClassSetCharacter, h.peek_eq hs hparts, Cursor.peek_zero,
      Cursor.peek_zero, h.current hs]
    exact satisfy_pairs (htest _) s s' hs
  -- two characters are looked at, but where the runs part the first of them decides
  · simp only [not_forall, not_not] at hparts
    obtain ⟨c, hc, hsign⟩ := hparts
    have hmiss : ∀ {g : Grammar} {u : State}, u.cursor.current = some c →
        plainClassSetCharacter g u = .miss := by
      intro g u hu
      refine satisfy_eq_miss (g := g).mpr fun d hd => ?_
      rw [hu] at hd
      cases hd
      exact htest _ _ hsign
    rw [hmiss hc, hmiss ((h.current hs).trans hc)]
    exact .miss

/-- What is wrong with the contents of a class depends on the characters ahead alone. -/
theorem classSetFault_maps : k.Maps (List.map v.set) classSetFault classSetFault := by
  have hslash : k.Maps (List.map v.set)
      (do eat '\\'; fail .invalidEscape) (do eat '\\'; fail .invalidEscape) :=
    (sign_pairs (by decide)).bind fun _ => .fail rfl
  intro s s' hs
  unfold classSetFault
  rw [Cursor.peek_zero, Cursor.peek_zero, h.current hs]
  cases hc : s.cursor.current with
  | none => exact Pairs.fail rfl s s' hs
  | some c =>
    dsimp only
    by_cases hparts : k.Parts c
    · have hne : (c == .ofChar '\\') = false :=
        h.test_of_parts (p := (· == .ofChar '\\')) (by decide) hparts
      have hsingle : c.isClassSetDoublePunctuator = false := h.test_of_parts (by decide) hparts
      simp only [hne, hsingle, Bool.and_false, Bool.false_eq_true, if_false]
      exact Pairs.fail rfl s s' hs
    · rw [h.peek_eq hs fun d hd => by rw [hc] at hd; cases hd; exact hparts]
      split
      · exact hslash s s' hs
      split
      · exact Pairs.fail rfl s s' hs
      · exact Pairs.fail rfl s s' hs

variable (hvalue : k.Goes past Eq escapedValue escapedValue)

include hvalue

theorem classSetCharacter_goes : k.GoesTo past v.character classSetCharacter classSetCharacter := by
  have hfrom : ∀ {m m' : Cursor} (hm : k.Marks m m') (c : CodePoint),
      k.Maps v.character (characterFrom m c) (characterFrom m' c) :=
    fun hm c => characterFrom_pairs hm fun span => v.character_mk span c
  have hpunctuator : k.Pairs Eq (satisfy CodePoint.isClassSetPunctuator) _ :=
    satisfy_pairs fun _ hc => h.test_of_parts (by decide) hc
  refine .here_bind fun m m' hm => .orElse
    (.of_pairs ((plainClassSetCharacter_pairs h).bind fun c => hfrom hm c))
    (.after (sign_pairs (by decide)) fun _ => .orElse (characterEscape_goes v h hm hvalue) ?_)
  exact .of_pairs (.orElse (hpunctuator.bind fun c => hfrom hm c)
    ((sign_pairs (by decide)).bind fun _ => hfrom hm _))

theorem classSetRange_goes {m m' : Cursor} (hm : k.Marks m m') (first : Character) :
    k.GoesTo past v.set (classSetRange first m) (classSetRange (v.character first) m') := by
  refine .after (sign_pairs (by decide)) fun _ => h.map_bind (classSetCharacter_goes v h hvalue)
    (fun last => ?_) fun _ => .ite (.fail _) (.spanFrom_bind _ fun _ => .pure _)
  rw [v.value_character, v.value_character]
  exact .of_pairs (.ite (.fail rfl)
    (.spanFrom_bind hm fun span => .pure (v.set_range span first last)))

theorem classString_goes : k.GoesTo past v.string classString classString :=
  .here_bind fun _ _ hm => h.map_bind (h.many (classSetCharacter_goes v h hvalue)
    (progresses_classSetCharacter _) (progresses_classSetCharacter _))
    (fun cs => .of_pairs (.spanFrom_bind hm fun span => .pure (v.string_mk span cs)))
    fun _ => .spanFrom_bind _ fun _ => .pure _

/-- A bar between strings parts no runs that part at closing signs only. -/
theorem classStrings_goes : k.GoesTo past v.set classStrings classStrings := by
  have hbarred : k.GoesTo past v.string (do eat '|'; classString) (do eat '|'; classString) :=
    .after (eat_pairs (h.not_parts (by decide))) fun _ => classString_goes v h hvalue
  refine .here_bind fun m m' hm => .after (eatAll_pairs (by decide)) fun _ =>
    h.map_bind (classString_goes v h hvalue) (fun first => ?_)
      fun first => restOfStrings_proceeds _ _
  refine h.map_bind (h.many hbarred progresses_barred progresses_barred) (fun rest => ?_)
    fun rest => closeStrings_proceeds _ _
  refine .of_pairs (Pairs.bind ((sign_pairs (by decide)).orElse (.fail rfl)) fun _ =>
    .spanFrom_bind hm fun span => .pure ?_)
  rw [v.set_strings, List.map_cons]

end Losing

/-- The parsers of the classes inside a class, in either run. -/
structure NestedClasses (v : k.Trees) (past : State → Prop) (inner inner' : Parser CharSet) :
    Prop where
  goes : k.GoesTo past v.set inner inner'
  left : Progresses inner k.left
  right : Progresses inner' k.right

section Contents

variable (hvalue : k.Goes past Eq escapedValue escapedValue) (hproperties : k.SameProperties)
  {inner inner' : Parser CharSet} (hinner : NestedClasses v past inner inner')

include h hvalue hproperties hinner

/-- An operand gives the image of what the one beside it gives, if the classes inside do. -/
theorem classSetOperand_goes :
    k.GoesTo past v.set (classSetOperand inner) (classSetOperand inner') := by
  have hset : k.Maps v.set escapedSet escapedSet :=
    .here_bind fun m m' hm => (sign_pairs (by decide)).bind fun _ => setEscape_maps v hm hproperties
  exact .orElse hinner.goes (.orElse (.of_pairs hset) (.orElse (classStrings_goes v h hvalue)
    ((classSetCharacter_goes v h hvalue).map_of
      (fun a b hab => by rw [v.set_character, hab]) fun _ _ _ => id)))

/-- The steps of a chain of operations hold spans and right sides. -/
theorem operationStep_goes {m m' : Cursor} (hm : k.Marks m m') (op : SetOperation) :
    k.GoesTo past (Prod.map k.span v.set) (operationStep inner m op)
      (operationStep inner' m' op) := by
  have hsign : k.Pairs Eq (eatAll [operationSign op, operationSign op])
      (eatAll [operationSign op, operationSign op]) := by
    cases op <;> exact eatAll_pairs (by decide)
  refine .after hsign fun _ => .after (h.sees _) fun _ => .ite (.of_pairs (.fail rfl)) ?_
  exact h.map_bind
    (.orElse (classSetOperand_goes v h hvalue hproperties hinner) (.of_pairs (.fail rfl)))
    (fun right => .of_pairs (.spanFrom_bind hm fun span => .pure rfl))
    fun right => .spanFrom_bind _ fun _ => .pure _

/-- The chain of operations on an image is the image of the chain. -/
theorem operationChain_goes {m m' : Cursor} (hm : k.Marks m m') (op : SetOperation)
    (first : CharSet) :
    k.GoesTo past (List.map v.set) (operationChain inner m op first)
      (operationChain inner' m' op (v.set first)) := by
  have hstep := operationStep_goes v h hvalue hproperties hinner hm op
  have hleft := progresses_operationStep hinner.left m op
  have hsteps : k.GoesTo past (List.map (Prod.map k.span v.set))
      (many1 (operationStep inner m op)) (many1 (operationStep inner' m' op)) :=
    h.map_bind hstep (fun _ => h.map_bind
      (h.many hstep hleft (progresses_operationStep hinner.right m' op))
      (fun _ => .pure rfl) fun _ => .pure _) fun _ =>
        .bind (.many (.of_progresses hleft)) fun _ => .pure _
  refine h.map_bind hsteps (fun steps => ?_) fun _ => .pure _
  rw [← v.foldl_operation]
  exact .pure rfl

theorem unionItem_goes : k.GoesTo past v.set (unionItem inner) (unionItem inner') :=
  .here_bind fun _ _ hm => .orElse
    (h.map_bind (classSetCharacter_goes v h hvalue)
      (fun c => .orElse (classSetRange_goes v h hvalue hm c) (.pure (v.set_character c)))
      fun c => classSetRange_proceeds c _)
    (classSetOperand_goes v h hvalue hproperties hinner)

/-- The members of a union are images of each other, one by one. -/
theorem union_goes (first : CharSet) :
    k.GoesTo past (List.map v.set) ((first :: ·) <$> many (unionItem inner))
      ((v.set first :: ·) <$> many (unionItem inner')) :=
  have hmany : k.GoesTo past (List.map v.set) (many (unionItem inner)) (many (unionItem inner')) :=
    h.many (unionItem_goes v h hvalue hproperties hinner) (progresses_unionItem hinner.left)
      (progresses_unionItem hinner.right)
  hmany.map_of (fun _ _ heq => heq ▸ rfl) fun _ _ _ => id

theorem classSetFrom_goes {m m' : Cursor} (hm : k.Marks m m') (first : CharSet) :
    k.GoesTo past (List.map v.set) (classSetFrom inner m first)
      (classSetFrom inner' m' (v.set first)) :=
  .orElse (operationChain_goes v h hvalue hproperties hinner hm _ first)
    (.orElse (operationChain_goes v h hvalue hproperties hinner hm _ first)
      (union_goes v h hvalue hproperties hinner first))

theorem classSetExpression_goes :
    k.GoesTo past (List.map v.set) (classSetExpression inner) (classSetExpression inner') := by
  refine .here_bind fun m m' hm => h.attempt_bind (classSetCharacter_goes v h hvalue) (fun o => ?_)
    fun c => .bind (.attempt (advances_classSetRange c m)) fun o => ?_
  · cases o with
    | some c =>
      refine h.attempt_bind (classSetRange_goes v h hvalue hm c) (fun o => ?_)
        fun range => union_proceeds hinner.left range
      cases o with
      | some range => exact union_goes v h hvalue hproperties hinner range
      | none =>
        have hfrom := classSetFrom_goes v h hvalue hproperties hinner hm (.character c)
        rwa [v.set_character] at hfrom
    | none =>
      refine h.attempt_bind (classSetOperand_goes v h hvalue hproperties hinner) (fun o => ?_)
        fun x => classSetFrom_proceeds hinner.left m x
      cases o with
      | some x => exact classSetFrom_goes v h hvalue hproperties hinner hm x
      | none => exact .of_pairs (classSetFault_maps v h)
  -- behind a first character the contents go on, whatever they turn out to be
  · cases o with
    | some range => exact union_proceeds hinner.left range
    | none => exact classSetFrom_proceeds hinner.left m _

/-- The contents of classes of the set grammar are images of each other, if the classes inside are.
-/
theorem classSetContents_goes :
    k.GoesTo past (List.map v.set) (classSetContents inner) (classSetContents inner') :=
  .after h.atEnd fun _ => .after (h.sees _) fun _ =>
    .ite (.pure rfl) (classSetExpression_goes v h hvalue hproperties hinner)

end Contents

/-! ## Ranges

Outside the set grammar every sign but the bracket may be an atom, so a parenthesis at which the
runs part may be read by the first run alone. What may be escaped has to be the same in both. -/

section Ranges

variable (hrules : k.SameRules) (hproperties : k.SameProperties)

include h hrules

/-- A closing sign can be escaped to stand for itself. -/
theorem escapedValue_goes : k.Goes past Eq escapedValue escapedValue := by
  refine escapedValue_trails hrules.alike hrules.exact (.grammar_bind ?_)
  rw [hrules.isIdentityEscape_eq]
  exact h.satisfy _

include hproperties

theorem classAtom_goes : k.GoesTo past v.set classAtom classAtom := by
  refine .here_bind fun m m' hm => .orElse
    (h.bind (h.satisfy _) (fun c => .of_pairs (characterSetFrom_maps v hm c))
      fun c => characterSetFrom_proceeds _ c)
    (.after (sign_pairs (by decide)) fun _ => ?_)
  have hvalue : k.Maps v.set (do characterSetFrom m (← classEscapedValue))
      (do characterSetFrom m' (← classEscapedValue)) :=
    (classEscapedValue_pairs hrules.unicode hrules.exact).bind fun c => characterSetFrom_maps v hm c
  have hcharacter : k.GoesTo past v.set (CharSet.character <$> characterEscape m)
      (CharSet.character <$> characterEscape m') :=
    (characterEscape_goes v h hm (escapedValue_goes h hrules)).map_of
      (fun a b hab => by rw [v.set_character, hab]) fun _ _ _ => id
  have hslash : k.Maps v.set (classBackslash m) (classBackslash m') := by
    refine .grammar_bind ?_
    rw [hrules.strict]
    exact (require_pairs _).bind fun _ => (h.sees _).bind fun _ =>
      (require_pairs _).bind fun _ => characterSetFrom_maps v hm _
  exact .orElse (.orElse (.of_pairs hvalue)
    (.orElse (.of_pairs (setEscape_maps v hm hproperties)) hcharacter))
    (.of_pairs (hslash.orElse (exact_fail_pairs hrules.alike rfl)))

theorem classRangeItem_goes : k.GoesTo past (List.map v.set) classRangeItem classRangeItem := by
  refine .here_bind fun m m' hm => h.map_bind (classAtom_goes v h hrules hproperties)
    (fun low => ?_) fun low => classRangeRest_proceeds _ low
  refine .here_bind fun d d' hd => .after (eats_pairs (Pairing.not_parts (by decide))) fun hyphen =>
    .ite ?_ (.pure rfl)
  refine .after_map (characterSetFrom_maps v hd _) fun dash =>
    h.attempt_bind (classAtom_goes v h hrules hproperties) (fun high => ?_)
      fun high => classRange_proceeds _ _ _ _
  cases high with
  | some high => exact .of_pairs (classRange_maps v hm hrules.alike low dash high)
  | none => exact .pure rfl

/-- The contents of classes outside the set grammar are images of each other. -/
theorem classRanges_goes : k.GoesTo past (List.map v.set) classRanges classRanges :=
  (h.many (classRangeItem_goes v h hrules hproperties) progresses_classRangeItem
    progresses_classRangeItem).map_of (fun _ _ hab => by rw [← hab, List.map_flatten])
      fun _ _ _ => id

end Ranges

/-! ## Brackets

A class opens with a bracket and closes with one, and in between the check for strings is made on
the tree that was built. If faults are excused, the second run may have more levels left than the
first, and may read a nested class as one that is not nested. -/

section Brackets

include h

/-- The bracket may be the sign at which the runs part. -/
theorem closeClass_goes {nested nested' : Bool} (hnested : nested = nested' ∨ k.Free) :
    k.Goes past Eq (closeClass nested) (closeClass nested') := by
  have hbracket : k.Goes past Eq (eat ']') (eat ']') :=
    h.bind (h.satisfy _) (fun _ => .pure rfl) fun _ => .pure _
  refine hbracket.orElse ?_
  rcases hnested with rfl | hfree
  · exact .of_pairs (h.atEnd.bind fun _ => .ite (.fail rfl) (.fail rfl))
  · refine .of_fault hfree fun s => ?_
    show ∃ e, (if nested || s.cursor.current.isNone then fail .unterminatedClass
      else fail .invalidCharacterInClass : Parser Unit) k.left s = .fault e
    split <;> exact ⟨_, rfl⟩

variable (hsets : k.right.sets = k.left.sets)

include hsets

/-- A negated class is refused in both runs, since its image contains strings if it does. -/
theorem endOfClass_goes {m m' : Cursor} (hm : k.Marks m m') {nested nested' : Bool}
    (hnested : nested = nested' ∨ k.Free) (negated : Bool) (elements : List CharSet) :
    k.GoesTo past v.set (endOfClass m nested negated elements)
      (endOfClass m' nested' negated (elements.map v.set)) := by
  rw [endOfClass, endOfClass, v.any_mayContainStrings_set]
  exact h.bind (closeClass_goes h hnested)
    (fun _ => .ite (.of_pairs (.fail rfl)) (.of_pairs (classOf_maps v hm hsets negated elements)))
    fun _ => .ite (.fail _) (classOf_proceeds _ _ _)

variable (hrules : k.SameRules) (hproperties : k.SameProperties)

include hrules hproperties

/-- The contents of a class, by either grammar of contents. -/
theorem classContents_goes {inner inner' : Parser CharSet}
    (hinner : NestedClasses v past inner inner') :
    k.GoesTo past (List.map v.set)
      (if k.left.sets then classSetContents inner else classRanges)
      (if k.right.sets then classSetContents inner' else classRanges) := by
  rw [hsets]
  exact .ite (classSetContents_goes v h (escapedValue_goes h hrules) hproperties hinner)
    (classRanges_goes v h hrules hproperties)

/-- Classes are images of each other, if the classes inside are. -/
theorem classBody_goes {inner inner' : Parser CharSet} (hinner : NestedClasses v past inner inner')
    {nested nested' : Bool} (hnested : nested = nested' ∨ k.Free) :
    k.GoesTo past v.set (classBody inner nested) (classBody inner' nested') := by
  rw [classBody_eq, classBody_eq]
  exact .here_bind fun m m' hm => .after (sign_pairs (by decide)) fun _ =>
    .after (eats_pairs (Pairing.not_parts (by decide))) fun negated => .grammar_bind <|
      h.map_bind (classContents_goes v h hsets hrules hproperties hinner)
        (fun elements => endOfClass_goes v h hsets hm hnested negated elements)
        fun _ => endOfClass_proceeds

/-- A class that is read in one run is read in the other, or its bracket is where they part. -/
theorem charClass_goes {depth depth' : Nat} {nested nested' : Bool} (hdepth : depth ≤ depth')
    (hnested : depth = depth' ∧ nested = nested' ∨ k.Free) :
    k.GoesTo past v.set (charClass depth nested) (charClass depth' nested') := by
  induction depth generalizing depth' nested nested' with
  | zero =>
    cases depth' with
    | zero => exact .here_bind fun m m' hm => .after (sign_pairs (by decide)) fun _ =>
        .of_pairs (.failAt rfl hm)
    | succ depth' =>
      have hfree : k.Free := hnested.resolve_left (by simp)
      exact .here_bind fun m m' hm => .after (sign_pairs (by decide)) fun _ =>
        .of_fault hfree fun _ => ⟨_, rfl⟩
  | succ depth ih =>
    obtain ⟨depth', rfl⟩ : ∃ d, depth' = d + 1 := ⟨depth' - 1, by omega⟩
    refine classBody_goes v h hsets hrules hproperties ⟨ih (by omega) ?_,
      progresses_charClass _ _ _, progresses_charClass _ _ _⟩ (hnested.imp_left And.right)
    exact hnested.imp_left fun ⟨heq, _⟩ => ⟨Nat.succ.inj heq, rfl⟩

end Brackets

/-! ## Level and whole runs

Where the same text lies ahead no run is lost, so all that goes is mapped. -/

section Level

variable (hl : k.Level)

include hl

theorem closeClass_pairs (nested : Bool) : k.Pairs Eq (closeClass nested) (closeClass nested) :=
  (closeClass_goes hl.losing (.inl rfl)).pairs

variable (hvalue : k.Pairs Eq escapedValue escapedValue)

include hvalue

theorem classSetCharacter_maps : k.Maps v.character classSetCharacter classSetCharacter :=
  (classSetCharacter_goes v hl.losing (.of_pairs hvalue)).pairs

theorem classSetRange_maps {m m' : Cursor} (hm : k.Marks m m') (first : Character) :
    k.Maps v.set (classSetRange first m) (classSetRange (v.character first) m') :=
  (classSetRange_goes v hl.losing (.of_pairs hvalue) hm first).pairs

theorem classStrings_maps : k.Maps v.set classStrings classStrings :=
  (classStrings_goes v hl.losing (.of_pairs hvalue)).pairs

/-- The contents of classes of the set grammar, in level runs. -/
theorem classSetContents_maps (hproperties : k.SameProperties) {inner : Parser CharSet}
    (hinner : k.Maps v.set inner inner) (hprogress : ∀ g, Progresses inner g) :
    k.Maps (List.map v.set) (classSetContents inner) (classSetContents inner) :=
  (classSetContents_goes v hl.losing (.of_pairs hvalue) hproperties
    ⟨.of_pairs hinner, hprogress _, hprogress _⟩).pairs

end Level

/-- A class that is read in one of two whole runs is read in the other. -/
theorem charClass_maps (hw : k.Whole) (depth : Nat) (nested : Bool) :
    k.Maps v.set (charClass depth nested) (charClass depth nested) :=
  (charClass_goes v hw.losing (by rw [hw.grammar]) hw.sameRules hw.sameProperties (Nat.le_refl _)
    (.inl ⟨rfl, rfl⟩)).pairs

end Parser

end EcmaPattern
