import EcmaPattern.Proofs.Fragments
import EcmaPattern.Proofs.NameModes
import EcmaPattern.Proofs.Routines

/-!
# Routines for escapes

The routines for numbers, escapes and names do what the parsers do and go back if they miss.

Each lemma follows the definition of its routine step by step. Alternatives that begin with the same
signs, such as the two forms of a pair, go back to the same offset, so what they read in common is
read again.
-/

namespace EcmaPattern

namespace Parser

theorem eatAll_pair_bind {β : Type} (c d : Char) (f : Unit → Parser β) :
    (eatAll [c, d] >>= f) = (do eat c; eat d; f ()) := by
  rw [eatAll_cons, eatAll_cons, bind_assoc]
  refine congrArg _ (funext fun _ => ?_)
  rw [bind_assoc]
  rfl

theorem orElse_assoc {α : Type} (p q r : Parser α) : ((p <|> q) <|> r) = (p <|> q <|> r) := by
  funext g s
  rw [orElse_apply, orElse_apply, orElse_apply, orElse_apply]
  cases p g s <;> rfl

end Parser

namespace Routine

variable {k : Situation} {m : Memory} {mark : Cursor} {start : Nat}

/-! ## Numbers

The digits are collected and then converted, and both sides find alike that there are too many. -/

theorem digit_returns (base : Nat) : Returns k m (Parser.digit base) (digit base) :=
  select_returns _

theorem number_returns (base : Nat) : Returns k m (Parser.number base) (number base) := by
  refine (Returns.collect1 (fun _ => digit_returns base) (Parser.progresses_select _ _)).bind
    fun _ _ _ => ?_
  split
  · exact .fail _
  · exact .pure _

theorem fixedHex_returns (length : Nat) : Returns k m (Parser.fixedHex length) (fixedHex length) :=
  .index (Strays.backTo ((Strays.times (fun _ => digit_returns 16) length).map _))

/-! ## Characters

The alternatives in the order in which they are tried. -/

theorem controlLetter_returns : Returns k m Parser.controlLetter controlLetter :=
  .index <| (eat_returns 'c').bind_backTo fun _ _ _ =>
    ((satisfy_returns _).bind fun _ _ _ => .pure _).strays

theorem zeroEscape_returns : Returns k m Parser.zeroEscape zeroEscape := by
  refine .sees_only (by decide) <| Returns.guard (fun hzero => ?_) fun hzero => ?_
  · rw [Parser.zeroEscape]
    split
    · rfl
    · refine Parser.bind_of_miss (Parser.eat_eq_miss.mpr ?_)
      rw [← Cursor.peek_zero]
      exact ne_of_beq_false hzero
  · refine .peek (by decide) <| Returns.guard (fun hdigit => ?_) fun hdigit hm => ?_
    · have hany : (m.window.cursor.peek 1).any CodePoint.isDecimalDigit = true := by
        simpa using hdigit
      exact if_pos hany
    · have hany : ¬(m.window.cursor.peek 1).any CodePoint.isDecimalDigit = true := by
        simpa using hdigit
      rw [Cursor.peek_zero] at hzero
      have hdone : Parser.zeroEscape k.settings.grammar m.state = _ :=
        (if_neg hany).trans (Parser.bind_of_done (hm.eat_of_current (eq_of_beq hzero) _))
      rw [hdone]
      exact .done hm.ahead_advance

theorem hexEscape_returns : Returns k m Parser.hexEscape hexEscape := by
  refine .index <| (eat_returns 'x').bind_backTo fun _ _ _ => Returns.strays ?_
  exact ((fixedHex_returns 2).map _).orElse <| .grammar <| Returns.require fun _ => .fail _

theorem escapedPair_returns : Returns k m Parser.escapedPair escapedPair := by
  refine .index <| (fixedHex_returns 4).bind_backTo fun _ _ _ => .require fun _ => ?_
  rw [Parser.eatAll_pair_bind]
  refine (eat_returns '\\').strays.bind fun _ _ _ => (eat_returns 'u').strays.bind fun _ _ _ => ?_
  exact (fixedHex_returns 4).strays.bind fun _ _ _ => .require fun _ => (Completes.pure _).strays

theorem bracedCodePoint_returns : Returns k m Parser.bracedCodePoint bracedCodePoint := by
  refine .index <| Strays.backTo ?_
  refine (eat_returns '{').strays.bind fun _ _ _ => ?_
  refine (number_returns 16).strays.bind fun n _ _ => ?_
  refine (eat_returns '}').strays.bind fun _ _ _ => ?_
  cases CodePoint.ofInt? n with
  | none => exact Returns.miss.strays
  | some c => exact (Completes.pure c).strays

theorem unicodeEscape_returns (wide : Bool) :
    Returns k m (Parser.unicodeEscape wide) (unicodeEscape wide) := by
  refine .index <| (eat_returns 'u').bind_backTo fun _ _ _ => Returns.strays ?_
  refine Follows.orElse (Returns.require fun _ => escapedPair_returns) ?_
  refine ((fixedHex_returns 4).map _).orElse ?_
  refine Follows.orElse (Returns.require fun _ => bracedCodePoint_returns) ?_
  exact .grammar <| Returns.require fun _ => .fail _

theorem legacyOctal_returns : Returns k m Parser.legacyOctal legacyOctal := by
  refine (digit_returns 8).bind fun first _ _ => ?_
  refine (digit_returns 8).attempt.bind fun second _ _ => ?_
  cases second with
  | none => exact .pure _
  | some second =>
    dsimp only
    split
    · refine (digit_returns 8).attempt.bind fun third _ _ => ?_
      cases third with
      | none => exact .pure _
      | some third => exact .pure _
    · exact .pure _

theorem identityEscape_returns : Returns k m Parser.identityEscape identityEscape :=
  .grammar <| satisfy_returns _

theorem escapedValue_returns : Returns k m Parser.escapedValue escapedValue :=
  .grammar <| (select_returns _).orElse <| controlLetter_returns.orElse <|
    zeroEscape_returns.orElse <| hexEscape_returns.orElse <| (unicodeEscape_returns _).orElse <|
      (Returns.require fun _ => legacyOctal_returns).orElse identityEscape_returns

theorem characterFrom_completes (h : k.Marks mark start) (value : CodePoint) :
    Completes k m (Parser.characterFrom mark value) (characterFrom start value) :=
  (spanFrom_completes h).bind fun _ _ _ => .pure _

theorem characterEscape_returns (h : k.Marks mark start) :
    Returns k m (Parser.characterEscape mark) (characterEscape start) :=
  escapedValue_returns.bind fun value _ _ => characterFrom_completes h value

/-! ## Sets

The name and the value of a property are words, and the equals sign decides which of the two forms
it is. Where there is none, the routine goes back to where the words began. -/

theorem propertyWord_returns (test : CodePoint → Bool) :
    Returns k m (Parser.propertyWord test) (propertyWord test) :=
  (Returns.collect1 (fun _ => satisfy_returns test) (Parser.progresses_satisfy test _)).bind
    fun _ _ _ => .pure _

theorem propertyPair_strays : Strays k m Parser.propertyPair propertyPair := by
  refine (propertyWord_returns _).strays.bind fun name _ _ => ?_
  refine (eat_returns '=').strays.bind fun _ _ _ => ?_
  refine (propertyWord_returns _).strays.bind fun value _ _ => .grammar ?_
  cases Property.ofPair? k.settings.grammar.edition name value with
  | none => exact .fail _
  | some p => exact (Completes.pure p).strays

theorem loneProperty_returns : Returns k m Parser.loneProperty loneProperty := by
  refine (propertyWord_returns _).bind fun name _ _ => .grammar ?_
  cases Property.ofName? k.settings.grammar.edition k.settings.grammar.sets name with
  | none => exact .fail _
  | some p => exact Completes.pure p

theorem propertyExpression_returns :
    Returns k m (Parser.propertyPair <|> Parser.loneProperty) propertyExpression :=
  .index <| propertyPair_strays.orElse_rewind loneProperty_returns

theorem propertyEscape_returns (h : k.Marks mark start) :
    Returns k m (Parser.propertyEscape mark) (propertyEscape start) := by
  refine .grammar <| Returns.require fun _ => .supports fun _ _ => Returns.require fun _ => ?_
  refine (select_returns _).bind fun negated _ _ => ?_
  refine ((eat_returns '{').orElse_fail _).bind fun _ _ _ => ?_
  rw [← Parser.orElse_assoc]
  refine (propertyExpression_returns.orElse_fail _).bind fun p _ _ => ?_
  refine ((eat_returns '}').orElse_fail _).bind fun _ _ _ => ?_
  split
  · exact .fail _
  · exact (spanFrom_completes h).bind fun _ _ _ => .pure _

theorem setEscape_returns (h : k.Marks mark start) :
    Returns k m (Parser.setEscape mark) (setEscape start) := by
  refine Follows.orElse ?_ (propertyEscape_returns h)
  exact (select_returns _).bind fun _ _ _ => (spanFrom_completes h).bind fun _ _ _ => .pure _

/-! ## Names

A character of a name can take two steps, for a pair of surrogates, and the test is made at the end;
if it fails the routine goes back over both. -/

theorem nameCharacter_returns (test : CodePoint → Bool) :
    Returns k m (Parser.nameCharacter test) (nameCharacter test) := by
  refine .index <| .grammar <| (satisfy_returns _).bind_backTo fun first _ _ => ?_
  refine Strays.bind (Returns.strays ?_) fun c _ _ =>
    Strays.require fun _ => (Completes.pure c).strays
  refine Follows.orElse (Returns.require fun _ => unicodeEscape_returns _) ?_
  refine Follows.orElse (Returns.require fun _ => ?_) (Completes.pure first).returns
  exact (satisfy_returns _).bind fun _ _ _ => .pure _

theorem identifierName_returns : Returns k m Parser.identifierName identifierName :=
  (nameCharacter_returns _).bind fun _ _ _ =>
    (Returns.collect (fun _ => nameCharacter_returns _) (Parser.progresses_nameCharacter _ _)).bind
      fun _ _ _ => .pure _

theorem groupName_returns : Returns k m Parser.groupName groupName :=
  (eat_returns '<').bind fun _ _ _ => (identifierName_returns.orElse_fail _).bind fun _ _ _ =>
    ((eat_returns '>').orElse_fail _).bind fun _ _ _ => .pure _

end Routine

end EcmaPattern
