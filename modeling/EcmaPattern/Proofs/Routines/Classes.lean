import EcmaPattern.Proofs.NestingLimit
import EcmaPattern.Proofs.Relaxation.Classes
import EcmaPattern.Proofs.Routines.Escapes

/-!
# Routines for classes

The routines for classes do what the parsers do and go back if they miss. Where a loop of a routine
is not a plain repetition, the repetition of the parser is taken apart one step at a time.
-/

namespace EcmaPattern

namespace Parser

/-- What is left to read of a step of a set operation after its sign. -/
def operationRest (inner : Parser CharSet) (mark : Cursor) (op : SetOperation) :
    Parser (Span × CharSet) := do
  if op = .intersection && (← sees 0 '&') then fail .invalidCharacterInClass
  else
    let right ← classSetOperand inner <|> fail .invalidCharacterInClass
    return (← spanFrom mark, right)

theorem neverMisses_operationRest (inner : Parser CharSet) (mark : Cursor) (op : SetOperation) :
    NeverMisses (operationRest inner mark op) := by
  refine (neverMisses_sees _ _).bind fun b => ?_
  split
  · exact fun _ _ => fail_ne_miss
  · exact (NeverMisses.orElse _ fun _ _ => fail_ne_miss).bind fun _ =>
      (neverMisses_spanFrom mark).bind fun _ => neverMisses_pure _

theorem classSetCharacter_at_end {g : Grammar} {s : State} (h : s.cursor.current = none) :
    classSetCharacter g s = .miss := by
  have hplain : plainClassSetCharacter g s = .miss :=
    satisfy_eq_miss (g := g).mpr fun c hc => by simp [h] at hc
  have hslash : eat '\\' g s = .miss := eat_eq_miss.mpr (by simp [h])
  exact orElse_eq_miss.mpr ⟨bind_of_miss hplain, bind_of_miss hslash⟩

end Parser

namespace Routine

variable {k : Situation} {m : Memory} {mark : Cursor} {start : Nat}

/-! ## Ranges

The loop of the routine reads an atom and what may follow it. After a hyphen with no atom behind it
the loop stops, and the repetition of the parser takes one more step, which misses. -/

theorem characterSetFrom_completes (h : k.Marks mark start) (value : CodePoint) :
    Completes k m (Parser.characterSetFrom mark value) (characterSetFrom start value) :=
  (characterFrom_completes h value).map _

/-- The routine peeks at the letter before it goes past the `c`, so there is nothing to undo. -/
theorem classControlLetter_returns : Returns k m Parser.classControlLetter classControlLetter := by
  refine .grammar <| Returns.require fun _ => .sees_only (by decide) <| Returns.guard (fun hc => ?_)
    fun hc => .peek (by decide) fun hm => ?_
  · refine Parser.bind_of_miss (Parser.eat_eq_miss.mpr ?_)
    rw [← Cursor.peek_zero]
    exact ne_of_beq_false hc
  · -- the routine looks at the letter before it goes past the `c`
    have hahead := hm.ahead_advance
    rw [Cursor.peek_zero] at hc
    rw [Parser.bind_of_done (hm.eat_of_current (eq_of_beq hc) _), Parser.bind_apply,
      Parser.satisfy_apply, Memory.state_cursor, ← hm.current_advance]
    cases m.window.advance.cursor.current.filter _ with
    | none => exact .miss rfl
    | some c => exact (Matches.advance (hm.ahead hahead)).mono (fun _ _ => hahead.trans) fun _ => id

theorem classEscapedValue_returns : Returns k m Parser.classEscapedValue classEscapedValue := by
  refine Follows.orElse ((eat_returns 'b').bind fun _ _ _ => .pure _) ?_
  refine Follows.orElse (.grammar <| Returns.require fun _ => ?_) classControlLetter_returns
  exact (eat_returns '-').bind fun _ _ _ => .pure _

theorem classEscape_returns (h : k.Marks mark start) :
    Returns k m (Parser.classEscape mark) (classEscape start) := by
  refine Follows.orElse ?_ <| (setEscape_returns h).orElse ((characterEscape_returns h).map _)
  exact classEscapedValue_returns.bind fun value _ _ => characterSetFrom_completes h value

theorem classBackslash_returns (h : k.Marks mark start) :
    Returns k m (Parser.classBackslash mark) (classBackslash start) :=
  .grammar <| Returns.require fun _ => .sees (by decide) fun _ => Returns.require fun _ =>
    (characterSetFrom_completes h _).returns

/-- The routine for an atom of a class does what the parser does. -/
theorem classAtom_returns : Returns k m Parser.classAtom classAtom := by
  refine .mark fun hmark => Follows.orElse ?_ ?_
  · exact (satisfy_returns _).bind fun value _ _ => characterSetFrom_completes hmark value
  · refine (eat_returns '\\').bind_backTo fun _ _ _ => Returns.strays ?_
    refine (classEscape_returns hmark).orElse <| (classBackslash_returns hmark).orElse ?_
    exact .grammar <| Returns.require fun _ => .fail _

theorem classRange_completes (h : k.Marks mark start) (low dash high : CharSet) :
    Completes k m (Parser.classRange mark low dash high) (classRange start low dash high) := by
  have hweb : Completes k m
      (do if (← Parser.grammar).exact then Parser.fail .invalidCharacterClass
          else return [low, dash, high])
      (do if (← grammar).exact then fail .invalidCharacterClass else return [low, dash, high]) := by
    refine .grammar ?_
    split
    · exact .fail _
    · exact Completes.pure _
  unfold Parser.classRange classRange
  cases low.character? with
  | none => exact hweb
  | some first =>
    cases high.character? with
    | none => exact hweb
    | some last =>
      dsimp only
      split
      · exact .fail _
      · exact (spanFrom_completes h).bind fun _ _ _ => .pure _

/-- The loop over the contents of a class. After a hyphen with nothing behind it no item follows,
and the parser finds that out by itself. -/
theorem classRangesFor_completes {fuel : Nat} (hfuel : m.window.cursor.remaining < fuel) :
    Completes k m Parser.classRanges (classRangesFor fuel) := by
  induction fuel generalizing m with
  | zero => omega
  | succ fuel ih =>
    -- the repetition of the parser, with its first step taken apart
    have hstep := Parser.many_of_bind (q := Parser.classAtom)
      (f := Parser.classRangeRest m.window.cursor) (g := k.settings.grammar) (s := m.state)
      Parser.progresses_classRangeItem rfl fun low _ =>
        (Parser.classRangeRest_proceeds m.window.cursor low).ne_miss
    refine Follows.congr (Parser.map_congr hstep) <| .marked fun hmark => ?_
    rw [map_bind]
    refine classAtom_returns.attempt.bind_done fun low n hlow hn => ?_
    cases low with
    | none => exact .pure []
    | some low =>
      have hless : n.window.cursor.remaining < m.window.cursor.remaining :=
        Parser.progresses_classAtom _ _ _ (Parser.attempt_eq_some.mp hlow)
      -- whatever the step was, the loop goes on with less ahead
      have hrest {o : Memory} (h : o.window.cursor.remaining ≤ n.window.cursor.remaining)
          (xs : List CharSet) : Completes k o
            ((fun items => xs ++ List.flatten items) <$> Parser.many Parser.classRangeItem)
            ((xs ++ ·) <$> classRangesFor fuel) := by
        have hmap := (ih (m := o) (by omega)).map (xs ++ ·)
        rwa [Parser.classRanges, Functor.map_map] at hmap
      simp only [Parser.classRangeRest, map_bind, bind_assoc, Functor.map_map, List.flatten_cons]
      refine .marked fun hdash => (eats_completes '-').bind_done fun hyphen o hhyphen ho => ?_
      rcases Parser.eats_eq_done.mp hhyphen with ⟨rfl, hread⟩ | ⟨rfl, -, -⟩
      · have hindex : o.window.index = n.window.index + 1 := hread.cursor.index
        have hdash : k.Marks n.window.cursor (o.window.index - 1) := by
          rw [hindex, Nat.add_sub_cancel]
          exact hdash
        rw [if_pos rfl, if_pos rfl, bind_assoc]
        refine Follows.index <| (characterSetFrom_completes hdash _).bind fun dash u hu => ?_
        rw [bind_assoc]
        refine classAtom_returns.attempt.bind_done fun high v hhigh hv => ?_
        cases high with
        | none =>
          -- the next step of the parser misses where the loop has found no atom
          obtain ⟨hmiss, hstate⟩ := Parser.attempt_eq_none.mp hhigh
          have hitem : Parser.classRangeItem k.settings.grammar u.state = .miss :=
            Parser.bind_of_miss (f := Parser.classRangeRest u.state.cursor) hmiss
          have hend : Completes k v (pure [low, dash]) (pure [low, dash]) := .pure _
          refine Follows.congr ?_ hend
          rw [pure_bind, Parser.map_apply, Parser.bind_of_done (Parser.many_none (hstate ▸ hitem))]
          rfl
        | some high =>
          refine (classRange_completes hmark low dash high).bind fun elements w hw => ?_
          exact hrest (((ho.trans hu).trans hv).trans hw).remaining_le elements
      · exact hrest ho.remaining_le [low]

/-- The loop over atoms and ranges does what the repetition does. It is taken apart one step at a
time, by induction on the fuel. -/
theorem classRanges_completes : Completes k m Parser.classRanges classRanges := fun hm =>
  classRangesFor_completes hm.remaining_lt_fuel hm

/-! ## The set grammar

After the first operand the next two characters decide which loop is entered. The parser has a
repetition for each. -/

theorem plainClassSetCharacter_returns :
    Returns k m Parser.plainClassSetCharacter plainClassSetCharacter :=
  .peek (by decide) <| .peek (by decide) <| satisfy_returns _

/-- The routine for a character of the set grammar does what the parser does. -/
theorem classSetCharacter_returns : Returns k m Parser.classSetCharacter classSetCharacter := by
  refine .mark fun hmark => Follows.orElse ?_ ?_
  · exact plainClassSetCharacter_returns.bind fun value _ _ => characterFrom_completes hmark value
  · refine (eat_returns '\\').bind_backTo fun _ _ _ => Returns.strays ?_
    refine (characterEscape_returns hmark).orElse <| Follows.orElse ?_ ?_
    · exact (satisfy_returns _).bind fun value _ _ => characterFrom_completes hmark value
    · exact (eat_returns 'b').bind fun _ _ _ => characterFrom_completes hmark _

theorem classSetRange_returns {first : Character} (h : k.Marks mark first.span.start) :
    Returns k m (Parser.classSetRange first mark) (classSetRange first) := by
  refine .index <| (eat_returns '-').bind_backTo fun _ _ _ => ?_
  refine classSetCharacter_returns.strays.bind fun last _ _ => ?_
  split
  · exact .fail _
  · exact ((spanFrom_completes h).bind fun _ _ _ => .pure _).strays

theorem classString_completes : Completes k m Parser.classString classString := by
  refine .mark fun hmark => ?_
  refine Completes.bind (Returns.collect (fun _ => ?_)
    (Parser.progresses_classSetCharacter _)) fun _ _ _ => ?_
  · refine classSetCharacter_returns.unlessAtEnd (fun _ => rfl) fun hend => ?_
    exact Parser.classSetCharacter_at_end hend
  · exact (spanFrom_completes hmark).bind fun _ _ _ => .pure _

theorem classStrings_returns : Returns k m Parser.classStrings classStrings := by
  refine .mark fun hmark => (eatAll_returns (by decide)).bind fun _ _ _ => ?_
  refine classString_completes.bind fun _ _ _ => ?_
  refine Completes.bind (Returns.collect (fun _ => ?_) Parser.progresses_barred) fun _ _ _ => ?_
  · exact (eat_returns '|').bind fun _ _ _ => classString_completes
  · exact ((eat_returns '}').orElse_fail _).bind fun _ _ _ =>
      (spanFrom_completes hmark).bind fun _ _ _ => .pure _

theorem escapedSet_returns : Returns k m Parser.escapedSet escapedSet :=
  .mark fun hmark => (eat_returns '\\').bind_backTo fun _ _ _ => (setEscape_returns hmark).strays

section

variable {inner : Parser CharSet} {inner' : Routine CharSet}
  (hinner : ∀ m, Returns k m inner inner')

include hinner

/-- The routine for an operand does what the parser does, if that for inner classes does. -/
theorem classSetOperand_returns :
    Returns k m (Parser.classSetOperand inner) (classSetOperand inner') :=
  (hinner m).orElse <| escapedSet_returns.orElse <| classStrings_returns.orElse <|
    classSetCharacter_returns.map _

variable (hprogress : Parser.Progresses inner k.settings.grammar)

include hprogress

/-- The loop over the operands of a set operation. -/
theorem operandsFor_completes (hmark : k.Marks mark start) (op : SetOperation) {fuel : Nat}
    (hfuel : m.window.cursor.remaining < fuel) (left : CharSet) :
    Completes k m
      (do let step ← Parser.operationRest inner mark op
          let steps ← Parser.many (Parser.operationStep inner mark op)
          return [(step :: steps).foldl
            (fun left (span, right) => .operation span op left right) left])
      (operandsFor inner' start op fuel left) := by
  induction fuel generalizing m left with
  | zero => omega
  | succ fuel ih =>
    simp only [Parser.operationRest, bind_assoc]
    refine .sees (by decide) fun third => ?_
    split
    · exact .congr rfl (.fail _)
    · simp only [bind_assoc, pure_bind]
      refine ((classSetOperand_returns hinner).orElse_fail _).bind fun right n hn => ?_
      refine (spanFrom_completes hmark).bind fun span o ho => ?_
      -- the next step of the repetition begins with the sign that the loop looks for
      have hstep := Parser.many_of_bind (s := o.state)
        (Parser.progresses_operationStep hprogress mark op)
        (f := fun _ => Parser.operationRest inner mark op) rfl
        fun _ => Parser.neverMisses_operationRest inner mark op
      refine Follows.congr (Parser.bind_congr hstep) ?_
      rw [bind_assoc]
      refine (eatAll_returns (by simp)).attempt.bind_done fun signs u hsigns hu => ?_
      cases signs with
      | none => exact .pure _
      | some signs =>
        have hless : u.window.cursor.remaining < o.window.cursor.remaining :=
          Parser.progresses_eatAll (by simp) _ _ _ _ (Parser.attempt_eq_some.mp hsigns)
        have hle := (hn.trans ho).remaining_le
        have hrest := ih (m := u) (by omega) (.operation span op left right)
        simp only [bind_assoc, map_eq_pure_bind, pure_bind]
        exact hrest

/-- The loop over operands does what the repetition does and folds the operations as it goes. -/
theorem operationChain_returns (hmark : k.Marks mark start) (op : SetOperation) (first : CharSet) :
    Returns k m (Parser.operationChain inner mark op first)
      (operationChain inner' start op first) := by
  have hchain : Parser.operationChain inner mark op first = (do
      Parser.eatAll [Parser.operationSign op, Parser.operationSign op]
      let step ← Parser.operationRest inner mark op
      let steps ← Parser.many (Parser.operationStep inner mark op)
      return [(step :: steps).foldl
        (fun left (span, right) => .operation span op left right) first]) := by
    show (((Parser.eatAll _ >>= fun _ => Parser.operationRest inner mark op) >>= fun step =>
      Parser.many (Parser.operationStep inner mark op) >>= fun steps =>
        pure (step :: steps)) >>= _) = _
    simp only [bind_assoc, pure_bind]
  rw [hchain]
  refine (eatAll_returns (by simp)).bind fun _ _ _ => ?_
  intro hm
  exact operandsFor_completes hinner hprogress hmark op hm.remaining_lt_fuel first hm

omit hprogress in
theorem unionItem_returns : Returns k m (Parser.unionItem inner) (unionItem inner') := by
  refine .marked fun hmark => Follows.orElse ?_ (classSetOperand_returns hinner)
  refine classSetCharacter_returns.bind_done fun c n hc _ => ?_
  have hstart : c.span.start = m.window.index := by
    rw [(Parser.classSetCharacter_eq_done hc).span_eq]
    rfl
  exact Follows.orElse (classSetRange_returns (by rwa [hstart])) (Completes.pure _)

theorem classSetFrom_completes (hmark : k.Marks mark start) (first : CharSet) :
    Completes k m (Parser.classSetFrom inner mark first) (classSetFrom inner' start first) :=
  (operationChain_returns hinner hprogress hmark _ first).orElse <|
    (operationChain_returns hinner hprogress hmark _ first).orElse <|
      (Returns.collect (fun _ => unionItem_returns hinner)
        (Parser.progresses_unionItem hprogress)).map _

omit hinner hprogress in
theorem classSetFault_completes : Completes k m Parser.classSetFault classSetFault := by
  refine .peek (by decide) fun hm => ?_
  rw [Parser.classSetFault, Memory.state_cursor, Cursor.peek_zero]
  cases hcurrent : m.window.cursor.current with
  | none =>
    refine Follows.peek (p := Parser.fail _) (i := 1) (by decide) ?_ hm
    rw [Option.any_none, Bool.and_false]
    exact .fail _
  | some c =>
    dsimp only
    cases hslash : c == .ofChar '\\' with
    | true =>
      have hslash' : (some c == some (.ofChar '\\')) = true := hslash
      have heat := hm.eat_of_current (eq_of_beq hslash ▸ hcurrent) k.settings.grammar
      rw [if_pos rfl, if_pos hslash', Parser.bind_of_done heat]
      exact Follows.fail _ (hm.ahead hm.ahead_advance)
    | false =>
      have hslash' : ¬(some c == some (.ofChar '\\')) = true := ne_true_of_eq_false hslash
      rw [if_neg Bool.false_ne_true, if_neg hslash']
      -- the two compare the same characters in different order
      have hdouble : (some c == m.window.cursor.peek 1) = (m.window.cursor.peek 1 == some c) :=
        Bool.beq_comm
      split
      · next h =>
        refine Follows.peek (p := Parser.fail _) (i := 1) (by decide) ?_ hm
        rw [hdouble, Option.any_some, if_pos h]
        exact .fail _
      · next h =>
        refine Follows.peek (p := Parser.fail _) (i := 1) (by decide) ?_ hm
        rw [hdouble, Option.any_some, if_neg h]
        exact .fail _

theorem classSetExpression_completes :
    Completes k m (Parser.classSetExpression inner) (classSetExpression inner') := by
  refine .mark fun hmark => classSetCharacter_returns.attempt.bind_done fun c n hc _ => ?_
  cases c with
  | none =>
    refine (classSetOperand_returns hinner).attempt.bind fun operand _ _ => ?_
    cases operand with
    | none => exact classSetFault_completes
    | some operand => exact classSetFrom_completes hinner hprogress hmark operand
  | some c =>
    have hstart : c.span.start = m.window.index := by
      rw [(Parser.classSetCharacter_eq_done (Parser.attempt_eq_some.mp hc)).span_eq]
      rfl
    refine (classSetRange_returns (by rwa [hstart])).attempt.bind fun range _ _ => ?_
    cases range with
    | none => exact classSetFrom_completes hinner hprogress hmark _
    | some range =>
      exact (Returns.collect (fun _ => unionItem_returns hinner)
        (Parser.progresses_unionItem hprogress)).map _

/-- The routine for the contents of a class does what the parser does. -/
theorem classSetContents_completes :
    Completes k m (Parser.classSetContents inner) (classSetContents inner') := by
  have hcontents : Parser.classSetContents inner k.settings.grammar m.state =
      (if m.window.cursor.current.isNone || m.window.cursor.peek 0 == some (.ofChar ']') then
          pure []
        else Parser.classSetExpression inner) k.settings.grammar m.state := rfl
  refine .peek (by decide) <| .congr hcontents ?_
  rw [Cursor.peek_zero]
  split
  · exact Completes.pure []
  · exact classSetExpression_completes hinner hprogress

end

/-! ## Classes

A class misses only at its bracket. Behind that it is done, or there is a fault. -/

theorem closeClass_completes (nested : Bool) :
    Completes k m (Parser.closeClass nested) (closeClass nested) := by
  have hend : (do if nested || (← Parser.atEnd) then Parser.fail .unterminatedClass
                  else Parser.fail .invalidCharacterInClass : Parser Unit)
          k.settings.grammar m.state =
      (if nested || m.window.cursor.current.isNone then Parser.fail .unterminatedClass
        else Parser.fail .invalidCharacterInClass) k.settings.grammar m.state := rfl
  refine (eat_returns ']').orElse <| .peek (by decide) <| .congr hend ?_
  rw [Cursor.peek_zero]
  split <;> exact .fail _

theorem classOf_completes (hmark : k.Marks mark start) (negated : Bool) (elements : List CharSet) :
    Completes k m (Parser.classOf mark negated elements) (classOf start negated elements) := by
  refine .grammar <| (spanFrom_completes hmark).bind fun span _ _ => ?_
  rcases elements with _ | ⟨contents, _ | ⟨_, _⟩⟩
  · exact .pure _
  · dsimp only
    split <;> exact .pure _
  · exact .pure _

/-- The contents of a class, from inside it to behind it. -/
theorem classContents_follows {inner : Parser CharSet} {inner' : Routine CharSet}
    (hinner : ∀ m, Returns k.deeper m inner inner')
    (hprogress : Parser.Progresses inner k.settings.grammar) (nested : Bool)
    (hmark : k.Marks mark start) :
    Follows k.deeper (fun _ => m.Ahead) (fun _ => False) m.enter
      (do let negated ← Parser.eats '^'
          let elements ←
            if (← Parser.grammar).sets then Parser.classSetContents inner else Parser.classRanges
          Parser.closeClass nested
          if negated && elements.any CharSet.mayContainStrings then
            Parser.fail .negatedClassWithStrings
          else Parser.classOf mark negated elements)
      (do let negated ← eats '^'
          let elements ← if (← grammar).sets then classSetContents inner' else classRanges
          closeClass nested
          if negated && elements.any CharSet.mayContainStrings then fail .negatedClassWithStrings
          else
            leaveNesting
            classOf start negated elements) := by
  refine (eats_completes '^').bind_follows fun negated n hn => .grammar ?_
  -- the end is the same for both grammars of contents; the level is left when nothing can fail any
  -- more
  have hclose (elements : List CharSet) {o : Memory} (ho : n.Ahead o) :
      Follows k.deeper (fun _ => m.Ahead) (fun _ => False) o
        (do Parser.closeClass nested
            if negated && elements.any CharSet.mayContainStrings then
              Parser.fail .negatedClassWithStrings
            else Parser.classOf mark negated elements)
        (do closeClass nested
            if negated && elements.any CharSet.mayContainStrings then fail .negatedClassWithStrings
            else
              leaveNesting
              classOf start negated elements) := by
    refine (closeClass_completes nested).bind_follows fun _ u hu => ?_
    split
    · exact .fail _
    · intro hin
      have hleave := ((hn.trans ho).trans hu).leave
      exact (classOf_completes hmark negated elements hin.leave).mono (fun _ _ => hleave.trans)
        fun _ => id
  split
  · exact (classSetContents_completes hinner hprogress).bind_follows fun elements _ =>
      hclose elements
  · exact classRanges_completes.bind_follows fun elements _ => hclose elements

/-- A class that has a level left is read; one that has none is a fault. -/
theorem charClass_returns {fuel depth : Nat} (hfuel : k.room ≤ fuel)
    (hdepth : k.depth + depth = k.settings.maxDepth) (nested : Bool) :
    Returns k m (Parser.charClass depth nested) (charClass fuel nested) := by
  induction fuel generalizing k m depth nested with
  | zero =>
    intro hm
    have hroom := hm.room
    omega
  | succ fuel ih =>
    cases depth with
    | zero =>
      refine Follows.mark fun hmark => Follows.bind (eat_returns '[') fun _ n hm _ hn => ?_
      rw [enterNesting_bind _ _ (hm.ahead hn), if_pos (by omega)]
      exact .fault _
    | succ depth =>
      refine Follows.mark fun hmark => Follows.bind (eat_returns '[') fun _ n hm hopen hn => ?_
      rw [enterNesting_bind _ _ (hm.ahead hn), if_neg (by omega)]
      have hless : n.window.cursor.remaining < m.window.cursor.remaining :=
        Parser.progresses_eat _ _ _ _ _ hopen
      have hroom := hm.room
      have hin : n.In k.closer := (hm.ahead hn).closer (by omega)
      have hinner (o : Memory) : Returns k.closer.deeper o (Parser.charClass depth true)
          (charClass fuel true) :=
        ih (Nat.sub_le_iff_le_add.mpr hfuel) ((Nat.succ_add_eq_add_succ _ _).trans hdepth) true
      have hrest := classContents_follows (m := n) hinner (Parser.progresses_charClass _ _ _) nested
        hmark.closer hin.enter
      exact hrest.mono (fun _ _ => hn.trans) fun _ => False.elim

end Routine

end EcmaPattern
