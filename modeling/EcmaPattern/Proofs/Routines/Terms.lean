import EcmaPattern.Proofs.GroupPlaces
import EcmaPattern.Proofs.PatternEnds
import EcmaPattern.Proofs.Routines.Classes

/-!
# Routines for terms

The routines for terms and alternatives do what the parsers do. A term that refers to a group by its
name makes the routine await that name, so what is kept here is weaker than for classes: the names
awaited are those that the tree refers to, and every disjunction that was entered has been left
(`Memory.Leads`). What is known of the last assertion, by which a routine decides whether a
quantifier may follow, the parser can tell from the assertion itself (`Asserts`).

A group consumes its parenthesis before it descends, so there is less ahead at each level, and the
induction over levels (`disjunction_refers`) needs no more fuel than there are units ahead.

Key lemmas:

* `lookaround_follows` and `group_refers`, for what nests;
* `sequence_follows` and `alternatives_refers`, over a parser for what nests;
* `disjunction_refers`, by induction on the levels that are left.
-/

namespace EcmaPattern

namespace GroupScope

variable {scope : GroupScope}

/-- A disjunction is entered at its first alternative. -/
theorem enterAlternative_enterDisjunction :
    scope.enterDisjunction.enterAlternative 0 = scope.enterDisjunction := by
  rw [enterAlternative, enterDisjunction, List.getLast?_concat]
  dsimp only
  rw [List.dropLast_concat]

/-- Going to the following alternative is entering the one with the next number. -/
theorem followingAlternative_eq_enterAlternative {place : ForkPath} {serial a : Nat}
    (h : scope.path = place ++ [⟨serial, a⟩]) :
    scope.followingAlternative = scope.enterAlternative (a + 1) := by
  rw [followingAlternative, h, List.getLast?_concat]

theorem path_enterAlternative {place : ForkPath} {serial a b : Nat}
    (h : scope.path = place ++ [⟨serial, a⟩]) :
    (scope.enterAlternative b).path = place ++ [⟨serial, b⟩] := by
  rw [enterAlternative, h, List.getLast?_concat]
  dsimp only
  rw [List.dropLast_concat]

end GroupScope

namespace Parser

variable {g : Grammar} {s t : State}

theorem edgeAssertion_eq_done {e : Term} (h : edgeAssertion g s = .done e t) :
    ∃ span edge, e = .edge span edge := by
  rw [edgeAssertion, here_bind, bind_eq_done] at h
  obtain ⟨edge, u, -, h⟩ := h
  rw [spanFrom_bind] at h
  obtain ⟨rfl, -⟩ := pure_eq_done.mp h
  exact ⟨_, _, rfl⟩

theorem wordBoundary_eq_done {e : Term} (h : wordBoundary g s = .done e t) :
    ∃ span negated, e = .wordBoundary span negated := by
  rw [wordBoundary, here_bind, bind_eq_done] at h
  obtain ⟨negated, u, -, h⟩ := h
  rw [spanFrom_bind] at h
  obtain ⟨rfl, -⟩ := pure_eq_done.mp h
  exact ⟨_, _, rfl⟩

theorem progresses_lookOpening (g : Grammar) : Progresses lookOpening g := by
  rintro s ⟨direction, negated⟩ t h
  refine (lookOpening_eq_done h).1.cursor.remaining_lt ?_
  cases direction <;> cases negated <;> exact List.cons_ne_nil _ _

/-- The letters of modifiers after the given ones. A letter that stood before is a fault; offsets
count from the first letter. -/
def distinctLetters (base : Nat) (letters : List CodePoint) : Parser (List CodePoint) := do
  let more ← many (satisfy isModifierLetter)
  match firstRepeat letters.reverse letters.length more with
  | some (letter, position) => failAt (.duplicatedFlag letter) (base + position)
  | none => return letters ++ more

/-- Letters of modifiers can be checked one by one while they are read. -/
theorem modifierFlags_eq : modifierFlags = (do
    let mark ← here
    let letters ← distinctLetters mark.index []
    return {
      span := ← spanFrom mark
      ignoreCase := letters.contains 'i'
      multiline := letters.contains 'm'
      dotAll := letters.contains 's' }) := by
  refine congrArg (here >>= ·) (funext fun mark => ?_)
  rw [distinctLetters, bind_assoc]
  refine congrArg (many (satisfy isModifierLetter) >>= ·) (funext fun letters => ?_)
  simp only [List.reverse_nil, List.length_nil, List.nil_append]
  cases firstRepeat [] 0 letters with
  | none => rfl
  | some pair => rfl

/-- Behind an angle bracket there must be a name. -/
theorem groupName_ne_miss (h : s.cursor.current = some (.ofChar '<')) : groupName g s ≠ .miss := by
  have heat : eat '<' g s = .done () { s with cursor := s.cursor.advance } :=
    eat_eq_done.mpr (State.reads_singleton.mpr ⟨h, rfl⟩)
  rw [groupName, bind_of_done heat]
  refine NeverMisses.bind (.orElse _ fun _ _ => fail_ne_miss) (fun name => ?_) _ _
  exact (NeverMisses.orElse _ fun _ _ => fail_ne_miss).bind fun _ => neverMisses_pure _

/-- The rest of a group, from behind its parenthesis on, where what kind of group it is can be told
before anything is read. -/
def groupRest (inside : Nested) (mark : Cursor) : Parser Term := do
  if !(← sees 0 '?') then capturingGroup inside mark none
  else if ← sees 1 ':' then
    eat '?'
    eat ':'
    plainGroup inside mark none
  else if (← sees 1 '<') && (← supports .namedGroups) then
    eat '?'
    namedGroup inside mark
  else if ← supports .modifiers then
    eat '?'
    modifiedGroup inside mark
  else failAt .invalidGroup (mark.index + 1)

theorem eats_of_current {c : CodePoint} (h : s.cursor.current = some c) :
    eats c g s = .done true { s with cursor := s.cursor.advance } :=
  eats_eq_done.mpr (.inl ⟨rfl, State.reads_singleton.mpr ⟨h, rfl⟩⟩)

theorem groupRest_apply (inside : Nested) (mark : Cursor) :
    groupRest inside mark g s =
      (do if ← eats '?' then
            if ← eats ':' then plainGroup inside mark none
            else if (← supports .namedGroups) && (← sees 0 '<') then namedGroup inside mark
            else modifiedGroup inside mark
          else capturingGroup inside mark none) g s := by
  rw [groupRest, sees_bind, Cursor.peek_zero]
  by_cases hquestion : s.cursor.current = some (.ofChar '?')
  · rw [bind_of_done (eats_of_current hquestion), if_pos rfl, hquestion,
      if_neg (by simp), sees_bind, Cursor.peek_succ, Cursor.peek_zero]
    by_cases hcolon : s.cursor.advance.current = some (.ofChar ':')
    · rw [hcolon, if_pos (beq_self_eq_true _), bind_of_done (eat_of_current hquestion),
        bind_of_done (eat_of_current hcolon), bind_of_done (eats_of_current hcolon), if_pos rfl]
    · rw [bind_of_done (eats_of_ne hcolon), if_neg Bool.false_ne_true,
        if_neg (by rwa [beq_iff_eq]), sees_bind, supports_bind, supports_bind, sees_bind,
        Cursor.peek_succ, Cursor.peek_zero, Bool.and_comm]
      split
      · exact bind_of_done (eat_of_current hquestion)
      · rw [supports_bind]
        split
        · exact bind_of_done (eat_of_current hquestion)
        · next hmodifiers =>
          rw [modifiedGroup, bind_of_done (attempt_of_miss ?_)]
          · rfl
          · rw [supports_bind, require_bind_eq_miss]
            exact .inl (Bool.not_eq_true _ ▸ hmodifiers)
  · rw [bind_of_done (eats_of_ne hquestion), if_neg Bool.false_ne_true,
      if_pos (by simp [hquestion])]

section

variable {base : Nat} {letters : List CodePoint} {c : CodePoint}

theorem distinctLetters_of_miss (h : satisfy isModifierLetter g s = .miss) :
    distinctLetters base letters g s = .done letters s := by
  rw [distinctLetters, bind_of_done (many_none h), firstRepeat, List.append_nil]
  rfl

/-- A letter that has been read before is the fault, at once. -/
theorem distinctLetters_of_repeat (h : satisfy isModifierLetter g s = .done c t)
    (hc : letters.contains c = true) :
    distinctLetters base letters g s = .fault ⟨.duplicatedFlag c, base + letters.length⟩ := by
  rw [distinctLetters, bind_congr (many_eq (progresses_satisfy _ g)), bind_assoc,
    bind_of_done (attempt_of_done h)]
  dsimp only
  rw [bind_map_left, bind_apply]
  cases hmore : many (satisfy isModifierLetter) g t with
  | done more u =>
    dsimp only
    rw [firstRepeat, if_pos (by rwa [List.contains_reverse])]
    rfl
  | miss => exact absurd hmore (neverMisses_many _ _ _)
  | fault e => exact absurd hmore (upTo_ne_fault (fun _ => satisfy_ne_fault) _ _ e)

theorem distinctLetters_of_new (h : satisfy isModifierLetter g s = .done c t)
    (hc : letters.contains c = false) :
    distinctLetters base letters g s = distinctLetters base (letters ++ [c]) g t := by
  rw [distinctLetters, bind_congr (many_eq (progresses_satisfy _ g)), bind_assoc,
    bind_of_done (attempt_of_done h)]
  dsimp only
  rw [bind_map_left]
  simp only [firstRepeat, List.contains_reverse, hc, Bool.false_eq_true, if_false, distinctLetters,
    List.reverse_append, List.reverse_singleton, List.singleton_append, List.length_append,
    List.length_singleton, List.append_assoc]

end

theorem eats_bind {α : Type} (c : CodePoint) (f : Bool → Parser α) :
    (eats c >>= f) = (attempt (eat c) >>= fun o => f o.isSome) := by
  rw [eats, bind_assoc]
  rfl

/-- If there is a bar ahead, another alternative follows. -/
theorem many_followingSequence {cls : Parser CharSet} {inside : Nested}
    (hp : Progresses (term cls inside) g) :
    many (followingSequence cls inside) g s =
      (do if ← eats '|' then
            let q ← (do modifyScope GroupScope.followingAlternative; sequence cls inside)
            let qs ← many (followingSequence cls inside)
            return q :: qs
          else return []) g s := by
  rw [many_of_bind (progresses_followingSequence hp) rfl fun _ =>
    (neverMisses_modifyScope _).bind fun _ => sequence_neverMisses cls inside, eats_bind]
  refine congrArg (fun f => (attempt (eat '|') >>= f) g s) (funext fun o => ?_)
  cases o with
  | none => rfl
  | some _ => simp only [bind_assoc, map_eq_pure_bind, Option.isSome_some, if_true]

/-- Looking for a stray quantifier, with the choices written out. -/
theorem noStrayQuantifier_eq : noStrayQuantifier = (do
    match ← attempt (quantifier true) with
    | some _ => fail .nothingToRepeat
    | none => if ← eats '{' then fail .loneQuantifierBrackets else return ()) := by
  funext g s
  rw [noStrayQuantifier, orElse_apply, orElse_apply, bind_apply, bind_apply, bind_apply, attempt]
  cases quantifier true g s with
  | done r t => rfl
  | fault e => rfl
  | miss =>
    dsimp only
    rw [eats_bind, bind_apply, attempt]
    cases eat '{' g s <;> rfl

/-- A scope may be changed in any way that comes to the same. -/
theorem modifyScope_bind_congr {α : Type} {f f' : GroupScope → GroupScope} {p : Unit → Parser α}
    (h : f s.scope = f' s.scope) : (modifyScope f >>= p) g s = (modifyScope f' >>= p) g s :=
  congrArg (fun scope => p () g { s with scope }) h

end Parser

namespace Routine

variable {k : Situation} {m : Memory} {mark : Cursor} {start : Nat}

/-! ## Quantifiers

Bounds that are not complete are text by the web grammar, and then the routine is back at the brace.
-/

theorem incompleteBounds_returns {α : Type} (lenient : Bool) :
    Returns k m (Parser.incompleteBounds lenient : Parser α) (incompleteBounds lenient) := by
  refine .grammar ?_
  split
  · exact Returns.miss
  · exact .fail _

theorem bracedBounds_returns (lenient : Bool) :
    Returns k m (Parser.bracedBounds lenient) (bracedBounds lenient) := by
  have hincomplete {α : Type} {p : Parser α} {r : Routine α} {n : Memory} (h : Returns k n p r) :
      Strays k n (p <|> Parser.incompleteBounds lenient) (r <|> incompleteBounds lenient) :=
    Returns.strays (h.orElse (incompleteBounds_returns lenient))
  refine .index <| (eat_returns '{').bind_backTo fun _ _ _ =>
    (hincomplete (number_returns 10)).bind fun least _ _ =>
      (eats_completes ',').strays.bind fun comma _ _ => ?_
  split
  · refine (number_returns 10).attempt.strays.bind fun greatest _ _ =>
      (hincomplete (eat_returns '}')).bind fun _ _ _ => ?_
    split
    · exact .fail _
    · exact (Completes.pure _).strays
  · refine (hincomplete (eat_returns '}')).bind fun _ _ _ => ?_
    split
    · exact .fail _
    · exact (Completes.pure _).strays

theorem quantifierBounds_returns (lenient : Bool) :
    Returns k m (Parser.quantifierBounds lenient) (quantifierBounds lenient) := by
  have hmark (c : CodePoint) (bounds : Parser.Bounds) :
      Returns k m (do Parser.eat c; return bounds) (do eat c; return bounds) :=
    (eat_returns c).bind fun _ _ _ => .pure bounds
  exact (hmark _ _).orElse <| (hmark _ _).orElse <| (hmark _ _).orElse <|
    bracedBounds_returns lenient

/-- The routine for a quantifier does what the parser does, and goes back if there is none. -/
theorem quantifier_returns (lenient : Bool) :
    Returns k m (Parser.quantifier lenient) (quantifier lenient) :=
  (quantifierBounds_returns lenient).bind fun _ _ _ => (eats_completes '?').bind fun _ _ _ =>
    .pure _

theorem quantified_completes {e : Term} (hmark : k.Marks mark e.span.start) :
    Completes k m (Parser.quantified mark e) (quantified e) := by
  refine (quantifier_returns false).attempt.bind fun repetition _ _ => ?_
  cases repetition with
  | none => exact .pure e
  | some repetition => exact (spanFrom_completes hmark).bind fun _ _ _ => .pure _

/-! ## Assertions

A lookahead can be quantified by the web grammar. The routine keeps that in its memory, and the
parser asks the node. -/

/-- The routine for the alternatives inside a construct follows the parser. -/
def NestsIn (k : Situation) (inside : Parser.Nested) (inside' : Nested) : Prop :=
  ∀ {m mark start}, k.Marks mark start →
    Refers k Term.referredNamesOfAll (fun _ => False) m (inside mark) (inside' start)

theorem closeGroup_completes : Completes k m Parser.closeGroup closeGroup :=
  (eat_returns ')').orElse_fail _

theorem edgeAssertion_returns : Returns k m Parser.edgeAssertion edgeAssertion := by
  refine .mark fun hmark => Returns.bind (Follows.orElse ?_ ?_) fun edge _ _ =>
    (spanFrom_completes hmark).bind fun _ _ _ => .pure _
  · exact (eat_returns '^').bind fun _ _ _ => .pure _
  · exact (eat_returns '$').bind fun _ _ _ => .pure _

theorem wordBoundary_returns : Returns k m Parser.wordBoundary wordBoundary := by
  refine .mark fun hmark => Returns.bind (Follows.orElse ?_ ?_) fun negated _ _ =>
    (spanFrom_completes hmark).bind fun _ _ _ => .pure _
  · exact (eatAll_returns (by decide)).bind fun _ _ _ => .pure _
  · exact (eatAll_returns (by decide)).bind fun _ _ _ => .pure _

theorem lookOpening_returns : Returns k m Parser.lookOpening lookOpening := by
  have hsign (behind : Bool) {n : Memory} : Strays k n
      (do let negated ←
            (do Parser.eat '='; return false) <|> (do Parser.eat '!'; return true)
          return (if behind then Direction.behind else .ahead, negated))
      (do let negated ← (do eat '='; return false) <|> (do eat '!'; return true)
          return (if behind then Direction.behind else .ahead, negated)) := by
    refine Returns.strays <| Returns.bind (Follows.orElse ?_ ?_) fun _ _ _ => .pure _
    · exact (eat_returns '=').bind fun _ _ _ => .pure _
    · exact (eat_returns '!').bind fun _ _ _ => .pure _
  refine .index <| (eatAll_returns (by decide)).bind_backTo fun _ _ _ =>
    .supports fun behind _ => ?_
  split
  · exact (eats_completes '<').strays.bind fun behind _ _ => hsign behind
  · exact hsign false

/-- What an assertion leaves behind. Whether a quantifier may follow it can be told from it. -/
def Asserts (k : Situation) (m : Memory) (e : Term) (n : Memory) : Prop :=
  m.Leads e.referredNames n ∧
    n.quantifiable = (e.isLookahead && !k.settings.grammar.strict)

section

variable {inside : Parser.Nested} {inside' : Nested}

/-- The routine for a lookaround follows the parser, and says whether a quantifier may come next. -/
theorem lookaround_follows (hinside : NestsIn k.closer inside inside') :
    Follows k (Asserts k m) (· = m) m (Parser.lookaround inside) (lookaround inside') := by
  refine .mark fun hmark => lookOpening_returns.bind_closer (Parser.progresses_lookOpening _)
    fun (direction, negated) n hn => ?_
  refine Follows.bind (hinside hmark.closer) fun qs o hin _ ho => ?_
  refine closeGroup_completes.bind_follows (fun _ u hu => ?_) (hin.moves ho.toMoves)
  refine .grammar_only <| .setQuantifiable <|
    (spanFrom_completes hmark.closer).bind_follows fun span v hv _ => .done ⟨?_, ?_⟩
  · have hlead := (hn.trans_leads ho).trans_ahead hu
    rw [Term.referredNames]
    exact (hlead.trans_same ⟨_, rfl⟩).trans_ahead hv
  · rw [hv.quantifiable]
    cases direction <;> rfl

/-- Whatever was known of the assertion before, a term that refers to no names and is no lookahead
is not quantifiable. -/
theorem Returns.asserts {p : Parser Term} {r : Routine Term} (h : Returns k m p r)
    (hm : m.quantifiable = false)
    (hp : ∀ e (n : Memory), p k.settings.grammar m.state = .done e n.state →
      e.referredNames = [] ∧ e.isLookahead = false) : Follows k (Asserts k m) (· = m) m p r := by
  refine (Follows.and_done h fun e n _ => hp e n).mono (fun e n _ ⟨hn, hnames, hahead⟩ => ?_)
    fun _ _ => id
  refine ⟨?_, ?_⟩
  · rw [hnames]
    exact hn.leads
  · rw [hn.quantifiable, hm, hahead, Bool.false_and]

/-- The routine for an assertion follows the parser. If it misses, nothing has changed but what is
known of the last assertion. -/
theorem assertion_follows (hinside : NestsIn k.closer inside inside') :
    Follows k (Asserts k m) m.Same m (Parser.assertion inside) (assertion inside') := by
  refine .setQuantifiable <| Follows.mono (M := (· = { m with quantifiable := false })) ?_
    (fun e n _ (h : Asserts k { m with quantifiable := false } e n) => ?_)
    fun n _ hn => ⟨false, hn⟩
  · refine Follows.orElse (edgeAssertion_returns.asserts rfl fun e n h => ?_) <|
      Follows.orElse (wordBoundary_returns.asserts rfl fun e n h => ?_) (lookaround_follows hinside)
    · obtain ⟨span, edge, rfl⟩ := Parser.edgeAssertion_eq_done h
      exact ⟨rfl, rfl⟩
    · obtain ⟨span, negated, rfl⟩ := Parser.wordBoundary_eq_done h
      exact ⟨rfl, rfl⟩
  · exact ⟨Memory.Same.leads_of_leads ⟨false, rfl⟩ h.1, h.2⟩

end

/-! ## Modifiers

The letters of modifiers are collected one by one, and each is compared with those before. -/

/-- The loop over letters does what the parser does that checks them one by one. -/
theorem modifierLettersFor_completes {fuel base : Nat} {letters : List CodePoint}
    (hfuel : m.window.cursor.remaining < fuel) (hbase : base + letters.length = m.window.index) :
    Completes k m (Parser.distinctLetters base letters) (modifierLettersFor fuel letters) := by
  induction fuel generalizing m letters with
  | zero => omega
  | succ fuel ih =>
    refine .peek (by decide) fun hm => ?_
    rw [Cursor.peek_zero]
    have hsatisfy := Parser.satisfy_apply Parser.isModifierLetter k.settings.grammar m.state
    rw [Memory.state_cursor] at hsatisfy
    generalize hcurrent : m.window.cursor.current.filter Parser.isModifierLetter = current
      at hsatisfy ⊢
    cases current with
    | none =>
      rw [Parser.distinctLetters_of_miss hsatisfy]
      exact .done (.refl hm.within.filled)
    | some c =>
      rw [← hm.state_advance] at hsatisfy
      dsimp only at hsatisfy ⊢
      -- the letters before are kept by the loop, and they stand right before the place
      cases hc : letters.contains c with
      | true =>
        rw [Parser.distinctLetters_of_repeat hsatisfy hc, hbase, if_pos rfl]
        exact .fault _
      | false =>
        rw [Parser.distinctLetters_of_new hsatisfy hc, if_neg Bool.false_ne_true]
        have hahead := hm.ahead_advance
        have hread := (Parser.satisfy_eq_done.mp hsatisfy).2
        have hletter : ∀ d ∈ [c], Parser.isModifierLetter d = true :=
          List.forall_mem_singleton.mpr (Parser.satisfy_eq_done.mp hsatisfy).1
        -- a letter is one unit long, so the count of letters tells the offset
        have hindex : m.window.advance.index = m.window.index + (Text.ofCodePoints [c]).length :=
          hread.cursor.index
        have hless : m.window.advance.cursor.remaining < m.window.cursor.remaining :=
          hread.remaining_lt
        rw [Parser.length_ofCodePoints_letters hletter] at hindex
        have hlength : base + (letters ++ [c]).length = m.window.advance.index := by
          rw [List.length_append, hindex, ← hbase, Nat.add_assoc]
        have hrest := ih (m := { m with window := m.window.advance }) (by simp only; omega) hlength
        exact (hrest (hm.ahead hahead)).mono (fun _ _ => hahead.trans) fun _ => id

/-- A run of letters is read one by one. -/
theorem modifierFlags_completes : Completes k m Parser.modifierFlags modifierFlags := by
  rw [Parser.modifierFlags_eq]
  refine .mark fun hmark => Completes.bind (fun hm => ?_) fun letters _ _ =>
    (spanFrom_completes hmark).bind fun _ _ _ => .pure _
  exact modifierLettersFor_completes hm.remaining_lt_fuel rfl hm

theorem removedFlags_completes (add : ModifierFlags) :
    Completes k m (Parser.removedFlags add) (removedFlags add) := by
  refine modifierFlags_completes.bind fun remove _ _ => Follows.sees (by decide) fun colon => ?_
  split
  · exact .fail _
  · cases Parser.clash? add remove with
    | some letter => exact .fail _
    | none => exact Completes.pure remove

/-- Modifiers that turn out to be none have moved the window all the same. -/
theorem modifiers_strays : Strays k m Parser.modifiers modifiers := by
  refine .mark fun hmark => modifierFlags_completes.strays.bind fun add n hn =>
    (eats_completes '-').strays.bind fun hyphen o ho => ?_
  have hrest (remove : Option ModifierFlags) {n : Memory} : Strays k n
      (do return ⟨← Parser.spanFrom m.window.cursor, add, remove⟩ : Parser Modifiers)
      (do return ⟨← spanFrom m.window.index, add, remove⟩) :=
    ((spanFrom_completes hmark).bind fun _ _ _ => .pure _).strays
  split
  · exact Returns.miss.strays
  · split
    · exact ((removedFlags_completes add).map some).strays.bind fun remove _ _ => hrest remove
    · exact hrest none

/-! ## Groups

The kinds of groups are told by what follows the parenthesis. Each of them ends with the same steps.
-/

section

variable {inside : Parser.Nested} {inside' : Nested} (hinside : NestsIn k inside inside')
  (hmark : k.Marks mark start)

include hinside hmark

theorem plainGroup_refers (modifiers : Option Modifiers) :
    Refers k Term.referredNames (fun _ => False) m (Parser.plainGroup inside mark modifiers)
      (plainGroup inside' start modifiers) := by
  refine (hinside hmark).bind fun qs n _ => closeGroup_completes.bind_follows fun _ o ho =>
    (spanFrom_completes hmark).bind_follows fun span u hu _ => .done ⟨ho.trans hu, ?_⟩
  rw [Term.referredNames]

theorem capturingGroup_refers (name : Option GroupName) :
    Refers k Term.referredNames (fun _ => False) m (Parser.capturingGroup inside mark name)
      (capturingGroup inside' start name) := by
  refine .openCapture <| Follows.mono (D := fun e => (m.openCapture name).Leads e.referredNames) ?_
    (fun _ _ _ => Memory.Leads.of_openCapture) fun _ _ => id
  refine Refers.bind (hinside hmark) fun qs n _ => closeGroup_completes.bind_follows fun _ o ho =>
    (spanFrom_completes hmark).bind_follows fun span u hu _ => .done ⟨ho.trans hu, ?_⟩
  rw [Term.referredNames]

theorem namedGroup_refers (hangle : m.window.cursor.current = some (.ofChar '<')) :
    Refers k Term.referredNames (fun _ => False) m (Parser.namedGroup inside mark)
      (namedGroup inside' start) := by
  have hname : Completes k m Parser.groupName groupName :=
    groupName_returns.completes (Parser.groupName_ne_miss hangle)
  refine hname.bind_refers fun name n _ => .conflicts fun conflict => ?_
  split
  · exact .fail _
  · exact capturingGroup_refers hinside hmark (some name)

theorem modifiedGroup_refers (h : k.settings.grammar.edition.supports .modifiers = true) :
    Refers k Term.referredNames (fun _ => False) m (Parser.modifiedGroup inside mark)
      (modifiedGroup inside' start) := by
  have hopening : Strays k m
      (do Parser.require (← Parser.supports .modifiers)
          let modifiers ← Parser.modifiers
          Parser.eat ':'
          return modifiers)
      (do let modifiers ← modifiers
          eat ':'
          return modifiers) := by
    have hsupports : Parser.supports .modifiers k.settings.grammar m.state = .done true m.state :=
      congrArg (Outcome.done · _) h
    refine Follows.congr (Parser.bind_of_done hsupports) <|
      Follows.congr (Parser.bind_of_done rfl) ?_
    exact modifiers_strays.bind fun modifiers _ _ =>
      ((eat_returns ':').bind fun _ _ _ => .pure modifiers).strays
  refine hopening.attempt_bind (fun modifiers n hn => ?_) rfl ?_
  · exact (plainGroup_refers hinside hmark (some modifiers)).after hn
  · rw [hmark.eq_cursorAt]
    rfl

end

/-- The routine for a group follows the parser and awaits the names that are referred to in it. -/
theorem group_refers {inside : Parser.Nested} {inside' : Nested}
    (hinside : NestsIn k.closer inside inside') :
    Refers k Term.referredNames (· = m) m (Parser.group inside) (group inside') := by
  refine .mark fun hmark => (eat_returns '(').bind_closer (Parser.progresses_eat _ _)
    fun _ n hn => Refers.after hn ?_
  have hmark := hmark.closer
  -- the routine decides by what it sees, in the same order as the parser tries
  refine .congr (Parser.groupRest_apply inside _).symm <| .of_in fun hn =>
    .sees_iff (by decide) (fun hquestion => ?_) (capturingGroup_refers hinside hmark none)
  rw [Cursor.peek_zero] at hquestion
  have hcurrent := hn.current_advance
  have hahead := hn.ahead_advance
  refine .sees_iff (by decide) (fun hcolon => ?_) ?_
  · refine .eat_advance hquestion (.eat_advance (hcurrent.trans hcolon) ?_)
    exact (plainGroup_refers hinside hmark none).after <|
      hahead.trans (hn.ahead hahead).ahead_advance
  -- where there are no named groups, an angle bracket is at fault like any other letter
  · have hmodified : Refers k.closer Term.referredNames (fun _ => False) n
        (do if ← Parser.supports .modifiers then
              Parser.eat '?'
              Parser.modifiedGroup inside m.window.cursor
            else Parser.failAt .invalidGroup (m.window.index + 1))
        (do if ← supports .modifiers then
              advance
              modifiedGroup inside' m.window.index
            else failAt .invalidGroup (m.window.index + 1)) := by
      refine .supports fun modified hmodified => ?_
      cases modified with
      | false => exact .failAt _ _
      | true =>
        exact .eat_advance hquestion <| Refers.after hahead <|
          modifiedGroup_refers hinside hmark hmodified
    refine .sees_iff (by decide) (fun hangle => .supports fun named _ => ?_)
      (.supports fun _ _ => hmodified)
    cases named with
    | false => exact hmodified
    | true =>
      refine .eat_advance hquestion <| Refers.after hahead ?_
      exact namedGroup_refers hinside hmark (hcurrent.trans hangle)

/-! ## Atoms

What can be read if no assertion can, with and without the extensions. -/

/-- The routine looks for the first digit itself. -/
theorem decimalEscape_returns :
    Returns k m (do Parser.require !(← Parser.sees 0 '0'); Parser.number 10) decimalEscape := by
  refine .peek (by decide) <| Returns.guard (fun hdigit => ?_) fun hdigit => ?_ <;>
    rw [Cursor.peek_zero] at hdigit
  · rw [Parser.sees_bind, Parser.require_bind_eq_miss, Parser.number_eq_miss, Cursor.peek_zero,
      Memory.state_cursor]
    cases hcurrent : m.window.cursor.current with
    | none => exact .inr rfl
    | some c =>
      rw [hcurrent, Option.any_some] at hdigit
      by_cases hzero : c = .ofChar '0'
      · exact .inl (by simp [hzero])
      · refine .inr (Option.isSome_eq_false_iff.mp ?_ |> Option.isNone_iff_eq_none.mp)
        have hval : c.val ≠ 0x30 := fun h => hzero (Fin.ext h)
        show c.isDecimalDigit = false
        rw [CodePoint.isDecimalDigit_eq]
        simp only [Bool.and_eq_false_iff, decide_eq_false_iff_not] at hdigit ⊢
        omega
  · refine .congr ?_ (number_returns 10)
    rw [Parser.sees_bind, Cursor.peek_zero, Memory.state_cursor]
    have hzero : (m.window.cursor.current == some (.ofChar '0')) = false := by
      rw [beq_eq_false_iff_ne]
      intro h
      rw [h] at hdigit
      exact absurd hdigit (by decide)
    rw [hzero]
    rfl

theorem numberedReference_refers (hmark : k.Marks mark start) :
    Refers k Term.referredNames (· = m) m (Parser.numberedReference mark)
      (numberedReference start) := by
  have hnumber : Parser.numberedReference mark = (do
      let n ← (do Parser.require !(← Parser.sees 0 '0'); Parser.number 10)
      let g ← Parser.grammar
      if n ≤ g.captures then return .reference (← Parser.spanFrom mark) (.number n)
      else if g.exact then Parser.fail .invalidEscape
      else Parser.miss) := by
    simp only [bind_assoc]
    rfl
  rw [hnumber]
  refine .index <| Follows.bind decimalEscape_returns fun n o hm _ ho =>
    Follows.backTo (.grammar ?_) (hm.ahead ho)
  split
  · exact (spanFrom_completes hmark).bind_follows fun span u hu _ => .done (ho.trans hu).leads
  · split
    · exact .fail _
    · exact fun _ => .miss ho.keeps

theorem namedReference_refers (hmark : k.Marks mark start) :
    Refers k Term.referredNames (· = m) m (Parser.namedReference mark) (namedReference start) := by
  refine .grammar <| .require (fun _ => rfl) fun _ => (eat_returns 'k').bind_refers fun _ _ _ =>
    (groupName_returns.orElse_fail _).bind_refers fun name _ _ =>
      (spanFrom_completes hmark).bind_refers fun span n _ hm => ?_
  refine .of_state rfl ?_
  exact ⟨⟨hm.within.filled.rewind_index, hm.within.filled, .refl _, rfl, rfl⟩, rfl⟩

/-- The routine for what follows a backslash follows the parser and awaits a name. -/
theorem atomEscape_refers (hmark : k.Marks mark start) :
    Refers k Term.referredNames (· = m) m (Parser.atomEscape mark) (atomEscape start) := by
  refine .orElse (numberedReference_refers hmark) <| .orElse ?_ <| .orElse ?_ <|
    .orElse (namedReference_refers hmark) <| .grammar <| .require (fun _ => rfl) fun _ => .fail _
  · exact (setEscape_returns hmark).map_refers fun _ => rfl
  · exact (characterEscape_returns hmark).map_refers fun _ => rfl

theorem escapedAtom_refers :
    Refers k Term.referredNames (· = m) m Parser.escapedAtom escapedAtom := by
  refine .mark fun hmark => Follows.bind (eat_returns '\\') fun _ n hm _ hn => ?_
  refine Follows.backTo ?_ (hm.ahead hn)
  refine Follows.mono (atomEscape_refers hmark) (fun _ _ _ => hn.trans_leads) fun o _ ho => ?_
  rw [ho]
  exact hn.keeps

theorem anyCharacter_refers :
    Refers k Term.referredNames (· = m) m Parser.anyCharacter anyCharacter :=
  .mark fun hmark => (eat_returns '.').bind_refers fun _ _ _ =>
    (spanFrom_completes hmark).bind_refers fun _ _ _ => .pure rfl

theorem plainCharacter_refers (test : CodePoint → Bool) :
    Refers k Term.referredNames (· = m) m (Parser.plainCharacter test) (plainCharacter test) :=
  .mark fun hmark => (satisfy_returns test).bind_refers fun _ _ _ =>
    (characterSetFrom_completes hmark _).map_refers fun _ => rfl

theorem lonelyBackslash_refers :
    Refers k Term.referredNames (· = m) m Parser.lonelyBackslash lonelyBackslash := by
  refine .of_in fun hm => .marked fun hmark => .sees_only (by decide) <|
    .guard (fun _ => rfl) (fun hslash => ?_) fun hslash => ?_ <;> rw [Cursor.peek_zero] at hslash
  · rw [Parser.lonelyBackslash, Parser.here_bind]
    exact Parser.bind_of_miss (Parser.eat_eq_miss.mpr (ne_of_beq_false hslash))
  have hslash := eq_of_beq hslash
  have hread (f : Unit → Parser Term) : (Parser.eat '\\' >>= f) k.settings.grammar m.state =
      f () k.settings.grammar (Memory.state { m with window := m.window.advance }) :=
    Parser.bind_of_done (hm.eat_of_current hslash _)
  have hparser : Parser.lonelyBackslash k.settings.grammar m.state =
      (do Parser.eat '\\'
          Parser.require (m.window.cursor.peek 1 == some (CodePoint.ofChar 'c'))
          Term.set <$> Parser.characterSetFrom m.window.cursor '\\')
        k.settings.grammar m.state := by
    rw [Parser.lonelyBackslash, Parser.here_bind, hread, hread, Parser.sees_bind, Cursor.peek_zero,
      Memory.state_cursor, hm.current_advance]
    rfl
  refine .sees_only (by decide) <| .congr hparser <|
    .guard (fun _ => rfl) (fun hc => ?_) fun hc => .index <| .eat_advance hslash ?_
  · rw [hread, hc]
    rfl
  · rw [hc]
    exact Refers.after hm.ahead_advance
      ((characterSetFrom_completes hmark _).map_refers fun _ => rfl)

theorem strayBounds_follows {D : Term → Memory → Prop} :
    Follows k D (· = m) m Parser.strayBounds strayBounds :=
  Follows.bind (bracedBounds_returns true) fun _ _ _ _ _ => .fault _

section

variable {inside : Parser.Nested} {inside' : Nested} (hinside : NestsIn k.closer inside inside')
  {cls : Parser CharSet} {cls' : Routine CharSet} (hcls : ∀ m, Returns k m cls cls')

include hinside hcls

/-- The routine for an atom follows the parser. -/
theorem atom_refers :
    Refers k Term.referredNames (· = m) m (Parser.atom cls inside) (atom cls' inside') :=
  anyCharacter_refers.orElse <| escapedAtom_refers.orElse <|
    ((hcls m).map_refers fun _ => rfl).orElse <| (group_refers hinside).orElse <|
      plainCharacter_refers _

theorem webAtom_refers :
    Refers k Term.referredNames (· = m) m (Parser.webAtom cls inside) (webAtom cls' inside') :=
  anyCharacter_refers.orElse <| escapedAtom_refers.orElse <| lonelyBackslash_refers.orElse <|
    ((hcls m).map_refers fun _ => rfl).orElse <| (group_refers hinside).orElse <|
      strayBounds_follows.orElse <| plainCharacter_refers _

end

/-! ## Terms

The names that are awaited behind a term are those before it and those that it refers to. -/

/-- A repetition refers to what the term refers to. -/
theorem quantified_follows {n : Memory} {M : Memory → Prop} {e : Term}
    (hmark : k.Marks mark e.span.start) (hn : m.Leads e.referredNames n) :
    Follows k (fun e' => m.Leads e'.referredNames) M n (Parser.quantified mark e)
      (quantified e) := by
  have hnames := Follows.and_done (quantified_completes hmark (m := n)) fun e' o _ h =>
    Parser.quantified_referredNames h
  refine hnames.mono (fun e' o _ ⟨ho, hnames⟩ => ?_) fun _ _ => False.elim
  rw [hnames]
  exact hn.trans_ahead ho

/-- Wherever a term has been read, it began where the reading began. -/
theorem Derives.marks {e : Term} {t : State} (hm : m.In k)
    (h : Derives k.settings.grammar m.state (.term e) t) :
    k.Marks m.window.cursor e.span.start := by
  rw [h.term_span]
  exact hm.marks

theorem Refers.quantified {p : Parser Term} {r : Routine Term}
    (h : Refers k Term.referredNames (· = m) m p r)
    (hp : ∀ e t, p k.settings.grammar m.state = .done e t →
      Derives k.settings.grammar m.state (.term e) t) :
    Refers k Term.referredNames (· = m) m (p >>= Parser.quantified m.window.cursor)
      (r >>= quantified) :=
  Follows.bind h fun e _ hm hdone hn =>
    quantified_follows (Derives.marks hm (hp e _ hdone)) hn (hm.moves hn.toMoves)

/-- What is read behind an assertion that is none begins where the assertion would have begun. -/
theorem Refers.of_same {p : Parser Term} {r : Routine Term} {n : Memory} (hn : m.Same n)
    (h : Refers k Term.referredNames (· = n) n p r) :
    Follows k (fun e => m.Leads e.referredNames) m.Same n p r :=
  Follows.mono h (fun _ _ _ => hn.leads_of_leads) fun o _ ho => by rwa [ho]

section

variable {depth : Nat} {cls : Routine CharSet} {inside : Nested}
  (hcls : ∀ m, Returns k m (Parser.charClass depth false) cls)
  (hinside : NestsIn k.closer (nestedAt depth) inside)

include hcls hinside

/-- The routine for a term follows the parser, quantifier included. -/
theorem term_refers :
    Refers k Term.referredNames m.Same m
      (Parser.term (Parser.charClass depth false) (nestedAt depth)) (term cls inside) := by
  have hassertion := (assertion_follows hinside (m := m)).attempt fun n hn => hn.state
  have hderives {e : Term} {t : State} (h : Parser.assertion (nestedAt depth)
      k.settings.grammar m.state = .done e t) : Derives k.settings.grammar m.state (.term e) t :=
    Parser.assertion_derives (fun _ _ _ _ => Parser.nestedAt_derives) h
  refine .here <| .grammar ?_
  cases hexact : k.settings.grammar.exact with
  | true =>
    refine Follows.bind (.of_never hassertion) fun o n hm hdone hn => ?_
    cases o with
    | some e => exact .done hn.1
    | none =>
      obtain ⟨quantifiable, rfl⟩ := hn
      refine Refers.of_same ⟨quantifiable, rfl⟩ (Refers.quantified ?_ fun e t h => ?_)
        (hm.same ⟨quantifiable, rfl⟩)
      · exact atom_refers hinside hcls
      · exact Parser.atom_derives (fun _ _ _ _ => Parser.nestedAt_derives)
          (fun _ _ _ => Parser.charClass_derives) hexact h
  | false =>
    have hstrict : k.settings.grammar.strict = false := (Bool.or_eq_false_iff.mp hexact).1
    refine Follows.bind (.of_never hassertion) fun o n hm hdone hn => ?_
    cases o with
    | some e =>
      -- the flag in the memory says of the assertion just what the node says
      have hquantifiable : n.quantifiable = e.isLookahead := by
        rw [hn.2, hstrict, Bool.not_false, Bool.and_true]
      show Matches _ _
        ((if e.isLookahead then Parser.quantified m.window.cursor e else pure e) _ _)
        ((if n.quantifiable then quantified e else pure e) _ _)
      rw [hquantifiable]
      split
      · have he := hderives (Parser.attempt_eq_some.mp hdone)
        exact quantified_follows (Derives.marks hm he) hn.1 (hm.moves hn.1.toMoves)
      · exact .done hn.1
    | none =>
      obtain ⟨quantifiable, rfl⟩ := hn
      refine Refers.of_same ⟨quantifiable, rfl⟩ (Refers.quantified ?_ fun e t h => ?_)
        (hm.same ⟨quantifiable, rfl⟩)
      · exact webAtom_refers hinside hcls
      · exact Parser.webAtom_derives (fun _ _ _ _ => Parser.nestedAt_derives)
          (fun _ _ _ => Parser.charClass_derives) hexact h

/-! ## Alternatives

The loop over alternatives enters each of them in the scope, where the parser moves the scope on at
each bar. -/

/-- One alternative, from the scope on that its position selects. -/
theorem sequence_follows (alternative : Nat) :
    Follows k (fun q => Memory.Leads { m with scope := m.scope.enterAlternative alternative }
        (Term.referredNamesOfSequence q)) (fun _ => False) m
      (do Parser.modifyScope (·.enterAlternative alternative)
          Parser.sequence (Parser.charClass depth false) (nestedAt depth))
      (sequence cls inside alternative) := by
  have hterms (n : Memory) : Refers k (fun es => es.flatMap Term.referredNames) (fun _ => False) n
      (Parser.many (Parser.term (Parser.charClass depth false) (nestedAt depth)))
      (collect (unlessAtEnd (term cls inside))) := by
    refine Refers.collect (fun o => ?_) (Parser.progresses_term k.settings.grammar)
    refine (term_refers hcls hinside).unlessAtEnd (fun _ => .refl o) fun hend => ?_
    refine Parser.term_eq_miss (fun _ _ => Parser.charClass_eq_miss) (fun c hc => ?_) fun _ hc => ?_
    · cases hend.symm.trans hc
    · cases hend.symm.trans hc
  refine .marked fun hmark => .index <| .modifyScope <| .here ?_
  refine (hterms _).bind fun es n _ => (spanFrom_completes hmark).bind_follows
    fun span o ho _ => .done ⟨ho, ?_⟩
  rw [Term.referredNamesOfSequence, Term.referredNamesOfTerms_eq_flatMap]

/-- The alternatives after the first. The routine counts them; the parser finds the count in the
path. -/
theorem followingFor_follows {place : ForkPath} {serial a fuel : Nat}
    (hfuel : m.window.cursor.remaining < fuel) (hpath : m.scope.path = place ++ [⟨serial, a⟩]) :
    Follows k (fun qs n => m.Moves (Term.referredNamesOfAll qs) n ∧
        ∃ b, n.scope.path = place ++ [⟨serial, b⟩]) (fun _ => False) m
      (Parser.many (Parser.followingSequence (Parser.charClass depth false) (nestedAt depth)))
      (followingFor cls inside fuel (a + 1)) := by
  induction fuel generalizing m a with
  | zero => omega
  | succ fuel ih =>
    refine .congr (Parser.many_followingSequence (Parser.progresses_term k.settings.grammar)) ?_
    refine Follows.bind (.of_never (eats_completes '|')) fun bar n hm hdone hn => ?_
    have hpath : n.scope.path = place ++ [⟨serial, a⟩] := by rw [hn.scope, hpath]
    rcases Parser.eats_eq_done.mp hdone with ⟨rfl, hbar⟩ | ⟨rfl, -, -⟩
    · have hless : n.window.cursor.remaining < m.window.cursor.remaining := hbar.remaining_lt
      -- the loop counts alternatives where the scope counts on, and the path shows that it is the
      -- same
      have hscope (p : Parser Sequence) :
          (Parser.modifyScope GroupScope.followingAlternative >>= fun _ => p)
            k.settings.grammar n.state =
          (Parser.modifyScope (·.enterAlternative (a + 1)) >>= fun _ => p)
            k.settings.grammar n.state :=
        Parser.modifyScope_bind_congr (GroupScope.followingAlternative_eq_enterAlternative hpath)
      rw [if_pos rfl, if_pos rfl, Parser.bind_congr (hscope _)]
      refine Follows.bind (sequence_follows hcls hinside (a + 1)) (fun q o hn' _ ho => ?_)
        (hm.ahead hn)
      have hnext := hn.toMoves.trans ho.toMoves.of_scope
      have hpath := ho.path.trans (GroupScope.path_enterAlternative hpath)
      refine Follows.bind (ih (m := o) (a := a + 1) ?_ hpath) (fun qs u _ _ hu => ?_)
        (hm.moves hnext)
      · have hle := ho.toMoves.of_scope.remaining_le
        omega
      · exact .done ⟨hnext.trans hu.1, hu.2⟩
    · exact .done ⟨hn.toMoves, a, hpath⟩

omit hcls hinside in
theorem noStrayQuantifier_completes :
    Completes k m Parser.noStrayQuantifier noStrayQuantifier := by
  rw [Parser.noStrayQuantifier_eq]
  refine (quantifier_returns true).attempt.bind fun repetition _ _ => ?_
  cases repetition with
  | some _ => exact .fail _
  | none =>
    refine (eats_completes '{').bind fun brace _ _ => ?_
    split
    · exact .fail _
    · exact .pure ()

/-- The routine for alternatives follows the parser. It numbers them as it goes, which is what
moving to the next one does. -/
theorem alternatives_refers :
    Refers k Term.referredNamesOfAll (fun _ => False) m
      (Parser.alternatives (Parser.charClass depth false) (nestedAt depth))
      (alternatives cls inside) := by
  have hfirst (scope : GroupScope) (p : Parser Sequence) (s : State) :
      p k.settings.grammar { s with scope := scope.enterDisjunction } =
        (Parser.modifyScope (·.enterAlternative 0) >>= fun _ => p) k.settings.grammar
          { s with scope := scope.enterDisjunction } :=
    congrArg (fun scope => p k.settings.grammar { s with scope })
      GroupScope.enterAlternative_enterDisjunction.symm
  refine .modifyScope <| .congr (Parser.bind_congr (hfirst m.scope _ m.state)) <|
    Follows.bind (sequence_follows hcls hinside 0) fun first n hm _ hn => ?_
  have hmoves : m.Moves (Term.referredNamesOfSequence first) n := hn.toMoves.of_scope.of_scope
  have hpath : n.scope.path = m.scope.path ++ [⟨m.scope.entered + 1, 0⟩] :=
    hn.path.trans (GroupScope.path_enterAlternative rfl)
  have hin : n.In k := hm.moves hn.toMoves.of_scope
  refine Follows.settings (Follows.bind
    (followingFor_follows hcls hinside hin.remaining_lt_fuel hpath) fun rest o _ _ ho => ?_) hin
  obtain ⟨hrest, b, hplace⟩ := ho
  refine noStrayQuantifier_completes.bind_follows (fun _ u hu => .modifyScope fun _ => .done ?_)
    (hin.moves hrest)
  have hall := ((hmoves.trans hrest).trans hu.toMoves).to_scope u.scope.leaveDisjunction
  rw [List.append_nil] at hall
  refine ⟨hall, ?_⟩
  show u.scope.path.dropLast = m.scope.path
  rw [hu.scope, hplace, List.dropLast_concat]

end

/-- The alternatives one level further down. -/
theorem nested_nestsIn {fuel depth : Nat}
    (h : ∀ {k : Situation} {m : Memory} {depth : Nat}, k.room ≤ fuel →
      k.depth + depth = k.settings.maxDepth →
      Refers k Term.referredNamesOfAll (fun _ => False) m (Parser.disjunction depth)
        (disjunction fuel))
    (hfuel : k.room ≤ fuel) (hdepth : k.depth + depth = k.settings.maxDepth) :
    NestsIn k (nestedAt depth) (nested (disjunction fuel)) := by
  intro m mark start hmark hm
  rw [nested, enterNesting_bind _ _ hm]
  cases depth with
  | zero =>
    rw [if_pos (by omega), hmark.eq_cursorAt]
    exact .fault _
  | succ depth =>
    rw [if_neg (by omega)]
    have hdepth : k.deeper.depth + depth = k.settings.maxDepth :=
      (Nat.succ_add_eq_add_succ _ _).trans hdepth
    have hleave : Follows k.deeper (fun qs => m.Leads (Term.referredNamesOfAll qs))
        (fun _ => False) m.enter (Parser.disjunction depth >>= pure)
        (disjunction fuel >>= fun qs => do leaveNesting; return qs) :=
      Follows.bind (h hfuel hdepth) fun qs n _ _ hn => .of_state rfl hn.leave
    rw [bind_pure] at hleave
    exact hleave hm.enter

/-- The routine for a disjunction follows the parser; by induction on the fuel, which the levels
that are left bound. -/
theorem disjunction_refers {fuel depth : Nat} (hfuel : k.room ≤ fuel)
    (hdepth : k.depth + depth = k.settings.maxDepth) :
    Refers k Term.referredNamesOfAll (fun _ => False) m (Parser.disjunction depth)
      (disjunction fuel) := by
  induction fuel generalizing k m depth with
  | zero =>
    intro hm
    have hroom := hm.room
    omega
  | succ fuel ih =>
    refine .congr (disjunction_eq_nestedAt depth _ _) <|
      alternatives_refers (fun _ => charClass_returns hfuel hdepth false) ?_
    exact nested_nestsIn (k := k.closer) ih (Nat.sub_le_iff_le_add.mpr hfuel) hdepth

end Routine

end EcmaPattern
