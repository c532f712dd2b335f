import EcmaPattern.Proofs.SetGrammar.Operands

/-!
# Classes of the set grammar are read exactly

A class is read exactly if the grammar derives it, with the tree of the derivation, and if it is not
nested more deeply than the limit allows (`charClass_recognizes`). The contents of a class are tried
in turn as set operations and as a union; that the first operand decides nothing too early follows
from what may come after it. An item of a union never begins with a hyphen or with two ampersands,
and the second hyphen of a subtraction is no character, so no range begins there.
-/

namespace EcmaPattern.Parser

open SetGrammar

variable {g : Grammar} {s t u : State}

theorem eatAll_eq_miss_of_ne {c : Char} {cs : List Char}
    (h : s.cursor.current ≠ some (.ofChar c)) : eatAll (c :: cs) g s = .miss := by
  rw [eatAll_eq_miss, List.map_cons, Cursor.eat?, if_neg h]

section Sets

variable (hu : g.unicode = true) (hg : g.sets = true)
  (hp : g.edition.supports .propertyEscapes = true)

include hu

/-! ## Ranges

A hyphen behind a character begins a range, unless another hyphen follows, which is no character. So
the rest of a range is missed before a subtraction. -/

/-- The rest of a range is read just where one is written whose ends are in order. -/
theorem classSetRange_eq_done_iff {c : Character} {mark : Cursor} {x : CharSet} :
    classSetRange c mark g s = .done x t ↔
      ∃ b last, s.cursor.Reads ['-'] b ∧ SetCharacter b last t.cursor ∧ s.Moves t ∧
        c.value ≤ last.value ∧ x = .range (.between mark t.cursor) c last := by
  constructor
  · intro h
    obtain ⟨last, u, hdash, hlast, hle, rfl⟩ := classSetRange_eq_done h
    obtain ⟨hlast, hmoves⟩ := (classSetCharacter_recognizes hu _ _ _).mp hlast
    exact ⟨u.cursor, last, hdash.cursor, hlast, hdash.moves.trans hmoves, hle, rfl⟩
  · rintro ⟨b, last, hdash, hlast, hmoves, hle, rfl⟩
    rw [classSetRange, eat_bind_eq_done]
    refine ⟨{ s with cursor := b }, ⟨b, hdash, rfl⟩, ?_⟩
    refine bind_eq_done.mpr
      ⟨last, t, (classSetCharacter_recognizes hu _ _ _).mpr ⟨hlast, hmoves⟩, ?_⟩
    rw [if_neg (Fin.not_lt.mpr hle)]
    rfl

omit hu in
/-- A hyphen that no character follows begins no range. -/
theorem classSetRange_eq_miss {c : Character} {mark : Cursor}
    (h : ∀ d, s.cursor.Reads ['-'] d → d.current = some (.ofChar '-')) :
    classSetRange c mark g s = .miss := by
  rw [classSetRange, eat_bind_eq_miss]
  by_cases hc : s.cursor.current = some (.ofChar '-')
  · have hr : s.Reads ['-'] { s with cursor := s.cursor.advance } :=
      State.reads_singleton.mpr ⟨hc, rfl⟩
    refine .inr ⟨_, hr, bind_of_miss ?_⟩
    exact classSetCharacter_eq_miss (h _ hr.cursor) (by decide) (by decide)
  · exact .inl hc

/-- An operand is a character, or no character can be read where it stands. -/
theorem character_or_miss {x : CharSet} {d : Cursor}
    (h : SetGrammar.Derives g.edition s.cursor (.operand x) d) :
    (∃ c, x = .character c ∧ SetCharacter s.cursor c d) ∨ classSetCharacter g s = .miss := by
  cases h with
  | nested h => exact .inr (classSetCharacter_eq_miss h.charClass_current (by decide) (by decide))
  | setEscape h => exact .inr (classSetCharacter_eq_miss_of_set hu h.begins)
  | strings h => exact .inr (classSetCharacter_eq_miss_of_set hu h.begins)
  | character h => exact .inl ⟨_, rfl, h⟩

variable {inner : Parser CharSet} {depth : Nat}
  (hinner : Recognizes inner g fun c x d =>
    SetGrammar.Derives g.edition c (.charClass x) d ∧ x.nesting ≤ depth)
  (hmiss : ∀ s : State, s.cursor.current ≠ some (.ofChar '[') → inner g s = .miss)

omit hu

include hmiss in
/-- No operand begins with a sign of the set grammar other than a bracket or a backslash. -/
theorem classSetOperand_eq_miss {k : CodePoint} (hc : s.cursor.current = some k)
    (hk : k.isClassSetSyntax = true) (hne : k.isOneOf ['[', '\\'] = false) :
    classSetOperand inner g s = .miss := by
  have hne : ∀ {l : CodePoint}, l.isOneOf ['[', '\\'] = true → s.cursor.current ≠ some l := by
    intro l hl
    rw [hc]
    rintro ⟨⟩
    rw [hl] at hne
    cases hne
  have hset : escapedSet g s = .miss := by
    rw [escapedSet, here_bind]
    exact bind_of_miss (eat_eq_miss.mpr (hne (by decide)))
  have hstrings : classStrings g s = .miss := by
    rw [classStrings, here_bind]
    exact bind_of_miss (eatAll_eq_miss_of_ne (hne (by decide)))
  rw [classSetOperand, orElse_of_miss (hmiss s (hne (by decide))), orElse_of_miss hset,
    orElse_of_miss hstrings, map_eq_miss]
  exact classSetCharacter_eq_miss hc hk fun h => hne (by decide) (h ▸ hc)

include hmiss in
theorem unionItem_eq_miss (hc : s.cursor.current = some (.ofChar ']')) :
    unionItem inner g s = .miss := by
  have hcharacter : classSetCharacter g s = .miss :=
    classSetCharacter_eq_miss hc (by decide) (by decide)
  rw [unionItem, here_bind, orElse_of_miss (bind_of_miss hcharacter)]
  exact classSetOperand_eq_miss hmiss hc (by decide) (by decide)

include hu hg hp hinner hmiss

/-! ## Unions

Items are read one by one up to the bracket. That the parser divides them as the grammar does
follows from what an item may begin with. -/

/-- What is read as a member of a union is one. -/
theorem item_of_unionItem {x : CharSet} (h : unionItem inner g s = .done x t) :
    (SetGrammar.Derives g.edition s.cursor (.item x) t.cursor ∧ x.nesting ≤ depth) ∧
      s.Moves t := by
  rw [unionItem, here_bind] at h
  rcases orElse_eq_done.mp h with h | ⟨-, h⟩
  · obtain ⟨c, u, hc, h⟩ := bind_eq_done.mp h
    obtain ⟨hc, hmoves⟩ := (classSetCharacter_recognizes hu _ _ _).mp hc
    rcases orElse_eq_done.mp h with h | ⟨-, h⟩
    · obtain ⟨b, last, hdash, hlast, hmoves', hle, rfl⟩ := (classSetRange_eq_done_iff hu).mp h
      exact ⟨⟨.range hc hdash hlast hle, by simp [CharSet.nesting]⟩, hmoves.trans hmoves'⟩
    · obtain ⟨rfl, rfl⟩ := pure_eq_done.mp h
      exact ⟨⟨.single (.character hc), by simp [CharSet.nesting]⟩, hmoves⟩
  · obtain ⟨⟨hx, hdepth⟩, hmoves⟩ :=
      (classSetOperand_recognizes hu hg hp hinner hmiss _ _ _).mp h
    exact ⟨⟨.single hx, hdepth⟩, hmoves⟩

/-- An item that no hyphen follows is read as a whole. -/
theorem unionItem_of_item {x : CharSet} (hmoves : s.Moves t)
    (hnext : t.cursor.current ≠ some (.ofChar '-')) (hdepth : x.nesting ≤ depth)
    (h : SetGrammar.Derives g.edition s.cursor (.item x) t.cursor) :
    unionItem inner g s = .done x t := by
  have hrange : ∀ c : Character, classSetRange c s.cursor g t = .miss := by
    intro c
    exact classSetRange_eq_miss fun d hd => absurd hd.current_eq hnext
  rw [unionItem, here_bind]
  generalize hd : t.cursor = d at h
  cases h with
  | @range a b _ _ first last hfirst hdash hlast hle =>
    subst hd
    have hc : classSetCharacter g s = .done first { s with cursor := a } :=
      (classSetCharacter_recognizes hu _ _ _).mpr ⟨hfirst, rfl⟩
    refine orElse_of_done (bind_eq_done.mpr ⟨first, _, hc, orElse_of_done ?_⟩)
    exact (classSetRange_eq_done_iff hu).mpr ⟨b, last, hdash, hlast, hmoves, hle, rfl⟩
  | single h =>
    subst hd
    have hoperand : classSetOperand inner g s = .done x t :=
      (classSetOperand_recognizes hu hg hp hinner hmiss _ _ _).mpr ⟨⟨h, hdepth⟩, hmoves⟩
    rcases character_or_miss hu h with ⟨c, rfl, hc⟩ | hnone
    · have hc : classSetCharacter g s = .done c t :=
        (classSetCharacter_recognizes hu _ _ _).mpr ⟨hc, hmoves⟩
      refine orElse_of_done (bind_eq_done.mpr ⟨c, t, hc, ?_⟩)
      rw [orElse_of_miss (hrange c)]
      rfl
    · rw [orElse_of_miss (bind_of_miss hnone)]
      exact hoperand

/-- Members one by one are members in a row. -/
theorem items_of_chain {xs : List CharSet}
    (h : Chain (fun s x t => unionItem inner g s = .done x t) s xs t) :
    (SetGrammar.Derives g.edition s.cursor (.items xs) t.cursor ∧
      CharSet.nestingOfAll xs ≤ depth) ∧ s.Moves t := by
  induction h with
  | nil s => exact ⟨⟨.noItem _, by simp [CharSet.nestingOfAll]⟩, rfl⟩
  | cons head _ ih =>
    obtain ⟨⟨hx, hdepth⟩, hmoves⟩ := item_of_unionItem hu hg hp hinner hmiss head
    obtain ⟨⟨hxs, hdepths⟩, hmoves'⟩ := ih
    refine ⟨⟨.consItem hx hxs, ?_⟩, hmoves.trans hmoves'⟩
    rw [CharSet.nestingOfAll]
    omega

omit hu hg hp hinner hmiss in
/-- Where items stand up to a closing bracket, there is an item or the bracket. -/
theorem items_begin {e : Edition} {c d : Cursor} {xs : List CharSet}
    (h : SetGrammar.Derives e c (.items xs) d) (hclose : d.current = some (.ofChar ']')) :
    Begins c ∨ c.current = some (.ofChar ']') := by
  cases h with
  | noItem => exact .inr hclose
  | consItem h _ => exact .inl h.item_begins

omit hu hg hp hinner hmiss in
/-- Members up to a closing bracket begin with no hyphen. -/
theorem items_current_ne_hyphen {e : Edition} {c d : Cursor} {xs : List CharSet}
    (h : SetGrammar.Derives e c (.items xs) d) (hclose : d.current = some (.ofChar ']')) :
    c.current ≠ some (.ofChar '-') := by
  rcases items_begin h hclose with hbegins | hc
  · exact hbegins.current_ne (by decide) (by decide)
  · rw [hc]
    decide

/-- Members in a row are read one by one, up to the bracket that closes the class. A member that
could go on as a range does so in the grammar as well. -/
theorem chain_of_items {xs : List CharSet} (hmoves : s.Moves t)
    (hclose : t.cursor.current = some (.ofChar ']')) (hdepth : CharSet.nestingOfAll xs ≤ depth)
    (h : SetGrammar.Derives g.edition s.cursor (.items xs) t.cursor) :
    Chain (fun s x t => unionItem inner g s = .done x t) s xs t := by
  induction xs generalizing s with
  | nil =>
    generalize hd : t.cursor = d at h
    cases h
    rw [State.Moves, hd] at hmoves
    rw [hmoves]
    exact .nil s
  | cons x xs ih =>
    rw [CharSet.nestingOfAll] at hdepth
    cases h with
    | @consItem b _ _ _ _ hx hxs =>
      have hnext : ({ s with cursor := b } : State).cursor.current ≠ some (.ofChar '-') :=
        items_current_ne_hyphen hxs hclose
      refine .cons (t := { s with cursor := b }) ?_ (ih hmoves (by omega) hxs)
      exact unionItem_of_item hu hg hp hinner hmiss rfl hnext (by omega) hx

/-- Up to a closing bracket, the items of a union are all read. -/
theorem many_unionItem_of_items {xs : List CharSet} (hmoves : s.Moves t)
    (hclose : t.cursor.current = some (.ofChar ']')) (hdepth : CharSet.nestingOfAll xs ≤ depth)
    (h : SetGrammar.Derives g.edition s.cursor (.items xs) t.cursor) :
    many (unionItem inner) g s = .done xs t := by
  have hprogress : Progresses (unionItem inner) g := by
    intro s x t hx
    exact (item_of_unionItem hu hg hp hinner hmiss hx).1.1.item_remaining_lt
  refine (many_eq_done hprogress).mpr ⟨?_, unionItem_eq_miss hmiss hclose⟩
  exact chain_of_items hu hg hp hinner hmiss hmoves hclose hdepth h

/-! ## Set operations

A chain of operations is a first operand and steps, and the tree is folded from the left. The
grammar derives the same tree by a recursion on the left side; `operations_of_run` and
`run_of_operations` translate between the two. -/

/-- The right side of an operation in a chain that began at the first place. -/
def OperationStep (e : Edition) (depth : Nat) (mark : Cursor) (op : SetOperation) (c : Cursor)
    (step : Span × CharSet) (d : Cursor) : Prop :=
  ∃ b, OperationSign op c b ∧ SetGrammar.Derives e b (.operand step.2) d ∧
    step.2.nesting ≤ depth ∧ step.1 = .between mark d

theorem operationStep_recognizes (mark : Cursor) (op : SetOperation) :
    Recognizes (operationStep inner mark op) g (OperationStep g.edition depth mark op) := by
  intro s step t
  have hoperand := classSetOperand_recognizes hu hg hp hinner hmiss
  rw [operationStep, eatAll_bind_eq_done]
  constructor
  · rintro ⟨u, hsign, h⟩
    rw [sees_bind, Cursor.peek_zero] at h
    split at h
    · exact absurd h fail_ne_done
    · next hand =>
      obtain ⟨y, v, hy, h⟩ := bind_eq_done.mp h
      rw [spanFrom_bind] at h
      obtain ⟨rfl, rfl⟩ := pure_eq_done.mp h
      obtain ⟨⟨hy, hdepth⟩, hmoves⟩ := (hoperand _ _ _).mp (orElse_fail_eq_done.mp hy)
      refine ⟨⟨u.cursor, ⟨hsign.cursor, ?_⟩, hy, hdepth, rfl⟩, hsign.moves.trans hmoves⟩
      rintro rfl hc
      rw [hc] at hand
      exact hand (by decide)
  · rintro ⟨⟨b, ⟨hsign, hand⟩, hy, hdepth, hspan⟩, hmoves⟩
    refine ⟨{ s with cursor := b }, ⟨b, hsign, rfl⟩, ?_⟩
    rw [sees_bind, Cursor.peek_zero, if_neg]
    · refine bind_eq_done.mpr ⟨step.2, t, orElse_of_done ((hoperand _ _ _).mpr
        ⟨⟨hy, hdepth⟩, hmoves⟩), ?_⟩
      rw [spanFrom_bind, pure_eq_done]
      exact ⟨Prod.ext hspan.symm rfl, rfl⟩
    · intro htest
      obtain ⟨hop, hc⟩ := (Bool.and_eq_true _ _).mp htest
      exact hand (of_decide_eq_true hop) (eq_of_beq hc)

/-- The operations of a chain, each with the ones before it on its left. -/
def leftNested (op : SetOperation) (first : CharSet) (steps : List (Span × CharSet)) : CharSet :=
  steps.foldl (fun left (span, right) => .operation span op left right) first

omit hu hg hp hinner hmiss in
/-- Operations that follow a first operand step by step are one chain, from left to right. -/
theorem operations_of_run {e : Edition} {op : SetOperation} {b c d : Cursor} {x : CharSet}
    {steps : List (Span × CharSet)} (hx : SetGrammar.Derives e c (.operations op x) b)
    (hdepth : x.nesting ≤ depth) (h : Cursor.Run (OperationStep e depth c op) b steps d) :
    SetGrammar.Derives e c (.operations op (leftNested op x steps)) d ∧
      (leftNested op x steps).nesting ≤ depth := by
  induction h generalizing x with
  | nil b => exact ⟨hx, hdepth⟩
  | @cons b b' d step steps head _ ih =>
    obtain ⟨span, y⟩ := step
    obtain ⟨a, hsign, hy, hdepth', rfl⟩ := head
    refine ih (.nextOperation hx hsign hy) ?_
    rw [CharSet.nesting]
    exact Nat.max_le.mpr ⟨hdepth, hdepth'⟩

omit hu hg hp hinner hmiss in
/-- A chain of operations is taken apart into its first operand and its steps. -/
theorem run_of_operations {e : Edition} {op : SetOperation} {c d : Cursor} {x : CharSet}
    (h : SetGrammar.Derives e c (.operations op x) d) (hdepth : x.nesting ≤ depth) :
    ∃ y b step steps, (SetGrammar.Derives e c (.operand y) b ∧ y.nesting ≤ depth) ∧
      Cursor.Run (OperationStep e depth c op) b (step :: steps) d ∧
      leftNested op y (step :: steps) = x := by
  generalize hy : Symbol.operations op x = y at h
  induction h generalizing x with
  | @operation a b c d op' x y hx hsign hy' _ _ =>
    cases hy
    rw [CharSet.nesting] at hdepth
    obtain ⟨hdepth, hdepth'⟩ := Nat.max_le.mp hdepth
    exact ⟨x, a, (.between c d, y), [], ⟨hx, hdepth⟩, .cons ⟨b, hsign, hy', hdepth', rfl⟩ (.nil d),
      rfl⟩
  | @nextOperation a b c d op' x y hx hsign hy' ih _ =>
    cases hy
    rw [CharSet.nesting] at hdepth
    obtain ⟨hdepth, hdepth'⟩ := Nat.max_le.mp hdepth
    obtain ⟨z, b', step, steps, hz, hrun, rfl⟩ := ih hdepth rfl
    refine ⟨z, b', step, steps ++ [(.between c d, y)], hz, ?_, ?_⟩
    · exact hrun.append (.cons ⟨b, hsign, hy', hdepth', rfl⟩ (.nil d))
    · rw [← List.cons_append, leftNested, List.foldl_append]
      rfl
  | _ => cases hy

theorem operations_of_operationChain {op : SetOperation} {y : CharSet} {xs : List CharSet}
    {mark : Cursor} (hy : SetGrammar.Derives g.edition mark (.operand y) s.cursor)
    (hdepth : y.nesting ≤ depth) (h : operationChain inner mark op y g s = .done xs t) :
    (∃ x, xs = [x] ∧ SetGrammar.Derives g.edition mark (.operations op x) t.cursor ∧
      x.nesting ≤ depth) ∧ s.Moves t := by
  have hstep := operationStep_recognizes hu hg hp hinner hmiss mark op
  rw [operationChain, bind_eq_done] at h
  obtain ⟨steps, v, hsteps, h⟩ := h
  obtain ⟨rfl, rfl⟩ := pure_eq_done.mp h
  rw [many1, bind_eq_done] at hsteps
  obtain ⟨⟨span, z⟩, w, hfirst, hsteps⟩ := hsteps
  obtain ⟨rest, v, hrest, hsteps⟩ := bind_eq_done.mp hsteps
  obtain ⟨rfl, rfl⟩ := pure_eq_done.mp hsteps
  obtain ⟨⟨b, hsign, hz, hdepth', hspan⟩, hmoves⟩ := (hstep _ _ _).mp hfirst
  obtain ⟨hrun, hmoves'⟩ := hstep.chain_iff.mp (chain_of_many hrest)
  obtain rfl : span = .between mark w.cursor := hspan
  obtain ⟨hx, hxdepth⟩ := operations_of_run (.operation hy hsign hz)
    (by rw [CharSet.nesting]; exact Nat.max_le.mpr ⟨hdepth, hdepth'⟩) hrun
  exact ⟨⟨_, rfl, hx, hxdepth⟩, hmoves.trans hmoves'⟩

omit hu hg hp hinner hmiss in
theorem operationStep_eq_miss {mark : Cursor} {op : SetOperation}
    (h : s.cursor.current ≠ some (.ofChar (operationSign op))) :
    operationStep inner mark op g s = .miss := by
  rw [operationStep]
  exact bind_of_miss (eatAll_eq_miss_of_ne h)

omit hu hg hp hinner hmiss in
theorem operationChain_eq_miss {mark : Cursor} {op : SetOperation} {y : CharSet}
    (h : operationStep inner mark op g s = .miss) : operationChain inner mark op y g s = .miss :=
  bind_of_miss (bind_of_miss h)

/-- Up to a closing bracket, the operations of a chain are all read. -/
theorem operationChain_of_run {mark : Cursor} {op : SetOperation} {y : CharSet}
    {step : Span × CharSet} {steps : List (Span × CharSet)} (hmoves : s.Moves t)
    (hclose : t.cursor.current = some (.ofChar ']'))
    (h : Cursor.Run (OperationStep g.edition depth mark op) s.cursor (step :: steps) t.cursor) :
    operationChain inner mark op y g s = .done [leftNested op y (step :: steps)] t := by
  have hstep := operationStep_recognizes hu hg hp hinner hmiss mark op
  have hprogress : ∀ c step d, OperationStep g.edition depth mark op c step d →
      d.remaining < c.remaining := by
    rintro c step d ⟨b, hsign, hy, -, -⟩
    have hle := hsign.1.remaining_le
    have hlt := hy.operand_remaining_lt
    omega
  have hend : operationStep inner mark op g t = .miss := by
    refine operationStep_eq_miss ?_
    rw [hclose]
    cases op <;> decide
  cases h with
  | @cons _ b _ _ _ head tail =>
    have hfirst : operationStep inner mark op g s = .done step { s with cursor := b } :=
      (hstep _ _ _).mpr ⟨head, rfl⟩
    have hrest : many (operationStep inner mark op) g { s with cursor := b } = .done steps t :=
      (hstep.many_eq_done hprogress).mpr ⟨tail, hmoves, hend⟩
    rw [operationChain, many1, bind_of_done (bind_eq_done.mpr
      ⟨_, _, hfirst, bind_eq_done.mpr ⟨_, _, hrest, rfl⟩⟩)]
    rfl

/-! ## Contents

The first thing that is read may turn out to be the first operand of a chain, the first item of a
union, or the first character of a range. What comes next decides, and the three cases exclude each
other. -/

/-- The contents of a class: items, or the operations of one chain. -/
def Contents (e : Edition) (c : Cursor) (xs : List CharSet) (d : Cursor) : Prop :=
  SetGrammar.Derives e c (.items xs) d ∨
    ∃ op x, xs = [x] ∧ SetGrammar.Derives e c (.operations op x) d

/-- What goes on from a first operand is contents by the grammar. -/
theorem contents_of_classSetFrom {mark : Cursor} {y : CharSet} {xs : List CharSet}
    (hy : SetGrammar.Derives g.edition mark (.operand y) s.cursor) (hdepth : y.nesting ≤ depth)
    (h : classSetFrom inner mark y g s = .done xs t) :
    (Contents g.edition mark xs t.cursor ∧ CharSet.nestingOfAll xs ≤ depth) ∧ s.Moves t := by
  have hchain : ∀ {op : SetOperation}, operationChain inner mark op y g s = .done xs t →
      (Contents g.edition mark xs t.cursor ∧ CharSet.nestingOfAll xs ≤ depth) ∧ s.Moves t := by
    intro op h
    obtain ⟨⟨x, rfl, hx, hxdepth⟩, hmoves⟩ :=
      operations_of_operationChain hu hg hp hinner hmiss hy hdepth h
    refine ⟨⟨.inr ⟨op, x, rfl, hx⟩, ?_⟩, hmoves⟩
    simpa [CharSet.nestingOfAll] using hxdepth
  rcases orElse_eq_done.mp h with h | ⟨-, h⟩
  · exact hchain h
  rcases orElse_eq_done.mp h with h | ⟨-, h⟩
  · exact hchain h
  · obtain ⟨ys, hys, rfl⟩ := map_eq_done.mp h
    obtain ⟨⟨hys, hysdepth⟩, hmoves⟩ := items_of_chain hu hg hp hinner hmiss (chain_of_many hys)
    refine ⟨⟨.inl (.consItem (.single hy) hys), ?_⟩, hmoves⟩
    rw [CharSet.nestingOfAll]
    exact Nat.max_le.mpr ⟨hdepth, hysdepth⟩

/-- Members in a row are read as what goes on from the first of them. -/
theorem classSetFrom_of_items {mark : Cursor} {y : CharSet} {xs : List CharSet}
    (hmoves : s.Moves t) (hclose : t.cursor.current = some (.ofChar ']'))
    (hdepth : CharSet.nestingOfAll xs ≤ depth)
    (h : SetGrammar.Derives g.edition s.cursor (.items xs) t.cursor) :
    classSetFrom inner mark y g s = .done (y :: xs) t := by
  have hintersection : operationStep inner mark .intersection g s = .miss := by
    rw [operationStep]
    refine bind_of_miss (eatAll_pair_eq_miss fun u hr => ?_)
    rcases items_begin h hclose with hbegins | hc
    · exact hbegins.not_doubled hr.cursor
    · rw [hr.current_eq] at hc
      exact absurd hc (by decide)
  have hsubtraction : operationStep inner mark .subtraction g s = .miss :=
    operationStep_eq_miss (items_current_ne_hyphen h hclose)
  rw [classSetFrom, orElse_of_miss (operationChain_eq_miss hintersection),
    orElse_of_miss (operationChain_eq_miss hsubtraction)]
  exact map_eq_done.mpr
    ⟨xs, many_unionItem_of_items hu hg hp hinner hmiss hmoves hclose hdepth h, rfl⟩

theorem classSetFrom_of_run {mark : Cursor} {op : SetOperation} {y : CharSet}
    {step : Span × CharSet} {steps : List (Span × CharSet)} (hmoves : s.Moves t)
    (hclose : t.cursor.current = some (.ofChar ']'))
    (h : Cursor.Run (OperationStep g.edition depth mark op) s.cursor (step :: steps) t.cursor) :
    classSetFrom inner mark y g s = .done [leftNested op y (step :: steps)] t := by
  have hchain : operationChain inner mark op y g s = .done [leftNested op y (step :: steps)] t :=
    operationChain_of_run hu hg hp hinner hmiss hmoves hclose h
  cases op with
  | intersection => exact orElse_of_done hchain
  | subtraction =>
    -- a hyphen begins no intersection
    have hintersection : operationStep inner mark .intersection g s = .miss := by
      refine operationStep_eq_miss ?_
      cases h with
      | cons head _ =>
        obtain ⟨b, hsign, -⟩ := head
        rw [hsign.1.current_eq]
        decide
    rw [classSetFrom, orElse_of_miss (operationChain_eq_miss hintersection)]
    exact orElse_of_done hchain

/-- Contents that begin with an operand go on from it, unless it begins a range. -/
theorem classSetExpression_of_operand {y : CharSet} (hmoves : s.Moves u)
    (hy : SetGrammar.Derives g.edition s.cursor (.operand y) u.cursor) (hdepth : y.nesting ≤ depth)
    (hrange : ∀ c : Character, classSetRange c s.cursor g u = .miss) :
    classSetExpression inner g s = classSetFrom inner s.cursor y g u := by
  rw [classSetExpression, here_bind]
  rcases character_or_miss hu hy with ⟨c, rfl, hc⟩ | hnone
  · have hc : classSetCharacter g s = .done c u :=
      (classSetCharacter_recognizes hu _ _ _).mpr ⟨hc, hmoves⟩
    rw [bind_of_done (attempt_of_done hc)]
    dsimp only
    rw [bind_of_done (attempt_of_miss (hrange c))]
  · have hoperand : classSetOperand inner g s = .done y u :=
      (classSetOperand_recognizes hu hg hp hinner hmiss _ _ _).mpr ⟨⟨hy, hdepth⟩, hmoves⟩
    rw [bind_of_done (attempt_of_miss hnone)]
    dsimp only
    rw [bind_of_done (attempt_of_done hoperand)]

/-- A union is read as contents. -/
theorem classSetExpression_of_items {x : CharSet} {xs : List CharSet} (hmoves : s.Moves t)
    (hclose : t.cursor.current = some (.ofChar ']'))
    (hdepth : CharSet.nestingOfAll (x :: xs) ≤ depth)
    (h : SetGrammar.Derives g.edition s.cursor (.items (x :: xs)) t.cursor) :
    classSetExpression inner g s = .done (x :: xs) t := by
  rw [CharSet.nestingOfAll] at hdepth
  obtain ⟨hdepth, hdepths⟩ := Nat.max_le.mp hdepth
  cases h with
  | @consItem b _ _ _ _ hx hxs =>
    -- no item begins with a hyphen, so an operand is not taken for the start of a range
    have hnext := items_current_ne_hyphen hxs hclose
    generalize hb : b = b' at hx
    cases hx with
    | @range a b'' _ _ first last hfirst hdash hlast hle =>
      subst hb
      have hc : classSetCharacter g s = .done first { s with cursor := a } :=
        (classSetCharacter_recognizes hu _ _ _).mpr ⟨hfirst, rfl⟩
      have hrange : classSetRange first s.cursor g { s with cursor := a } =
          .done (.range (.between s.cursor b) first last) { s with cursor := b } :=
        (classSetRange_eq_done_iff hu).mpr ⟨b'', last, hdash, hlast, rfl, hle, rfl⟩
      have hrest : many (unionItem inner) g { s with cursor := b } = .done xs t :=
        many_unionItem_of_items hu hg hp hinner hmiss hmoves hclose hdepths hxs
      rw [classSetExpression, here_bind, bind_of_done (attempt_of_done hc)]
      dsimp only
      rw [bind_of_done (attempt_of_done hrange)]
      exact map_eq_done.mpr ⟨xs, hrest, rfl⟩
    | single hx =>
      subst hb
      rw [classSetExpression_of_operand hu hg hp hinner hmiss (u := { s with cursor := b }) rfl hx
        hdepth fun c => classSetRange_eq_miss fun d hd => absurd hd.current_eq hnext]
      exact classSetFrom_of_items hu hg hp hinner hmiss hmoves hclose hdepths hxs

/-- A chain of operations is read as contents. -/
theorem classSetExpression_of_operations {op : SetOperation} {x : CharSet} (hmoves : s.Moves t)
    (hclose : t.cursor.current = some (.ofChar ']')) (hdepth : x.nesting ≤ depth)
    (h : SetGrammar.Derives g.edition s.cursor (.operations op x) t.cursor) :
    classSetExpression inner g s = .done [x] t := by
  obtain ⟨y, b, step, steps, ⟨hy, hydepth⟩, hrun, rfl⟩ := run_of_operations h hdepth
  have hrange : ∀ d, b.Reads ['-'] d → d.current = some (.ofChar '-') := by
    intro d hd
    cases hrun with
    | cons head _ =>
      obtain ⟨a, hsign, -⟩ := head
      obtain ⟨hc, hnext⟩ := Cursor.reads_cons.mp hsign.1
      obtain ⟨hc', rfl⟩ := Cursor.reads_singleton.mp hd
      rw [hc] at hc'
      rw [hnext.current_eq]
      exact hc'
  rw [classSetExpression_of_operand hu hg hp hinner hmiss (u := { s with cursor := b }) rfl hy
    hydepth fun c => classSetRange_eq_miss hrange]
  exact classSetFrom_of_run hu hg hp hinner hmiss hmoves hclose hrun

/-- What is read as contents is contents by the grammar, nested no deeper than there are levels. -/
theorem contents_of_classSetContents {xs : List CharSet}
    (h : classSetContents inner g s = .done xs t) :
    (Contents g.edition s.cursor xs t.cursor ∧ CharSet.nestingOfAll xs ≤ depth) ∧ s.Moves t := by
  rw [classSetContents, bind_eq_done] at h
  obtain ⟨ended, u, hended, h⟩ := h
  obtain ⟨-, rfl⟩ := Outcome.done.inj hended
  rw [sees_bind] at h
  split at h
  · obtain ⟨rfl, rfl⟩ := pure_eq_done.mp h
    exact ⟨⟨.inl (.noItem _), by simp [CharSet.nestingOfAll]⟩, rfl⟩
  rw [classSetExpression, here_bind] at h
  obtain ⟨o, u, ho, h⟩ := bind_eq_done.mp h
  -- a character may begin a range, or be an operand like any other
  rcases attempt_eq_done.mp ho with ⟨c, rfl, hc⟩ | ⟨rfl, -, rfl⟩
  · obtain ⟨hc, hmoves⟩ := (classSetCharacter_recognizes hu _ _ _).mp hc
    obtain ⟨o, v, ho, h⟩ := bind_eq_done.mp h
    rcases attempt_eq_done.mp ho with ⟨range, rfl, hrange⟩ | ⟨rfl, -, rfl⟩
    · obtain ⟨b, last, hdash, hlast, hmoves', hle, rfl⟩ := (classSetRange_eq_done_iff hu).mp hrange
      obtain ⟨ys, hys, rfl⟩ := map_eq_done.mp h
      obtain ⟨⟨hys, hysdepth⟩, hmoves''⟩ :=
        items_of_chain hu hg hp hinner hmiss (chain_of_many hys)
      refine ⟨⟨.inl (.consItem (.range hc hdash hlast hle) hys), ?_⟩,
        hmoves.trans (hmoves'.trans hmoves'')⟩
      simpa [CharSet.nestingOfAll, CharSet.nesting] using hysdepth
    · obtain ⟨hcontents, hmoves'⟩ := contents_of_classSetFrom hu hg hp hinner hmiss
        (.character hc) (by simp [CharSet.nesting]) h
      exact ⟨hcontents, hmoves.trans hmoves'⟩
  · obtain ⟨o, v, ho, h⟩ := bind_eq_done.mp h
    rcases attempt_eq_done.mp ho with ⟨x, rfl, hx⟩ | ⟨rfl, -, rfl⟩
    · obtain ⟨⟨hx, hdepth⟩, hmoves⟩ :=
        (classSetOperand_recognizes hu hg hp hinner hmiss _ _ _).mp hx
      obtain ⟨hcontents, hmoves'⟩ := contents_of_classSetFrom hu hg hp hinner hmiss hx hdepth h
      exact ⟨hcontents, hmoves.trans hmoves'⟩
    · exact absurd h classSetFault_ne_done

/-- Up to a closing bracket, contents are read whole. -/
theorem classSetContents_of_contents {xs : List CharSet} (hmoves : s.Moves t)
    (hclose : t.cursor.current = some (.ofChar ']')) (hdepth : CharSet.nestingOfAll xs ≤ depth)
    (h : Contents g.edition s.cursor xs t.cursor) : classSetContents inner g s = .done xs t := by
  -- where an item or an operand begins, the contents are neither at the end nor at the bracket
  have hbegun : Begins s.cursor → classSetContents inner g s = classSetExpression inner g s := by
    intro hbegins
    have hnone : s.cursor.current.isNone = false := by
      rw [Option.isNone_eq_false_iff, Option.isSome_iff_ne_none]
      exact hbegins.current_ne_none
    have hne : (s.cursor.peek 0 == some (CodePoint.ofChar ']')) = false := by
      rw [Cursor.peek_zero, beq_eq_false_iff_ne]
      exact hbegins.current_ne (by decide) (by decide)
    rw [classSetContents, bind_of_done (u := s) (a := s.cursor.current.isNone) rfl, sees_bind,
      hnone, hne]
    rfl
  rcases h with h | ⟨op, x, rfl, h⟩
  · cases xs with
    | nil =>
      generalize hd : t.cursor = d at h
      cases h
      rw [State.Moves, hd] at hmoves
      subst hmoves
      rw [classSetContents, bind_of_done (u := s) (a := s.cursor.current.isNone) rfl, sees_bind,
        Cursor.peek_zero, show s.cursor.current = some (.ofChar ']') from hclose]
      rfl
    | cons x xs =>
      have hbegins : Begins s.cursor := by
        cases h with
        | consItem h _ => exact h.item_begins
      rw [hbegun hbegins]
      exact classSetExpression_of_items hu hg hp hinner hmiss hmoves hclose hdepth h
  · have hdepth : x.nesting ≤ depth := by simpa [CharSet.nestingOfAll] using hdepth
    obtain ⟨y, b, step, steps, ⟨hy, -⟩, -, -⟩ := run_of_operations h hdepth
    rw [hbegun hy.operand_begins]
    exact classSetExpression_of_operations hu hg hp hinner hmiss hmoves hclose hdepth h

/-! ## Classes

A level is used up by each class, so a class that is read is nested no more deeply than there are
levels, and one that is nested no more deeply is read. -/

omit hu hp hinner hmiss in
/-- A class of members in a row is a list. -/
theorem classOf_of_items {e : Edition} {a b mark : Cursor} {negated : Bool} {xs : List CharSet}
    (h : SetGrammar.Derives e a (.items xs) b) :
    classOf mark negated xs g s = .done (.listing (.between mark s.cursor) negated true xs) s := by
  rw [classOf, grammar_bind, spanFrom_bind, hg]
  split
  · next x =>
    cases h with
    | consItem hx _ =>
      rw [hx.item_isOperation]
      rfl
  · rfl

omit hu hp hinner hmiss in
/-- A class of one operation is an expression. -/
theorem classOf_of_operations {e : Edition} {a b mark : Cursor} {negated : Bool}
    {op : SetOperation} {x : CharSet} (h : SetGrammar.Derives e a (.operations op x) b) :
    classOf mark negated [x] g s = .done (.expression (.between mark s.cursor) negated x) s := by
  have hop : x.isOperation = true := by cases h <;> rfl
  rw [classOf, grammar_bind, spanFrom_bind, hg]
  dsimp only
  rw [hop]
  rfl

/-- A class is read up to its closing bracket, and then its tree is made. -/
theorem classBody_of_contents {nested negated : Bool} {a b : Cursor} {xs : List CharSet}
    (hmoves : s.Moves t) (hopen : Opening negated s.cursor a)
    (hcontents : Contents g.edition a xs b) (hdepth : CharSet.nestingOfAll xs ≤ depth)
    (hclose : b.Reads [']'] t.cursor)
    (hn : (negated && xs.any CharSet.mayContainStrings) = false) :
    classBody inner nested g s = classOf s.cursor negated xs g t := by
  have hcaret : ∃ u, s.Reads ['['] u ∧ eats '^' g u = .done negated { s with cursor := a } := by
    obtain ⟨hr, hne⟩ := hopen
    cases negated with
    | false => exact ⟨{ s with cursor := a }, ⟨a, hr, rfl⟩, eats_of_ne (hne rfl)⟩
    | true =>
      have hread : s.Reads ['[', '^'] { s with cursor := a } := ⟨a, hr, rfl⟩
      obtain ⟨u, hbracket, hr⟩ := State.reads_cons.mp hread
      exact ⟨u, hbracket, eats_eq_done.mpr (.inl ⟨rfl, hr⟩)⟩
  obtain ⟨u, hbracket, hcaret⟩ := hcaret
  have hxs : classSetContents inner g { s with cursor := a } = .done xs { s with cursor := b } :=
    classSetContents_of_contents hu hg hp hinner hmiss rfl hclose.current_eq hdepth
      hcontents
  have hend : closeClass nested g { s with cursor := b } = .done () t :=
    closeClass_eq_done.mpr ⟨_, hclose, hmoves⟩
  rw [classBody, here_bind, bind_of_done (eat_eq_done (x := ()).mpr hbracket), bind_of_done hcaret,
    grammar_bind, if_pos hg, bind_of_done hxs]
  dsimp only
  rw [bind_of_done hend, hn]
  rfl

/-- What is read as a class is one by the grammar, nested no deeper than there are levels. -/
theorem class_of_classBody {nested : Bool} {x : CharSet}
    (h : classBody inner nested g s = .done x t) :
    (SetGrammar.Derives g.edition s.cursor (.charClass x) t.cursor ∧ x.nesting ≤ depth + 1) ∧
      s.Moves t := by
  rw [classBody, here_bind, eat_bind_eq_done] at h
  obtain ⟨u₁, hbracket, h⟩ := h
  obtain ⟨negated, u₂, hcaret, h⟩ := bind_eq_done.mp h
  -- without the caret, the reader has looked for one and not found it
  have hopen : Opening negated s.cursor u₂.cursor ∧ s.Moves u₂ := by
    rcases eats_eq_done.mp hcaret with ⟨rfl, hr⟩ | ⟨rfl, hne, rfl⟩
    · exact ⟨⟨(hbracket.trans hr).cursor, fun h => absurd h (by decide)⟩, (hbracket.trans hr).moves⟩
    · exact ⟨⟨hbracket.cursor, fun _ => hne⟩, hbracket.moves⟩
  obtain ⟨hopen, hmoves⟩ := hopen
  rw [grammar_bind, if_pos hg] at h
  obtain ⟨xs, u₃, hxs, h⟩ := bind_eq_done.mp h
  obtain ⟨⟨hcontents, hdepth⟩, hmoves'⟩ :=
    contents_of_classSetContents hu hg hp hinner hmiss hxs
  obtain ⟨_, u₄, hclose, h⟩ := bind_eq_done.mp h
  have hclose := closeClass_eq_done.mp hclose
  have hmoves := hmoves.trans (hmoves'.trans hclose.moves)
  split at h
  · exact absurd h fail_ne_done
  next hn =>
  rcases hcontents with hitems | ⟨op, y, rfl, hoperations⟩
  · rw [classOf_of_items hg hitems] at h
    cases h
    refine ⟨⟨.listing hopen hitems hclose.cursor (by simpa using hn), ?_⟩, hmoves⟩
    rw [CharSet.nesting]
    omega
  · rw [classOf_of_operations hg hoperations] at h
    cases h
    refine ⟨⟨.expression hopen hoperations hclose.cursor (by simpa using hn), ?_⟩, hmoves⟩
    rw [CharSet.nestingOfAll, CharSet.nestingOfAll] at hdepth
    rw [CharSet.nesting]
    omega

/-- With one level more, classes are recognized that are nested one level deeper. -/
theorem classBody_recognizes (nested : Bool) :
    Recognizes (classBody inner nested) g fun c x d =>
      SetGrammar.Derives g.edition c (.charClass x) d ∧ x.nesting ≤ depth + 1 := by
  intro s x t
  refine ⟨class_of_classBody hu hg hp hinner hmiss, ?_⟩
  rintro ⟨⟨h, hdepth⟩, hmoves⟩
  generalize hd : t.cursor = d at h
  cases h with
  | listing hopen hitems hclose hn =>
    subst hd
    rw [CharSet.nesting] at hdepth
    rw [classBody_of_contents hu hg hp hinner hmiss hmoves hopen (.inl hitems) (by omega) hclose hn]
    exact classOf_of_items hg hitems
  | @expression _ _ _ _ _ op x hopen hoperations hclose hn =>
    subst hd
    rw [CharSet.nesting] at hdepth
    have hxdepth : CharSet.nestingOfAll [x] ≤ depth := by
      rw [CharSet.nestingOfAll, CharSet.nestingOfAll]
      omega
    rw [classBody_of_contents hu hg hp hinner hmiss hmoves hopen (.inr ⟨op, x, rfl, hoperations⟩)
      hxdepth hclose (by simpa using hn)]
    exact classOf_of_operations hg hoperations

omit hinner hmiss in
/-- Classes are read exactly, as deep as the limit allows. -/
theorem charClass_recognizes (depth : Nat) (nested : Bool) :
    Recognizes (charClass depth nested) g fun c x d =>
      SetGrammar.Derives g.edition c (.charClass x) d ∧ x.nesting ≤ depth := by
  induction depth generalizing nested with
  | zero =>
    intro s x t
    constructor
    · intro h
      rw [charClass, here_bind, eat_bind_eq_done] at h
      obtain ⟨u, -, h⟩ := h
      exact absurd h failAt_ne_done
    · rintro ⟨⟨h, hdepth⟩, -⟩
      cases h <;> simp [CharSet.nesting] at hdepth
  | succ depth ih =>
    intro s x t
    rw [charClass]
    exact classBody_recognizes hu hg hp (ih true) (fun _ => charClass_eq_miss) nested s x t

end Sets

end EcmaPattern.Parser
