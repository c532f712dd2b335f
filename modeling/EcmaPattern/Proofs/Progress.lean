import EcmaPattern.Proofs.Derivation.Classes

/-!
# Parsers that go forward

Two runs can be compared as long as both go on. Where one of them goes on alone, or where they have
different amounts of text ahead, it matters how far a parser gets by itself: that it takes up text
whenever it is done (`Progresses`), that it does not go back (`Advances`), or that moreover it does
not miss (`Proceeds`). Each follows from the same of the parts.

No parser goes back, so that it advances needs to be shown for those only behind which a run may be
left alone, and these are the parsers of classes. What is done with a class has been read, so much
of what is needed follows from what there is to read.

Key lemmas:

* `Progresses.bind`, that what comes first may take up the text;
* `Proceeds.orElse`, that a choice does not miss if its last part does not;
* `classSetFrom_proceeds` and `neverMisses_classSetContents`, for the contents of classes.
-/

namespace EcmaPattern.Parser

variable {α β : Type}

/-- Under the grammar, the parser goes forward. -/
def Advances (g : Grammar) (p : Parser α) : Prop :=
  ∀ s a t, p g s = .done a t → t.cursor.remaining ≤ s.cursor.remaining

/-- Under the grammar, the parser goes forward and does not miss. -/
structure Proceeds (g : Grammar) (p : Parser α) : Prop where
  ne_miss : ∀ s, p g s ≠ .miss
  advances : Advances g p

/-! ## Combinators

The bounds are chained along a row of parsers. A row proceeds only if each parser in it does, but a
choice proceeds if its last part does. -/

namespace Advances

variable {g : Grammar} {p q : Parser α} {r : α → Parser β}

/-- What reads nothing goes forward. -/
theorem of_eq (h : ∀ s a t, p g s = .done a t → s = t) : Advances g p :=
  fun s a t ha => Nat.le_of_eq (congrArg (fun u : State => u.cursor.remaining) (h s a t ha).symm)

theorem of_progresses (h : Progresses p g) : Advances g p :=
  fun s a t ha => Nat.le_of_lt (h s a t ha)

theorem fail (cause : Cause) : Advances g (fail cause : Parser α) := by
  intro s a t ha
  cases ha

theorem pure (a : α) : Advances g (pure a : Parser α) := .of_eq fun _ _ _ h => (pure_eq_done.mp h).2

theorem sees (k : Nat) (c : CodePoint) : Advances g (sees k c) :=
  .of_eq fun _ _ _ h => (Outcome.done.inj h).2

/-- Parsers that go forward go forward in a row. -/
theorem bind (hp : Advances g p) (hr : ∀ a, Advances g (r a)) : Advances g (p >>= r) := by
  intro s b t hb
  obtain ⟨a, u, ha, hb⟩ := bind_eq_done.mp hb
  exact Nat.le_trans (hr a _ _ _ hb) (hp _ _ _ ha)

theorem orElse (hp : Advances g p) (hq : Advances g q) : Advances g (p <|> q) := by
  intro s a t ha
  rcases orElse_eq_done.mp ha with ha | ⟨-, ha⟩
  · exact hp _ _ _ ha
  · exact hq _ _ _ ha

theorem ite {c : Prop} [Decidable c] (hp : Advances g p) (hq : Advances g q) :
    Advances g (if c then p else q) := by
  split
  · exact hp
  · exact hq

theorem attempt (hp : Advances g p) : Advances g (attempt p) := by
  intro s o t ho
  rcases attempt_eq_done.mp ho with ⟨a, -, ha⟩ | ⟨-, -, rfl⟩
  · exact hp _ _ _ ha
  · exact Nat.le_refl _

/-- A repetition of a parser that goes forward does. -/
theorem many (hp : Advances g p) : Advances g (many p) := by
  intro s as t has
  have hchain := chain_of_many has
  clear has
  induction hchain with
  | nil s => exact Nat.le_refl _
  | cons head _ ih => exact Nat.le_trans ih (hp _ _ _ head)

end Advances

namespace Progresses

variable {g : Grammar} {p q : Parser α} {r : α → Parser β}

/-- A parser that makes progress does so with whatever goes forward behind it. -/
theorem bind (hp : Progresses p g) (hr : ∀ a, Advances g (r a)) : Progresses (p >>= r) g := by
  intro s b t hb
  obtain ⟨a, u, ha, hb⟩ := bind_eq_done.mp hb
  exact Nat.lt_of_le_of_lt (hr a _ _ _ hb) (hp _ _ _ ha)

theorem orElse (hp : Progresses p g) (hq : Progresses q g) : Progresses (p <|> q) g := by
  intro s a t ha
  rcases orElse_eq_done.mp ha with ha | ⟨-, ha⟩
  · exact hp _ _ _ ha
  · exact hq _ _ _ ha

theorem map {c : α → β} (hp : Progresses p g) : Progresses (c <$> p) g := by
  intro s b t hb
  obtain ⟨a, ha, -⟩ := map_eq_done.mp hb
  exact hp _ _ _ ha

/-- After one step that makes progress, any number of them may come. -/
theorem chain_le (hp : Progresses p g) {s t : State} {as : List α}
    (h : Chain (fun s a t => p g s = .done a t) s as t) :
    t.cursor.remaining ≤ s.cursor.remaining := by
  induction h with
  | nil s => exact Nat.le_refl _
  | cons head _ ih => exact Nat.le_trans ih (Nat.le_of_lt (hp _ _ _ head))

end Progresses

theorem progresses_eat (c : CodePoint) (g : Grammar) : Progresses (eat c) g :=
  (progresses_satisfy _ g).bind fun _ => .pure ()

theorem progresses_eatAll {cs : List Char} (hne : cs ≠ []) (g : Grammar) :
    Progresses (eatAll cs) g := by
  intro s x t hx
  have hr := eatAll_eq_done.mp hx
  exact hr.cursor.remaining_lt fun hnil => hne (List.map_eq_nil_iff.mp hnil)

theorem neverMisses_grammar : NeverMisses grammar := by
  intro g s h
  cases h

theorem neverMisses_atEnd : NeverMisses atEnd := by
  intro g s h
  cases h

theorem neverMisses_sees (k : Nat) (c : CodePoint) : NeverMisses (sees k c) := by
  intro g s h
  cases h

theorem neverMisses_attempt (p : Parser α) : NeverMisses (attempt p) := fun _ _ => attempt_ne_miss

namespace Proceeds

variable {g : Grammar} {p : Parser α} {r : α → Parser β}

theorem pure (a : α) : Proceeds g (pure a : Parser α) := ⟨neverMisses_pure a g, .pure a⟩

/-- Behind a parser that proceeds, what follows may come, as long as it proceeds. -/
theorem bind (hp : Proceeds g p) (hr : ∀ a, Proceeds g (r a)) : Proceeds g (p >>= r) where
  ne_miss s hmiss := by
    rcases bind_eq_miss.mp hmiss with hmiss | ⟨a, u, -, hmiss⟩
    · exact hp.ne_miss s hmiss
    · exact (hr a).ne_miss u hmiss
  advances := hp.advances.bind fun a => (hr a).advances

theorem here_bind {r : Cursor → Parser β} (hr : ∀ mark, Proceeds g (r mark)) :
    Proceeds g (here >>= r) :=
  bind ⟨neverMisses_here g, .of_eq fun _ _ _ h => (Outcome.done.inj h).2⟩ hr

theorem spanFrom_bind {r : Span → Parser β} (mark : Cursor) (hr : ∀ span, Proceeds g (r span)) :
    Proceeds g (spanFrom mark >>= r) :=
  bind ⟨neverMisses_spanFrom mark g, .of_eq fun _ _ _ h => (Outcome.done.inj h).2⟩ hr

theorem attempt (hp : Advances g p) : Proceeds g (attempt p) :=
  ⟨fun _ => attempt_ne_miss, hp.attempt⟩

theorem eats (c : CodePoint) : Proceeds g (eats c) :=
  bind (attempt (.of_progresses (progresses_eat c g))) fun _ => pure _

/-- A repetition goes if its parser does. -/
theorem many (hp : Advances g p) : Proceeds g (many p) := ⟨neverMisses_many p g, hp.many⟩

theorem fail (cause : Cause) : Proceeds g (fail cause : Parser α) :=
  ⟨fun _ => fail_ne_miss, .fail cause⟩

/-- A parser goes on if what it could miss is a fault. -/
theorem orElse {q : Parser α} (hp : Advances g p) (hq : Proceeds g q) : Proceeds g (p <|> q) where
  ne_miss s hmiss := hq.ne_miss s (orElse_eq_miss.mp hmiss).2
  advances := hp.orElse hq.advances

theorem ite {q : Parser α} {c : Prop} [Decidable c] (hp : Proceeds g p) (hq : Proceeds g q) :
    Proceeds g (if c then p else q) := by
  split
  · exact hp
  · exact hq

end Proceeds

/-! ## Atoms and ranges

An atom takes up text. After it nothing can miss, since a hyphen that begins no range stands for
itself. -/

section Ranges

variable {g : Grammar}

theorem characterFrom_proceeds (mark : Cursor) (v : CodePoint) :
    Proceeds g (characterFrom mark v) :=
  .spanFrom_bind mark fun _ => .pure _

theorem characterSetFrom_proceeds (mark : Cursor) (v : CodePoint) :
    Proceeds g (characterSetFrom mark v) :=
  (characterFrom_proceeds mark v).bind fun _ => .pure _

/-- An atom takes up text. -/
theorem progresses_classAtom : Progresses classAtom g := by
  intro s x t hx
  rcases classAtom_eq_done hx with ⟨c, -, hc⟩ | ⟨-, hset⟩
  · obtain ⟨cs, hne, hr⟩ := hc.reads
    exact hr.cursor.remaining_lt hne
  · cases hset with
    | mk _ hr => exact hr.cursor.remaining_lt (List.cons_ne_nil _ _)

theorem classRange_proceeds (mark : Cursor) (low dash high : CharSet) :
    Proceeds g (classRange mark low dash high) := by
  have hweb : Proceeds g (do
      if (← grammar).exact then fail .invalidCharacterClass
      else return [low, dash, high] : Parser (List CharSet)) :=
    .bind ⟨neverMisses_grammar g, .of_eq fun _ _ _ h => (Outcome.done.inj h).2⟩ fun _ =>
      .ite (.fail _) (.pure _)
  unfold classRange
  cases low.character? with
  | none => exact hweb
  | some first =>
    cases high.character? with
    | none => exact hweb
    | some last => exact .ite (.fail _) (.spanFrom_bind mark fun _ => .pure _)

/-- What is left to read of an item of a class after its first atom. -/
def classRangeRest (mark : Cursor) (low : CharSet) : Parser (List CharSet) := do
  let dashMark ← here
  if ← eats '-' then
    let dash ← characterSetFrom dashMark '-'
    match ← attempt classAtom with
    | some high => classRange mark low dash high
    | none => return [low, dash]
  else return [low]

theorem classRangeRest_proceeds (mark : Cursor) (low : CharSet) :
    Proceeds g (classRangeRest mark low) := by
  refine .here_bind fun dashMark => .bind (.eats _) fun dash =>
    .ite (.bind (characterSetFrom_proceeds _ _) fun dash =>
      .bind (.attempt (.of_progresses progresses_classAtom)) fun o => ?_) (.pure _)
  cases o with
  | some high => exact classRange_proceeds _ _ _ _
  | none => exact .pure _

theorem progresses_classRangeItem : Progresses classRangeItem g := by
  intro s xs t hx
  rw [classRangeItem, Parser.here_bind] at hx
  exact (progresses_classAtom.bind fun low => (classRangeRest_proceeds _ low).advances) s xs t hx

end Ranges

/-! ## The set grammar

Characters take up text, so every member of a union does, and so does every step of a chain. Classes
inside are assumed to. Where contents do not begin there is a fault, so contents never miss. -/

section Sets

variable {g : Grammar}

theorem progresses_classSetCharacter (g : Grammar) : Progresses classSetCharacter g := by
  intro s c t hc
  obtain ⟨cs, hne, hr⟩ := (classSetCharacter_eq_done hc).reads
  exact hr.cursor.remaining_lt hne

theorem advances_classSetRange (first : Character) (mark : Cursor) :
    Advances g (classSetRange first mark) :=
  .bind (.of_progresses (progresses_eat _ g)) fun _ =>
    .bind (.of_progresses (progresses_classSetCharacter g)) fun _ =>
      .ite (.fail _) (Proceeds.spanFrom_bind _ fun _ => .pure _).advances

theorem classSetRange_proceeds (c : Character) (mark : Cursor) :
    Proceeds g (classSetRange c mark <|> pure (.character c)) :=
  .orElse (advances_classSetRange c mark) (.pure _)

theorem advances_classString (g : Grammar) : Advances g classString :=
  (Proceeds.here_bind fun _ => .bind
    (.many (.of_progresses (progresses_classSetCharacter g))) fun _ =>
      .spanFrom_bind _ fun _ => .pure _).advances

/-- A string behind a bar takes up text, even if the string is empty. -/
theorem progresses_barred : Progresses (do eat '|'; classString : Parser ClassString) g :=
  (progresses_eat _ g).bind fun _ => advances_classString g

/-- What comes after quoted strings. -/
theorem closeStrings_proceeds (mark : Cursor) (xs : List ClassString) :
    Proceeds g (do
      eat '}' <|> fail .unterminatedClassStrings
      return .strings (← spanFrom mark) xs : Parser CharSet) :=
  .bind (.orElse (.of_progresses (progresses_eat _ g)) (.fail _)) fun _ =>
    .spanFrom_bind mark fun _ => .pure _

/-- Strings behind the first one, and what comes after them. -/
theorem restOfStrings_proceeds (mark : Cursor) (first : ClassString) :
    Proceeds g (do
      let rest ← many (do eat '|'; classString)
      eat '}' <|> fail .unterminatedClassStrings
      return .strings (← spanFrom mark) (first :: rest) : Parser CharSet) :=
  .bind (.many (.of_progresses progresses_barred)) fun _ => closeStrings_proceeds _ _

variable {inner : Parser CharSet} (h : Progresses inner g)

include h

/-- An operand takes up text if the classes inside do. -/
theorem progresses_classSetOperand : Progresses (classSetOperand inner) g := by
  have hescaped : Progresses escapedSet g := by
    intro s x t hx
    cases escapedSet_eq_done hx with
    | mk _ hr => exact hr.remaining_lt
  have hstrings : Progresses classStrings g := by
    intro s x t hx
    rw [classStrings, Parser.here_bind] at hx
    exact ((progresses_eatAll (List.cons_ne_nil _ _) g).bind fun _ =>
      (advances_classString g).bind fun _ => (restOfStrings_proceeds _ _).advances) s x t hx
  exact h.orElse (hescaped.orElse (hstrings.orElse (progresses_classSetCharacter g).map))

theorem progresses_operationStep (mark : Cursor) (op : SetOperation) :
    Progresses (operationStep inner mark op) g := by
  refine (progresses_eatAll (List.cons_ne_nil _ _) g).bind fun _ =>
    (Advances.sees _ _).bind fun _ => .ite (.fail _) ?_
  exact ((Advances.of_progresses (progresses_classSetOperand h)).orElse (.fail _)).bind fun _ =>
    (Proceeds.spanFrom_bind _ fun _ => .pure _).advances

theorem advances_operationChain (mark : Cursor) (op : SetOperation) (first : CharSet) :
    Advances g (operationChain inner mark op first) := by
  have hstep : Advances g (operationStep inner mark op) :=
    .of_progresses (progresses_operationStep h mark op)
  exact .bind (hstep.bind fun _ => hstep.many.bind fun _ => .pure _) fun _ => .pure _

theorem progresses_unionItem : Progresses (unionItem inner) g := by
  intro s x t hx
  rw [unionItem, Parser.here_bind] at hx
  exact (Progresses.orElse ((progresses_classSetCharacter g).bind
    fun c => (classSetRange_proceeds c _).advances) (progresses_classSetOperand h)) s x t hx

theorem union_proceeds (first : CharSet) :
    Proceeds g ((first :: ·) <$> many (unionItem inner)) :=
  .bind (.many (.of_progresses (progresses_unionItem h))) fun _ => .pure _

/-- What goes on from a first operand goes forward and does not miss. -/
theorem classSetFrom_proceeds (mark : Cursor) (first : CharSet) :
    Proceeds g (classSetFrom inner mark first) :=
  .orElse (advances_operationChain h mark _ first)
    (.orElse (advances_operationChain h mark _ first) (union_proceeds h first))

omit h

/-- Where contents do not begin there is a fault, whatever follows. -/
theorem classSetFault_fault (g : Grammar) (s : State) : ∃ e, classSetFault g s = .fault e := by
  rw [classSetFault]
  split
  · exact ⟨_, rfl⟩
  · next c hc =>
    rw [Cursor.peek_zero] at hc
    split
    · next hslash =>
      obtain rfl := eq_of_beq hslash
      have heat : eat '\\' g s = .done () { s with cursor := s.cursor.advance } :=
        eat_eq_done.mpr (State.reads_singleton.mpr ⟨hc, rfl⟩)
      rw [bind_of_done heat]
      exact ⟨_, rfl⟩
    · split <;> exact ⟨_, rfl⟩

theorem neverMisses_classSetFault : NeverMisses classSetFault := by
  intro g s h
  obtain ⟨e, he⟩ := classSetFault_fault g s
  rw [he] at h
  cases h

theorem neverMisses_union (first : CharSet) :
    NeverMisses ((first :: ·) <$> many (unionItem inner)) := by
  intro g s h
  exact neverMisses_many _ g s (map_eq_miss.mp h)

/-- A first operand always goes on, if only to the end of the contents. -/
theorem neverMisses_classSetFrom (mark : Cursor) (first : CharSet) :
    NeverMisses (classSetFrom inner mark first) :=
  .orElse _ (.orElse _ (neverMisses_union first))

theorem neverMisses_classSetContents : NeverMisses (classSetContents inner) := by
  refine neverMisses_atEnd.bind fun done => (neverMisses_sees 0 _).bind fun closes => ?_
  split
  · exact neverMisses_pure _
  · refine neverMisses_here.bind fun mark => (neverMisses_attempt _).bind ?_
    rintro (_ | c)
    · refine (neverMisses_attempt _).bind ?_
      rintro (_ | x)
      · exact neverMisses_classSetFault
      · exact neverMisses_classSetFrom mark x
    · refine (neverMisses_attempt _).bind ?_
      rintro (_ | x)
      · exact neverMisses_classSetFrom mark _
      · exact neverMisses_union x

end Sets

/-! ## Brackets

A class is its opening, its contents and its end. The end is split off because it is what a class
that lies beside others in two runs has to be followed to. -/

/-- What is left to do once the contents of a class have been read. -/
def endOfClass (mark : Cursor) (nested negated : Bool) (xs : List CharSet) : Parser CharSet := do
  closeClass nested
  if negated && xs.any CharSet.mayContainStrings then fail .negatedClassWithStrings
  else classOf mark negated xs

theorem classBody_eq (inner : Parser CharSet) (nested : Bool) :
    classBody inner nested = (do
      let mark ← here
      eat '['
      let negated ← eats '^'
      let g ← grammar
      (if g.sets then classSetContents inner else classRanges) >>=
        endOfClass mark nested negated) := by
  unfold classBody
  congr
  funext mark
  congr
  funext _
  congr
  funext negated
  congr
  funext g
  split <;> rfl

section EndOfClass

variable {g : Grammar} {s : State} {mark : Cursor} {nested negated : Bool} {xs : List CharSet}

theorem progresses_closeClass (nested : Bool) (g : Grammar) :
    Progresses (closeClass nested) g := by
  intro s x t hx
  exact (closeClass_eq_done.mp hx).remaining_lt

/-- A class is closed, or it is a fault. -/
theorem closeClass_ne_miss : closeClass nested g s ≠ .miss := by
  intro hx
  obtain ⟨-, hx⟩ := orElse_eq_miss.mp hx
  rcases bind_eq_miss.mp hx with hx | ⟨ended, u, -, hx⟩
  · cases hx
  · split at hx
    · exact absurd hx fail_ne_miss
    · exact absurd hx fail_ne_miss

theorem classOf_proceeds (mark : Cursor) (negated : Bool) (xs : List CharSet) :
    Proceeds g (classOf mark negated xs) := by
  refine .bind ⟨neverMisses_grammar g, .of_eq fun _ _ _ h => (Outcome.done.inj h).2⟩ fun _ =>
    .spanFrom_bind mark fun span => ?_
  split
  · exact .ite (.pure _) (.pure _)
  · exact .pure _

theorem endOfClass_proceeds : Proceeds g (endOfClass mark nested negated xs) :=
  .bind ⟨fun _ => closeClass_ne_miss, .of_progresses (progresses_closeClass nested g)⟩ fun _ =>
    .ite (.fail _) (classOf_proceeds mark negated xs)

theorem neverMisses_endOfClass : NeverMisses (endOfClass mark nested negated xs) :=
  fun _ => endOfClass_proceeds.ne_miss

theorem progresses_endOfClass : Progresses (endOfClass mark nested negated xs) g :=
  (progresses_closeClass nested g).bind fun _ =>
    .ite (.fail _) (classOf_proceeds mark negated xs).advances

theorem progresses_charClass (depth : Nat) (nested : Bool) (g : Grammar) :
    Progresses (charClass depth nested) g :=
  fun _ _ _ hx => (charClass_derives hx).class_remaining_lt

/-- Where no level is left, no class is read. -/
theorem charClass_zero_ne_done {t : State} {x : CharSet} :
    charClass 0 nested g s ≠ .done x t := by
  intro h
  rw [charClass, Parser.here_bind, eat_bind_eq_done] at h
  obtain ⟨u, -, h⟩ := h
  exact absurd h failAt_ne_done

end EndOfClass

end EcmaPattern.Parser
