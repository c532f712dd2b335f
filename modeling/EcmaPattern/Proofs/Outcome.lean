import EcmaPattern.Grammar.Parser
import EcmaPattern.Proofs.Reading

/-!
# Outcomes of parsers

For each combinator, when it is done and when it misses. A proof about a parser takes the parser
apart with these equivalences and never unfolds the combinators. A repetition is done exactly when
its steps follow each other in a `Chain` and the last state lets no further step be taken
(`many_eq_done`); this is where parsers have to make progress.

The equivalences have the combinator's name and the outcome: `bind_eq_done`, `orElse_eq_miss`, and
so on. They are used from left to right on a hypothesis that a parser is done, which gives the
states in between and what was read there, and from right to left to show that a parser is done.
Lemmas named `bind_of_done`, `orElse_of_miss` and the like evaluate one step where the outcome of
the first part is known.
-/

namespace EcmaPattern

/-! ## States that differ in the place only

Reading characters changes the place and nothing else, so the relation between places carries over
to states. The scope of names and the count of groups change only where a group or an alternative
begins or ends. -/

/-- The given characters lead from one state to another, and nothing else changes. -/
def State.Reads (s : State) (cs : List CodePoint) (t : State) : Prop :=
  ∃ c, s.cursor.Reads cs c ∧ t = { s with cursor := c }

namespace State.Reads

variable {s t u : State} {cs ds : List CodePoint}

theorem cursor (h : s.Reads cs t) : s.cursor.Reads cs t.cursor := by
  obtain ⟨c, hc, rfl⟩ := h
  exact hc

theorem current_eq {c : CodePoint} (h : s.Reads (c :: cs) t) : s.cursor.current = some c :=
  h.cursor.current_eq

theorem scope (h : s.Reads cs t) : t.scope = s.scope := by
  obtain ⟨c, -, rfl⟩ := h
  rfl

theorem opened (h : s.Reads cs t) : t.opened = s.opened := by
  obtain ⟨c, -, rfl⟩ := h
  rfl

theorem refl (s : State) : s.Reads [] s := ⟨s.cursor, Cursor.reads_nil.mpr rfl, rfl⟩

theorem trans (h : s.Reads cs t) (h' : t.Reads ds u) : s.Reads (cs ++ ds) u := by
  obtain ⟨c, hc, rfl⟩ := h
  obtain ⟨d, hd, rfl⟩ := h'
  exact ⟨d, hc.trans hd, rfl⟩

theorem eq_of_nil (h : s.Reads [] t) : s = t := by
  obtain ⟨c, hc, rfl⟩ := h
  rw [← Cursor.reads_nil.mp hc]

end State.Reads

/-- A reading can be cut in two at any point. -/
theorem State.reads_append {s u : State} {cs ds : List CodePoint} :
    s.Reads (cs ++ ds) u ↔ ∃ t, s.Reads cs t ∧ t.Reads ds u := by
  constructor
  · rintro ⟨c, hc, rfl⟩
    obtain ⟨d, hd, hc⟩ := Cursor.reads_append.mp hc
    exact ⟨{ s with cursor := d }, ⟨d, hd, rfl⟩, ⟨c, hc, rfl⟩⟩
  · rintro ⟨t, h, h'⟩
    exact h.trans h'

theorem State.reads_singleton {s t : State} {c : CodePoint} :
    s.Reads [c] t ↔ s.cursor.current = some c ∧ t = { s with cursor := s.cursor.advance } := by
  constructor
  · rintro ⟨d, hd, rfl⟩
    obtain ⟨hc, rfl⟩ := Cursor.reads_singleton.mp hd
    exact ⟨hc, rfl⟩
  · rintro ⟨hc, rfl⟩
    exact ⟨_, Cursor.reads_singleton.mpr ⟨hc, rfl⟩, rfl⟩

theorem State.reads_cons {s u : State} {c : CodePoint} {cs : List CodePoint} :
    s.Reads (c :: cs) u ↔ ∃ t, s.Reads [c] t ∧ t.Reads cs u := by
  rw [← List.singleton_append, State.reads_append]

/-- Plain characters can be read, whatever stands behind them. -/
theorem State.reads_of_plain {s : State} {cs : List CodePoint} {rest : Text}
    (h : cs.all CodePoint.isPlain = true) (hs : s.cursor.ahead = .ofCodePoints cs ++ rest) :
    s.Reads cs { s with
      cursor := ⟨s.cursor.index + (Text.ofCodePoints cs).length, rest, s.cursor.paired⟩ } := by
  refine ⟨_, ?_, rfl⟩
  have hreads := Cursor.reads_of_plain h s.cursor.index rest s.cursor.paired
  rwa [← hs] at hreads

/-! ## Steps in a row

A `Chain` is a list of values, each obtained by a step from the state that the one before it led to.
It serves for repetitions of a parser as well as for relations that go through a list. -/

/-- Steps that follow each other, with what each of them yields. -/
inductive Chain {α : Type} (step : State → α → State → Prop) : State → List α → State → Prop
  | nil (s : State) : Chain step s [] s
  | cons {s t u : State} {a : α} {as : List α} (head : step s a t) (tail : Chain step t as u) :
      Chain step s (a :: as) u

namespace Chain

variable {α β : Type} {step : State → α → State → Prop} {s t u : State} {as bs : List α}

/-- Chains compose. -/
theorem append (h : Chain step s as t) (h' : Chain step t bs u) : Chain step s (as ++ bs) u := by
  induction h with
  | nil s => exact h'
  | cons head _ ih => exact .cons head (ih h')

theorem single {a : α} (h : step s a t) : Chain step s [a] t := .cons h (.nil t)

/-- The steps of a chain may be weakened. -/
theorem mono {step' : State → α → State → Prop} (h : Chain step s as t)
    (hstep : ∀ s a t, step s a t → step' s a t) : Chain step' s as t := by
  induction h with
  | nil s => exact .nil s
  | cons head _ ih => exact .cons (hstep _ _ _ head) ih

end Chain

/-- A test that only accepts results shows that there is one. It lets a run on a fixed input be
evaluated. -/
theorem Outcome.exists_eq_done {α : Type} {x : Outcome α} {f : α → State → Bool}
    (h : (match x with | .done a t => f a t | _ => false) = true) :
    ∃ a t, x = .done a t ∧ f a t = true := by
  cases x with
  | done a t => exact ⟨a, t, rfl, h⟩
  | miss => cases h
  | fault f => cases h

namespace Parser

variable {α β : Type} {p q : Parser α} {f : α → Parser β} {g : Grammar} {s t : State}

/-! ## Control

The combinators that read nothing by themselves. A miss loses what has been read, a fault loses
everything, and an attempt turns a miss into a value. -/

theorem pure_eq_done {a b : α} : (pure a : Parser α) g s = .done b t ↔ a = b ∧ s = t := by
  rw [pure_apply, Outcome.done.injEq]

/-- Two parsers in a row are done if both are, the second from where the first got to. -/
theorem bind_eq_done {b : β} :
    (p >>= f) g s = .done b t ↔ ∃ a u, p g s = .done a u ∧ f a g u = .done b t := by
  rw [bind_apply]
  cases p g s with
  | done a u =>
    constructor
    · intro h
      exact ⟨a, u, rfl, h⟩
    · rintro ⟨a', u', ha, h⟩
      cases ha
      exact h
  | miss => simp
  | fault e => simp

/-- Two parsers in a row miss if either does; what the first has read by then is forgotten. -/
theorem bind_eq_miss :
    (p >>= f) g s = .miss ↔ p g s = .miss ∨ ∃ a u, p g s = .done a u ∧ f a g u = .miss := by
  rw [bind_apply]
  cases p g s with
  | done a u =>
    constructor
    · intro h
      exact .inr ⟨a, u, rfl, h⟩
    · rintro (h | ⟨a', u', ha, h⟩)
      · cases h
      · cases ha
        exact h
  | miss => simp
  | fault e => simp

/-- A fault of two parsers in a row is that of the one or of the other. -/
theorem bind_eq_fault {e : Fault} :
    (p >>= f) g s = .fault e ↔
      p g s = .fault e ∨ ∃ a u, p g s = .done a u ∧ f a g u = .fault e := by
  rw [bind_apply]
  cases p g s with
  | done a u =>
    constructor
    · intro h
      exact .inr ⟨a, u, rfl, h⟩
    · rintro (h | ⟨a', u', ha, h⟩)
      · cases h
      · cases ha
        exact h
  | miss => simp
  | fault e => simp

theorem bind_of_done {a : α} {u : State} (h : p g s = .done a u) : (p >>= f) g s = f a g u := by
  rw [bind_apply, h]

theorem bind_of_miss (h : p g s = .miss) : (p >>= f) g s = .miss := by
  rw [bind_apply, h]

theorem bind_of_fault {e : Fault} (h : p g s = .fault e) : (p >>= f) g s = .fault e := by
  rw [bind_apply, h]

/-- To map a result is to bind it, so what holds of `bind` need not be proved again. -/
theorem map_apply (f : α → β) (p : Parser α) (g : Grammar) (s : State) :
    (f <$> p) g s = (p >>= fun a => pure (f a)) g s := rfl

theorem map_eq_done {f : α → β} {b : β} :
    (f <$> p) g s = .done b t ↔ ∃ a, p g s = .done a t ∧ f a = b := by
  rw [map_apply, bind_eq_done]
  constructor
  · rintro ⟨a, u, ha, h⟩
    obtain ⟨rfl, rfl⟩ := pure_eq_done.mp h
    exact ⟨a, ha, rfl⟩
  · rintro ⟨a, ha, rfl⟩
    exact ⟨a, t, ha, rfl⟩

theorem map_eq_miss {f : α → β} : (f <$> p) g s = .miss ↔ p g s = .miss := by
  rw [map_apply, bind_apply]
  cases p g s <;> simp [pure_apply]

/-- The second parser is run only if the first misses, and from the same state. -/
theorem orElse_eq_done {a : α} :
    (p <|> q) g s = .done a t ↔
      p g s = .done a t ∨ p g s = .miss ∧ q g s = .done a t := by
  rw [orElse_apply]
  cases p g s <;> simp

theorem orElse_eq_miss : (p <|> q) g s = .miss ↔ p g s = .miss ∧ q g s = .miss := by
  rw [orElse_apply]
  cases p g s <;> simp

theorem orElse_of_miss (h : p g s = .miss) : (p <|> q) g s = q g s := by
  rw [orElse_apply, h]

theorem orElse_of_done {a : α} (h : p g s = .done a t) : (p <|> q) g s = .done a t := by
  rw [orElse_apply, h]

theorem orElse_of_fault {e : Fault} (h : p g s = .fault e) : (p <|> q) g s = .fault e := by
  rw [orElse_apply, h]

/-- An attempt is done with a value, or with none where the parser misses. -/
theorem attempt_eq_done {o : Option α} :
    attempt p g s = .done o t ↔
      (∃ a, o = some a ∧ p g s = .done a t) ∨ o = none ∧ p g s = .miss ∧ s = t := by
  rw [attempt]
  cases p g s with
  | done a u =>
    constructor
    · intro h
      cases h
      exact .inl ⟨a, rfl, rfl⟩
    · rintro (⟨a', rfl, h⟩ | ⟨-, h, -⟩)
      · cases h
        rfl
      · cases h
  | miss => simp [eq_comm]
  | fault e => simp

theorem attempt_of_miss (h : p g s = .miss) : attempt p g s = .done none s := by
  rw [attempt, h]

theorem attempt_of_done {a : α} (h : p g s = .done a t) : attempt p g s = .done (some a) t := by
  rw [attempt, h]

theorem attempt_of_fault {e : Fault} (h : p g s = .fault e) : attempt p g s = .fault e := by
  rw [attempt, h]

/-- An attempt turns a miss into a result. -/
theorem attempt_ne_miss : attempt p g s ≠ .miss := by
  rw [attempt]
  cases p g s <;> simp

/-- What follows a condition is done only under the condition. -/
theorem require_bind_eq_done {c : Bool} {f : Unit → Parser β} {b : β} :
    (require c >>= f) g s = .done b t ↔ c = true ∧ f () g s = .done b t := by
  cases c
  · simp [require, miss, bind_apply]
  · simp [require, bind_apply, pure_apply]

theorem require_bind_eq_miss {c : Bool} {f : Unit → Parser β} :
    (require c >>= f) g s = .miss ↔ c = false ∨ f () g s = .miss := by
  cases c
  · simp [require, miss, bind_apply]
  · simp [require, bind_apply, pure_apply]

theorem grammar_bind (f : Grammar → Parser β) : (grammar >>= f) g s = f g g s := rfl

theorem here_bind (f : Cursor → Parser β) : (here >>= f) g s = f s.cursor g s := rfl

theorem supports_bind (feature : Feature) (f : Bool → Parser β) :
    (supports feature >>= f) g s = f (g.edition.supports feature) g s := rfl

theorem sees_bind (k : Nat) (c : CodePoint) (f : Bool → Parser β) :
    (sees k c >>= f) g s = f (s.cursor.peek k == some c) g s := rfl

theorem spanFrom_bind (mark : Cursor) (f : Span → Parser β) :
    (spanFrom mark >>= f) g s = f (Span.between mark s.cursor) g s := rfl

theorem openCapture_bind (name : Option GroupName) (f : Nat → Parser β) :
    (openCapture name >>= f) g s =
      f (s.opened + 1) g
        { s with
          opened := s.opened + 1
          scope := match name with
            | some n => s.scope.declare n (s.opened + 1)
            | none => s.scope } := by
  cases name <;> rfl

/-- A fault is no success. -/
theorem fail_ne_done {cause : Cause} {a : α} : (fail cause : Parser α) g s ≠ .done a t := nofun

theorem failAt_ne_done {cause : Cause} {index : Nat} {a : α} :
    (failAt cause index : Parser α) g s ≠ .done a t := nofun

theorem fail_ne_miss {cause : Cause} : (fail cause : Parser α) g s ≠ .miss := nofun

theorem failAt_ne_miss {cause : Cause} {index : Nat} :
    (failAt cause index : Parser α) g s ≠ .miss := nofun

/-- An alternative that ends in a fault is done only if it is done before. -/
theorem orElse_fail_eq_done {cause : Cause} {a : α} :
    (p <|> fail cause : Parser α) g s = .done a t ↔ p g s = .done a t := by
  rw [orElse_eq_done]
  simp [fail_ne_done]

/-! ## Characters

The combinators that read one character or several given ones. All of them come down to `select`, so
whether one of them reads something is a question about the character ahead. -/

/-- To select is to read one character that has a value. -/
theorem select_eq_done {value? : CodePoint → Option α} {a : α} :
    select value? g s = .done a t ↔ ∃ c, value? c = some a ∧ s.Reads [c] t := by
  rw [select]
  constructor
  · intro h
    split at h
    · next b hb =>
      cases h
      obtain ⟨c, hc, hv⟩ := Option.bind_eq_some_iff.mp hb
      exact ⟨c, hv, State.reads_singleton.mpr ⟨hc, rfl⟩⟩
    · cases h
  · rintro ⟨c, hv, hr⟩
    obtain ⟨hc, rfl⟩ := State.reads_singleton.mp hr
    rw [hc, Option.bind_some, hv]

theorem select_eq_miss {value? : CodePoint → Option α} :
    select value? g s = .miss ↔ s.cursor.current.bind value? = none := by
  rw [select]
  cases s.cursor.current.bind value? <;> simp

theorem satisfy_eq_done {test : CodePoint → Bool} {c : CodePoint} :
    satisfy test g s = .done c t ↔ test c = true ∧ s.Reads [c] t := by
  rw [satisfy]
  constructor
  · intro h
    split at h
    · next d hd =>
      split at h
      · next ht =>
        cases h
        exact ⟨ht, State.reads_singleton.mpr ⟨hd, rfl⟩⟩
      · cases h
    · cases h
  · rintro ⟨ht, hr⟩
    obtain ⟨hc, rfl⟩ := State.reads_singleton.mp hr
    rw [hc]
    exact if_pos ht

theorem satisfy_eq_miss {test : CodePoint → Bool} :
    satisfy test g s = .miss ↔ ∀ c, s.cursor.current = some c → test c = false := by
  rw [satisfy]
  cases hc : s.cursor.current with
  | none => simp
  | some d => cases ht : test d <;> simp [ht]

/-- A test is a selection, so what holds of selections holds of it. -/
theorem satisfy_eq_select (test : CodePoint → Bool) :
    satisfy test = select (Option.guard test) := by
  funext g s
  rw [satisfy, select]
  cases s.cursor.current with
  | none => rfl
  | some c =>
    rw [Option.bind_some, Option.guard]
    dsimp only
    split <;> rfl

theorem eat_eq_done {c : CodePoint} {x : Unit} : eat c g s = .done x t ↔ s.Reads [c] t := by
  rw [eat, bind_eq_done]
  constructor
  · rintro ⟨d, u, h, h'⟩
    obtain ⟨hd, hr⟩ := satisfy_eq_done.mp h
    obtain ⟨-, rfl⟩ := pure_eq_done.mp h'
    rwa [← eq_of_beq hd]
  · intro h
    exact ⟨c, t, satisfy_eq_done.mpr ⟨beq_self_eq_true c, h⟩, rfl⟩

theorem eat_eq_miss {c : CodePoint} : eat c g s = .miss ↔ s.cursor.current ≠ some c := by
  rw [eat, bind_eq_miss, satisfy_eq_miss]
  constructor
  · rintro (h | ⟨d, u, -, h⟩)
    · intro hc
      exact beq_eq_false_iff_ne.mp (h c hc) rfl
    · cases h
  · intro h
    refine .inl fun d hd => beq_eq_false_iff_ne.mpr ?_
    rintro rfl
    exact h hd

theorem eatAll_eq_done {cs : List Char} {x : Unit} :
    eatAll cs g s = .done x t ↔ s.Reads (cs.map CodePoint.ofChar) t := by
  rw [eatAll, State.Reads]
  cases h : s.cursor.eat? (cs.map CodePoint.ofChar) with
  | none => simp [Cursor.Reads, h]
  | some c => simp [Cursor.Reads, h, eq_comm]

theorem eatAll_eq_miss {cs : List Char} :
    eatAll cs g s = .miss ↔ s.cursor.eat? (cs.map CodePoint.ofChar) = none := by
  rw [eatAll]
  cases s.cursor.eat? (cs.map CodePoint.ofChar) <;> simp

/-- Several characters are read one after the other. -/
theorem eatAll_cons (c : Char) (cs : List Char) :
    eatAll (c :: cs) = (do eat (.ofChar c); eatAll cs) := by
  funext g s
  rw [eatAll, List.map_cons, Cursor.eat?]
  by_cases hc : s.cursor.current = some (.ofChar c)
  · have heat : eat (.ofChar c) g s = .done () { s with cursor := s.cursor.advance } :=
      eat_eq_done.mpr (State.reads_singleton.mpr ⟨hc, rfl⟩)
    rw [if_pos hc, bind_of_done heat]
    rfl
  · rw [if_neg hc, bind_of_miss (eat_eq_miss.mpr hc)]

/-- The character was there and was read, or it was not and nothing was. -/
theorem eats_eq_done {c : CodePoint} {b : Bool} :
    eats c g s = .done b t ↔
      b = true ∧ s.Reads [c] t ∨ b = false ∧ s.cursor.current ≠ some c ∧ s = t := by
  rw [eats, bind_eq_done]
  constructor
  · rintro ⟨o, u, h, h'⟩
    obtain ⟨rfl, rfl⟩ := pure_eq_done.mp h'
    rcases attempt_eq_done.mp h with ⟨x, rfl, he⟩ | ⟨rfl, he, rfl⟩
    · exact .inl ⟨rfl, eat_eq_done.mp he⟩
    · exact .inr ⟨rfl, eat_eq_miss.mp he, rfl⟩
  · rintro (⟨rfl, h⟩ | ⟨rfl, h, rfl⟩)
    · exact ⟨some (), t, attempt_of_done (eat_eq_done.mpr h), rfl⟩
    · exact ⟨none, s, attempt_of_miss (eat_eq_miss.mpr h), rfl⟩

theorem eats_of_ne {c : CodePoint} (h : s.cursor.current ≠ some c) : eats c g s = .done false s :=
  eats_eq_done.mpr (.inr ⟨rfl, h, rfl⟩)

theorem eat_bind_eq_done {c : CodePoint} {f : Unit → Parser β} {b : β} :
    (eat c >>= f) g s = .done b t ↔ ∃ u, s.Reads [c] u ∧ f () g u = .done b t := by
  rw [bind_eq_done]
  constructor
  · rintro ⟨_, u, hc, h⟩
    exact ⟨u, eat_eq_done.mp hc, h⟩
  · rintro ⟨u, hc, h⟩
    exact ⟨(), u, eat_eq_done.mpr hc, h⟩

theorem eat_bind_eq_miss {c : CodePoint} {f : Unit → Parser β} :
    (eat c >>= f) g s = .miss ↔
      s.cursor.current ≠ some c ∨ ∃ u, s.Reads [c] u ∧ f () g u = .miss := by
  rw [bind_eq_miss, eat_eq_miss]
  constructor
  · rintro (hc | ⟨_, u, hc, h⟩)
    · exact .inl hc
    · exact .inr ⟨u, eat_eq_done.mp hc, h⟩
  · rintro (hc | ⟨u, hc, h⟩)
    · exact .inl hc
    · exact .inr ⟨(), u, eat_eq_done.mpr hc, h⟩

theorem eatAll_bind_eq_done {cs : List Char} {f : Unit → Parser β} {b : β} :
    (eatAll cs >>= f) g s = .done b t ↔
      ∃ u, s.Reads (cs.map CodePoint.ofChar) u ∧ f () g u = .done b t := by
  rw [bind_eq_done]
  constructor
  · rintro ⟨_, u, hc, h⟩
    exact ⟨u, eatAll_eq_done.mp hc, h⟩
  · rintro ⟨u, hc, h⟩
    exact ⟨(), u, eatAll_eq_done.mpr hc, h⟩

/-- After a character that must stand there, or else is a fault. -/
theorem eat_or_fail_bind_eq_done {c : CodePoint} {cause : Cause} {f : Unit → Parser β} {b : β} :
    ((eat c <|> fail cause) >>= f) g s = .done b t ↔
      ∃ u, s.Reads [c] u ∧ f () g u = .done b t := by
  rw [← eat_bind_eq_done, bind_eq_done, bind_eq_done]
  simp only [orElse_fail_eq_done]

/-! ## Repetition

A repetition is bounded by the number of units ahead. For a parser that `Progresses` the bound is
never reached, since each run takes up at least one unit, so that the repetition ends where its
parser misses or is at fault and nowhere else. Without progress nothing of the kind holds, and no
parser of the grammar repeats one that makes none. -/

/-- Whatever the parser yields under the grammar, it leaves less to read. -/
def Progresses (p : Parser α) (g : Grammar) : Prop :=
  ∀ s a t, p g s = .done a t → t.cursor.remaining < s.cursor.remaining

theorem upTo_succ_apply (p : Parser α) (count : Nat) (g : Grammar) (s : State) :
    upTo p (count + 1) g s =
      match p g s with
      | .done a t =>
        match upTo p count g t with
        | .done as u => .done (a :: as) u
        | .miss => .miss
        | .fault e => .fault e
      | .miss => .done [] s
      | .fault e => .fault e := rfl

/-- A repetition is an attempt, after which the rest follows or nothing does. -/
theorem upTo_succ_eq (p : Parser α) (count : Nat) :
    upTo p (count + 1) = (attempt p >>= fun o => match o with
      | some a => (a :: ·) <$> upTo p count
      | none => pure []) := by
  funext g s
  rw [upTo_succ_apply, bind_apply, attempt]
  cases p g s with
  | done a t =>
    simp only [map_apply, bind_apply]
    cases upTo p count g t <;> rfl
  | miss => rfl
  | fault e => rfl

/-- A bounded repetition is a chain of runs, each from where the last one got to. -/
theorem chain_of_upTo {count : Nat} {as : List α} (h : upTo p count g s = .done as t) :
    Chain (fun s a t => p g s = .done a t) s as t := by
  induction count generalizing s as with
  | zero =>
    obtain ⟨rfl, rfl⟩ := pure_eq_done.mp h
    exact .nil s
  | succ count ih =>
    rw [upTo_succ_apply] at h
    split at h
    · next a u ha =>
      split at h
      · next as' v has =>
        cases h
        exact .cons ha (ih has)
      · cases h
      · cases h
    · cases h
      exact .nil _
    · cases h

/-- A repetition is a chain of runs, each from where the last one got to. -/
theorem chain_of_many {as : List α} (h : many p g s = .done as t) :
    Chain (fun s a t => p g s = .done a t) s as t :=
  chain_of_upTo h

/-- With more repetitions allowed than there is to read, a repetition ends with a miss. -/
theorem upTo_eq_done (hp : Progresses p g) {count : Nat} {as : List α}
    (hcount : s.cursor.remaining < count) :
    upTo p count g s = .done as t ↔
      Chain (fun s a t => p g s = .done a t) s as t ∧ p g t = .miss := by
  -- each step leaves less to read, so the count is never used up
  induction count generalizing s as with
  | zero => omega
  | succ count ih =>
    rw [upTo_succ_apply]
    cases hs : p g s with
    | done a u =>
      have hlt := hp s a u hs
      have ih := @ih u
      constructor
      · intro h
        cases has : upTo p count g u with
        | done as' v =>
          simp only [has, Outcome.done.injEq] at h
          obtain ⟨rfl, rfl⟩ := h
          obtain ⟨hchain, hmiss⟩ := (ih (by omega)).mp has
          exact ⟨.cons hs hchain, hmiss⟩
        | miss => simp [has] at h
        | fault e => simp [has] at h
      · rintro ⟨hchain, hmiss⟩
        cases hchain with
        | nil => rw [hs] at hmiss; cases hmiss
        | cons head tail =>
          rw [hs] at head
          cases head
          simp only [(ih (by omega)).mpr ⟨tail, hmiss⟩]
    | miss =>
      constructor
      · intro h
        cases h
        exact ⟨.nil _, hs⟩
      · rintro ⟨hchain, -⟩
        cases hchain with
        | nil => rfl
        | cons head tail => rw [hs] at head; cases head
    | fault e =>
      constructor
      · intro h
        cases h
      · rintro ⟨hchain, hmiss⟩
        cases hchain with
        | nil => rw [hs] at hmiss; cases hmiss
        | cons head tail => rw [hs] at head; cases head

/-- The repetition of a parser that makes progress is a chain of runs that ends where the parser
misses. -/
theorem many_eq_done (hp : Progresses p g) {as : List α} :
    many p g s = .done as t ↔ Chain (fun s a t => p g s = .done a t) s as t ∧ p g t = .miss :=
  upTo_eq_done hp (Nat.lt_succ_self _)

theorem many_none (h : p g s = .miss) : many p g s = .done [] s := by
  rw [many, upTo_succ_apply, h]

/-- A run in front of a repetition is part of the repetition. -/
theorem many_cons (hp : Progresses p g) {u : State} {a : α} {as : List α}
    (h : p g s = .done a u) (has : many p g u = .done as t) :
    many p g s = .done (a :: as) t := by
  obtain ⟨hchain, hmiss⟩ := (many_eq_done hp).mp has
  exact (many_eq_done hp).mpr ⟨.cons h hchain, hmiss⟩

/-- If a chain of runs ends at a fault, so does the repetition, since there are enough repetitions
to get there. -/
theorem upTo_of_chain_of_fault (hp : Progresses p g) {count : Nat} {as : List α} {e : Fault}
    (hcount : s.cursor.remaining < count) (h : Chain (fun s a t => p g s = .done a t) s as t)
    (ht : p g t = .fault e) : upTo p count g s = .fault e := by
  induction h generalizing count with
  | nil s =>
    cases count with
    | zero => omega
    | succ count => simp only [upTo_succ_apply, ht]
  | @cons s u t a as head tail ih =>
    cases count with
    | zero => omega
    | succ count =>
      have hlt : u.cursor.remaining < count :=
        Nat.lt_of_lt_of_le (hp s a u head) (Nat.le_of_lt_succ hcount)
      simp only [upTo_succ_apply, head, ih hlt ht]

/-- A fault of a repetition is a fault of its parser, behind a chain of runs. -/
theorem chain_of_upTo_fault {count : Nat} {e : Fault} (h : upTo p count g s = .fault e) :
    ∃ as t, Chain (fun s a t => p g s = .done a t) s as t ∧ p g t = .fault e := by
  induction count generalizing s with
  | zero => cases h
  | succ count ih =>
    rw [upTo_succ_apply] at h
    split at h
    · next a u ha =>
      split at h
      · cases h
      · cases h
      · next hrest =>
        cases h
        obtain ⟨as, t, hchain, ht⟩ := ih hrest
        exact ⟨a :: as, t, .cons ha hchain, ht⟩
    · cases h
    · next ha =>
      cases h
      exact ⟨[], s, .nil s, ha⟩

/-- A repetition is at fault where one of its steps is. -/
theorem many_of_chain_of_fault (hp : Progresses p g) {as : List α} {e : Fault}
    (h : Chain (fun s a t => p g s = .done a t) s as t) (ht : p g t = .fault e) :
    many p g s = .fault e :=
  upTo_of_chain_of_fault hp (Nat.lt_succ_self _) h ht

theorem progresses_select (value? : CodePoint → Option α) (g : Grammar) :
    Progresses (select value?) g := by
  intro s a t h
  obtain ⟨c, -, hr⟩ := select_eq_done.mp h
  exact hr.cursor.remaining_lt (List.cons_ne_nil c [])

theorem progresses_satisfy (test : CodePoint → Bool) (g : Grammar) :
    Progresses (satisfy test) g := by
  intro s c t h
  obtain ⟨-, hr⟩ := satisfy_eq_done.mp h
  exact hr.cursor.remaining_lt (List.cons_ne_nil c [])

/-! ## Parsers that find no faults

Some parsers can only be done or miss. Where one of them is followed by a fault, that fault is the
first one, so its place is known. -/

theorem pure_ne_fault {a : α} (e : Fault) : (pure a : Parser α) g s ≠ .fault e := nofun

/-- Parsers that find no fault find none in a row. -/
theorem bind_ne_fault (hp : ∀ e, p g s ≠ .fault e) (hf : ∀ a u e, f a g u ≠ .fault e)
    (e : Fault) : (p >>= f) g s ≠ .fault e := by
  intro h
  rw [bind_apply] at h
  split at h
  · exact hf _ _ _ h
  · cases h
  · next e' he => exact hp e' he

theorem require_bind_ne_fault {c : Bool} {f : Unit → Parser β} (hf : ∀ e, f () g s ≠ .fault e)
    (e : Fault) : (require c >>= f) g s ≠ .fault e := by
  cases c
  · nofun
  · exact hf e

theorem select_ne_fault {value? : CodePoint → Option α} (e : Fault) :
    select value? g s ≠ .fault e := by
  rw [select]
  cases s.cursor.current.bind value? <;> simp

theorem satisfy_ne_fault {test : CodePoint → Bool} (e : Fault) : satisfy test g s ≠ .fault e := by
  rw [satisfy]
  split
  · split <;> nofun
  · nofun

theorem eatAll_ne_fault {cs : List Char} (e : Fault) : eatAll cs g s ≠ .fault e := by
  rw [eatAll]
  cases s.cursor.eat? (cs.map CodePoint.ofChar) <;> nofun

/-- A parser that finds no fault finds none when it is repeated. -/
theorem upTo_ne_fault (hp : ∀ s e, p g s ≠ .fault e) (count : Nat) (s : State) (e : Fault) :
    upTo p count g s ≠ .fault e := by
  induction count generalizing s e with
  | zero => nofun
  | succ count ih =>
    rw [upTo_succ_apply]
    split
    · next a u _ =>
      split
      · simp
      · simp
      · next f hf => exact absurd hf (ih u f)
    · simp
    · next f hf => exact absurd hf (hp s f)

theorem many1_ne_fault (hp : ∀ s e, p g s ≠ .fault e) (s : State) (e : Fault) :
    many1 p g s ≠ .fault e := by
  refine bind_ne_fault (hp s) (fun a u => ?_) e
  have hmany : ∀ e, many p g u ≠ .fault e := upTo_ne_fault hp _ u
  exact bind_ne_fault hmany fun _ _ => pure_ne_fault

end Parser

end EcmaPattern
