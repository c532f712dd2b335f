import EcmaPattern.Proofs.Fragments
import EcmaPattern.Proofs.SetGrammar.Operands
import EcmaPattern.Proofs.Window
import EcmaPattern.Routine.Term

/-!
# Routines beside parsers

A routine is compared with a parser by running both from one memory: `Follows` says that they yield
the same value or the same fault or both miss, that the routine never runs out of fuel, and where it
has got to. Three cases of it matter. A routine that `Returns` is back where it was if it misses,
one that `Strays` may then stand somewhere else, and one that `Completes` does not miss. These are
closed under the combinators: what comes after something has been read may stray, and going back to
the offset at which reading began makes a routine of it that returns (`Strays.backTo`).

Key lemmas:

* `Returns.bind` and `Strays.bind`, for routines in a row;
* `Strays.backTo`, which makes a routine that goes astray one that returns;
* `collectFor_follows`, for loops with fuel;
* `satisfy_returns` and `eat_returns`, on which everything that reads rests.
-/

namespace EcmaPattern

theorem Slice.textTo_cursorAt {s : Slice} {paired : Bool} {i j : Nat} (hj : j ≤ s.stop) :
    (s.cursorAt paired i).textTo j = s.text.slice i j := by
  show ((s.text.take s.stop).drop i).take (j - i) = s.text.slice i j
  rcases Nat.le_total i j with h | h
  · rw [List.take_drop, List.take_take, Nat.add_sub_cancel' h, Nat.min_eq_left hj]
    rfl
  · rw [Nat.sub_eq_zero_of_le h, List.take_zero, s.text.slice_eq_nil h]

namespace Parser

theorem satisfy_apply (test : CodePoint → Bool) (g : Grammar) (s : State) :
    satisfy test g s =
      match s.cursor.current.filter test with
      | some c => .done c { s with cursor := s.cursor.advance }
      | none => .miss := by
  rw [satisfy]
  cases s.cursor.current with
  | none => rfl
  | some c =>
    rw [Option.filter_some]
    dsimp only
    split <;> rfl

theorem eat_apply (c : CodePoint) (g : Grammar) (s : State) :
    eat c g s =
      match s.cursor.eat? [c] with
      | some d => .done () { s with cursor := d }
      | none => .miss := by
  cases h : s.cursor.eat? [c] with
  | some d => exact eat_eq_done.mpr ⟨d, h, rfl⟩
  | none =>
    refine eat_eq_miss.mpr fun hc => ?_
    rw [Cursor.eat?, if_pos hc] at h
    cases h

theorem eat_of_current {c : CodePoint} {g : Grammar} {s : State}
    (h : s.cursor.current = some c) :
    eat c g s = .done () { s with cursor := s.cursor.advance } :=
  eat_eq_done.mpr (State.reads_singleton.mpr ⟨h, rfl⟩)

theorem attempt_eq_some {α : Type} {p : Parser α} {g : Grammar} {s t : State} {a : α} :
    attempt p g s = .done (some a) t ↔ p g s = .done a t := by
  simp [attempt_eq_done]

theorem attempt_eq_none {α : Type} {p : Parser α} {g : Grammar} {s t : State} :
    attempt p g s = .done none t ↔ p g s = .miss ∧ s = t := by
  simp [attempt_eq_done]

theorem bind_congr {α β : Type} {p q : Parser α} {f : α → Parser β} {g : Grammar} {s : State}
    (h : p g s = q g s) : (p >>= f) g s = (q >>= f) g s := by
  rw [bind_apply, bind_apply, h]

theorem map_congr {α β : Type} {p q : Parser α} {g : Grammar} {s : State} {c : α → β}
    (h : p g s = q g s) : (c <$> p) g s = (c <$> q) g s :=
  bind_congr h

section

variable {α β : Type} {p : Parser β} {q : Parser α} {f : α → Parser β} {g : Grammar} {s : State}

/-- How many repetitions are allowed does not matter, as long as there are enough. -/
theorem upTo_congr (hp : Progresses p g) {count : Nat} (h : s.cursor.remaining < count)
    {count' : Nat} (h' : s.cursor.remaining < count') : upTo p count g s = upTo p count' g s := by
  induction count generalizing s count' with
  | zero => omega
  | succ count ih =>
    obtain ⟨c, rfl⟩ : ∃ c, count' = c + 1 := ⟨count' - 1, by omega⟩
    rw [upTo_succ_apply, upTo_succ_apply]
    cases hb : p g s with
    | done b t =>
      have hless : t.cursor.remaining < s.cursor.remaining := hp _ _ _ hb
      have hrest : upTo p count g t = upTo p c g t := ih (by omega) (by omega)
      dsimp only
      rw [hrest]
    | miss => rfl
    | fault e => rfl

/-- If what follows a first step never misses, a repetition goes on exactly if the first step can be
taken. -/
theorem many_of_bind (hp : Progresses p g) (h : p g s = (q >>= f) g s)
    (hf : ∀ a, NeverMisses (f a)) :
    many p g s = (attempt q >>= fun o => match o with
      | some a => f a >>= fun b => (b :: ·) <$> many p
      | none => pure []) g s := by
  rw [many, upTo_succ_apply, bind_apply, attempt]
  cases hb : p g s with
  | done b u =>
    -- the rest of the repetition has less ahead, so its own bound does not matter
    have hless := hp _ _ _ hb
    rw [h] at hb
    obtain ⟨a, t, ha, hb⟩ := bind_eq_done.mp hb
    have hmany : upTo p s.cursor.remaining g u = many p g u :=
      upTo_congr hp hless (Nat.lt_succ_self _)
    rw [ha]
    dsimp only
    rw [bind_of_done hb, map_apply, bind_apply, hmany]
    cases many p g u <;> rfl
  | miss =>
    rw [h] at hb
    rcases bind_eq_miss.mp hb with ha | ⟨a, t, -, hb⟩
    · rw [ha]
      rfl
    · exact absurd hb (hf a g t)
  | fault e =>
    rw [h, bind_apply] at hb
    cases ha : q g s with
    | done a t =>
      rw [ha] at hb
      dsimp only at hb ⊢
      rw [bind_apply, hb]
    | miss => rw [ha] at hb; cases hb
    | fault e' => rw [ha] at hb; cases hb; rfl

/-- A repetition is one run and the repetition behind it, or nothing. -/
theorem many_eq (hp : Progresses p g) :
    many p g s = (attempt p >>= fun o => match o with
      | some b => (b :: ·) <$> many p
      | none => pure []) g s :=
  many_of_bind hp (by rw [bind_pure]) neverMisses_pure

end

end Parser

/-! ## From one memory to another

What changes from one memory to a later one, at several strengths: nothing, the last assertion only,
the place, the names that are awaited. Each relation is transitive, and the stronger ones imply the
weaker ones. -/

namespace Memory

/-- What a parser knows of a memory. -/
def state (m : Memory) : State := ⟨m.window.cursor, m.scope, m.opened⟩

@[simp] theorem state_cursor (m : Memory) : m.state.cursor = m.window.cursor := rfl

/-- Nothing has changed but what is known of the last assertion. -/
def Same (m n : Memory) : Prop := ∃ quantifiable, n = { m with quantifiable }

/-- Nothing has changed but where the window stands: going back restores the memory. -/
def Keeps (m n : Memory) : Prop := { n with window := n.window.rewind m.window.index } = m

/-- The window has moved ahead and the given names have been referred to. -/
structure Moves (m : Memory) (names : List GroupName) (n : Memory) : Prop where
  back : n.window.rewind m.window.index = m.window
  filled : n.window.Filled
  reaches : m.window.cursor.Reaches n.window.cursor
  depth : n.depth = m.depth
  pending : n.pending = m.pending ++ names

/-- The window has moved ahead, the given names have been referred to, and all disjunctions that
were entered have been left. -/
structure Leads (m : Memory) (names : List GroupName) (n : Memory) : Prop
    extends m.Moves names n where
  path : n.scope.path = m.scope.path

/-- The window has moved ahead and nothing else has changed. -/
structure Ahead (m n : Memory) : Prop extends m.Moves [] n where
  scope : n.scope = m.scope
  opened : n.opened = m.opened
  quantifiable : n.quantifiable = m.quantifiable

def enter (m : Memory) : Memory := { m with depth := m.depth + 1 }

def leave (m : Memory) : Memory := { m with depth := m.depth - 1 }

/-- One more capturing group is open, with a name if it has one. -/
def openCapture (name : Option GroupName) (m : Memory) : Memory :=
  { m with
    opened := m.opened + 1
    scope := match name with
      | some n => m.scope.declare n (m.opened + 1)
      | none => m.scope }

variable {m n o : Memory} {names names' : List GroupName}

theorem Same.refl (m : Memory) : m.Same m := ⟨m.quantifiable, rfl⟩

theorem Same.state (h : m.Same n) : n.state = m.state := by
  obtain ⟨a, rfl⟩ := h
  rfl

theorem Keeps.trans (h : m.Keeps n) (h' : n.Keeps o) : m.Keeps o := by
  have h' : { o with window := o.window.rewind n.window.index } = n := h'
  rw [Keeps, ← h'] at h
  exact h

/-- What has been read adds up, and so do the names that have been referred to. -/
theorem Moves.trans (h : m.Moves names n) (h' : n.Moves names' o) :
    m.Moves (names ++ names') o where
  back := by
    rw [← Window.rewind_rewind _ n.window.index, h'.back]
    exact h.back
  filled := h'.filled
  reaches := h.reaches.trans h'.reaches
  depth := h'.depth.trans h.depth
  pending := by rw [h'.pending, h.pending, List.append_assoc]

theorem Leads.trans (h : m.Leads names n) (h' : n.Leads names' o) : m.Leads (names ++ names') o :=
  ⟨h.toMoves.trans h'.toMoves, h'.path.trans h.path⟩

theorem Ahead.trans (h : m.Ahead n) (h' : n.Ahead o) : m.Ahead o :=
  ⟨h.toMoves.trans h'.toMoves, h'.scope.trans h.scope, h'.opened.trans h.opened,
    h'.quantifiable.trans h.quantifiable⟩

theorem Ahead.keeps (h : m.Ahead n) : m.Keeps n := by
  rw [Keeps, h.back, h.scope, h.opened, h.depth, h.pending, h.quantifiable, List.append_nil]

/-- Where only the window has moved, nothing has been referred to. -/
theorem Ahead.leads (h : m.Ahead n) : m.Leads [] n := ⟨h.toMoves, by rw [h.scope]⟩

theorem Ahead.trans_leads (h : m.Ahead n) (h' : n.Leads names o) : m.Leads names o :=
  h.leads.trans h'

theorem Leads.trans_ahead (h : m.Leads names n) (h' : n.Ahead o) : m.Leads names o := by
  rw [← List.append_nil names]
  exact h.trans h'.leads

theorem Ahead.refl (hm : m.window.Filled) : m.Ahead m :=
  ⟨⟨hm.rewind_index, hm, .refl _, rfl, (List.append_nil _).symm⟩, rfl, rfl, rfl⟩

theorem Moves.leave (h : m.enter.Moves names n) : m.Moves names n.leave :=
  ⟨h.back, h.filled, h.reaches, by rw [Memory.leave, h.depth]; rfl, h.pending⟩

theorem Leads.leave (h : m.enter.Leads names n) : m.Leads names n.leave :=
  ⟨h.toMoves.leave, h.path⟩

theorem Ahead.leave (h : m.enter.Ahead n) : m.Ahead n.leave :=
  ⟨h.toMoves.leave, h.scope, h.opened, h.quantifiable⟩

theorem Same.leads (h : m.Same n) (hm : m.window.Filled) : m.Leads [] n := by
  obtain ⟨a, rfl⟩ := h
  exact ⟨⟨hm.rewind_index, hm, .refl _, rfl, (List.append_nil _).symm⟩, rfl⟩

/-- What is known of the last assertion may be changed first. -/
theorem Same.leads_of_leads (h : m.Same n) (h' : n.Leads names o) : m.Leads names o := by
  obtain ⟨a, rfl⟩ := h
  exact ⟨⟨h'.back, h'.filled, h'.reaches, h'.depth, h'.pending⟩, h'.path⟩

theorem Leads.trans_same (h : m.Leads names n) (h' : n.Same o) : m.Leads names o := by
  obtain ⟨a, rfl⟩ := h'
  exact ⟨⟨h.back, h.filled, h.reaches, h.depth, h.pending⟩, h.path⟩

theorem Leads.of_openCapture {name : Option GroupName} (h : (m.openCapture name).Leads names n) :
    m.Leads names n := by
  refine ⟨⟨h.back, h.filled, h.reaches, h.depth, h.pending⟩, h.path.trans ?_⟩
  cases name <;> rfl

/-- How the names of groups are kept does not matter to where the window stands. -/
theorem Moves.of_scope {scope : GroupScope} (h : Moves { m with scope } names n) :
    m.Moves names n :=
  ⟨h.back, h.filled, h.reaches, h.depth, h.pending⟩

theorem Moves.to_scope (h : m.Moves names n) (scope : GroupScope) :
    m.Moves names { n with scope } :=
  ⟨h.back, h.filled, h.reaches, h.depth, h.pending⟩

/-- The window has been sent to a place ahead. -/
theorem ahead_of_reaches {d : Cursor} (hm : m.window.Filled) (hd : m.window.cursor.Reaches d) :
    m.Ahead { m with window := m.window.rewind d.index } where
  back := (Window.rewind_rewind _ _ _).trans hm.rewind_index
  filled := Window.filled_rewind _ _
  reaches := by
    show m.window.cursor.Reaches (m.window.rewind d.index).cursor
    rw [Window.cursor_rewind, ← Slice.eq_cursorAt_of_reaches hd]
    exact hd
  depth := rfl
  pending := (List.append_nil _).symm
  scope := rfl
  opened := rfl
  quantifiable := rfl

end Memory

/-! ## Situations

What is known of a memory: the part of the text that its window is over, how deeply it is nested,
and a bound for what lies ahead. Fuel is compared with the size of the part, so that it lasts for
every loop. -/

/-- What is known of a memory from which a routine runs: the settings, the part of the text that is
read, how many groups and classes are open and a bound for what lies ahead. A loop has fuel enough
for all of the text. -/
structure Situation where
  settings : Settings
  slice : Slice
  paired : Bool
  depth : Nat
  /-- There are fewer units ahead. -/
  room : Nat
  valid : slice.Valid
  fuel : slice.stop - slice.start < settings.fuel

/-- The memory is as the situation says. -/
structure Memory.In (m : Memory) (k : Situation) : Prop where
  within : m.window.Over k.slice k.paired
  depth : m.depth = k.depth
  room : m.window.cursor.remaining < k.room

namespace Situation

/-- Something has been read. -/
def closer (k : Situation) : Situation := { k with room := k.room - 1 }

/-- One more group or class is open. -/
def deeper (k : Situation) : Situation := { k with depth := k.depth + 1 }

/-- The place at an offset of the part of the text. -/
structure Marks (k : Situation) (mark : Cursor) (start : Nat) : Prop where
  eq_cursorAt : mark = k.slice.cursorAt k.paired start
  start_le : k.slice.start ≤ start
  le_stop : start ≤ k.slice.stop

theorem Marks.closer {k : Situation} {mark : Cursor} {start : Nat} (h : k.Marks mark start) :
    k.closer.Marks mark start :=
  ⟨h.eq_cursorAt, h.start_le, h.le_stop⟩

end Situation

namespace Memory

variable {k : Situation} {m n : Memory} {names : List GroupName}

theorem In.marks (h : m.In k) : k.Marks m.window.cursor m.window.index :=
  ⟨h.within.cursor_eq, h.within.start_le, h.within.le_stop⟩

theorem In.remaining (h : m.In k) :
    m.window.index + m.window.cursor.remaining = k.slice.stop :=
  h.within.remaining k.valid

theorem In.remaining_lt_fuel (h : m.In k) : m.window.cursor.remaining < k.settings.fuel := by
  have hfuel := k.fuel
  have hstart := h.within.start_le
  have hremaining := h.remaining
  omega

theorem In.closer (h : m.In k) (hm : m.window.cursor.remaining + 1 < k.room) : m.In k.closer :=
  ⟨h.within, h.depth, Nat.lt_sub_of_add_lt hm⟩

theorem In.enter (h : m.In k) : m.enter.In k.deeper :=
  ⟨h.within, congrArg (· + 1) h.depth, h.room⟩

theorem In.leave (h : m.In k.deeper) : m.leave.In k :=
  ⟨h.within, by rw [Memory.leave, h.depth]; rfl, h.room⟩

theorem In.same (hm : m.In k) (h : m.Same n) : n.In k := by
  obtain ⟨a, rfl⟩ := h
  exact ⟨hm.within, hm.depth, hm.room⟩

theorem Moves.remaining_le (h : m.Moves names n) :
    n.window.cursor.remaining ≤ m.window.cursor.remaining :=
  h.reaches.remaining_le

theorem In.moves (hm : m.In k) (h : m.Moves names n) : n.In k := by
  have hback : n.window = m.window.rewind n.window.index := by
    rw [← h.back]
    exact h.filled.rewind_index.symm
  obtain ⟨hwithin, -⟩ := hm.within.rewind_of_reaches k.valid h.reaches
  exact ⟨hback ▸ hwithin, h.depth.trans hm.depth, Nat.lt_of_le_of_lt h.remaining_le hm.room⟩

theorem In.ahead (hm : m.In k) (h : m.Ahead n) : n.In k := hm.moves h.toMoves

theorem In.state_advance (hm : m.In k) :
    state { m with window := m.window.advance } =
      { m.state with cursor := m.window.cursor.advance } := by
  rw [state, hm.within.filled.cursor_advance]
  rfl

theorem In.eat_of_current (hm : m.In k) {c : CodePoint} (hc : m.window.cursor.current = some c)
    (g : Grammar) :
    Parser.eat c g m.state = .done () (state { m with window := m.window.advance }) := by
  rw [hm.state_advance]
  exact Parser.eat_of_current hc

theorem In.current_advance (hm : m.In k) :
    m.window.advance.cursor.current = m.window.cursor.peek 1 := by
  rw [Cursor.peek_succ, Cursor.peek_zero, hm.within.filled.cursor_advance]

theorem In.remaining_advance (hm : m.In k) {c : CodePoint}
    (hc : m.window.cursor.current = some c) :
    m.window.advance.cursor.remaining < m.window.cursor.remaining := by
  rw [hm.within.filled.cursor_advance]
  exact (Cursor.reads_singleton.mpr ⟨hc, rfl⟩).remaining_lt (List.cons_ne_nil _ _)

theorem In.index_advance (hm : m.In k) {c : CodePoint} (hc : m.window.cursor.current = some c) :
    m.window.advance.index = m.window.index + c.width := by
  rw [hm.within.filled.advance_eq]
  exact (Cursor.current_eq_some hc).2.1

/-- The routine may go past the character ahead, and stays where it can read. -/
theorem In.ahead_advance (hm : m.In k) :
    m.Ahead { m with window := m.window.advance } := by
  rw [hm.within.filled.advance_eq]
  exact ahead_of_reaches hm.within.filled m.window.cursor.reaches_advance

end Memory

namespace Routine

/-! ## Following a parser

The general relation, with a parameter for what holds of the memory behind a miss. -/

/-- One routine is run after the other, in the memory that the first one left. -/
theorem bind_apply {α β : Type} (r : Routine α) (q : α → Routine β) (σ : Settings) (m : Memory) :
    (r >>= q) σ m =
      match r σ m with
      | .done a n => q a σ n
      | .miss n => .miss n
      | .fault f => .fault f
      | .exhausted => .exhausted := rfl

/-- The second routine is run in the memory that the first one left when it missed. -/
theorem orElse_apply {α : Type} (r q : Routine α) (σ : Settings) (m : Memory) :
    (r <|> q) σ m =
      match r σ m with
      | .miss n => q σ n
      | result => result := rfl

section

variable {α : Type}

/-- A parser and a routine come to the same, the routine in a memory of the given kind. -/
inductive Matches (D : α → Memory → Prop) (M : Memory → Prop) : Outcome α → Result α → Prop
  | done {a : α} {n : Memory} (h : D a n) : Matches D M (.done a n.state) (.done a n)
  | miss {n : Memory} (h : M n) : Matches D M .miss (.miss n)
  | fault (f : Fault) : Matches D M (.fault f) (.fault f)

theorem Matches.of_state {D : α → Memory → Prop} {M : Memory → Prop} {a : α} {s : State}
    {n : Memory}
    (hs : n.state = s) (h : D a n) : Matches D M (.done a s) (.done a n) := hs ▸ .done h

theorem Matches.mono {D D' : α → Memory → Prop} {M M' : Memory → Prop} {x : Outcome α}
    {y : Result α} (h : Matches D M x y) (hD : ∀ a n, D a n → D' a n) (hM : ∀ n, M n → M' n) :
    Matches D' M' x y := by
  cases h with
  | done hd => exact .done (hD _ _ hd)
  | miss hn => exact .miss (hM _ hn)
  | fault e => exact .fault e

/-- From a memory in the situation, the routine does what the parser does. It is done in a memory of
one kind and misses in one of another kind. -/
def Follows (k : Situation) (D : α → Memory → Prop) (M : Memory → Prop) (m : Memory) (p : Parser α)
    (r : Routine α) : Prop :=
  m.In k → Matches D M (p k.settings.grammar m.state) (r k.settings m)

/-- The routine follows the parser and changes nothing but the place of the window, and if it
misses, not even that. -/
def Returns (k : Situation) (m : Memory) (p : Parser α) (r : Routine α) : Prop :=
  Follows k (fun _ => m.Ahead) (· = m) m p r

/-- The routine follows the parser and changes nothing but the place of the window. -/
def Strays (k : Situation) (m : Memory) (p : Parser α) (r : Routine α) : Prop :=
  Follows k (fun _ => m.Ahead) m.Keeps m p r

/-- The routine follows the parser, which does not miss, and changes nothing but the place of the
window. -/
def Completes (k : Situation) (m : Memory) (p : Parser α) (r : Routine α) : Prop :=
  Follows k (fun _ => m.Ahead) (fun _ => False) m p r

/-- The routine follows the parser, and awaits the groups of the names that its value refers to. -/
def Refers (k : Situation) (names : α → List GroupName) (M : Memory → Prop) (m : Memory)
    (p : Parser α) (r : Routine α) : Prop :=
  Follows k (fun a => m.Leads (names a)) M m p r

end

variable {α β : Type} {k : Situation} {m n : Memory} {D D' : α → Memory → Prop}
  {E : β → Memory → Prop} {M M' : Memory → Prop} {p p' : Parser α} {r r' : Routine α}
  {f : α → Parser β} {q : α → Routine β}

namespace Follows

theorem mono (h : Follows k D M m p r) (hD : ∀ a n, m.In k → D a n → D' a n)
    (hM : ∀ n, m.In k → M n → M' n) : Follows k D' M' m p r :=
  fun hm => (h hm).mono (fun a n => hD a n hm) fun n => hM n hm

/-- Where there is no miss, it does not matter what a miss would do. -/
theorem of_never (h : Follows k D (fun _ => False) m p r) : Follows k D M m p r :=
  h.mono (fun _ _ _ => id) fun _ _ => False.elim

theorem congr (hp : p k.settings.grammar m.state = p' k.settings.grammar m.state)
    (h : Follows k D M m p' r) : Follows k D M m p r := by
  intro hm
  rw [hp]
  exact h hm

theorem bind (h : Follows k D M m p r)
    (hfq : ∀ a n, m.In k → p k.settings.grammar m.state = .done a n.state → D a n →
      Matches E M (f a k.settings.grammar n.state) (q a k.settings n)) :
    Follows k E M m (p >>= f) (r >>= q) := by
  intro hm
  have h := h hm
  rw [Parser.bind_apply, bind_apply]
  generalize hp : p k.settings.grammar m.state = x at h ⊢
  generalize r k.settings m = y at h ⊢
  cases h with
  | done hd => exact hfq _ _ hm hp hd
  | miss hn => exact .miss hn
  | fault e => exact .fault e

theorem orElse (h : Follows k D (· = m) m p r) (h' : Follows k D M m p' r') :
    Follows k D M m (p <|> p') (r <|> r') := by
  intro hm
  have h := h hm
  rw [Parser.orElse_apply, orElse_apply]
  generalize p k.settings.grammar m.state = x at h ⊢
  generalize r k.settings m = y at h ⊢
  cases h with
  | done hd => exact .done hd
  | miss hn =>
    obtain rfl := hn
    exact h' hm
  | fault e => exact .fault e

/-- What is known of a value because the parser gives it. -/
theorem and_done {P : α → Prop} (h : Follows k D M m p r)
    (hP : ∀ a (n : Memory), m.In k → p k.settings.grammar m.state = .done a n.state → P a) :
    Follows k (fun a n => D a n ∧ P a) M m p r := by
  intro hm
  have h := h hm
  generalize hp : p k.settings.grammar m.state = x at h ⊢
  generalize r k.settings m = y at h ⊢
  cases h with
  | done hd => exact .done ⟨hd, hP _ _ hm hp⟩
  | miss hn => exact .miss hn
  | fault e => exact .fault e

/-- An attempt never misses; where it finds nothing, the memory has to look the same to parsers. -/
theorem attempt (h : Follows k D M m p r) (hM : ∀ n : Memory, M n → n.state = m.state) :
    Follows k (fun o n => o.elim (M n) (D · n)) (fun _ => False) m (Parser.attempt p)
      (Routine.attempt r) := by
  intro hm
  have h := h hm
  rw [Parser.attempt, Routine.attempt]
  generalize p k.settings.grammar m.state = x at h ⊢
  generalize r k.settings m = y at h ⊢
  cases h with
  | done hd => exact .done hd
  | miss hn => exact .of_state (hM _ hn) hn
  | fault e => exact .fault e

/-- Where a memory has kept everything but its place, going back restores it. -/
theorem backTo (h : Follows k D m.Keeps n p r) :
    Follows k D (· = m) n p (r <|> Routine.backTo m.window.index) := by
  intro hn
  have h := h hn
  rw [orElse_apply]
  generalize p k.settings.grammar n.state = x at h ⊢
  generalize r k.settings n = y at h ⊢
  cases h with
  | done hd => exact .done hd
  | miss ho => exact .miss ho
  | fault e => exact .fault e

end Follows

/-! ### What follows what

Between the three cases. A row of two strays as soon as the first has read something and the second
misses. -/

theorem Returns.strays (h : Returns k m p r) : Strays k m p r :=
  h.mono (fun _ _ _ hn => hn) fun n hm hn => by
    obtain rfl := hn
    exact (Memory.Ahead.refl hm.within.filled).keeps

theorem Completes.returns (h : Completes k m p r) : Returns k m p r := Follows.of_never h

theorem Completes.strays (h : Completes k m p r) : Strays k m p r := Follows.of_never h

theorem Returns.bind_done (h : Returns k m p r)
    (hfq : ∀ a n, p k.settings.grammar m.state = .done a n.state → m.Ahead n →
      Completes k n (f a) (q a)) : Returns k m (p >>= f) (r >>= q) :=
  Follows.bind h fun a n hm hdone hn =>
    (hfq a n hdone hn).mono (fun _ _ _ => hn.trans) (fun _ _ ho => ho.elim) (hm.ahead hn)

theorem Returns.bind (h : Returns k m p r)
    (hfq : ∀ a n, m.Ahead n → Completes k n (f a) (q a)) : Returns k m (p >>= f) (r >>= q) :=
  h.bind_done fun a n _ => hfq a n

theorem Strays.bind (h : Strays k m p r) (hfq : ∀ a n, m.Ahead n → Strays k n (f a) (q a)) :
    Strays k m (p >>= f) (r >>= q) :=
  Follows.bind h fun a n hm _ hn =>
    (hfq a n hn).mono (fun _ _ _ => hn.trans) (fun _ _ => hn.keeps.trans) (hm.ahead hn)

theorem Completes.bind_done (h : Completes k m p r)
    (hfq : ∀ a n, p k.settings.grammar m.state = .done a n.state → m.Ahead n →
      Completes k n (f a) (q a)) : Completes k m (p >>= f) (r >>= q) :=
  Follows.bind h fun a n hm hdone hn =>
    (hfq a n hdone hn).mono (fun _ _ _ => hn.trans) (fun _ _ ho => ho) (hm.ahead hn)

/-- What comes after it may follow the parser in any way. -/
theorem Completes.bind_follows (h : Completes k m p r)
    (hfq : ∀ a n, m.Ahead n → Follows k E M n (f a) (q a)) : Follows k E M m (p >>= f) (r >>= q) :=
  Follows.bind (.of_never h) fun a n hm _ hn => hfq a n hn (hm.ahead hn)

theorem Completes.bind (h : Completes k m p r)
    (hfq : ∀ a n, m.Ahead n → Completes k n (f a) (q a)) : Completes k m (p >>= f) (r >>= q) :=
  h.bind_done fun a n _ => hfq a n

/-- A routine that goes back where reading began, if it misses, returns. -/
theorem Strays.backTo (h : Strays k m p r) :
    Returns k m p (r <|> Routine.backTo m.window.index) :=
  Follows.backTo h

/-- The same if something has been read before. -/
theorem Returns.bind_backTo (h : Returns k m p r)
    (hfq : ∀ a n, m.Ahead n → Strays k n (f a) (q a)) :
    Returns k m (p >>= f) (r >>= fun a => q a <|> Routine.backTo m.window.index) := by
  refine Follows.bind h fun a n hm _ hn => Follows.backTo ?_ (hm.ahead hn)
  exact (hfq a n hn).mono (fun _ _ _ => hn.trans) fun _ _ => hn.keeps.trans

/-- A second routine may begin where the first one began. -/
theorem Strays.orElse_rewind (h : Strays k m p r) (h' : Returns k m p' r') :
    Returns k m (p <|> p') (r <|> do rewind m.window.index; r') := by
  intro hm
  have h := h hm
  rw [Parser.orElse_apply, orElse_apply]
  generalize p k.settings.grammar m.state = x at h ⊢
  generalize r k.settings m = y at h ⊢
  cases h with
  | done hd => exact .done hd
  | @miss n hn =>
    have hn : { n with window := n.window.rewind m.window.index } = m := hn
    show Matches _ _ _ (r' k.settings { n with window := n.window.rewind m.window.index })
    rw [hn]
    exact h' hm
  | fault e => exact .fault e

/-- Once something has been read, there is less room. -/
theorem Returns.bind_closer (h : Returns k m p r) (hp : Parser.Progresses p k.settings.grammar)
    (hfq : ∀ a n, m.Ahead n → Follows k.closer E (fun _ => False) n (f a) (q a)) :
    Follows k E (· = m) m (p >>= f) (r >>= q) := by
  refine Follows.bind h fun a n hm hdone hn => ?_
  have hless : n.window.cursor.remaining < m.window.cursor.remaining := hp _ _ _ hdone
  have hroom := hm.room
  exact (hfq a n hn ((hm.ahead hn).closer (by omega))).mono (fun _ _ => id) fun _ => False.elim

/-- A routine that cannot miss, since the parser does not. -/
theorem Returns.completes (h : Returns k m p r)
    (hp : p k.settings.grammar m.state ≠ .miss) : Completes k m p r := by
  intro hm
  have h := h hm
  generalize hx : p k.settings.grammar m.state = x at h
  generalize r k.settings m = y at h ⊢
  cases h with
  | done hd => exact .done hd
  | miss => exact absurd hx hp
  | fault e => exact .fault e

/-! ### Control

Routines that read nothing. They complete, or return, and each of the operations on the memory is
matched with that of the parser on its state. -/

theorem Completes.pure (a : α) : Completes k m (pure a) (pure a) := fun hm =>
  .done (.refl hm.within.filled)

theorem Returns.miss : Returns k m (Parser.miss : Parser α) miss := fun _ => .miss rfl

theorem Follows.fail (cause : Cause) : Follows k D M m (Parser.fail cause) (fail cause) := fun _ =>
  .fault _

theorem Follows.failAt (cause : Cause) (index : Nat) :
    Follows k D M m (Parser.failAt cause index) (failAt cause index) := fun _ =>
  .fault _

theorem Returns.orElse_fail (h : Returns k m p r) (cause : Cause) :
    Completes k m (p <|> Parser.fail cause) (r <|> fail cause) :=
  Follows.orElse h (.fail cause)

theorem Completes.map (h : Completes k m p r) (c : α → β) : Completes k m (c <$> p) (c <$> r) :=
  h.bind fun a _ _ => .pure (c a)

theorem Returns.map (h : Returns k m p r) (c : α → β) : Returns k m (c <$> p) (c <$> r) :=
  h.bind fun a _ _ => .pure (c a)

theorem Strays.map (h : Strays k m p r) (c : α → β) : Strays k m (c <$> p) (c <$> r) :=
  h.bind fun a _ _ => (Completes.pure (c a)).strays

theorem Returns.attempt (h : Returns k m p r) : Completes k m (Parser.attempt p) (attempt r) := by
  intro hm
  have h := h hm
  rw [Parser.attempt, Routine.attempt]
  generalize p k.settings.grammar m.state = x at h ⊢
  generalize r k.settings m = y at h ⊢
  cases h with
  | done hd => exact .done hd
  | miss hn =>
    obtain rfl := hn
    exact .done (.refl hm.within.filled)
  | fault e => exact .fault e

/-- Where a miss leads to a fault, it does not matter where the window stands. -/
theorem Strays.attempt_bind {f : Option α → Parser β} {q : Option α → Routine β}
    (h : Strays k m p r)
    (hsome : ∀ a n, m.Ahead n → Follows k E M n (f (some a)) (q (some a))) {cause : Cause}
    {index : Nat} (hf : f none = Parser.failAt cause index) (hq : q none = failAt cause index) :
    Follows k E M m (Parser.attempt p >>= f) (Routine.attempt r >>= q) := by
  intro hm
  have h := h hm
  rw [Parser.bind_apply, bind_apply, Parser.attempt, Routine.attempt]
  generalize p k.settings.grammar m.state = x at h ⊢
  generalize r k.settings m = y at h ⊢
  cases h with
  | done hd => exact hsome _ _ hd (hm.ahead hd)
  | miss hn =>
    dsimp only
    rw [hf, hq]
    exact .fault _
  | fault e => exact .fault e

/-- A condition that does not hold is a miss. -/
theorem Follows.require {c : Bool} {f : Unit → Parser β} {q : Unit → Routine β}
    (hM : m.In k → M m) (h : c = true → Follows k E M m (f ()) (q ())) :
    Follows k E M m (Parser.require c >>= f) (Routine.require c >>= q) := by
  cases c with
  | false => exact fun hm => .miss (hM hm)
  | true => exact h rfl

theorem Returns.require {c : Bool} {f : Unit → Parser β} {q : Unit → Routine β}
    (h : c = true → Returns k m (f ()) (q ())) :
    Returns k m (Parser.require c >>= f) (Routine.require c >>= q) :=
  Follows.require (fun _ => rfl) h

/-- A condition that only the routine has, since without it the parser misses anyway. -/
theorem Follows.guard {c : Bool} {p : Parser β} {q : Unit → Routine β} (hM : m.In k → M m)
    (hmiss : c = false → p k.settings.grammar m.state = .miss)
    (h : c = true → Follows k E M m p (q ())) :
    Follows k E M m p (Routine.require c >>= q) := by
  cases c with
  | false =>
    intro hm
    rw [hmiss rfl]
    exact .miss (hM hm)
  | true => exact h rfl

theorem Returns.guard {c : Bool} {p : Parser β} {q : Unit → Routine β}
    (hmiss : c = false → p k.settings.grammar m.state = .miss)
    (h : c = true → Returns k m p (q ())) : Returns k m p (Routine.require c >>= q) :=
  Follows.guard (fun _ => rfl) hmiss h

theorem Strays.require {c : Bool} {f : Unit → Parser β} {q : Unit → Routine β}
    (h : c = true → Strays k m (f ()) (q ())) :
    Strays k m (Parser.require c >>= f) (Routine.require c >>= q) :=
  Follows.require (fun hm => (Memory.Ahead.refl hm.within.filled).keeps) h

theorem Follows.grammar {f : Grammar → Parser β} {q : Grammar → Routine β}
    (h : Follows k E M m (f k.settings.grammar) (q k.settings.grammar)) :
    Follows k E M m (Parser.grammar >>= f) (Routine.grammar >>= q) := h

theorem Follows.settings {p : Parser β} {q : Settings → Routine β}
    (h : Follows k E M m p (q k.settings)) : Follows k E M m p (settings >>= q) := h

theorem Follows.conflicts {name : GroupName} {f : Bool → Parser β} {q : Bool → Routine β}
    (h : ∀ b, Follows k E M m (f b) (q b)) :
    Follows k E M m (Parser.conflicts name >>= f) (conflicts name >>= q) := h _

/-- A grammar that only the routine asks for. -/
theorem Follows.grammar_only {p : Parser β} {q : Grammar → Routine β}
    (h : Follows k E M m p (q k.settings.grammar)) : Follows k E M m p (Routine.grammar >>= q) := h

theorem Follows.supports {feature : Feature} {f : Bool → Parser β} {q : Bool → Routine β}
    (h : ∀ b, k.settings.grammar.edition.supports feature = b → Follows k E M m (f b) (q b)) :
    Follows k E M m (Parser.supports feature >>= f) (Routine.supports feature >>= q) := h _ rfl

/-- What follows does not depend on what is known of the last assertion. -/
theorem Follows.setQuantifiable {quantifiable : Bool} {p : Parser β} {q : Unit → Routine β}
    (h : Follows k E M { m with quantifiable } p (q ())) :
    Follows k E M m p (setQuantifiable quantifiable >>= q) := fun hm =>
  h (hm.same ⟨quantifiable, rfl⟩)

theorem Follows.modifyScope {f : GroupScope → GroupScope} {g : Unit → Parser β}
    {q : Unit → Routine β} (h : Follows k E M { m with scope := f m.scope } (g ()) (q ())) :
    Follows k E M m (Parser.modifyScope f >>= g) (modifyScope f >>= q) := fun hm =>
  h ⟨hm.within, hm.depth, hm.room⟩

theorem Follows.openCapture {name : Option GroupName} {f : Nat → Parser β} {q : Nat → Routine β}
    (h : Follows k E M (m.openCapture name) (f (m.opened + 1)) (q (m.opened + 1))) :
    Follows k E M m (Parser.openCapture name >>= f) (openCapture name >>= q) := fun hm =>
  h ⟨hm.within, hm.depth, hm.room⟩

/-- An offset that only the routine has to know. -/
theorem Follows.index {p : Parser β} {q : Nat → Routine β}
    (h : Follows k E M m p (q m.window.index)) : Follows k E M m p (Routine.index >>= q) := h

theorem Follows.of_in (h : m.In k → Follows k D M m p r) : Follows k D M m p r := fun hm => h hm hm

/-- A memory marks the place at which it stands. -/
theorem Follows.marked
    (h : k.Marks m.window.cursor m.window.index → Follows k D M m p r) : Follows k D M m p r :=
  .of_in fun hm => h hm.marks

/-- A place that only the parser has to know. -/
theorem Follows.here {f : Cursor → Parser β} {q : Routine β}
    (h : Follows k E M m (f m.window.cursor) q) : Follows k E M m (Parser.here >>= f) q := h

/-- The place at which reading begins. -/
theorem Follows.mark {f : Cursor → Parser β} {q : Nat → Routine β}
    (h : k.Marks m.window.cursor m.window.index →
      Follows k E M m (f m.window.cursor) (q m.window.index)) :
    Follows k E M m (Parser.here >>= f) (Routine.index >>= q) :=
  .marked h

/-! ### The reader

The window shows what lies ahead, so to look at its first slot is to look at the current character.
-/

theorem Follows.peek {i : Nat} {p : Parser β} {q : Option CodePoint → Routine β} (hi : i < 4)
    (h : Follows k E M m p (q (m.window.cursor.peek i))) : Follows k E M m p (peek i >>= q) := by
  intro hm
  show Matches _ _ _ (q (m.window.peek i) k.settings m)
  rw [hm.within.filled.peek_eq hi]
  exact h hm

/-- A look ahead that only the routine takes. -/
theorem Follows.sees_only {i : Nat} {c : CodePoint} {p : Parser β} {q : Bool → Routine β}
    (hi : i < 4) (h : Follows k E M m p (q (m.window.cursor.peek i == some c))) :
    Follows k E M m p (Routine.sees i c >>= q) :=
  Follows.peek (q := fun o => q (o == some c)) hi h

theorem Follows.sees {i : Nat} {c : CodePoint} {f : Bool → Parser β} {q : Bool → Routine β}
    (hi : i < 4) (h : ∀ b, Follows k E M m (f b) (q b)) :
    Follows k E M m (Parser.sees i c >>= f) (Routine.sees i c >>= q) :=
  .sees_only hi (h _)

/-- A look ahead together with what is seen. -/
theorem Follows.sees_iff {i : Nat} {c : CodePoint} {f : Bool → Parser β} {q : Bool → Routine β}
    (hi : i < 4) (hyes : m.window.cursor.peek i = some c → Follows k E M m (f true) (q true))
    (hno : Follows k E M m (f false) (q false)) :
    Follows k E M m (Parser.sees i c >>= f) (Routine.sees i c >>= q) := by
  refine .sees_only hi ?_
  show Follows k E M m (f (m.window.cursor.peek i == some c)) _
  cases h : m.window.cursor.peek i == some c with
  | true => exact hyes (eq_of_beq h)
  | false => exact hno

/-- Where the character ahead is known, going past it is reading it. -/
theorem Follows.eat_advance {c : CodePoint} {f : Unit → Parser β} {q : Unit → Routine β}
    (hc : m.window.cursor.current = some c)
    (h : Follows k E M { m with window := m.window.advance } (f ()) (q ())) :
    Follows k E M m (Parser.eat c >>= f) (advance >>= q) := by
  intro hm
  rw [Parser.bind_of_done (hm.eat_of_current hc _)]
  exact h (hm.ahead hm.ahead_advance)

/-- Past the character ahead. -/
theorem Matches.advance {a : α} (hm : m.In k) :
    Matches (fun _ => m.Ahead) M (.done a { m.state with cursor := m.window.cursor.advance })
      (.done a { m with window := m.window.advance }) :=
  .of_state hm.state_advance hm.ahead_advance

theorem select_returns (value? : CodePoint → Option α) :
    Returns k m (Parser.select value?) (select value?) := by
  refine Follows.peek (by decide) fun hm => ?_
  rw [Cursor.peek_zero]
  show Matches _ _ (match m.window.cursor.current.bind value? with
    | some a => .done a { m.state with cursor := m.window.cursor.advance }
    | none => .miss) _
  cases m.window.cursor.current.bind value? with
  | none => exact .miss rfl
  | some a => exact .advance hm

theorem satisfy_returns (test : CodePoint → Bool) :
    Returns k m (Parser.satisfy test) (satisfy test) := by
  refine Follows.peek (by decide) fun hm => ?_
  rw [Cursor.peek_zero, Parser.satisfy_apply, Memory.state_cursor]
  cases m.window.cursor.current.filter test with
  | none => exact .miss rfl
  | some c => exact .advance hm

/-- Characters are read as the window eats them. -/
theorem Matches.eat {cs : List CodePoint} (hcs : cs.length ≤ 4) (hm : m.In k) :
    Matches (fun _ => m.Ahead) (· = m)
      (match m.window.cursor.eat? cs with
        | some d => .done () { m.state with cursor := d }
        | none => .miss)
      (match m.window.eat cs with
        | (true, w) => .done () { m with window := w }
        | (false, w) => .miss { m with window := w }) := by
  rw [hm.within.filled.eat_eq hcs]
  cases hd : m.window.cursor.eat? cs with
  | none => exact .miss rfl
  | some d =>
    have hreaches : m.window.cursor.Reaches d := ⟨cs, hd⟩
    refine .of_state ?_ (Memory.ahead_of_reaches hm.within.filled hreaches)
    rw [Memory.state, (hm.within.rewind_of_reaches k.valid hreaches).2]
    rfl

theorem eatAll_returns {cs : List Char} (hcs : cs.length ≤ 4) :
    Returns k m (Parser.eatAll cs) (eatAll cs) := fun hm =>
  .eat (by rwa [List.length_map]) hm

theorem eat_returns (c : CodePoint) : Returns k m (Parser.eat c) (eat c) := by
  intro hm
  have hc : [c].length ≤ 4 := by simp
  rw [Parser.eat_apply]
  exact .eat hc hm

theorem eats_completes (c : CodePoint) : Completes k m (Parser.eats c) (eats c) :=
  (eat_returns c).attempt.bind fun o _ _ => .pure o.isSome

theorem spanFrom_completes {mark : Cursor} {start : Nat} (h : k.Marks mark start) :
    Completes k m (Parser.spanFrom mark) (spanFrom start) := by
  intro hm
  obtain ⟨rfl, -, -⟩ := h
  have htext : (k.slice.cursorAt k.paired start).textTo m.window.index =
      m.window.text.slice start m.window.index := by
    rw [hm.within.text]
    exact Slice.textTo_cursorAt hm.within.le_stop
  rw [Parser.spanFrom, Routine.spanFrom, ← htext]
  exact .done (.refl hm.within.filled)

/-! ### Loops

A loop of a routine has fuel, and a repetition of the parser is bounded by the units ahead. Every
step reads something, so neither bound is reached. -/

theorem attempt_apply (r : Routine α) (σ : Settings) (m : Memory) :
    attempt r σ m =
      match r σ m with
      | .done a n => .done (some a) n
      | .miss n => .done none n
      | .fault f => .fault f
      | .exhausted => .exhausted := rfl

/-- What each repetition of a routine does, `S`, adds up over all of them to `T`; the last one
misses and does `M`. -/
structure AddsUp (k : Situation) (S : Memory → α → Memory → Prop) (M : Memory → Memory → Prop)
    (T : Memory → List α → Memory → Prop) : Prop where
  keeps : ∀ {m a n}, m.In k → S m a n → n.In k
  misses : ∀ {m n}, M m n → n.state = m.state
  nil : ∀ {m n}, m.In k → M m n → T m [] n
  cons : ∀ {m a n as o}, m.In k → S m a n → T n as o → T m (a :: as) o

theorem AddsUp.ahead (k : Situation) :
    AddsUp k (fun m (_ : α) => m.Ahead) (fun m => (· = m)) (fun m _ => m.Ahead) where
  keeps := .ahead
  misses h := by rw [h]
  nil hm hn := by
    obtain rfl := hn
    exact .refl hm.within.filled
  cons _ hn ho := hn.trans ho

theorem AddsUp.leads (k : Situation) (names : α → List GroupName) :
    AddsUp k (fun m a => m.Leads (names a)) Memory.Same
      (fun m as => m.Leads (as.flatMap names)) where
  keeps hm hn := hm.moves hn.toMoves
  misses h := h.state
  nil hm hn := hn.leads hm.within.filled
  cons _ hn ho := hn.trans ho

/-- A loop follows the repetition of a parser: every time round there is less ahead. -/
theorem collectFor_follows {S : Memory → α → Memory → Prop} {M : Memory → Memory → Prop}
    {T : Memory → List α → Memory → Prop} (hadds : AddsUp k S M T)
    (hp : Parser.Progresses p k.settings.grammar) (h : ∀ m, Follows k (S m) (M m) m p r)
    {fuel : Nat} (hfuel : m.window.cursor.remaining < fuel) :
    Follows k (T m) (fun _ => False) m (Parser.many p) (collectFor r fuel) := by
  induction fuel generalizing m with
  | zero => omega
  | succ fuel ih =>
    intro hm
    have hfirst := h m hm
    rw [Parser.many_eq hp, Parser.bind_apply, Parser.attempt, collectFor, bind_apply, attempt_apply]
    generalize hx : p k.settings.grammar m.state = x at hfirst ⊢
    generalize r k.settings m = y at hfirst ⊢
    cases hfirst with
    | @done a n hn =>
      have hless : n.window.cursor.remaining < m.window.cursor.remaining := hp _ _ _ hx
      have hrest : Follows k (T m) (fun _ => False) n ((a :: ·) <$> Parser.many p)
          ((a :: ·) <$> collectFor r fuel) :=
        Follows.bind (ih (by omega)) fun _ _ _ _ ho => .done (hadds.cons hm hn ho)
      exact hrest (hadds.keeps hm hn)
    | miss hn =>
      rw [← hadds.misses hn]
      exact .done (hadds.nil hm hn)
    | fault e => exact .fault e

theorem collect_follows {S : Memory → α → Memory → Prop} {M : Memory → Memory → Prop}
    {T : Memory → List α → Memory → Prop} (hadds : AddsUp k S M T)
    (hp : Parser.Progresses p k.settings.grammar) (h : ∀ m, Follows k (S m) (M m) m p r) :
    Follows k (T m) (fun _ => False) m (Parser.many p) (collect r) := fun hm =>
  collectFor_follows hadds hp h hm.remaining_lt_fuel hm

theorem Returns.collect (h : ∀ m, Returns k m p r) (hp : Parser.Progresses p k.settings.grammar) :
    Completes k m (Parser.many p) (collect r) :=
  collect_follows (.ahead k) hp h

theorem Refers.collect {names : α → List GroupName}
    (h : ∀ m : Memory, Refers k names m.Same m p r)
    (hp : Parser.Progresses p k.settings.grammar) :
    Refers k (fun as => as.flatMap names) (fun _ => False) m (Parser.many p) (Routine.collect r) :=
  collect_follows (.leads k names) hp h

/-- A loop that has to go round at least once is a first step and a loop. -/
theorem Returns.collect1 (h : ∀ m, Returns k m p r) (hp : Parser.Progresses p k.settings.grammar) :
    Returns k m (Parser.many1 p) (collect1 r) := by
  intro hm
  have hlt := hm.remaining_lt_fuel
  obtain ⟨fuel, hfuel⟩ : ∃ c, k.settings.fuel = c + 1 := ⟨k.settings.fuel - 1, by omega⟩
  have hfirst := h m hm
  show Matches _ _ _ ((collectFor r k.settings.fuel >>= fun as => do
    Routine.require !as.isEmpty
    return as) k.settings m)
  rw [hfuel, Parser.many1, Parser.bind_apply, bind_apply, collectFor, bind_apply, attempt_apply]
  generalize hx : p k.settings.grammar m.state = x at hfirst ⊢
  generalize r k.settings m = y at hfirst ⊢
  cases hfirst with
  | @done a n hn =>
    have hless : n.window.cursor.remaining < m.window.cursor.remaining := hp _ _ _ hx
    have hrest : Completes k n (Parser.many p) (collectFor r fuel) :=
      collectFor_follows (.ahead k) hp h (by omega)
    have hrest := hrest (hm.ahead hn)
    dsimp only
    rw [Parser.bind_apply, bind_apply]
    generalize Parser.many p k.settings.grammar n.state = x at hrest ⊢
    generalize collectFor r fuel k.settings n = y at hrest ⊢
    cases hrest with
    | done ho => exact .done (hn.trans ho)
    | miss ho => exact ho.elim
    | fault e => exact .fault e
  | miss hn => exact .miss hn
  | fault e => exact .fault e

theorem Strays.times (h : ∀ m, Returns k m p r) (count : Nat) :
    Strays k m (Parser.times p count) (times r count) := by
  induction count generalizing m with
  | zero => exact (Completes.pure []).strays
  | succ count ih =>
    exact (h m).strays.bind fun first _ _ => Strays.bind ih fun rest _ _ =>
      (Completes.pure (first :: rest)).strays

/-- A parser that misses at the end of the text is not run there. -/
theorem Follows.unlessAtEnd (h : Follows k D M m p r) (hM : m.In k → M m)
    (hend : m.window.cursor.current = none → p k.settings.grammar m.state = .miss) :
    Follows k D M m p (unlessAtEnd r) := by
  refine .peek (by decide) <| .guard hM (fun hc => hend ?_) fun _ => h
  rw [Cursor.peek_zero] at hc
  exact Option.not_isSome_iff_eq_none.mp (by simp [hc])

/-! ### Levels

To enter a level is checked in both in the same way, before anything inside is read. -/

theorem enterNesting_bind (start : Nat) (q : Unit → Routine β) (hm : m.In k) :
    (enterNesting start >>= q) k.settings m =
      if k.depth + 1 > k.settings.maxDepth then .fault ⟨.nestedTooDeeply, start⟩
      else q () k.settings m.enter := by
  rw [← hm.depth, bind_apply]
  by_cases h : m.depth + 1 > k.settings.maxDepth
  · have henter : enterNesting start k.settings m = .fault ⟨.nestedTooDeeply, start⟩ := if_pos h
    rw [henter, if_pos h]
  · have henter : enterNesting start k.settings m = .done () m.enter := if_neg h
    rw [henter, if_neg h]

/-! ### Names referred to

The names that a routine awaits are collected in its memory, while those of the parser are in the
tree. They are the same list. -/

namespace Refers

variable {names : α → List GroupName} {names' : β → List GroupName}

theorem pure {a : α} (h : names a = []) : Refers k names M m (pure a) (pure a) := fun hm =>
  .done (h ▸ (Memory.Ahead.refl hm.within.filled).leads)

/-- What comes after the names have been referred to only makes a value of what was read. -/
theorem bind (h : Refers k names M m p r)
    (hfq : ∀ a n, m.Leads (names a) n →
      Follows k (fun b o => n.Ahead o ∧ names' b = names a) (fun _ => False) n (f a) (q a)) :
    Refers k names' M m (p >>= f) (r >>= q) :=
  Follows.bind h fun a n hm _ hn =>
    (hfq a n hn).mono
      (fun _ _ _ ho => by rw [ho.2]; exact hn.trans_ahead ho.1)
      (fun _ _ ho => ho.elim) (hm.moves hn.toMoves)

end Refers

section

variable {names : β → List GroupName}

theorem Returns.bind_refers (h : Returns k m p r)
    (hfq : ∀ a n, m.Ahead n → Refers k names (fun _ => False) n (f a) (q a)) :
    Refers k names (· = m) m (p >>= f) (r >>= q) :=
  Follows.bind h fun a n hm _ hn => Follows.mono (hfq a n hn) (fun _ _ _ => hn.trans_leads)
    (fun _ _ ho => ho.elim) (hm.ahead hn)

theorem Completes.bind_refers (h : Completes k m p r)
    (hfq : ∀ a n, m.Ahead n → Refers k names (fun _ => False) n (f a) (q a)) :
    Refers k names M m (p >>= f) (r >>= q) :=
  Follows.bind (.of_never h) fun a n hm _ hn =>
    Follows.mono (hfq a n hn) (fun _ _ _ => hn.trans_leads) (fun _ _ ho => ho.elim) (hm.ahead hn)

theorem Completes.map_refers (h : Completes k m p r) {c : α → β} (hc : ∀ a, names (c a) = []) :
    Refers k names M m (c <$> p) (c <$> r) :=
  h.bind_refers fun a _ _ => .pure (hc a)

theorem Returns.map_refers (h : Returns k m p r) {c : α → β} (hc : ∀ a, names (c a) = []) :
    Refers k names (· = m) m (c <$> p) (c <$> r) :=
  h.bind_refers fun a _ _ => .pure (hc a)

/-- What has moved ahead before belongs to it. -/
theorem Refers.after {names : α → List GroupName} (hn : m.Ahead n)
    (h : Refers k names (fun _ => False) n p r) :
    Follows k (fun a => m.Leads (names a)) M n p r :=
  Follows.mono h (fun _ _ _ => hn.trans_leads) fun _ _ => False.elim

end

end Routine

end EcmaPattern
