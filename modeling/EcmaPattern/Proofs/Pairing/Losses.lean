import EcmaPattern.Proofs.Pairing
import EcmaPattern.Proofs.Progress

/-!
# Runs of which the first may lose something

Two runs need not stay together to the end. The first may read on where the text of the second has
ended, or it may be done with a tree that the second run does not give: one in which a group is too
deep for it, or has a name that it refuses. Then something is lost, and it does not matter any more
what the second run does, as long as it is known whether it comes to a fault.

`Trails` says of two parsers that they are done beside each other, unless something is lost. What is
lost is said for each kind of value by a `Loss`. A loss has to last. Whatever follows must not miss
in the first run, for then another choice would be made there, and what it is done with must show
the loss as well (`Retains`). So a comparison only has to say how a loss is passed on from the parts
of a value to the whole.

The states may be restricted too, to those from which the runs can be compared and to those to which
they lead.

Key lemmas:

* `Trailing.bind`, where a loss is passed on;
* `Trails.many`, for repetitions, of which a later step may lose something;
* `Trails.of_pairs`, by which parsers that lose nothing are taken over.
-/

namespace EcmaPattern

/-- What is lost when a run is done with a value. The other run has come to the fault that is given;
if none is given, nothing is known of it. -/
abbrev Loss (α : Type) := Option Fault → α → State → Prop

namespace Loss

variable {α : Type}

def nothing : Loss α := fun _ _ _ => False

/-- Something is lost with these values, and nothing is known of the other run. -/
def of (lost : α → State → Prop) : Loss α := fun _ => lost

end Loss

/-- The run has come to the fault, if one is given. -/
def Outcome.Meets {α : Type} (o : Outcome α) (w : Option Fault) : Prop := ∀ e ∈ w, o = .fault e

namespace Pairing

variable (k : Pairing)

/-- If the second run has come to this, it may have done so whatever fault the first one finds. -/
def Covers (w : Option Fault) : Prop := ∀ e, k.Excuses e ∨ ∃ e' ∈ w, k.Blames e e'

/-- What the two runs come to, if the first may lose something. -/
inductive Trailing {α β : Type} (P : State → Prop) (lost : Loss α) (R : α → β → Prop) :
    Outcome α → Outcome β → Prop
  | done {a : α} {b : β} {t t' : State} (hab : R a b) (hP : P t) (ht : k.Beside t t') :
    Trailing P lost R (.done a t) (.done b t')
  | lost {w : Option Fault} {a : α} {t : State} {o : Outcome β} (hw : k.Covers w)
    (ho : o.Meets w) (h : lost w a t) : Trailing P lost R (.done a t) o
  | miss : Trailing P lost R .miss .miss
  | fault {e e' : Fault} (h : k.Blames e e') : Trailing P lost R (.fault e) (.fault e')
  | excused {e : Fault} {o : Outcome β} (h : k.Excuses e) : Trailing P lost R (.fault e) o

/-- From states with `P` that are beside each other, the two parsers come to the same at states with
`P'`, with values that are related, unless something is lost in the first run. -/
def Trails {α β : Type} (P P' : State → Prop) (lost : Loss α) (R : α → β → Prop) (p : Parser α)
    (q : Parser β) : Prop :=
  ∀ s s', k.Beside s s' → P s → k.Trailing P' lost R (p k.left s) (q k.right s')

/-- What comes next in the first run does not miss after a loss, and shows it. -/
abbrev Retains {α β : Type} (lost : Loss α) (lost' : Loss β) (r : α → Parser β) : Prop :=
  ∀ w a u, lost w a u → r a k.left u ≠ .miss ∧ ∀ b t, r a k.left u = .done b t → lost' w b t

variable {k}

theorem retains_of_nothing {α β : Type} {lost' : Loss β} {r : α → Parser β} :
    k.Retains Loss.nothing lost' r := fun _ _ _ hfalse => hfalse.elim

end Pairing

/-! ## Combinators

The same list as for runs that lose nothing. Only where one parser follows another is there a new
condition, that a loss is retained. -/

namespace Pairing.Trailing

open EcmaPattern.Parser

variable {α β γ δ : Type} {k : Pairing} {P P' : State → Prop} {lost : Loss α} {lost' : Loss γ}
  {R : α → β → Prop} {R' : γ → δ → Prop} {s s' : State} {p p₂ : Parser α} {q q₂ : Parser β}

/-- After a loss the first run goes on alone. It must not miss, and it must show the loss. -/
theorem of_lost {w : Option Fault} {o : Outcome γ} {o' : Outcome δ} (hw : k.Covers w)
    (ho : o'.Meets w) (hmiss : o ≠ .miss) (hdone : ∀ c u, o = .done c u → lost' w c u) :
    k.Trailing P' lost' R' o o' := by
  cases o with
  | done c u => exact .lost hw ho (hdone c u rfl)
  | miss => exact absurd rfl hmiss
  | fault e =>
    rcases hw e with hexcused | ⟨e', he', hblames⟩
    · exact .excused hexcused
    · rw [ho e' he']
      exact .fault hblames

/-- What follows is compared where the two runs have got to, and has to retain what was lost. -/
theorem bind {f : α → Parser γ} {h : β → Parser δ}
    (hp : k.Trailing P lost R (p k.left s) (q k.right s'))
    (hr : ∀ a t b t', p k.left s = .done a t → q k.right s' = .done b t' → R a b → P t →
      k.Beside t t' → k.Trailing P' lost' R' (f a k.left t) (h b k.right t'))
    (hlost : k.Retains lost lost' f) :
    k.Trailing P' lost' R' ((p >>= f) k.left s) ((q >>= h) k.right s') := by
  rw [bind_apply, bind_apply]
  generalize p k.left s = o at hp hr
  generalize q k.right s' = o' at hp hr
  cases hp with
  | done hab hP ht => exact hr _ _ _ _ rfl rfl hab hP ht
  | miss => exact .miss
  | fault h => exact .fault h
  | excused h => exact .excused h
  | lost hw ho h =>
    refine of_lost hw (fun e he => ?_) (hlost _ _ _ h).1 (hlost _ _ _ h).2
    rw [ho e he]

/-- A second choice is compared only where the first run misses. -/
theorem orElse (hp : k.Trailing P lost R (p k.left s) (q k.right s'))
    (hq : k.Trailing P lost R (p₂ k.left s) (q₂ k.right s')) :
    k.Trailing P lost R ((p <|> p₂) k.left s) ((q <|> q₂) k.right s') := by
  rw [orElse_apply, orElse_apply]
  generalize p k.left s = o at hp
  generalize q k.right s' = o' at hp
  cases hp with
  | done hab hP ht => exact .done hab hP ht
  | miss => exact hq
  | fault h => exact .fault h
  | excused h => exact .excused h
  | lost hw ho h =>
    refine .lost hw (fun e he => ?_) h
    rw [ho e he]

theorem attempt (hs : k.Beside s s') (hP : P s)
    (hp : k.Trailing P lost R (p k.left s) (q k.right s')) :
    k.Trailing P (fun w o t => ∃ a, o = some a ∧ lost w a t) (Option.Rel R)
      (Parser.attempt p k.left s) (Parser.attempt q k.right s') := by
  rw [Parser.attempt, Parser.attempt]
  generalize p k.left s = o at hp
  generalize q k.right s' = o' at hp
  cases hp with
  | done hab hP ht => exact .done (.some hab) hP ht
  | miss => exact .done .none hP hs
  | fault h => exact .fault h
  | excused h => exact .excused h
  | lost hw ho h =>
    refine .lost hw (fun e he => ?_) ⟨_, rfl, h⟩
    rw [ho e he]

/-- What is said of the results may be weakened, and more may be lost. -/
theorem mono {lost₂ : Loss α} {R₂ : α → β → Prop} {o : Outcome α} {o' : Outcome β}
    (h : k.Trailing P lost R o o') (hP : ∀ s, P s → P' s)
    (hlost : ∀ w a t, lost w a t → lost₂ w a t) (hR : ∀ a b, R a b → R₂ a b) :
    k.Trailing P' lost₂ R₂ o o' := by
  cases h with
  | done hab ht hs => exact .done (hR _ _ hab) (hP _ ht) hs
  | miss => exact .miss
  | fault h => exact .fault h
  | excused h => exact .excused h
  | lost hw ho h => exact .lost hw ho (hlost _ _ _ h)

theorem of_done {a : α} {t : State} {o : Outcome β} (h : k.Trailing P lost R (.done a t) o) :
    (∃ w, lost w a t ∧ o.Meets w) ∨ P t ∧ ∃ b t', o = .done b t' ∧ R a b ∧ k.Beside t t' := by
  cases h with
  | done hab hP ht => exact .inr ⟨hP, _, _, rfl, hab, ht⟩
  | lost hw ho h => exact .inl ⟨_, h, ho⟩

/-- Where the first run misses, so does the second. -/
theorem of_miss {o : Outcome β} (h : k.Trailing P lost R .miss o) : o = .miss := by
  cases h with
  | miss => rfl

end Pairing.Trailing

/-- Runs that lose nothing. -/
theorem Pairing.Outcomes.trailing {α β : Type} {k : Pairing} {lost : Loss α} {R : α → β → Prop}
    {o : Outcome α} {o' : Outcome β} (h : k.Outcomes R o o') :
    k.Trailing (fun _ => True) lost R o o' := by
  cases h with
  | done hab ht => exact .done hab trivial ht
  | miss => exact .miss
  | fault h => exact .fault h
  | excused h => exact .excused h

namespace Pairing.Trails

open EcmaPattern.Parser

variable {α β γ δ : Type} {k : Pairing} {P P' P'' : State → Prop} {lost : Loss α}
  {lost' : Loss γ} {R : α → β → Prop} {R' : γ → δ → Prop} {p p₂ : Parser α} {q q₂ : Parser β}

/-- What goes beside each other trails, whatever may be lost. -/
theorem of_pairs (hp : k.Pairs R p q) : k.Trails P (fun _ => True) lost R p q :=
  fun s s' hs _ => (hp s s' hs).trailing

/-- Where nothing may be lost, what trails goes beside each other. -/
theorem pairs (hp : k.Trails (fun _ => True) P' Loss.nothing R p q) : k.Pairs R p q := by
  intro s s' hs
  have h := hp s s' hs trivial
  generalize p k.left s = o at h
  generalize q k.right s' = o' at h
  cases h with
  | done hab _ ht => exact .done hab ht
  | miss => exact .miss
  | fault h => exact .fault h
  | excused h => exact .excused h
  | lost _ _ h => exact h.elim

/-- Where all faults are excused, it is enough that the second run is done or misses where the first
does, and that nothing need be known of it after a loss. -/
theorem of_free {lost : α → State → Prop} (hfree : k.Free)
    (hdone : ∀ {s s' a t}, k.Beside s s' → P s → p k.left s = .done a t →
      lost a t ∨ P' t ∧ ∃ b t', q k.right s' = .done b t' ∧ R a b ∧ k.Beside t t')
    (hmiss : ∀ {s s'}, k.Beside s s' → P s → p k.left s = .miss → q k.right s' = .miss) :
    k.Trails P P' (.of lost) R p q := by
  intro s s' hs hP
  cases h : p k.left s with
  | done a t =>
    rcases hdone hs hP h with hlost | ⟨hP', b, t', hb, hab, ht⟩
    · exact .lost (w := none) (fun e => .inl (hfree e)) nofun hlost
    · rw [hb]
      exact .done hab hP' ht
  | miss =>
    rw [hmiss hs hP h]
    exact .miss
  | fault e => exact .excused (hfree e)

/-- Whatever is done in place of a fault will do, if faults are excused. -/
theorem of_fault (hfree : k.Free) (hp : ∀ s, ∃ e, p k.left s = .fault e) :
    k.Trails P P' lost R p q := by
  intro s s' _ _
  obtain ⟨e, he⟩ := hp s
  rw [he]
  exact .excused (hfree e)

theorem done (hp : k.Trails P P' lost R p q) {s s' t : State} {a : α} (hs : k.Beside s s')
    (hP : P s) (ha : p k.left s = .done a t) :
    (∃ w, lost w a t ∧ (q k.right s').Meets w) ∨
      P' t ∧ ∃ b t', q k.right s' = .done b t' ∧ R a b ∧ k.Beside t t' :=
  (ha ▸ hp s s' hs hP).of_done

theorem miss (hp : k.Trails P P' lost R p q) {s s' : State} (hs : k.Beside s s') (hP : P s)
    (hmiss : p k.left s = .miss) : q k.right s' = .miss :=
  (hmiss ▸ hp s s' hs hP).of_miss

/-- Fewer states may be allowed before, more after, and more may be lost. -/
theorem mono {Q Q' : State → Prop} {lost₂ : Loss α} {R₂ : α → β → Prop}
    (hp : k.Trails P P' lost R p q) (hQ : ∀ s, Q s → P s) (hQ' : ∀ s, P' s → Q' s)
    (hlost : ∀ w a t, lost w a t → lost₂ w a t) (hR : ∀ a b, R a b → R₂ a b) :
    k.Trails Q Q' lost₂ R₂ p q :=
  fun s s' hs h => (hp s s' hs (hQ s h)).mono hQ' hlost hR

protected theorem pure {a : α} {b : β} (h : R a b) :
    k.Trails P P lost R (pure a) (pure b) := fun _ _ hs hP => .done h hP hs

/-- What follows must retain a loss. -/
theorem bind_of {f : α → Parser γ} {h : β → Parser δ} (hp : k.Trails P P' lost R p q)
    (hr : ∀ a b, R a b → k.Trails P' P'' lost' R' (f a) (h b))
    (hlost : k.Retains lost lost' f) : k.Trails P P'' lost' R' (p >>= f) (q >>= h) :=
  fun s s' hs hP =>
    (hp s s' hs hP).bind (fun a t b t' _ _ hab hP' ht => hr a b hab t t' ht hP') hlost

/-- A choice trails a choice. -/
protected theorem orElse (hp : k.Trails P P' lost R p q) (hq : k.Trails P P' lost R p₂ q₂) :
    k.Trails P P' lost R (p <|> p₂) (q <|> q₂) :=
  fun s s' hs hP => (hp s s' hs hP).orElse (hq s s' hs hP)

/-- What is lost of a value is lost of another that is made of it. -/
theorem map_of {c : α → γ} {d : β → δ} (hp : k.Trails P P' lost R p q)
    (hcd : ∀ a b, R a b → R' (c a) (d b)) (hlost : ∀ w a t, lost w a t → lost' w (c a) t) :
    k.Trails P P' lost' R' (c <$> p) (d <$> q) := by
  refine hp.bind_of (f := fun a => pure (c a)) (h := fun b => pure (d b))
    (fun a b hab => .pure (hcd a b hab)) fun w a u ha => ⟨nofun, fun b t h => ?_⟩
  obtain ⟨rfl, rfl⟩ := pure_eq_done.mp h
  exact hlost w a u ha

/-- An attempt that comes to nothing loses nothing, so what follows may miss then. -/
theorem attempt_bind_of {r : Option α → Parser γ} {r' : Option β → Parser δ}
    (hp : k.Trails P P' lost R p q) (hnone : k.Trails P P'' lost' R' (r none) (r' none))
    (hsome : ∀ a b, R a b → k.Trails P' P'' lost' R' (r (some a)) (r' (some b)))
    (hlost : k.Retains lost lost' fun a => r (some a)) :
    k.Trails P P'' lost' R' (attempt p >>= r) (attempt q >>= r') := by
  intro s s' hs hP
  have h := hp s s' hs hP
  -- the states after an attempt are those with `P` or those with `P'`, by what it came to
  rw [bind_apply, bind_apply, Parser.attempt, Parser.attempt]
  generalize p k.left s = o at h
  generalize q k.right s' = o' at h
  cases h with
  | done hab hP' ht => exact hsome _ _ hab _ _ ht hP'
  | miss => exact hnone s s' hs hP
  | fault h => exact .fault h
  | excused h => exact .excused h
  | lost hw ho h =>
    refine .of_lost hw (fun e he => ?_) (hlost _ _ _ h).1 (hlost _ _ _ h).2
    rw [ho e he]

protected theorem ite {c : Prop} [Decidable c] (hp : k.Trails P P' lost R p q)
    (hq : k.Trails P P' lost R p₂ q₂) :
    k.Trails P P' lost R (if c then p else p₂) (if c then q else q₂) := by
  split
  · exact hp
  · exact hq

/-- Each run asks its own grammar. -/
theorem grammar_bind {r : Grammar → Parser α} {r' : Grammar → Parser β}
    (h : k.Trails P P' lost R (r k.left) (r' k.right)) :
    k.Trails P P' lost R (grammar >>= r) (grammar >>= r') := h

/-- A place that is remembered in one run has its counterpart in the other. -/
theorem here_bind {r : Cursor → Parser α} {r' : Cursor → Parser β}
    (h : ∀ m m', k.Marks m m' → k.Trails P P' lost R (r m) (r' m')) :
    k.Trails P P' lost R (here >>= r) (here >>= r') :=
  fun s s' hs => h _ _ (k.marks hs) s s' hs

theorem spanFrom_bind {m m' : Cursor} (hm : k.Marks m m') {r : Span → Parser α}
    {r' : Span → Parser β} (h : ∀ span, k.Trails P P' lost R (r span) (r' (k.span span))) :
    k.Trails P P' lost R (spanFrom m >>= r) (spanFrom m' >>= r') := by
  intro s s' hs
  rw [Parser.spanFrom_bind, Parser.spanFrom_bind, k.between hm hs]
  exact h _ s s' hs

/-- Behind what loses nothing, anything that trails may come. -/
theorem after_of {r : α → Parser γ} {r' : β → Parser δ} (hp : k.Pairs R p q)
    (hr : ∀ a b, R a b → k.Trails (fun _ => True) P'' lost' R' (r a) (r' b)) :
    k.Trails P P'' lost' R' (p >>= r) (q >>= r') :=
  bind_of (of_pairs hp) hr retains_of_nothing

/-! ### Repetition

A step that loses something is followed by others in the first run. Each of the runs makes as many
steps as it can, since every step makes progress. -/

/-- More steps are allowed in either run than can be made. -/
theorem upTo (hp : k.Trails P P lost R p q) (hleft : Progresses p k.left)
    (hright : Progresses q k.right) {lost' : Loss (List α)}
    (hhead : ∀ w a u as t, lost w a u → Chain (fun s a t => p k.left s = .done a t) u as t →
      lost' w (a :: as) t)
    (htail : ∀ w a b as t, R a b → lost' w as t → lost' w (a :: as) t) {n n' : Nat}
    {s s' : State} (hs : k.Beside s s') (hP : P s) (hn : s.cursor.remaining < n)
    (hn' : s'.cursor.remaining < n') :
    k.Trailing P lost' (List.Forall₂ R) (Parser.upTo p n k.left s)
      (Parser.upTo q n' k.right s') := by
  induction n generalizing n' s s' with
  | zero => omega
  | succ n ih =>
    obtain ⟨n', rfl⟩ : ∃ m, n' = m + 1 := ⟨n' - 1, by omega⟩
    rw [upTo_succ_eq, upTo_succ_eq]
    refine ((hp s s' hs hP).attempt hs hP).bind (fun o t o' t' ho ho' hab hP' ht => ?_) ?_
    · cases hab with
      | none => exact .done .nil hP' ht
      | @some a b hab =>
        obtain ⟨_, hsome, ha⟩ := (attempt_eq_done.mp ho).resolve_right (by simp)
        obtain ⟨_, hsome', hb⟩ := (attempt_eq_done.mp ho').resolve_right (by simp)
        cases hsome
        cases hsome'
        have hlt := hleft s a t ha
        have hlt' := hright s' b t' hb
        refine (ih ht hP' (by omega) (by omega)).bind (f := fun as => pure (a :: as))
          (h := fun bs => pure (b :: bs)) (fun _ _ _ _ _ _ habs hP'' hu =>
            .done (.cons hab habs) hP'' hu) fun w as u has => ⟨nofun, fun bs v h => ?_⟩
        obtain ⟨rfl, rfl⟩ := pure_eq_done.mp h
        exact htail w a b as u hab has
    · rintro w _ u ⟨a, rfl, ha⟩
      refine ⟨fun h => neverMisses_upTo p n _ _ (map_eq_miss.mp h), fun bs t h => ?_⟩
      obtain ⟨as, has, rfl⟩ := map_eq_done.mp h
      exact hhead w a u as t ha (chain_of_upTo has)

/-- Repetitions trail each other if the parsers make progress. -/
theorem many_of (hp : k.Trails P P lost R p q) (hleft : Progresses p k.left)
    (hright : Progresses q k.right) {lost' : Loss (List α)}
    (hhead : ∀ w a u as t, lost w a u → Chain (fun s a t => p k.left s = .done a t) u as t →
      lost' w (a :: as) t)
    (htail : ∀ w a b as t, R a b → lost' w as t → lost' w (a :: as) t) :
    k.Trails P P lost' (List.Forall₂ R) (Parser.many p) (Parser.many q) :=
  fun _ _ hs hP => hp.upTo hleft hright hhead htail hs hP (Nat.lt_succ_self _)
    (Nat.lt_succ_self _)

/-! ### Values that are the same

As for runs that lose nothing, the value of the second run is mostly that of the first. -/

section Same

variable {p p₂ q q₂ : Parser α}

/-- What follows must retain a loss. -/
protected theorem bind {r : α → Parser γ} {r' : α → Parser δ} (hp : k.Trails P P' lost Eq p q)
    (hr : ∀ a, k.Trails P' P'' lost' R' (r a) (r' a)) (hlost : k.Retains lost lost' r) :
    k.Trails P P'' lost' R' (p >>= r) (q >>= r') :=
  hp.bind_of (fun a _ hab => hab ▸ hr a) hlost

protected theorem map {c : α → γ} (hp : k.Trails P P' lost Eq p q)
    (hlost : ∀ w a t, lost w a t → lost' w (c a) t) :
    k.Trails P P' lost' Eq (c <$> p) (c <$> q) :=
  hp.map_of (fun _ _ => congrArg c) hlost

/-- An attempt that comes to nothing loses nothing, so what follows may miss then. -/
protected theorem attempt_bind {r : Option α → Parser γ} {r' : Option α → Parser δ}
    (hp : k.Trails P P' lost Eq p q) (hnone : k.Trails P P'' lost' R' (r none) (r' none))
    (hsome : ∀ a, k.Trails P' P'' lost' R' (r (some a)) (r' (some a)))
    (hlost : k.Retains lost lost' fun a => r (some a)) :
    k.Trails P P'' lost' R' (attempt p >>= r) (attempt q >>= r') :=
  hp.attempt_bind_of hnone (fun a _ hab => hab ▸ hsome a) hlost

theorem after {r : α → Parser γ} {r' : α → Parser δ} (hp : k.Pairs Eq p q)
    (hr : ∀ a, k.Trails (fun _ => True) P'' lost' R' (r a) (r' a)) :
    k.Trails P P'' lost' R' (p >>= r) (q >>= r') :=
  after_of hp fun a _ hab => hab ▸ hr a

/-- The same behind a parser that gives the image of a value. -/
theorem after_map {f : α → β} {p : Parser α} {q : Parser β} {r : α → Parser γ} {r' : β → Parser δ}
    (hp : k.Maps f p q) (hr : ∀ a, k.Trails (fun _ => True) P'' lost' R' (r a) (r' (f a))) :
    k.Trails P P'' lost' R' (p >>= r) (q >>= r') :=
  after_of hp fun a _ hab => hab ▸ hr a

protected theorem many (hp : k.Trails P P lost Eq p q) (hleft : Progresses p k.left)
    (hright : Progresses q k.right) {lost' : Loss (List α)}
    (hhead : ∀ w a u as t, lost w a u → Chain (fun s a t => p k.left s = .done a t) u as t →
      lost' w (a :: as) t)
    (htail : ∀ w a as t, lost' w as t → lost' w (a :: as) t) :
    k.Trails P P lost' Eq (Parser.many p) (Parser.many q) :=
  (hp.many_of hleft hright hhead fun w a _ as t _ => htail w a as t).mono (fun _ => id)
    (fun _ => id) (fun _ _ _ => id) fun _ _ h => List.forall₂_eq_eq_eq ▸ h

end Same

end Pairing.Trails

/-! ## Signs behind which a run is lost

A sign that closes something may be read by one run and not by the other, because the text of the
other ends there. Once the first run is past such a sign it is lost, and it stays lost since no
parser goes back. -/

/-- The runs part at signs that close something, if anywhere, and have the same character ahead
until the first one is `past` such a sign. -/
structure Pairing.Losing (k : Pairing) (past : State → Prop) : Prop where
  signs : ∀ {c}, k.Parts c → c.isOneOf [')', ']'] = true
  current : ∀ {s s'}, k.Beside s s' → s'.cursor.current = s.cursor.current
  passes : ∀ {s s' c}, k.Beside s s' → s.cursor.current = some c →
    k.Beside { s with cursor := s.cursor.advance } { s' with cursor := s'.cursor.advance } ∨
      past { s with cursor := s.cursor.advance }
  stays : ∀ {s t}, past s → t.cursor.remaining ≤ s.cursor.remaining → past t
  free : ∀ {s}, past s → k.Free

/-- The two parsers do the same, unless the first gets past a sign at which the runs part. -/
abbrev Pairing.Goes {α β : Type} (k : Pairing) (past : State → Prop) (R : α → β → Prop)
    (p : Parser α) (q : Parser β) : Prop :=
  k.Trails (fun _ => True) (fun _ => True) (.of fun _ => past) R p q

/-- The same, where the value of the second run is a function of that of the first. -/
abbrev Pairing.GoesTo {α β : Type} (k : Pairing) (past : State → Prop) (f : α → β) (p : Parser α)
    (q : Parser β) : Prop :=
  k.Goes past (fun a b => f a = b) p q

namespace Pairing.Losing

open EcmaPattern.Parser

variable {α β γ δ : Type} {k : Pairing} {past : State → Prop} (h : k.Losing past) {s s' : State}
  {R : α → β → Prop} {R' : γ → δ → Prop}

include h

/-- A test that fails the closing signs fails those at which the runs part. -/
theorem test_of_parts {p : CodePoint → Bool}
    (hsigns : [')', ']'].all (fun d => !p (.ofChar d)) = true) {c : CodePoint}
    (hc : k.Parts c) : p c = false :=
  (Bool.not_eq_true' _).mp (CodePoint.of_isOneOf (fun c => !p c) (h.signs hc) hsigns)

/-- A sign that closes nothing is read in both runs or in neither. -/
theorem not_parts {c : CodePoint} (hc : c.isOneOf [')', ']'] = false) : ¬ k.Parts c := by
  intro hparts
  rw [h.signs hparts] at hc
  cases hc

/-- Until a sign is read at which the runs part, the next two characters are the same. -/
theorem peek_eq (hs : k.Beside s s') (hparts : ∀ c, s.cursor.current = some c → ¬ k.Parts c) :
    s'.cursor.peek 1 = s.cursor.peek 1 := by
  rw [Cursor.peek_succ, Cursor.peek_succ, Cursor.peek_zero, Cursor.peek_zero]
  cases hc : s.cursor.current with
  | some c =>
    obtain ⟨t', hr', ht⟩ := k.read hs (hparts c hc) (State.reads_singleton.mpr ⟨hc, rfl⟩)
    obtain ⟨-, rfl⟩ := State.reads_singleton.mp hr'
    exact h.current ht
  | none =>
    have hc' := (h.current hs).trans hc
    rw [Cursor.advance_of_current_eq_none hc, Cursor.advance_of_current_eq_none hc', hc, hc']

/-- A sign may be looked for, as long as it is not read. -/
theorem sees (c : CodePoint) : k.Pairs Eq (Parser.sees 0 c) (Parser.sees 0 c) :=
  fun _ _ hs => .done (by rw [Cursor.peek_zero, Cursor.peek_zero, h.current hs]) hs

theorem atEnd : k.Pairs Eq Parser.atEnd Parser.atEnd :=
  fun _ _ hs => .done (by rw [h.current hs]) hs

/-- A character is read in both runs, or by the first alone, which is past it then. -/
theorem satisfy (test : CodePoint → Bool) :
    k.Goes past Eq (Parser.satisfy test) (Parser.satisfy test) := by
  have hmiss : ∀ {g : Grammar} {u : State}, (∀ c, u.cursor.current = some c → test c = false) →
      Parser.satisfy test g u = .miss := fun h => satisfy_eq_miss.mpr h
  have hdone : ∀ {g : Grammar} {u : State} {c : CodePoint}, u.cursor.current = some c →
      test c = true → Parser.satisfy test g u = .done c { u with cursor := u.cursor.advance } :=
    fun hc htest => satisfy_eq_done.mpr ⟨htest, State.reads_singleton.mpr ⟨hc, rfl⟩⟩
  intro s s' hs _
  by_cases hfails : ∀ c, s.cursor.current = some c → test c = false
  · rw [hmiss hfails, hmiss (by rwa [h.current hs])]
    exact .miss
  · simp only [not_forall, Bool.not_eq_false] at hfails
    obtain ⟨c, hc, htest⟩ := hfails
    rw [hdone hc htest, hdone ((h.current hs).trans hc) htest]
    rcases h.passes hs hc with hbeside | hpast
    · exact .done rfl trivial hbeside
    · exact .lost (w := none) (fun e => .inl (h.free hpast e)) nofun hpast

/-- What follows must go forward and must not miss, for a run that is past the sign goes on. -/
theorem bind_of {p : Parser α} {q : Parser β} {r : α → Parser γ} {r' : β → Parser δ}
    (hp : k.Goes past R p q) (hr : ∀ a b, R a b → k.Goes past R' (r a) (r' b))
    (hproceeds : ∀ a, Proceeds k.left (r a)) : k.Goes past R' (p >>= r) (q >>= r') :=
  Trails.bind_of hp hr fun _ a u hpast => ⟨(hproceeds a).ne_miss u, fun _ _ hc =>
    h.stays hpast ((hproceeds a).advances _ _ _ hc)⟩

theorem bind {p q : Parser α} {r : α → Parser γ} {r' : α → Parser δ} (hp : k.Goes past Eq p q)
    (hr : ∀ a, k.Goes past R' (r a) (r' a)) (hproceeds : ∀ a, Proceeds k.left (r a)) :
    k.Goes past R' (p >>= r) (q >>= r') :=
  h.bind_of hp (fun a _ hab => hab ▸ hr a) hproceeds

/-- The same behind a parser that gives the image of a value. -/
theorem map_bind {f : α → β} {p : Parser α} {q : Parser β} {r : α → Parser γ} {r' : β → Parser δ}
    (hp : k.GoesTo past f p q) (hr : ∀ a, k.Goes past R' (r a) (r' (f a)))
    (hproceeds : ∀ a, Proceeds k.left (r a)) : k.Goes past R' (p >>= r) (q >>= r') :=
  h.bind_of hp (fun a _ hab => hab ▸ hr a) hproceeds

/-- What follows an attempt may miss if that came to nothing. -/
theorem attempt_bind {f : α → β} {p : Parser α} {q : Parser β} {r : Option α → Parser γ}
    {r' : Option β → Parser δ} (hp : k.GoesTo past f p q)
    (hr : ∀ o, k.Goes past R' (r o) (r' (o.map f)))
    (hproceeds : ∀ a, Proceeds k.left (r (some a))) :
    k.Goes past R' (attempt p >>= r) (attempt q >>= r') :=
  hp.attempt_bind_of (hr none) (fun a _ hab => hab ▸ hr (some a)) fun _ a u hpast =>
    ⟨(hproceeds a).ne_miss u, fun _ _ hc => h.stays hpast ((hproceeds a).advances _ _ _ hc)⟩

theorem many_of {p : Parser α} {q : Parser β} (hp : k.Goes past R p q)
    (hleft : Progresses p k.left) (hright : Progresses q k.right) :
    k.Goes past (List.Forall₂ R) (many p) (many q) :=
  Trails.many_of hp hleft hright (fun _ _ _ _ _ hpast has => h.stays hpast (hleft.chain_le has))
    fun _ _ _ _ _ _ hpast => hpast

/-- A run that is past the sign in one repetition is past it after the others. -/
theorem many {f : α → β} {p : Parser α} {q : Parser β} (hp : k.GoesTo past f p q)
    (hleft : Progresses p k.left) (hright : Progresses q k.right) :
    k.GoesTo past (List.map f) (many p) (many q) :=
  (h.many_of hp hleft hright).mono (fun _ => id) (fun _ => id) (fun _ _ _ => id)
    fun as bs hab => by rwa [← List.forall₂_map_left_iff, List.forall₂_eq_eq_eq] at hab

end Pairing.Losing

namespace Parser

variable {k : Pairing} {P : State → Prop} {lost : Loss CodePoint}

/-! ## Escaped characters

Which characters may be escaped to stand for themselves is asked of the comparison. All other
escapes are read alike. -/

theorem escapedValue_trails (h : k.Alike) (hexact : k.right.exact = k.left.exact)
    (hidentity : k.Trails P (fun _ => True) lost Eq identityEscape identityEscape) :
    k.Trails P (fun _ => True) lost Eq escapedValue escapedValue := by
  refine .grammar_bind ?_
  rw [h.unicode, hexact]
  have hoctal : k.Pairs Eq (do require !k.left.exact; legacyOctal)
      (do require !k.left.exact; legacyOctal) :=
    (require_pairs _).bind fun _ => legacyOctal_pairs
  refine .orElse (.of_pairs controlEscape_pairs) (.orElse (.of_pairs controlLetter_pairs) ?_)
  refine .orElse (.of_pairs zeroEscape_pairs) (.orElse (.of_pairs (hexEscape_pairs h)) ?_)
  exact .orElse (.of_pairs (wideEscape_pairs h false)) (.orElse (.of_pairs hoctal) hidentity)

/-- An escape has the same value in both runs if it is read to the end in both. -/
theorem escapedValue_pairs (h : k.Alike) (hexact : k.right.exact = k.left.exact)
    (hidentity : k.Pairs Eq identityEscape identityEscape) :
    k.Pairs Eq escapedValue escapedValue :=
  (escapedValue_trails h hexact (P := fun _ => True) (.of_pairs hidentity)).pairs

end Parser

end EcmaPattern
