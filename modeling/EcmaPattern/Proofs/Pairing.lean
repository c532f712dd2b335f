import EcmaPattern.Proofs.Spelling
import Mathlib.Data.List.Forall2

/-!
# Runs side by side

Much of what is said of the parser compares two runs of it: by one grammar and by another, at one
offset and at another, over a text and over a part of the text. What such a comparison says of a
compound parser follows from what it says of the parts, and it does so in the same way whatever the
two runs have in common. So the argument is made here once, and a comparison only has to say what it
compares.

A `Pairing` says that. From states that are `Beside` each other, two parsers that `Pairs` relates
are both done, with related values and at states that are beside each other again; or both miss; or
both find a fault, unless the fault of the first run excuses the second from following it. The first
section shows that this is closed under the combinators. The sections after it go through the
parsers of numbers and quantifiers, of escaped characters, of names and of properties.

A property of a single run is the case in which the second run is the first one over again: then
`Beside` and `Blames` say where the run gets to and which faults it finds.

Key lemmas:

* `Outcomes.bind` and the other closure lemmas of the first section, one for each combinator;
* `Pairs.many_of` and `Pairs.many_of_remaining`, for repetitions, where the two bounds may differ;
* `select_pairs`, which says what it takes for two runs to read the same character;
* `unicodeEscape_pairs`, `groupName_pairs` and `setEscape_pairs`, on which all comparisons of terms
  and classes rest.
-/

namespace EcmaPattern

/-! ## What two runs have in common

A pairing fixes two grammars, which states are beside each other, which marks go together, how spans
change, at which characters the runs may part, and which faults excuse. Its fields are what the
combinators need and nothing more. `Alike` and `SameProperties` are what the parsers of escapes and
properties ask of the grammars in addition. -/

/-- Whether it is about what is written in terms, not about a literal, about flags, about what
stands behind all terms, or about what the runtime can do. -/
def Cause.isOfTerms : Cause → Bool
  | .unterminatedLiteral | .emptyLiteral | .conflictingFlags => false
  | .invalidFlag _ | .unexpectedCharacter _ | .tooManyDigits _ => false
  | _ => true

/-- Whether a character is one at which two runs may part: a sign that ends a construct or divides
it, or a character that code units write with surrogates. -/
def CodePoint.mayPart (c : CodePoint) : Bool := c.isOneOf [')', ']', '|'] || 0xD800 ≤ c.val

/-- Two runs may also part nowhere. -/
theorem CodePoint.mayPart_of_false {c : CodePoint} (h : False) : c.mayPart = true := h.elim

/-- Two runs, each by a grammar of its own. -/
structure Pairing where
  left : Grammar
  right : Grammar
  /-- The states from which the two runs do the same. -/
  Beside : State → State → Prop
  /-- The places from which the two runs take their spans. -/
  Marks : Cursor → Cursor → Prop
  /-- What a span of the first run is in the second. -/
  span : Span → Span
  /-- The characters that one run may read where the other does not. -/
  Parts : CodePoint → Prop
  /-- The faults that the two runs find together. -/
  Blames : Fault → Fault → Prop
  /-- The faults of the first run after which it does not matter what the second one does. -/
  Excuses : Fault → Prop
  mayPart_of_parts : ∀ {c}, Parts c → c.mayPart = true
  marks : ∀ {s s'}, Beside s s' → Marks s.cursor s'.cursor
  between : ∀ {m m' s s'}, Marks m m' → Beside s s' →
    Span.between m' s'.cursor = span (.between m s.cursor)
  read : ∀ {s s' t c}, Beside s s' → ¬ Parts c → s.Reads [c] t →
    ∃ t', s'.Reads [c] t' ∧ Beside t t'
  stop : ∀ {s s' c'}, Beside s s' → (∀ c, s.cursor.current = some c → Parts c) →
    s'.cursor.current = some c' → Parts c'
  blames : ∀ {m m' cause}, Marks m m' → cause.isOfTerms = true →
    Blames ⟨cause, m.index⟩ ⟨cause, m'.index⟩
  blames_tooMany : ∀ {s s' t t' cs}, Beside s s' → s.Reads cs t → Beside t t' →
    (∀ d ∈ cs, d.isDecimalDigit = true) → 4300 < cs.length →
    Blames ⟨.tooManyDigits cs.length, t.cursor.index⟩ ⟨.tooManyDigits cs.length, t'.cursor.index⟩

namespace Pairing

variable (k : Pairing)

/-- Whatever fault the first run finds, it does not matter what the second one does. -/
def Free : Prop := ∀ e, k.Excuses e

/-- The grammars have the same characters, and differ in strictness only where this is made up for:
the first run may be the strict one if its faults are excused, or by code points. -/
structure Alike : Prop where
  unicode : k.right.unicode = k.left.unicode
  strict : k.right.strict = k.left.strict ∨
    k.left.strict = true ∧ (k.Free ∨ k.left.unicode = true)

/-- What the two runs come to. -/
inductive Outcomes {α β : Type} (R : α → β → Prop) : Outcome α → Outcome β → Prop
  | done {a : α} {b : β} {t t' : State} (hab : R a b) (ht : k.Beside t t') :
    Outcomes R (.done a t) (.done b t')
  | miss : Outcomes R .miss .miss
  | fault {e e' : Fault} (h : k.Blames e e') : Outcomes R (.fault e) (.fault e')
  | excused {e : Fault} {o : Outcome β} (h : k.Excuses e) : Outcomes R (.fault e) o

/-- From states that are beside each other, the two parsers come to the same, with values that are
related. -/
def Pairs {α β : Type} (R : α → β → Prop) (p : Parser α) (q : Parser β) : Prop :=
  ∀ s s', k.Beside s s' → k.Outcomes R (p k.left s) (q k.right s')

/-- The same, where the value of the second run is a function of that of the first. -/
abbrev Maps {α β : Type} (f : α → β) (p : Parser α) (q : Parser β) : Prop :=
  k.Pairs (fun a b => f a = b) p q

variable {k}

/-- The web grammar is in force in both runs, or in the second alone. -/
theorem Alike.exact (h : k.Alike) :
    k.right.exact = k.left.exact ∨ k.left.exact = true ∧ k.Free := by
  rw [Grammar.exact, Grammar.exact, h.unicode]
  rcases h.strict with hstrict | ⟨hstrict, hfree | hunicode⟩
  · exact .inl (by rw [hstrict])
  · exact .inr ⟨by rw [hstrict, Bool.true_or], hfree⟩
  · exact .inl (by rw [hunicode, Bool.or_true, Bool.or_true])

/-! ### What lies ahead

In states beside each other the same character lies ahead, or one at which the runs may part. A
parser that reads none of the latter behaves alike. -/

theorem not_parts {c : CodePoint} (h : c.mayPart = false) : ¬ k.Parts c := by
  intro hc
  rw [k.mayPart_of_parts hc] at h
  cases h

variable {s s' : State}

/-- The two runs read the same character, or neither reads any but one at which they part. -/
theorem ahead_cases (hs : k.Beside s s') :
    (∃ c t t', ¬ k.Parts c ∧ s.Reads [c] t ∧ s'.Reads [c] t' ∧ k.Beside t t') ∨
      (∀ c, s.cursor.current = some c → k.Parts c) ∧
        ∀ c, s'.cursor.current = some c → k.Parts c := by
  by_cases h : ∀ c, s.cursor.current = some c → k.Parts c
  · exact .inr ⟨h, fun c => k.stop hs h⟩
  · simp only [not_forall] at h
    obtain ⟨c, hc, hparts⟩ := h
    have hr : s.Reads [c] { s with cursor := s.cursor.advance } :=
      State.reads_singleton.mpr ⟨hc, rfl⟩
    obtain ⟨t', hr', ht⟩ := k.read hs hparts hr
    exact .inl ⟨c, _, t', hparts, hr, hr', ht⟩

/-- A test that fails the characters at which the runs part has the same result in both. -/
theorem any_current_eq {test : CodePoint → Bool} (h : ∀ c, k.Parts c → test c = false)
    (hs : k.Beside s s') : s'.cursor.current.any test = s.cursor.current.any test := by
  have hfalse : ∀ {u : State}, (∀ c, u.cursor.current = some c → k.Parts c) →
      u.cursor.current.any test = false := by
    intro u hu
    cases hc : u.cursor.current with
    | none => rfl
    | some c => exact h c (hu c hc)
  rcases ahead_cases hs with ⟨c, t, t', -, hr, hr', -⟩ | ⟨hparts, hparts'⟩
  · rw [hr.current_eq, hr'.current_eq]
  · rw [hfalse hparts, hfalse hparts']

end Pairing

/-! ## Combinators

One lemma for each combinator, and none of them mentions a particular parser. From here on a
comparison of two parsers is written down in the same shape as the parsers themselves. -/

namespace Pairing.Outcomes

open EcmaPattern.Parser

variable {α β γ δ : Type} {k : Pairing} {R : α → β → Prop} {R' : γ → δ → Prop} {s s' : State}
  {p p₂ : Parser α} {q q₂ : Parser β}

/-- What follows is compared only where the two runs have got to. -/
theorem bind {f : α → Parser γ} {h : β → Parser δ}
    (hp : k.Outcomes R (p k.left s) (q k.right s'))
    (hf : ∀ a t b t', p k.left s = .done a t → q k.right s' = .done b t' → R a b →
      k.Beside t t' → k.Outcomes R' (f a k.left t) (h b k.right t')) :
    k.Outcomes R' ((p >>= f) k.left s) ((q >>= h) k.right s') := by
  rw [bind_apply, bind_apply]
  generalize p k.left s = o at hp hf
  generalize q k.right s' = o' at hp hf
  cases hp with
  | done hab ht => exact hf _ _ _ _ rfl rfl hab ht
  | miss => exact .miss
  | fault h => exact .fault h
  | excused h => exact .excused h

/-- A second choice is compared only where the first run misses. -/
theorem orElse (hp : k.Outcomes R (p k.left s) (q k.right s'))
    (hq : p k.left s = .miss → k.Outcomes R (p₂ k.left s) (q₂ k.right s')) :
    k.Outcomes R ((p <|> p₂) k.left s) ((q <|> q₂) k.right s') := by
  rw [orElse_apply, orElse_apply]
  generalize p k.left s = o at hp hq
  generalize q k.right s' = o' at hp
  cases hp with
  | done hab ht => exact .done hab ht
  | miss => exact hq rfl
  | fault h => exact .fault h
  | excused h => exact .excused h

theorem attempt (hs : k.Beside s s') (hp : k.Outcomes R (p k.left s) (q k.right s')) :
    k.Outcomes (Option.Rel R) (Parser.attempt p k.left s) (Parser.attempt q k.right s') := by
  rw [Parser.attempt, Parser.attempt]
  generalize p k.left s = o at hp
  generalize q k.right s' = o' at hp
  cases hp with
  | done hab ht => exact .done (.some hab) ht
  | miss => exact .done .none hs
  | fault h => exact .fault h
  | excused h => exact .excused h

/-- What is said of the results may be weakened. -/
theorem mono {R₂ : α → β → Prop} {o : Outcome α} {o' : Outcome β} (h : k.Outcomes R o o')
    (hR : ∀ a b, R a b → R₂ a b) : k.Outcomes R₂ o o' := by
  cases h with
  | done hab ht => exact .done (hR _ _ hab) ht
  | miss => exact .miss
  | fault h => exact .fault h
  | excused h => exact .excused h

/-- Where the first run is done, so is the second. -/
theorem of_done {a : α} {t : State} {o : Outcome β} (h : k.Outcomes R (.done a t) o) :
    ∃ b t', o = .done b t' ∧ R a b ∧ k.Beside t t' := by
  cases h with
  | done hab ht => exact ⟨_, _, rfl, hab, ht⟩

/-- Where the first run misses, so does the second. -/
theorem of_miss {o : Outcome β} (h : k.Outcomes R .miss o) : o = .miss := by
  cases h with
  | miss => rfl

/-- Where all faults are excused, it is enough to be done and to miss alike. -/
theorem of_free {o : Outcome α} {o' : Outcome β} (hfree : k.Free)
    (hdone : ∀ a t, o = .done a t → ∃ b t', o' = .done b t' ∧ R a b ∧ k.Beside t t')
    (hmiss : o = .miss → o' = .miss) : k.Outcomes R o o' := by
  cases o with
  | done a t =>
    obtain ⟨b, t', rfl, hab, ht⟩ := hdone a t rfl
    exact .done hab ht
  | miss =>
    rw [hmiss rfl]
    exact .miss
  | fault e => exact .excused (hfree e)

end Pairing.Outcomes

namespace Pairing.Pairs

open EcmaPattern.Parser

variable {α β γ δ : Type} {k : Pairing} {R : α → β → Prop} {R' : γ → δ → Prop}
  {p p₂ : Parser α} {q q₂ : Parser β}

protected theorem pure {a : α} {b : β} (h : R a b) : k.Pairs R (pure a) (pure b) :=
  fun _ _ hs => .done h hs

protected theorem miss : k.Pairs R miss miss := fun _ _ _ => .miss

protected theorem fail {cause : Cause} (h : cause.isOfTerms = true) :
    k.Pairs R (fail cause) (fail cause) :=
  fun _ _ hs => .fault (k.blames (k.marks hs) h)

/-- A fault at a place that was remembered. -/
protected theorem failAt {cause : Cause} (h : cause.isOfTerms = true) {m m' : Cursor}
    (hm : k.Marks m m') : k.Pairs R (failAt cause m.index) (failAt cause m'.index) :=
  fun _ _ _ => .fault (k.blames hm h)

/-- Where every fault is excused, whatever is done in place of one will do. -/
theorem of_fault (h : k.Free) (hp : ∀ s, ∃ e, p k.left s = .fault e) : k.Pairs R p q := by
  intro s s' _
  obtain ⟨e, he⟩ := hp s
  rw [he]
  exact .excused (h e)

theorem of_free {cause : Cause} (h : k.Free) : k.Pairs R (fail cause) q :=
  of_fault h fun _ => ⟨_, rfl⟩

/-- What is said of the results may be weakened. -/
theorem mono {R₂ : α → β → Prop} (hp : k.Pairs R p q) (hR : ∀ a b, R a b → R₂ a b) :
    k.Pairs R₂ p q :=
  fun s s' hs => (hp s s' hs).mono hR

/-- Two parsers in a row go beside two in a row if the later ones do on results that go together. -/
theorem bind_of {f : α → Parser γ} {h : β → Parser δ} (hp : k.Pairs R p q)
    (hf : ∀ a b, R a b → k.Pairs R' (f a) (h b)) : k.Pairs R' (p >>= f) (q >>= h) :=
  fun s s' hs => (hp s s' hs).bind fun a t b t' _ _ hab => hf a b hab t t'

/-- Choices go beside each other: the runs part, or they miss together. -/
protected theorem orElse (hp : k.Pairs R p q) (hq : k.Pairs R p₂ q₂) :
    k.Pairs R (p <|> p₂) (q <|> q₂) :=
  fun s s' hs => (hp s s' hs).orElse fun _ => hq s s' hs

/-- A value that is made of another is related if the two that they are made of are. -/
theorem map_of {f : α → γ} {f' : β → δ} (hp : k.Pairs R p q)
    (hf : ∀ a b, R a b → R' (f a) (f' b)) : k.Pairs R' (f <$> p) (f' <$> q) :=
  hp.bind_of (f := fun a => pure (f a)) (h := fun b => pure (f' b)) fun a b hab =>
    .pure (hf a b hab)

/-- Attempts go beside each other, and give a value both or neither. -/
theorem attempt_of (hp : k.Pairs R p q) :
    k.Pairs (Option.Rel R) (Parser.attempt p) (Parser.attempt q) :=
  fun s s' hs => (hp s s' hs).attempt hs

protected theorem ite {c : Prop} [Decidable c] (hp : k.Pairs R p q) (hq : k.Pairs R p₂ q₂) :
    k.Pairs R (if c then p else p₂) (if c then q else q₂) := by
  split
  · exact hp
  · exact hq

/-- Each run asks its own grammar. -/
theorem grammar_bind {f : Grammar → Parser α} {f' : Grammar → Parser β}
    (h : k.Pairs R (f k.left) (f' k.right)) : k.Pairs R (grammar >>= f) (grammar >>= f') := h

/-- The grammars may differ in a feature as long as what follows goes beside what follows. -/
theorem supports_bind {feature : Feature} {f : Bool → Parser α} {f' : Bool → Parser β}
    (h : k.Pairs R (f (k.left.edition.supports feature)) (f' (k.right.edition.supports feature))) :
    k.Pairs R (supports feature >>= f) (supports feature >>= f') := h

/-- A place that is remembered in one run has its counterpart in the other. -/
theorem here_bind {f : Cursor → Parser α} {f' : Cursor → Parser β}
    (h : ∀ m m', k.Marks m m' → k.Pairs R (f m) (f' m')) :
    k.Pairs R (here >>= f) (here >>= f') :=
  fun s s' hs => h _ _ (k.marks hs) s s' hs

/-- Spans from marks that go together are changed into one another. -/
theorem spanFrom_bind {m m' : Cursor} (hm : k.Marks m m') {f : Span → Parser α}
    {f' : Span → Parser β} (h : ∀ span, k.Pairs R (f span) (f' (k.span span))) :
    k.Pairs R (spanFrom m >>= f) (spanFrom m' >>= f') := by
  intro s s' hs
  rw [Parser.spanFrom_bind, Parser.spanFrom_bind, k.between hm hs]
  exact h _ s s' hs

/-! ### Values that are the same

Most parsers give the same value in both runs, so the relation between the values is equality and
the rest of the parser may use it. -/

section Same

variable {p q : Parser α}

/-- What gives the same value in both runs may be followed by anything that goes beside itself. -/
protected theorem bind {f : α → Parser γ} {f' : α → Parser δ} (hp : k.Pairs Eq p q)
    (hf : ∀ a, k.Pairs R' (f a) (f' a)) : k.Pairs R' (p >>= f) (q >>= f') :=
  hp.bind_of fun a _ hab => hab ▸ hf a

/-- To build a larger tree is to change its parts. -/
protected theorem map {f : α → γ} (hp : k.Pairs Eq p q) : k.Pairs Eq (f <$> p) (f <$> q) :=
  hp.map_of fun _ _ => congrArg f

protected theorem attempt (hp : k.Pairs Eq p q) :
    k.Pairs Eq (Parser.attempt p) (Parser.attempt q) := by
  refine hp.attempt_of.mono fun o o' ho => ?_
  cases ho with
  | some hab => exact congrArg some hab
  | none => rfl

end Same

/-! ### Repetition

A repetition is bounded by the number of units that lie ahead, and this may differ between the runs.
It makes no difference where each step reads something, for then the bound is never reached
(`many`); where the number is the same in both runs, the steps need not read anything
(`many_of_remaining`). -/

/-- As many steps are allowed in one run as in the other. -/
theorem upTo_of (hp : k.Pairs R p q) (count : Nat) :
    k.Pairs (List.Forall₂ R) (upTo p count) (upTo q count) := by
  induction count with
  | zero => exact .pure .nil
  | succ count ih =>
    rw [upTo_succ_eq, upTo_succ_eq]
    refine hp.attempt_of.bind_of fun o o' ho => ?_
    cases ho with
    | some hab => exact ih.map_of fun _ _ => .cons hab
    | none => exact .pure .nil

/-- Repetitions go beside each other if as much is left to read in both runs, for then they may be
repeated equally often. -/
theorem many_of_remaining
    (hremaining : ∀ s s', k.Beside s s' → s'.cursor.remaining = s.cursor.remaining)
    (hp : k.Pairs R p q) : k.Pairs (List.Forall₂ R) (many p) (many q) := by
  intro s s' hs
  rw [Parser.many, Parser.many, hremaining s s' hs]
  exact hp.upTo_of _ s s' hs

/-- More steps are allowed in either run than can be made. -/
theorem upTo_of_lt (hp : k.Pairs R p q) (hleft : Progresses p k.left)
    (hright : Progresses q k.right) {n n' : Nat} {s s' : State} (hs : k.Beside s s')
    (hn : s.cursor.remaining < n) (hn' : s'.cursor.remaining < n') :
    k.Outcomes (List.Forall₂ R) (upTo p n k.left s) (upTo q n' k.right s') := by
  induction n generalizing n' s s' with
  | zero => omega
  | succ n ih =>
    obtain ⟨n', rfl⟩ : ∃ m, n' = m + 1 := ⟨n' - 1, by omega⟩
    rw [upTo_succ_eq, upTo_succ_eq]
    refine ((hp s s' hs).attempt hs).bind fun o t o' t' ho ho' hab ht => ?_
    cases hab with
    | none => exact .done .nil ht
    | @some a b hab =>
      obtain ⟨_, hsome, ha⟩ := (attempt_eq_done.mp ho).resolve_right (by simp)
      obtain ⟨_, hsome', hb⟩ := (attempt_eq_done.mp ho').resolve_right (by simp)
      cases hsome
      cases hsome'
      have hlt := hleft s a t ha
      have hlt' := hright s' b t' hb
      exact (ih ht (by omega) (by omega)).bind (f := fun as => pure (a :: as))
        (h := fun bs => pure (b :: bs)) fun _ _ _ _ _ _ habs hu => .done (.cons hab habs) hu

/-- Repetitions go beside each other if the parsers make progress, for then there are enough
repetitions in either run, however much is left to read. -/
theorem many_of (hp : k.Pairs R p q) (hleft : Progresses p k.left)
    (hright : Progresses q k.right) : k.Pairs (List.Forall₂ R) (many p) (many q) :=
  fun _ _ hs => hp.upTo_of_lt hleft hright hs (Nat.lt_succ_self _) (Nat.lt_succ_self _)

section Same

variable {p q : Parser α}

/-- A repetition gives the images of what the repetition beside it gives. -/
protected theorem many (hp : k.Pairs Eq p q) (hleft : Progresses p k.left)
    (hright : Progresses q k.right) : k.Pairs Eq (many p) (many q) :=
  (hp.many_of hleft hright).mono fun _ _ h => List.forall₂_eq_eq_eq ▸ h

protected theorem many1 (hp : k.Pairs Eq p q) (hleft : Progresses p k.left)
    (hright : Progresses q k.right) : k.Pairs Eq (many1 p) (many1 q) :=
  hp.bind fun _ => (hp.many hleft hright).bind fun _ => .pure rfl

protected theorem times (hp : k.Pairs Eq p q) (count : Nat) :
    k.Pairs Eq (times p count) (times q count) := by
  induction count with
  | zero => exact .pure rfl
  | succ count ih => exact hp.bind fun _ => ih.bind fun _ => .pure rfl

end Same

end Pairing.Pairs

/-! ### Values that are made of others

Where a tree is given, that of the second run is the image of the first under a function. `Maps`
says so, and is closed under the combinators that build trees from smaller ones. -/

namespace Pairing.Maps

open EcmaPattern.Parser

variable {α β γ δ : Type} {k : Pairing} {R : γ → δ → Prop} {f : α → β} {h : γ → δ}
  {p : Parser α} {q : Parser β}

/-- Behind parsers that give trees of which one is the other's image, the rest may depend on the
tree. -/
theorem bind {r : α → Parser γ} {r' : β → Parser δ} (hp : k.Maps f p q)
    (hr : ∀ a, k.Pairs R (r a) (r' (f a))) : k.Pairs R (p >>= r) (q >>= r') :=
  hp.bind_of fun a _ hab => hab ▸ hr a

theorem map {c : α → γ} {d : β → δ} (hp : k.Maps f p q) (hcd : ∀ a, h (c a) = d (f a)) :
    k.Maps h (c <$> p) (d <$> q) :=
  hp.map_of fun a _ hab => hab ▸ hcd a

theorem attempt (hp : k.Maps f p q) :
    k.Maps (Option.map f) (Parser.attempt p) (Parser.attempt q) := by
  refine hp.attempt_of.mono fun o o' ho => ?_
  cases ho with
  | some hab => exact congrArg some hab
  | none => rfl

theorem many (hremaining : ∀ s s', k.Beside s s' → s'.cursor.remaining = s.cursor.remaining)
    (hp : k.Maps f p q) : k.Maps (List.map f) (Parser.many p) (Parser.many q) := by
  refine (hp.many_of_remaining hremaining).mono fun as bs h => ?_
  rwa [← List.forall₂_map_left_iff, List.forall₂_eq_eq_eq] at h

/-- Lists of things that stay what they are stay what they are. -/
theorem of_map_id {p q : Parser (List α)} (hp : k.Maps (List.map id) p q) : k.Pairs Eq p q :=
  hp.mono fun as _ h => (List.map_id as).symm.trans h

/-- A span is taken, and a value made with it. -/
theorem spanned {m m' : Cursor} (hm : k.Marks m m') {make : Span → α} {make' : Span → β}
    (hmake : ∀ span, f (make span) = make' (k.span span)) :
    k.Maps f (do return make (← spanFrom m)) (do return make' (← spanFrom m')) :=
  .spanFrom_bind hm fun span => .pure (hmake span)

end Pairing.Maps

/-! ## Characters

The parsers of single characters. Each asks that none of the parting signs is among what it reads,
which is decided by evaluating its test on the few signs that can part two runs. -/

namespace Parser

variable {α β : Type} {k : Pairing} {R : α → β → Prop}

theorem require_pairs (b : Bool) : k.Pairs Eq (require b) (require b) := by
  cases b
  · exact .miss
  · exact .pure rfl

theorem supports_pairs {feature : Feature}
    (h : k.right.edition.supports feature = k.left.edition.supports feature) :
    k.Pairs Eq (supports feature) (supports feature) :=
  fun _ _ hs => .done h.symm hs

/-- Where a run has nothing ahead but a character at which runs part, it misses. -/
theorem select_miss_of_parts {value? : CodePoint → Option α} (h : ∀ c, k.Parts c → value? c = none)
    {g : Grammar} {s : State} (hs : ∀ c, s.cursor.current = some c → k.Parts c) :
    select value? g s = .miss := by
  rw [select_eq_miss, Option.bind_eq_none_iff]
  exact fun c hc => h c (hs c hc)

/-- Characters at which the runs may part must have no value; then either both runs select or
neither. -/
theorem select_pairs {value? : CodePoint → Option α} (h : ∀ c, k.Parts c → value? c = none) :
    k.Pairs Eq (select value?) (select value?) := by
  intro s s' hs
  rcases Pairing.ahead_cases hs with ⟨c, t, t', -, hr, hr', ht⟩ | ⟨hparts, hparts'⟩
  · cases hv : value? c with
    | some a =>
      rw [select_eq_done.mpr ⟨c, hv, hr⟩, select_eq_done.mpr ⟨c, hv, hr'⟩]
      exact .done rfl ht
    | none =>
      have hmiss : ∀ {g : Grammar} {u v : State}, u.Reads [c] v → select value? g u = .miss := by
        intro g u v hu
        rw [select_eq_miss, hu.current_eq, Option.bind_some, hv]
      rw [hmiss hr, hmiss hr']
      exact .miss
  · rw [select_miss_of_parts h hparts, select_miss_of_parts h hparts']
    exact .miss

/-- Characters at which the runs may part must fail the test. -/
theorem satisfy_pairs {test : CodePoint → Bool} (h : ∀ c, k.Parts c → test c = false) :
    k.Pairs Eq (satisfy test) (satisfy test) := by
  rw [satisfy_eq_select]
  refine select_pairs fun c hc => ?_
  rw [Option.guard, h c hc]
  rfl

/-- A character of any kind, if what follows it misses where the runs may part. -/
theorem satisfy_bind_pairs {f : CodePoint → Parser α} {f' : CodePoint → Parser β}
    (hf : ∀ c, k.Pairs R (f c) (f' c)) (hleft : ∀ c s, k.Parts c → f c k.left s = .miss)
    (hright : ∀ c s, k.Parts c → f' c k.right s = .miss) (test : CodePoint → Bool) :
    k.Pairs R (satisfy test >>= f) (satisfy test >>= f') := by
  intro s s' hs
  rcases Pairing.ahead_cases hs with ⟨c, t, t', -, hr, hr', ht⟩ | ⟨hparts, hparts'⟩
  · cases htest : test c with
    | true =>
      rw [bind_of_done (satisfy_eq_done.mpr ⟨htest, hr⟩),
        bind_of_done (satisfy_eq_done.mpr ⟨htest, hr'⟩)]
      exact hf c t t' ht
    | false =>
      have hmiss : ∀ {g : Grammar} {u v : State}, u.Reads [c] v → satisfy test g u = .miss := by
        intro g u v hu
        rw [satisfy_eq_miss, hu.current_eq]
        rintro _ ⟨⟩
        exact htest
      rw [bind_of_miss (hmiss hr), bind_of_miss (hmiss hr')]
      exact .miss
  -- at a parting sign the runs may read different characters, but what follows misses in both
  · have hmiss : ∀ {γ : Type} {r : CodePoint → Parser γ} {g : Grammar} {u : State},
        (∀ c, u.cursor.current = some c → k.Parts c) → (∀ c s, k.Parts c → r c g s = .miss) →
          (satisfy test >>= r) g u = .miss := by
      intro γ r g u hu hr
      rw [bind_eq_miss, satisfy_eq_miss]
      by_cases hall : ∀ c, u.cursor.current = some c → test c = false
      · exact .inl hall
      · simp only [not_forall, Bool.not_eq_false] at hall
        obtain ⟨c, hc, htest⟩ := hall
        exact .inr ⟨c, _, satisfy_eq_done.mpr ⟨htest, State.reads_singleton.mpr ⟨hc, rfl⟩⟩,
          hr c _ (hu c hc)⟩
    rw [hmiss hparts hleft, hmiss hparts' hright]
    exact .miss

/-- A sign that is never a parting sign is read in both runs or in neither. -/
theorem eat_pairs {c : CodePoint} (h : ¬ k.Parts c) : k.Pairs Eq (eat c) (eat c) := by
  have hsatisfy : k.Pairs Eq (satisfy (· == c)) (satisfy (· == c)) := by
    refine satisfy_pairs fun d hd => beq_eq_false_iff_ne.mpr ?_
    rintro rfl
    exact h hd
  exact hsatisfy.bind fun _ => .pure rfl

/-- A sign at which no two runs part. -/
theorem sign_pairs {c : CodePoint} (h : c.mayPart = false) : k.Pairs Eq (eat c) (eat c) :=
  eat_pairs (Pairing.not_parts h)

theorem eats_pairs {c : CodePoint} (h : ¬ k.Parts c) : k.Pairs Eq (eats c) (eats c) :=
  (eat_pairs h).attempt.bind fun _ => .pure rfl

/-- Several signs are read in both runs or in neither, if none of them is ever a parting sign. -/
theorem eatAll_pairs {cs : List Char}
    (h : cs.all (fun c => !(CodePoint.ofChar c).mayPart) = true) :
    k.Pairs Eq (eatAll cs) (eatAll cs) := by
  induction cs with
  | nil => exact .pure rfl
  | cons c cs ih =>
    rw [List.all_cons, Bool.and_eq_true, Bool.not_eq_true'] at h
    rw [eatAll_cons]
    exact (sign_pairs h.1).bind fun _ => ih h.2

theorem sees_pairs {c : CodePoint} (h : ¬ k.Parts c) : k.Pairs Eq (sees 0 c) (sees 0 c) := by
  intro s s' hs
  have htest : ∀ d, k.Parts d → (d == c) = false := by
    intro d hd
    rw [beq_eq_false_iff_ne]
    rintro rfl
    exact h hd
  have hany : ∀ u : State, (u.cursor.peek 0 == some c) = u.cursor.current.any (· == c) := by
    intro u
    rw [Cursor.peek_zero]
    cases u.cursor.current <;> rfl
  refine .done ?_ hs
  rw [hany, hany, Pairing.any_current_eq htest hs]

end Parser

/-! ## Signs at which no two runs part

Whatever a pairing compares, its runs part only at closing signs, at bars, or at characters that
code units write with surrogates. The tests for digits, letters and the characters of properties
fail on all of these. -/

namespace CodePoint

variable {c d : CodePoint}

theorem ne_of_mayPart (hc : c.mayPart = true) (hd : d.mayPart = false) : c ≠ d := by
  rintro rfl
  rw [hc] at hd
  cases hd

/-- A test that fails the signs and all that lies above them. -/
theorem test_of_mayPart {test : CodePoint → Bool}
    (hsigns : [')', ']', '|'].all (fun d => !test (ofChar d)) = true)
    (habove : ∀ c : CodePoint, test c = true → c.val < 0xD800) (hc : c.mayPart = true) :
    test c = false := by
  rcases (Bool.or_eq_true _ _).mp hc with hsign | hle
  · exact (Bool.not_eq_true' _).mp (of_isOneOf (fun c => !test c) hsign hsigns)
  · rw [Bool.eq_false_iff]
    intro htest
    exact absurd (of_decide_eq_true hle) (Nat.not_le.mpr (habove c htest))

/-- No digit is a parting sign, in whatever base, so numbers are read alike. -/
theorem digit?_of_mayPart (base : Nat) (hc : c.mayPart = true) : c.digit? base = none := by
  rw [← Option.isNone_iff_eq_none, ← Option.not_isSome, Bool.not_eq_true']
  rw [Bool.eq_false_iff]
  intro hsome
  have hhex := @test_of_mayPart c (fun d => d.hexValue?.isSome) (by decide)
    (fun d h => by rw [hexValue?] at h; grind) hc
  exact absurd (isSome_hexValue? hsome) (Bool.eq_false_iff.mp hhex)

theorem isDecimalDigit_of_mayPart (hc : c.mayPart = true) : c.isDecimalDigit = false := by
  rw [isDecimalDigit, digit?_of_mayPart 10 hc]
  rfl

theorem isLatinLetter_of_mayPart (hc : c.mayPart = true) : c.isLatinLetter = false :=
  test_of_mayPart (by decide) (fun c h => by rw [isLatinLetter_iff] at h; omega) hc

theorem isPropertyNameCharacter_of_mayPart (hc : c.mayPart = true) :
    c.isPropertyNameCharacter = false := by
  rw [isPropertyNameCharacter, isLatinLetter_of_mayPart hc, Bool.false_or]
  exact isOneOf_eq_false mayPart hc (by decide)

theorem isPropertyValueCharacter_of_mayPart (hc : c.mayPart = true) :
    c.isPropertyValueCharacter = false := by
  rw [isPropertyValueCharacter, isPropertyNameCharacter_of_mayPart hc,
    isDecimalDigit_of_mayPart hc, Bool.or_false]

end CodePoint

namespace Parser

open CodePoint

variable {α β : Type} {k : Pairing} {R : α → β → Prop}

/-! ## Numbers and quantifiers

Digits never part two runs, so numbers are read alike. That a number is too long is found in both
runs, if in either, and it is the one cause of a fault that all pairings let pass. -/

theorem digit_pairs (base : Nat) : k.Pairs Eq (digit base) (digit base) :=
  select_pairs fun _ hc => digit?_of_mayPart base (k.mayPart_of_parts hc)

theorem digits_pairs (base : Nat) : k.Pairs Eq (many1 (digit base)) (many1 (digit base)) :=
  (digit_pairs base).many1 (progresses_select _ _) (progresses_select _ _)

/-- A decimal number is the same in both runs, and so is the fault of one that is too long. -/
theorem number_pairs : k.Pairs Eq (number 10) (number 10) := by
  intro s s' hs
  refine (digits_pairs 10 s s' hs).bind fun ds t _ t' hds _ hsame ht => ?_
  cases hsame
  split
  · next hmany =>
    obtain ⟨cs, hr, hcs, -, -⟩ := digits_eq_done hds
    have hlength : 4300 < ds.length := of_decide_eq_true hmany
    rw [← hcs.length_eq] at hlength ⊢
    exact .fault (k.blames_tooMany hs hr ht (fun d hd => hcs.isSome_of_mem hd) hlength)
  · exact .done rfl ht

theorem hexNumber_pairs : k.Pairs Eq (number 16) (number 16) :=
  (digits_pairs 16).bind fun _ => .pure rfl

theorem fixedHex_pairs (length : Nat) : k.Pairs Eq (fixedHex length) (fixedHex length) :=
  ((digit_pairs 16).times length).map

section Alike

variable (h : k.Alike)

include h

/-- A fault that only exact grammars find. -/
theorem exact_fail_pairs {cause : Cause} (hcause : cause.isOfTerms = true) :
    k.Pairs R (do require (← grammar).exact; fail cause : Parser α)
      (do require (← grammar).exact; fail cause : Parser β) := by
  refine .grammar_bind ?_
  rcases h.exact with hexact | ⟨hexact, hfree⟩
  · rw [hexact]
    exact (require_pairs _).bind fun _ => .fail hcause
  · rw [hexact]
    exact .of_free hfree

/-- Where bounds break off, both runs look at the same switch. -/
theorem incompleteBounds_pairs (lenient : Bool) :
    k.Pairs Eq (incompleteBounds lenient : Parser α) (incompleteBounds lenient) := by
  refine .grammar_bind ?_
  rcases h.exact with hexact | ⟨hexact, hfree⟩
  · rw [hexact]
    exact .ite .miss (.fail rfl)
  · rw [hexact, Bool.not_true, Bool.or_false]
    cases lenient
    · exact .of_free hfree
    · exact .miss

/-- Bounds are read alike. That a number is too long may be found in both runs only. -/
theorem bracedBounds_pairs (lenient : Bool) :
    k.Pairs Eq (bracedBounds lenient) (bracedBounds lenient) := by
  refine (sign_pairs (by decide)).bind fun _ =>
    (number_pairs.orElse (incompleteBounds_pairs h lenient)).bind fun least =>
      (eats_pairs (Pairing.not_parts (by decide))).bind fun comma => ?_
  -- what is left to read once the greatest count is known
  have hrest : ∀ greatest : Option Nat, k.Pairs Eq (do
      eat '}' <|> incompleteBounds lenient
      if !lenient && outOfOrder (least, greatest) then fail .quantifierOutOfOrder
      else return (least, greatest) : Parser Bounds) (do
      eat '}' <|> incompleteBounds lenient
      if !lenient && outOfOrder (least, greatest) then fail .quantifierOutOfOrder
      else return (least, greatest) : Parser Bounds) := fun greatest =>
    ((sign_pairs (by decide)).orElse (incompleteBounds_pairs h lenient)).bind fun _ =>
      .ite (.fail rfl) (.pure rfl)
  cases comma with
  | false => exact hrest _
  | true => exact number_pairs.attempt.bind hrest

theorem quantifier_pairs (lenient : Bool) :
    k.Pairs Eq (quantifier lenient) (quantifier lenient) := by
  have hsign : ∀ (c : CodePoint) (b : Bounds), c.mayPart = false →
      k.Pairs Eq (do eat c; return b : Parser Bounds) (do eat c; return b) :=
    fun c b hc => (sign_pairs hc).bind fun _ => .pure rfl
  have hbounds : k.Pairs Eq (quantifierBounds lenient) (quantifierBounds lenient) :=
    (hsign _ _ (by decide)).orElse ((hsign _ _ (by decide)).orElse ((hsign _ _ (by decide)).orElse
      (bracedBounds_pairs h lenient)))
  exact hbounds.bind fun _ => (eats_pairs (Pairing.not_parts (by decide))).bind fun _ => .pure rfl

end Alike

/-! ## Escaped characters

Escapes are ASCII throughout, apart from the character that may stand for itself behind a backslash,
and that one is tested for by both grammars. -/

theorem controlEscape_pairs : k.Pairs Eq controlEscape controlEscape := by
  refine select_pairs fun c hc => ?_
  have hne : ∀ d : Char, (ofChar d).mayPart = false → (c == ofChar d) = false := fun d hd =>
    beq_eq_false_iff_ne.mpr (ne_of_mayPart (k.mayPart_of_parts hc) hd)
  simp only [controlValue?, hne 'f' (by decide), hne 'n' (by decide), hne 'r' (by decide),
    hne 't' (by decide), hne 'v' (by decide), Bool.false_eq_true, if_false]

theorem controlLetter_pairs : k.Pairs Eq controlLetter controlLetter :=
  (sign_pairs (by decide)).bind fun _ =>
    (satisfy_pairs fun _ hc => isLatinLetter_of_mayPart (k.mayPart_of_parts hc)).bind
      fun _ => .pure rfl

/-- Behind a zero, a digit stands in both runs or in neither. -/
theorem zeroEscape_pairs : k.Pairs Eq zeroEscape zeroEscape := by
  have hzero : k.Pairs Eq (do eat '0'; return CodePoint.ofNat 0 : Parser CodePoint)
      (do eat '0'; return CodePoint.ofNat 0) :=
    (sign_pairs (by decide)).bind fun _ => .pure rfl
  have hmiss : ∀ {g : Grammar} {s : State}, s.cursor.current ≠ some (.ofChar '0') →
      zeroEscape g s = .miss := by
    intro g s hs
    rw [zeroEscape]
    split
    · rfl
    · exact bind_of_miss (eat_eq_miss.mpr hs)
  have hpeek : ∀ {s t : State} {c : CodePoint}, s.Reads [c] t →
      s.cursor.peek 1 = t.cursor.current := by
    intro s t c hr
    obtain ⟨-, rfl⟩ := State.reads_singleton.mp hr
    rw [Cursor.peek_succ, Cursor.peek_zero]
  intro s s' hs
  rcases Pairing.ahead_cases hs with ⟨c, t, t', -, hr, hr', ht⟩ | ⟨hparts, hparts'⟩
  · have hdigit := Pairing.any_current_eq
      (fun _ hc => isDecimalDigit_of_mayPart (k.mayPart_of_parts hc)) ht
    rw [zeroEscape, zeroEscape, hpeek hr, hpeek hr', hdigit]
    split
    · exact .miss
    · exact hzero s s' hs
  · have hne : ∀ {u : State}, (∀ c, u.cursor.current = some c → k.Parts c) →
        u.cursor.current ≠ some (.ofChar '0') :=
      fun hu hc => Pairing.not_parts (by decide) (hu _ hc)
    rw [hmiss (hne hparts), hmiss (hne hparts')]
    exact .miss

theorem hexEscape_pairs (h : k.Alike) : k.Pairs Eq hexEscape hexEscape :=
  (sign_pairs (by decide)).bind fun _ => (fixedHex_pairs 2).map.orElse (exact_fail_pairs h rfl)

/-- Two escaped surrogates are all ASCII, so they are read alike, whatever becomes of surrogates
that are not escaped. -/
theorem escapedPair_pairs : k.Pairs Eq escapedPair escapedPair :=
  (fixedHex_pairs 4).bind fun _ => (require_pairs _).bind fun _ =>
    (eatAll_pairs (by decide)).bind fun _ => (fixedHex_pairs 4).bind fun _ =>
      (require_pairs _).bind fun _ => .pure rfl

theorem bracedCodePoint_pairs : k.Pairs Eq bracedCodePoint bracedCodePoint := by
  refine (sign_pairs (by decide)).bind fun _ => hexNumber_pairs.bind fun n =>
    (sign_pairs (by decide)).bind fun _ => ?_
  split
  · exact .pure rfl
  · exact .miss

/-- Wide escapes do not depend on how strict the grammars are; others do, and a strict grammar finds
a fault where another reads on. -/
theorem unicodeEscape_pairs {wide : Bool}
    (h : (k.right.strict || wide) = (k.left.strict || wide) ∨
      k.left.strict = true ∧ k.Free) :
    k.Pairs Eq (unicodeEscape wide) (unicodeEscape wide) := by
  have hfault : k.Pairs Eq (do
      require ((← grammar).strict || wide)
      fail .invalidUnicodeEscape : Parser CodePoint) (do
      require ((← grammar).strict || wide)
      fail .invalidUnicodeEscape) := by
    refine .grammar_bind ?_
    rcases h with hsame | ⟨hstrict, hfree⟩
    · rw [hsame]
      exact (require_pairs _).bind fun _ => .fail rfl
    · rw [hstrict, Bool.true_or]
      exact .of_free hfree
  have hpair : k.Pairs Eq (do require wide; escapedPair) (do require wide; escapedPair) :=
    (require_pairs wide).bind fun _ => escapedPair_pairs
  have hbraced : k.Pairs Eq (do require wide; bracedCodePoint)
      (do require wide; bracedCodePoint) :=
    (require_pairs wide).bind fun _ => bracedCodePoint_pairs
  exact (sign_pairs (by decide)).bind fun _ =>
    hpair.orElse ((fixedHex_pairs 4).map.orElse (hbraced.orElse hfault))

/-- By code points all escapes are wide, and otherwise both grammars are as strict or all faults are
excused. -/
theorem wideEscape_pairs (h : k.Alike) (joins : Bool) :
    k.Pairs Eq (unicodeEscape (joins || k.left.unicode))
      (unicodeEscape (joins || k.left.unicode)) := by
  refine unicodeEscape_pairs ?_
  rcases h.strict with hstrict | ⟨hstrict, hfree | hunicode⟩
  · exact .inl (by rw [hstrict])
  · exact .inr ⟨hstrict, hfree⟩
  · exact .inl (by rw [hunicode, Bool.or_true, Bool.or_true, Bool.or_true])

theorem legacyOctal_pairs : k.Pairs Eq legacyOctal legacyOctal := by
  refine (digit_pairs 8).bind fun first => (digit_pairs 8).attempt.bind fun second => ?_
  cases second with
  | none => exact .pure rfl
  | some second =>
    refine .ite ((digit_pairs 8).attempt.bind fun third => ?_) (.pure rfl)
    cases third <;> exact .pure rfl

section Marks

variable {m m' : Cursor} (hm : k.Marks m m')

include hm

/-- A character has its value in both runs; only its span is changed. -/
theorem characterFrom_pairs {R : Character → Character → Prop} {v : CodePoint}
    (hR : ∀ span, R ⟨span, v⟩ ⟨k.span span, v⟩) :
    k.Pairs R (characterFrom m v) (characterFrom m' v) :=
  .spanFrom_bind hm fun span => .pure (hR span)

theorem quantified_pairs (h : k.Alike) {R : Term → Term → Prop} {e e' : Term} (he : R e e')
    (hR : ∀ span r, R (.quantified span r e) (.quantified (k.span span) r e')) :
    k.Pairs R (quantified m e) (quantified m' e') := by
  refine (quantifier_pairs h false).attempt.bind fun o => ?_
  cases o with
  | some r => exact .spanFrom_bind hm fun span => .pure (hR span r)
  | none => exact .pure he

end Marks

/-! ## Names

A character of a name may be any but those that the test of the name fails, so what decides is the
test and not the character that lies ahead. -/

section Names

variable (h : k.Alike)
  (hnames : k.right.edition.supports .unicodeGroupNames =
    k.left.edition.supports .unicodeGroupNames)
  (hsigns : ∀ c, k.Parts c → c.isOneOf [')', ']', '|'] = true)

include h hnames hsigns

/-- A character of a name is read alike under both grammars, provided that the signs at which runs
may part are no characters of names. -/
theorem nameCharacter_pairs {test : CodePoint → Bool}
    (htest : [')', ']', '|'].all (fun d => !test (ofChar d)) = true) :
    k.Pairs Eq (nameCharacter test) (nameCharacter test) := by
  have hfails : ∀ (p : CodePoint → Bool),
      [')', ']', '|'].all (fun d => !p (ofChar d)) = true → ∀ c, k.Parts c → p c = false :=
    fun p hp c hc => (Bool.not_eq_true' _).mp (of_isOneOf (fun c => !p c) (hsigns c hc) hp)
  -- a parting sign begins no escape and no pair, and it fails the test itself
  have hmiss : ∀ (joins wide : Bool) {g : Grammar} (c : CodePoint) (s : State), k.Parts c → (do
      let c ← (do require (c == .ofChar '\\'); unicodeEscape wide)
        <|> (do require (joins && c.isLead)
                return .ofPair c (← satisfy CodePoint.isTrail))
        <|> pure c
      require (test c)
      return c : Parser CodePoint) g s = .miss := by
    intro joins wide g c s hc
    rw [hfails (· == .ofChar '\\') (by decide) c hc, hfails CodePoint.isLead (by decide) c hc,
      Bool.and_false]
    show (require (test c) >>= fun _ => pure c) g s = .miss
    rw [hfails test htest c hc]
    rfl
  refine .grammar_bind ?_
  dsimp only
  rw [h.unicode, hnames]
  refine satisfy_bind_pairs (fun first => ?_) (hmiss _ _) (hmiss _ _) _
  have hescape : ∀ b joins, k.Pairs Eq (do require b; unicodeEscape (joins || k.left.unicode))
      (do require b; unicodeEscape (joins || k.left.unicode)) := fun b joins =>
    (require_pairs b).bind fun _ => wideEscape_pairs h joins
  have hpair : ∀ b, k.Pairs Eq (do
      require b
      return .ofPair first (← satisfy CodePoint.isTrail) : Parser CodePoint) (do
      require b
      return .ofPair first (← satisfy CodePoint.isTrail)) := fun b =>
    (require_pairs b).bind fun _ =>
      (satisfy_pairs (hfails _ (by decide))).bind fun _ => .pure rfl
  exact Pairing.Pairs.bind ((hescape _ _).orElse ((hpair _).orElse (.pure rfl))) fun c =>
    (require_pairs _).bind fun _ => .pure rfl

theorem groupName_pairs : k.Pairs Eq groupName groupName := by
  have hpart : k.Pairs Eq (nameCharacter CodePoint.isIdentifierPart) _ :=
    nameCharacter_pairs h hnames hsigns (by decide +kernel)
  have hname : k.Pairs Eq identifierName identifierName :=
    (nameCharacter_pairs h hnames hsigns (by decide +kernel)).bind fun _ =>
      (hpart.many (progresses_nameCharacter _ _) (progresses_nameCharacter _ _)).bind fun _ =>
        .pure rfl
  exact (sign_pairs (by decide)).bind fun _ => (hname.orElse (.fail rfl)).bind fun _ =>
    ((sign_pairs (by decide)).orElse (.fail rfl)).bind fun _ => .pure rfl

end Names

/-! ## Set escapes

The words of a property are looked up by edition, so that the two grammars have to know the same
properties where one is read. -/

end Parser

/-- A property that one grammar knows the other knows too, or else every fault is excused. -/
structure Pairing.SameProperties (k : Pairing) : Prop where
  unicode : k.right.unicode = k.left.unicode
  supports : k.right.edition.supports .propertyEscapes =
    k.left.edition.supports .propertyEscapes
  pair : ∀ name value,
    Property.ofPair? k.right.edition name value = Property.ofPair? k.left.edition name value ∨
      Property.ofPair? k.left.edition name value = none ∧ k.Free
  lone : k.left.edition.supports .propertyEscapes = true → ∀ name,
    Property.ofName? k.right.edition k.right.sets name =
        Property.ofName? k.left.edition k.left.sets name ∨
      Property.ofName? k.left.edition k.left.sets name = none ∧ k.Free

namespace Parser

variable {k : Pairing}

theorem propertyWord_pairs {test : CodePoint → Bool} (h : ∀ c, k.Parts c → test c = false) :
    k.Pairs Eq (propertyWord test) (propertyWord test) :=
  ((satisfy_pairs h).many1 (progresses_satisfy _ _) (progresses_satisfy _ _)).bind fun _ =>
    .pure rfl

/-- A lookup that finds the same in both grammars, or nothing in the first. -/
theorem lookup_pairs (lookup : Grammar → Option Property)
    (h : lookup k.right = lookup k.left ∨ lookup k.left = none ∧ k.Free) :
    k.Pairs Eq (do
      match lookup (← grammar) with
      | some p => return p
      | none => fail .invalidPropertyName : Parser Property) (do
      match lookup (← grammar) with
      | some p => return p
      | none => fail .invalidPropertyName) := by
  refine .grammar_bind ?_
  rcases h with hsame | ⟨hnone, hfree⟩
  · rw [hsame]
    cases lookup k.left with
    | some p => exact .pure rfl
    | none => exact .fail rfl
  · rw [hnone]
    exact .of_free hfree

section Properties

variable (h : k.SameProperties)

include h

theorem propertyPair_pairs : k.Pairs Eq propertyPair propertyPair :=
  (propertyWord_pairs fun _ hc =>
    CodePoint.isPropertyNameCharacter_of_mayPart (k.mayPart_of_parts hc)).bind fun name =>
      (sign_pairs (by decide)).bind fun _ =>
        (propertyWord_pairs fun _ hc =>
          CodePoint.isPropertyValueCharacter_of_mayPart (k.mayPart_of_parts hc)).bind fun value =>
            lookup_pairs (fun g => Property.ofPair? g.edition name value) (h.pair name value)

theorem loneProperty_pairs (hsupports : k.left.edition.supports .propertyEscapes = true) :
    k.Pairs Eq loneProperty loneProperty :=
  (propertyWord_pairs fun _ hc =>
    CodePoint.isPropertyValueCharacter_of_mayPart (k.mayPart_of_parts hc)).bind fun name =>
      lookup_pairs (fun g => Property.ofName? g.edition g.sets name) (h.lone hsupports name)

variable {m m' : Cursor} (hm : k.Marks m m') {R : CharSet → CharSet → Prop}

include hm

/-- Property escapes are read alike where the grammars have the same properties. -/
theorem propertyEscape_pairs
    (hR : ∀ span p negated, R (.property span p negated) (.property (k.span span) p negated)) :
    k.Pairs R (propertyEscape m) (propertyEscape m') := by
  have hletter : k.Pairs Eq (select propertyLetter?) (select propertyLetter?) := by
    refine select_pairs fun c hc => ?_
    have hne : ∀ d : Char, (CodePoint.ofChar d).mayPart = false → (c == .ofChar d) = false :=
      fun d hd => beq_eq_false_iff_ne.mpr (CodePoint.ne_of_mayPart (k.mayPart_of_parts hc) hd)
    simp only [propertyLetter?, hne 'p' (by decide), hne 'P' (by decide), Bool.false_eq_true,
      if_false]
  have hbrace : ∀ c : CodePoint, c.mayPart = false →
      k.Pairs Eq (eat c <|> fail .invalidPropertyName) (eat c <|> fail .invalidPropertyName) :=
    fun c hc => (sign_pairs hc).orElse (.fail rfl)
  refine .grammar_bind ?_
  rw [h.unicode]
  refine (require_pairs _).bind fun _ => .supports_bind ?_
  rw [h.supports]
  cases hsupports : k.left.edition.supports .propertyEscapes with
  | false => exact .miss
  | true =>
    refine (require_pairs _).bind fun _ => hletter.bind fun negated =>
      (hbrace _ (by decide)).bind fun _ =>
        ((propertyPair_pairs h).orElse ((loneProperty_pairs h hsupports).orElse (.fail rfl))).bind
          fun p => (hbrace _ (by decide)).bind fun _ => .ite (.fail rfl) ?_
    exact .spanFrom_bind hm fun span => .pure (hR span p negated)

/-- Escapes for sets are read alike, and their trees differ by their spans at most. -/
theorem setEscape_pairs
    (hset : ∀ span set negated, R (.escape span set negated) (.escape (k.span span) set negated))
    (hproperty : ∀ span p negated,
      R (.property span p negated) (.property (k.span span) p negated)) :
    k.Pairs R (setEscape m) (setEscape m') := by
  have hletter : k.Pairs Eq (select escapeSet?) (select escapeSet?) := by
    refine select_pairs fun c hc => ?_
    have hne : ∀ d : Char, (CodePoint.ofChar d).mayPart = false → (c == .ofChar d) = false :=
      fun d hd => beq_eq_false_iff_ne.mpr (CodePoint.ne_of_mayPart (k.mayPart_of_parts hc) hd)
    simp only [escapeSet?, hne 'd' (by decide), hne 'D' (by decide), hne 's' (by decide),
      hne 'S' (by decide), hne 'w' (by decide), hne 'W' (by decide), Bool.false_eq_true, if_false]
  refine .orElse (hletter.bind fun (set, negated) => ?_) (propertyEscape_pairs h hm hproperty)
  exact .spanFrom_bind hm fun span => .pure (hset span set negated)

end Properties

end Parser

end EcmaPattern
