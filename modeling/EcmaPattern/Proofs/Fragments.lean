import EcmaPattern.Proofs.DuplicateNames
import EcmaPattern.Proofs.NestingLimit
import EcmaPattern.Proofs.SetGrammar.Patterns

/-!
# Fragments

A construct ends with a closing sign, and what stands behind the sign has no influence on how the
construct was read. To show this, each parser is run twice: over the whole text, and over the text
cut off behind the sign. `Follows k refers f p q` says that the second run does what the first does,
as long as the first has not read past the cut, in which case the construct that ends there is not
the one that is being read. `refers` says what else excuses the second run, and `f` what becomes of
its value.

The two runs are a pair of runs as any other (`Cut.pairing`), and being past the cut is what the
first of them may lose. So the combinators, and all that stands below the terms, are taken over from
runs that lose something. What is particular to a cut is `Closes`, for a parser that ends with the
sign at the cut: there it is the first run that is past the cut, and the second one is done with it.

Key lemmas:

* `Cut.pairing_losing`, by which the lemmas on runs that lose something apply;
* `Follows.bind` and `Closes.bind`, for what may read past the cut and for what ends there;
* `charClass_closes`, that a class which ends at the cut is read from the text before it.
-/

namespace EcmaPattern

/-! ## Texts that are cut off

Two cursors over a text and over the text without its end. Before the cut they show the same
character, and at the cut the second one is at its end while the first one shows the closing sign.
-/

namespace Text

variable {paired : Bool} {t r : Text} {u : CodeUnit} {c : CodePoint}

/-- Behind a unit that opens no pair, a text may be cut off. -/
theorem uncons?_append (paired : Bool) (t rest : Text) (hu : (CodePoint.ofUnit u).isLead = false) :
    uncons? paired (t ++ [u] ++ rest) =
      (uncons? paired (t ++ [u])).map fun (c, r) => (c, r ++ rest) := by
  match t with
  | [] =>
    cases rest with
    | nil => rfl
    | cons v rest => simp [uncons?, isPair, hu]
  | [a] =>
    simp only [List.cons_append, List.nil_append, uncons?]
    split <;> rfl
  | a :: b :: t =>
    simp only [List.cons_append, uncons?]
    split <;> rfl

/-- A text that ends with a unit that closes no pair still does when a character has been read,
unless that unit was the character. -/
theorem uncons?_ends (hu : (CodePoint.ofUnit u).isTrail = false)
    (h : uncons? paired (t ++ [u]) = some (c, r)) :
    (∃ t', r = t' ++ [u]) ∨ c = .ofUnit u ∧ r = [] := by
  match t with
  | [] =>
    cases h
    exact .inr ⟨rfl, rfl⟩
  | [a] =>
    have hpair : isPair a u = false := by rw [isPair, hu, Bool.and_false]
    simp only [List.cons_append, List.nil_append, uncons?, hpair, Bool.and_false] at h
    cases h
    exact .inl ⟨[], rfl⟩
  | a :: b :: t =>
    simp only [List.cons_append, uncons?] at h
    split at h <;> cases h
    · exact .inl ⟨t, rfl⟩
    · exact .inl ⟨b :: t, rfl⟩

end Text

def Cursor.extend (rest : Text) (c : Cursor) : Cursor := { c with ahead := c.ahead ++ rest }

/-- Where the rest of the text makes no pair with the last unit before it, the next character is
read as before. -/
theorem Cursor.current_extend {rest : Text} {c : Cursor}
    (huncons : (c.ahead ++ rest).uncons? c.paired =
      (c.ahead.uncons? c.paired).map fun (ch, ahead) => (ch, ahead ++ rest)) :
    (c.extend rest).current = c.current ∧ (c.extend rest).advance = c.advance.extend rest := by
  constructor
  · simp only [Cursor.current, Cursor.extend]
    rw [huncons]
    cases c.ahead.uncons? c.paired <;> rfl
  · simp only [Cursor.advance, Cursor.extend]
    rw [huncons]
    cases c.ahead.uncons? c.paired <;> rfl

/-- A text that is cut off behind a closing sign. -/
structure Cut where
  /-- The grammar of the whole text. -/
  left : Grammar
  /-- The number of groups that are counted in the text that is cut off. -/
  captures : Nat
  /-- The last unit before the cut. -/
  closer : CodeUnit
  closes : closer = 0x29 ∨ closer = 0x5D
  /-- What lies behind the cut. -/
  rest : Text
  /-- The offset of the cut. -/
  stop : Nat
  /-- How many groups open before the text that is cut off. -/
  groups : Nat

namespace Cut

variable (k : Cut)

def right : Grammar := { k.left with captures := k.captures }

def sign : CodePoint := .ofUnit k.closer

theorem sign_cases : k.sign = .ofChar ')' ∨ k.sign = .ofChar ']' := by
  rcases k.closes with h | h
  · exact .inl (by rw [sign, h]; decide)
  · exact .inr (by rw [sign, h]; decide)

/-- A test that fails both closing signs. -/
theorem test_sign {p : CodePoint → Bool}
    (h : p (.ofChar ')') = false ∧ p (.ofChar ']') = false) : p k.sign = false := by
  rcases k.sign_cases with hs | hs
  · rw [hs, h.1]
  · rw [hs, h.2]

/-- The place is one of the text that is cut off, and not at its end. -/
structure Ahead (c : Cursor) : Prop where
  ends : ∃ t, c.ahead = t ++ [k.closer]
  stop : c.index + c.remaining = k.stop

/-- The text that is cut off has been read, and no more. -/
structure AtEnd (c : Cursor) : Prop where
  ahead : c.ahead = []
  index : c.index = k.stop

/-- Two states at one place: of the whole text, and of the text that is cut off. -/
structure Within (s s' : State) : Prop where
  cursor : s.cursor = s'.cursor.extend k.rest
  ahead : k.Ahead s'.cursor
  opened : s.opened = s'.opened + k.groups
  rule : s'.scope.rule = .unchecked

/-- The whole text has been read up to the cut, or past it. -/
def Past (s : State) : Prop := s.cursor.remaining ≤ k.rest.length

variable {k}

/-- Before the cut, the same character lies ahead. -/
theorem current_extend {c : Cursor} (h : k.Ahead c) :
    (c.extend k.rest).current = c.current ∧
      (c.extend k.rest).advance = c.advance.extend k.rest := by
  obtain ⟨t, ht⟩ := h.ends
  have hlead : (CodePoint.ofUnit k.closer).isLead = false :=
    k.test_sign (p := CodePoint.isLead) (by decide)
  refine Cursor.current_extend ?_
  rw [ht]
  exact Text.uncons?_append c.paired t k.rest hlead

/-- A character that is not the closing sign does not lead to the cut. -/
theorem Ahead.advance {c : Cursor} {ch : CodePoint} (h : k.Ahead c) (hc : c.current = some ch) :
    k.Ahead c.advance ∨ ch = k.sign ∧ k.AtEnd c.advance := by
  obtain ⟨t, ht⟩ := h.ends
  have htrail : (CodePoint.ofUnit k.closer).isTrail = false :=
    k.test_sign (p := CodePoint.isTrail) (by decide)
  have hreads : c.Reads [ch] c.advance := Cursor.reads_singleton.mpr ⟨hc, rfl⟩
  have hstop : c.advance.index + c.advance.remaining = k.stop := by
    have hahead := congrArg List.length hreads.ahead
    have hindex := hreads.index
    have hstop := h.stop
    rw [List.length_append] at hahead
    simp only [Cursor.remaining] at hstop ⊢
    omega
  have hadvance : c.ahead.uncons? c.paired = some (ch, c.advance.ahead) := by
    cases huncons : c.ahead.uncons? c.paired with
    | none => rw [Cursor.current, huncons] at hc; cases hc
    | some pair =>
      rw [Cursor.current, huncons] at hc
      cases hc
      rw [Cursor.advance, huncons]
  rw [ht] at hadvance
  rcases Text.uncons?_ends htrail hadvance with hends | ⟨hch, hnil⟩
  · exact .inl ⟨hends, hstop⟩
  · refine .inr ⟨hch, hnil, ?_⟩
    rwa [Cursor.remaining, hnil, List.length_nil, Nat.add_zero] at hstop

/-- What is read from a mark on is the same in either text. -/
theorem Ahead.between {mark c c' : Cursor} (hmark : k.Ahead mark) (hindex : c.index = c'.index)
    (hstop : c'.index ≤ k.stop) :
    Span.between (mark.extend k.rest) c = .between mark c' := by
  have hle : c'.index - mark.index ≤ mark.ahead.length := by
    have hmark := hmark.stop
    rw [Cursor.remaining] at hmark
    omega
  rw [Span.between, Span.between, hindex, Cursor.textTo, Cursor.textTo, Cursor.extend,
    List.take_append_of_le_length hle]

namespace Within

variable {s s' : State}

theorem index (h : k.Within s s') : s.cursor.index = s'.cursor.index := by
  rw [h.cursor]
  rfl

/-- The text that is cut off is not read beyond the cut. -/
theorem index_le_stop (h : k.Within s s') : s'.cursor.index ≤ k.stop := by
  rw [← h.ahead.stop]
  exact Nat.le_add_right _ _

/-- Of the whole text more is left than what lies behind the cut. -/
theorem remaining_lt (h : k.Within s s') : k.rest.length < s.cursor.remaining := by
  obtain ⟨t, ht⟩ := h.ahead.ends
  rw [h.cursor, Cursor.remaining, Cursor.extend, ht, List.length_append, List.length_append,
    List.length_singleton]
  omega

theorem current (h : k.Within s s') : s.cursor.current = s'.cursor.current := by
  rw [h.cursor, (current_extend h.ahead).1]

theorem advance (h : k.Within s s') : s.cursor.advance = s'.cursor.advance.extend k.rest := by
  rw [h.cursor, (current_extend h.ahead).2]

/-- The states behind the next character, unless that is the sign before the cut. -/
theorem read (h : k.Within s s') {ch : CodePoint} (hc : s.cursor.current = some ch) :
    k.Within { s with cursor := s.cursor.advance } { s' with cursor := s'.cursor.advance } ∨
      ch = k.sign ∧ k.Past { s with cursor := s.cursor.advance } ∧
        k.AtEnd s'.cursor.advance := by
  rcases h.ahead.advance (h.current ▸ hc) with hahead | ⟨hch, hend⟩
  · exact .inl ⟨h.advance, hahead, h.opened, h.rule⟩
  · refine .inr ⟨hch, ?_, hend⟩
    have hremaining : s.cursor.advance.remaining = k.rest.length := by
      rw [h.advance, Cursor.remaining, Cursor.extend, hend.ahead, List.nil_append]
    exact Nat.le_of_eq hremaining

/-- The states behind a character that is no closing sign. -/
theorem read_of_ne (h : k.Within s s') {ch : CodePoint} (hc : s.cursor.current = some ch)
    (hne : ch ≠ k.sign) :
    k.Within { s with cursor := s.cursor.advance } { s' with cursor := s'.cursor.advance } :=
  (h.read hc).resolve_right fun hsign => hne hsign.1

/-- If a character leads just up to the cut, it leads to the end of the text that is cut off. -/
theorem close (h : k.Within s s') {ch : CodePoint} {t : State} (hr : s.Reads [ch] t)
    (ht : t.cursor.remaining = k.rest.length) :
    ∃ t', s'.Reads [ch] t' ∧ k.AtEnd t'.cursor ∧ t.cursor.index = k.stop := by
  obtain ⟨hc, rfl⟩ := State.reads_singleton.mp hr
  refine ⟨_, State.reads_singleton.mpr ⟨h.current ▸ hc, rfl⟩, ?_⟩
  rcases h.read hc with hwithin | ⟨-, -, hend⟩
  · exact absurd ht (Nat.ne_of_gt hwithin.remaining_lt)
  · refine ⟨hend, ?_⟩
    show s.cursor.advance.index = k.stop
    rw [h.advance]
    exact hend.index

end Within

/-- The closing sign is one of the parting signs. -/
theorem isOneOf_sign {c : CodePoint} (h : c = k.sign) : c.isOneOf [')', ']', '|'] = true := by
  rcases k.sign_cases with hs | hs
  · rw [h, hs]; decide
  · rw [h, hs]; decide

/-- The two runs, of which the second need only follow the first as far as that finds no fault. They
part at the closing sign. -/
def pairing (k : Cut) : Pairing where
  left := k.left
  right := k.right
  Beside := k.Within
  Marks m m' := m = m'.extend k.rest ∧ k.Ahead m'
  span := id
  Parts c := c = k.sign
  Blames _ _ := True
  Excuses _ := True
  mayPart_of_parts hc := by rw [CodePoint.mayPart, isOneOf_sign hc, Bool.true_or]
  marks h := ⟨h.cursor, h.ahead⟩
  between := by
    rintro _ m' s s' ⟨rfl, hm⟩ hs
    exact (hm.between hs.index hs.index_le_stop).symm
  read := by
    intro s s' t c hs hc hr
    obtain ⟨hcurrent, rfl⟩ := State.reads_singleton.mp hr
    exact ⟨_, State.reads_singleton.mpr ⟨hs.current ▸ hcurrent, rfl⟩, hs.read_of_ne hcurrent hc⟩
  stop := by
    intro s s' c hs h hc
    exact h c (hs.current ▸ hc)
  blames _ _ := trivial
  blames_tooMany _ _ _ _ _ := trivial

theorem pairing_free (k : Cut) : k.pairing.Free := fun _ => trivial

theorem pairing_alike (k : Cut) : k.pairing.Alike := ⟨rfl, .inl rfl⟩

theorem pairing_sameProperties (k : Cut) : k.pairing.SameProperties :=
  ⟨rfl, rfl, fun _ _ => .inl rfl, fun _ _ => .inl rfl⟩

theorem pairing_sameRules (k : Cut) : k.pairing.SameRules := ⟨rfl, rfl, rfl⟩

/-- A run of the whole text is lost when it is past the sign before the cut. -/
theorem pairing_losing (k : Cut) : k.pairing.Losing k.Past where
  signs := by
    rintro _ rfl
    rcases k.sign_cases with hs | hs
    · rw [hs]; decide
    · rw [hs]; decide
  current hs := hs.current.symm
  passes hs hc := (hs.read hc).imp_right fun ⟨_, hpast, _⟩ => hpast
  stays hpast hle := Nat.le_trans hle hpast
  free _ := k.pairing_free

/-- Spans are the same in either text. -/
abbrev trees (k : Cut) : k.pairing.Trees := .same rfl

end Cut

/-! ## Parsers beside each other

The first run may be lost by getting past the cut, and it may read a reference to a group, which has
another meaning when the part is read alone. The value may be changed by `f`, because the groups of
a part of a pattern are numbered anew. -/

namespace Parser

variable {α β γ δ : Type} {k : Cut}

/-- The whole text has been read up to the cut, or past it, or what was read refers to a group. -/
def Lost (k : Cut) (refers : α → Prop) (a : α) (s : State) : Prop := k.Past s ∨ refers a

/-- Over the text that is cut off, the second parser does what the first does over the whole text,
unless the first gets past the cut or gives something that refers to a group. -/
abbrev Follows (k : Cut) (refers : α → Prop) (f : β → α) (p : Parser α) (q : Parser β) : Prop :=
  k.pairing.Trails (fun _ => True) (fun _ => True) (.of (Lost k refers)) (fun a b => f b = a) p q

variable {refers : α → Prop} {refers' : γ → Prop} {f : β → α} {h : δ → γ}

/-- What agrees with itself goes forward. -/
theorem Agrees.advances {g : Grammar} {p : Parser α} (h : Agrees (.same g) p) : Advances g p := by
  intro s a t ha
  obtain ⟨cs, hcs⟩ := (h s).reaches ha
  exact hcs.remaining_le

/-- Once the cut has been passed, it stays passed. -/
theorem Proceeds.past {p : Parser α} (h : Proceeds k.left p) {s t : State} {a : α} (hs : k.Past s)
    (ha : p k.left s = .done a t) : k.Past t :=
  Nat.le_trans (h.advances s a t ha) hs

/-- What does not miss and keeps references does not make up for a loss. -/
theorem retains_lost {r : α → Parser γ} (hproceeds : ∀ a, Proceeds k.left (r a))
    (hrefers : ∀ {a u c t}, r a k.left u = .done c t → refers a → refers' c) :
    k.pairing.Retains (.of (Lost k refers)) (.of (Lost k refers')) r :=
  fun _ a u hlost => ⟨(hproceeds a).ne_miss u, fun _ _ hc =>
    hlost.imp (fun hpast => (hproceeds a).past hpast hc) (hrefers hc)⟩

theorem retains_past {r : α → Parser γ} (hproceeds : ∀ a, Proceeds k.left (r a)) :
    k.pairing.Retains (.of fun _ => k.Past) (.of (Lost k refers')) r :=
  fun _ a u hpast => ⟨(hproceeds a).ne_miss u, fun _ _ hc => .inl ((hproceeds a).past hpast hc)⟩

namespace Follows

variable {p : Parser α} {q : Parser β}

theorem done (hp : Follows k refers f p q) {s s' t : State} {a : α} (hs : k.Within s s')
    (ha : p k.left s = .done a t) :
    Lost k refers a t ∨ ∃ b t', q k.right s' = .done b t' ∧ f b = a ∧ k.Within t t' :=
  (Pairing.Trails.done hp hs trivial ha).imp (fun ⟨_, hlost, _⟩ => hlost) And.right

/-- What follows what may have been lost must proceed, and must not lose the references. -/
theorem bind {r : α → Parser γ} {r' : β → Parser δ} (hp : Follows k refers f p q)
    (hr : ∀ b, Follows k refers' h (r (f b)) (r' b)) (hproceeds : ∀ a, Proceeds k.left (r a))
    (hrefers : ∀ {a u c t}, r a k.left u = .done c t → refers a → refers' c) :
    Follows k refers' h (p >>= r) (q >>= r') :=
  Pairing.Trails.bind_of hp (fun _ b hab => hab ▸ hr b) (retains_lost hproceeds hrefers)

/-- The same after an attempt; what follows a miss need not proceed. -/
theorem attempt_bind {r : Option α → Parser γ} {r' : Option β → Parser δ}
    (hp : Follows k refers f p q) (hnone : Follows k refers' h (r none) (r' none))
    (hsome : ∀ b, Follows k refers' h (r (some (f b))) (r' (some b)))
    (hproceeds : ∀ a, Proceeds k.left (r (some a)))
    (hrefers : ∀ {a u c t}, r (some a) k.left u = .done c t → refers a → refers' c) :
    Follows k refers' h (attempt p >>= r) (attempt q >>= r') :=
  Pairing.Trails.attempt_bind_of hp hnone (fun _ b hab => hab ▸ hsome b)
    (retains_lost hproceeds hrefers)

/-- A repetition follows a repetition if its parser does; a run that is lost stays lost. -/
theorem many (hp : Follows k refers f p q) (hleft : Progresses p k.left)
    (hright : Progresses q k.right) :
    Follows k (fun as => ∃ a ∈ as, refers a) (List.map f) (many p) (many q) := by
  have hmany : k.pairing.Trails (fun _ => True) (fun _ => True)
      (.of (Lost k fun as => ∃ a ∈ as, refers a)) (List.Forall₂ fun a b => f b = a)
      (Parser.many p) (Parser.many q) := by
    refine Pairing.Trails.many_of hp hleft hright ?_ ?_
    · rintro _ a u as t (hpast | ha) has
      · exact .inl (Nat.le_trans (hleft.chain_le has) hpast)
      · exact .inr ⟨a, List.mem_cons_self, ha⟩
    · rintro _ a b as t - (hpast | ⟨c, hc, hrefers⟩)
      · exact .inl hpast
      · exact .inr ⟨c, List.mem_cons_of_mem a hc, hrefers⟩
  refine hmany.mono (fun _ => id) (fun _ => id) (fun _ _ _ => id) fun as bs hab => ?_
  have heq : List.Forall₂ Eq as (bs.map f) :=
    List.forall₂_map_right_iff.mpr (hab.imp fun _ _ => Eq.symm)
  exact (List.forall₂_eq_eq_eq ▸ heq).symm

end Follows

/-- What is done in place of a fault does not matter. -/
theorem failAt_follows (cause : Cause) (index : Nat) (q : Parser β) :
    Follows k refers f (failAt cause index) q :=
  .of_fault k.pairing_free fun _ => ⟨_, rfl⟩

theorem modifyScope_within {f : GroupScope → GroupScope}
    (hf : ∀ scope, (f scope).rule = scope.rule) :
    k.pairing.Pairs Eq (modifyScope f) (modifyScope f) :=
  fun _ _ hs => .done rfl ⟨hs.cursor, hs.ahead, hs.opened, (hf _).trans hs.rule⟩

/-! ## Constructs that end at the cut

The last step of a construct is to read its closing sign. In the text that is cut off behind it,
this sign is the last character. -/

/-- If the first parser reads just up to the cut and what it reads refers to no group, the second
reads the text that is cut off. -/
def Closes (k : Cut) (refers : α → Prop) (f : β → α) (p : Parser α) (q : Parser β) : Prop :=
  ∀ s s' a t, k.Within s s' → p k.left s = .done a t →
    t.cursor.remaining = k.rest.length → ¬ refers a →
      ∃ b t', q k.right s' = .done b t' ∧ f b = a ∧ k.AtEnd t'.cursor

namespace Closes

variable {p : Parser α} {q : Parser β}

/-- What comes before the closing part may be any pair of runs. -/
theorem after {p q : Parser α} {r : α → Parser γ} {r' : α → Parser δ}
    (hp : k.pairing.Pairs Eq p q) (hr : ∀ a, Closes k refers' h (r a) (r' a)) :
    Closes k refers' h (p >>= r) (q >>= r') := by
  intro s s' c t hs hdone hstop hrefers
  obtain ⟨a, u, ha, hc⟩ := bind_eq_done.mp hdone
  obtain ⟨_, u', hb, rfl, hu⟩ := Pairing.Outcomes.of_done (ha ▸ hp s s' hs)
  have hb : q k.right s' = .done a u' := hb
  rw [bind_of_done hb]
  exact hr a _ _ _ _ hu hc hstop hrefers

/-- What may have been lost leaves nothing to close. -/
theorem bind {r : α → Parser γ} {r' : β → Parser δ} (hp : Follows k refers f p q)
    (hr : ∀ b, Closes k refers' h (r (f b)) (r' b)) (hprogress : ∀ a, Progresses (r a) k.left)
    (hrefers : ∀ {a u c t}, r a k.left u = .done c t → refers a → refers' c) :
    Closes k refers' h (p >>= r) (q >>= r') := by
  intro s s' c t hs hdone hstop hclean
  obtain ⟨a, u, ha, hc⟩ := bind_eq_done.mp hdone
  rcases hp.done hs ha with (hpast | hlost) | ⟨b, u', hb, rfl, hu⟩
  · have hlt := hprogress a u c t hc
    rw [hstop] at hlt
    exact absurd hpast (Nat.not_le.mpr hlt)
  · exact absurd (hrefers hc hlost) hclean
  · rw [bind_of_done hb]
    exact hr b _ _ _ _ hu hc hstop hclean

theorem here_bind {r : Cursor → Parser α} {r' : Cursor → Parser β}
    (hr : ∀ m m', k.pairing.Marks m m' → Closes k refers f (r m) (r' m')) :
    Closes k refers f (here >>= r) (here >>= r') := by
  intro s s' a t hs hdone
  exact hr s.cursor s'.cursor (k.pairing.marks hs) _ _ _ _ hs hdone

theorem grammar_bind {r : Grammar → Parser α} {r' : Grammar → Parser β}
    (hr : Closes k refers f (r k.left) (r' k.right)) :
    Closes k refers f (grammar >>= r) (grammar >>= r') := hr

theorem ite {c : Prop} [Decidable c] {p' : Parser α} {q' : Parser β} (hp : Closes k refers f p q)
    (hp' : Closes k refers f p' q') :
    Closes k refers f (if c then p else p') (if c then q else q') := by
  split
  · exact hp
  · exact hp'

end Closes

/-! ## Classes that end at the cut

A class that closes at the cut is the one that is asked about. Any class that closes before the cut
is inside it. The class may be read with more levels left when it is read alone. -/

theorem charClass_follows {depth depth' : Nat} (hdepth : depth ≤ depth') (nested nested' : Bool) :
    k.pairing.Goes k.Past Eq (charClass depth nested) (charClass depth' nested') :=
  charClass_goes k.trees k.pairing_losing rfl k.pairing_sameRules k.pairing_sameProperties hdepth
    (.inr k.pairing_free)

/-- The class of given contents depends on the text by its span alone. -/
theorem classOf_eq_done {g : Grammar} (g' : Grammar) {s s' t : State} {mark mark' : Cursor}
    {negated : Bool} {elements : List CharSet} {x : CharSet}
    (hspan : Span.between mark s.cursor = .between mark' s'.cursor) (hsets : g'.sets = g.sets)
    (h : classOf mark negated elements g s = .done x t) :
    s = t ∧ classOf mark' negated elements g' s' = .done x s' := by
  rw [classOf, grammar_bind, spanFrom_bind] at h ⊢
  rw [hspan] at h
  rw [hsets]
  split at h
  · split at h
    · next hop =>
      obtain ⟨rfl, rfl⟩ := pure_eq_done.mp h
      exact ⟨rfl, by rw [if_pos hop]; rfl⟩
    · next hop =>
      obtain ⟨rfl, rfl⟩ := pure_eq_done.mp h
      exact ⟨rfl, by rw [if_neg hop]; rfl⟩
  · obtain ⟨rfl, rfl⟩ := pure_eq_done.mp h
    exact ⟨rfl, rfl⟩

/-- If the closing bracket is the sign before the cut, the class ends there in both texts. -/
theorem endOfClass_closes {m m' : Cursor} (hm : k.pairing.Marks m m')
    (nested nested' negated : Bool) (elements : List CharSet) :
    Closes k (fun _ => False) id (endOfClass m nested negated elements)
      (endOfClass m' nested' negated elements) := by
  intro s s' x t hs hdone hstop _
  obtain ⟨rfl, hahead⟩ := hm
  obtain ⟨_, u, hclose, hx⟩ := bind_eq_done.mp hdone
  split at hx
  · cases hx
  · next hstrings =>
    obtain ⟨rfl, -⟩ := classOf_eq_done k.left rfl rfl hx
    obtain ⟨u', hr', hend, hindex⟩ := hs.close (closeClass_eq_done.mp hclose) hstop
    have hspan : Span.between _ u.cursor = .between m' u'.cursor :=
      hahead.between (hindex.trans hend.index.symm) (Nat.le_of_eq hend.index)
    have hsets : k.right.sets = k.left.sets := rfl
    obtain ⟨-, hx'⟩ := classOf_eq_done k.right hspan hsets hx
    refine ⟨x, u', ?_, rfl, hend⟩
    rw [endOfClass, bind_of_done (closeClass_eq_done (x := ()).mpr hr'), if_neg hstrings]
    exact hx'

/-- A class that ends at the cut is read over the text that is cut off. -/
theorem classBody_closes {inner inner' : Parser CharSet}
    (hinner : NestedClasses k.trees k.Past inner inner') (nested nested' : Bool) :
    Closes k (fun _ => False) id (classBody inner nested) (classBody inner' nested') := by
  have hcontents : Follows k (fun _ => False) id
      (if k.left.sets then classSetContents inner else classRanges)
      (if k.left.sets then classSetContents inner' else classRanges) :=
    (classContents_goes k.trees k.pairing_losing rfl k.pairing_sameRules k.pairing_sameProperties
      hinner).mono (fun _ => id) (fun _ => id) (fun _ _ _ => .inl)
        fun xs _ h => ((List.map_id xs).symm.trans h).symm
  rw [classBody_eq, classBody_eq]
  exact .here_bind fun m m' hm => .after (sign_pairs (by decide)) fun _ =>
    .after (eats_pairs (k.pairing_losing.not_parts (by decide))) fun negated =>
      .grammar_bind (.bind hcontents (endOfClass_closes hm nested nested' negated)
        (fun _ => progresses_endOfClass) fun _ => id)

/-- A class that ends at the cut is read from the text that is cut off. -/
theorem charClass_closes {depth depth' : Nat} (hdepth : depth ≤ depth') (nested nested' : Bool) :
    Closes k (fun _ => False) id (charClass depth nested) (charClass depth' nested') := by
  cases depth with
  | zero =>
    intro s s' x t _ hdone
    exact absurd hdone charClass_zero_ne_done
  | succ depth =>
    obtain ⟨depth', rfl⟩ : ∃ d, depth' = d + 1 := ⟨depth' - 1, by omega⟩
    exact classBody_closes ⟨charClass_follows (by omega) true true, progresses_charClass _ _ _,
      progresses_charClass _ _ _⟩ nested nested'

end Parser

end EcmaPattern
