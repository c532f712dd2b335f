import EcmaPattern.Proofs.Fragments.Terms

/-!
# Texts that go on

A text is read as before when more is put behind it, as long as this begins with a sign that belongs
to nothing before it: a parenthesis that closes a group, or a bar. To show this, each parser is run
twice: over the text, and over the text that goes on. `Extends k P P' lost p q` says that from
states with `P` the second run does what the first does and leads to a state with `P'`, unless the
first is done in a way that is excused as `lost`. What the first finds to be a fault does not
matter.

The second run may also take classes by the set grammar where the first does not; with nothing put
behind the text, the two runs then differ in that alone.

Most parsers need no excuse and may start anywhere. Then the two runs are a pair of runs as any
other, by `pairing`. Here this is shown for the parsers that ask what lies ahead where the text may
end, and for classes: between its brackets almost every character stands for itself, a parting sign
too, but a class that is done is closed, so its runs are compared up to the bracket only.

Key lemmas:

* `escapedValue_extends`, where a parting sign may be read;
* `inClass_losing`, by which the lemmas on classes apply up to the bracket that closes the class;
* `charClass_pairs`, that a class needs no excuse.
-/

namespace EcmaPattern

/-- In front of a unit that closes no pair, more than nothing may be cut off. -/
theorem Text.uncons?_append_of_ne_nil (paired : Bool) {t rest : Text} (ht : t ≠ [])
    (hrest : ∀ u ∈ rest.head?, (CodePoint.ofUnit u).isTrail = false) :
    uncons? paired (t ++ rest) = (uncons? paired t).map fun (c, r) => (c, r ++ rest) := by
  match t with
  | [] => exact absurd rfl ht
  | [a] =>
    cases rest with
    | nil => rfl
    | cons v rest => simp [uncons?, isPair, hrest v rfl]
  | a :: b :: t =>
    simp only [List.cons_append, uncons?]
    split <;> rfl

/-- A text, and what is put behind it. -/
structure Extension where
  /-- The grammar of the text. -/
  left : Grammar
  /-- Whether classes are read by the set grammar in the text that goes on. -/
  sets : Bool
  widens : left.sets = true → sets = true
  /-- What is put behind the text. -/
  rest : Text
  parts : ∀ u ∈ rest.head?, u = 0x29 ∨ u = 0x7C
  /-- The offset at which the text ends. -/
  stop : Nat

/-- Whether a character belongs to nothing before it. -/
def CodePoint.isParting (c : CodePoint) : Bool := c.isOneOf [')', '|']

/-- No parting sign passes a test that fails both of them. -/
theorem CodePoint.test_parting {p : CodePoint → Bool} {c : CodePoint}
    (h : p (.ofChar ')') = false ∧ p (.ofChar '|') = false) (hc : c.isParting = true) :
    p c = false := by
  obtain ⟨sign, hsign, hc⟩ := List.any_eq_true.mp hc
  obtain rfl := eq_of_beq hc
  simp only [List.mem_cons, List.not_mem_nil, or_false] at hsign
  rcases hsign with rfl | rfl
  · exact h.1
  · exact h.2

namespace Extension

variable (k : Extension)

def right : Grammar := { k.left with sets := k.sets }

def Marks (c : Cursor) : Prop := c.index + c.remaining = k.stop

/-- Two states at one place: of the text, and of the text that goes on. -/
structure Beside (s s' : State) : Prop where
  cursor : s'.cursor = s.cursor.extend k.rest
  marks : k.Marks s.cursor
  opened : s'.opened = s.opened
  rule : s'.scope.rule = .unchecked

/-- The state is not at the end of the text, unless nothing is put behind it. -/
def Live (s : State) : Prop := k.rest = [] ∨ s.cursor.ahead ≠ []

variable {k}

/-- Before the end of the text, the same character lies ahead. -/
theorem current_extend {c : Cursor} (h : c.ahead ≠ []) :
    (c.extend k.rest).current = c.current ∧
      (c.extend k.rest).advance = c.advance.extend k.rest :=
  Cursor.current_extend <| Text.uncons?_append_of_ne_nil c.paired h fun u hu => by
    rcases k.parts u hu with rfl | rfl <;> decide

theorem current_extend_of_nil {c : Cursor} (h : c.ahead = []) :
    (c.extend k.rest).current = k.rest.head?.map CodePoint.ofUnit := by
  rw [Cursor.current, Cursor.extend, h, List.nil_append]
  cases hrest : k.rest with
  | nil => rfl
  | cons u rest =>
    cases rest with
    | nil => rfl
    | cons v rest =>
      have hlead : (CodePoint.ofUnit u).isLead = false := by
        rcases k.parts u (by rw [hrest]; rfl) with rfl | rfl <;> decide
      simp [Text.uncons?, Text.isPair, hlead]

/-- Behind the end of the text stands a parting sign. -/
theorem isParting_of_nil {c : Cursor} {ch : CodePoint} (h : c.ahead = [])
    (hch : (c.extend k.rest).current = some ch) : ch.isParting = true := by
  rw [current_extend_of_nil h, Option.map_eq_some_iff] at hch
  obtain ⟨u, hu, rfl⟩ := hch
  rcases k.parts u hu with rfl | rfl <;> decide

/-- Places that are read from a place of the text are places of the text. -/
theorem Marks.of_reads {c d : Cursor} {cs : List CodePoint} (h : k.Marks c) (hr : c.Reads cs d) :
    k.Marks d := by
  have hahead := congrArg List.length hr.ahead
  have hindex := hr.index
  rw [List.length_append] at hahead
  simp only [Marks, Cursor.remaining] at h ⊢
  omega

/-- What is read from a mark on is the same in either text. -/
theorem Marks.between {mark c c' : Cursor} (hmark : k.Marks mark) (hc : k.Marks c)
    (hindex : c'.index = c.index) :
    Span.between (mark.extend k.rest) c' = .between mark c := by
  have hle : c.index - mark.index ≤ mark.ahead.length := by
    simp only [Marks, Cursor.remaining] at hmark hc
    omega
  rw [Span.between, Span.between, hindex, Cursor.textTo, Cursor.textTo, Cursor.extend,
    List.take_append_of_le_length hle]

namespace Beside

variable {s s' t : State} {c : CodePoint}

theorem index (h : k.Beside s s') : s'.cursor.index = s.cursor.index := by
  rw [h.cursor]
  rfl

/-- Something that lies ahead in the text also lies ahead where it goes on. -/
theorem reads (h : k.Beside s s') (hr : s.Reads [c] t) :
    ∃ t', s'.Reads [c] t' ∧ k.Beside t t' := by
  obtain ⟨hc, rfl⟩ := State.reads_singleton.mp hr
  have hahead : s.cursor.ahead ≠ [] := fun hnil => by
    rw [Cursor.current_eq_none.mpr hnil] at hc
    cases hc
  obtain ⟨hcurrent, hadvance⟩ := current_extend (k := k) hahead
  refine ⟨_, State.reads_singleton.mpr ⟨?_, rfl⟩, ?_, h.marks.of_reads hr.cursor, h.opened, h.rule⟩
  · rw [h.cursor, hcurrent, hc]
  · show s'.cursor.advance = _
    rw [h.cursor, hadvance]

/-- The same lies ahead in either text, unless the first is at its end. -/
theorem current (h : k.Beside s s') :
    s'.cursor.current = s.cursor.current ∨ ¬ k.Live s ∧ s.cursor.current = none ∧
      ∃ c, s'.cursor.current = some c ∧ c.isParting = true := by
  rw [h.cursor]
  by_cases hnil : s.cursor.ahead = []
  · cases hc : (s.cursor.extend k.rest).current with
    | none => exact .inl (Cursor.current_eq_none.mpr hnil).symm
    | some c =>
      refine .inr ⟨?_, Cursor.current_eq_none.mpr hnil, c, rfl, isParting_of_nil hnil hc⟩
      rintro (hrest | hne)
      · rw [Cursor.current, Cursor.extend, hnil, hrest] at hc
        cases hc
      · exact hne hnil
  · exact .inl (current_extend hnil).1

/-- In a live state the same character lies ahead in either text. -/
theorem current_of_live (h : k.Beside s s') (hlive : k.Live s) :
    s'.cursor.current = s.cursor.current :=
  h.current.resolve_right fun hend => hend.1 hlive

end Beside

/-- What separates the texts is one of the parting signs. -/
theorem isOneOf_parting {c : CodePoint} (h : c.isParting = true) :
    c.isOneOf [')', ']', '|'] = true :=
  CodePoint.of_isOneOf (fun d => d.isOneOf [')', ']', '|']) h (by decide)

/-- The two runs, of which the second need only follow the first as far as that finds no fault. They
part at the parting signs. -/
def pairing (k : Extension) : Pairing where
  left := k.left
  right := k.right
  Beside := k.Beside
  Marks m m' := k.Marks m ∧ m' = m.extend k.rest
  span := id
  Parts c := c.isParting = true
  Blames _ _ := True
  Excuses _ := True
  mayPart_of_parts hc := by rw [CodePoint.mayPart, isOneOf_parting hc, Bool.true_or]
  marks h := ⟨h.marks, h.cursor⟩
  between := by
    rintro m _ s s' ⟨hm, rfl⟩ hs
    exact hm.between hs.marks hs.index
  read hs _ hr := hs.reads hr
  stop := by
    intro s s' c hs h hc
    rcases hs.current with heq | ⟨-, -, d, hd, hparting⟩
    · exact h c (heq ▸ hc)
    · exact Option.some.inj (hd.symm.trans hc) ▸ hparting
  blames _ _ := trivial
  blames_tooMany _ _ _ _ _ := trivial

theorem pairing_free (k : Extension) : k.pairing.Free := fun _ => trivial

theorem pairing_alike (k : Extension) : k.pairing.Alike := ⟨rfl, .inl rfl⟩

/-- Where classes are read by the set grammar, more properties may be named. -/
theorem ofName?_widens {edition : Edition} {name : String} {p : Property}
    (h : Property.ofName? edition k.left.sets name = some p) :
    Property.ofName? edition k.sets name = some p := by
  have hwidens := k.widens
  revert h
  simp only [Property.ofName?]
  split
  · exact id
  · split
    · exact id
    · intro h
      split at h
      · next hstrings =>
        rw [Bool.and_eq_true] at hstrings
        rw [hwidens hstrings.1, Bool.true_and, if_pos hstrings.2]
        exact h
      · cases h

theorem pairing_sameProperties (k : Extension) : k.pairing.SameProperties where
  unicode := rfl
  supports := rfl
  pair _ _ := .inl rfl
  lone _ name := by
    cases hleft : Property.ofName? k.pairing.left.edition k.pairing.left.sets name with
    | none => exact .inr ⟨rfl, k.pairing_free⟩
    | some p => exact .inl (ofName?_widens hleft)

/-- Spans are the same in either text. -/
abbrev trees (k : Extension) : k.pairing.Trees := .same rfl

/-- A sign that parts nothing is read in both texts or in neither. -/
theorem not_parts {c : CodePoint} (h : c.isParting = false) : ¬ k.pairing.Parts c := by
  intro hc
  rw [show c.isParting = true from hc] at h
  cases h

end Extension

/-! ## Parsers beside each other

The excuse has to be given by what the first run was done with, since it is the first run that has
come to an end. A first run that misses is followed by one that misses, and one that is at fault is
left alone. -/

namespace Parser

open Extension

variable {α β γ : Type} {k : Extension}

/-- Over the text that goes on, the second parser does what the first does over the text, from
states with `P` to states with `P'`, unless the first is done in a way that is excused. -/
abbrev Extends (k : Extension) (P P' : State → Prop) (lost : α → State → Prop)
    (p q : Parser α) : Prop :=
  k.pairing.Trails P P' (.of lost) Eq p q

namespace Extends

variable {P P' : State → Prop} {lost : α → State → Prop} {p q : Parser α}

theorem of_outcomes
    (hdone : ∀ {s s' a t}, k.Beside s s' → P s → p k.left s = .done a t →
      lost a t ∨ P' t ∧ ∃ t', q k.right s' = .done a t' ∧ k.Beside t t')
    (hmiss : ∀ {s s'}, k.Beside s s' → P s → p k.left s = .miss → q k.right s' = .miss) :
    Extends k P P' lost p q :=
  .of_free k.pairing_free (fun hs hP ha => (hdone hs hP ha).imp_right fun ⟨hP', t', ha', ht⟩ =>
    ⟨hP', _, t', ha', rfl, ht⟩) hmiss

theorem done (hp : Extends k P P' lost p q) {s s' t : State} {a : α} (hs : k.Beside s s')
    (hP : P s) (ha : p k.left s = .done a t) :
    lost a t ∨ P' t ∧ ∃ t', q k.right s' = .done a t' ∧ k.Beside t t' := by
  rcases Pairing.Trails.done hp hs hP ha with ⟨_, hlost, _⟩ | ⟨hP', _, t', ha', rfl, ht⟩
  · exact .inl hlost
  · exact .inr ⟨hP', t', ha', ht⟩

/-- What may start anywhere may start from some states. -/
theorem from_ (hp : Extends k (fun _ => True) P' lost p q) : Extends k P P' lost p q :=
  hp.mono (fun _ _ => trivial) (fun _ => id) (fun _ _ _ => id) fun _ _ => id

end Extends

theorem failAt_extends {P P' : State → Prop} {lost : α → State → Prop} (cause : Cause)
    (index : Nat) (q : Parser α) : Extends k P P' lost (failAt cause index) q :=
  .of_fault k.pairing_free fun _ => ⟨_, rfl⟩

theorem modifyScope_beside {f : GroupScope → GroupScope}
    (hf : ∀ scope, (f scope).rule = scope.rule) :
    k.pairing.Pairs Eq (modifyScope f) (modifyScope f) :=
  fun _ _ hs => .done rfl ⟨hs.cursor, hs.marks, hs.opened, (hf _).trans hs.rule⟩

/-! ## Characters

A parting sign lies ahead of the second run where nothing is left for the first. A test that the
parting signs fail is failed in both runs there. But behind a backslash any character may stand for
itself, so this is where a parting sign could be read. -/

/-- A test that the parting signs may pass must not be made at the end of the text. -/
theorem satisfy_extends (test : CodePoint → Bool) :
    Extends k k.Live (fun _ => True) (fun _ _ => False) (satisfy test) (satisfy test) := by
  refine .of_outcomes (fun hs _ hdone => ?_) fun {s s'} hs hlive hmiss => ?_
  · obtain ⟨hc, hr⟩ := satisfy_eq_done.mp hdone
    obtain ⟨t', hr', ht⟩ := hs.reads hr
    exact .inr ⟨trivial, t', satisfy_eq_done.mpr ⟨hc, hr'⟩, ht⟩
  · rw [satisfy_eq_miss] at hmiss ⊢
    rwa [hs.current_of_live hlive]

/-- A parting sign can be escaped to stand for itself, so there must be something to escape. -/
theorem escapedValue_extends :
    Extends k k.Live (fun _ => True) (fun _ _ => False) escapedValue escapedValue :=
  escapedValue_trails k.pairing_alike rfl (.grammar_bind (satisfy_extends _))

/-- A character escape extends, unless the text ends behind its backslash. -/
theorem characterEscape_extends {m m' : Cursor} (hm : k.pairing.Marks m m') :
    Extends k k.Live (fun _ => True) (fun _ _ => False) (characterEscape m) (characterEscape m') :=
  escapedValue_extends.bind (fun _ => .of_pairs (characterFrom_pairs hm fun _ => rfl))
    Pairing.retains_of_nothing

theorem groupName_beside : k.pairing.Pairs Eq groupName groupName :=
  groupName_pairs k.pairing_alike rfl fun _ => isOneOf_parting

end Parser

/-! ## Inside a class

A bound is kept: the bracket at which the class closes in the first run. States before it are alive
in both runs, and what leads past it is lost. -/

/-- A bracket lies ahead that closes a class, with so many units behind it. -/
def State.ClosesAt (behind : Nat) (s : State) : Prop :=
  ∃ t r, s.cursor.ahead = t ++ 0x5D :: r ∧ r.length = behind

namespace State.ClosesAt

variable {behind : Nat} {s t : State} {c : CodePoint} {cs : List CodePoint}

theorem live {k : Extension} (h : s.ClosesAt behind) : k.Live s := by
  obtain ⟨t, r, hahead, -⟩ := h
  exact .inr (by simp [hahead])

/-- The bracket lies ahead as long as it has not been read. -/
theorem of_reaches (h : s.ClosesAt behind) (hr : s.cursor.Reaches t.cursor) :
    t.ClosesAt behind ∨ t.cursor.remaining ≤ behind := by
  obtain ⟨before, after, hahead, rfl⟩ := h
  obtain ⟨cs, hcs⟩ := hr
  rw [hcs.ahead, List.append_eq_append_iff] at hahead
  rcases hahead with ⟨rest, -, hrest⟩ | ⟨rest, -, hrest⟩
  · exact .inl ⟨rest, after, hrest, rfl⟩
  · cases rest with
    | nil => exact .inl ⟨[], after, hrest.symm, rfl⟩
    | cons u rest =>
      rw [List.cons_append, List.cons.injEq] at hrest
      refine .inr ?_
      rw [hrest.2, List.length_append]
      exact Nat.le_add_left _ _

/-- A bracket that closes a class still lies ahead when another character has been read. -/
theorem read (h : s.ClosesAt behind) (hr : s.Reads [c] t) (hc : c ≠ .ofChar ']') :
    t.ClosesAt behind := by
  obtain ⟨before, after, hahead, rfl⟩ := h
  obtain ⟨hcurrent, rfl⟩ := State.reads_singleton.mp hr
  obtain ⟨-, -, -, huncons⟩ := Cursor.current_eq_some hcurrent
  rw [hahead, List.append_cons, Text.uncons?_append _ _ _ (by decide),
    Option.map_eq_some_iff] at huncons
  obtain ⟨⟨d, rest⟩, hd, hrest⟩ := huncons
  obtain ⟨rfl, hahead'⟩ := Prod.mk.inj hrest
  rcases Text.uncons?_ends (by decide) hd with ⟨t', rfl⟩ | ⟨hbracket, -⟩
  · refine ⟨t', after, ?_, rfl⟩
    rw [← hahead', List.append_assoc]
    rfl
  · exact absurd (hbracket.trans (by decide)) hc

end State.ClosesAt

namespace Extension

variable {behind : Nat}

/-- The two runs of what is inside a class. They part at the bracket that closes it, and before the
bracket they do not come to the end of the text. -/
def inClass (k : Extension) (behind : Nat) : Pairing where
  left := k.left
  right := k.right
  Beside s s' := k.Beside s s' ∧ s.ClosesAt behind
  Marks := k.pairing.Marks
  span := id
  Parts c := c = .ofChar ']'
  Blames _ _ := True
  Excuses _ := True
  mayPart_of_parts := by
    rintro _ rfl
    decide
  marks hs := k.pairing.marks hs.1
  between hm hs := k.pairing.between hm hs.1
  read := by
    intro s s' t c hs hc hr
    obtain ⟨t', hr', ht⟩ := hs.1.reads hr
    exact ⟨t', hr', ht, hs.2.read hr hc⟩
  stop := by
    intro s s' c hs h hc
    exact h c ((hs.1.current_of_live hs.2.live).symm.trans hc)
  blames _ _ := trivial
  blames_tooMany _ _ _ _ _ := trivial

theorem inClass_free (k : Extension) (behind : Nat) : (k.inClass behind).Free := fun _ => trivial

theorem inClass_sameRules (k : Extension) (behind : Nat) : (k.inClass behind).SameRules :=
  ⟨rfl, rfl, rfl⟩

theorem inClass_sameProperties (k : Extension) (behind : Nat) :
    (k.inClass behind).SameProperties where
  unicode := rfl
  supports := rfl
  pair := k.pairing_sameProperties.pair
  lone := k.pairing_sameProperties.lone

/-- A run that has read the bracket is lost. -/
theorem inClass_losing (k : Extension) (behind : Nat) :
    (k.inClass behind).Losing fun s => s.cursor.remaining ≤ behind where
  signs := by
    rintro _ rfl
    decide
  current hs := hs.1.current_of_live hs.2.live
  passes := by
    intro s s' c hs hc
    have hr : s.Reads [c] { s with cursor := s.cursor.advance } :=
      State.reads_singleton.mpr ⟨hc, rfl⟩
    obtain ⟨t', hr', ht⟩ := hs.1.reads hr
    obtain ⟨-, rfl⟩ := State.reads_singleton.mp hr'
    exact (hs.2.of_reaches hr.cursor.reaches).imp_left fun hcloses => ⟨ht, hcloses⟩
  stays hpast hle := Nat.le_trans hle hpast
  free _ := k.inClass_free behind

end Extension

namespace Parser

open Extension

variable {k : Extension} {behind : Nat}

/-- What goes beside itself does so inside a class, unless it gets past the bracket. -/
theorem goes_inClass {α : Type} {p q : Parser α} (hp : k.pairing.Pairs Eq p q)
    (hreaches : ∀ s a t, p k.left s = .done a t → s.cursor.Reaches t.cursor) :
    (k.inClass behind).Goes (fun s => s.cursor.remaining ≤ behind) Eq p q := by
  refine .of_free (k.inClass_free behind) (fun {s s' a t} hs _ ha => ?_) fun {s s'} hs _ hmiss =>
    Pairing.Outcomes.of_miss (hmiss ▸ hp s s' hs.1)
  obtain ⟨b, t', hb, hab, ht⟩ := Pairing.Outcomes.of_done (ha ▸ hp s s' hs.1)
  rcases hs.2.of_reaches (hreaches s a t ha) with hcloses | hpast
  · exact .inr ⟨trivial, b, t', hb, hab, ht, hcloses⟩
  · exact .inl hpast

/-! ## Brackets

Since the class is closed in the first run, its contents end before the bracket, and nothing is
lost. -/

theorem endOfClass_pairs (hsets : k.sets = k.left.sets) {m m' : Cursor}
    (hm : k.pairing.Marks m m') (nested negated : Bool) (elements : List CharSet) :
    k.pairing.Pairs Eq (endOfClass m nested negated elements)
      (endOfClass m' nested negated elements) := by
  have hfault : k.pairing.Pairs Eq
      (do if nested || (← atEnd) then fail .unterminatedClass else fail .invalidCharacterInClass)
      (do if nested || (← atEnd) then fail .unterminatedClass else fail .invalidCharacterInClass :
        Parser Unit) := by
    refine .of_fault k.pairing_free fun s => ?_
    show ∃ e, (if nested || s.cursor.current.isNone then fail .unterminatedClass
      else fail .invalidCharacterInClass : Parser Unit) k.left s = .fault e
    split <;> exact ⟨_, rfl⟩
  exact ((eat_pairs (not_parts (by decide))).orElse hfault).bind fun _ =>
    .ite (.fail rfl) (classOf_pairs hm rfl hsets negated elements)

/-- What is between the brackets is compared up to the closing one, which is there since the class
is done. -/
theorem closed_pairs (hsets : k.sets = k.left.sets) {contents contents' : Parser (List CharSet)}
    {m m' : Cursor} (hm : k.pairing.Marks m m') (nested negated : Bool)
    (hcontents : ∀ behind, (k.inClass behind).Goes (fun s => s.cursor.remaining ≤ behind) Eq
      contents contents')
    (hreaches : ∀ s xs t, contents k.left s = .done xs t → s.cursor.Reaches t.cursor)
    (hmiss : NeverMisses contents) :
    k.pairing.Pairs Eq (contents >>= endOfClass m nested negated)
      (contents' >>= endOfClass m' nested negated) := by
  refine fun s s' hs => .of_free k.pairing_free (fun x t hdone => ?_) fun hnone => ?_
  · obtain ⟨xs, u, hxs, hx⟩ := bind_eq_done.mp hdone
    obtain ⟨_, v, hclose, -⟩ := bind_eq_done.mp hx
    have hbracket := (closeClass_eq_done.mp hclose).cursor
    have hcloses : s.ClosesAt v.cursor.remaining := by
      obtain ⟨cs, hcs⟩ := hreaches s xs u hxs
      refine ⟨Text.ofCodePoints cs, v.cursor.ahead, ?_, rfl⟩
      rw [hcs.ahead, hbracket.ahead]
      rfl
    have hlt : v.cursor.remaining < u.cursor.remaining :=
      hbracket.remaining_lt (List.cons_ne_nil _ _)
    rcases (hcontents v.cursor.remaining).done ⟨hs, hcloses⟩ trivial hxs with
      ⟨_, hpast, -⟩ | ⟨-, _, u', hxs', rfl, hu, -⟩
    · exact absurd hpast (Nat.not_le.mpr hlt)
    · have hxs' : contents' k.pairing.right s' = .done xs u' := hxs'
      rw [bind_of_done hxs']
      exact (hx ▸ endOfClass_pairs hsets hm nested negated xs u u' hu).of_done
  · exact absurd hnone (hmiss.bind (fun _ => neverMisses_endOfClass) _ _)

/-- Classes are read in a text that goes on as in the text. The bracket lies in the text, so nothing
that is put behind it is seen. -/
theorem charClass_pairs (hsets : k.sets = k.left.sets) (depth : Nat) (nested : Bool) :
    k.pairing.Pairs Eq (charClass depth nested) (charClass depth nested) := by
  induction depth generalizing nested with
  | zero => exact .here_bind fun m m' hm => (sign_pairs (by decide)).bind fun _ => .failAt rfl hm
  | succ depth ih =>
    show k.pairing.Pairs Eq (classBody (charClass depth true) nested)
      (classBody (charClass depth true) nested)
    rw [classBody_eq]
    refine .here_bind fun m m' hm => (sign_pairs (by decide)).bind fun _ =>
      (eats_pairs (Pairing.not_parts (by decide))).bind fun negated =>
        .grammar_bind (closed_pairs hsets hm nested negated (fun behind => ?_) ?_ ?_)
    · have hinner : NestedClasses (k := k.inClass behind) (.same rfl)
          (fun s => s.cursor.remaining ≤ behind) (charClass depth true) (charClass depth true) :=
        ⟨goes_inClass (ih true) fun _ _ _ h => (charClass_derives h).reaches,
          progresses_charClass _ _ _, progresses_charClass _ _ _⟩
      exact (classContents_goes _ (k.inClass_losing behind) hsets (k.inClass_sameRules behind)
        (k.inClass_sameProperties behind) hinner).mono (fun _ => id) (fun _ => id)
          (fun _ _ _ => id) fun xs _ h => (List.map_id xs).symm.trans h
    · intro s xs t h
      cases hg : k.left.sets with
      | true =>
        exact (classSetContents_derives hg (fun _ _ _ => charClass_derives)
          (by simpa [pairing, hg] using h)).reaches
      | false => exact (classRanges_derives hg (by simpa [pairing, hg] using h)).reaches
    · intro g s h
      split at h
      · exact neverMisses_classSetContents g s h
      · exact neverMisses_many _ g s (map_eq_miss.mp h)

end Parser

end EcmaPattern
