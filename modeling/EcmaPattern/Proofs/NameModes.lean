import EcmaPattern.Proofs.Agreement.Names
import EcmaPattern.Proofs.CharacterValues

/-!
# Group names by code points and by code units

Where names are read in Unicode, a name is the same whether the rest of the pattern is read by code
points or by code units (`groupName_inModes`). By code points the text already comes in whole
characters; by code units a lead surrogate is joined by hand with the trail that follows.

The two runs are those of a pairing (`Pairing.modes`): all signs that a name is written with lie
below the surrogates, and there a text reads the same in both modes. So the two readings can differ
in the first unit of a name's character only, and that is what is looked at here.
-/

namespace EcmaPattern

/-! ## Places in either mode

The same place, with the cursor set to join pairs or not. Where a pair lies ahead the next places
are one unit apart, and everywhere else they are the same. -/

theorem Text.uncons?_false (u : CodeUnit) (t : Text) :
    Text.uncons? false (u :: t) = some (.ofUnit u, t) := by
  cases t <;> rfl

/-- The same place, where surrogate pairs are single characters or are not. -/
def Cursor.inMode (paired : Bool) (c : Cursor) : Cursor := { c with paired }

def State.inMode (paired : Bool) (s : State) : State := { s with cursor := s.cursor.inMode paired }

/-- A state that is in a mode already is not changed by going into it. -/
theorem State.inMode_of_paired {s : State} {b : Bool} (h : s.cursor.paired = b) :
    s.inMode b = s := by
  rw [State.inMode, Cursor.inMode, ← h]

def Outcome.inMode {α : Type} (paired : Bool) : Outcome α → Outcome α
  | .done a t => .done a (t.inMode paired)
  | .miss => .miss
  | .fault f => .fault f

namespace Cursor

variable {c : Cursor} {u v : CodeUnit} {rest : Text}

theorem advance_paired (c : Cursor) : c.advance.paired = c.paired := by
  rw [advance]
  split <;> rfl

/-- A surrogate pair is one character in one mode, and two in the other. -/
theorem current_of_isPair (hahead : c.ahead = u :: v :: rest) (hpair : Text.isPair u v = true) :
    (c.inMode true).current = some (.ofPair (.ofUnit u) (.ofUnit v)) ∧
      (c.inMode false).current = some (.ofUnit u) ∧
      (c.inMode false).advance.current = some (.ofUnit v) ∧
      (c.inMode false).advance.advance = (c.inMode true).advance.inMode false := by
  obtain ⟨index, ahead, paired⟩ := c
  obtain rfl : ahead = u :: v :: rest := hahead
  have htrue : Text.uncons? true (u :: v :: rest) =
      some (.ofPair (.ofUnit u) (.ofUnit v), rest) := by
    rw [Text.uncons?, hpair]
    rfl
  have hwidth : (CodePoint.ofPair (.ofUnit u) (.ofUnit v)).width = 2 := by
    rw [← CodePoint.length_encode, Text.encode_ofPair hpair]
    rfl
  have hunit : ∀ w : CodeUnit, (CodePoint.ofUnit w).width = 1 := by
    intro w
    rw [← CodePoint.length_encode, Text.encode_ofUnit]
    rfl
  refine ⟨?_, ?_, ?_, ?_⟩
  · rw [current, inMode, htrue]
    rfl
  · rw [current, inMode, Text.uncons?_false]
    rfl
  · rw [current, advance, inMode, Text.uncons?_false]
    show Option.map _ (Text.uncons? false (v :: rest)) = _
    rw [Text.uncons?_false]
    rfl
  · simp only [advance, inMode, htrue, Text.uncons?_false, hwidth, hunit]

/-- Unless a surrogate pair is ahead, the next character is the same in both modes; if it is a lead
surrogate, no trail follows. -/
theorem inMode_cases (c : Cursor) :
    (∃ u v rest, c.ahead = u :: v :: rest ∧ Text.isPair u v = true) ∨
      (c.inMode false).current = (c.inMode true).current ∧
      (c.inMode false).advance = (c.inMode true).advance.inMode false ∧
      ∀ a b, (c.inMode true).current = some a → a.isLead = true →
        (c.inMode false).advance.current = some b → b.isTrail = false := by
  obtain ⟨index, ahead, paired⟩ := c
  match ahead with
  | [] => exact .inr ⟨rfl, rfl, by rintro _ _ - - ⟨⟩⟩
  | [u] => exact .inr ⟨rfl, rfl, by rintro _ _ - - ⟨⟩⟩
  | u :: v :: rest =>
    cases hpair : Text.isPair u v with
    | true => exact .inl ⟨u, v, rest, rfl, hpair⟩
    | false =>
      have huncons : Text.uncons? true (u :: v :: rest) = some (.ofUnit u, v :: rest) := by
        rw [Text.uncons?, hpair]
        rfl
      refine .inr ⟨?_, ?_, ?_⟩
      · simp only [current, inMode, huncons, Text.uncons?_false]
      · simp only [advance, inMode, huncons, Text.uncons?_false]
      · intro a b ha hlead hb
        simp only [current, advance, inMode, huncons, Text.uncons?_false, Option.map_some,
          Option.some.injEq] at ha hb
        rw [Text.isPair, ha, hlead, hb, Bool.true_and] at hpair
        exact hpair

/-- Below the surrogates, the next character is the same in both modes. -/
theorem inMode_of_lt {a : CodePoint} (hpaired : c.paired = true) (ha : c.current = some a)
    (hlt : a.val < 0xD800) :
    (c.inMode false).current = some a ∧ (c.inMode false).advance = c.advance.inMode false := by
  have hmode : c.inMode true = c := by rw [inMode, ← hpaired]
  rcases c.inMode_cases with ⟨u, v, rest, hahead, hpair⟩ | ⟨hcurrent, hadvance, -⟩
  · have htrue := (current_of_isPair hahead hpair).1
    rw [hmode, ha] at htrue
    obtain rfl := Option.some.inj htrue
    rw [Text.isPair, Bool.and_eq_true] at hpair
    rw [CodePoint.val_ofPair hpair.1 hpair.2] at hlt
    omega
  · rw [hmode] at hcurrent hadvance
    exact ⟨hcurrent.trans ha, hadvance⟩

/-- A surrogate by code units is one by code points too, or half of what lies above them. -/
theorem le_of_inMode {a : CodePoint} (hpaired : c.paired = true)
    (h : ∀ b, c.current = some b → 0xD800 ≤ b.val) (ha : (c.inMode false).current = some a) :
    0xD800 ≤ a.val := by
  have hmode : c.inMode true = c := by rw [inMode, ← hpaired]
  rcases c.inMode_cases with ⟨u, v, rest, hahead, hpair⟩ | ⟨hcurrent, -, -⟩
  · have hfalse := (current_of_isPair hahead hpair).2.1
    rw [ha] at hfalse
    obtain rfl := Option.some.inj hfalse
    rw [Text.isPair, Bool.and_eq_true] at hpair
    exact (CodePoint.isLead_iff.mp hpair.1).1
  · rw [hmode] at hcurrent
    exact h a (hcurrent ▸ ha)

end Cursor

/-! ## Runs in either mode

The pairing of states that are the same but for the mode. The runs part at surrogates, so everything
that is written in ASCII pairs. -/

/-- A run by code points, and one by code units from the same place. They part at surrogates and at
all that lies above them. -/
def Pairing.modes (g g' : Grammar) : Pairing where
  left := g
  right := g'
  Beside s s' := s.cursor.paired = true ∧ s' = s.inMode false
  Marks m m' := m' = m.inMode false
  span := id
  Parts c := 0xD800 ≤ c.val
  Blames e e' := e' = e
  Excuses _ := False
  mayPart_of_parts hc := by rw [CodePoint.mayPart, decide_eq_true hc, Bool.or_true]
  marks := by
    rintro s _ ⟨-, rfl⟩
    rfl
  between := by
    rintro m _ s _ rfl ⟨-, rfl⟩
    rfl
  read := by
    rintro s _ t c ⟨hs, rfl⟩ hc hr
    obtain ⟨hcurrent, rfl⟩ := State.reads_singleton.mp hr
    obtain ⟨hcurrent', hadvance⟩ := Cursor.inMode_of_lt hs hcurrent (Nat.not_le.mp hc)
    refine ⟨_, State.reads_singleton.mpr ⟨hcurrent', rfl⟩,
      (Cursor.advance_paired s.cursor).trans hs, ?_⟩
    exact congrArg (State.mk · s.scope s.opened) hadvance
  stop := by
    rintro s _ c ⟨hs, rfl⟩ h hc
    exact Cursor.le_of_inMode hs h hc
  blames := by
    rintro m _ cause rfl -
    rfl
  blames_tooMany := by
    rintro s _ t _ cs - - ⟨-, rfl⟩ - -
    rfl

namespace Parser

variable {α : Type} {g g' : Grammar} {s t : State}

/-- A parser that goes beside itself without parting does the same in both modes. -/
theorem eq_inMode_of_pairs {p : Parser α} (h : (Pairing.modes g g').Pairs Eq p p) (s : State) :
    p g' (s.inMode false) = (p g (s.inMode true)).inMode false := by
  have hsame : (Pairing.modes g g').Outcomes Eq (p g (s.inMode true)) (p g' (s.inMode false)) :=
    h _ _ ⟨rfl, rfl⟩
  generalize p g (s.inMode true) = o at hsame
  generalize p g' (s.inMode false) = o' at hsame
  cases hsame with
  | done hab ht =>
    rw [hab, ht.2]
    rfl
  | miss => rfl
  | fault h =>
    rw [h]
    rfl
  | excused h => exact h.elim

/-! ## Names

A character of a name is an escape, a single unit or a pair. In the last case one mode reads it in
one step and the other in two, and then both test the same code point. -/

/-- A character is returned if it passes a test. -/
theorem tested_pairs {k : Pairing} (test : CodePoint → Bool) (c : CodePoint) :
    k.Pairs Eq (do require (test c); return c : Parser CodePoint)
      (do require (test c); return c) :=
  (require_pairs _).bind fun _ => .pure rfl

theorem satisfy_any {c : CodePoint} (hc : s.cursor.current = some c) :
    satisfy (fun _ => true) g s = .done c { s with cursor := s.cursor.advance } :=
  satisfy_eq_done.mpr ⟨rfl, State.reads_singleton.mpr ⟨hc, rfl⟩⟩

theorem satisfy_any_eq_miss (hc : s.cursor.current = none) :
    satisfy (fun _ => true) g s = .miss :=
  satisfy_eq_miss.mpr fun c hsome => by rw [hc] at hsome; cases hsome

/-- No surrogate, and nothing above them, is a backslash. -/
theorem ne_backslash_of_le {c : CodePoint} (hc : 0xD800 ≤ c.val) : c ≠ .ofChar '\\' := by
  rintro rfl
  exact absurd hc (by decide)

/-- What is left of a character of a name when the first character of the text has been read. -/
def nameCharacterFrom (joins : Bool) (test : CodePoint → Bool) (first : CodePoint) :
    Parser CodePoint := do
  let c ←
    (do require (first == .ofChar '\\')
        unicodeEscape true)
      <|> (do require (joins && first.isLead)
              return .ofPair first (← satisfy CodePoint.isTrail))
      <|> pure first
  require (test c)
  return c

/-- By code points a character of a name is the next character, or what that escapes. -/
theorem nameCharacter_byCodePoints (hg : g.unicode = true) (test : CodePoint → Bool) :
    nameCharacter test g s = (satisfy (fun _ => true) >>= nameCharacterFrom false test) g s := by
  rw [nameCharacter, grammar_bind, hg]
  rfl

/-- Unless it is a lead surrogate, the first character decides alike in both modes. What may follow
is written with signs below the surrogates. -/
theorem nameCharacterFrom_pairs (test : CodePoint → Bool) {first : CodePoint}
    (hfirst : first.isLead = false) :
    (Pairing.modes g g').Pairs Eq (nameCharacterFrom false test first)
      (nameCharacterFrom true test first) := by
  rw [nameCharacterFrom, nameCharacterFrom, hfirst]
  refine .bind (.orElse ?_ (.orElse ?_ (.pure rfl))) (tested_pairs test)
  · exact (require_pairs _).bind fun _ => unicodeEscape_pairs (.inl (by simp))
  · exact .miss

/-- A first character that begins no escape is taken as it is, unless it is joined. -/
theorem nameCharacterFrom_plain {joins : Bool} (test : CodePoint → Bool) {first : CodePoint}
    (hslash : first ≠ .ofChar '\\')
    (hjoin : (do require (joins && first.isLead)
                 return .ofPair first (← satisfy CodePoint.isTrail) : Parser CodePoint) g s =
      .miss) :
    nameCharacterFrom joins test first g s = (do require (test first); return first) g s := by
  refine bind_of_done ?_
  rw [orElse_of_miss (require_bind_eq_miss.mpr (.inl (beq_eq_false_iff_ne.mpr hslash))),
    orElse_of_miss hjoin]
  rfl

/-- By code units, a lead surrogate is joined with the trail that follows. -/
theorem nameCharacterFrom_joined (test : CodePoint → Bool) {first last : CodePoint}
    (hlead : first.isLead = true) (htrail : last.isTrail = true) (hr : s.Reads [last] t) :
    nameCharacterFrom true test first g s =
      (do require (test (.ofPair first last))
          return .ofPair first last : Parser CodePoint) g t := by
  have hslash : (first == .ofChar '\\') = false := by
    rw [beq_eq_false_iff_ne]
    rintro rfl
    exact absurd hlead (by decide)
  refine bind_of_done ?_
  rw [orElse_of_miss (require_bind_eq_miss.mpr (.inl hslash))]
  refine orElse_of_done (require_bind_eq_done.mpr ⟨by rw [hlead]; rfl, ?_⟩)
  exact bind_eq_done.mpr ⟨last, t, satisfy_eq_done.mpr ⟨htrail, hr⟩, rfl⟩

section Modes

variable (hg : g.unicode = true) (hg' : g'.unicode = false)
  (hedition : g'.edition.supports .unicodeGroupNames = true)

omit hg hedition in
include hg' hedition in
/-- By code units a character of a name may take a second unit. -/
theorem nameCharacter_byCodeUnits (test : CodePoint → Bool) :
    nameCharacter test g' s = (satisfy (fun _ => true) >>= nameCharacterFrom true test) g' s := by
  rw [nameCharacter, grammar_bind, hg', hedition]
  rfl

include hg hg' hedition

/-- A surrogate pair is one character by code points, and is joined by code units. -/
theorem nameCharacter_alike_of_pair (test : CodePoint → Bool) {a b : CodeUnit} {rest : Text}
    (hahead : s.cursor.ahead = a :: b :: rest) (hpair : Text.isPair a b = true) :
    (Pairing.modes g g').Outcomes Eq (nameCharacter test g (s.inMode true))
      (nameCharacter test g' (s.inMode false)) := by
  obtain ⟨htrue, hfalse, hsecond, hmeet⟩ := Cursor.current_of_isPair hahead hpair
  rw [Text.isPair, Bool.and_eq_true] at hpair
  obtain ⟨hlead, htrail⟩ := hpair
  have hslash : CodePoint.ofPair (.ofUnit a) (.ofUnit b) ≠ .ofChar '\\' :=
    ne_backslash_of_le (by rw [CodePoint.val_ofPair hlead htrail]; omega)
  have hpaired : (s.cursor.inMode true).advance.paired = true := Cursor.advance_paired _
  have hlast : State.Reads { s with cursor := (s.cursor.inMode false).advance } [.ofUnit b]
      { s with cursor := (s.cursor.inMode true).advance.inMode false } :=
    State.reads_singleton.mpr ⟨hsecond, by rw [← hmeet]⟩
  have hfirst : nameCharacter test g (s.inMode true) =
      (do require (test (.ofPair (.ofUnit a) (.ofUnit b)))
          return .ofPair (.ofUnit a) (.ofUnit b) : Parser CodePoint) g
        { s with cursor := (s.cursor.inMode true).advance } := by
    rw [nameCharacter_byCodePoints hg, bind_of_done (satisfy_any htrue),
      nameCharacterFrom_plain test hslash rfl]
    rfl
  have hfirst' : nameCharacter test g' (s.inMode false) =
      (do require (test (.ofPair (.ofUnit a) (.ofUnit b)))
          return .ofPair (.ofUnit a) (.ofUnit b) : Parser CodePoint) g'
        { s with cursor := (s.cursor.inMode true).advance.inMode false } := by
    rw [nameCharacter_byCodeUnits hg' hedition, bind_of_done (satisfy_any hfalse)]
    exact nameCharacterFrom_joined test hlead htrail hlast
  rw [hfirst, hfirst']
  exact tested_pairs (k := Pairing.modes g g') test _ _ _ ⟨hpaired, rfl⟩

/-- A first character that is the same in both modes, with no trail behind it if it is a lead. -/
theorem nameCharacter_alike_of_single (test : CodePoint → Bool) {first : CodePoint}
    (hc : (s.cursor.inMode true).current = some first)
    (hc' : (s.cursor.inMode false).current = some first)
    (hadvance : (s.cursor.inMode false).advance = (s.cursor.inMode true).advance.inMode false)
    (hnext : first.isLead = true → ∀ b, (s.cursor.inMode false).advance.current = some b →
      b.isTrail = false) :
    (Pairing.modes g g').Outcomes Eq (nameCharacter test g (s.inMode true))
      (nameCharacter test g' (s.inMode false)) := by
  have hpaired : (s.cursor.inMode true).advance.paired = true := Cursor.advance_paired _
  have hfirst : nameCharacter test g (s.inMode true) = nameCharacterFrom false test first g
      { s with cursor := (s.cursor.inMode true).advance } := by
    rw [nameCharacter_byCodePoints hg, bind_of_done (satisfy_any hc)]
    rfl
  have hfirst' : nameCharacter test g' (s.inMode false) = nameCharacterFrom true test first g'
      { s with cursor := (s.cursor.inMode false).advance } := by
    rw [nameCharacter_byCodeUnits hg' hedition, bind_of_done (satisfy_any hc')]
    rfl
  rw [hfirst, hfirst', hadvance]
  cases hlead : first.isLead with
  | false =>
    have hrest : (Pairing.modes g g').Pairs Eq _ _ := nameCharacterFrom_pairs test hlead
    exact hrest _ _ ⟨hpaired, rfl⟩
  | true =>
    have hslash := ne_backslash_of_le (CodePoint.isLead_iff.mp hlead).1
    -- by code units the lead stays alone too
    have halone : (do require (true && first.isLead)
                      return .ofPair first (← satisfy CodePoint.isTrail) : Parser CodePoint) g'
        { s with cursor := (s.cursor.inMode true).advance.inMode false } = .miss := by
      rw [← hadvance]
      exact require_bind_eq_miss.mpr (.inr (bind_of_miss (satisfy_eq_miss.mpr (hnext hlead))))
    rw [nameCharacterFrom_plain test hslash rfl, nameCharacterFrom_plain test hslash halone]
    exact tested_pairs (k := Pairing.modes g g') test _ _ _ ⟨hpaired, rfl⟩

/-- A character of a name is whole by code points, and joined by code units. -/
theorem nameCharacter_inModes (test : CodePoint → Bool) :
    (Pairing.modes g g').Pairs Eq (nameCharacter test) (nameCharacter test) := by
  rintro s _ ⟨hs, rfl⟩
  have hmode : s.inMode true = s := State.inMode_of_paired hs
  rcases s.cursor.inMode_cases with ⟨a, b, rest, hahead, hpair⟩ | ⟨hcurrent, hadvance, hnext⟩
  · have hname := nameCharacter_alike_of_pair hg hg' hedition test hahead hpair
    rwa [hmode] at hname
  cases hc : (s.cursor.inMode true).current with
  | some first =>
    have hname := nameCharacter_alike_of_single hg hg' hedition test hc (hcurrent.trans hc)
      hadvance fun hlead b => hnext first b hc hlead
    rwa [hmode] at hname
  | none =>
    have hmiss : nameCharacter test g (s.inMode true) = .miss := by
      rw [nameCharacter_byCodePoints hg]
      exact bind_of_miss (satisfy_any_eq_miss hc)
    have hmiss' : nameCharacter test g' (s.inMode false) = .miss := by
      rw [nameCharacter_byCodeUnits hg' hedition]
      exact bind_of_miss (satisfy_any_eq_miss (hcurrent.trans hc))
    rw [hmode] at hmiss
    show (Pairing.modes g g').Outcomes Eq (nameCharacter test g s)
      (nameCharacter test g' (s.inMode false))
    rw [hmiss, hmiss']
    exact .miss

/-- A name is the same in both modes, and so is what is wrong where there is none. -/
theorem groupName_inModes : (Pairing.modes g g').Pairs Eq groupName groupName := by
  have hpart := nameCharacter_inModes hg hg' hedition CodePoint.isIdentifierPart
  have hname : (Pairing.modes g g').Pairs Eq identifierName identifierName :=
    (nameCharacter_inModes hg hg' hedition _).bind fun _ =>
      (hpart.many (progresses_nameCharacter _ _) (progresses_nameCharacter _ _)).bind fun _ =>
        .pure rfl
  exact (sign_pairs (by decide)).bind fun _ => (hname.orElse (.fail rfl)).bind fun _ =>
    ((sign_pairs (by decide)).orElse (.fail rfl)).bind fun _ => .pure rfl

end Modes

end Parser

end EcmaPattern
