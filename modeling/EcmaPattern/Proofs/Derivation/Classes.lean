import EcmaPattern.Grammar.CharClass
import EcmaPattern.Proofs.Derivation

/-!
# Classes are derived

Every class that is read has a derivation. The contents of a class outside the set grammar are
atoms and ranges (`classRanges_derives`), those of the set grammar a union or a chain of operations
(`classSetContents_derives`); a class puts its contents between brackets, and classes nest as deeply
as the limit allows (`charClass_derives`).

Key lemmas:

* `ElementsRelated.of_classSetContents`: what holds of single elements, and is closed under unions
  and operations, holds of contents; it is used again for other relations than `Derives`;
* `charClass_derives`, by induction on the levels that are left.
-/

namespace EcmaPattern

open EcmaPattern.Parser

variable {g : Grammar} {s t u : State}

theorem Derives.elements_append {xs ys : List CharSet} (h : Derives g s (.elements xs) t)
    (h' : Derives g t (.elements ys) u) : Derives g s (.elements (xs ++ ys)) u := by
  induction xs generalizing s with
  | nil =>
    cases h
    exact h'
  | cons x xs ih =>
    cases h with
    | consElement hx hs => exact .consElement hx (ih hs)

theorem Derives.elements_single {x : CharSet} (h : Derives g s (.element x) t) :
    Derives g s (.elements [x]) t :=
  .consElement h (.noElement t)

/-- An escape for a set is no character, so it cannot bound a range. -/
theorem SetSpelling.character?_eq_none {cs : List CodePoint} {make : Span → CharSet}
    (h : SetSpelling g cs make) (span : Span) : (make span).character? = none := by
  cases h <;> rfl

namespace Parser

/-! ## Atoms and ranges

An atom is a character or a set, and what a hyphen makes of two atoms depends on which they are: a
range, three atoms, or a fault. -/

theorem characterSetFrom_eq_done {mark : Cursor} {v : CodePoint} {x : CharSet} :
    characterSetFrom mark v g s = .done x t ↔
      x = .character ⟨Span.between mark t.cursor, v⟩ ∧ s = t := by
  rw [characterSetFrom, map_eq_done]
  constructor
  · rintro ⟨c, hc, rfl⟩
    obtain ⟨rfl, rfl⟩ := characterFrom_eq_done.mp hc
    exact ⟨rfl, rfl⟩
  · rintro ⟨rfl, rfl⟩
    exact ⟨_, characterFrom_eq_done.mpr ⟨rfl, rfl⟩, rfl⟩

theorem classEscapedValue_eq_done {v : CodePoint} (h : classEscapedValue g s = .done v t) :
    ∃ cs, s.Reads cs t ∧ Spelling g .ranges (.ofChar '\\' :: cs) v := by
  rcases orElse_eq_done.mp h with h | ⟨-, h⟩
  · obtain ⟨u, hr, h⟩ := eat_bind_eq_done.mp h
    obtain ⟨rfl, rfl⟩ := pure_eq_done.mp h
    exact ⟨_, hr, .backspace nofun⟩
  rcases orElse_eq_done.mp h with h | ⟨-, h⟩
  · rw [grammar_bind, require_bind_eq_done] at h
    obtain ⟨hu, h⟩ := h
    obtain ⟨u, hr, h⟩ := eat_bind_eq_done.mp h
    obtain ⟨rfl, rfl⟩ := pure_eq_done.mp h
    exact ⟨_, hr, .hyphen hu⟩
  · rw [classControlLetter, grammar_bind, require_bind_eq_done] at h
    obtain ⟨hg, h⟩ := h
    obtain ⟨u, hr, h⟩ := eat_bind_eq_done.mp h
    obtain ⟨c, w, hc, h⟩ := bind_eq_done.mp h
    obtain ⟨rfl, rfl⟩ := pure_eq_done.mp h
    obtain ⟨hc, hr'⟩ := satisfy_eq_done.mp hc
    exact ⟨_, hr.trans hr', .letter (by simpa using hg) hc⟩

/-- An atom of a class is a character or a set escape. -/
theorem classAtom_eq_done {x : CharSet} (h : classAtom g s = .done x t) :
    (∃ c, x = .character c ∧ ReadsCharacter g .ranges s c t) ∨
      x.character? = none ∧ ReadsSetEscape g s x t := by
  rw [classAtom, here_bind] at h
  rcases orElse_eq_done.mp h with h | ⟨-, h⟩
  · obtain ⟨c, u, hc, h⟩ := bind_eq_done.mp h
    obtain ⟨hallow, hr⟩ := satisfy_eq_done.mp hc
    obtain ⟨rfl, rfl⟩ := characterSetFrom_eq_done.mp h
    exact .inl ⟨_, rfl, .spelled (.plain hallow) hr⟩
  obtain ⟨u, hslash, h⟩ := eat_bind_eq_done.mp h
  rcases orElse_eq_done.mp h with h | ⟨-, h⟩
  · rw [classEscape] at h
    rcases orElse_eq_done.mp h with h | ⟨-, h⟩
    · obtain ⟨v, w, hv, h⟩ := bind_eq_done.mp h
      obtain ⟨rfl, rfl⟩ := characterSetFrom_eq_done.mp h
      obtain ⟨cs, hr, hcs⟩ := classEscapedValue_eq_done hv
      exact .inl ⟨_, rfl, .spelled hcs (hslash.trans hr)⟩
    rcases orElse_eq_done.mp h with h | ⟨-, h⟩
    · obtain ⟨cs, make, hr, hcs, rfl⟩ := setEscape_eq_done h
      exact .inr ⟨hcs.character?_eq_none _, .mk hcs (hslash.trans hr)⟩
    · obtain ⟨⟨span, v⟩, hc, rfl⟩ := map_eq_done.mp h
      obtain ⟨cs, hr, hcs, rfl⟩ := characterEscape_eq_done hc
      exact .inl ⟨_, rfl, .spelled (.escaped hcs) (hslash.trans hr)⟩
  rcases orElse_eq_done.mp h with h | ⟨-, h⟩
  · -- a backslash for itself, before a `c` that begins no escape
    rw [classBackslash, grammar_bind, require_bind_eq_done, sees_bind, require_bind_eq_done] at h
    obtain ⟨-, hc, h⟩ := h
    obtain ⟨rfl, rfl⟩ := characterSetFrom_eq_done.mp h
    rw [Cursor.peek_zero] at hc
    exact .inl ⟨_, rfl, .backslash nofun hslash (eq_of_beq hc)⟩
  · rw [grammar_bind, require_bind_eq_done] at h
    exact absurd h.2 fail_ne_done

/-- An atom that is a character has been read as one, in one of its spellings. -/
theorem classAtom_character {c : Character} (h : classAtom g s = .done (.character c) t) :
    ReadsCharacter g .ranges s c t := by
  rcases classAtom_eq_done h with ⟨d, hd, hr⟩ | ⟨hnone, -⟩
  · cases hd
    exact hr
  · cases hnone

/-- What is read as an atom can be derived. -/
theorem classAtom_derives (hg : g.sets = false) {x : CharSet} (h : classAtom g s = .done x t) :
    Derives g s (.element x) t := by
  rcases classAtom_eq_done h with ⟨c, rfl, hc⟩ | ⟨-, hx⟩
  · refine .character ?_
    rwa [Grammar.classPlace, if_neg (by simp [hg])]
  · exact .setEscape hx

/-- Two atoms with a hyphen between them are a range, or the three of them. -/
theorem classRange_eq_done {mark : Cursor} {low dash high : CharSet} {xs : List CharSet}
    (h : classRange mark low dash high g s = .done xs t) :
    s = t ∧ ((∃ c d, low = .character c ∧ high = .character d ∧ c.value ≤ d.value ∧
      xs = [.range (.between mark t.cursor) c d]) ∨ xs = [low, dash, high]) := by
  have hsome : ∀ {x : CharSet} {c : Character}, x.character? = some c → x = .character c := by
    intro x c hx
    cases x <;> simp_all [CharSet.character?]
  -- with a set at one of the ends there is no range, and the web grammar has three elements
  have hthree : (do
      if (← grammar).exact then fail .invalidCharacterClass
      else return [low, dash, high] : Parser (List CharSet)) g s = .done xs t →
      s = t ∧ xs = [low, dash, high] := by
    intro h
    rw [grammar_bind] at h
    split at h
    · exact absurd h fail_ne_done
    · obtain ⟨rfl, rfl⟩ := pure_eq_done.mp h
      exact ⟨rfl, rfl⟩
  rw [classRange] at h
  cases hlow : low.character? with
  | none =>
    simp only [hlow] at h
    exact ⟨(hthree h).1, .inr (hthree h).2⟩
  | some c =>
    cases hhigh : high.character? with
    | none =>
      simp only [hlow, hhigh] at h
      exact ⟨(hthree h).1, .inr (hthree h).2⟩
    | some d =>
      simp only [hlow, hhigh] at h
      split at h
      · exact absurd h fail_ne_done
      · next hle =>
        rw [spanFrom_bind] at h
        obtain ⟨rfl, rfl⟩ := pure_eq_done.mp h
        exact ⟨rfl, .inl ⟨c, d, hsome hlow, hsome hhigh, Fin.not_lt.mp hle, rfl⟩⟩

/-- An item is one element or three: a range, or two atoms and the hyphen between them. -/
theorem classRangeItem_derives (hg : g.sets = false) {xs : List CharSet}
    (h : classRangeItem g s = .done xs t) : Derives g s (.elements xs) t := by
  have hplace : g.classPlace = .ranges := by rw [Grammar.classPlace, if_neg (by simp [hg])]
  rw [classRangeItem, here_bind] at h
  obtain ⟨low, u₁, hlow, h⟩ := bind_eq_done.mp h
  rw [here_bind] at h
  obtain ⟨dash, u₂, hdash, h⟩ := bind_eq_done.mp h
  rcases (eats_eq_done.mp hdash).symm with ⟨rfl, -, rfl⟩ | ⟨rfl, hd⟩
  · -- one atom by itself
    obtain ⟨rfl, rfl⟩ := pure_eq_done.mp h
    exact .elements_single (classAtom_derives hg hlow)
  obtain ⟨x, u₃, hx, h⟩ := bind_eq_done.mp h
  obtain ⟨rfl, rfl⟩ := characterSetFrom_eq_done.mp hx
  have hdashed : Derives g u₁ (.element (.character ⟨.between u₁.cursor u₂.cursor, '-'⟩)) u₂ := by
    refine .character (.spelled (.plain ?_) hd)
    rw [hplace]
    show (!CodePoint.isOneOf ['\\', ']'] '-') = true
    decide
  obtain ⟨o, u₄, ho, h⟩ := bind_eq_done.mp h
  rcases (attempt_eq_done.mp ho).symm with ⟨rfl, -, rfl⟩ | ⟨high, rfl, hhigh⟩
  · -- nothing follows the hyphen, which stands for itself
    obtain ⟨rfl, rfl⟩ := pure_eq_done.mp h
    exact .consElement (classAtom_derives hg hlow) (.elements_single hdashed)
  obtain ⟨rfl, hxs⟩ := classRange_eq_done h
  rcases hxs with ⟨c, d, rfl, rfl, hle, rfl⟩ | rfl
  · have hc := classAtom_character hlow
    have hd' := classAtom_character hhigh
    rw [← hplace] at hc hd'
    exact .elements_single (.range hc hd hd' hle)
  · -- in the grammar of the web, a hyphen next to a set stands for itself as well
    exact .consElement (classAtom_derives hg hlow)
      (.consElement hdashed (.elements_single (classAtom_derives hg hhigh)))

/-- What is read as the contents of a class can be derived. -/
theorem classRanges_derives (hg : g.sets = false) {xs : List CharSet}
    (h : classRanges g s = .done xs t) : Derives g s (.elements xs) t := by
  obtain ⟨items, hitems, rfl⟩ := map_eq_done.mp h
  have hchain := chain_of_many hitems
  clear h hitems
  induction hchain with
  | nil s => exact .noElement s
  | cons head _ ih => exact (classRangeItem_derives hg head).elements_append ih

/-! ## The set grammar

The parsers that read characters, ranges and quoted strings, before those that let classes nest. -/

/-- A character of the set grammar has been read in one of its spellings. -/
theorem classSetCharacter_eq_done {c : Character} (h : classSetCharacter g s = .done c t) :
    ReadsCharacter g .sets s c t := by
  rw [classSetCharacter, here_bind] at h
  rcases orElse_eq_done.mp h with h | ⟨-, h⟩
  · obtain ⟨v, u, hv, h⟩ := bind_eq_done.mp h
    obtain ⟨rfl, rfl⟩ := characterFrom_eq_done.mp h
    obtain ⟨htest, hr⟩ := satisfy_eq_done (g := g).mp hv
    obtain ⟨-, hallow⟩ := (Bool.and_eq_true _ _).mp htest
    exact .spelled (.plain hallow) hr
  obtain ⟨u, hslash, h⟩ := eat_bind_eq_done.mp h
  rcases orElse_eq_done.mp h with h | ⟨-, h⟩
  · obtain ⟨span, v⟩ := c
    obtain ⟨cs, hr, hcs, rfl⟩ := characterEscape_eq_done h
    exact .spelled (.escaped hcs) (hslash.trans hr)
  rcases orElse_eq_done.mp h with h | ⟨-, h⟩
  · obtain ⟨v, w, hv, h⟩ := bind_eq_done.mp h
    obtain ⟨rfl, rfl⟩ := characterFrom_eq_done.mp h
    obtain ⟨hp, hr⟩ := satisfy_eq_done.mp hv
    exact .spelled (.punctuator hp) (hslash.trans hr)
  · obtain ⟨w, hr, h⟩ := eat_bind_eq_done.mp h
    obtain ⟨rfl, rfl⟩ := characterFrom_eq_done.mp h
    exact .spelled (.backspace nofun) (hslash.trans hr)

/-- The rest of a range is a hyphen and a character that is not below the first. -/
theorem classSetRange_eq_done {c : Character} {mark : Cursor} {x : CharSet}
    (h : classSetRange c mark g s = .done x t) :
    ∃ d u, s.Reads ['-'] u ∧ classSetCharacter g u = .done d t ∧ c.value ≤ d.value ∧
      x = .range (.between mark t.cursor) c d := by
  rw [classSetRange, eat_bind_eq_done] at h
  obtain ⟨u, hdash, h⟩ := h
  obtain ⟨d, v, hd, h⟩ := bind_eq_done.mp h
  split at h
  · exact absurd h fail_ne_done
  · next hle =>
    rw [spanFrom_bind] at h
    obtain ⟨rfl, rfl⟩ := pure_eq_done.mp h
    exact ⟨d, u, hdash, hd, Fin.not_lt.mp hle, rfl⟩

/-- Quoted strings stand between braces with bars between them. -/
theorem classStrings_eq_done {x : CharSet} (h : classStrings g s = .done x t) :
    ∃ y ys u v w, s.Reads ['\\', 'q', '{'] u ∧ classString g u = .done y v ∧
      Chain (fun s x t => (do eat '|'; classString : Parser ClassString) g s = .done x t) v ys w ∧
      w.Reads ['}'] t ∧ x = .strings (.between s.cursor t.cursor) (y :: ys) := by
  rw [classStrings, here_bind] at h
  obtain ⟨u, hopen, h⟩ := eatAll_bind_eq_done.mp h
  obtain ⟨y, v, hy, h⟩ := bind_eq_done.mp h
  obtain ⟨ys, w, hys, h⟩ := bind_eq_done.mp h
  obtain ⟨r, hclose, h⟩ := eat_or_fail_bind_eq_done.mp h
  rw [spanFrom_bind] at h
  obtain ⟨rfl, rfl⟩ := pure_eq_done.mp h
  exact ⟨y, ys, u, v, w, hopen, hy, chain_of_many hys, hclose, rfl⟩

/-! ### Elements, one by one

The contents of a class are read as a first operand and what goes on from it. Instead of going
through these parsers anew for each relation between states and elements, `ElementsRelated` states
what such a relation has to satisfy, and the lemmas below draw the conclusion once. -/

/-- The right side of an operation follows its sign. -/
theorem operationStep_eq_done {inner : Parser CharSet} {mark : Cursor} {op : SetOperation}
    {step : Span × CharSet} (h : operationStep inner mark op g s = .done step t) :
    ∃ y u, s.Reads [.ofChar (operationSign op), .ofChar (operationSign op)] u ∧
      classSetOperand inner g u = .done y t ∧ step = (.between mark t.cursor, y) := by
  rw [operationStep] at h
  obtain ⟨u, hsign, h⟩ := eatAll_bind_eq_done.mp h
  -- whether or not a further sign is looked for, an operand and the span follow
  have hright : (do
      let right ← classSetOperand inner <|> fail .invalidCharacterInClass
      return (← spanFrom mark, right) : Parser (Span × CharSet)) g u = .done step t := by
    rw [sees_bind] at h
    split at h
    · exact absurd h fail_ne_done
    · exact h
  obtain ⟨y, v, hy, hright⟩ := bind_eq_done.mp hright
  rw [spanFrom_bind] at hright
  obtain ⟨rfl, rfl⟩ := pure_eq_done.mp hright
  exact ⟨y, u, hsign, orElse_fail_eq_done.mp hy, rfl⟩

/-- Where contents do not begin, there is nothing but a fault. -/
theorem classSetFault_ne_done {xs : List CharSet} : classSetFault g s ≠ .done xs t := by
  intro h
  rw [classSetFault] at h
  split at h
  · exact absurd h fail_ne_done
  · split at h
    · obtain ⟨u, -, h⟩ := eat_bind_eq_done.mp h
      exact absurd h fail_ne_done
    · split at h
      · exact absurd h fail_ne_done
      · exact absurd h fail_ne_done

/-- What holds of every single element that is read in the set grammar, and of elements in a row.
The contents of a class are read one element after the other, so it holds of them as well
(`ElementsRelated.of_classSetContents`). -/
structure ElementsRelated (inner : Parser CharSet) (g : Grammar)
    (E : State → CharSet → State → Prop) (L : State → List CharSet → State → Prop) : Prop where
  character {s t : State} {c : Character} :
    classSetCharacter g s = .done c t → E s (.character c) t
  range {s t u : State} {c : Character} {x : CharSet} :
    classSetCharacter g s = .done c t → classSetRange c s.cursor g t = .done x u → E s x u
  operand {s t : State} {x : CharSet} : classSetOperand inner g s = .done x t → E s x t
  operation {s t u v : State} {op : SetOperation} {x y : CharSet} : E s x t →
    t.Reads [.ofChar (operationSign op), .ofChar (operationSign op)] u → E u y v →
    E s (.operation (.between s.cursor v.cursor) op x y) v
  nil (s : State) : L s [] s
  cons {s t u : State} {x : CharSet} {xs : List CharSet} : E s x t → L t xs u → L s (x :: xs) u

namespace ElementsRelated

variable {inner : Parser CharSet} {E : State → CharSet → State → Prop}
  {L : State → List CharSet → State → Prop} {x : CharSet} {xs : List CharSet}
  (h : ElementsRelated inner g E L)

include h

/-- A chain of operations goes from left to right: each has the ones before it on its left. -/
theorem of_operationSteps {op : SetOperation} {steps : List (Span × CharSet)} (hx : E s x t)
    (hsteps : Chain (fun t step u => operationStep inner s.cursor op g t = .done step u) t steps
      u) :
    E s (steps.foldl (fun left (span, right) => .operation span op left right) x) u := by
  induction hsteps generalizing x with
  | nil t => exact hx
  | cons head _ ih =>
    obtain ⟨y, v, hsign, hy, rfl⟩ := operationStep_eq_done head
    exact ih (h.operation hx hsign (h.operand hy))

/-- What holds of elements holds of an operation on them, as its left side grows. -/
theorem of_operationChain {op : SetOperation} (hx : E s x t)
    (hxs : operationChain inner s.cursor op x g t = .done xs u) : L s xs u := by
  rw [operationChain, bind_eq_done] at hxs
  obtain ⟨steps, v, hsteps, hxs⟩ := hxs
  obtain ⟨rfl, rfl⟩ := pure_eq_done.mp hxs
  rw [many1, bind_eq_done] at hsteps
  obtain ⟨step, w, hstep, hsteps⟩ := hsteps
  obtain ⟨rest, y, hrest, hsteps⟩ := bind_eq_done.mp hsteps
  obtain ⟨rfl, rfl⟩ := pure_eq_done.mp hsteps
  exact h.cons (h.of_operationSteps hx (.cons hstep (chain_of_many hrest))) (h.nil _)

theorem of_unionItem (hx : unionItem inner g s = .done x t) : E s x t := by
  rw [unionItem, here_bind] at hx
  rcases orElse_eq_done.mp hx with hx | ⟨-, hx⟩
  · obtain ⟨c, u, hc, hx⟩ := bind_eq_done.mp hx
    rcases orElse_eq_done.mp hx with hx | ⟨-, hx⟩
    · exact h.range hc hx
    · obtain ⟨rfl, rfl⟩ := pure_eq_done.mp hx
      exact h.character hc
  · exact h.operand hx

theorem of_unionRest (hx : E s x t)
    (hxs : ((x :: ·) <$> many (unionItem inner)) g t = .done xs u) : L s xs u := by
  obtain ⟨ys, hys, rfl⟩ := map_eq_done.mp hxs
  have hall : ∀ {t ys u}, Chain (fun s x t => unionItem inner g s = .done x t) t ys u →
      L t ys u := by
    intro t ys u hys
    induction hys with
    | nil s => exact h.nil s
    | cons head _ ih => exact h.cons (h.of_unionItem head) ih
  exact h.cons hx (hall (chain_of_many hys))

/-- What holds of a first operand, and of elements in a row, holds of the contents that go on from
it. -/
theorem of_classSetFrom (hx : E s x t)
    (hxs : classSetFrom inner s.cursor x g t = .done xs u) : L s xs u := by
  rcases orElse_eq_done.mp hxs with hxs | ⟨-, hxs⟩
  · exact h.of_operationChain hx hxs
  rcases orElse_eq_done.mp hxs with hxs | ⟨-, hxs⟩
  · exact h.of_operationChain hx hxs
  · exact h.of_unionRest hx hxs

/-- What holds of elements and of elements in a row holds of the contents of a class. -/
theorem of_classSetContents (hxs : classSetContents inner g s = .done xs t) : L s xs t := by
  rw [classSetContents, bind_eq_done] at hxs
  obtain ⟨ended, u, hended, hxs⟩ := hxs
  obtain ⟨-, rfl⟩ := Outcome.done.inj hended
  rw [sees_bind] at hxs
  split at hxs
  · obtain ⟨rfl, rfl⟩ := pure_eq_done.mp hxs
    exact h.nil s
  rw [classSetExpression, here_bind] at hxs
  obtain ⟨o, u, ho, hxs⟩ := bind_eq_done.mp hxs
  rcases attempt_eq_done.mp ho with ⟨c, rfl, hc⟩ | ⟨rfl, -, rfl⟩
  · obtain ⟨o, v, ho, hxs⟩ := bind_eq_done.mp hxs
    rcases attempt_eq_done.mp ho with ⟨range, rfl, hrange⟩ | ⟨rfl, -, rfl⟩
    · exact h.of_unionRest (h.range hc hrange) hxs
    · exact h.of_classSetFrom (h.character hc) hxs
  · obtain ⟨o, v, ho, hxs⟩ := bind_eq_done.mp hxs
    rcases attempt_eq_done.mp ho with ⟨x, rfl, hx⟩ | ⟨rfl, -, rfl⟩
    · exact h.of_classSetFrom (h.operand hx) hxs
    · exact absurd hxs classSetFault_ne_done

end ElementsRelated

section Sets

variable (hg : g.sets = true)

include hg

theorem classSetCharacter_derives {c : Character} (h : classSetCharacter g s = .done c t) :
    Derives g s (.element (.character c)) t := by
  refine .character ?_
  rw [Grammar.classPlace, if_pos hg]
  exact classSetCharacter_eq_done h

theorem classSetRange_derives {c : Character} {x : CharSet}
    (hc : classSetCharacter g s = .done c t) (h : classSetRange c s.cursor g t = .done x u) :
    Derives g s (.element x) u := by
  have hplace : g.classPlace = .sets := by rw [Grammar.classPlace, if_pos hg]
  obtain ⟨d, v, hdash, hd, hle, rfl⟩ := classSetRange_eq_done h
  have hc := classSetCharacter_eq_done hc
  have hd := classSetCharacter_eq_done hd
  rw [← hplace] at hc hd
  exact .range hc hdash hd hle

omit hg in
theorem classString_eq_done {x : ClassString} (h : classString g s = .done x t) :
    ReadsString g s x t := by
  rw [classString, here_bind] at h
  obtain ⟨cs, u, hcs, h⟩ := bind_eq_done.mp h
  rw [spanFrom_bind] at h
  obtain ⟨rfl, rfl⟩ := pure_eq_done.mp h
  exact .mk ((chain_of_many hcs).mono fun _ _ _ => classSetCharacter_eq_done)

omit hg in
/-- Strings one by one are strings in a row, with bars between them. -/
theorem readsStrings_of_chain {x : ClassString} {xs : List ClassString}
    (hx : ReadsString g s x t)
    (h : Chain (fun s x t =>
      (do eat '|'; classString : Parser ClassString) g s = .done x t) t xs u) :
    ReadsStrings g s (x :: xs) u := by
  induction h generalizing s x with
  | nil t => exact .last hx
  | cons head _ ih =>
    obtain ⟨v, hbar, hy⟩ := eat_bind_eq_done.mp head
    exact .cons hx hbar (ih (classString_eq_done hy))

theorem classStrings_derives {x : CharSet} (h : classStrings g s = .done x t) :
    Derives g s (.element x) t := by
  obtain ⟨y, ys, u, v, w, hopen, hy, hys, hclose, rfl⟩ := classStrings_eq_done h
  exact .strings hg hopen (readsStrings_of_chain (classString_eq_done hy) hys) hclose

omit hg in
theorem escapedSet_eq_done {x : CharSet} (h : escapedSet g s = .done x t) :
    ReadsSetEscape g s x t := by
  rw [escapedSet, here_bind, eat_bind_eq_done] at h
  obtain ⟨u, hslash, h⟩ := h
  obtain ⟨cs, make, hr, hcs, rfl⟩ := setEscape_eq_done h
  exact .mk hcs (hslash.trans hr)

variable {inner : Parser CharSet}
  (hinner : ∀ s x t, inner g s = .done x t → Derives g s (.charClass x) t)

include hinner

/-- What is read as an operand can be derived, if the classes inside can. -/
theorem classSetOperand_derives {x : CharSet} (h : classSetOperand inner g s = .done x t) :
    Derives g s (.element x) t := by
  rcases orElse_eq_done.mp h with h | ⟨-, h⟩
  · exact .nested hg (hinner _ _ _ h)
  rcases orElse_eq_done.mp h with h | ⟨-, h⟩
  · exact .setEscape (escapedSet_eq_done h)
  rcases orElse_eq_done.mp h with h | ⟨-, h⟩
  · exact classStrings_derives hg h
  · obtain ⟨c, hc, rfl⟩ := map_eq_done.mp h
    exact classSetCharacter_derives hg hc

/-- To be derivable is a relation of the kind that reaches from elements to contents. -/
theorem elementsRelated_derives :
    ElementsRelated inner g (fun s x t => Derives g s (.element x) t)
      fun s xs t => Derives g s (.elements xs) t where
  character h := classSetCharacter_derives hg h
  range hc h := classSetRange_derives hg hc h
  operand h := classSetOperand_derives hg hinner h
  operation hx hsign hy := .operation hg hx hsign hy
  nil s := .noElement s
  cons hx hxs := .consElement hx hxs

/-- What is read as contents of the set grammar can be derived, if the classes inside can. -/
theorem classSetContents_derives {xs : List CharSet}
    (h : classSetContents inner g s = .done xs t) : Derives g s (.elements xs) t :=
  (elementsRelated_derives hg hinner).of_classSetContents h

end Sets

/-! ## Brackets

A class puts brackets around contents of either grammar and gives a list or, for one operation, an
expression. -/

theorem closeClass_eq_done {nested : Bool} {x : Unit} :
    closeClass nested g s = .done x t ↔ s.Reads [']'] t := by
  rw [closeClass, orElse_eq_done, eat_eq_done]
  constructor
  · rintro (h | ⟨-, h⟩)
    · exact h
    · obtain ⟨ended, u, -, h⟩ := bind_eq_done.mp h
      split at h
      · exact absurd h fail_ne_done
      · exact absurd h fail_ne_done
  · exact .inl

/-- A class is an expression if its contents are one set operation, and else a listing. -/
theorem classOf_derives {v w : State} {negated : Bool} {xs : List CharSet} {x : CharSet}
    (hopen : s.Reads (classText negated) t) (hxs : Derives g t (.elements xs) u)
    (hclose : u.Reads [']'] v) (hn : (negated && xs.any CharSet.mayContainStrings) = false)
    (h : classOf s.cursor negated xs g v = .done x w) : Derives g s (.charClass x) w := by
  rw [classOf, grammar_bind, spanFrom_bind] at h
  have hlisting : x = .listing (.between s.cursor v.cursor) negated g.sets xs → v = w →
      Derives g s (.charClass x) w := by
    rintro rfl rfl
    exact .listing hopen hxs hclose hn
  split at h
  · next contents =>
    split at h
    · next hop =>
      obtain ⟨rfl, rfl⟩ := pure_eq_done.mp h
      obtain ⟨hg, hop⟩ := (Bool.and_eq_true _ _).mp hop
      cases hxs with
      | consElement hx hnil =>
        cases hnil
        exact .expression hg hopen hx hclose (by simpa using hn) hop
    · obtain ⟨hx, hw⟩ := pure_eq_done.mp h
      exact hlisting hx.symm hw
  · obtain ⟨hx, hw⟩ := pure_eq_done.mp h
    exact hlisting hx.symm hw

/-- What is read as a class can be derived, if the classes inside can. -/
theorem classBody_derives {inner : Parser CharSet} {nested : Bool}
    (hinner : ∀ s x t, inner g s = .done x t → Derives g s (.charClass x) t)
    {x : CharSet} (h : classBody inner nested g s = .done x t) : Derives g s (.charClass x) t := by
  rw [classBody, here_bind, eat_bind_eq_done] at h
  obtain ⟨u₁, hbracket, h⟩ := h
  obtain ⟨negated, u₂, hcaret, h⟩ := bind_eq_done.mp h
  have hopen : s.Reads (classText negated) u₂ := by
    rcases eats_eq_done.mp hcaret with ⟨rfl, hr⟩ | ⟨rfl, -, rfl⟩
    · exact hbracket.trans hr
    · exact hbracket
  -- what is left to read once the contents are known
  have hrest : ∀ {xs : List CharSet} {v : State}, Derives g u₂ (.elements xs) v →
      (do
        closeClass nested
        if negated && xs.any CharSet.mayContainStrings then fail .negatedClassWithStrings
        else classOf s.cursor negated xs : Parser CharSet) g v = .done x t →
      Derives g s (.charClass x) t := by
    intro xs v hxs h
    obtain ⟨_, w, hclose, h⟩ := bind_eq_done.mp h
    split at h
    · exact absurd h fail_ne_done
    · next hn =>
      exact classOf_derives hopen hxs (closeClass_eq_done.mp hclose) (by simpa using hn) h
  rw [grammar_bind] at h
  split at h
  · next hg =>
    obtain ⟨xs, v, hxs, h⟩ := bind_eq_done.mp h
    exact hrest (classSetContents_derives hg hinner hxs) h
  · next hg =>
    obtain ⟨xs, v, hxs, h⟩ := bind_eq_done.mp h
    exact hrest (classRanges_derives (by simpa using hg) hxs) h

/-- Every class that is read is derived. -/
theorem charClass_derives {depth : Nat} {nested : Bool} {x : CharSet}
    (h : charClass depth nested g s = .done x t) : Derives g s (.charClass x) t := by
  induction depth generalizing nested s t x with
  | zero =>
    rw [charClass, here_bind, eat_bind_eq_done] at h
    obtain ⟨u, -, h⟩ := h
    exact absurd h failAt_ne_done
  | succ depth ih =>
    rw [charClass] at h
    exact classBody_derives (fun _ _ _ => ih) h

end Parser

end EcmaPattern
