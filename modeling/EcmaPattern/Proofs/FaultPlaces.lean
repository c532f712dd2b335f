import EcmaPattern.Proofs.Pairing.Terms

/-!
# Where faults are found

A fault is reported with an offset: that of the current place, or of one that was remembered on the
way there, or of one between the two. Either way it is the offset of a place that can be read from
where the parse began, so it lies in the slice that is read and, where surrogate pairs are single
characters, not inside a pair. `StaysAfter b g p` says this of one parser: started at a place that
can be read from `b`, it leads to such places and finds its faults at such places.

Here a run is set beside itself. The two runs are whole, and that the second one blames what the
first one does says where the faults are (`disjunction_staysAfter`).
-/

namespace EcmaPattern

/-! ## Faults of terms

A fault is an offset and a cause. `FoundAfter` says of the offset what was said above, and of the
cause that it is one of terms, or that more digits than can be converted stand before the offset. -/

/-- It is found that a number is too long, right behind its decimal digits; they can be read from a
place that can be read from `b`. -/
def Fault.IsOfLongNumber (b : Cursor) (f : Fault) : Prop :=
  ∃ cs mark c, b.Reaches mark ∧ mark.Reads cs c ∧ c.index = f.index ∧
    (∀ d ∈ cs, d.isDecimalDigit = true) ∧ 4300 < cs.length ∧ f.cause = .tooManyDigits cs.length

/-- The fault lies at a place that can be read from `b`, and is one of terms or of a number. -/
structure Fault.FoundAfter (b : Cursor) (f : Fault) : Prop where
  place : ∃ c, b.Reaches c ∧ c.index = f.index
  cause : f.cause.isOfTerms = true ∨ f.IsOfLongNumber b

/-- What an outcome points to can be read from a place. -/
def Outcome.After {α : Type} (b : Cursor) : Outcome α → Prop
  | .done _ t => b.Reaches t.cursor
  | .miss => True
  | .fault f => f.FoundAfter b

namespace Parser

variable {α β : Type} {b : Cursor} {g : Grammar} {s t : State}

/-- From a place that can be read from `b`, the parser goes on to such places, and it finds faults
only there. -/
def StaysAfter (b : Cursor) (g : Grammar) (p : Parser α) : Prop :=
  ∀ s : State, b.Reaches s.cursor → (p g s).After b

end Parser

/-! ## A run beside itself

The pairing in which states are equal and reachable. Every lemma on pairs of runs is then one on
places. -/

/-- A run, and the same run, among the places that can be read from one place. -/
def Pairing.after (b : Cursor) (g : Grammar) : Pairing where
  left := g
  right := g
  Beside s s' := s' = s ∧ b.Reaches s.cursor
  Marks m m' := m' = m ∧ b.Reaches m
  span := id
  Parts _ := False
  Blames e _ := e.FoundAfter b
  Excuses _ := False
  mayPart_of_parts := CodePoint.mayPart_of_false
  marks h := ⟨congrArg State.cursor h.1, h.2⟩
  between := by
    rintro m _ s _ ⟨rfl, -⟩ ⟨rfl, -⟩
    rfl
  read := by
    rintro s _ t c ⟨rfl, hs⟩ - hr
    exact ⟨t, hr, rfl, hs.trans hr.cursor.reaches⟩
  stop := by
    rintro s _ c ⟨rfl, -⟩ h hc
    exact h c hc
  blames := by
    intro m _ _ hm hcause
    exact ⟨⟨m, hm.2, rfl⟩, .inl hcause⟩
  blames_tooMany := by
    intro s _ t _ cs hs hr ht hdigits hlength
    exact ⟨⟨t.cursor, ht.2, rfl⟩,
      .inr ⟨cs, s.cursor, t.cursor, hs.2, hr.cursor, rfl, hdigits, hlength, rfl⟩⟩

namespace Pairing

variable (b : Cursor) (g : Grammar)

/-- Set beside itself, a run is whole. -/
theorem after_whole : (after b g).Whole where
  grammar := rfl
  not_parts _ := id
  remaining := by rintro s _ ⟨rfl, -⟩; rfl
  scope := by rintro s _ ⟨rfl, -⟩; rfl
  opened := by rintro s _ ⟨rfl, -⟩; rfl
  withScope := by rintro s _ scope opened ⟨rfl, hs⟩; exact ⟨rfl, hs⟩

end Pairing

namespace Parser

variable {α : Type} {b : Cursor} {g : Grammar}

/-- What goes beside itself finds its faults where the later run is to blame, which is itself. -/
theorem staysAfter_of_pairs {R : α → α → Prop} {p : Parser α}
    (h : (Pairing.after b g).Pairs R p p) : StaysAfter b g p := by
  intro s hs
  have hsame : (Pairing.after b g).Outcomes R (p g s) (p g s) := h s s ⟨rfl, hs⟩
  generalize p g s = o at hsame
  cases hsame with
  | done hab ht => exact ht.2
  | miss => trivial
  | fault he => exact he
  | excused h => exact h.elim

/-- A disjunction leads to places, and finds its faults at places, that can be read from where it
began. -/
theorem disjunction_staysAfter (depth : Nat) : StaysAfter b g (disjunction depth) :=
  staysAfter_of_pairs
    (disjunction_maps (Pairing.Trees.same rfl) (Pairing.after_whole b g) depth)

end Parser

end EcmaPattern
