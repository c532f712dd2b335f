import EcmaPattern.Proofs.Pairing.Terms

/-!
# Relaxed grammars

A grammar is relaxed by giving up the strict rules, or by no longer taking `\k` for a named
reference. The two grammars make a pairing in which no fault of the first run is followed by the
second (`Pairing.relaxing`): what the first grammar faults, the relaxed one may do with as it likes.

`Simulates lost R p q g g'` says that what `p` does under `g`, short of a fault, `q` does under the
relaxed grammar `g'`, up to a relation `R` between the values, unless it finds that a number is too
long and the value is one for which this is excused. It is a run that may lose something, so what is
shown of such runs elsewhere applies.

Most parsers need no excuse (`Stable`), and for all that stands below the terms there is nothing
more to show than the lemmas on pairs do. What is left are the escaped characters, of which the
strict grammars have fewer; classes are taken up in `charClass_stable`.

Key lemmas:

* `Stable.orElse_done` and `Stable.orElse_miss`, for choices that the grammars order differently;
* `Simulates.of_outcomes` and `Simulates.done`, which say what a run comes to, or what is lost;
* `escapedValue_relaxed`, that an escape is read as it was, by whichever of the alternatives.
-/

namespace EcmaPattern

/-- The second grammar differs from the first only in that it may be less strict, and may, if it is
the grammar of the web, no longer take `\k` for a named reference. -/
structure Grammar.RelaxesTo (g g' : Grammar) : Prop where
  edition : g'.edition = g.edition
  unicode : g'.unicode = g.unicode
  sets : g'.sets = g.sets
  captures : g'.captures = g.captures
  strict : g'.strict = true → g.strict = true
  names : g'.namedReferences = g.namedReferences ∨ g.namedReferences = true ∧ g'.exact = false

namespace Grammar.RelaxesTo

variable {g g' : Grammar}

/-- Where the relaxed grammar has no extensions, the other has none. -/
theorem exact_of_exact (h : g.RelaxesTo g') (hg : g'.exact = true) : g.exact = true := by
  rw [Grammar.exact, Bool.or_eq_true] at hg ⊢
  rw [h.unicode] at hg
  exact hg.imp_left h.strict

theorem not_exact (h : g.RelaxesTo g') (hg : g.exact = false) : g'.exact = false :=
  Bool.eq_false_iff.mpr fun hg' => by simp [h.exact_of_exact hg'] at hg

/-- What is not strict stays so. -/
theorem not_strict (h : g.RelaxesTo g') (hg : g.strict = false) : g'.strict = false :=
  Bool.eq_false_iff.mpr fun hg' => by simp [h.strict hg'] at hg

/-- If the first grammar is not strict, relaxing changes nothing about the extensions. -/
theorem exact_eq (h : g.RelaxesTo g') (hg : g.strict = false) : g'.exact = g.exact := by
  rw [Grammar.exact, Grammar.exact, hg, h.not_strict hg, h.unicode]

/-- A relaxed grammar takes `\k` for a reference only if the other does. -/
theorem names_of_names (h : g.RelaxesTo g') (hg : g'.namedReferences = true) :
    g.namedReferences = true := by
  rcases h.names with heq | ⟨hg, -⟩
  · rw [← heq, hg]
  · exact hg

end Grammar.RelaxesTo

/-! ## The two runs

The two grammars make a pairing that follows no fault. In it nothing parts, and spans stay what they
are. -/

/-- A run under a grammar, and one from the same state under another, if no fault of the first is
followed by the second. -/
def Pairing.relaxing (g g' : Grammar) : Pairing where
  left := g
  right := g'
  Beside s s' := s' = s
  Marks m m' := m' = m
  span := id
  Parts _ := False
  Blames _ _ := True
  Excuses _ := True
  mayPart_of_parts := CodePoint.mayPart_of_false
  marks h := congrArg State.cursor h
  between := by
    rintro m _ s _ rfl rfl
    rfl
  read := by
    rintro s _ t c rfl - hr
    exact ⟨t, hr, rfl⟩
  stop := by
    rintro s _ c rfl h hc
    exact h c hc
  blames _ _ := trivial
  blames_tooMany _ _ _ _ _ := trivial

namespace Pairing

variable (g g' : Grammar)

theorem relaxing_level : (relaxing g g').Level where
  not_parts _ := id
  remaining := by
    rintro s _ rfl
    rfl

theorem relaxing_free : (relaxing g g').Free := fun _ => trivial

/-- The same tree in both runs. -/
abbrev relaxingTrees : (relaxing g g').Trees := .same rfl

end Pairing

namespace Grammar.RelaxesTo

variable {g g' : Grammar} (h : g.RelaxesTo g')

include h

/-- Relaxing does not change what the lemmas on pairs ask of the grammars. -/
theorem alike : (Pairing.relaxing g g').Alike where
  unicode := h.unicode
  strict := by
    show g'.strict = g.strict ∨ g.strict = true ∧ _
    cases hg : g.strict with
    | false => exact .inl (h.not_strict hg)
    | true => exact .inr ⟨rfl, .inl (Pairing.relaxing_free g g')⟩

theorem sameProperties : (Pairing.relaxing g g').SameProperties where
  unicode := h.unicode
  supports := congrArg (Edition.supports · .propertyEscapes) h.edition
  pair name value := .inl (congrArg (Property.ofPair? · name value) h.edition)
  lone _ name := .inl (by
    show Property.ofName? g'.edition g'.sets name = Property.ofName? g.edition g.sets name
    rw [h.edition, h.sets])

end Grammar.RelaxesTo

namespace Parser

variable {α β γ δ : Type} {g g' : Grammar} {s t : State}

/-- Unless it finds a fault under the first grammar, the parser does the same under the second. -/
abbrev Stable (p : Parser α) (g g' : Grammar) : Prop := (Pairing.relaxing g g').Pairs Eq p p

/-- The second run has found that a number is too long, and the value of the first is one for which
this is excused. -/
def overflown (lost : α → Prop) : Loss α := fun w a _ =>
  lost a ∧ ∃ e ∈ w, (Outcome.fault e : Outcome α).Overflows

/-- What the first parser does under the first grammar, short of a fault, the second one does under
the second grammar, with a related value; or, if the value is `lost`, the second finds that a number
is too long. -/
abbrev Simulates (lost : α → Prop) (R : α → β → Prop) (p : Parser α) (q : Parser β)
    (g g' : Grammar) : Prop :=
  (Pairing.relaxing g g').Trails (fun _ => True) (fun _ => True) (overflown lost) R p q

/-! ## Choices

A choice is where a relaxed grammar can go astray: its first alternative may be done where the other
one missed. So a choice is simulated only under a condition on misses, and `orElse_done` states it
for the cases in which the alternatives are known. -/

namespace Simulates

variable {lost : α → Prop} {R : α → β → Prop} {p : Parser α} {q : Parser β}

theorem of_outcomes
    (hdone : ∀ {s a t}, p g s = .done a t →
      (∃ b, q g' s = .done b t ∧ R a b) ∨ lost a ∧ (q g' s).Overflows)
    (hmiss : ∀ {s}, p g s = .miss → q g' s = .miss) : Simulates lost R p q g g' := by
  rintro _ s rfl -
  show Pairing.Trailing _ _ _ _ (p g s) (q g' s)
  cases h : p g s with
  | done a t =>
    rcases hdone h with ⟨b, hb, hab⟩ | ⟨hlost, e, he, hlong⟩
    · rw [hb]
      exact .done hab trivial rfl
    · rw [he]
      exact .lost (w := some e) (fun _ => .inl trivial) (fun _ hw => by cases hw; rfl)
        ⟨hlost, e, rfl, e, rfl, hlong⟩
  | miss =>
    rw [hmiss h]
    exact .miss
  | fault e => exact .excused trivial

theorem done (h : Simulates lost R p q g g') {a : α} (ha : p g s = .done a t) :
    (∃ b, q g' s = .done b t ∧ R a b) ∨ lost a ∧ (q g' s).Overflows := by
  rcases Pairing.Trails.done h rfl trivial ha with
    ⟨w, ⟨hlost, e, he, hlong⟩, hw⟩ | ⟨-, b, t', hb, hab, rfl⟩
  · obtain ⟨f, hf, hcause⟩ := hlong
    cases hf
    exact .inr ⟨hlost, e, hw e he, hcause⟩
  · exact .inl ⟨b, hb, hab⟩

/-- Without an excuse, the second parser is done if the first is. -/
theorem eq_done (h : Simulates (fun _ => False) R p q g g') {a : α} (ha : p g s = .done a t) :
    ∃ b, q g' s = .done b t ∧ R a b :=
  (h.done ha).resolve_right And.left

/-- A choice is done as before if its second parser is, where the choice comes to it. -/
theorem orElse_done {p' : Parser α} {q' : Parser β} (h : Simulates lost R p q g g') {a : α}
    (h' : p' g s = .done a t → (∃ b, q' g' s = .done b t ∧ R a b) ∨ lost a ∧ (q' g' s).Overflows)
    (ha : (p <|> p') g s = .done a t) :
    (∃ b, (q <|> q') g' s = .done b t ∧ R a b) ∨ lost a ∧ ((q <|> q') g' s).Overflows := by
  rcases orElse_eq_done.mp ha with ha | ⟨hmiss, ha⟩
  · rcases h.done ha with ⟨b, hb, hab⟩ | ⟨hlost, hlong⟩
    · exact .inl ⟨b, orElse_of_done hb, hab⟩
    · exact .inr ⟨hlost, Overflows.orElse hlong⟩
  · have hmiss : q g' s = .miss := Pairing.Trails.miss h rfl trivial hmiss
    rw [orElse_of_miss hmiss]
    exact h' ha

end Simulates

namespace Stable

variable {p q : Parser α}

/-- What is read under the first grammar is read under the relaxed one. -/
theorem eq_done (h : Stable p g g') {a : α} (ha : p g s = .done a t) : p g' s = .done a t := by
  obtain ⟨_, _, hb, rfl, rfl⟩ := Pairing.Outcomes.of_done (ha ▸ h s s rfl)
  exact hb

theorem miss (h : Stable p g g') (hs : p g s = .miss) : p g' s = .miss :=
  Pairing.Outcomes.of_miss (hs ▸ h s s rfl)

/-- To be stable, a parser has to be done or miss under the second grammar as under the first. -/
theorem of_outcomes (hdone : ∀ s a t, p g s = .done a t → p g' s = .done a t)
    (hmiss : ∀ s, p g s = .miss → p g' s = .miss) : Stable p g g' := by
  rintro _ s rfl
  exact .of_free (Pairing.relaxing_free g g') (fun a t ha => ⟨a, t, hdone s a t ha, rfl, rfl⟩)
    (hmiss s)

/-- A parser that does not look at the grammar is stable. -/
theorem of_eq (h : ∀ s, p g' s = p g s) : Stable p g g' :=
  of_outcomes (fun s _ _ ha => (h s).trans ha) fun s hs => (h s).trans hs

/-- A choice is done as before if its second parser is, where the choice comes to it. -/
theorem orElse_done {q' : Parser α} {a : α} (hp : Stable p g g')
    (hq : q g s = .done a t → q' g' s = .done a t) (h : (p <|> q) g s = .done a t) :
    (p <|> q') g' s = .done a t := by
  rcases orElse_eq_done.mp h with h | ⟨hmiss, h⟩
  · exact orElse_of_done (hp.eq_done h)
  · rw [orElse_of_miss (hp.miss hmiss)]
    exact hq h

/-- A choice misses under the relaxed grammar if its second part, which may be another one there,
does. -/
theorem orElse_miss {q' : Parser α} (hp : Stable p g g') (hq : q g s = .miss → q' g' s = .miss)
    (h : (p <|> q) g s = .miss) : (p <|> q') g' s = .miss := by
  obtain ⟨hmiss, h⟩ := orElse_eq_miss.mp h
  rw [orElse_of_miss (hp.miss hmiss)]
  exact hq h

end Stable

theorem eat_stable (c : CodePoint) : Stable (eat c) g g' := (Pairing.relaxing_level g g').eat c

theorem eats_stable (c : CodePoint) : Stable (eats c) g g' := (Pairing.relaxing_level g g').eats c

theorem sees_stable (c : CodePoint) : Stable (sees 0 c) g g' := (Pairing.relaxing_level g g').sees c

/-- A test that does not look at the grammar is stable. -/
theorem satisfy_stable (test : CodePoint → Bool) : Stable (satisfy test) g g' :=
  (Pairing.relaxing_level g g').satisfy test

theorem characterSetFrom_stable (mark : Cursor) (v : CodePoint) :
    Stable (characterSetFrom mark v) g g' :=
  characterSetFrom_maps (Pairing.relaxingTrees g g') rfl v

section Relaxed

variable (h : g.RelaxesTo g')

include h

/-- A name is read alike, since relaxing does not change how names are read. -/
theorem groupName_stable : Stable groupName g g' :=
  groupName_pairs h.alike (congrArg (Edition.supports · .unicodeGroupNames) h.edition)
    fun _ hc => hc.elim

/-- Relaxing does not change what escapes for sets are. -/
theorem setEscape_stable (mark : Cursor) : Stable (setEscape mark) g g' :=
  setEscape_maps (Pairing.relaxingTrees g g') rfl h.sameProperties

/-- Relaxing does not change how Unicode escapes are read where the mode allows all of them. -/
theorem wideEscape_stable : Stable (unicodeEscape g.unicode) g g' :=
  wideEscape_pairs h.alike false

/-! ## Escaped characters

By code units the strict rules let a character stand for itself only if it can be in no name. Giving
them up adds characters, among them digits, which octal escapes now take; but those were at fault
before. -/

omit h in
/-- What a strict grammar lets stand for itself after a backslash is no octal digit, and neither of
the two letters that the grammar of the web may refuse there. -/
theorem ne_of_not_isIdentifierPart {c : CodePoint} (hc : c.isIdentifierPart = false) :
    c.digit? 8 = none ∧ c.isOneOf ['c', 'k'] = false := by
  have hneither : (c.isLatinLetter || c.isDecimalDigit) = false := by
    rw [Bool.eq_false_iff]
    intro h
    rw [CodePoint.isIdentifierPart_of_alphanumeric h] at hc
    cases hc
  obtain ⟨hletter, hdigit⟩ := Bool.or_eq_false_iff.mp hneither
  constructor
  · cases hd : c.digit? 8 with
    | none => rfl
    | some d =>
      rw [CodePoint.isDecimalDigit_of_octal hd] at hdigit
      cases hdigit
  · rw [Bool.eq_false_iff]
    intro hone
    rw [CodePoint.of_isOneOf CodePoint.isLatinLetter hone rfl] at hletter
    cases hletter

/-- What may stand for itself behind a backslash still may, and by the extensions it is no octal
digit. -/
theorem isIdentityEscape_relaxed {c : CodePoint} (hc : isIdentityEscape g c = true) :
    isIdentityEscape g' c = true ∧ (g.exact = true → g'.exact = false → c.digit? 8 = none) := by
  unfold isIdentityEscape at hc ⊢
  rw [h.unicode]
  -- by code points the rule stays; else it is the strict rule or that of the web
  cases hu : g.unicode with
  | true =>
    refine ⟨by simpa [hu] using hc, fun _ hg' => ?_⟩
    simp [Grammar.exact, h.unicode, hu] at hg'
  | false =>
    cases hs : g.strict with
    | true =>
      simp only [hu, hs, if_true, Bool.false_eq_true, if_false, Bool.not_eq_true'] at hc
      obtain ⟨hdigit, hone⟩ := ne_of_not_isIdentifierPart hc
      refine ⟨?_, fun _ _ => hdigit⟩
      simp only [CodePoint.isOneOf, List.any_cons, List.any_nil, Bool.or_false,
        Bool.or_eq_false_iff] at hone
      simp [hc, CodePoint.isOneOf, hone.1, hone.2]
    | false =>
      refine ⟨?_, fun hg => by simp [Grammar.exact, hu, hs] at hg⟩
      simp only [hu, hs, Bool.false_eq_true, if_false] at hc
      simp only [h.not_strict hs, Bool.false_eq_true, if_false]
      have hnames := h.names_of_names
      cases hN : g.namedReferences <;> cases hN' : g'.namedReferences <;>
        simp_all [CodePoint.isOneOf]

/-- An identity escape stays one, and no octal escape takes its place. -/
theorem identityEscape_relaxed {v : CodePoint} (hv : identityEscape g s = .done v t) :
    identityEscape g' s = .done v t ∧ s.cursor.current = some v ∧
      (g.exact = true → g'.exact = false → v.digit? 8 = none) := by
  rw [identityEscape, grammar_bind] at hv ⊢
  obtain ⟨hv, hr⟩ := satisfy_eq_done.mp hv
  obtain ⟨hv', hdigit⟩ := isIdentityEscape_relaxed h hv
  exact ⟨satisfy_eq_done.mpr ⟨hv', hr⟩, hr.current_eq, hdigit⟩

/-- A character that can be escaped by a grammar can be escaped, with the same value, by a relaxed
one. -/
theorem escapedValue_relaxed {v : CodePoint} (hv : escapedValue g s = .done v t) :
    escapedValue g' s = .done v t := by
  rw [escapedValue, grammar_bind] at hv ⊢
  rw [h.unicode]
  refine Stable.orElse_done controlEscape_pairs ?_ hv
  refine Stable.orElse_done controlLetter_pairs ?_
  refine Stable.orElse_done zeroEscape_pairs ?_
  refine Stable.orElse_done (hexEscape_pairs h.alike) ?_
  refine Stable.orElse_done (wideEscape_stable h) ?_
  intro hv
  rcases orElse_eq_done.mp hv with hv | ⟨hmiss, hv⟩
  · obtain ⟨hg, hv⟩ := require_bind_eq_done.mp hv
    rw [Bool.not_eq_true'] at hg
    exact orElse_of_done
      (require_bind_eq_done.mpr
        ⟨by rw [h.not_exact hg]; rfl, Stable.eq_done legacyOctal_pairs hv⟩)
  · obtain ⟨hidentity, hcurrent, hdigit⟩ := identityEscape_relaxed h hv
    refine orElse_eq_done.mpr (.inr ⟨?_, hidentity⟩)
    -- an octal escape of the grammar of the web would begin with a digit
    cases hg' : g'.exact with
    | true => exact require_bind_eq_miss.mpr (.inl rfl)
    | false =>
      refine require_bind_eq_miss.mpr (.inr ?_)
      cases hg : g.exact with
      | true =>
        apply bind_of_miss
        rw [digit, select_eq_miss, hcurrent]
        exact hdigit hg hg'
      | false =>
        rw [hg] at hmiss
        rcases require_bind_eq_miss.mp hmiss with hfalse | hmiss
        · cases hfalse
        · exact Stable.miss legacyOctal_pairs hmiss

/-- Where nothing strict is asked for, the letter `k` is the only one after a backslash that a
relaxed grammar can read and the grammar cannot. -/
theorem escapedValue_eq_miss (hg : g.strict = false) (hk : s.cursor.current ≠ some (.ofChar 'k'))
    (hv : escapedValue g s = .miss) : escapedValue g' s = .miss := by
  rw [escapedValue, grammar_bind] at hv ⊢
  rw [h.unicode, h.exact_eq hg]
  refine Stable.orElse_miss controlEscape_pairs ?_ hv
  refine Stable.orElse_miss controlLetter_pairs ?_
  refine Stable.orElse_miss zeroEscape_pairs ?_
  refine Stable.orElse_miss (hexEscape_pairs h.alike) ?_
  refine Stable.orElse_miss (wideEscape_stable h) ?_
  refine Stable.orElse_miss
    ((require_pairs _).bind fun _ => legacyOctal_pairs) ?_
  intro hv
  rw [identityEscape, grammar_bind, satisfy_eq_miss] at hv ⊢
  intro c hc
  have hne : c ≠ .ofChar 'k' := by
    rintro rfl
    exact hk hc
  have hfalse := hv c hc
  -- the two rules of the web differ in what they say about `k`
  unfold isIdentityEscape at hfalse ⊢
  rw [h.unicode, h.not_strict hg]
  rw [hg] at hfalse
  split
  · next hu => simpa [hu] using hfalse
  · next hu =>
    simp only [hu, Bool.false_eq_true, if_false, CodePoint.isOneOf, List.any_cons, List.any_nil,
      Bool.or_false, beq_eq_false_iff_ne.mpr hne.symm, ite_self] at hfalse ⊢
    exact hfalse

/-- By code points, the strict rules change nothing about escapes. -/
theorem escapedValue_pairs_relaxing (hu : g.unicode = true) :
    (Pairing.relaxing g g').Pairs Eq escapedValue escapedValue := by
  have hexact : g'.exact = g.exact := by simp [Grammar.exact, h.unicode, hu]
  have hidentity : isIdentityEscape g' = isIdentityEscape g := by
    funext c
    simp [isIdentityEscape, h.unicode, hu]
  refine escapedValue_pairs h.alike hexact (.grammar_bind ?_)
  show (Pairing.relaxing g g').Pairs Eq (satisfy (isIdentityEscape g))
    (satisfy (isIdentityEscape g'))
  rw [hidentity]
  exact (Pairing.relaxing_level g g').satisfy _

end Relaxed

end Parser

end EcmaPattern
