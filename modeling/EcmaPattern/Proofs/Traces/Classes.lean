import EcmaPattern.Proofs.Traces

/-!
# Traces of classes

Every node below a class was given by a parser of its own (`charClass_traced`). Outside the set
grammar the contents are atoms, hyphens and ranges; by the set grammar they are operands and what is
made of them.
-/

namespace EcmaPattern

open EcmaPattern.Parser

variable {g : Grammar} {s t u : State}

theorem Grammar.classPlace_ranges (hg : g.sets = false) : g.classPlace = .ranges := by
  rw [classPlace, if_neg (by simp [hg])]

theorem Grammar.classPlace_sets (hg : g.sets = true) : g.classPlace = .sets := by
  rw [classPlace, if_pos hg]

/-- An escape for a set has no children. -/
theorem ReadsSetEscape.children_eq {x : CharSet} (h : ReadsSetEscape g s x t) :
    (Node.charSet x).children = [] := by
  cases h with
  | mk h _ => cases h <;> rfl

/-! ## Atoms and ranges

A range is given by two atoms. Each of them is a node of its own below it. -/

theorem classEscapedValue_reads {p : Place} {c : CodePoint} (hp : p ≠ .term)
    (hslash : s.Reads ['\\'] u) (h : classEscapedValue g u = .done c t) : ReadsValue g p s c t := by
  rcases orElse_eq_done.mp h with h | ⟨-, h⟩
  · obtain ⟨v, hr, h⟩ := eat_bind_eq_done.mp h
    obtain ⟨rfl, rfl⟩ := pure_eq_done.mp h
    exact .backspace hp (hslash.trans hr)
  rcases orElse_eq_done.mp h with h | ⟨-, h⟩
  · rw [grammar_bind, require_bind_eq_done] at h
    obtain ⟨v, hr, h⟩ := eat_bind_eq_done.mp h.2
    obtain ⟨rfl, rfl⟩ := pure_eq_done.mp h
    exact .hyphen (hslash.trans hr)
  · rw [classControlLetter, grammar_bind, require_bind_eq_done] at h
    obtain ⟨v, hr, h⟩ := eat_bind_eq_done.mp h.2
    obtain ⟨d, w, hd, h⟩ := bind_eq_done.mp h
    obtain ⟨rfl, rfl⟩ := pure_eq_done.mp h
    exact .letter (hslash.trans (hr.trans (satisfy_eq_done.mp hd).2))

/-- An escape that is looked at after those of classes is no `\b`. -/
theorem current_ne_of_classEscapedValue (h : classEscapedValue g u = .miss) :
    u.cursor.current ≠ some (.ofChar 'b') := by
  obtain ⟨h, -⟩ := orElse_eq_miss.mp h
  rcases eat_bind_eq_miss.mp h with hne | ⟨_, _, h⟩
  · exact hne
  · cases h

/-- An atom of a class is a character or an escape for a set. -/
theorem classAtom_reads {x : CharSet} (h : classAtom g s = .done x t) :
    (∃ c, x = .character ⟨.between s.cursor t.cursor, c⟩ ∧ ReadsValue g .ranges s c t) ∨
      ReadsSetEscape g s x t := by
  rw [classAtom, here_bind] at h
  rcases orElse_eq_done.mp h with h | ⟨-, h⟩
  · obtain ⟨c, u, hc, h⟩ := bind_eq_done.mp h
    obtain ⟨hallow, hr⟩ := satisfy_eq_done.mp hc
    obtain ⟨rfl, rfl⟩ := characterSetFrom_eq_done.mp h
    exact .inl ⟨c, rfl, .plain hallow hr⟩
  obtain ⟨u, hslash, h⟩ := eat_bind_eq_done.mp h
  rcases orElse_eq_done.mp h with h | ⟨-, h⟩
  · rcases orElse_eq_done.mp h with h | ⟨hmiss, h⟩
    · obtain ⟨c, w, hc, h⟩ := bind_eq_done.mp h
      obtain ⟨rfl, rfl⟩ := characterSetFrom_eq_done.mp h
      exact .inl ⟨c, rfl, classEscapedValue_reads (by decide) hslash hc⟩
    rcases orElse_eq_done.mp h with h | ⟨-, h⟩
    · obtain ⟨cs, make, hr, hcs, rfl⟩ := setEscape_eq_done h
      exact .inr (.mk hcs (hslash.trans hr))
    · obtain ⟨c, hc, rfl⟩ := map_eq_done.mp h
      rw [characterEscape, bind_eq_done] at hc
      obtain ⟨v, w, hv, hc⟩ := hc
      obtain ⟨rfl, rfl⟩ := characterFrom_eq_done.mp hc
      -- that the escapes of classes missed is part of what is known of the character
      have hmiss : classEscapedValue g u = .miss := by
        rcases bind_eq_miss.mp hmiss with hmiss | ⟨_, _, -, hmiss⟩
        · exact hmiss
        · cases hmiss
      exact .inl ⟨v, rfl, .escaped hslash (fun _ => current_ne_of_classEscapedValue hmiss) hv⟩
  rcases orElse_eq_done.mp h with h | ⟨-, h⟩
  · rw [classBackslash, grammar_bind, require_bind_eq_done, sees_bind, require_bind_eq_done] at h
    obtain ⟨rfl, rfl⟩ := characterSetFrom_eq_done.mp h.2.2
    exact .inl ⟨_, rfl, .backslash hslash⟩
  · rw [grammar_bind, require_bind_eq_done] at h
    exact absurd h.2 fail_ne_done

section Ranges

variable (hg : g.sets = false)

include hg

theorem classAtom_traced {x : CharSet} (h : classAtom g s = .done x t) :
    Traced g s (.charSet x) t := by
  have hreaches := (classAtom_derives hg h).reaches
  rcases classAtom_reads h with ⟨c, rfl, hc⟩ | hx
  · rw [← Grammar.classPlace_ranges hg] at hc
    exact .leaf (.character hc) rfl hreaches
  · exact .leaf (.setEscape hx) hx.children_eq hreaches

/-- An item of a class leaves a trace, also where it is three atoms and no range. -/
theorem classRangeItem_traced {xs : List CharSet} (h : classRangeItem g s = .done xs t) :
    TracedAll g s (xs.map .charSet) t := by
  rw [classRangeItem, here_bind] at h
  obtain ⟨low, u₁, hlow, h⟩ := bind_eq_done.mp h
  have hlow := classAtom_traced hg hlow
  rw [here_bind] at h
  obtain ⟨dash, u₂, hdash, h⟩ := bind_eq_done.mp h
  rcases (eats_eq_done.mp hdash).symm with ⟨rfl, -, rfl⟩ | ⟨rfl, hd⟩
  · obtain ⟨rfl, rfl⟩ := pure_eq_done.mp h
    exact .single hlow
  obtain ⟨x, u₃, hx, h⟩ := bind_eq_done.mp h
  obtain ⟨rfl, rfl⟩ := characterSetFrom_eq_done.mp hx
  have hdashed : Traced g u₁ (.charSet (.character ⟨.between u₁.cursor u₂.cursor, '-'⟩)) u₂ := by
    refine .leaf (.character (.plain ?_ hd)) rfl hd.cursor.reaches
    rw [Grammar.classPlace_ranges hg]
    show (!CodePoint.isOneOf ['\\', ']'] '-') = true
    decide
  obtain ⟨o, u₄, ho, h⟩ := bind_eq_done.mp h
  rcases (attempt_eq_done.mp ho).symm with ⟨rfl, -, rfl⟩ | ⟨high, rfl, hhigh⟩
  · obtain ⟨rfl, rfl⟩ := pure_eq_done.mp h
    exact .cons hlow (.single hdashed)
  have hhigh := classAtom_traced hg hhigh
  obtain ⟨rfl, hxs⟩ := classRange_eq_done h
  rcases hxs with ⟨c, d, rfl, rfl, -, rfl⟩ | rfl
  · refine .single (.of_children .range ?_)
    rw [Node.children_range]
    exact .cons hlow (.single (hhigh.within hd.cursor.reaches (.refl _)))
  · exact .cons hlow (.cons hdashed (.single hhigh))

/-- The contents of a class leave a trace. -/
theorem classRanges_traced {xs : List CharSet} (h : classRanges g s = .done xs t) :
    TracedAll g s (xs.map .charSet) t := by
  obtain ⟨items, hitems, rfl⟩ := map_eq_done.mp h
  rw [List.map_flatten, ← List.flatMap_def]
  exact .of_chain (fun _ _ _ => classRangeItem_traced hg) (chain_of_many hitems)

end Ranges

/-! ## The set grammar

Operands, and the operations that they are put together with. -/

/-- A character of the set grammar has a value that its text stands for. -/
theorem classSetCharacter_reads {c : Character} (h : classSetCharacter g s = .done c t) :
    ∃ v, c = ⟨.between s.cursor t.cursor, v⟩ ∧ ReadsValue g .sets s v t := by
  rw [classSetCharacter, here_bind] at h
  rcases orElse_eq_done.mp h with h | ⟨-, h⟩
  · obtain ⟨v, u, hv, h⟩ := bind_eq_done.mp h
    obtain ⟨rfl, rfl⟩ := characterFrom_eq_done.mp h
    obtain ⟨htest, hr⟩ := satisfy_eq_done (g := g).mp hv
    exact ⟨v, rfl, .plain ((Bool.and_eq_true _ _).mp htest).2 hr⟩
  obtain ⟨u, hslash, h⟩ := eat_bind_eq_done.mp h
  rcases orElse_eq_done.mp h with h | ⟨-, h⟩
  · rw [characterEscape, bind_eq_done] at h
    obtain ⟨v, w, hv, h⟩ := h
    obtain ⟨rfl, rfl⟩ := characterFrom_eq_done.mp h
    exact ⟨v, rfl, .escaped hslash (fun hne => absurd rfl hne) hv⟩
  rcases orElse_eq_done.mp h with h | ⟨-, h⟩
  · obtain ⟨v, w, hv, h⟩ := bind_eq_done.mp h
    obtain ⟨rfl, rfl⟩ := characterFrom_eq_done.mp h
    obtain ⟨hp, hr⟩ := satisfy_eq_done.mp hv
    exact ⟨v, rfl, .punctuator hp (hslash.trans hr)⟩
  · obtain ⟨w, hr, h⟩ := eat_bind_eq_done.mp h
    obtain ⟨rfl, rfl⟩ := characterFrom_eq_done.mp h
    exact ⟨_, rfl, .backspace (by decide) (hslash.trans hr)⟩

section Sets

variable {inner : Parser CharSet} {x : CharSet} {xs : List CharSet} (hg : g.sets = true)

include hg

theorem classSetCharacter_traced {c : Character} (h : classSetCharacter g s = .done c t) :
    Traced g s (.charSet (.character c)) t := by
  obtain ⟨v, rfl, hv⟩ := classSetCharacter_reads h
  rw [← Grammar.classPlace_sets hg] at hv
  exact .leaf (.character hv) rfl hv.reaches

theorem classSetRange_traced {c : Character} (hc : classSetCharacter g s = .done c t)
    (h : classSetRange c s.cursor g t = .done x u) : Traced g s (.charSet x) u := by
  obtain ⟨d, v, hdash, hd, -, rfl⟩ := classSetRange_eq_done h
  have hc := classSetCharacter_traced hg hc
  have hd := (classSetCharacter_traced hg hd).within hdash.cursor.reaches (.refl _)
  refine .of_children .range ?_
  rw [Node.children_range]
  exact .cons hc (.single hd)

theorem classString_traced {x : ClassString} (h : classString g s = .done x t) :
    Traced g s (.classString x) t := by
  rw [classString, here_bind] at h
  obtain ⟨cs, u, hcs, h⟩ := bind_eq_done.mp h
  rw [spanFrom_bind] at h
  obtain ⟨rfl, rfl⟩ := pure_eq_done.mp h
  refine .of_children (.string hg) ?_
  rw [Node.children_classString]
  exact .of_chain_single (fun _ _ _ => classSetCharacter_traced hg) (chain_of_many hcs)

/-- Quoted strings leave a trace. -/
theorem classStrings_traced (h : classStrings g s = .done x t) : Traced g s (.charSet x) t := by
  obtain ⟨y, ys, u, v, w, hopen, hy, hys, hclose, rfl⟩ := classStrings_eq_done h
  refine .of_children (.strings hg) ?_
  rw [Node.children_strings]
  refine (TracedAll.cons (classString_traced hg hy) ?_).within hopen.cursor.reaches
    hclose.cursor.reaches
  refine .of_chain_single (fun s x t hx => ?_) hys
  obtain ⟨r, hbar, hx⟩ := eat_bind_eq_done.mp hx
  exact (classString_traced hg hx).within hbar.cursor.reaches (.refl _)

variable (hinner : ∀ s x t, inner g s = .done x t → Traced g s (.charSet x) t)

include hinner

theorem classSetOperand_traced (h : classSetOperand inner g s = .done x t) :
    Traced g s (.charSet x) t := by
  rcases orElse_eq_done.mp h with h | ⟨-, h⟩
  · exact hinner s x t h
  rcases orElse_eq_done.mp h with h | ⟨-, h⟩
  · have hx := escapedSet_eq_done h
    exact .leaf (.setEscape hx) hx.children_eq hx.reaches
  rcases orElse_eq_done.mp h with h | ⟨-, h⟩
  · exact classStrings_traced hg h
  · obtain ⟨c, hc, rfl⟩ := map_eq_done.mp h
    exact classSetCharacter_traced hg hc

/-- To leave a trace is a relation of the kind that reaches from elements to contents. -/
theorem elementsRelated_traced :
    ElementsRelated inner g (fun s x t => Traced g s (.charSet x) t)
      fun s xs t => TracedAll g s (xs.map .charSet) t where
  character h := classSetCharacter_traced hg h
  range hc h := classSetRange_traced hg hc h
  operand h := classSetOperand_traced hg hinner h
  operation hx hsign hy := by
    refine .of_children (.operation hg) ?_
    rw [Node.children_operation]
    exact .cons hx (.single (hy.within hsign.cursor.reaches (.refl _)))
  nil s := .nil (.refl _)
  cons hx hxs := .cons hx hxs

/-- The contents of a class of the set grammar leave a trace, if the classes inside do. -/
theorem classSetContents_traced (h : classSetContents inner g s = .done xs t) :
    TracedAll g s (xs.map .charSet) t :=
  (elementsRelated_traced hg hinner).of_classSetContents h

end Sets

/-! ## Classes

By induction on the levels, for both grammars. -/

/-- What is below a class is traced. -/
theorem charClass_traced {depth : Nat} {nested : Bool} {y : CharSet}
    (h : charClass depth nested g s = .done y t) : TracedAll g s (Node.charSet y).children t := by
  induction depth generalizing nested s t y with
  | zero => exact absurd h charClass_zero_ne_done
  | succ depth ih =>
    have hinner : g.sets = true → ∀ s x t, charClass depth true g s = .done x t →
        Traced g s (.charSet x) t :=
      fun hg s x t hx => .of_children (.nested hg (charClass_derives hx)) (ih hx)
    rw [charClass, classBody_eq, here_bind, eat_bind_eq_done] at h
    obtain ⟨u, hbracket, h⟩ := h
    obtain ⟨negated, v, hcaret, h⟩ := bind_eq_done.mp h
    have hopening : s.cursor.Reaches v.cursor := by
      rcases eats_eq_done.mp hcaret with ⟨-, hr⟩ | ⟨-, -, rfl⟩
      · exact (hbracket.trans hr).cursor.reaches
      · exact hbracket.cursor.reaches
    rw [grammar_bind] at h
    obtain ⟨xs, w, hxs, h⟩ := bind_eq_done.mp h
    obtain ⟨hclosing, hchildren⟩ := endOfClass_children h
    have hcontents : TracedAll g v (xs.map .charSet) w := by
      cases hg : g.sets with
      | true =>
        rw [hg] at hxs
        exact classSetContents_traced hg (hinner hg) hxs
      | false =>
        rw [hg] at hxs
        exact classRanges_traced hg hxs
    rw [hchildren]
    exact hcontents.within hopening hclosing

end EcmaPattern
