import EcmaPattern.Proofs.Progress
import EcmaPattern.Proofs.Relaxation

/-!
# Classes in relaxed grammars

A class that a grammar reads is the same under a relaxed grammar (`charClass_stable`). By the set
grammar, which is read by code points, each part is stable for itself. Outside it the atoms of a
class are not: a relaxed grammar can read an atom where the grammar reads none. But then the grammar
does not get as far as the closing bracket.

Key lemmas:

* `classAtom_relaxed` and `classRangeItems_relaxed`, which go from what is read to what is read;
* `classRanges_bind_stable`, where the closing bracket is used;
* `charClass_stable`, by induction on the levels that are left.
-/

namespace EcmaPattern

theorem Escape.ne_nil {g : Grammar} {cs : List CodePoint} {v : CodePoint} (h : Escape g cs v) :
    cs ≠ [] := by
  cases h with
  | unicode h => cases h <;> exact List.cons_ne_nil _ _
  | octal _ h hne _ =>
    rintro rfl
    exact hne (List.length_eq_zero_iff.mp h.length_eq.symm)
  | _ => exact List.cons_ne_nil _ _

/-- The letter `c` begins no escape but a control letter. -/
theorem Escape.control_letter {g : Grammar} {c v : CodePoint} {cs : List CodePoint}
    (h : Escape g (c :: cs) v) (hc : c = .ofChar 'c') : ∃ d, d.isLatinLetter ∧ cs = [d] := by
  cases h with
  | control h =>
    rw [hc, show Parser.controlValue? 'c' = none by decide] at h
    cases h
  | letter hd => exact ⟨_, hd, rfl⟩
  | zero => exact absurd hc (by decide)
  | hex => exact absurd hc (by decide)
  | unicode h => cases h <;> exact absurd hc (by decide)
  | octal _ h _ _ =>
    have hdigit := h.isSome_of_mem List.mem_cons_self
    rw [hc] at hdigit
    exact absurd hdigit (by decide)
  | identity h =>
    have hpart : CodePoint.isIdentifierPart 'c' :=
      CodePoint.isIdentifierPart_of_alphanumeric (by decide)
    rw [hc] at h
    unfold Parser.isIdentityEscape at h
    split at h
    · exact absurd h (by decide)
    · split at h
      · simp [hpart] at h
      · split at h <;> exact absurd h (by decide)

namespace Parser

variable {g g' : Grammar} {s t u : State}

/-- A letter that begins no escape for a set is missed. -/
theorem setEscape_eq_miss {mark : Cursor} {c : CodePoint} (hc : s.cursor.current = some c)
    (hset : escapeSet? c = none) (hproperty : propertyLetter? c = none) :
    setEscape mark g s = .miss := by
  rw [setEscape, orElse_of_miss (bind_of_miss (by rw [select_eq_miss, hc]; exact hset))]
  rw [propertyEscape, grammar_bind, require_bind_eq_miss]
  refine .inr ?_
  rw [supports_bind, require_bind_eq_miss]
  exact .inr (bind_of_miss (by rw [select_eq_miss, hc]; exact hproperty))

section Relaxed

variable (h : g.RelaxesTo g')

include h

/-- A character escape is read as it was. -/
theorem characterEscape_relaxed {mark : Cursor} {c : Character}
    (hc : characterEscape mark g s = .done c t) : characterEscape mark g' s = .done c t := by
  obtain ⟨v, u, hv, hc⟩ := bind_eq_done.mp hc
  rw [characterEscape, bind_of_done (escapedValue_relaxed h hv)]
  exact hc

/-- If the grammar is not strict, what is no character escape stays none, but for an escaped `k`. -/
theorem characterEscape_eq_miss {mark : Cursor} (hg : g.strict = false)
    (hk : s.cursor.current ≠ some (.ofChar 'k')) (hc : characterEscape mark g s = .miss) :
    characterEscape mark g' s = .miss := by
  rcases bind_eq_miss.mp hc with hc | ⟨v, u, -, hc⟩
  · exact bind_of_miss (escapedValue_eq_miss h hg hk hc)
  · cases hc

/-! ## Atoms

What an atom is read as does not change. What is no atom may become one, and `classEscape_eq_miss`
says when it does not. -/

omit h in
theorem classControlLetter_eq_miss (hc : s.cursor.current ≠ some (.ofChar 'c')) :
    classControlLetter g s = .miss := by
  rw [classControlLetter, grammar_bind, require_bind_eq_miss]
  exact .inr (bind_of_miss (eat_eq_miss.mpr hc))

/-- What a backslash means only in classes, it still means. -/
theorem classEscapedValue_relaxed {v : CodePoint} (hv : classEscapedValue g s = .done v t) :
    classEscapedValue g' s = .done v t := by
  refine Stable.orElse_done ((eat_stable _).bind fun _ => .pure rfl) ?_ hv
  refine Stable.orElse_done (.grammar_bind
    (h.unicode ▸ (require_pairs _).bind fun _ => (eat_stable _).bind fun _ => .pure rfl)) ?_
  intro hv
  rw [classControlLetter, grammar_bind, require_bind_eq_done] at hv ⊢
  obtain ⟨hg, hv⟩ := hv
  rw [Bool.not_eq_true'] at hg ⊢
  exact ⟨h.not_exact hg, hv⟩

/-- Where nothing is read as an escape of classes only, a relaxed grammar reads at most a control
letter. -/
theorem classEscapedValue_eq_miss (hletter : classControlLetter g' s = .miss)
    (hv : classEscapedValue g s = .miss) : classEscapedValue g' s = .miss := by
  refine Stable.orElse_miss ((eat_stable _).bind fun _ => .pure rfl) ?_ hv
  refine Stable.orElse_miss (.grammar_bind
    (h.unicode ▸ (require_pairs _).bind fun _ => (eat_stable _).bind fun _ => .pure rfl)) ?_
  exact fun _ => hletter

/-- An escape in a class is read as it was. -/
theorem classEscape_relaxed {mark : Cursor} {x : CharSet} (hx : classEscape mark g s = .done x t) :
    classEscape mark g' s = .done x t := by
  rcases orElse_eq_done.mp hx with hx | ⟨hmiss, hx⟩
  · obtain ⟨v, u, hv, hx⟩ := bind_eq_done.mp hx
    refine orElse_of_done ?_
    rw [bind_of_done (classEscapedValue_relaxed h hv)]
    exact (characterSetFrom_stable mark v).eq_done hx
  -- the relaxed grammar has one more escape to offer before: a control letter that is a digit
  have hletter : classControlLetter g' s = .miss := by
    by_cases hc : s.cursor.current = some (.ofChar 'c')
    · -- a letter follows, and no digit
      rw [orElse_of_miss (setEscape_eq_miss hc (by decide) (by decide))] at hx
      obtain ⟨⟨span, v⟩, hchar, -⟩ := map_eq_done.mp hx
      obtain ⟨cs, hr, hcs, -⟩ := characterEscape_eq_done hchar
      cases cs with
      | nil => exact absurd rfl hcs.ne_nil
      | cons c cs =>
        obtain ⟨w, hfirst, hrest⟩ := State.reads_cons.mp hr
        obtain ⟨hcur, rfl⟩ := State.reads_singleton.mp hfirst
        obtain rfl : c = .ofChar 'c' := by simpa [hc] using hcur.symm
        obtain ⟨d, hd, rfl⟩ := hcs.control_letter rfl
        rw [classControlLetter, grammar_bind, require_bind_eq_miss]
        refine .inr ?_
        rw [bind_of_done (eat_eq_done (x := ()).mpr hfirst)]
        apply bind_of_miss
        rw [satisfy_eq_miss, hrest.current_eq]
        rintro _ ⟨⟩
        exact CodePoint.not_digit_of_isLatinLetter hd
    · exact classControlLetter_eq_miss hc
  have hfirst : classEscapedValue g' s = .miss := by
    rcases bind_eq_miss.mp hmiss with hmiss | ⟨v, u, -, hv⟩
    · exact classEscapedValue_eq_miss h hletter hmiss
    · cases hv
  rw [classEscape, orElse_of_miss (bind_of_miss hfirst)]
  refine Stable.orElse_done (setEscape_stable h mark) ?_ hx
  intro hx
  obtain ⟨c, hc, rfl⟩ := map_eq_done.mp hx
  exact map_eq_done.mpr ⟨c, characterEscape_relaxed h hc, rfl⟩

/-- At the letter `c`, unless the grammar is strict, a relaxed grammar reads no escape either. -/
theorem classEscape_eq_miss {mark : Cursor} (hg : g.strict = false)
    (hc : s.cursor.current = some (.ofChar 'c')) (hx : classEscape mark g s = .miss) :
    classEscape mark g' s = .miss := by
  have hletter : Stable classControlLetter g g' := classControlLetter_pairs (h.exact_eq hg)
  obtain ⟨hvalue, hx⟩ := orElse_eq_miss.mp hx
  obtain ⟨-, hx⟩ := orElse_eq_miss.mp hx
  have hfirst : classEscapedValue g' s = .miss := by
    rcases bind_eq_miss.mp hvalue with hvalue | ⟨v, u, -, hv⟩
    · obtain ⟨-, hlast⟩ := orElse_eq_miss.mp hvalue
      exact classEscapedValue_eq_miss h (hletter.miss (orElse_eq_miss.mp hlast).2) hvalue
    · cases hv
  rw [classEscape, orElse_of_miss (bind_of_miss hfirst),
    orElse_of_miss (setEscape_eq_miss hc (by decide) (by decide)), map_eq_miss]
  exact characterEscape_eq_miss h hg (by rw [hc]; decide) (map_eq_miss.mp hx)

/-- An atom of a class is read as it was. -/
theorem classAtom_relaxed {x : CharSet} (hx : classAtom g s = .done x t) :
    classAtom g' s = .done x t := by
  rw [classAtom, here_bind] at hx ⊢
  refine Stable.orElse_done
    ((satisfy_stable _).bind fun _ => characterSetFrom_stable _ _) ?_ hx
  intro hx
  obtain ⟨u, hslash, hx⟩ := eat_bind_eq_done.mp hx
  refine eat_bind_eq_done.mpr ⟨u, hslash, ?_⟩
  rcases orElse_eq_done.mp hx with hx | ⟨hmiss, hx⟩
  · exact orElse_of_done (classEscape_relaxed h hx)
  rcases orElse_eq_done.mp hx with hx | ⟨-, hx⟩
  · -- a backslash by itself stands before the letter `c`, where nothing is escaped under either
    rw [classBackslash, grammar_bind, require_bind_eq_done, sees_bind, require_bind_eq_done,
      Cursor.peek_zero] at hx
    obtain ⟨hg, hc, hx⟩ := hx
    rw [Bool.not_eq_true'] at hg
    rw [orElse_of_miss (classEscape_eq_miss h hg (eq_of_beq hc) hmiss)]
    apply orElse_of_done
    rw [classBackslash, grammar_bind, require_bind_eq_done, sees_bind, require_bind_eq_done,
      Cursor.peek_zero]
    exact ⟨by rw [h.not_strict hg]; rfl, hc, (characterSetFrom_stable _ _).eq_done hx⟩
  · rw [grammar_bind, require_bind_eq_done] at hx
    exact absurd hx.2 fail_ne_done

/-! ## Ranges

Items are followed from left to right. At the bracket neither grammar has an item, so the repetition
ends there in both. -/

theorem classRange_stable (mark : Cursor) (low dash high : CharSet) :
    Stable (classRange mark low dash high) g g' :=
  Pairing.Maps.of_map_id
    (classRange_maps (Pairing.relaxingTrees g g') rfl h.alike low dash high)

/-- An item of a class is the same under a relaxed grammar, unless that one reads an atom after it
where the grammar reads none. -/
theorem classRangeItem_relaxed {xs : List CharSet} (hx : classRangeItem g s = .done xs t)
    (hnext : classAtom g t = .miss → classAtom g' t = .miss) :
    classRangeItem g' s = .done xs t := by
  rw [classRangeItem, here_bind] at hx ⊢
  obtain ⟨low, u₁, hlow, hx⟩ := bind_eq_done.mp hx
  rw [bind_of_done (classAtom_relaxed h hlow)]
  rw [here_bind] at hx ⊢
  obtain ⟨dash, u₂, hdash, hx⟩ := bind_eq_done.mp hx
  rw [bind_of_done ((eats_stable _).eq_done hdash)]
  cases dash with
  | false => exact hx
  | true =>
    obtain ⟨y, u₃, hy, hx⟩ := bind_eq_done.mp hx
    rw [if_pos rfl, bind_of_done ((characterSetFrom_stable _ _).eq_done hy)]
    obtain ⟨o, u₄, ho, hx⟩ := bind_eq_done.mp hx
    rcases attempt_eq_done.mp ho with ⟨high, rfl, hhigh⟩ | ⟨rfl, hmiss, rfl⟩
    · rw [bind_of_done (attempt_of_done (classAtom_relaxed h hhigh))]
      exact (classRange_stable h _ _ _ _).eq_done hx
    · obtain ⟨rfl, rfl⟩ := pure_eq_done.mp hx
      rw [bind_of_done (attempt_of_miss (hnext hmiss))]
      rfl

omit h in
theorem classAtom_eq_miss (hclose : s.cursor.current = some (.ofChar ']')) :
    classAtom g s = .miss := by
  rw [classAtom, here_bind, orElse_eq_miss]
  constructor
  · apply bind_of_miss
    rw [satisfy_eq_miss, hclose]
    rintro _ ⟨⟩
    decide
  · exact bind_of_miss (eat_eq_miss.mpr (by rw [hclose]; decide))

/-- The items of a class are read as they were, up to the bracket that closes it. -/
theorem classRangeItems_relaxed {items : List (List CharSet)}
    (hitems : Chain (fun s xs t => classRangeItem g s = .done xs t) s items t)
    (hclose : t.cursor.current = some (.ofChar ']')) :
    Chain (fun s xs t => classRangeItem g' s = .done xs t) s items t := by
  induction hitems with
  | nil s => exact .nil s
  | @cons s u t xs items head tail ih =>
    refine .cons (classRangeItem_relaxed h head fun hmiss => ?_) (ih hclose)
    -- after the item there is the bracket or, since another item begins there, an atom
    cases tail with
    | nil => exact classAtom_eq_miss hclose
    | cons next _ =>
      rw [classRangeItem, here_bind, bind_of_miss hmiss] at next
      cases next

/-- Up to the closing bracket, the contents of a class are the same. -/
theorem classRanges_relaxed {xs : List CharSet} (hx : classRanges g s = .done xs t)
    (hclose : t.cursor.current = some (.ofChar ']')) : classRanges g' s = .done xs t := by
  obtain ⟨items, hitems, rfl⟩ := map_eq_done.mp hx
  have hchain := classRangeItems_relaxed h (chain_of_many hitems) hclose
  refine map_eq_done.mpr ⟨items, (many_eq_done progresses_classRangeItem).mpr ⟨hchain, ?_⟩, rfl⟩
  rw [classRangeItem, here_bind, bind_of_miss (classAtom_eq_miss hclose)]

/-! ## Classes

The parser of a class is stable as a whole although that of its contents is not, since a class that
is not closed is a fault and faults need not be followed. -/

/-- What follows the contents is stable, since it checks and builds the same tree. -/
theorem endOfClass_stable (mark : Cursor) (nested negated : Bool) (xs : List CharSet) :
    Stable (endOfClass mark nested negated xs) g g' := by
  have hend : (Pairing.relaxing g g').Maps id (endOfClass mark nested negated xs)
      (endOfClass mark nested negated (xs.map id)) :=
    (endOfClass_goes (Pairing.relaxingTrees g g') (Pairing.relaxing_level g g').losing h.sets rfl
      (.inl rfl) negated xs).pairs
  rw [List.map_id] at hend
  exact hend

/-- Contents of a class and all that follows them, from the closing bracket on. -/
theorem classRanges_bind_stable (mark : Cursor) (nested negated : Bool) :
    Stable (classRanges >>= endOfClass mark nested negated) g g' := by
  apply Stable.of_outcomes
  · intro s x t hx
    obtain ⟨xs, u, hxs, hx⟩ := bind_eq_done.mp hx
    obtain ⟨_, v, hclose, -⟩ := bind_eq_done.mp hx
    have hbracket := (State.reads_singleton.mp (closeClass_eq_done.mp hclose)).1
    rw [bind_of_done (classRanges_relaxed h hxs hbracket)]
    exact (endOfClass_stable h mark nested negated xs).eq_done hx
  · intro s hx
    rcases bind_eq_miss.mp hx with hx | ⟨xs, u, -, hx⟩
    · exact absurd (map_eq_miss.mp hx) (neverMisses_many _ _ _)
    · exact absurd hx (neverMisses_endOfClass _ _)

/-- A class is stable if the classes inside it are, although its contents alone are not: a relaxed
grammar may read on where the first one stops, but not past the closing bracket. -/
theorem classBody_stable (hsets : g.sets = true → g.unicode = true) {inner : Parser CharSet}
    (hinner : Stable inner g g') (hprogress : ∀ g, Progresses inner g) (nested : Bool) :
    Stable (classBody inner nested) g g' := by
  rw [Stable, classBody_eq]
  refine .here_bind fun mark mark' hmark => (eat_stable _).bind fun _ =>
    (eats_stable _).bind fun negated => .grammar_bind ?_
  obtain rfl : mark' = mark := hmark
  show (Pairing.relaxing g g').Pairs Eq
    ((if g.sets then classSetContents inner else classRanges) >>= endOfClass mark' nested negated)
    ((if g'.sets then classSetContents inner else classRanges) >>= endOfClass mark' nested negated)
  rw [h.sets]
  -- the contents are stable by the set grammar only; else the bracket after them is needed
  cases hg : g.sets with
  | true =>
    have hcontents := classSetContents_maps (Pairing.relaxingTrees g g')
      (Pairing.relaxing_level g g') (escapedValue_pairs_relaxing h (hsets hg)) h.sameProperties
      hinner hprogress
    exact (Pairing.Maps.of_map_id hcontents).bind fun xs => endOfClass_stable h _ nested negated xs
  | false => exact classRanges_bind_stable h _ nested negated

/-- Unless it is at fault, a class is the same under a relaxed grammar. -/
theorem charClass_stable (hsets : g.sets = true → g.unicode = true) (depth : Nat) (nested : Bool) :
    Stable (charClass depth nested) g g' := by
  induction depth generalizing nested with
  | zero => exact .here_bind fun mark mark' hmark => (eat_stable _).bind fun _ => .failAt rfl hmark
  | succ depth ih =>
    exact classBody_stable h hsets (ih true) (progresses_charClass depth true) nested

end Relaxed

end Parser

end EcmaPattern
