import EcmaPattern.Proofs.Forms
import EcmaPattern.Proofs.SetGrammar.Patterns

/-!
# Forms without groups are read

Where patterns are read by code points, the parsers of characters, set escapes, references, classes
and repetitions are done with the spelling of a form, and what they give is its tree. The signs that
end a spelling stand in it, except after a reference, whose digits go on as long as they can, and
after a repetition, which may be followed by a question mark; so only these look at what comes next.
-/

namespace EcmaPattern

open EcmaPattern.Parser
open EcmaPattern.Form

namespace Parser

variable {g : Grammar} {s t u v : State} {cls : Parser CharSet} {inside : Nested}

/-! ## Numbers

A numeral is read up to the first character that is not a digit. -/

/-- A sign that is no digit ends a number. -/
theorem digit?_of_reads {base : Nat} {k : CodePoint} {cs : List CodePoint} (h : s.Reads (k :: cs) t)
    (hk : k.digit? base = none) : s.cursor.current.bind (CodePoint.digit? base) = none := by
  rw [h.current_eq]
  exact hk

/-- A numeral that no digit follows is read as its number, or found to be too long. -/
theorem number_of_numeral {m : Nat} (hr : s.Reads (numeral 10 m) t)
    (hend : t.cursor.current.bind (CodePoint.digit? 10) = none) :
    ((numeral 10 m).length ≤ 4300 → number 10 g s = .done m t) ∧
      (4300 < (numeral 10 m).length → (number 10 g s).Overflows) := by
  obtain ⟨d, ds, hds, hvalue, -⟩ := digits_numeral (by decide : 1 < 10) (by decide) m
  have hnumber := number_of_digits (g := g) hds (List.cons_ne_nil d ds) hr hend
  rw [hds.length_eq]
  refine ⟨fun hfew => ?_, fun hmany => ?_⟩
  · have hnot : tooMany 10 (d :: ds) = false := decide_eq_false (Nat.not_lt.mpr hfew)
    rw [hnumber, hnot, hvalue, if_neg Bool.false_ne_true]
  · exact number_overflows_of_digits hds hmany hr hend

/-! ## Repetitions

Every way in which a count may be written, and the question mark behind it. -/

/-- What is left of bounds behind the comma. -/
theorem bracedBounds_of_least {n : Nat} (hopen : s.Reads ['{'] t)
    (hleast : number 10 g t = .done n u)
    (hcomma : u.Reads [','] v) : bracedBounds false g s = (do
      let greatest ← attempt (number 10)
      eat '}' <|> incompleteBounds false
      if outOfOrder (n, greatest) then fail .quantifierOutOfOrder
      else return (n, greatest) : Parser Bounds) g v := by
  rw [bracedBounds, bind_of_done (eat_eq_done (x := ()).mpr hopen),
    bind_of_done (orElse_of_done hleast), bind_of_done (eats_eq_done.mpr (.inl ⟨rfl, hcomma⟩)),
    if_pos rfl]
  rfl

/-- Bounds are read, unless one of them is too long. -/
theorem bracedBounds_of_count (r : Count) (hr : s.Reads r.spellBounds t) :
    (Convertible (r.min :: r.max.toList) → bracedBounds false g s = .done (r.min, r.max) t) ∧
      (¬Convertible (r.min :: r.max.toList) → (bracedBounds false g s).Overflows) := by
  obtain ⟨a, hopen, hr⟩ := State.reads_cons.mp hr
  obtain ⟨b, hmin, hr⟩ := State.reads_append.mp hr
  obtain ⟨c, hcomma, hr⟩ := State.reads_cons.mp hr
  obtain ⟨d, hmax, hclose⟩ := State.reads_append.mp hr
  obtain ⟨hleast, hlong⟩ := number_of_numeral (g := g) hmin (digit?_of_reads hcomma (by decide))
  rw [Convertible, List.forall_mem_cons]
  rcases Nat.lt_or_ge 4300 (numeral 10 r.min).length with hmany | hfew
  · refine ⟨fun h => absurd hmany (Nat.not_lt.mpr h.1), fun _ => ?_⟩
    exact bracedBounds_overflows false hopen (hlong hmany)
  have hbounds := bracedBounds_of_least hopen (hleast hfew) hcomma
  -- what is left to read once the greatest count is known
  have hdone : ∀ {greatest : Option Nat}, attempt (number 10) g c = .done greatest d →
      outOfOrder (r.min, greatest) = false →
      bracedBounds false g s = .done (r.min, greatest) t := by
    intro greatest hgreatest hordered
    rw [hbounds, bind_of_done hgreatest,
      bind_of_done (orElse_of_done (eat_eq_done (x := ()).mpr hclose)), hordered]
    rfl
  have hordered := r.ordered
  cases hm : r.max with
  | none =>
    rw [hm] at hmax hordered
    obtain rfl : c = d := hmax.eq_of_nil
    have hmiss : number 10 g c = .miss := number_eq_miss.mpr (digit?_of_reads hclose (by decide))
    refine ⟨fun _ => hdone (attempt_of_miss hmiss) hordered, fun h => absurd ⟨hfew, nofun⟩ h⟩
  | some m =>
    rw [hm] at hmax hordered
    obtain ⟨hgreatest, hlong⟩ :=
      number_of_numeral (g := g) hmax (digit?_of_reads hclose (by decide))
    refine ⟨fun h => ?_, fun h => ?_⟩
    · exact hdone (attempt_of_done (hgreatest (h.2 m List.mem_cons_self))) hordered
    · have hmany : 4300 < (numeral 10 m).length := by
        refine Nat.lt_of_not_le fun hle => h ⟨hfew, ?_⟩
        rintro _ (_ | ⟨_, ⟨⟩⟩)
        exact hle
      rw [hbounds]
      exact Overflows.bind (Overflows.attempt (hlong hmany))

/-- The bounds of a repetition are read as they are written, unless one of them is too long. -/
theorem quantifier_of_count (r : Count) (hr : s.Reads r.spell t)
    (ht : t.cursor.current ≠ some (.ofChar '?')) :
    (Convertible (r.min :: r.max.toList) →
      quantifier false g s = .done ⟨r.min, r.max, r.greedy⟩ t) ∧
    (¬Convertible (r.min :: r.max.toList) → (quantifier false g s).Overflows) := by
  obtain ⟨v, hbounds, hlazy⟩ : ∃ v, s.Reads r.spellBounds v ∧
      eats '?' g v = .done (!r.greedy) t := by
    rw [Count.spell] at hr
    cases hgreedy : r.greedy with
    | true =>
      rw [hgreedy, if_pos rfl] at hr
      exact ⟨t, hr, eats_of_ne ht⟩
    | false =>
      rw [hgreedy, if_neg Bool.false_ne_true] at hr
      obtain ⟨v, hr, hlazy⟩ := State.reads_append.mp hr
      exact ⟨v, hr, eats_eq_done.mpr (.inl ⟨rfl, hlazy⟩)⟩
  have hbraces : quantifierBounds false g s = bracedBounds false g s :=
    quantifierBounds_of_brace hbounds.current_eq
  obtain ⟨hdone, hlong⟩ := bracedBounds_of_count (g := g) r hbounds
  refine ⟨fun h => ?_, fun h => ?_⟩
  · refine bind_eq_done.mpr ⟨_, v, hbraces.trans (hdone h), bind_eq_done.mpr ⟨_, t, hlazy, ?_⟩⟩
    rw [Bool.not_not]
    rfl
  · exact quantifier_overflows hbounds.current_eq (hlong h)

/-! ## Escapes

What a backslash and a letter is read as is decided by the letter. None of the alternatives before
the right one reads it. -/

theorem escapeSet?_escapeLetter (set : EscapeSet) (negated : Bool) :
    escapeSet? (escapeLetter set negated) = some (set, negated) := by
  cases set <;> cases negated <;> rfl

/-- The letter of a set is read as that set. -/
theorem setEscape_of_letter {mark : Cursor} {set : EscapeSet} {negated : Bool}
    (hr : s.Reads [escapeLetter set negated] t) :
    setEscape mark g s = .done (.escape (.between mark t.cursor) set negated) t := by
  have hselect : select escapeSet? g s = .done (set, negated) t :=
    select_eq_done.mpr ⟨_, escapeSet?_escapeLetter set negated, hr⟩
  exact orElse_of_done (bind_of_done hselect)

theorem numberedReference_of_letter {mark : Cursor} {k : CodePoint}
    (hc : s.cursor.current = some k) (hk : k.digit? 10 = none) :
    numberedReference mark g s = .miss := by
  rw [numberedReference, sees_bind, require_bind_eq_miss]
  refine .inr (bind_of_miss (number_eq_miss.mpr ?_))
  rw [hc]
  exact hk

/-- A numeral begins with a zero only if its number is zero. -/
theorem peek_ne_zero_of_numeral {m : Nat} (hpos : m ≠ 0) (hr : s.Reads (numeral 10 m) t) :
    (s.cursor.peek 0 == some (.ofChar '0')) = false := by
  obtain ⟨d, ds, hds, -, hd⟩ := digits_numeral (by decide : 1 < 10) (by decide) m
  rw [Cursor.peek_zero, beq_eq_false_iff_ne]
  intro hc
  cases hcs : numeral 10 m with
  | nil =>
    rw [hcs] at hds
    cases hds
  | cons k cs =>
    rw [hcs] at hds hr
    obtain ⟨hk, -⟩ := List.cons.inj hds
    rw [hr.current_eq] at hc
    cases hc
    rw [show (CodePoint.ofChar '0').digit? 10 = some 0 by decide] at hk
    exact hd hpos (Option.some.inj hk).symm

/-- A number after a backslash that no further digit follows is a reference if there are as many
groups, unless it is too long. -/
theorem numberedReference_of_numeral {mark : Cursor} {m : Nat} (hpos : m ≠ 0)
    (hm : m ≤ g.captures) (hr : s.Reads (numeral 10 m) t)
    (hend : t.cursor.current.bind (CodePoint.digit? 10) = none) :
    ((numeral 10 m).length ≤ 4300 →
      numberedReference mark g s = .done (.reference (.between mark t.cursor) (.number m)) t) ∧
    (4300 < (numeral 10 m).length → (numberedReference mark g s).Overflows) := by
  have hreference : numberedReference mark g s = (do
      let n ← number 10
      let g ← grammar
      if n ≤ g.captures then return .reference (← spanFrom mark) (.number n)
      else if g.exact then fail .invalidEscape
      else miss : Parser Term) g s := by
    rw [numberedReference, sees_bind, peek_ne_zero_of_numeral hpos hr]
    rfl
  obtain ⟨hdone, hlong⟩ := number_of_numeral (g := g) hr hend
  rw [hreference]
  refine ⟨fun hfew => ?_, fun hmany => Overflows.bind (hlong hmany)⟩
  rw [bind_of_done (hdone hfew), grammar_bind, if_pos hm]
  rfl

section Unicode

variable (hu : g.unicode = true)

include hu

/-- A code point between braces is read as the character. -/
theorem characterEscape_of_braces {mark : Cursor} {w : CodePoint}
    (hr : s.Reads (.ofChar 'u' :: .ofChar '{' :: (numeral 16 w.val ++ [.ofChar '}'])) t) :
    characterEscape mark g s = .done ⟨.between mark t.cursor, w⟩ t := by
  obtain ⟨d, ds, hds, hvalue, -⟩ := digits_numeral (by decide : 1 < 16) (by decide) w.val
  have hw : CodePoint.ofInt? (ofDigits 16 (d :: ds)) = some w := by
    rw [hvalue, CodePoint.ofInt?, dif_pos ⟨by omega, by omega⟩]
    rfl
  have hescape : SetGrammar.CharacterEscape s.cursor w t.cursor :=
    .braced hr.cursor hds (List.cons_ne_nil d ds) hw
  exact bind_eq_done.mpr ⟨w, t, escapedValue_of_characterEscape hu hr.moves hescape, rfl⟩

/-! ## Escaped atoms

The lemmas on escapes, one level up: each of them as an atom. -/

omit hu in
theorem escapedAtom_of_slash {e : Term} (hslash : s.Reads ['\\'] u)
    (h : atomEscape s.cursor g u = .done e t) : escapedAtom g s = .done e t := by
  rw [escapedAtom, here_bind, bind_of_done (eat_eq_done (x := ()).mpr hslash), h]

/-- The spelling of a character is read as the character. -/
theorem escapedAtom_of_character {w : CodePoint} (hr : s.Reads (spellCharacter w) t) :
    escapedAtom g s = .done (.set (.character ⟨.between s.cursor t.cursor, w⟩)) t := by
  obtain ⟨u, hslash, hr⟩ := State.reads_cons.mp hr
  have hc := hr.current_eq
  refine escapedAtom_of_slash hslash ?_
  rw [atomEscape, orElse_of_miss (numberedReference_of_letter hc (by decide)),
    orElse_of_miss (map_eq_miss.mpr (setEscape_eq_miss hc (by decide) (by decide)))]
  exact orElse_of_done (map_eq_done.mpr ⟨_, characterEscape_of_braces hu hr, rfl⟩)

omit hu in
theorem escapedAtom_of_letter {set : EscapeSet} {negated : Bool}
    (hr : s.Reads ['\\', escapeLetter set negated] t) :
    escapedAtom g s = .done (.set (.escape (.between s.cursor t.cursor) set negated)) t := by
  obtain ⟨u, hslash, hr⟩ := State.reads_cons.mp hr
  have hdigit : (escapeLetter set negated).digit? 10 = none := by
    cases set <;> cases negated <;> decide
  refine escapedAtom_of_slash hslash ?_
  rw [atomEscape, orElse_of_miss (numberedReference_of_letter
    hr.current_eq hdigit)]
  exact orElse_of_done (map_eq_done.mpr ⟨_, setEscape_of_letter hr, rfl⟩)

omit hu in
/-- A numeral that is not above the number of groups is read as a reference, unless it is too long.
-/
theorem escapedAtom_of_reference {m : Nat} (hpos : m ≠ 0) (hm : m ≤ g.captures)
    (hr : s.Reads (.ofChar '\\' :: numeral 10 m) t)
    (hend : t.cursor.current.bind (CodePoint.digit? 10) = none) :
    ((numeral 10 m).length ≤ 4300 →
      escapedAtom g s = .done (.reference (.between s.cursor t.cursor) (.number m)) t) ∧
    (4300 < (numeral 10 m).length → (escapedAtom g s).Overflows) := by
  obtain ⟨u, hslash, hr⟩ := State.reads_cons.mp hr
  refine ⟨fun hfew => escapedAtom_of_slash hslash (orElse_of_done ?_), fun hmany => ?_⟩
  · exact (numberedReference_of_numeral hpos hm hr hend).1 hfew
  · have hescape : (atomEscape s.cursor g u).Overflows :=
      Overflows.orElse ((numberedReference_of_numeral hpos hm hr hend).2 hmany)
    rwa [escapedAtom, here_bind, bind_of_done (eat_eq_done (x := ()).mpr hslash)]

/-! ## Classes

Parts of a class are read one by one up to the bracket. A part is followed by a part or the bracket,
and neither begins with a hyphen, so no range arises that is not in the form. -/

omit hu in
theorem classAtom_of_slash {x : CharSet} (hslash : s.Reads ['\\'] u)
    (h : classEscape s.cursor g u = .done x t) : classAtom g s = .done x t := by
  have hplain : satisfy (fun c => !c.isOneOf ['\\', ']']) g s = .miss := by
    rw [satisfy_eq_miss, hslash.current_eq]
    rintro _ ⟨⟩
    decide
  rw [classAtom, here_bind, orElse_of_miss (bind_of_miss hplain),
    bind_of_done (eat_eq_done (x := ()).mpr hslash)]
  exact orElse_of_done h

theorem classEscapedValue_of_letter {k : CodePoint} (hc : s.cursor.current = some k)
    (hk : k.isOneOf ['b', '-'] = false) : classEscapedValue g s = .miss := by
  have hother : ∀ l, s.cursor.current = some l → l.isOneOf ['b', '-'] = false := by
    rw [hc]
    rintro _ ⟨⟩
    exact hk
  have hexact : (!g.exact) = false := by rw [Grammar.exact, hu, Bool.or_true, Bool.not_true]
  have hdash : (do require (← grammar).unicode; eat '-'; return '-' : Parser CodePoint) g s =
      .miss := by
    rw [grammar_bind]
    refine require_bind_eq_miss.mpr (.inr (bind_of_miss (eat_eq_miss.mpr ?_)))
    exact State.current_ne hother rfl
  rw [classEscapedValue, orElse_of_miss (bind_of_miss (eat_eq_miss.mpr
    (State.current_ne hother rfl))), orElse_of_miss hdash, classControlLetter, grammar_bind, hexact]
  exact require_bind_eq_miss.mpr (.inl rfl)

/-- The spelling of a character is read as the character, also in a class. -/
theorem classAtom_of_character {w : CodePoint} (hr : s.Reads (spellCharacter w) t) :
    classAtom g s = .done (.character ⟨.between s.cursor t.cursor, w⟩) t := by
  obtain ⟨u, hslash, hr⟩ := State.reads_cons.mp hr
  have hc := hr.current_eq
  refine classAtom_of_slash hslash ?_
  rw [classEscape, orElse_of_miss (bind_of_miss (classEscapedValue_of_letter hu hc (by decide))),
    orElse_of_miss (setEscape_eq_miss hc (by decide) (by decide))]
  exact map_eq_done.mpr ⟨_, characterEscape_of_braces hu hr, rfl⟩

theorem classAtom_of_letter {set : EscapeSet} {negated : Bool}
    (hr : s.Reads ['\\', escapeLetter set negated] t) :
    classAtom g s = .done (.escape (.between s.cursor t.cursor) set negated) t := by
  obtain ⟨u, hslash, hr⟩ := State.reads_cons.mp hr
  have hletter : (escapeLetter set negated).isOneOf ['b', '-'] = false := by
    cases set <;> cases negated <;> decide
  refine classAtom_of_slash hslash ?_
  rw [classEscape, orElse_of_miss (bind_of_miss (classEscapedValue_of_letter hu
    hr.current_eq hletter))]
  exact orElse_of_done (setEscape_of_letter hr)

omit hu in
/-- An atom of a class is an item by itself unless a hyphen follows. -/
theorem classRangeItem_of_atom {x : CharSet} (h : classAtom g s = .done x t)
    (ht : t.cursor.current ≠ some (.ofChar '-')) : classRangeItem g s = .done [x] t := by
  rw [classRangeItem, here_bind, bind_of_done h, here_bind, bind_of_done (eats_of_ne ht)]
  rfl

/-- Two characters in order and a hyphen between them are read as a range. -/
theorem classRangeItem_of_range {low high : CodePoint} (hle : low ≤ high)
    (hlow : s.Reads (spellCharacter low) u) (hdash : u.Reads ['-'] v)
    (hhigh : v.Reads (spellCharacter high) t) :
    classRangeItem g s = .done [.range (.between s.cursor t.cursor)
      ⟨.between s.cursor u.cursor, low⟩ ⟨.between v.cursor t.cursor, high⟩] t := by
  rw [classRangeItem, here_bind, bind_of_done (classAtom_of_character hu hlow), here_bind,
    bind_of_done (eats_eq_done.mpr (.inl ⟨rfl, hdash⟩)), if_pos rfl]
  refine bind_eq_done.mpr ⟨_, v, characterSetFrom_eq_done.mpr ⟨rfl, rfl⟩, ?_⟩
  refine bind_eq_done.mpr ⟨_, t, attempt_of_done (classAtom_of_character hu hhigh), ?_⟩
  unfold classRange
  dsimp only [CharSet.character?]
  rw [if_neg (Fin.not_lt.mpr hle)]
  rfl

/-- A part of a class is one item, and never a string. -/
theorem classRangeItem_of_part (x : Part) (hr : s.Reads x.spell t)
    (ht : t.cursor.current ≠ some (.ofChar '-')) :
    ∃ y, classRangeItem g s = .done [y] t ∧ y.bare = x.tree ∧ y.mayContainStrings = false := by
  cases x with
  | character w =>
    exact ⟨_, classRangeItem_of_atom (classAtom_of_character hu hr) ht, by rw [CharSet.bare]; rfl,
      by rw [CharSet.mayContainStrings]⟩
  | escape set negated =>
    exact ⟨_, classRangeItem_of_atom (classAtom_of_letter hu hr) ht, by rw [CharSet.bare]; rfl,
      by rw [CharSet.mayContainStrings]⟩
  | range low high ordered =>
    obtain ⟨a, hlow, hr⟩ := State.reads_append.mp hr
    obtain ⟨b, hdash, hhigh⟩ := State.reads_cons.mp hr
    exact ⟨_, classRangeItem_of_range hu ordered hlow hdash hhigh, by rw [CharSet.bare]; rfl,
      by rw [CharSet.mayContainStrings]⟩

omit hu in
/-- What lies ahead in a class is a part of it or the closing bracket. -/
theorem current_of_parts {xs : List Part} (hr : s.Reads (xs.flatMap Part.spell) t)
    (ht : t.cursor.current = some (.ofChar ']')) :
    ∃ k, s.cursor.current = some k ∧ k.isOneOf ['\\', ']'] = true := by
  cases xs with
  | nil =>
    obtain rfl := hr.eq_of_nil
    exact ⟨_, ht, rfl⟩
  | cons x xs =>
    obtain ⟨cs, hx⟩ := x.spell_begins
    rw [List.flatMap_cons, hx] at hr
    exact ⟨_, hr.current_eq, rfl⟩

omit hu in
/-- Parts of a class begin with a backslash, if there are any before the bracket. -/
theorem current_ne_of_parts {xs : List Part} (hr : s.Reads (xs.flatMap Part.spell) t)
    (ht : t.cursor.current = some (.ofChar ']')) {k : CodePoint}
    (hk : k.isOneOf ['\\', ']'] = false) : s.cursor.current ≠ some k := by
  obtain ⟨l, hl, hmem⟩ := current_of_parts hr ht
  intro hc
  obtain rfl := Option.some.inj (hc.symm.trans hl)
  rw [hk] at hmem
  cases hmem

/-- Parts of a class are read one by one, up to the bracket. -/
theorem chain_of_parts (xs : List Part) (hr : s.Reads (xs.flatMap Part.spell) t)
    (ht : t.cursor.current = some (.ofChar ']')) :
    ∃ ys : List CharSet,
      Chain (fun s xs t => classRangeItem g s = .done xs t) s (ys.map fun y => [y]) t ∧
      ys.map CharSet.bare = xs.map Part.tree ∧ ys.any CharSet.mayContainStrings = false := by
  induction xs generalizing s with
  | nil =>
    obtain rfl := hr.eq_of_nil
    exact ⟨[], .nil s, rfl, rfl⟩
  | cons x xs ih =>
    obtain ⟨u, hx, hr⟩ := State.reads_append.mp hr
    obtain ⟨y, hy, hbare, hstrings⟩ :=
      classRangeItem_of_part hu x hx (current_ne_of_parts hr ht rfl)
    obtain ⟨ys, hys, hbares, hany⟩ := ih hr
    refine ⟨y :: ys, .cons hy hys, ?_, ?_⟩
    · rw [List.map_cons, List.map_cons, hbare, hbares]
    · rw [List.any_cons, hstrings, hany, Bool.or_false]

/-- Parts of a class are read as its contents. -/
theorem classRanges_of_parts (xs : List Part) (hr : s.Reads (xs.flatMap Part.spell) t)
    (ht : t.cursor.current = some (.ofChar ']')) :
    ∃ ys, classRanges g s = .done ys t ∧ ys.map CharSet.bare = xs.map Part.tree ∧
      ys.any CharSet.mayContainStrings = false := by
  obtain ⟨ys, hys, hbare, hstrings⟩ := chain_of_parts hu xs hr ht
  have hmiss : classRangeItem g t = .miss := by
    rw [classRangeItem, here_bind, bind_of_miss (classAtom_eq_miss ht)]
  have hmany : many classRangeItem g s = .done (ys.map fun y => [y]) t :=
    (many_eq_done progresses_classRangeItem).mpr ⟨hys, hmiss⟩
  refine ⟨ys, map_eq_done.mpr ⟨_, hmany, ?_⟩, hbare, hstrings⟩
  rw [← List.flatMap_def, List.flatMap_singleton']

omit hu in
theorem classOf_of_ranges (hsets : g.sets = false) {mark : Cursor} {negated : Bool}
    {ys : List CharSet} :
    classOf mark negated ys g s = .done (.listing (.between mark s.cursor) negated false ys) s := by
  rw [classOf, grammar_bind, spanFrom_bind, hsets]
  split <;> rfl

/-- A class takes one level. -/
theorem charClass_of_parts (hsets : g.sets = false) (depth : Nat) {negated : Bool} (xs : List Part)
    (hr : s.Reads (classText negated ++ xs.flatMap Part.spell ++ [.ofChar ']']) t) :
    ∃ x, charClass (depth + 1) false g s = .done x t ∧
      x.bare = .listing .blank negated false (xs.map Part.tree) := by
  obtain ⟨b, hr, hclose⟩ := State.reads_append.mp hr
  obtain ⟨a, hopen, hparts⟩ := State.reads_append.mp hr
  have hb := hclose.current_eq
  obtain ⟨ys, hys, hbare, hstrings⟩ := classRanges_of_parts hu xs hparts hb
  obtain ⟨c, hbracket, hcaret⟩ : ∃ c, s.Reads ['['] c ∧ eats '^' g c = .done negated a := by
    cases negated with
    | true =>
      obtain ⟨c, hbracket, hcaret⟩ := State.reads_cons.mp hopen
      exact ⟨c, hbracket, eats_eq_done.mpr (.inl ⟨rfl, hcaret⟩)⟩
    | false => exact ⟨a, hopen, eats_of_ne (current_ne_of_parts hparts hb rfl)⟩
  refine ⟨.listing (.between s.cursor t.cursor) negated false ys, ?_, ?_⟩
  · rw [charClass, classBody, here_bind, bind_of_done (eat_eq_done (x := ()).mpr hbracket),
      bind_of_done hcaret, grammar_bind, hsets, if_neg Bool.false_ne_true]
    refine bind_eq_done.mpr ⟨ys, b, hys, ?_⟩
    refine bind_eq_done.mpr ⟨(), t, closeClass_eq_done.mpr hclose, ?_⟩
    rw [hstrings, Bool.and_false, if_neg Bool.false_ne_true]
    exact classOf_of_ranges hsets
  · rw [CharSet.bare, CharSet.bareAll_eq, hbare]

end Unicode

end Parser

end EcmaPattern
