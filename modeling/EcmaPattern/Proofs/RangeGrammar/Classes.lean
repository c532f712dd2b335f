import Mathlib.Logic.ExistsUnique
import EcmaPattern.Proofs.Agreement.Classes
import EcmaPattern.Proofs.Forms.Atoms
import EcmaPattern.Proofs.RangeGrammar
import EcmaPattern.Proofs.ResolvedReferences
import EcmaPattern.Proofs.Traces.Classes

/-!
# Classes by the grammar of class ranges

A class outside the set grammar is read just if its contents are atoms up to the closing bracket and
the items that the grammar derives from them are allowed; its elements are those that the items
stand for (`class_contents_follow_grammar`). One step of the reader takes one item, or two when a
hyphen is the last atom of all (`ReadsItems`).

Key lemmas:

* `classAtoms_unique`, that a text is a sequence of atoms in one way;
* `classRangeItem_eq_done_iff`, one step of the reader in both directions;
* `classRanges_eq_done_iff`, by induction on the chain of steps.
-/

namespace EcmaPattern

open EcmaPattern.Parser

variable {g : Grammar} {s t u v : State} {a b low high : ClassAtom} {as : List ClassAtom}
  {x : CharSet} {xs : List CharSet}

/-! ## Atoms

What the parser of atoms gives is what the grammar calls an atom, and conversely. -/

namespace Parser

/-- A backslash stands for itself just where a `c` follows and the grammar is not strict. -/
theorem classBackslash_eq_done {mark : Cursor} :
    classBackslash mark g s = .done x t ↔ g.strict = false ∧
      s.cursor.current = some (.ofChar 'c') ∧
      x = .character ⟨.between mark t.cursor, '\\'⟩ ∧ s = t := by
  rw [classBackslash, grammar_bind, require_bind_eq_done, sees_bind, require_bind_eq_done,
    Cursor.peek_zero, characterSetFrom_eq_done, Bool.not_eq_true', beq_iff_eq]

/-- What is read as an atom is one. -/
theorem readsClassAtom_of_done (h : classAtom g s = .done x t) :
    ∃ a, ReadsClassAtom g s a t ∧ a.toSet = x := by
  rw [classAtom_eq, here_bind] at h
  rcases orElse_eq_done.mp h with h | ⟨-, h⟩
  · obtain ⟨c, u, hc, h⟩ := bind_eq_done.mp h
    obtain ⟨hallow, hr⟩ := satisfy_eq_done.mp hc
    obtain ⟨rfl, rfl⟩ := characterSetFrom_eq_done.mp h
    by_cases hdash : c = .ofChar '-'
    · obtain rfl := hdash
      exact ⟨_, .hyphen hr, rfl⟩
    · exact ⟨_, .plain (by simpa using hallow) hdash hr, rfl⟩
  · obtain ⟨u, hslash, h⟩ := eat_bind_eq_done.mp h
    rcases orElse_eq_done.mp h with h | ⟨hnone, h⟩
    · exact ⟨_, .escape hslash h, rfl⟩
    rcases orElse_eq_done.mp h with h | ⟨-, h⟩
    · obtain ⟨hstrict, hc, rfl, rfl⟩ := classBackslash_eq_done.mp h
      exact ⟨_, .backslash hslash hnone hstrict hc, rfl⟩
    · rw [grammar_bind, require_bind_eq_done] at h
      exact absurd h.2 fail_ne_done

/-- A character that may stand for itself is an atom at once. -/
theorem classAtom_of_plain {c : CodePoint} (hc : c.isOneOf ['\\', ']'] = false)
    (hr : s.Reads [c] t) :
    classAtom g s = .done (.character ⟨.between s.cursor t.cursor, c⟩) t := by
  have hread : satisfy (fun c => !c.isOneOf ['\\', ']']) g s = .done c t :=
    satisfy_eq_done.mpr ⟨by rw [hc]; rfl, hr⟩
  rw [classAtom_eq, here_bind]
  exact orElse_of_done (bind_eq_done.mpr ⟨c, t, hread, characterSetFrom_eq_done.mpr ⟨rfl, rfl⟩⟩)

/-- A backslash that begins no escape is an atom if it may stand for itself. -/
theorem classAtom_of_backslash (hslash : s.Reads ['\\'] t)
    (hnone : classEscape s.cursor g t = .miss) (hstrict : g.strict = false)
    (hc : t.cursor.current = some (.ofChar 'c')) :
    classAtom g s = .done (.character ⟨.between s.cursor t.cursor, '\\'⟩) t := by
  have hplain : satisfy (fun c => !c.isOneOf ['\\', ']']) g s = .miss := by
    rw [satisfy_eq_miss, hslash.current_eq]
    rintro _ ⟨⟩
    decide
  rw [classAtom_eq, here_bind, orElse_of_miss (bind_of_miss hplain), escapedClassAtom,
    bind_of_done (eat_eq_done (x := ()).mpr hslash), orElse_of_miss hnone]
  exact orElse_of_done (classBackslash_eq_done.mpr ⟨hstrict, hc, rfl, rfl⟩)

end Parser

namespace ReadsSetEscape

theorem span_eq (h : ReadsSetEscape g s x t) : x.span = .between s.cursor t.cursor := by
  cases h with
  | mk hspelling _ => exact hspelling.span_eq _

theorem isEscapedSet (h : ReadsSetEscape g s x t) : x.isEscapedSet = true := by
  cases h with
  | mk hspelling _ => cases hspelling <;> rfl

/-- Only the set grammar has properties of strings. -/
theorem mayContainStrings (hg : g.sets = false) (h : ReadsSetEscape g s x t) :
    x.mayContainStrings = false := by
  cases h with
  | mk hspelling _ =>
    cases hspelling with
    | letter _ => rw [CharSet.mayContainStrings]
    | @property _ _ p negated _ _ _ _ hp _ =>
      rw [CharSet.mayContainStrings]
      rcases hp with ⟨name, value, hp⟩ | ⟨name, hp⟩
      · rw [Property.ofPair?] at hp
        grind
      · rw [hg, Property.ofName?] at hp
        grind

end ReadsSetEscape

namespace ReadsClassAtom

/-- An atom of the grammar is read as an atom. -/
theorem classAtom_eq (h : ReadsClassAtom g s a t) : classAtom g s = .done a.toSet t := by
  cases h with
  | hyphen hr => exact classAtom_of_plain (by decide) hr
  | plain hc _ hr => exact classAtom_of_plain hc hr
  | escape hslash hx => exact classAtom_of_slash hslash hx
  | backslash hslash hnone hstrict hc => exact classAtom_of_backslash hslash hnone hstrict hc

/-- An atom is a hyphen if one lies ahead; an escaped one does not count. -/
theorem isHyphen_iff (h : ReadsClassAtom g s a t) :
    a.isHyphen = true ↔ s.cursor.current = some (.ofChar '-') := by
  cases h with
  | hyphen hr => exact iff_of_true rfl hr.current_eq
  | plain _ hdash hr =>
    refine iff_of_false Bool.false_ne_true fun hc => hdash ?_
    exact Option.some.inj (hr.current_eq.symm.trans hc)
  | escape hslash | backslash hslash =>
    refine iff_of_false Bool.false_ne_true ?_
    rw [hslash.current_eq]
    decide

/-- Where a hyphen is next, it is the atom. -/
theorem eq_hyphen (h : ReadsClassAtom g s a t) (hc : s.cursor.current = some (.ofChar '-')) :
    ∃ dash, a = .hyphen dash := by
  have hhyphen := h.isHyphen_iff.mpr hc
  cases a with
  | hyphen dash => exact ⟨dash, rfl⟩
  | other x => cases hhyphen

/-- Two atoms that are read at one place are the same. -/
theorem unique (h : ReadsClassAtom g s a t) (h' : ReadsClassAtom g s b u) : a = b ∧ t = u := by
  have heq := h.classAtom_eq.symm.trans h'.classAtom_eq
  obtain ⟨hset, rfl⟩ := Outcome.done.inj heq
  have hhyphen : a.isHyphen = b.isHyphen := by
    rw [Bool.eq_iff_iff, h.isHyphen_iff, h'.isHyphen_iff]
  cases a <;> cases b <;> simp_all [ClassAtom.toSet, ClassAtom.isHyphen]

theorem reaches (h : ReadsClassAtom g s a t) : s.cursor.Reaches t.cursor := by
  rcases classAtom_eq_done h.classAtom_eq with ⟨c, -, hr⟩ | ⟨-, hr⟩
  · exact hr.reaches
  · exact hr.reaches

theorem span_eq (h : ReadsClassAtom g s a t) : a.toSet.span = .between s.cursor t.cursor := by
  rcases classAtom_reads h.classAtom_eq with ⟨c, hc, -⟩ | hr
  · rw [hc]
    rfl
  · exact hr.span_eq

/-- An atom is a character or an escape that stands for a set. -/
theorem character_or_isEscapedSet (h : ReadsClassAtom g s a t) :
    (∃ c, a.toSet = .character c) ∨ a.toSet.isEscapedSet = true := by
  rcases classAtom_reads h.classAtom_eq with ⟨c, hc, -⟩ | hr
  · exact .inl ⟨_, hc⟩
  · exact .inr hr.isEscapedSet

/-- Outside the set grammar, no atom stands for strings. -/
theorem mayContainStrings (hg : g.sets = false) (h : ReadsClassAtom g s a t) :
    a.toSet.mayContainStrings = false := by
  rcases classAtom_reads h.classAtom_eq with ⟨c, hc, -⟩ | hr
  · rw [hc, CharSet.mayContainStrings]
  · exact hr.mayContainStrings hg

end ReadsClassAtom

/-- Atoms outside the set grammar contain no strings. -/
theorem mayContainStrings_of_chain (hg : g.sets = false)
    (h : Chain (ReadsClassAtom g) s as t) : ∀ a ∈ as, a.toSet.mayContainStrings = false := by
  induction h with
  | nil s => exact nofun
  | cons head _ ih => exact List.forall_mem_cons.mpr ⟨head.mayContainStrings hg, ih⟩

/-- Up to a closing bracket there is one sequence of atoms. -/
theorem classAtoms_unique {bs : List ClassAtom} (h : Chain (ReadsClassAtom g) s as t)
    (h' : Chain (ReadsClassAtom g) s bs u) (ht : t.cursor.current = some (.ofChar ']'))
    (hu : u.cursor.current = some (.ofChar ']')) : as = bs ∧ t = u := by
  have hclosed : ∀ {s t : State} {a : ClassAtom}, s.cursor.current = some (.ofChar ']') →
      ¬ ReadsClassAtom g s a t := by
    intro s t a hs ha
    have hatom := ha.classAtom_eq
    rw [classAtom_eq_miss hs] at hatom
    cases hatom
  induction h generalizing bs with
  | nil s =>
    cases h' with
    | nil => exact ⟨rfl, rfl⟩
    | cons head _ => exact absurd head (hclosed ht)
  | cons head _ ih =>
    cases h' with
    | nil => exact absurd head (hclosed hu)
    | cons head' tail' =>
      obtain ⟨rfl, rfl⟩ := head.unique head'
      obtain ⟨rfl, rfl⟩ := ih tail' ht
      exact ⟨rfl, rfl⟩

/-! ## Items

The reader looks for a hyphen behind an atom and for an atom behind the hyphen. If the bracket
follows the hyphen, both are items by themselves. -/

/-- Adjacent parts make up the part from the first place to the last. -/
theorem Span.between_append {c d e : Cursor} (h : c.Reaches d) (h' : d.Reaches e) :
    (Span.between c d).append (.between d e) = .between c e := by
  obtain ⟨cs, h⟩ := h
  obtain ⟨ds, h'⟩ := h'
  rw [append, between, between, between, h.textTo, h'.textTo, (h.trans h').textTo,
    Text.ofCodePoints, Text.ofCodePoints, Text.ofCodePoints, List.flatMap_append]

/-- What one step of the reader takes: an atom that no hyphen follows, an atom and a hyphen with
nothing behind it, or a range. -/
inductive ReadsItems (g : Grammar) (s : State) : List ClassAtom → List RangeItem → State → Prop
  | single {t : State} {a : ClassAtom} (ha : ReadsClassAtom g s a t)
      (hnext : t.cursor.current ≠ some (.ofChar '-')) : ReadsItems g s [a] [.single a] t
  | trailing {u t : State} {a : ClassAtom} {dash : Span} (ha : ReadsClassAtom g s a u)
      (hdash : ReadsClassAtom g u (.hyphen dash) t) (hnone : classAtom g t = .miss) :
      ReadsItems g s [a, .hyphen dash] [.single a, .single (.hyphen dash)] t
  | range {u v t : State} {low high : ClassAtom} {dash : Span} (hlow : ReadsClassAtom g s low u)
      (hdash : ReadsClassAtom g u (.hyphen dash) v) (hhigh : ReadsClassAtom g v high t) :
      ReadsItems g s [low, .hyphen dash, high] [.range low dash high] t

namespace Parser

/-- Two characters are read as a range if they are in order, and else they are a fault. -/
theorem classRange_of_characters {mark : Cursor} {dash : CharSet} {c d : Character}
    (hlow : low.toSet = .character c) (hhigh : high.toSet = .character d) :
    classRange mark low.toSet dash high.toSet g s =
      if c.value > d.value then .fault ⟨.rangeOutOfOrder, s.cursor.index⟩
      else .done [.range (.between mark s.cursor) c d] s := by
  rw [classRange, hlow, hhigh]
  dsimp only [CharSet.character?]
  split <;> rfl

/-- A set at the end of a range makes it three atoms, or a fault. -/
theorem classRange_of_set {mark : Cursor} {dash : CharSet}
    (h : low.toSet.isEscapedSet = true ∨ high.toSet.isEscapedSet = true) :
    classRange mark low.toSet dash high.toSet g s =
      if g.exact then .fault ⟨.invalidCharacterClass, s.cursor.index⟩
      else .done [low.toSet, dash, high.toSet] s := by
  have hnone : ∀ x : CharSet, x.isEscapedSet = true → x.character? = none := by
    intro x hx
    cases x <;> first | rfl | cases hx
  have hweb : classRange mark low.toSet dash high.toSet = (do
      if (← grammar).exact then fail .invalidCharacterClass
      else return [low.toSet, dash, high.toSet]) := by
    rw [classRange]
    rcases h with h | h
    · simp only [hnone _ h]
    · cases low.toSet.character? <;> simp only [hnone _ h]
  rw [hweb, grammar_bind]
  split <;> rfl

/-- Two atoms with a hyphen between them are read if the item is allowed. -/
theorem classRange_eq_done_iff {dash : Span} (hlow : ReadsClassAtom g s low u)
    (hdash : ReadsClassAtom g u (.hyphen dash) v) (hhigh : ReadsClassAtom g v high t) {w : State} :
    classRange s.cursor low.toSet (.character ⟨dash, '-'⟩) high.toSet g t = .done xs w ↔
      (RangeItem.range low dash high).Allowed g ∧
        xs = (RangeItem.range low dash high).elements ∧ t = w := by
  -- with a set at either end the grammar and the reader agree by evaluation
  have hsets (hset : low.toSet.isEscapedSet = true ∨ high.toSet.isEscapedSet = true) :
      classRange s.cursor low.toSet (.character ⟨dash, '-'⟩) high.toSet g t = .done xs w ↔
        (RangeItem.range low dash high).Allowed g ∧
          xs = (RangeItem.range low dash high).elements ∧ t = w := by
    rw [classRange_of_set hset, RangeItem.allowed_of_set hset, RangeItem.elements_of_set hset]
    cases g.exact <;> simp [eq_comm]
  rcases hlow.character_or_isEscapedSet with ⟨c, hc⟩ | hset
  · rcases hhigh.character_or_isEscapedSet with ⟨d, hd⟩ | hset
    · -- the range goes from the start of the one to the end of the other
      have hspan : (c.span.append dash).append d.span = .between s.cursor t.cursor := by
        have hlowSpan := hlow.span_eq
        have hdashSpan := hdash.span_eq
        have hhighSpan := hhigh.span_eq
        rw [hc] at hlowSpan
        rw [hd] at hhighSpan
        rw [show c.span = _ from hlowSpan, show d.span = _ from hhighSpan,
          show dash = _ from hdashSpan, Span.between_append hlow.reaches hdash.reaches,
          Span.between_append (hlow.reaches.trans hdash.reaches) hhigh.reaches]
      rw [classRange_of_characters hc hd, RangeItem.allowed_of_characters hc hd,
        RangeItem.elements_of_characters hc hd, hspan]
      by_cases hle : c.value ≤ d.value
      · rw [if_neg (Fin.not_lt.mpr hle)]
        simp [hle, eq_comm]
      · rw [if_pos (Fin.not_le.mp hle)]
        simp [hle]
    · exact hsets (.inr hset)
  · exact hsets (.inl hset)

/-- Once an atom and a hyphen have been read, what lies behind them decides. -/
theorem classRangeItem_of_dash {dash : Span} (ha : ReadsClassAtom g s a u)
    (hdash : ReadsClassAtom g u (.hyphen dash) v) :
    classRangeItem g s = (do
      match ← attempt classAtom with
      | some high => classRange s.cursor a.toSet (.character ⟨dash, '-'⟩) high
      | none => return [a.toSet, .character ⟨dash, '-'⟩] : Parser (List CharSet)) g v := by
  cases hdash with
  | hyphen hr =>
    rw [classRangeItem, here_bind, bind_of_done ha.classAtom_eq, here_bind,
      bind_of_done (eats_eq_done.mpr (.inl ⟨rfl, hr⟩)), if_pos rfl]
    exact bind_of_done (characterSetFrom_eq_done.mpr ⟨rfl, rfl⟩)

/-- One step of the reader yields what its items stand for. -/
theorem classRangeItem_eq_done_iff :
    classRangeItem g s = .done xs t ↔ ∃ as items, ReadsItems g s as items t ∧
      (∀ i ∈ items, i.Allowed g) ∧ xs = items.flatMap RangeItem.elements := by
  constructor
  · intro h
    rw [classRangeItem, here_bind] at h
    obtain ⟨x, u, hx, h⟩ := bind_eq_done.mp h
    obtain ⟨low, hlow, rfl⟩ := readsClassAtom_of_done hx
    rw [here_bind] at h
    obtain ⟨dash, v, hdash, h⟩ := bind_eq_done.mp h
    -- no hyphen, a hyphen with an atom behind it, or a hyphen that is the last atom
    rcases eats_eq_done.mp hdash with ⟨rfl, hd⟩ | ⟨rfl, hnext, rfl⟩
    · obtain ⟨y, w, hy, h⟩ := bind_eq_done.mp h
      obtain ⟨rfl, rfl⟩ := characterSetFrom_eq_done.mp hy
      obtain ⟨o, w, ho, h⟩ := bind_eq_done.mp h
      rcases attempt_eq_done.mp ho with ⟨y, rfl, hy⟩ | ⟨rfl, hnone, rfl⟩
      · obtain ⟨high, hhigh, rfl⟩ := readsClassAtom_of_done hy
        obtain ⟨hallowed, rfl, rfl⟩ := (classRange_eq_done_iff hlow (.hyphen hd) hhigh).mp h
        exact ⟨_, _, .range hlow (.hyphen hd) hhigh, by simpa using hallowed, by simp⟩
      · obtain ⟨rfl, rfl⟩ := pure_eq_done.mp h
        exact ⟨_, _, .trailing hlow (.hyphen hd) hnone, by simp [RangeItem.Allowed], rfl⟩
    · obtain ⟨rfl, rfl⟩ := pure_eq_done.mp h
      exact ⟨_, _, .single hlow hnext, by simp [RangeItem.Allowed], rfl⟩
  · rintro ⟨as, items, hread, hallowed, rfl⟩
    cases hread with
    | single ha hnext => exact classRangeItem_of_atom ha.classAtom_eq hnext
    | trailing ha hdash hnone =>
      rw [classRangeItem_of_dash ha hdash, bind_of_done (attempt_of_miss hnone)]
      rfl
    | range hlow hdash hhigh =>
      have hrange := hallowed _ List.mem_cons_self
      rw [classRangeItem_of_dash hlow hdash, bind_of_done (attempt_of_done hhigh.classAtom_eq),
        List.flatMap_singleton]
      exact (classRange_eq_done_iff hlow hdash hhigh).mpr ⟨hrange, rfl, rfl⟩

/-! ## Contents

The steps of the reader are grouped into items of the grammar. Uniqueness of atoms and of the
derivation then gives the equivalence. -/

/-- The items that the steps of the reader take are those of all atoms together. -/
theorem rangeItems_of_chain {xss : List (List CharSet)}
    (h : Chain (fun s xs t => classRangeItem g s = .done xs t) s xss t)
    (hclose : t.cursor.current = some (.ofChar ']')) :
    ∃ as, Chain (ReadsClassAtom g) s as t ∧ (∀ i ∈ rangeItems as, i.Allowed g) ∧
      xss.flatten = (rangeItems as).flatMap RangeItem.elements := by
  induction h with
  | nil s => exact ⟨[], .nil s, by simp [rangeItems], rfl⟩
  | @cons s u t xs xss head tail ih =>
    obtain ⟨as, hchain, hall, hflat⟩ := ih hclose
    obtain ⟨bs, items, hread, hallowed, rfl⟩ := classRangeItem_eq_done_iff.mp head
    rw [List.flatten_cons, hflat]
    -- what is left of the steps decides how the first items go on
    suffices h : Chain (ReadsClassAtom g) s (bs ++ as) t ∧
        rangeItems (bs ++ as) = items ++ rangeItems as by
      refine ⟨bs ++ as, h.1, ?_, by rw [h.2, List.flatMap_append]⟩
      rw [h.2]
      exact List.forall_mem_append.mpr ⟨hallowed, hall⟩
    cases hread with
    | single ha hnext =>
      refine ⟨.cons ha hchain, rangeItems_cons _ ?_⟩
      rintro ⟨dash, b, bs, rfl⟩
      cases hchain with
      | cons hdash _ => exact hnext (hdash.isHyphen_iff.mp rfl)
    | trailing ha hdash hnone =>
      have hnil : as = [] := by
        cases hchain with
        | nil => rfl
        | cons hb _ =>
          rw [hb.classAtom_eq] at hnone
          cases hnone
      obtain rfl := hnil
      exact ⟨.cons ha (.cons hdash hchain), rfl⟩
    | range hlow hdash hhigh =>
      exact ⟨.cons hlow (.cons hdash (.cons hhigh hchain)), rfl⟩

/-- If the items of all atoms are allowed, the reader takes them. -/
theorem chain_of_rangeItems (h : Chain (ReadsClassAtom g) s as t)
    (hclose : t.cursor.current = some (.ofChar ']'))
    (hallowed : ∀ i ∈ rangeItems as, i.Allowed g) :
    ∃ xss, Chain (fun s xs t => classRangeItem g s = .done xs t) s xss t ∧
      xss.flatten = (rangeItems as).flatMap RangeItem.elements := by
  induction as using rangeItems.induct generalizing s with
  | case1 =>
    cases h with
    | nil => exact ⟨[], .nil _, rfl⟩
  | case2 low dash high as ih =>
    obtain _ | ⟨hlow, _ | ⟨hdash, _ | ⟨hhigh, htail⟩⟩⟩ := h
    obtain ⟨hrange, hallowed⟩ := List.forall_mem_cons.mp hallowed
    obtain ⟨xss, hchain, hflat⟩ := ih htail hallowed
    have hitem := classRangeItem_eq_done_iff.mpr
      ⟨_, _, .range hlow hdash hhigh, List.forall_mem_singleton.mpr hrange, rfl⟩
    refine ⟨_, .cons hitem hchain, ?_⟩
    rw [List.flatten_cons, hflat, rangeItems, ← List.flatMap_append]
    rfl
  | case3 a as hnot ih =>
    rw [rangeItems.eq_3 a as hnot] at hallowed ⊢
    obtain ⟨-, hallowed⟩ := List.forall_mem_cons.mp hallowed
    cases h with
    | @cons _ u _ _ _ ha htail =>
    by_cases hnext : u.cursor.current = some (.ofChar '-')
    · -- a hyphen behind an atom that begins no range is the last atom of all
      cases htail with
      | nil =>
        rw [hclose] at hnext
        exact absurd hnext (by decide)
      | @cons _ v _ b bs hb htail =>
        obtain ⟨dash, rfl⟩ := hb.eq_hyphen hnext
        cases htail with
        | cons _ _ => exact absurd rfl (hnot dash _ _)
        | nil =>
          have hitem := classRangeItem_eq_done_iff.mpr
            ⟨_, _, .trailing ha hb (classAtom_eq_miss hclose), by simp [RangeItem.Allowed], rfl⟩
          exact ⟨_, .single hitem, by simp [rangeItems]⟩
    · obtain ⟨xss, hchain, hflat⟩ := ih htail hallowed
      have hitem := classRangeItem_eq_done_iff.mpr
        ⟨_, _, .single ha hnext, by simp [RangeItem.Allowed], rfl⟩
      refine ⟨_, .cons hitem hchain, ?_⟩
      rw [List.flatten_cons, hflat, ← List.flatMap_append]
      rfl

/-- Up to the closing bracket, the contents of a class are what the items derived stand for. -/
theorem classRanges_eq_done_iff (hclose : t.cursor.current = some (.ofChar ']')) :
    classRanges g s = .done xs t ↔ ∃ as, Chain (ReadsClassAtom g) s as t ∧
      (∀ i ∈ rangeItems as, i.Allowed g) ∧ xs = (rangeItems as).flatMap RangeItem.elements := by
  constructor
  · intro h
    obtain ⟨xss, hxss, rfl⟩ := map_eq_done.mp h
    exact rangeItems_of_chain (chain_of_many hxss) hclose
  · rintro ⟨as, has, hallowed, rfl⟩
    obtain ⟨xss, hchain, hflat⟩ := chain_of_rangeItems has hclose hallowed
    have hmiss : classRangeItem g t = .miss := by
      rw [classRangeItem, here_bind, bind_of_miss (classAtom_eq_miss hclose)]
    exact map_eq_done.mpr
      ⟨xss, (many_eq_done progresses_classRangeItem).mpr ⟨hchain, hmiss⟩, hflat⟩

end Parser

/-- A class is opened, negated or not. -/
structure State.OpensClass (s : State) (negated : Bool) (t : State) : Prop where
  reads : s.Reads (classText negated) t
  current_ne : negated = false → t.cursor.current ≠ some (.ofChar '^')

theorem State.opensClass_iff {negated : Bool} :
    s.OpensClass negated t ↔ ∃ u, s.Reads ['['] u ∧ eats '^' g u = .done negated t := by
  constructor
  · rintro ⟨hr, hne⟩
    cases negated with
    | true =>
      obtain ⟨u, hbracket, hcaret⟩ := State.reads_cons.mp hr
      exact ⟨u, hbracket, eats_eq_done.mpr (.inl ⟨rfl, hcaret⟩)⟩
    | false => exact ⟨t, hr, eats_of_ne (hne rfl)⟩
  · rintro ⟨u, hbracket, hcaret⟩
    rcases eats_eq_done.mp hcaret with ⟨rfl, hr⟩ | ⟨rfl, hne, rfl⟩
    · exact ⟨hbracket.trans hr, nofun⟩
    · exact ⟨hbracket, fun _ => hne⟩

namespace Parser

/-- A class outside the set grammar is its opening, its contents and a closing bracket. -/
theorem charClass_eq_done_iff (hg : g.sets = false) {depth : Nat} {nested : Bool} :
    charClass (depth + 1) nested g s = .done x t ↔ ∃ negated u v as, s.OpensClass negated u ∧
      Chain (ReadsClassAtom g) u as v ∧ v.Reads [']'] t ∧ (∀ i ∈ rangeItems as, i.Allowed g) ∧
      x = .listing (.between s.cursor t.cursor) negated false
        ((rangeItems as).flatMap RangeItem.elements) := by
  rw [charClass, classBody, here_bind]
  constructor
  · intro h
    obtain ⟨u₁, hbracket, h⟩ := eat_bind_eq_done.mp h
    obtain ⟨negated, u, hcaret, h⟩ := bind_eq_done.mp h
    rw [grammar_bind, hg, if_neg Bool.false_ne_true] at h
    obtain ⟨xs, v, hxs, h⟩ := bind_eq_done.mp h
    obtain ⟨_, w, hclose, h⟩ := bind_eq_done.mp h
    have hclose := closeClass_eq_done.mp hclose
    obtain ⟨as, has, hallowed, rfl⟩ :=
      (classRanges_eq_done_iff hclose.current_eq).mp hxs
    split at h
    · exact absurd h fail_ne_done
    · rw [classOf_of_ranges hg] at h
      obtain ⟨rfl, rfl⟩ := Outcome.done.inj h
      exact ⟨negated, u, v, as, State.opensClass_iff.mpr ⟨u₁, hbracket, hcaret⟩, has, hclose,
        hallowed, rfl⟩
  · rintro ⟨negated, u, v, as, hopen, has, hclose, hallowed, rfl⟩
    obtain ⟨u₁, hbracket, hcaret⟩ := State.opensClass_iff.mp hopen
    have hxs := (classRanges_eq_done_iff hclose.current_eq).mpr
      ⟨as, has, hallowed, rfl⟩
    -- no element of this grammar holds strings, so the check on negated classes passes
    have hstrings : ((rangeItems as).flatMap RangeItem.elements).any
        CharSet.mayContainStrings = false := by
      refine List.any_eq_false.mpr fun y hy => ?_
      rw [Bool.not_eq_true]
      refine forall_mem_elements (p := fun y => y.mayContainStrings = false)
        (mayContainStrings_of_chain hg has) (fun _ _ _ => ?_) y hy
      rw [CharSet.mayContainStrings]
    rw [bind_of_done (eat_eq_done (x := ()).mpr hbracket), bind_of_done hcaret, grammar_bind, hg,
      if_neg Bool.false_ne_true]
    refine bind_eq_done.mpr ⟨_, v, hxs, ?_⟩
    refine bind_eq_done.mpr ⟨(), t, closeClass_eq_done.mpr hclose, ?_⟩
    rw [hstrings, Bool.and_false, if_neg Bool.false_ne_true]
    exact classOf_of_ranges hg

end Parser

/-- The contents of classes follow the grammar of class ranges. Outside the set grammar, there is at
most one sequence of atoms up to a closing bracket, and one derivation from any atoms. A class is
read just if its contents are atoms up to the bracket and all items derived from them are allowed:
the ends of a range are two characters in order or, in the grammar of the web, one of them is a set.
Its elements are, in order, what these items stand for. -/
theorem class_contents_follow_grammar {g : Grammar} (hg : g.sets = false) :
    (∀ s as bs t u, Chain (ReadsClassAtom g) s as t → Chain (ReadsClassAtom g) s bs u →
      t.cursor.current = some (.ofChar ']') → u.cursor.current = some (.ofChar ']') →
      as = bs ∧ t = u) ∧
    (∀ as, ∃! items, RangeSymbol.ranges.Derives as items) ∧
    ∀ depth nested s x t, charClass (depth + 1) nested g s = .done x t ↔
      ∃ negated u as v items, s.OpensClass negated u ∧ Chain (ReadsClassAtom g) u as v ∧
        v.Reads [']'] t ∧ RangeSymbol.ranges.Derives as items ∧ (∀ i ∈ items, i.Allowed g) ∧
        x = .listing (.between s.cursor t.cursor) negated false
          (items.flatMap RangeItem.elements) := by
  refine ⟨fun s as bs t u => classAtoms_unique, fun as => ?_, fun depth nested s x t => ?_⟩
  · exact ⟨rangeItems as, derives_iff.mpr rfl, fun items => derives_iff.mp⟩
  · rw [charClass_eq_done_iff hg]
    constructor
    · rintro ⟨negated, u, v, as, hopen, has, hclose, hallowed, hx⟩
      exact ⟨negated, u, as, v, rangeItems as, hopen, has, hclose, derives_iff.mpr rfl, hallowed,
        hx⟩
    · rintro ⟨negated, u, as, v, items, hopen, has, hclose, hitems, hallowed, hx⟩
      obtain rfl := derives_iff.mp hitems
      exact ⟨negated, u, v, as, hopen, has, hclose, hallowed, hx⟩

/-- A range, a hyphen after it, a hyphen between a set and a character, and one at the end. -/
theorem class_contents_follow_grammar_beside_sets :
    ∃ u as v items t,
      State.OpensClass ⟨⟨0, .ofString "[a-c-\\d-x-]", false⟩, .empty .separated, 0⟩ false u ∧
      Chain (ReadsClassAtom ⟨.es2025, false, false, false, false, 0⟩) u as v ∧
      v.Reads [']'] t ∧ RangeSymbol.ranges.Derives as items ∧
      (∀ i ∈ items, i.Allowed ⟨.es2025, false, false, false, false, 0⟩) ∧
      (items.flatMap RangeItem.elements).map (·.span.raw) =
        ["a-c", "-", "\\d", "-", "x", "-"].map Text.ofString := by
  obtain ⟨s, hs⟩ : ∃ s : State,
      s = ⟨⟨0, .ofString "[a-c-\\d-x-]", false⟩, .empty .separated, 0⟩ := ⟨_, rfl⟩
  obtain ⟨x, t, hdone, htest⟩ := Outcome.exists_eq_done
    (x := charClass 1 false ⟨.es2025, false, false, false, false, 0⟩ s)
    (f := fun x _ => match x with
      | .listing _ negated _ xs => !negated && xs.map (·.span.raw) ==
        ["a-c", "-", "\\d", "-", "x", "-"].map Text.ofString
      | _ => false)
    (by rw [hs]; decide +kernel)
  obtain ⟨negated, u, as, v, items, hopen, has, hclose, hitems, hallowed, rfl⟩ :=
    ((class_contents_follow_grammar (g := ⟨.es2025, false, false, false, false, 0⟩) rfl).2.2
      0 false s x t).mp hdone
  obtain ⟨hnegated, htexts⟩ := (Bool.and_eq_true _ _).mp htest
  obtain rfl : negated = false := by simpa using hnegated
  rw [← hs]
  exact ⟨u, as, v, items, t, hopen, has, hclose, hitems, hallowed, eq_of_beq htexts⟩

end EcmaPattern
