import EcmaPattern.Proofs.Derivation.Classes

/-!
# The grammar of class ranges

Outside the set grammar, the contents of a class are a sequence of atoms, over which the items of
the class, single atoms and ranges, are derived by a grammar with two nonterminals
(`RangeSymbol.Derives`). The second derives what follows an atom that begins no range, and so no
hyphen with more behind it: that hyphen would have been the sign of a range. Every sequence of atoms
has one derivation (`derives_iff`), which takes the items from left to right (`rangeItems`). An
escaped hyphen is an atom like any other, never the sign of a range.
-/

namespace EcmaPattern

open EcmaPattern.Parser

/-! ## Atoms

An atom is a character or a set. Only a hyphen that is not escaped can be the sign of a range, so an
atom knows its text. -/

/-- An atom of a class: a hyphen as it is, or anything else. -/
inductive ClassAtom where
  | hyphen (span : Span)
  | other (x : CharSet)

namespace ClassAtom

def toSet : ClassAtom → CharSet
  | hyphen span => .character ⟨span, '-'⟩
  | other x => x

def isHyphen : ClassAtom → Bool
  | hyphen _ => true
  | other _ => false

end ClassAtom

def CharSet.isEscapedSet : CharSet → Bool
  | escape .. => true
  | property .. => true
  | _ => false

/-- An atom that is read between two states: a character as it is, an escape, or, unless the grammar
is strict, a backslash before a `c` that begins no escape. -/
inductive ReadsClassAtom (g : Grammar) : State → ClassAtom → State → Prop
  | hyphen {s t : State} (hr : s.Reads ['-'] t) :
      ReadsClassAtom g s (.hyphen (.between s.cursor t.cursor)) t
  | plain {s t : State} {c : CodePoint} (hc : c.isOneOf ['\\', ']'] = false)
      (hdash : c ≠ .ofChar '-') (hr : s.Reads [c] t) :
      ReadsClassAtom g s (.other (.character ⟨.between s.cursor t.cursor, c⟩)) t
  | escape {s u t : State} {x : CharSet} (hslash : s.Reads ['\\'] u)
      (hx : classEscape s.cursor g u = .done x t) : ReadsClassAtom g s (.other x) t
  | backslash {s t : State} (hslash : s.Reads ['\\'] t)
      (hnone : classEscape s.cursor g t = .miss) (hstrict : g.strict = false)
      (hc : t.cursor.current = some (.ofChar 'c')) :
      ReadsClassAtom g s (.other (.character ⟨.between s.cursor t.cursor, '\\'⟩)) t

/-! ## Items

What an item stands for, and when it is allowed: the ends of a range are characters in order, except
that by the web grammar a set at one of the ends makes the hyphen a character. -/

/-- An item of a class: an atom by itself, or two with a hyphen between them. -/
inductive RangeItem where
  | single (a : ClassAtom)
  | range (low : ClassAtom) (dash : Span) (high : ClassAtom)

def Span.append (a b : Span) : Span := ⟨a.start, b.stop, a.raw ++ b.raw⟩

namespace RangeItem

/-- What the item may be. The ends of a range are two characters in order; in the grammar of the
web, one of them may also be a set. -/
def Allowed (g : Grammar) : RangeItem → Prop
  | single _ => True
  | range low _ high =>
    (∃ c d, low.toSet = .character c ∧ high.toSet = .character d ∧ c.value ≤ d.value) ∨
      (low.toSet.isEscapedSet = true ∨ high.toSet.isEscapedSet = true) ∧
        g.strict = false ∧ g.unicode = false

/-- The elements of the class that the item stands for. Next to a set, the hyphen stands for itself,
and so do the ends. -/
def elements : RangeItem → List CharSet
  | single a => [a.toSet]
  | range low dash high =>
    match low.toSet, high.toSet with
    | .character c, .character d => [.range ((c.span.append dash).append d.span) c d]
    | x, y => [x, .character ⟨dash, '-'⟩, y]

variable {g : Grammar} {low high : ClassAtom} {dash : Span} {c d : Character}

/-- A range of characters is allowed if they are in order. -/
theorem allowed_of_characters (hlow : low.toSet = .character c)
    (hhigh : high.toSet = .character d) :
    (range low dash high).Allowed g ↔ c.value ≤ d.value := by
  simp [Allowed, hlow, hhigh, CharSet.isEscapedSet]

/-- A range of characters is one element. -/
theorem elements_of_characters (hlow : low.toSet = .character c)
    (hhigh : high.toSet = .character d) :
    (range low dash high).elements = [.range ((c.span.append dash).append d.span) c d] := by
  simp only [elements, hlow, hhigh]

/-- A range with a set for an end is allowed only by the web grammar. -/
theorem allowed_of_set (h : low.toSet.isEscapedSet = true ∨ high.toSet.isEscapedSet = true) :
    (range low dash high).Allowed g ↔ g.exact = false := by
  rw [Allowed, Grammar.exact, Bool.or_eq_false_iff]
  constructor
  · rintro (⟨c, d, hlow, hhigh, -⟩ | ⟨-, hweb⟩)
    · rw [hlow, hhigh] at h
      exact absurd h (by simp [CharSet.isEscapedSet])
    · exact hweb
  · exact fun hweb => .inr ⟨h, hweb⟩

/-- A range with a set for an end is three elements: the ends and the hyphen. -/
theorem elements_of_set (h : low.toSet.isEscapedSet = true ∨ high.toSet.isEscapedSet = true) :
    (range low dash high).elements = [low.toSet, .character ⟨dash, '-'⟩, high.toSet] := by
  rw [elements]
  split
  · next hlow hhigh =>
    rw [hlow, hhigh] at h
    exact absurd h (by simp [CharSet.isEscapedSet])
  · rfl

end RangeItem

/-! ## Derivations

Uniqueness is shown by giving the derivation as a function. That the second nonterminal never begins
with a hyphen that has more behind it is what makes the choice between the rules. -/

/-- The nonterminals of the grammar: the contents of a class, and what follows an atom that begins
no range. -/
inductive RangeSymbol where
  | ranges
  | noDash

/-- The grammar, with the items that are derived. -/
inductive RangeSymbol.Derives : RangeSymbol → List ClassAtom → List RangeItem → Prop
  | empty : Derives .ranges [] []
  | atom (a : ClassAtom) : Derives .ranges [a] [.single a]
  | atoms (a : ClassAtom) {as : List ClassAtom} {items : List RangeItem}
      (h : Derives .noDash as items) : Derives .ranges (a :: as) (.single a :: items)
  | range (low : ClassAtom) (dash : Span) (high : ClassAtom) {as : List ClassAtom}
      {items : List RangeItem} (h : Derives .ranges as items) :
      Derives .ranges (low :: .hyphen dash :: high :: as) (.range low dash high :: items)
  | lastAtom (a : ClassAtom) : Derives .noDash [a] [.single a]
  | moreAtoms {a : ClassAtom} {as : List ClassAtom} {items : List RangeItem}
      (ha : a.isHyphen = false) (h : Derives .noDash as items) :
      Derives .noDash (a :: as) (.single a :: items)
  | laterRange {low : ClassAtom} (dash : Span) (high : ClassAtom) {as : List ClassAtom}
      {items : List RangeItem} (hlow : low.isHyphen = false) (h : Derives .ranges as items) :
      Derives .noDash (low :: .hyphen dash :: high :: as) (.range low dash high :: items)

def rangeItems : List ClassAtom → List RangeItem
  | [] => []
  | low :: .hyphen dash :: high :: as => .range low dash high :: rangeItems as
  | a :: as => .single a :: rangeItems as

/-- A hyphen with more behind it. -/
def BeginsDash (as : List ClassAtom) : Prop :=
  ∃ dash b bs, as = .hyphen dash :: b :: bs

variable {a : ClassAtom} {as : List ClassAtom} {items : List RangeItem}

theorem BeginsDash.isHyphen (h : BeginsDash (a :: as)) : a.isHyphen = true := by
  obtain ⟨dash, b, bs, h⟩ := h
  obtain ⟨rfl, -⟩ := List.cons_eq_cons.mp h
  rfl

theorem isHyphen_eq_false (h : ¬ BeginsDash (a :: as)) (has : as ≠ []) : a.isHyphen = false := by
  obtain ⟨b, bs, rfl⟩ := List.exists_cons_of_ne_nil has
  cases a with
  | hyphen dash => exact absurd ⟨dash, b, bs, rfl⟩ h
  | other x => rfl

/-- An atom before which no range begins is an item by itself. -/
theorem rangeItems_cons (a : ClassAtom) (h : ¬ BeginsDash as) :
    rangeItems (a :: as) = .single a :: rangeItems as := by
  refine rangeItems.eq_3 a as ?_
  rintro dash b bs rfl
  exact h ⟨dash, b, bs, rfl⟩

/-- What is derived is read from left to right; and no hyphen with more behind it follows an atom
that begins no range. -/
theorem RangeSymbol.Derives.eq_rangeItems {symbol : RangeSymbol}
    (h : symbol.Derives as items) :
    items = rangeItems as ∧ (symbol = .noDash → ¬ BeginsDash as) := by
  have hsingle : ∀ a : ClassAtom, ¬ BeginsDash [a] := by
    rintro a ⟨dash, b, bs, h⟩
    cases h
  have hrest : ∀ {a : ClassAtom} {as : List ClassAtom}, a.isHyphen = false →
      ¬ BeginsDash (a :: as) := by
    intro a as ha h
    rw [h.isHyphen] at ha
    cases ha
  induction h with
  | empty => exact ⟨rfl, nofun⟩
  | atom a => exact ⟨rfl, nofun⟩
  | atoms a _ ih => exact ⟨by rw [rangeItems_cons a (ih.2 rfl), ih.1], nofun⟩
  | range low dash high _ ih => exact ⟨by rw [rangeItems, ih.1], nofun⟩
  | lastAtom a => exact ⟨rfl, fun _ => hsingle a⟩
  | @moreAtoms a _ _ ha _ ih =>
    exact ⟨by rw [rangeItems_cons a (ih.2 rfl), ih.1], fun _ => hrest ha⟩
  | laterRange dash high hlow _ ih => exact ⟨by rw [rangeItems, ih.1], fun _ => hrest hlow⟩

/-- All atoms can be derived; and if they follow one that begins no range, they can be derived as
what follows it. -/
theorem derives_rangeItems (as : List ClassAtom) :
    RangeSymbol.ranges.Derives as (rangeItems as) ∧
      (as ≠ [] → ¬ BeginsDash as → RangeSymbol.noDash.Derives as (rangeItems as)) := by
  induction as using rangeItems.induct with
  | case1 => exact ⟨.empty, fun h => absurd rfl h⟩
  | case2 low dash high as ih =>
    rw [rangeItems]
    exact ⟨.range low dash high ih.1, fun _ hrest =>
      .laterRange dash high (isHyphen_eq_false hrest (List.cons_ne_nil _ _)) ih.1⟩
  | case3 a as hnot ih =>
    have hbegins : ¬ BeginsDash as := by
      rintro ⟨dash, b, bs, rfl⟩
      exact hnot dash b bs rfl
    rw [rangeItems_cons a hbegins]
    by_cases has : as = []
    · obtain rfl := has
      exact ⟨.atom a, fun _ _ => .lastAtom a⟩
    · have hmore := ih.2 has hbegins
      exact ⟨.atoms a hmore, fun _ hrest => .moreAtoms (isHyphen_eq_false hrest has) hmore⟩

/-- The grammar derives one sequence of items. -/
theorem derives_iff : RangeSymbol.ranges.Derives as items ↔ items = rangeItems as := by
  constructor
  · exact fun h => h.eq_rangeItems.1
  · rintro rfl
    exact (derives_rangeItems as).1

/-- What holds of all atoms, and of ranges, holds of all elements. -/
theorem forall_mem_elements {p : CharSet → Prop} (hatoms : ∀ a ∈ as, p a.toSet)
    (hrange : ∀ span c d, p (.range span c d)) :
    ∀ x ∈ (rangeItems as).flatMap RangeItem.elements, p x := by
  induction as using rangeItems.induct with
  | case1 => exact nofun
  | case2 low dash high as ih =>
    simp only [List.forall_mem_cons] at hatoms
    obtain ⟨hlow, hdash, hhigh, hatoms⟩ := hatoms
    rw [rangeItems, List.flatMap_cons]
    refine List.forall_mem_append.mpr ⟨?_, ih hatoms⟩
    rw [RangeItem.elements]
    split
    · exact List.forall_mem_singleton.mpr (hrange _ _ _)
    · simp only [List.forall_mem_cons, List.not_mem_nil, false_implies, implies_true, and_true]
      exact ⟨hlow, hdash, hhigh⟩
  | case3 a as hnot ih =>
    obtain ⟨ha, hatoms⟩ := List.forall_mem_cons.mp hatoms
    rw [rangeItems.eq_3 a as hnot, List.flatMap_cons]
    exact List.forall_mem_append.mpr ⟨List.forall_mem_singleton.mpr ha, ih hatoms⟩

end EcmaPattern
