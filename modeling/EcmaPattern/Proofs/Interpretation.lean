import EcmaPattern.Proofs.Captures
import Mathlib.Data.Set.Insert

/-!
# What sets stand for

A set stands for sequences of code points. Which characters a range, an escape or a property stands
for is left open (`Interpretation`); the rest follows from how the set is written. The test
`mayContainStrings` tells when only sequences of one character can be among them
(`length_eq_one_of_mem`). It is exact but for set operations and properties of strings
(`exists_mem_length_ne_one`), and no class that is read is negated unless its contents pass it, so a
negated class never has to leave a string out.
-/

namespace EcmaPattern

/-! ## Sequences

What a set stands for, by recursion on how it is written. A negated class stands for single
characters only, so to negate is to take the complement among these. -/

/-- What the sets stand for whose members are not written out. A range, an escape or a property of
characters stands for characters, a property of strings for sequences of any length. -/
structure Interpretation where
  characters : CharSet → Set CodePoint
  strings : CharSet → Set (List CodePoint)

/-- The sequences of one character. -/
def singles (cs : Set CodePoint) : Set (List CodePoint) := {w | ∃ c ∈ cs, w = [c]}

/-- What a class stands for, given its contents. A negated class stands for the other sequences of
one character. -/
def complementIf (negated : Bool) (contents : Set (List CodePoint)) : Set (List CodePoint) :=
  if negated then singles Set.univ \ contents else contents

def ClassString.values (x : ClassString) : List CodePoint := x.characters.map Character.value

namespace CharSet

mutual

def sequences (I : Interpretation) : CharSet → Set (List CodePoint)
  | character c => singles {c.value}
  | escape s set negated => singles (I.characters (.escape s set negated))
  | property s p negated =>
    if p.strings then I.strings (.property s p negated)
    else singles (I.characters (.property s p negated))
  | range s first last => singles (I.characters (.range s first last))
  | strings _ alternatives => {w | ∃ x ∈ alternatives, w = x.values}
  | operation _ .intersection left right => left.sequences I ∩ right.sequences I
  | operation _ .subtraction left right => left.sequences I \ right.sequences I
  | listing _ negated _ elements => complementIf negated (unionSequences I elements)
  | expression _ negated contents => complementIf negated (contents.sequences I)

def unionSequences (I : Interpretation) : List CharSet → Set (List CodePoint)
  | [] => ∅
  | x :: rest => x.sequences I ∪ unionSequences I rest

end

mutual

/-- Whether the set is built without set operations and without properties of strings. -/
def isElementary : CharSet → Bool
  | property _ p _ => !p.strings
  | operation .. => false
  | listing _ _ _ elements => allElementary elements
  | expression _ _ contents => contents.isElementary
  | character _ => true
  | escape _ _ _ => true
  | range _ _ _ => true
  | strings _ _ => true

def allElementary : List CharSet → Bool
  | [] => true
  | x :: rest => x.isElementary && allElementary rest

end

end CharSet

theorem length_of_mem_singles {cs : Set CodePoint} {w : List CodePoint} (h : w ∈ singles cs) :
    w.length = 1 := by
  obtain ⟨c, -, rfl⟩ := h
  rfl

/-- A negated class stands for single characters, and another one for what its contents do. -/
theorem length_of_mem_complementIf {negated : Bool} {contents : Set (List CodePoint)}
    {w : List CodePoint} (hcontents : negated = false → ∀ v ∈ contents, v.length = 1)
    (h : w ∈ complementIf negated contents) : w.length = 1 := by
  cases negated with
  | true => exact length_of_mem_singles h.1
  | false => exact hcontents rfl w h

namespace CharSet

variable {I : Interpretation}

/-! ## Single characters only

If the test says that a set contains no strings, it stands for single characters. This direction
holds for all sets and every interpretation. -/

mutual

/-- A set that cannot contain strings stands for sequences of one character only. -/
theorem length_eq_one_of_mem : (x : CharSet) → x.mayContainStrings = false →
    ∀ w ∈ x.sequences I, w.length = 1
  | character c, _, w, hw => by
    rw [sequences] at hw
    exact length_of_mem_singles hw
  | escape s set negated, _, w, hw => by
    rw [sequences] at hw
    exact length_of_mem_singles hw
  | property s p negated, h, w, hw => by
    rw [mayContainStrings] at h
    rw [sequences, h] at hw
    exact length_of_mem_singles hw
  | range s first last, _, w, hw => by
    rw [sequences] at hw
    exact length_of_mem_singles hw
  | strings s xs, h, w, hw => by
    rw [mayContainStrings, List.any_eq_false] at h
    rw [sequences] at hw
    obtain ⟨x, hx, rfl⟩ := hw
    simpa [ClassString.values] using h x hx
  | operation s .intersection left right, h, w, hw => by
    -- one side without strings is enough
    rw [mayContainStrings, Bool.and_eq_false_iff] at h
    rw [sequences] at hw
    rcases h with h | h
    · exact length_eq_one_of_mem left h w hw.1
    · exact length_eq_one_of_mem right h w hw.2
  | operation s .subtraction left right, h, w, hw => by
    rw [mayContainStrings] at h
    rw [sequences] at hw
    exact length_eq_one_of_mem left h w hw.1
  | listing s negated sets xs, h, w, hw => by
    rw [mayContainStrings] at h
    rw [sequences] at hw
    refine length_of_mem_complementIf ?_ hw
    rintro rfl
    exact length_eq_one_of_mem_union xs h
  | expression s negated x, h, w, hw => by
    rw [mayContainStrings] at h
    rw [sequences] at hw
    refine length_of_mem_complementIf ?_ hw
    rintro rfl
    exact length_eq_one_of_mem x h

/-- Sets that contain no strings stand for single characters. -/
theorem length_eq_one_of_mem_union : (xs : List CharSet) → anyMayContainStrings xs = false →
    ∀ w ∈ unionSequences I xs, w.length = 1
  | [], _, w, hw => by
    rw [unionSequences] at hw
    exact absurd hw (Set.notMem_empty w)
  | x :: rest, h, w, hw => by
    rw [anyMayContainStrings, Bool.or_eq_false_iff] at h
    rw [unionSequences] at hw
    rcases hw with hw | hw
    · exact length_eq_one_of_mem x h.1 w hw
    · exact length_eq_one_of_mem_union rest h.2 w hw

end

/-! ## Sets that contain strings

If the test says that it may, an elementary set does contain a sequence that is no single character.
For intersections this can fail, since the strings of the two sides may differ. -/

mutual

/-- An elementary set that may contain strings does. -/
theorem exists_mem_length_ne_one : (x : CharSet) → x.isElementary = true →
    x.mayContainStrings = true → ∃ w ∈ x.sequences I, w.length ≠ 1
  | character c, _, h => by simp [mayContainStrings] at h
  | escape s set negated, _, h => by simp [mayContainStrings] at h
  | property s p negated, he, h => by
    rw [isElementary] at he
    rw [mayContainStrings] at h
    simp [h] at he
  | range s first last, _, h => by simp [mayContainStrings] at h
  | strings s xs, _, h => by
    rw [mayContainStrings, List.any_eq_true] at h
    obtain ⟨x, hx, hlength⟩ := h
    refine ⟨x.values, ?_, ?_⟩
    · rw [sequences]
      exact ⟨x, hx, rfl⟩
    · simpa [ClassString.values] using hlength
  | operation s op left right, he, _ => by simp [isElementary] at he
  | listing s negated sets xs, he, h => by
    rw [isElementary] at he
    rw [mayContainStrings, Bool.and_eq_true, Bool.not_eq_true'] at h
    obtain ⟨rfl, h⟩ := h
    rw [sequences]
    exact exists_mem_union_length_ne_one xs he h
  | expression s negated x, he, h => by
    rw [isElementary] at he
    rw [mayContainStrings, Bool.and_eq_true, Bool.not_eq_true'] at h
    obtain ⟨rfl, h⟩ := h
    rw [sequences]
    exact exists_mem_length_ne_one x he h

/-- Among elementary sets that may contain strings, some sequence is no single character. -/
theorem exists_mem_union_length_ne_one : (xs : List CharSet) → allElementary xs = true →
    anyMayContainStrings xs = true → ∃ w ∈ unionSequences I xs, w.length ≠ 1
  | [], _, h => by simp [anyMayContainStrings] at h
  | x :: rest, he, h => by
    rw [allElementary, Bool.and_eq_true] at he
    rw [anyMayContainStrings, Bool.or_eq_true] at h
    rw [unionSequences]
    rcases h with h | h
    · obtain ⟨w, hw, hlength⟩ := exists_mem_length_ne_one x he.1 h
      exact ⟨w, .inl hw, hlength⟩
    · obtain ⟨w, hw, hlength⟩ := exists_mem_union_length_ne_one rest he.2 h
      exact ⟨w, .inr hw, hlength⟩

end

end CharSet

/-! ## Classes that are read

The check is made at each negated class. By induction on derivations it holds at every depth of the
tree. -/

/-- The set leaves out no strings: if it is negated, its contents stand for single characters. -/
def CharSet.NegatesCharacters : CharSet → Prop
  | .property _ p negated => negated = true → p.strings = false
  | .listing _ negated _ elements => negated = true → ∀ x ∈ elements, x.mayContainStrings = false
  | .expression _ negated contents => negated = true → contents.mayContainStrings = false
  | _ => True

namespace Node

def set? : Node → Option CharSet
  | charSet x => some x
  | term (.set x) => some x
  | _ => none

/-- A node that is not in a class itself has nodes of a class directly under it only if it is a set
that stands for a term. -/
theorem exists_eq_set {n c : Node} (hn : n.insideClass = false) (hc : c ∈ n.children)
    (hin : c.insideClass = true) : ∃ x, n = term (.set x) := by
  have hmap : ∀ {α : Type} {f : α → Node} {as : List α}, (∀ a, (f a).insideClass = false) →
      c ∉ as.map f := by
    intro α f as hf hmem
    obtain ⟨a, -, rfl⟩ := List.mem_map.mp hmem
    rw [hf a] at hin
    cases hin
  -- one case for each kind of node, with what stands directly under it
  cases n with
  | literal l =>
    rw [children_literal] at hc
    rcases List.mem_cons.mp hc with rfl | hc
    · cases hin
    · rw [List.mem_singleton.mp hc] at hin
      cases hin
  | pattern p =>
    rw [children_pattern] at hc
    exact absurd hc (hmap fun _ => rfl)
  | flags f =>
    rw [children_flags] at hc
    exact absurd hc List.not_mem_nil
  | sequence q =>
    cases q
    rw [children_sequence] at hc
    exact absurd hc (hmap fun _ => rfl)
  | term e =>
    cases e with
    | set x => exact ⟨x, rfl⟩
    | look =>
      rw [children_look] at hc
      exact absurd hc (hmap fun _ => rfl)
    | group span m qs =>
      cases m with
      | none =>
        rw [children_group_none] at hc
        exact absurd hc (hmap fun _ => rfl)
      | some m =>
        rw [children_group_some] at hc
        rcases List.mem_cons.mp hc with rfl | hc
        · cases hin
        · exact absurd hc (hmap fun _ => rfl)
    | capture =>
      rw [children_capture] at hc
      exact absurd hc (hmap fun _ => rfl)
    | quantified =>
      rw [children_quantified] at hc
      rw [List.mem_singleton.mp hc] at hin
      cases hin
    | reference span target => cases target <;> exact absurd hc List.not_mem_nil
    | _ => exact absurd hc List.not_mem_nil
  | modifiers m =>
    cases hr : m.remove <;> simp [children, fields, Field.parts, hr] at hc <;> grind [insideClass]
  | modifierFlags m => exact absurd hc List.not_mem_nil
  | _ => cases hn

/-- A node in a class belongs to a set that is a term. -/
theorem exists_set_of_insideClass {n m : Node} (hn : n.insideClass = false)
    (hm : m ∈ n.descendants) (hin : m.insideClass = true) :
    ∃ x, term (.set x) ∈ n.descendants ∧ m ∈ (charSet x).descendants := by
  induction n using induction_on_children with
  | h n ih =>
    rw [descendants_eq] at hm
    rcases List.mem_cons.mp hm with rfl | hm
    · rw [hn] at hin
      cases hin
    obtain ⟨c, hc, hmc⟩ := List.mem_flatMap.mp hm
    cases hcin : c.insideClass with
    | false =>
      obtain ⟨x, hx, hmx⟩ := ih c hc hcin hmc
      refine ⟨x, ?_, hmx⟩
      rw [descendants_eq]
      exact List.mem_cons_of_mem n (List.mem_flatMap.mpr ⟨c, hc, hx⟩)
    | true =>
      obtain ⟨x, rfl⟩ := exists_eq_set hn hc hcin
      refine ⟨x, ?_, ?_⟩
      · rw [descendants_eq]
        exact List.mem_cons_self
      · rw [descendants_eq]
        exact List.mem_cons_of_mem _ hm

def NegatesCharacters (root : Node) : Prop :=
  ∀ n ∈ root.descendants, ∀ x, n.set? = some x → x.NegatesCharacters

/-- A set leaves out no strings if neither it nor one of the sets under it does. -/
theorem negatesCharacters_charSet {y : CharSet} (hy : y.NegatesCharacters)
    (hchildren : ∀ c ∈ (charSet y).children, c.NegatesCharacters) :
    (charSet y).NegatesCharacters := by
  refine forall_descendants.mpr ⟨?_, hchildren⟩
  intro x hx
  cases hx
  exact hy

theorem negatesCharacters_character (c : Character) :
    (charSet (.character c)).NegatesCharacters :=
  negatesCharacters_charSet trivial fun _ hc => absurd hc List.not_mem_nil

theorem negatesCharacters_strings (span : Span) (xs : List ClassString) :
    (charSet (.strings span xs)).NegatesCharacters := by
  refine negatesCharacters_charSet trivial ?_
  rw [children_strings, List.forall_mem_map]
  intro x _
  refine forall_descendants.mpr ⟨nofun, ?_⟩
  rw [children_classString, List.forall_mem_map]
  intro c _
  exact negatesCharacters_character c

end Node

/-- No set that is read leaves out strings. -/
theorem Derives.negatesCharacters {g : Grammar} {s t : State} {x : Piece} (h : Derives g s x t)
    (hx : x.insideClass) : ∀ n ∈ x.nodes, n.NegatesCharacters := by
  -- a set is sound if it and its elements are, and most have nothing to show themselves
  have hset : ∀ {y : CharSet}, y.NegatesCharacters →
      (∀ c ∈ (Node.charSet y).children, c.NegatesCharacters) →
      ∀ n ∈ [Node.charSet y], n.NegatesCharacters := fun hy hchildren =>
    List.forall_mem_singleton.mpr (Node.negatesCharacters_charSet hy hchildren)
  induction h with
  | character h => exact hset trivial fun _ hc => absurd hc List.not_mem_nil
  | setEscape h =>
    cases h with
    | mk h _ =>
      cases h with
      | letter _ => exact hset trivial fun _ hc => absurd hc List.not_mem_nil
      | property _ _ _ _ _ hn =>
        refine hset ?_ fun _ hc => absurd hc List.not_mem_nil
        rintro rfl
        simpa using hn
  | range _ _ _ _ =>
    refine hset trivial ?_
    rw [Node.children_range, List.forall_mem_cons, List.forall_mem_singleton]
    exact ⟨Node.negatesCharacters_character _, Node.negatesCharacters_character _⟩
  | strings _ _ _ _ =>
    exact List.forall_mem_singleton.mpr (Node.negatesCharacters_strings _ _)
  | operation _ _ _ _ ihx ihy =>
    refine hset trivial ?_
    rw [Node.children_operation, List.forall_mem_cons]
    exact ⟨ihx rfl _ List.mem_cons_self, ihy rfl⟩
  | nested _ _ ih => exact ih rfl
  | noElement s => exact fun n hn => absurd hn List.not_mem_nil
  | consElement _ _ ih ihs => exact List.forall_mem_cons.mpr ⟨ih rfl _ List.mem_cons_self, ihs rfl⟩
  | @listing _ _ _ _ negated xs _ _ _ hn ih =>
    refine hset ?_ ?_
    · rintro rfl
      simpa using hn
    · rw [Node.children_listing]
      exact ih rfl
  | expression _ _ _ _ hn _ ih =>
    refine hset ?_ ?_
    · rintro rfl
      simpa using hn
    · rw [Node.children_expression]
      exact ih rfl
  | _ => cases hx

/-- No set that is read as a term leaves out strings. -/
theorem Derives.set_negatesCharacters {g : Grammar} {s t : State} {x : CharSet}
    (h : Derives g s (.term (.set x)) t) : (Node.charSet x).NegatesCharacters := by
  cases h with
  | termCharacter _ _ => exact Node.negatesCharacters_character _
  | termEscape h =>
    have helement : Derives g s (.element x) t := .setEscape h
    exact helement.negatesCharacters rfl _ List.mem_cons_self
  | termClass h => exact h.negatesCharacters rfl _ List.mem_cons_self

/-- No set of a pattern leaves out strings. -/
theorem Pattern.negatesCharacters {rule : DuplicateRule} {o : Options} {flags : FlagSet}
    {named : Bool} {slice : Slice} {paired : Bool} {p : Pattern} {scope : GroupScope}
    (h : pass rule o flags named (slice.cursor paired) = .ok (p, scope)) :
    (Node.pattern p).NegatesCharacters := by
  -- each set that is a term is derived, and every other set lies in one that is a term
  have hterms : ∀ n ∈ (Node.pattern p).descendants,
      ∀ x, n = .term (.set x) → (Node.charSet x).NegatesCharacters := by
    refine forall_nodes_of_pass (P := fun n => ∀ x, n = .term (.set x) →
      (Node.charSet x).NegatesCharacters) ?_ ?_ ?_ h
    · rintro s e t - he x hx
      cases hx
      exact he.set_negatesCharacters
    · intro n hn x hx
      exact absurd hx (hn _)
    · intro f n hn x hx
      cases n with
      | term e => exact hn x (by rw [Term.resolve_eq_set (Node.term.inj hx)])
      | _ => cases hx
  intro n hn x hx
  cases n with
  | charSet y =>
    obtain ⟨z, hz, hy⟩ := Node.exists_set_of_insideClass rfl hn rfl
    exact hterms _ hz z rfl _ hy x hx
  | term e =>
    cases e with
    | set y =>
      cases hx
      exact (Node.forall_descendants.mp (hterms _ hn x rfl)).1 x rfl
    | _ => cases hx
  | _ => cases hx

/-! ## Negated classes

The statement about answers, and a case of it. -/

/-- A set that may not contain strings stands for sequences of one character only, whatever its
ranges, escapes and properties stand for. In every pattern that is read the contents of a negated
class are such sets, and no property of strings is negated. For sets without operations and
properties of strings the test is exact: one that may contain strings stands for a sequence of
another length. -/
theorem negated_classes_leave_out_no_strings :
    (∀ (I : Interpretation) (x : CharSet), x.mayContainStrings = false →
      ∀ w ∈ x.sequences I, w.length = 1) ∧
    (∀ (o : Options) (choice : FlagChoice) (slice : Slice) (p : Pattern),
      parsePattern o choice slice = .ok p → ∀ n ∈ (Node.pattern p).descendants,
        ∀ x, n.set? = some x → x.NegatesCharacters) ∧
    (∀ (I : Interpretation) (x : CharSet), x.isElementary = true → x.mayContainStrings = true →
      ∃ w ∈ x.sequences I, w.length ≠ 1) := by
  refine ⟨fun I => CharSet.length_eq_one_of_mem, ?_, fun I => CharSet.exists_mem_length_ne_one⟩
  intro o choice slice p h
  obtain ⟨flags, -, hread⟩ := parsePattern_eq_ok.mp h
  obtain ⟨named, scope, hpass⟩ := Pattern.pass_of_read hread
  exact Pattern.negatesCharacters hpass

theorem negated_classes_leave_out_no_strings_at_quotes :
    (∃ p, parsePattern (.ofEdition .es2025 false) (.text ['v'])
        (.whole (.ofString "[^\\q{a|b}[\\d--\\q{de}]]")) = .ok p ∧
      ∀ n ∈ (Node.pattern p).descendants, ∀ x, n.set? = some x → x.NegatesCharacters) ∧
    (∀ w ∈ (CharSet.operation ⟨0, 9, []⟩ .intersection (.strings ⟨0, 5, []⟩ [⟨⟨3, 3, []⟩, []⟩])
      (.escape ⟨7, 9, []⟩ .digit true)).sequences ⟨fun _ => Set.univ, fun _ => Set.univ⟩,
      w.length = 1) ∧
    ∃ w ∈ (CharSet.strings ⟨0, 5, []⟩ [⟨⟨3, 3, []⟩, []⟩]).sequences
      ⟨fun _ => Set.univ, fun _ => Set.univ⟩, w.length ≠ 1 := by
  obtain ⟨hsingle, hread, hstring⟩ := negated_classes_leave_out_no_strings
  obtain ⟨p, hp⟩ : ∃ p, parsePattern (.ofEdition .es2025 false) (.text ['v'])
      (.whole (.ofString "[^\\q{a|b}[\\d--\\q{de}]]")) = .ok p :=
    Except.exists_eq_ok (by decide +kernel)
  exact ⟨⟨p, hp, hread _ _ _ p hp⟩, hsingle _ _ (by decide), hstring _ _ (by decide) (by decide)⟩

end EcmaPattern
