import Mathlib.Algebra.Group.Nat.Defs
import EcmaPattern.Proofs.Agreement.References
import EcmaPattern.Proofs.Runs

/-!
# Forms

A form is how a pattern is built, without a text that it stands in. It has one spelling
(`Form.spell`) and, but for the places of its nodes, one tree (`Form.tree`). The types leave no room
for forms that no pattern has: the ends of a range and of a repetition are in order, only an atom is
repeated, there is at least one alternative, and a reference has a group to refer to, be it before
or behind it.

All signs of a spelling are plain (`Alternatives.isPlain_spell`), and no element is taken for a part
of the one before it, since it begins with a sign that none goes on with (`Form.Apart`). The tree of
a form refers to no names (`Alternatives.referredNames_trees`) and nests as deeply as the form
(`Form.depth_tree`).

The theorem on forms (`forms_read_as_their_trees`) is about texts that someone writes, so it should
not speak of the parser at all on the side of the form. What stands here is the writer's side:
spelling, numbers, levels and trees, each by recursion on the form.
-/

namespace EcmaPattern

open EcmaPattern.Parser

/-! ## Trees without places

The same tree with every span blank. Two trees that are bare alike differ only in where their nodes
are. -/

def Span.blank : Span := ⟨0, 0, []⟩

def Character.bare (c : Character) : Character := ⟨.blank, c.value⟩

def ClassString.bare (x : ClassString) : ClassString :=
  ⟨.blank, x.characters.map Character.bare⟩

def ModifierFlags.bare (f : ModifierFlags) : ModifierFlags := { f with span := .blank }

def Modifiers.bare (m : Modifiers) : Modifiers :=
  ⟨.blank, m.add.bare, m.remove.map ModifierFlags.bare⟩

namespace CharSet

mutual

def bare : CharSet → CharSet
  | character c => character c.bare
  | escape _ set negated => escape .blank set negated
  | property _ p negated => property .blank p negated
  | range _ first last => range .blank first.bare last.bare
  | strings _ alternatives => strings .blank (alternatives.map ClassString.bare)
  | operation _ op left right => operation .blank op left.bare right.bare
  | listing _ negated sets elements => listing .blank negated sets (bareAll elements)
  | expression _ negated contents => expression .blank negated contents.bare

def bareAll : List CharSet → List CharSet
  | [] => []
  | x :: rest => x.bare :: bareAll rest

end

theorem bareAll_eq (xs : List CharSet) : bareAll xs = xs.map bare := by
  induction xs with
  | nil => rw [bareAll, List.map_nil]
  | cons x xs ih => rw [bareAll, ih, List.map_cons]

end CharSet

namespace Term

mutual

def bare : Term → Term
  | set x => set x.bare
  | any _ => any .blank
  | edge _ e => edge .blank e
  | wordBoundary _ negated => wordBoundary .blank negated
  | look _ direction negated alternatives =>
    look .blank direction negated (bareAll alternatives)
  | group _ modifiers alternatives =>
    group .blank (modifiers.map Modifiers.bare) (bareAll alternatives)
  | capture _ index name alternatives => capture .blank index name (bareAll alternatives)
  | reference _ target => reference .blank target
  | quantified _ repetition element => quantified .blank repetition element.bare

def bareTerms : List Term → List Term
  | [] => []
  | t :: rest => t.bare :: bareTerms rest

def bareSequence : Sequence → Sequence
  | .mk _ elements => .mk .blank (bareTerms elements)

def bareAll : List Sequence → List Sequence
  | [] => []
  | q :: rest => bareSequence q :: bareAll rest

end

mutual

/-- What a term refers to is no matter of its place. -/
theorem referredNames_bare : (t : Term) → t.bare.referredNames = t.referredNames
  | set _ => by simp [bare, referredNames]
  | any _ => by simp [bare, referredNames]
  | edge .. => by simp [bare, referredNames]
  | wordBoundary .. => by simp [bare, referredNames]
  | reference _ (.number _) => by simp [bare, referredNames]
  | reference _ (.name ..) => by simp [bare, referredNames]
  | look _ _ _ alternatives => by
    simp only [bare, referredNames, referredNamesOfAll_bare alternatives]
  | group _ _ alternatives => by
    simp only [bare, referredNames, referredNamesOfAll_bare alternatives]
  | capture _ _ _ alternatives => by
    simp only [bare, referredNames, referredNamesOfAll_bare alternatives]
  | quantified _ _ element => by simp only [bare, referredNames, referredNames_bare element]

theorem referredNamesOfTerms_bare : (ts : List Term) →
    referredNamesOfTerms (bareTerms ts) = referredNamesOfTerms ts
  | [] => by rw [bareTerms]
  | t :: ts => by
    rw [bareTerms, referredNamesOfTerms, referredNamesOfTerms, referredNames_bare t,
      referredNamesOfTerms_bare ts]

theorem referredNamesOfSequence_bare : (q : Sequence) →
    referredNamesOfSequence (bareSequence q) = referredNamesOfSequence q
  | .mk _ elements => by
    rw [bareSequence, referredNamesOfSequence, referredNamesOfSequence,
      referredNamesOfTerms_bare elements]

theorem referredNamesOfAll_bare : (qs : List Sequence) →
    referredNamesOfAll (bareAll qs) = referredNamesOfAll qs
  | [] => by rw [bareAll]
  | q :: qs => by
    rw [bareAll, referredNamesOfAll, referredNamesOfAll, referredNamesOfSequence_bare q,
      referredNamesOfAll_bare qs]

end

end Term

def Pattern.bare (p : Pattern) : Pattern := ⟨.blank, Term.bareAll p.alternatives⟩

/-! ## Forms

One type for each level of the grammar, from the parts of a class up. A type is indexed by the
number of groups of the whole form, so that a reference can only be to one of them, and a `Form` has
the proof that the number is right. -/

namespace Form

/-- What stands in a class. -/
inductive Part where
  | character (v : CodePoint)
  | escape (set : EscapeSet) (negated : Bool)
  | range (low high : CodePoint) (ordered : low ≤ high)

/-- How often an atom is repeated; no `max` means without end. -/
structure Count where
  min : Nat
  max : Option Nat
  greedy : Bool
  ordered : outOfOrder (min, max) = false

mutual

/-- What can be repeated, in a pattern with `n` capturing groups. -/
inductive Atom (n : Nat) where
  | character (v : CodePoint)
  | any
  | escape (set : EscapeSet) (negated : Bool)
  /-- A reference to the group with the next number, as groups are numbered from one on. -/
  | reference (i : Fin n)
  | charClass (negated : Bool) (parts : List Part)
  | group (inside : Alternatives n)
  | capture (inside : Alternatives n)

/-- An element of an alternative. -/
inductive Element (n : Nat) where
  | atom (a : Atom n)
  | repeated (a : Atom n) (count : Count)
  | edge (e : Edge)
  | wordBoundary (negated : Bool)
  | look (direction : Direction) (negated : Bool) (inside : Alternatives n)

/-- Alternatives, each a list of elements. -/
inductive Alternatives (n : Nat) where
  | last (elements : List (Element n))
  | cons (elements : List (Element n)) (rest : Alternatives n)

end

/-! ### Spellings

Numbers are spelled without leading zeros. Every character is spelled as an escape with its number
in braces, so that none is taken for syntax. -/

def numeral (base n : Nat) : List CodePoint := (Nat.toDigits base n).map CodePoint.ofChar

def spellCharacter (v : CodePoint) : List CodePoint :=
  .ofChar '\\' :: .ofChar 'u' :: .ofChar '{' :: (numeral 16 v.val ++ [.ofChar '}'])

def escapeLetter : EscapeSet → Bool → CodePoint
  | .digit, false => 'd'
  | .digit, true => 'D'
  | .space, false => 's'
  | .space, true => 'S'
  | .word, false => 'w'
  | .word, true => 'W'

def Part.spell : Part → List CodePoint
  | character v => spellCharacter v
  | escape set negated => ['\\', escapeLetter set negated]
  | range low high _ => spellCharacter low ++ .ofChar '-' :: spellCharacter high

def Count.spellBounds (r : Count) : List CodePoint :=
  .ofChar '{' ::
    (numeral 10 r.min ++ .ofChar ',' :: (r.max.elim [] (numeral 10) ++ [.ofChar '}']))

def Count.spell (r : Count) : List CodePoint :=
  if r.greedy then r.spellBounds else r.spellBounds ++ [.ofChar '?']

def enclose (opening inside : List CodePoint) : List CodePoint :=
  opening ++ inside ++ [.ofChar ')']

variable {n : Nat}

mutual

def Atom.spell : Atom n → List CodePoint
  | .character v => spellCharacter v
  | .any => ['.']
  | .escape set negated => ['\\', escapeLetter set negated]
  | .reference i => .ofChar '\\' :: numeral 10 (i + 1)
  | .charClass negated parts => classText negated ++ parts.flatMap Part.spell ++ [.ofChar ']']
  | .group inside => enclose ['(', '?', ':'] inside.spell
  | .capture inside => enclose ['('] inside.spell

def Element.spell : Element n → List CodePoint
  | .atom a => a.spell
  | .repeated a count => a.spell ++ count.spell
  | .edge e => [edgeSign e]
  | .wordBoundary negated => ['\\', boundaryLetter negated]
  | .look direction negated inside => enclose (lookText direction negated) inside.spell

def spellElements : List (Element n) → List CodePoint
  | [] => []
  | e :: rest => e.spell ++ spellElements rest

def Alternatives.spell : Alternatives n → List CodePoint
  | .last elements => spellElements elements
  | .cons elements rest => spellElements elements ++ .ofChar '|' :: rest.spell

end

/-! ### Numbers

All numbers that a spelling holds in decimal. Each of them has to be short enough to be converted.
-/

mutual

def Atom.numbers : Atom n → List Nat
  | .reference i => [i + 1]
  | .group inside => inside.numbers
  | .capture inside => inside.numbers
  | _ => []

def Element.numbers : Element n → List Nat
  | .atom a => a.numbers
  | .repeated a count => a.numbers ++ count.min :: count.max.toList
  | .look _ _ inside => inside.numbers
  | _ => []

def numbersOf : List (Element n) → List Nat
  | [] => []
  | e :: rest => e.numbers ++ numbersOf rest

def Alternatives.numbers : Alternatives n → List Nat
  | .last elements => numbersOf elements
  | .cons elements rest => numbersOf elements ++ rest.numbers

end

def Convertible (numbers : List Nat) : Prop := ∀ m ∈ numbers, (numeral 10 m).length ≤ 4300

/-! ### Groups and levels

The number of capturing groups and the depth of nesting, as functions of the form. -/

mutual

def Atom.captures : Atom n → Nat
  | .group inside => inside.captures
  | .capture inside => inside.captures + 1
  | _ => 0

def Element.captures : Element n → Nat
  | .atom a => a.captures
  | .repeated a _ => a.captures
  | .look _ _ inside => inside.captures
  | _ => 0

def capturesOf : List (Element n) → Nat
  | [] => 0
  | e :: rest => e.captures + capturesOf rest

def Alternatives.captures : Alternatives n → Nat
  | .last elements => capturesOf elements
  | .cons elements rest => capturesOf elements + rest.captures

end

mutual

def Atom.depth : Atom n → Nat
  | .charClass _ _ => 1
  | .group inside => inside.depth + 1
  | .capture inside => inside.depth + 1
  | _ => 0

def Element.depth : Element n → Nat
  | .atom a => a.depth
  | .repeated a _ => a.depth
  | .look _ _ inside => inside.depth + 1
  | _ => 0

def depthOf : List (Element n) → Nat
  | [] => 0
  | e :: rest => max e.depth (depthOf rest)

def Alternatives.depth : Alternatives n → Nat
  | .last elements => depthOf elements
  | .cons elements rest => max (depthOf elements) rest.depth

end

/-! ### Trees

A group gets the next number when it opens, so the functions take the number of groups before. -/

def Part.tree : Part → CharSet
  | character v => .character ⟨.blank, v⟩
  | escape set negated => .escape .blank set negated
  | range low high _ => .range .blank ⟨.blank, low⟩ ⟨.blank, high⟩

mutual

/-- The tree of an atom before which `k` groups have been opened. -/
def Atom.tree (k : Nat) : Atom n → Term
  | .character v => .set (.character ⟨.blank, v⟩)
  | .any => .any .blank
  | .escape set negated => .set (.escape .blank set negated)
  | .reference i => .reference .blank (.number (i + 1))
  | .charClass negated parts => .set (.listing .blank negated false (parts.map Part.tree))
  | .group inside => .group .blank none (inside.trees k)
  | .capture inside => .capture .blank (k + 1) none (inside.trees (k + 1))

def Element.tree (k : Nat) : Element n → Term
  | .atom a => a.tree k
  | .repeated a count => .quantified .blank ⟨count.min, count.max, count.greedy⟩ (a.tree k)
  | .edge e => .edge .blank e
  | .wordBoundary negated => .wordBoundary .blank negated
  | .look direction negated inside => .look .blank direction negated (inside.trees k)

def treesOf (k : Nat) : List (Element n) → List Term
  | [] => []
  | e :: rest => e.tree k :: treesOf (k + e.captures) rest

def Alternatives.trees (k : Nat) : Alternatives n → List Sequence
  | .last elements => [.mk .blank (treesOf k elements)]
  | .cons elements rest => .mk .blank (treesOf k elements) :: rest.trees (k + capturesOf elements)

end

end Form

/-- A form of a pattern: alternatives in which there are as many groups as can be referred to. -/
structure Form where
  groups : Nat
  alternatives : Form.Alternatives groups
  captures_eq : alternatives.captures = groups

namespace Form

def spell (f : Form) : List CodePoint := f.alternatives.spell

/-- The numbers that are written in the form in decimal digits: those of references and bounds. -/
def numbers (f : Form) : List Nat := f.alternatives.numbers

def depth (f : Form) : Nat := f.alternatives.depth

def tree (f : Form) : Pattern := ⟨.blank, f.alternatives.trees 0⟩

variable {n : Nat}

/-! ## Numerals

The digits of a number have the number for their value. Powers of ten show that there are numbers
with any number of digits. -/

/-- A digit is written as a digit of its value. -/
theorem digit?_digitChar {base d : Nat} (hd : d < base) (hbase : base ≤ 16) :
    (CodePoint.ofChar d.digitChar).digit? base = some d := by
  have h : ∀ d < 16, (CodePoint.ofChar d.digitChar).hexValue? = some d := by decide
  rw [CodePoint.digit?, h d (by omega), Option.filter_some, if_pos (by simpa using hd)]

theorem digits_append {base : Nat} {cs cs' : List CodePoint} {ds ds' : List Nat}
    (h : Digits base cs ds) (h' : Digits base cs' ds') : Digits base (cs ++ cs') (ds ++ ds') := by
  rw [Digits, List.map_append, List.map_append, h, h']

/-- A numeral is made of the digits of its number, the first of which is no zero unless there is no
other. -/
theorem digits_numeral {base : Nat} (hlow : 1 < base) (hbase : base ≤ 16) (n : Nat) :
    ∃ d ds, Digits base (numeral base n) (d :: ds) ∧ ofDigits base (d :: ds) = n ∧
      (n ≠ 0 → d ≠ 0) := by
  induction n using Nat.strongRecOn with
  | ind n ih =>
    rcases Nat.lt_or_ge n base with hn | hn
    · refine ⟨n, [], ?_, Nat.zero_add n ▸ by simp [ofDigits], id⟩
      rw [numeral, Nat.toDigits_of_lt_base hn]
      exact .cons (digit?_digitChar hn hbase) rfl
    · -- the last digit is the remainder, and the others are those of the quotient
      have hlt : n / base < n := Nat.div_lt_self (by omega) hlow
      have hquotient : n / base ≠ 0 := Nat.pos_iff_ne_zero.mp (Nat.div_pos hn (by omega))
      have hmod : n % base < base := Nat.mod_lt n (by omega)
      obtain ⟨d, ds, hds, hvalue, hne⟩ := ih (n / base) hlt
      have hlast : Digits base [.ofChar (n % base).digitChar] [n % base] :=
        .cons (digit?_digitChar hmod hbase) rfl
      refine ⟨d, ds ++ [n % base], ?_, ?_, fun _ => hne hquotient⟩
      · rw [numeral, Nat.toDigits_of_base_le hlow hn, List.map_append]
        exact digits_append hds hlast
      · rw [ofDigits] at hvalue
        rw [ofDigits, ← List.cons_append, List.foldl_append, hvalue]
        exact Nat.div_add_mod' n base

theorem numeral_ne_nil (base m : Nat) : numeral base m ≠ [] := by
  rw [numeral, ne_eq, List.map_eq_nil_iff]
  exact Nat.toDigits_ne_nil

/-- A power of ten is written with as many zeros as its exponent says, which shows how long numbers
can be. -/
theorem numeral_tenPower (k : Nat) :
    numeral 10 (10 ^ k) = .ofChar '1' :: List.replicate k (.ofChar '0') := by
  induction k with
  | zero => rfl
  | succ k ih =>
    have hle : 10 ≤ 10 ^ (k + 1) := Nat.le_self_pow (Nat.succ_ne_zero k) 10
    have hlast : 10 ^ (k + 1) % 10 = 0 := by rw [Nat.pow_succ, Nat.mul_mod_left]
    have hothers : 10 ^ (k + 1) / 10 = 10 ^ k := by
      rw [Nat.pow_succ, Nat.mul_div_cancel _ (by decide)]
    rw [numeral, Nat.toDigits_of_base_le (by decide) hle, List.map_append, hothers, hlast,
      ← numeral, ih, List.replicate_succ']
    rfl

theorem isSome_digit?_of_mem_numeral {base m : Nat} (hlow : 1 < base) (hbase : base ≤ 16)
    {c : CodePoint} (hc : c ∈ numeral base m) : (c.digit? base).isSome = true := by
  obtain ⟨d, ds, hds, -⟩ := digits_numeral hlow hbase m
  exact hds.isSome_of_mem hc

theorem convertible_append {ms ms' : List Nat} :
    Convertible (ms ++ ms') ↔ Convertible ms ∧ Convertible ms' := List.forall_mem_append

/-! ## Plain signs

The signs of a spelling are ASCII, so code points and code units are the same. -/

section Plain

variable {c : CodePoint} {cs ds : List CodePoint}

theorem isPlain_cons (hc : c.isPlain = true) (h : cs.all CodePoint.isPlain = true) :
    (c :: cs).all CodePoint.isPlain = true := by
  rw [List.all_cons, hc, h, Bool.and_self]

theorem isPlain_append (h : cs.all CodePoint.isPlain = true)
    (h' : ds.all CodePoint.isPlain = true) : (cs ++ ds).all CodePoint.isPlain = true := by
  rw [List.all_append, h, h', Bool.and_self]

theorem isPlain_enclose (h : cs.all CodePoint.isPlain = true)
    (h' : ds.all CodePoint.isPlain = true) : (enclose cs ds).all CodePoint.isPlain = true :=
  isPlain_append (isPlain_append h h') rfl

/-- Numbers are written in plain characters. -/
theorem isPlain_numeral {base m : Nat} (hlow : 1 < base) (hbase : base ≤ 16) :
    (numeral base m).all CodePoint.isPlain = true := by
  rw [List.all_eq_true]
  intro c hc
  have hdigit := CodePoint.isSome_hexValue? (isSome_digit?_of_mem_numeral hlow hbase hc)
  have hlt : c.val < 0xD800 := by
    unfold CodePoint.hexValue? at hdigit
    grind
  exact decide_eq_true hlt

theorem isPlain_spellCharacter (v : CodePoint) :
    (spellCharacter v).all CodePoint.isPlain = true :=
  isPlain_cons rfl (isPlain_cons rfl (isPlain_cons rfl
    (isPlain_append (isPlain_numeral (by decide) (by decide)) rfl)))

theorem isPlain_escape (set : EscapeSet) (negated : Bool) :
    List.all [.ofChar '\\', escapeLetter set negated] CodePoint.isPlain = true := by
  cases set <;> cases negated <;> rfl

theorem Part.isPlain_spell (x : Part) : x.spell.all CodePoint.isPlain = true := by
  cases x with
  | character v => exact isPlain_spellCharacter v
  | escape set negated => exact isPlain_escape set negated
  | range low high _ =>
    exact isPlain_append (isPlain_spellCharacter low)
      (isPlain_cons rfl (isPlain_spellCharacter high))

theorem Count.isPlain_spell (r : Count) : r.spell.all CodePoint.isPlain = true := by
  have hmax : (r.max.elim [] (numeral 10)).all CodePoint.isPlain = true := by
    cases r.max with
    | none => rfl
    | some m => exact isPlain_numeral (by decide) (by decide)
  have hbounds : r.spellBounds.all CodePoint.isPlain = true :=
    isPlain_cons rfl (isPlain_append (isPlain_numeral (by decide) (by decide))
      (isPlain_cons rfl (isPlain_append hmax rfl)))
  rw [spell]
  split
  · exact hbounds
  · exact isPlain_append hbounds rfl

theorem isPlain_classText (negated : Bool) : (classText negated).all CodePoint.isPlain = true := by
  cases negated <;> rfl

theorem isPlain_lookText (direction : Direction) (negated : Bool) :
    (lookText direction negated).all CodePoint.isPlain = true := by
  cases direction <;> cases negated <;> rfl

end Plain

mutual

/-- Atoms are written in plain characters, so their text can be read by code units or by code points
alike. -/
theorem Atom.isPlain_spell : (a : Atom n) → a.spell.all CodePoint.isPlain = true
  | .character v => isPlain_spellCharacter v
  | .any => rfl
  | .escape set negated => isPlain_escape set negated
  | .reference _ => isPlain_cons rfl (isPlain_numeral (by decide) (by decide))
  | .charClass negated parts => by
    have hparts : (parts.flatMap Part.spell).all CodePoint.isPlain = true := by
      rw [List.all_flatMap, List.all_eq_true]
      exact fun x _ => x.isPlain_spell
    exact isPlain_append (isPlain_append (isPlain_classText negated) hparts) rfl
  | .group inside => isPlain_enclose rfl inside.isPlain_spell
  | .capture inside => isPlain_enclose rfl inside.isPlain_spell

theorem Element.isPlain_spell : (e : Element n) → e.spell.all CodePoint.isPlain = true
  | .atom a => a.isPlain_spell
  | .repeated a count => isPlain_append a.isPlain_spell count.isPlain_spell
  | .edge e => by cases e <;> rfl
  | .wordBoundary negated => by cases negated <;> rfl
  | .look direction negated inside =>
    isPlain_enclose (isPlain_lookText direction negated) inside.isPlain_spell

theorem isPlain_spellElements : (es : List (Element n)) →
    (spellElements es).all CodePoint.isPlain = true
  | [] => rfl
  | e :: es => isPlain_append e.isPlain_spell (isPlain_spellElements es)

/-- All signs of a spelling are plain. -/
theorem Alternatives.isPlain_spell : (x : Alternatives n) → x.spell.all CodePoint.isPlain = true
  | .last es => isPlain_spellElements es
  | .cons es rest =>
    isPlain_append (isPlain_spellElements es) (isPlain_cons rfl rest.isPlain_spell)

end

/-! ## What follows an element

Digits, a brace or a question mark might be read on with what stands before them. No element of a
form begins with one of these. -/

/-- No character that an element could go on with lies ahead, but one that begins an element or
separates alternatives, if any. -/
def Apart (c : Cursor) : Prop :=
  ∀ k, c.current = some k → k.isOneOf ['\\', '.', '^', '$', '(', '[', '|', ')'] = true

/-- An atom begins with a backslash, a dot, a parenthesis or a bracket. -/
theorem Atom.spell_begins (a : Atom n) :
    ∃ k cs, a.spell = k :: cs ∧ k.isOneOf ['\\', '.', '(', '['] = true := by
  cases a with
  | charClass negated parts => cases negated <;> exact ⟨_, _, rfl, rfl⟩
  | _ => exact ⟨_, _, rfl, rfl⟩

/-- An element begins with a sign that a number cannot go on with. -/
theorem Element.spell_begins (e : Element n) :
    ∃ k cs, e.spell = k :: cs ∧ k.isOneOf ['\\', '.', '^', '$', '(', '[', '|', ')'] = true := by
  have hatom : ∀ a : Atom n, ∃ k cs, a.spell = k :: cs ∧
      k.isOneOf ['\\', '.', '^', '$', '(', '[', '|', ')'] = true := by
    intro a
    obtain ⟨k, cs, h, hk⟩ := a.spell_begins
    exact ⟨k, cs, h, CodePoint.of_isOneOf _ hk rfl⟩
  cases e with
  | atom a => exact hatom a
  | repeated a count =>
    obtain ⟨k, cs, h, hk⟩ := hatom a
    exact ⟨k, cs ++ count.spell, by rw [spell, h, List.cons_append], hk⟩
  | edge e => cases e <;> exact ⟨_, _, rfl, rfl⟩
  | wordBoundary negated => exact ⟨_, _, rfl, rfl⟩
  | look direction negated inside =>
    cases direction <;> cases negated <;> exact ⟨_, _, rfl, rfl⟩

theorem Part.spell_begins (x : Part) : ∃ cs, x.spell = .ofChar '\\' :: cs := by
  cases x <;> exact ⟨_, rfl⟩

theorem Count.spell_begins (r : Count) : ∃ cs, r.spell = .ofChar '{' :: cs := by
  rw [spell]
  split <;> exact ⟨_, rfl⟩

section Apart

variable {c d : Cursor}

/-- A sign that begins an element, or ends one, keeps apart what comes before it. -/
theorem Apart.of_current {k : CodePoint} (hc : c.current = some k)
    (hk : k.isOneOf ['\\', '.', '^', '$', '(', '[', '|', ')'] = true) : Apart c := by
  intro l hl
  rw [hc] at hl
  cases hl
  exact hk

theorem Apart.current_ne {k : CodePoint} (h : Apart c)
    (hk : k.isOneOf ['\\', '.', '^', '$', '(', '[', '|', ')'] = false) : c.current ≠ some k := by
  intro hc
  rw [h k hc] at hk
  cases hk

/-- Where elements are kept apart, no quantifier begins. -/
theorem Apart.atQuantifier_eq_false {s : State} (h : Apart s.cursor) : s.atQuantifier = false := by
  rw [State.atQuantifier]
  cases hc : s.cursor.current with
  | none => rfl
  | some k =>
    exact CodePoint.isOneOf_eq_false (·.isOneOf ['\\', '.', '^', '$', '(', '[', '|', ')']) (h k hc)
      rfl

theorem Apart.digit?_eq_none (h : Apart c) :
    c.current.bind (CodePoint.digit? 10) = none := by
  cases hc : c.current with
  | none => rfl
  | some k =>
    have hk := CodePoint.of_isOneOf (fun k => (k.digit? 10).isNone) (h k hc) (by decide)
    exact Option.isNone_iff_eq_none.mp hk

/-- Elements keep apart what comes before them. -/
theorem apart_of_elements {es : List (Element n)} (h : c.Reads (spellElements es) d)
    (hd : Apart d) : Apart c := by
  cases es with
  | nil =>
    obtain rfl := Cursor.reads_nil.mp h
    exact hd
  | cons e es =>
    obtain ⟨k, cs, he, hk⟩ := e.spell_begins
    rw [spellElements, he] at h
    exact .of_current h.current_eq hk

/-- Alternatives keep apart what comes before them. -/
theorem apart_of_alternatives {x : Alternatives n} (h : c.Reads x.spell d) (hd : Apart d) :
    Apart c := by
  cases x with
  | last es => exact apart_of_elements h hd
  | cons es rest =>
    obtain ⟨b, hes, hbar⟩ := Cursor.reads_append.mp h
    exact apart_of_elements hes (.of_current hbar.current_eq rfl)

end Apart

/-! ## Groups that are counted ahead

The scan for capturing groups passes over all that is spelled but their parentheses, so it counts
the groups of the form. -/

section Scan

variable {c d : Cursor} {cs : List CodePoint}

theorem unmarked_numeral {base m : Nat} (hlow : 1 < base) (hbase : base ≤ 16) :
    Unmarked (numeral base m) :=
  .digits fun _ hc => isSome_digit?_of_mem_numeral hlow hbase hc

/-- A character is written without signs but its backslash. -/
theorem unmarked_spellCharacter (v : CodePoint) : Unmarked (spellCharacter v) :=
  .escaped 'u' (.cons rfl ((unmarked_numeral (by decide) (by decide)).append (.single rfl)))

/-- A part of a class is written without signs that are not escaped. -/
theorem Part.unmarked_spell (x : Part) : Unmarked x.spell := by
  cases x with
  | character v => exact unmarked_spellCharacter v
  | escape set negated => exact .escaped _ .nil
  | range low high _ =>
    exact (unmarked_spellCharacter low).append (.cons rfl (unmarked_spellCharacter high))

theorem unmarked_parts (xs : List Part) : Unmarked (xs.flatMap Part.spell) := by
  induction xs with
  | nil => exact .nil
  | cons x xs ih => exact x.unmarked_spell.append ih

theorem Count.unmarked_spell (r : Count) : Unmarked r.spell := by
  have hmax : Unmarked (r.max.elim [] (numeral 10)) := by
    cases r.max with
    | none => exact .nil
    | some m => exact unmarked_numeral (by decide) (by decide)
  have hbounds : Unmarked r.spellBounds :=
    .cons rfl ((unmarked_numeral (by decide) (by decide)).append
      (.cons rfl (hmax.append (.single rfl))))
  rw [spell]
  split
  · exact hbounds
  · exact hbounds.append (.single rfl)

theorem scan_unmarked (h : Unmarked cs) (hr : c.Reads cs d) :
    countCaptures false false c.characters = countCaptures false false d.characters :=
  flatScan_countCaptures.pass h hr false

/-- No group is counted in a class. -/
theorem scan_class {negated : Bool} (xs : List Part)
    (hr : c.Reads (classText negated ++ xs.flatMap Part.spell ++ [.ofChar ']']) d) :
    countCaptures false false c.characters = countCaptures false false d.characters := by
  obtain ⟨b, hr, hclose⟩ := Cursor.reads_append.mp hr
  obtain ⟨a, hopen, hparts⟩ := Cursor.reads_append.mp hr
  have hinside :
      countCaptures false false c.characters = countCaptures true false a.characters := by
    cases negated with
    | false => exact flatScan_countCaptures.openClass hopen false
    | true =>
      obtain ⟨b, hbracket, hcaret⟩ := Cursor.reads_append.mp
        (show c.Reads ([.ofChar '['] ++ [.ofChar '^']) a from hopen)
      exact (flatScan_countCaptures.openClass hbracket false).trans
        (flatScan_countCaptures.pass (.single rfl) hcaret true)
  rw [hinside, flatScan_countCaptures.pass (unmarked_parts xs) hparts true]
  exact flatScan_countCaptures.closeClass hclose true

/-- What stands in parentheses that open no capturing group. -/
theorem scan_enclose {n : Nat} {opening : List CodePoint} {inside : List CodePoint}
    (hopening :
      ∀ rest, countCaptures false false (opening ++ rest) = countCaptures false false rest)
    (hinside : ∀ {a b : Cursor}, a.Reads inside b → b.current = some (.ofChar ')') →
      countCaptures false false a.characters = n + countCaptures false false b.characters)
    (hr : c.Reads (enclose opening inside) d) :
    countCaptures false false c.characters = n + countCaptures false false d.characters := by
  obtain ⟨b, hr, hclose⟩ := Cursor.reads_append.mp hr
  obtain ⟨a, hopen, hr⟩ := Cursor.reads_append.mp hr
  rw [hopen.characters, hopening, hinside hr hclose.current_eq, scan_unmarked (.single rfl) hclose]

end Scan

mutual

/-- The count of groups in front of an atom is that of the groups in it and of those behind it. -/
theorem Atom.scan : (a : Atom n) → ∀ {c d : Cursor}, c.Reads a.spell d →
    countCaptures false false c.characters = a.captures + countCaptures false false d.characters
  | .character v, c, d, hr =>
    (scan_unmarked (unmarked_spellCharacter v) hr).trans (Nat.zero_add _).symm
  | .any, c, d, hr => (scan_unmarked (.single rfl) hr).trans (Nat.zero_add _).symm
  | .escape set negated, c, d, hr =>
    (scan_unmarked (.escaped _ .nil) hr).trans (Nat.zero_add _).symm
  -- the digits stand behind a backslash, so none of them is taken for a parenthesis
  | .reference i, c, d, hr => by
    have hnumeral : Unmarked (.ofChar '\\' :: numeral 10 (i + 1)) :=
      .escaped_digits (numeral_ne_nil 10 _) fun _ hc =>
        isSome_digit?_of_mem_numeral (by decide : 1 < 10) (by decide) hc
    exact (scan_unmarked hnumeral hr).trans (Nat.zero_add _).symm
  | .charClass negated parts, c, d, hr => (scan_class parts hr).trans (Nat.zero_add _).symm
  | .group x, c, d, hr => by
    refine scan_enclose (fun rest => ?_) (fun h _ => x.scan h) hr
    exact scan_parenthesis [.ofChar '?', .ofChar ':'] rfl (.cons rfl (.single rfl))
  | .capture x, c, d, hr => by
    obtain ⟨b, hr, hclose⟩ := Cursor.reads_append.mp hr
    obtain ⟨a, hopen, hr⟩ := Cursor.reads_append.mp hr
    have hapart := apart_of_alternatives hr (.of_current hclose.current_eq rfl)
    -- no question mark follows the parenthesis, since no alternative begins with one
    have hopens : opensCapture ([] ++ a.characters) = true := by
      refine opensCapture_of_ne ?_
      rw [List.nil_append, ← Cursor.current_eq_head?]
      exact hapart.current_ne rfl
    have hscan := scan_capture [] hopens .nil
    rw [hopen.characters]
    rw [List.nil_append] at hscan
    refine hscan.trans ?_
    rw [x.scan hr, scan_unmarked (.single rfl) hclose, Atom.captures]
    omega

theorem Element.scan : (e : Element n) → ∀ {c d : Cursor}, c.Reads e.spell d →
    countCaptures false false c.characters = e.captures + countCaptures false false d.characters
  | .atom a, c, d, hr => a.scan hr
  | .repeated a r, c, d, hr => by
    obtain ⟨b, ha, hr⟩ := Cursor.reads_append.mp hr
    rw [a.scan ha, scan_unmarked r.unmarked_spell hr, Element.captures]
  | .edge e, c, d, hr => by
    refine (scan_unmarked ?_ hr).trans (Nat.zero_add _).symm
    cases e <;> exact .single rfl
  | .wordBoundary negated, c, d, hr =>
    (scan_unmarked (.escaped _ .nil) hr).trans (Nat.zero_add _).symm
  | .look direction negated x, c, d, hr =>
    scan_enclose (scan_lookText direction negated) (fun h _ => x.scan h) hr

theorem scan_elements : (es : List (Element n)) → ∀ {c d : Cursor}, c.Reads (spellElements es) d →
    countCaptures false false c.characters = capturesOf es + countCaptures false false d.characters
  | [], c, d, hr => by
    obtain rfl := Cursor.reads_nil.mp hr
    exact (Nat.zero_add _).symm
  | e :: es, c, d, hr => by
    obtain ⟨b, he, hr⟩ := Cursor.reads_append.mp hr
    rw [e.scan he, scan_elements es hr, capturesOf, Nat.add_assoc]

/-- The count of groups in alternatives is the number of groups in them. -/
theorem Alternatives.scan : (x : Alternatives n) → ∀ {c d : Cursor}, c.Reads x.spell d →
    countCaptures false false c.characters = x.captures + countCaptures false false d.characters
  | .last es, c, d, hr => scan_elements es hr
  | .cons es rest, c, d, hr => by
    obtain ⟨b, hes, hr⟩ := Cursor.reads_append.mp hr
    obtain ⟨a, hbar, hr⟩ := Cursor.reads_append.mp
      (show b.Reads ([.ofChar '|'] ++ rest.spell) d from hr)
    rw [scan_elements es hes, scan_unmarked (.single rfl) hbar, rest.scan hr,
      Alternatives.captures, Nat.add_assoc]

end

/-! ## Names

There are no names in forms. -/

mutual

/-- No form refers by name. -/
theorem Atom.referredNames_tree (k : Nat) : (a : Atom n) → (a.tree k).referredNames = []
  | .character _ => by simp [Atom.tree, Term.referredNames]
  | .any => by simp [Atom.tree, Term.referredNames]
  | .escape .. => by simp [Atom.tree, Term.referredNames]
  | .reference _ => by simp [Atom.tree, Term.referredNames]
  | .charClass .. => by simp [Atom.tree, Term.referredNames]
  | .group inside => by rw [Atom.tree, Term.referredNames, inside.referredNames_trees]
  | .capture inside => by rw [Atom.tree, Term.referredNames, inside.referredNames_trees]

theorem Element.referredNames_tree (k : Nat) : (e : Element n) → (e.tree k).referredNames = []
  | .atom a => by rw [Element.tree, a.referredNames_tree]
  | .repeated a _ => by rw [Element.tree, Term.referredNames, a.referredNames_tree]
  | .edge _ => by simp [Element.tree, Term.referredNames]
  | .wordBoundary _ => by simp [Element.tree, Term.referredNames]
  | .look _ _ inside => by rw [Element.tree, Term.referredNames, inside.referredNames_trees]

theorem referredNames_treesOf (k : Nat) : (es : List (Element n)) →
    Term.referredNamesOfTerms (treesOf k es) = []
  | [] => by rw [treesOf, Term.referredNamesOfTerms]
  | e :: es => by
    rw [treesOf, Term.referredNamesOfTerms, e.referredNames_tree, referredNames_treesOf _ es,
      List.append_nil]

theorem Alternatives.referredNames_trees (k : Nat) : (x : Alternatives n) →
    Term.referredNamesOfAll (x.trees k) = []
  | .last es => by
    rw [Alternatives.trees, Term.referredNamesOfAll, Term.referredNamesOfSequence,
      referredNames_treesOf, Term.referredNamesOfAll, List.append_nil]
  | .cons es rest => by
    rw [Alternatives.trees, Term.referredNamesOfAll, Term.referredNamesOfSequence,
      referredNames_treesOf, rest.referredNames_trees, List.append_nil]

end

/-! ## Nesting

The depth of the tree is the depth of the form, since characters and ranges nest nothing. -/

/-- Parts of classes do not nest. -/
theorem Part.depth_tree (x : Part) : (Node.charSet x.tree).depth = 0 := by
  cases x with
  | character v => exact Node.depth_leaf rfl rfl
  | escape set negated => exact Node.depth_leaf rfl rfl
  | range low high _ =>
    have hcharacter : ∀ c, (Node.charSet (.character c)).depth = 0 :=
      fun _ => Node.depth_leaf rfl rfl
    rw [tree, Node.depth_eq, Node.children_range, List.map_cons, List.map_cons, hcharacter,
      hcharacter]
    rfl

theorem depth_parts (xs : List Part) :
    (((xs.map Part.tree).map Node.charSet).map Node.depth).foldr max 0 = 0 := by
  refine Nat.le_zero.mp (Node.foldr_max_le.mpr ?_)
  rw [List.forall_mem_map, List.forall_mem_map, List.forall_mem_map]
  exact fun x _ => Nat.le_of_eq x.depth_tree

theorem depth_sequence (es : List Term) :
    (Node.sequence (.mk .blank es)).depth = ((es.map Node.term).map Node.depth).foldr max 0 := by
  rw [Node.depth_eq, Node.children_sequence]
  exact Nat.zero_add _

mutual

/-- The tree of an atom is as deep as the atom. -/
theorem Atom.depth_tree (k : Nat) : (a : Atom n) → (Node.term (a.tree k)).depth = a.depth
  | .character _ => Node.depth_leaf rfl rfl
  | .any => Node.depth_leaf rfl rfl
  | .escape .. => Node.depth_leaf rfl rfl
  | .reference _ => Node.depth_leaf rfl rfl
  | .charClass negated parts => by
    have hchildren : (Node.term ((Atom.charClass negated parts : Atom n).tree k)).children =
        (parts.map Part.tree).map Node.charSet :=
      Node.children_listing .blank negated false _
    rw [Node.depth_eq, hchildren, depth_parts]
    rfl
  | .group inside => by
    rw [Atom.tree, Node.depth_eq, Node.children_group_none, inside.depth_trees, Atom.depth,
      Nat.add_comm]
    rfl
  | .capture inside => by
    rw [Atom.tree, Node.depth_eq, Node.children_capture, inside.depth_trees, Atom.depth,
      Nat.add_comm]
    rfl

theorem Element.depth_tree (k : Nat) : (e : Element n) → (Node.term (e.tree k)).depth = e.depth
  | .atom a => a.depth_tree k
  | .repeated a _ => by
    rw [Element.tree, Node.depth_eq, Node.children_quantified, List.map_singleton, a.depth_tree k]
    exact (Nat.zero_add _).trans (Nat.max_zero _)
  | .edge _ => Node.depth_leaf rfl rfl
  | .wordBoundary _ => Node.depth_leaf rfl rfl
  | .look _ _ inside => by
    rw [Element.tree, Node.depth_eq, Node.children_look, inside.depth_trees, Element.depth,
      Nat.add_comm]
    rfl

theorem depth_treesOf (k : Nat) : (es : List (Element n)) →
    (((treesOf k es).map Node.term).map Node.depth).foldr max 0 = depthOf es
  | [] => by rw [treesOf]; rfl
  | e :: es => by
    rw [treesOf, List.map_cons, List.map_cons, List.foldr_cons, e.depth_tree k,
      depth_treesOf _ es, depthOf]

/-- The trees of alternatives are as deep as the alternatives. -/
theorem Alternatives.depth_trees (k : Nat) : (x : Alternatives n) →
    (((x.trees k).map Node.sequence).map Node.depth).foldr max 0 = x.depth
  | .last es => by
    rw [Alternatives.trees, List.map_singleton, List.map_singleton, depth_sequence,
      depth_treesOf k es, Alternatives.depth]
    exact Nat.max_zero _
  | .cons es rest => by
    rw [Alternatives.trees, List.map_cons, List.map_cons, List.foldr_cons, depth_sequence,
      depth_treesOf k es, rest.depth_trees, Alternatives.depth]

end

/-- A form nests as deeply as its tree. -/
theorem depth_tree (f : Form) : (Node.pattern f.tree).depth = f.depth := by
  rw [Node.depth_eq, Node.children_pattern, tree, f.alternatives.depth_trees]
  exact Nat.zero_add _

end Form

end EcmaPattern
