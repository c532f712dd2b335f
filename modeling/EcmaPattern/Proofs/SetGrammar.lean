import EcmaPattern.Proofs.Derivation

/-!
# The grammar of class sets

The classes of the set grammar as a relation between two places in a text and the tree of what
stands between them. No parser is mentioned, and where a rule depends on what follows, it says so:
a character that is reserved when it stands twice, a zero before a digit, an escaped lead surrogate
before an escaped trail, two ampersands before a third.

`Derives` has one constructor for each rule. A caret right after the opening bracket always negates
the class, so a class that is not negated may not begin with one. What is derived takes up at least
as many units as its classes are deep (`Derives.nesting_le`).
-/

namespace EcmaPattern

open EcmaPattern.Parser

/-- Steps that lead from place to place, with what each of them yields. -/
inductive Cursor.Run {α : Type} (step : Cursor → α → Cursor → Prop) :
    Cursor → List α → Cursor → Prop
  | nil (c : Cursor) : Run step c [] c
  | cons {c d e : Cursor} {a : α} {as : List α} (head : step c a d) (tail : Run step d as e) :
      Run step c (a :: as) e

/-- Runs compose. -/
theorem Cursor.Run.append {α : Type} {step : Cursor → α → Cursor → Prop} {c d e : Cursor}
    {as bs : List α} (h : Run step c as d) (h' : Run step d bs e) : Run step c (as ++ bs) e := by
  induction h with
  | nil c => exact h'
  | cons head _ ih => exact .cons head (ih h')

namespace CharSet

def isClass : CharSet → Bool
  | listing .. => true
  | expression .. => true
  | _ => false

mutual

def nesting : CharSet → Nat
  | listing _ _ _ elements => nestingOfAll elements + 1
  | expression _ _ contents => contents.nesting + 1
  | operation _ _ left right => max left.nesting right.nesting
  | character _ => 0
  | escape _ _ _ => 0
  | property _ _ _ => 0
  | range _ _ _ => 0
  | strings _ _ => 0

def nestingOfAll : List CharSet → Nat
  | [] => 0
  | x :: rest => max x.nesting (nestingOfAll rest)

end

end CharSet

namespace SetGrammar

/-! ## Characters

A character is plain, escaped, or one of the punctuators that may be escaped in the set grammar
alone. Each constructor carries what must not follow. -/

/-- An escaped trail surrogate lies ahead. -/
def EscapedTrail (c : Cursor) : Prop :=
  ∃ cs ds d, c.Reads (.ofChar '\\' :: .ofChar 'u' :: cs) d ∧ Digits 16 cs ds ∧ cs.length = 4 ∧
    (CodePoint.ofNat (ofDigits 16 ds)).isTrail = true

/-- What may follow a backslash to stand for one character, where patterns are read by code
points. -/
inductive CharacterEscape : Cursor → CodePoint → Cursor → Prop
  | control {c d : Cursor} {k v : CodePoint} (hr : c.Reads [k] d) (hk : controlValue? k = some v) :
      CharacterEscape c v d
  | letter {c d : Cursor} {k : CodePoint} (hr : c.Reads ['c', k] d)
      (hk : k.isLatinLetter = true) : CharacterEscape c (.ofNat (k.val % 0x20)) d
  | zero {c d : Cursor} (hr : c.Reads ['0'] d)
      (hnext : d.current.any CodePoint.isDecimalDigit = false) : CharacterEscape c (.ofNat 0) d
  | hex {c d : Cursor} {cs : List CodePoint} {ds : List Nat} (hr : c.Reads (.ofChar 'x' :: cs) d)
      (hcs : Digits 16 cs ds) (hl : cs.length = 2) : CharacterEscape c (.ofNat (ofDigits 16 ds)) d
  | pair {c d : Cursor} {cs₁ cs₂ : List CodePoint} {ds₁ ds₂ : List Nat}
      (hr : c.Reads (.ofChar 'u' :: (cs₁ ++ .ofChar '\\' :: .ofChar 'u' :: cs₂)) d)
      (h₁ : Digits 16 cs₁ ds₁) (h₂ : Digits 16 cs₂ ds₂) (hl₁ : cs₁.length = 4)
      (hl₂ : cs₂.length = 4) (hlead : (CodePoint.ofNat (ofDigits 16 ds₁)).isLead = true)
      (htrail : (CodePoint.ofNat (ofDigits 16 ds₂)).isTrail = true) :
      CharacterEscape c (.ofPair (.ofNat (ofDigits 16 ds₁)) (.ofNat (ofDigits 16 ds₂))) d
  | unit {c d : Cursor} {cs : List CodePoint} {ds : List Nat}
      (hr : c.Reads (.ofChar 'u' :: cs) d) (hcs : Digits 16 cs ds) (hl : cs.length = 4)
      (hnext : (CodePoint.ofNat (ofDigits 16 ds)).isLead = true → ¬ EscapedTrail d) :
      CharacterEscape c (.ofNat (ofDigits 16 ds)) d
  | braced {c d : Cursor} {cs : List CodePoint} {ds : List Nat} {v : CodePoint}
      (hr : c.Reads (.ofChar 'u' :: .ofChar '{' :: (cs ++ [.ofChar '}'])) d)
      (hcs : Digits 16 cs ds) (hne : ds ≠ [])
      (hv : CodePoint.ofInt? (ofDigits 16 ds) = some v) : CharacterEscape c v d
  | identity {c d : Cursor} {k : CodePoint} (hr : c.Reads [k] d)
      (hk : (k.isSyntaxCharacter || k.isOneOf ['/']) = true) : CharacterEscape c k d

/-- A character of a class, plain or escaped. -/
inductive SetCharacter : Cursor → Character → Cursor → Prop
  | plain {c d : Cursor} {v : CodePoint} (hr : c.Reads [v] d) (hv : v.isClassSetSyntax = false)
      (hnext : v.isClassSetDoublePunctuator = true → d.current ≠ some v) :
      SetCharacter c ⟨.between c d, v⟩ d
  | escaped {b c d : Cursor} {v : CodePoint} (hb : c.Reads ['\\'] b) (h : CharacterEscape b v d) :
      SetCharacter c ⟨.between c d, v⟩ d
  | punctuator {c d : Cursor} {v : CodePoint} (hr : c.Reads ['\\', v] d)
      (hv : v.isClassSetPunctuator = true) : SetCharacter c ⟨.between c d, v⟩ d
  | backspace {c d : Cursor} (hr : c.Reads ['\\', 'b'] d) :
      SetCharacter c ⟨.between c d, .ofNat 0x08⟩ d

/-! ## Operands without classes

Escapes for sets, with the names of properties spelled out, and quoted strings. -/

def word (cs : List CodePoint) : String := .ofList (cs.filterMap CodePoint.toChar?)

/-- What may stand between the braces of a property escape. -/
inductive PropertyText (e : Edition) : List CodePoint → Property → Prop
  | pair {ns vs : List CodePoint} {p : Property} (hns : ns ≠ [])
      (hn : ∀ k ∈ ns, k.isPropertyNameCharacter = true) (hvs : vs ≠ [])
      (hv : ∀ k ∈ vs, k.isPropertyValueCharacter = true)
      (hp : Property.ofPair? e (word ns) (word vs) = some p) :
      PropertyText e (ns ++ .ofChar '=' :: vs) p
  | lone {ns : List CodePoint} {p : Property} (hns : ns ≠ [])
      (hn : ∀ k ∈ ns, k.isPropertyValueCharacter = true)
      (hp : Property.ofName? e true (word ns) = some p) : PropertyText e ns p

/-- A set escape with its backslash. A property of strings has no complement. -/
inductive SetEscape (e : Edition) : Cursor → CharSet → Cursor → Prop
  | letter {c d : Cursor} {k : CodePoint} {set : EscapeSet} {negated : Bool}
      (hr : c.Reads ['\\', k] d) (hk : escapeSet? k = some (set, negated)) :
      SetEscape e c (.escape (.between c d) set negated) d
  | property {c d : Cursor} {k : CodePoint} {ns : List CodePoint} {p : Property} {negated : Bool}
      (hr : c.Reads (.ofChar '\\' :: k :: .ofChar '{' :: (ns ++ [.ofChar '}'])) d)
      (hk : propertyLetter? k = some negated) (hp : PropertyText e ns p)
      (hs : (negated && p.strings) = false) :
      SetEscape e c (.property (.between c d) p negated) d

/-- Strings with bars between them. -/
inductive QuotedStrings : Cursor → List ClassString → Cursor → Prop
  | last {c d : Cursor} {cs : List Character} (h : Cursor.Run SetCharacter c cs d) :
      QuotedStrings c [⟨.between c d, cs⟩] d
  | cons {b c d e : Cursor} {cs : List Character} {xs : List ClassString}
      (h : Cursor.Run SetCharacter c cs d) (hbar : d.Reads ['|'] b)
      (hs : QuotedStrings b xs e) : QuotedStrings c (⟨.between c d, cs⟩ :: xs) e

/-- Strings as an operand. -/
inductive Quotation : Cursor → CharSet → Cursor → Prop
  | mk {a b c d : Cursor} {xs : List ClassString} (hopen : c.Reads ['\\', 'q', '{'] a)
      (h : QuotedStrings a xs b) (hclose : b.Reads ['}'] d) :
      Quotation c (.strings (.between c d) xs) d

/-! ## Classes

The symbols of the recursion are operands, items of a union, chains of operations, lists of items,
and classes. Operations of one kind nest to the left. -/

/-- What a class begins with. A caret there always negates it. -/
def Opening (negated : Bool) (c d : Cursor) : Prop :=
  c.Reads (classText negated) d ∧ (negated = false → d.current ≠ some (.ofChar '^'))

/-- The sign of a set operation. A third ampersand may not follow two. -/
def OperationSign (op : SetOperation) (c d : Cursor) : Prop :=
  c.Reads [.ofChar (operationSign op), .ofChar (operationSign op)] d ∧
    (op = .intersection → d.current ≠ some (.ofChar '&'))

/-- The parts of a class, each with its tree. -/
inductive Symbol where
  | operand (x : CharSet)
  | item (x : CharSet)
  | items (xs : List CharSet)
  | operations (op : SetOperation) (x : CharSet)
  | charClass (x : CharSet)

/-- The rules for classes. A set operation has the operations before it on its left. -/
inductive Derives (e : Edition) : Cursor → Symbol → Cursor → Prop
  | nested {c d : Cursor} {x : CharSet} (h : Derives e c (.charClass x) d) :
      Derives e c (.operand x) d
  | setEscape {c d : Cursor} {x : CharSet} (h : SetEscape e c x d) : Derives e c (.operand x) d
  | strings {c d : Cursor} {x : CharSet} (h : Quotation c x d) : Derives e c (.operand x) d
  | character {c d : Cursor} {ch : Character} (h : SetCharacter c ch d) :
      Derives e c (.operand (.character ch)) d
  | range {a b c d : Cursor} {first last : Character} (hfirst : SetCharacter c first a)
      (hdash : a.Reads ['-'] b) (hlast : SetCharacter b last d) (hle : first.value ≤ last.value) :
      Derives e c (.item (.range (.between c d) first last)) d
  | single {c d : Cursor} {x : CharSet} (h : Derives e c (.operand x) d) : Derives e c (.item x) d
  | noItem (c : Cursor) : Derives e c (.items []) c
  | consItem {b c d : Cursor} {x : CharSet} {xs : List CharSet} (h : Derives e c (.item x) b)
      (hs : Derives e b (.items xs) d) : Derives e c (.items (x :: xs)) d
  | operation {a b c d : Cursor} {op : SetOperation} {x y : CharSet}
      (hx : Derives e c (.operand x) a) (hsign : OperationSign op a b)
      (hy : Derives e b (.operand y) d) :
      Derives e c (.operations op (.operation (.between c d) op x y)) d
  | nextOperation {a b c d : Cursor} {op : SetOperation} {x y : CharSet}
      (hx : Derives e c (.operations op x) a) (hsign : OperationSign op a b)
      (hy : Derives e b (.operand y) d) :
      Derives e c (.operations op (.operation (.between c d) op x y)) d
  | listing {a b c d : Cursor} {negated : Bool} {xs : List CharSet} (hopen : Opening negated c a)
      (h : Derives e a (.items xs) b) (hclose : b.Reads [']'] d)
      (hn : (negated && xs.any CharSet.mayContainStrings) = false) :
      Derives e c (.charClass (.listing (.between c d) negated true xs)) d
  | expression {a b c d : Cursor} {negated : Bool} {op : SetOperation} {x : CharSet}
      (hopen : Opening negated c a) (h : Derives e a (.operations op x) b)
      (hclose : b.Reads [']'] d) (hn : (negated && x.mayContainStrings) = false) :
      Derives e c (.charClass (.expression (.between c d) negated x)) d

/-- The whole text is a class with the given tree. -/
def IsClass (e : Edition) (text : Text) (x : CharSet) : Prop :=
  ∃ d, Derives e ((Slice.whole text).cursor true) (.charClass x) d ∧ d.current = none

/-! ## What things begin with

To read an alternative, those before it must miss, and whether they do is decided by the first one
or two characters. So each symbol gets a lemma on how it may begin. -/

def isSetLetter (k : CodePoint) : Bool :=
  k.isOneOf ['d', 'D', 's', 'S', 'w', 'W', 'p', 'P', 'q']

def BeginsPlain (c : Cursor) : Prop :=
  ∃ v d, c.Reads [v] d ∧ v.isClassSetSyntax = false ∧
    (v.isClassSetDoublePunctuator = true → d.current ≠ some v)

def BeginsEscape (test : CodePoint → Bool) (c : Cursor) : Prop :=
  ∃ d k, c.Reads ['\\'] d ∧ d.current = some k ∧ test k = true

variable {e : Edition} {c d : Cursor}

theorem BeginsEscape.of_reads {test : CodePoint → Bool} {k : CodePoint} {cs : List CodePoint}
    (h : c.Reads (.ofChar '\\' :: k :: cs) d) (hk : test k = true) : BeginsEscape test c := by
  obtain ⟨hc, h⟩ := Cursor.reads_cons.mp h
  exact ⟨c.advance, k, Cursor.reads_singleton.mpr ⟨hc, rfl⟩, h.current_eq, hk⟩

theorem BeginsPlain.current_ne {k : CodePoint} (h : BeginsPlain c)
    (hk : k.isClassSetSyntax = true) : c.current ≠ some k := by
  obtain ⟨v, d, hr, hv, -⟩ := h
  intro hc
  obtain rfl := Option.some.inj (hr.current_eq.symm.trans hc)
  rw [hk] at hv
  cases hv

theorem CharacterEscape.reads {v : CodePoint} (h : CharacterEscape c v d) :
    ∃ k cs, c.Reads (k :: cs) d ∧ isSetLetter k = false := by
  cases h with
  | control hr hk =>
    exact ⟨_, _, hr, CodePoint.isOneOf_eq_false (fun k => (controlValue? k).isSome)
      (by rw [hk]; rfl) (by decide)⟩
  | identity hr hk =>
    exact ⟨_, _, hr, CodePoint.isOneOf_eq_false
      (fun k => k.isSyntaxCharacter || k.isOneOf ['/']) hk (by decide)⟩
  | letter hr _ => exact ⟨_, _, hr, by decide⟩
  | zero hr _ => exact ⟨_, _, hr, by decide⟩
  | hex hr _ _ => exact ⟨_, _, hr, by decide⟩
  | pair hr _ _ _ _ _ _ => exact ⟨_, _, hr, by decide⟩
  | unit hr _ _ _ => exact ⟨_, _, hr, by decide⟩
  | braced hr _ _ _ => exact ⟨_, _, hr, by decide⟩

/-- A character of the set grammar is plain or begins with a backslash that begins no set. -/
theorem SetCharacter.begins {ch : Character} (h : SetCharacter c ch d) :
    BeginsPlain c ∨ BeginsEscape (!isSetLetter ·) c := by
  cases h with
  | plain hr hv hnext => exact .inl ⟨_, _, hr, hv, hnext⟩
  | escaped hb h =>
    obtain ⟨k, cs, hr, hk⟩ := h.reads
    exact .inr ⟨_, k, hb, hr.current_eq, by simp only [hk, Bool.not_false]⟩
  | punctuator hr hv =>
    refine .inr (.of_reads hr ?_)
    rw [isSetLetter, CodePoint.isOneOf_eq_false CodePoint.isClassSetPunctuator hv (by decide)]
    rfl
  | backspace hr => exact .inr (.of_reads hr (by decide))

theorem SetCharacter.reads {ch : Character} (h : SetCharacter c ch d) :
    ∃ k cs, c.Reads (k :: cs) d := by
  cases h with
  | plain hr _ _ => exact ⟨_, _, hr⟩
  | escaped hb h =>
    obtain ⟨k, cs, hr, -⟩ := h.reads
    exact ⟨_, _, hb.trans hr⟩
  | punctuator hr _ => exact ⟨_, _, hr⟩
  | backspace hr => exact ⟨_, _, hr⟩

theorem SetCharacter.reaches {ch : Character} (h : SetCharacter c ch d) : c.Reaches d := by
  obtain ⟨k, cs, hr⟩ := h.reads
  exact hr.reaches

/-- A character takes up text. -/
theorem SetCharacter.remaining_lt {ch : Character} (h : SetCharacter c ch d) :
    d.remaining < c.remaining := by
  obtain ⟨k, cs, hr⟩ := h.reads
  exact hr.remaining_lt (List.cons_ne_nil k cs)

theorem isSetLetter_of_escapeSet? {k : CodePoint} {x : EscapeSet × Bool}
    (h : escapeSet? k = some x) : isSetLetter k = true := by
  unfold escapeSet? at h
  simp only [isSetLetter, CodePoint.isOneOf, List.any_cons]
  grind

theorem isSetLetter_of_propertyLetter? {k : CodePoint} {negated : Bool}
    (h : propertyLetter? k = some negated) : isSetLetter k = true := by
  unfold propertyLetter? at h
  simp only [isSetLetter, CodePoint.isOneOf, List.any_cons]
  grind

/-- An escape for a set begins with a backslash and a letter for one. -/
theorem SetEscape.begins {x : CharSet} (h : SetEscape e c x d) : BeginsEscape isSetLetter c := by
  cases h with
  | letter hr hk => exact .of_reads hr (isSetLetter_of_escapeSet? hk)
  | property hr hk _ _ => exact .of_reads hr (isSetLetter_of_propertyLetter? hk)

theorem SetEscape.remaining_lt {x : CharSet} (h : SetEscape e c x d) :
    d.remaining < c.remaining := by
  cases h with
  | letter hr _ => exact hr.remaining_lt (List.cons_ne_nil _ _)
  | property hr _ _ _ => exact hr.remaining_lt (List.cons_ne_nil _ _)

theorem Quotation.begins {x : CharSet} (h : Quotation c x d) : BeginsEscape isSetLetter c := by
  cases h with
  | mk hopen _ _ => exact .of_reads hopen (by decide)

theorem Opening.current {negated : Bool} (h : Opening negated c d) :
    c.current = some (.ofChar '[') := by
  cases negated
  · exact h.1.current_eq
  · exact h.1.current_eq

/-- An opening takes up text. -/
theorem Opening.remaining_lt {negated : Bool} (h : Opening negated c d) :
    d.remaining < c.remaining := by
  cases negated
  · exact h.1.remaining_lt (List.cons_ne_nil _ _)
  · exact h.1.remaining_lt (List.cons_ne_nil _ _)

theorem Derives.charClass_current {x : CharSet} (h : Derives e c (.charClass x) d) :
    c.current = some (.ofChar '[') := by
  cases h with
  | listing hopen _ _ _ => exact hopen.current
  | expression hopen _ _ _ => exact hopen.current

/-- What the contents of a class may begin with. -/
def Begins (c : Cursor) : Prop :=
  c.current = some (.ofChar '[') ∨ c.current = some (.ofChar '\\') ∨ BeginsPlain c

theorem BeginsEscape.begins {test : CodePoint → Bool} (h : BeginsEscape test c) : Begins c := by
  obtain ⟨d, k, hr, -, -⟩ := h
  exact .inr (.inl hr.current_eq)

theorem SetCharacter.item_begins {ch : Character} (h : SetCharacter c ch d) : Begins c :=
  h.begins.elim (fun hplain => .inr (.inr hplain)) BeginsEscape.begins

/-- An operand begins with something that contents may begin with. -/
theorem Derives.operand_begins {x : CharSet} (h : Derives e c (.operand x) d) : Begins c := by
  cases h with
  | nested h => exact .inl h.charClass_current
  | setEscape h => exact h.begins.begins
  | strings h => exact h.begins.begins
  | character h => exact h.item_begins

/-- A member of a union begins with something that contents may begin with. -/
theorem Derives.item_begins {x : CharSet} (h : Derives e c (.item x) d) : Begins c := by
  cases h with
  | range hfirst _ _ _ => exact hfirst.item_begins
  | single h => exact h.operand_begins

namespace Begins

variable (h : Begins c)

include h

/-- Contents begin with no sign of the set grammar but a bracket or a backslash. -/
theorem current_ne {k : CodePoint} (hk : k.isClassSetSyntax = true)
    (hne : k.isOneOf ['[', '\\'] = false) : c.current ≠ some k := by
  intro hc
  rcases h with h | h | h
  · obtain rfl := Option.some.inj (h.symm.trans hc)
    exact absurd hne (by decide)
  · obtain rfl := Option.some.inj (h.symm.trans hc)
    exact absurd hne (by decide)
  · exact h.current_ne hk hc

theorem current_ne_none : c.current ≠ none := by
  rcases h with h | h | ⟨v, d, hr, -, -⟩
  · rw [h]
    nofun
  · rw [h]
    nofun
  · rw [hr.current_eq]
    nofun

/-- An ampersand there is not the first of two. -/
theorem not_doubled (hr : c.Reads ['&'] d) : d.current ≠ some (.ofChar '&') := by
  have hc := hr.current_eq
  rcases h with h | h | ⟨v, b, hb, -, hnext⟩
  · rw [h] at hc
    exact absurd hc (by decide)
  · rw [h] at hc
    exact absurd hc (by decide)
  · obtain rfl := Option.some.inj (hb.current_eq.symm.trans hc)
    obtain rfl : b = d := Option.some.inj (hb.symm.trans hr)
    exact hnext (by decide)

end Begins

/-! ## How much is read

Every symbol but an empty union takes up text. This bounds the nesting and makes repetitions end. -/

def Symbol.nesting : Symbol → Nat
  | operand x => x.nesting
  | item x => x.nesting
  | items xs => CharSet.nestingOfAll xs
  | operations _ x => x.nesting
  | charClass x => x.nesting

/-- If each step of a run gets forward, so does the run. -/
theorem run_reaches {α : Type} {step : Cursor → α → Cursor → Prop} {as : List α}
    (hstep : ∀ c a d, step c a d → c.Reaches d) (h : Cursor.Run step c as d) : c.Reaches d := by
  induction h with
  | nil c => exact .refl c
  | cons head _ ih => exact (hstep _ _ _ head).trans ih

theorem QuotedStrings.reaches {xs : List ClassString} (h : QuotedStrings c xs d) :
    c.Reaches d := by
  induction h with
  | last h => exact run_reaches (fun _ _ _ => SetCharacter.reaches) h
  | cons h hbar _ ih =>
    exact (run_reaches (fun _ _ _ => SetCharacter.reaches) h).trans (hbar.reaches.trans ih)

theorem Quotation.remaining_lt {x : CharSet} (h : Quotation c x d) :
    d.remaining < c.remaining := by
  cases h with
  | mk hopen h hclose =>
    have hlt := hopen.remaining_lt (List.cons_ne_nil _ _)
    have hle := (h.reaches.trans hclose.reaches).remaining_le
    omega

/-- What is derived stands between its two places. -/
theorem Derives.reaches {y : Symbol} (h : Derives e c y d) : c.Reaches d := by
  induction h with
  | nested _ ih => exact ih
  | setEscape h =>
    cases h with
    | letter hr _ => exact hr.reaches
    | property hr _ _ _ => exact hr.reaches
  | strings h =>
    cases h with
    | mk hopen h hclose => exact hopen.reaches.trans (h.reaches.trans hclose.reaches)
  | character h => exact h.reaches
  | range hfirst hdash hlast _ => exact hfirst.reaches.trans (hdash.reaches.trans hlast.reaches)
  | single _ ih => exact ih
  | noItem c => exact .refl c
  | consItem _ _ ih ihs => exact ih.trans ihs
  | operation _ hsign _ ihx ihy => exact ihx.trans (hsign.1.reaches.trans ihy)
  | nextOperation _ hsign _ ihx ihy => exact ihx.trans (hsign.1.reaches.trans ihy)
  | listing hopen _ hclose _ ih => exact hopen.1.reaches.trans (ih.trans hclose.reaches)
  | expression hopen _ hclose _ ih => exact hopen.1.reaches.trans (ih.trans hclose.reaches)

/-- Each level of nesting takes a unit at least. -/
theorem Derives.nesting_le {y : Symbol} (h : Derives e c y d) :
    y.nesting + d.remaining ≤ c.remaining := by
  -- a class takes two units for its brackets, and every other step of a derivation takes none back
  induction h with
  | nested _ ih => exact ih
  | setEscape h =>
    have hlt := h.remaining_lt
    cases h <;> simp only [Symbol.nesting, CharSet.nesting] <;> omega
  | strings h =>
    have hlt := h.remaining_lt
    cases h
    simp only [Symbol.nesting, CharSet.nesting]
    omega
  | character h =>
    have hlt := h.remaining_lt
    simp only [Symbol.nesting, CharSet.nesting]
    omega
  | range hfirst hdash hlast _ =>
    have hfirst := hfirst.remaining_lt
    have hdash := hdash.remaining_le
    have hlast := hlast.remaining_lt
    simp only [Symbol.nesting, CharSet.nesting]
    omega
  | single _ ih => exact ih
  | noItem c => simp [Symbol.nesting, CharSet.nestingOfAll]
  | consItem _ _ ih ihs =>
    simp only [Symbol.nesting, CharSet.nestingOfAll] at ih ihs ⊢
    omega
  | operation _ hsign _ ihx ihy =>
    have hsign := hsign.1.remaining_le
    simp only [Symbol.nesting, CharSet.nesting] at ihx ihy ⊢
    omega
  | nextOperation _ hsign _ ihx ihy =>
    have hsign := hsign.1.remaining_le
    simp only [Symbol.nesting, CharSet.nesting] at ihx ihy ⊢
    omega
  | listing hopen _ hclose _ ih =>
    have hopen := hopen.remaining_lt
    have hclose := hclose.remaining_le
    simp only [Symbol.nesting, CharSet.nesting] at ih ⊢
    omega
  | expression hopen _ hclose _ ih =>
    have hopen := hopen.remaining_lt
    have hclose := hclose.remaining_le
    simp only [Symbol.nesting, CharSet.nesting] at ih ⊢
    omega

theorem Derives.operand_remaining_lt {x : CharSet} (h : Derives e c (.operand x) d) :
    d.remaining < c.remaining := by
  cases h with
  | nested h =>
    have hle := h.nesting_le
    cases h <;> simp only [Symbol.nesting, CharSet.nesting] at hle <;> omega
  | setEscape h => exact h.remaining_lt
  | strings h => exact h.remaining_lt
  | character h => exact h.remaining_lt

/-- A member of a union takes up text, so a repetition of them ends. -/
theorem Derives.item_remaining_lt {x : CharSet} (h : Derives e c (.item x) d) :
    d.remaining < c.remaining := by
  cases h with
  | range hfirst hdash hlast _ =>
    have hfirst := hfirst.remaining_lt
    have hdash := hdash.remaining_le
    have hlast := hlast.remaining_lt
    omega
  | single h => exact h.operand_remaining_lt

/-- Set operations stand by themselves, between the brackets of a class. -/
theorem Derives.item_isOperation {x : CharSet} (h : Derives e c (.item x) d) :
    x.isOperation = false := by
  cases h with
  | range _ _ _ _ => rfl
  | single h =>
    cases h with
    | nested h => cases h <;> rfl
    | setEscape h => cases h <;> rfl
    | strings h => cases h; rfl
    | character _ => rfl

end SetGrammar

end EcmaPattern
