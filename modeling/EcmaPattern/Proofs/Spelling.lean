import EcmaPattern.Grammar.Escape
import EcmaPattern.Grammar.Term
import EcmaPattern.Proofs.Characters
import EcmaPattern.Proofs.Outcome

/-!
# Spellings

What the parsers below terms and classes read, as relations between characters and values: numbers,
character escapes, group names, set escapes and quantifiers. A parser that is done has read a
spelling of its value and has changed nothing but the place.

For each kind of thing there is an inductive relation with one constructor for each way of writing
it, and a lemma `…_eq_done` which says that the parser reads nothing else. The relations do not
mention parsers, places or spans, so that proofs about the text of a pattern can go by them alone:
that a scan passes over an escape, say, is shown by cases on how it may be written.
-/

namespace EcmaPattern

open EcmaPattern.Parser

variable {g : Grammar} {s t : State}

/-! ## Numbers

A number is made of the digits ahead, as many as there are. `Digits` pairs the digits with their
values; what the number is, is `ofDigits` of the values, whose computation is not opened up here. -/

/-- The characters are digits of the base with the given values. -/
def Digits (base : Nat) (cs : List CodePoint) (ds : List Nat) : Prop :=
  cs.map (CodePoint.digit? base) = ds.map some

namespace Digits

variable {base : Nat} {cs : List CodePoint} {ds : List Nat}

/-- There is one value for each digit. -/
theorem length_eq (h : Digits base cs ds) : cs.length = ds.length := by
  have := congrArg List.length h
  rwa [List.length_map, List.length_map] at this

theorem isSome_of_mem (h : Digits base cs ds) {c : CodePoint} (hc : c ∈ cs) :
    (c.digit? base).isSome := by
  have hmem : c.digit? base ∈ ds.map some := h ▸ List.mem_map_of_mem hc
  obtain ⟨d, -, hd⟩ := List.mem_map.mp hmem
  rw [← hd]
  rfl

theorem cons {c : CodePoint} {d : Nat} (hc : c.digit? base = some d) (h : Digits base cs ds) :
    Digits base (c :: cs) (d :: ds) := by
  rw [Digits, List.map_cons, List.map_cons, hc, h]

end Digits

/-- The digit zero is the only one with the value zero. -/
theorem CodePoint.digit?_eq_zero {base : Nat} {c : CodePoint} (h : c.digit? base = some 0) :
    c = .ofChar '0' := by
  simp only [CodePoint.digit?, CodePoint.hexValue?, Option.filter_eq_some_iff] at h
  have hval : c.val = 0x30 := by grind
  exact Fin.ext hval

def leadingDigits : List CodePoint → List Nat
  | [] => []
  | c :: rest =>
    match c.digit? 10 with
    | some d => d :: leadingDigits rest
    | none => []

/-- The number that a sequence of characters begins with, all its digits taken together, unless the
first of them is a zero. -/
def numeral? (cs : List CodePoint) : Option Nat :=
  match leadingDigits cs with
  | [] => none
  | 0 :: _ => none
  | d :: ds => some (ofDigits 10 (d :: ds))

/-- Digits in front of something else are the leading ones. -/
theorem leadingDigits_append {cs rest : List CodePoint} {ds : List Nat} (h : Digits 10 cs ds)
    (hrest : rest.head?.bind (CodePoint.digit? 10) = none) : leadingDigits (cs ++ rest) = ds := by
  induction cs generalizing ds with
  | nil =>
    obtain rfl : ds = [] := List.length_eq_zero_iff.mp h.length_eq.symm
    cases rest with
    | nil => rfl
    | cons c rest =>
      have hc : c.digit? 10 = none := hrest
      rw [List.nil_append, leadingDigits, hc]
  | cons c cs ih =>
    cases ds with
    | nil => simp [Digits] at h
    | cons d ds =>
      rw [Digits, List.map_cons, List.map_cons, List.cons.injEq] at h
      rw [List.cons_append, leadingDigits, h.1, ih h.2]

theorem numeral?_eq_none {c : CodePoint} {cs : List CodePoint} (h : c.digit? 10 = none) :
    numeral? (c :: cs) = none := by
  rw [numeral?, leadingDigits, h]

/-- A number that begins with a zero is no reference. -/
theorem numeral?_zero {cs : List CodePoint} : numeral? (.ofChar '0' :: cs) = none := by
  have hzero : (CodePoint.ofChar '0').digit? 10 = some 0 := by decide
  rw [numeral?, leadingDigits, hzero]
  rfl

namespace Parser

theorem digit_eq_done {base d : Nat} :
    digit base g s = .done d t ↔ ∃ c, c.digit? base = some d ∧ s.Reads [c] t :=
  select_eq_done

/-- Digits one by one are digits in a row. -/
theorem reads_of_chain_digit {base : Nat} {ds : List Nat}
    (h : Chain (fun s d t => digit base g s = .done d t) s ds t) :
    ∃ cs, s.Reads cs t ∧ Digits base cs ds := by
  induction h with
  | nil s => exact ⟨[], .refl s, rfl⟩
  | cons head tail ih =>
    obtain ⟨c, hc, hr⟩ := digit_eq_done.mp head
    obtain ⟨cs, hrs, hcs⟩ := ih
    exact ⟨c :: cs, hr.trans hrs, hcs.cons hc⟩

/-- A run of digits is read as far as it goes. -/
theorem digits_eq_done {base : Nat} {ds : List Nat} (h : many1 (digit base) g s = .done ds t) :
    ∃ cs, s.Reads cs t ∧ Digits base cs ds ∧ ds ≠ [] ∧
      t.cursor.current.bind (CodePoint.digit? base) = none := by
  rw [many1, bind_eq_done] at h
  obtain ⟨d, u, hd, h⟩ := h
  obtain ⟨rest, v, hrest, h⟩ := bind_eq_done.mp h
  obtain ⟨rfl, rfl⟩ := pure_eq_done.mp h
  obtain ⟨hchain, hmiss⟩ := (many_eq_done (progresses_select _ g)).mp hrest
  obtain ⟨cs, hr, hcs⟩ := reads_of_chain_digit (Chain.cons hd hchain)
  exact ⟨cs, hr, hcs, List.cons_ne_nil _ _, select_eq_miss.mp hmiss⟩

/-- Digits are missed where none is ahead. -/
theorem digits_eq_miss {base : Nat} :
    many1 (digit base) g s = .miss ↔ s.cursor.current.bind (CodePoint.digit? base) = none := by
  rw [many1, bind_eq_miss]
  constructor
  · rintro (h | ⟨d, u, -, h⟩)
    · exact select_eq_miss.mp h
    · rcases bind_eq_miss.mp h with h | ⟨ds, v, -, h⟩
      · exact absurd h (neverMisses_many _ _ _)
      · cases h
  · intro h
    exact .inl (select_eq_miss.mpr h)

/-- What becomes of a run of digits once it has been read. -/
theorem number_of_digits_eq {base : Nat} {ds : List Nat}
    (h : many1 (digit base) g s = .done ds t) :
    number base g s =
      if tooMany base ds then .fault ⟨.tooManyDigits ds.length, t.cursor.index⟩
      else .done (ofDigits base ds) t := by
  rw [number, bind_of_done h]
  split <;> rfl

/-- Digits in a row can be read one by one. -/
theorem chain_of_digits {base : Nat} {cs : List CodePoint} {ds : List Nat}
    (h : Digits base cs ds) (hr : s.Reads cs t) :
    Chain (fun s d t => digit base g s = .done d t) s ds t := by
  induction cs generalizing s ds with
  | nil =>
    obtain rfl : ds = [] := List.length_eq_zero_iff.mp h.length_eq.symm
    rw [hr.eq_of_nil]
    exact .nil t
  | cons c cs ih =>
    cases ds with
    | nil => cases h.length_eq
    | cons d ds =>
      obtain ⟨hd, htail⟩ := List.cons.inj h
      obtain ⟨u, hc, hrest⟩ := State.reads_cons.mp hr
      exact .cons (digit_eq_done.mpr ⟨c, hd, hc⟩) (ih htail hrest)

/-- Digits that no further digit follows are read as a number, unless they are too many. -/
theorem number_of_digits {base : Nat} {cs : List CodePoint} {ds : List Nat}
    (h : Digits base cs ds) (hne : ds ≠ []) (hr : s.Reads cs t)
    (hend : t.cursor.current.bind (CodePoint.digit? base) = none) :
    number base g s =
      if tooMany base ds then .fault ⟨.tooManyDigits ds.length, t.cursor.index⟩
      else .done (ofDigits base ds) t := by
  apply number_of_digits_eq
  cases chain_of_digits (g := g) h hr with
  | nil => exact absurd rfl hne
  | @cons _ u _ d ds head tail =>
    have hrest : many (digit base) g u = .done ds t :=
      (many_eq_done (progresses_select _ g)).mpr ⟨tail, select_eq_miss.mpr hend⟩
    rw [many1, bind_of_done head, bind_of_done hrest]
    rfl

/-- Hexadecimal digits are never too many. -/
theorem hexNumber_of_digits {cs : List CodePoint} {ds : List Nat} (h : Digits 16 cs ds)
    (hne : ds ≠ []) (hr : s.Reads cs t)
    (hend : t.cursor.current.bind (CodePoint.digit? 16) = none) :
    number 16 g s = .done (ofDigits 16 ds) t :=
  number_of_digits h hne hr hend

/-- A number is a run of digits that no further digit follows, and not too many of them. -/
theorem number_eq_done {base n : Nat} (h : number base g s = .done n t) :
    ∃ cs ds, s.Reads cs t ∧ Digits base cs ds ∧ ds ≠ [] ∧ ofDigits base ds = n ∧
      t.cursor.current.bind (CodePoint.digit? base) = none ∧ tooMany base ds = false := by
  obtain ⟨ds, u, hds, -⟩ := bind_eq_done.mp h
  obtain ⟨cs, hr, hcs, hne, hend⟩ := digits_eq_done hds
  rw [number_of_digits_eq hds] at h
  split at h
  · cases h
  · next hfew =>
    cases h
    exact ⟨cs, ds, hr, hcs, hne, rfl, hend, Bool.eq_false_iff.mpr hfew⟩

theorem number_eq_miss {base : Nat} :
    number base g s = .miss ↔ s.cursor.current.bind (CodePoint.digit? base) = none := by
  rw [number, bind_eq_miss, digits_eq_miss]
  refine or_iff_left ?_
  rintro ⟨ds, t, -, h⟩
  split at h
  · exact fail_ne_miss h
  · cases h

/-- The one fault of a number is that a run of digits is too long. The run has been read by then. -/
theorem number_eq_fault {base : Nat} {e : Fault} (h : number base g s = .fault e) :
    ∃ cs ds t, s.Reads cs t ∧ Digits base cs ds ∧ tooMany base ds = true ∧
      e = ⟨.tooManyDigits ds.length, t.cursor.index⟩ := by
  cases hds : many1 (digit base) g s with
  | done ds t =>
    obtain ⟨cs, hr, hcs, -, -⟩ := digits_eq_done hds
    rw [number_of_digits_eq hds] at h
    split at h
    · next hmany =>
      cases h
      exact ⟨cs, ds, t, hr, hcs, hmany, rfl⟩
    · cases h
  | miss =>
    rw [number_eq_miss.mpr (digits_eq_miss.mp hds)] at h
    cases h
  | fault e' => exact absurd hds (many1_ne_fault (fun _ => select_ne_fault) s e')

/-- Where a number stands, it is read or its digits are too many. -/
theorem number_of_numeral? {n : Nat} (h : numeral? s.cursor.characters = some n) :
    (∃ t, number 10 g s = .done n t) ∨
      ∃ count index, number 10 g s = .fault ⟨.tooManyDigits count, index⟩ := by
  cases hn : number 10 g s with
  | done m t =>
    obtain ⟨cs, ds, hr, hcs, hne, rfl, hend, -⟩ := number_eq_done hn
    rw [Cursor.current_eq_head?] at hend
    rw [hr.cursor.characters, numeral?, leadingDigits_append hcs hend] at h
    obtain ⟨d, ds, rfl⟩ := List.exists_cons_of_ne_nil hne
    refine .inl ⟨t, ?_⟩
    cases d with
    | zero => cases h
    | succ d =>
      cases h
      rfl
  | miss =>
    -- no digit stands here, so no number does
    have hc := number_eq_miss.mp hn
    rw [Cursor.current_eq_head?] at hc
    have hnil : Digits 10 [] [] := rfl
    rw [numeral?, ← List.nil_append s.cursor.characters, leadingDigits_append hnil hc] at h
    cases h
  | fault e =>
    obtain ⟨-, ds, t, -, -, -, rfl⟩ := number_eq_fault hn
    exact .inr ⟨ds.length, t.cursor.index, rfl⟩

/-- So many digits one by one are so many digits in a row. -/
theorem times_digit_eq_done {base length : Nat} {ds : List Nat}
    (h : times (digit base) length g s = .done ds t) :
    ∃ cs, s.Reads cs t ∧ Digits base cs ds ∧ cs.length = length := by
  induction length generalizing s ds with
  | zero =>
    obtain ⟨rfl, rfl⟩ := pure_eq_done.mp h
    exact ⟨[], .refl s, rfl, rfl⟩
  | succ length ih =>
    rw [times, bind_eq_done] at h
    obtain ⟨d, u, hd, h⟩ := h
    obtain ⟨ds', v, hds, h⟩ := bind_eq_done.mp h
    obtain ⟨rfl, rfl⟩ := pure_eq_done.mp h
    obtain ⟨c, hc, hr⟩ := digit_eq_done.mp hd
    obtain ⟨cs, hrs, hcs, hlen⟩ := ih hds
    exact ⟨c :: cs, hr.trans hrs, hcs.cons hc, by rw [List.length_cons, hlen]⟩

/-- A number of fixed length is made of so many hexadecimal digits. -/
theorem fixedHex_eq_done {length n : Nat} (h : fixedHex length g s = .done n t) :
    ∃ cs ds, s.Reads cs t ∧ Digits 16 cs ds ∧ cs.length = length ∧ ofDigits 16 ds = n := by
  obtain ⟨ds, hds, rfl⟩ := map_eq_done.mp h
  obtain ⟨cs, hr, hcs, hlen⟩ := times_digit_eq_done hds
  exact ⟨cs, ds, hr, hcs, hlen, rfl⟩

end Parser

/-! ## Numbers that are too long

More decimal digits than can be converted are a fault of the number and of all that holds it.
`Overflows` is that outcome, and `RunsOver` is the same of some run of a repetition; both are
carried outwards through the combinators, so that a numeral deep inside a pattern can be shown to
end the whole parse. -/

/-- The outcome is that a number is too long to be converted. -/
def Outcome.Overflows {α : Type} (o : Outcome α) : Prop :=
  ∃ f, o = .fault f ∧ ∃ n, 4300 < n ∧ f.cause = .tooManyDigits n

namespace Parser

section Overflows

variable {α β : Type} {p q : Parser α}

/-- Only decimal digits can be too many. -/
theorem number_overflows {e : Fault} (h : number 10 g s = .fault e) :
    (number 10 g s).Overflows := by
  obtain ⟨-, ds, t, -, -, hmany, rfl⟩ := number_eq_fault h
  exact ⟨_, h, ds.length, of_decide_eq_true hmany, rfl⟩

/-- More decimal digits than are converted, up to where there is no other. -/
theorem number_overflows_of_digits {cs : List CodePoint} {ds : List Nat} (h : Digits 10 cs ds)
    (hmany : 4300 < ds.length) (hr : s.Reads cs t)
    (hend : t.cursor.current.bind (CodePoint.digit? 10) = none) : (number 10 g s).Overflows := by
  have hne : ds ≠ [] := List.ne_nil_of_length_pos (Nat.zero_lt_of_lt hmany)
  exact number_overflows ((number_of_digits h hne hr hend).trans (if_pos (decide_eq_true hmany)))

theorem Overflows.bind {f : α → Parser β} (h : (p g s).Overflows) :
    ((p >>= f) g s).Overflows := by
  obtain ⟨e, he, hlong⟩ := h
  exact ⟨e, bind_of_fault he, hlong⟩

/-- If two parsers in a row find a number too long, one of them does. -/
theorem Overflows.of_bind {f : α → Parser β} (h : ((p >>= f) g s).Overflows) :
    (p g s).Overflows ∨ ∃ a t, p g s = .done a t ∧ (f a g t).Overflows := by
  obtain ⟨e, he, hlong⟩ := h
  rcases bind_eq_fault.mp he with he | ⟨a, t, ha, he⟩
  · exact .inl ⟨e, he, hlong⟩
  · exact .inr ⟨a, t, ha, e, he, hlong⟩

theorem Overflows.orElse (h : (p g s).Overflows) : ((p <|> q) g s).Overflows := by
  obtain ⟨e, he, hlong⟩ := h
  exact ⟨e, orElse_of_fault he, hlong⟩

theorem Overflows.attempt (h : (p g s).Overflows) : (Parser.attempt p g s).Overflows := by
  obtain ⟨e, he, hlong⟩ := h
  exact ⟨e, attempt_of_fault he, hlong⟩

/-- In some repetition of the parser, a number is too long. -/
def RunsOver (p : Parser α) (g : Grammar) (s : State) : Prop :=
  ∃ as t, Chain (fun s a t => p g s = .done a t) s as t ∧ (p g t).Overflows

theorem Overflows.runsOver (h : (p g s).Overflows) : RunsOver p g s := ⟨[], s, .nil s, h⟩

/-- What runs over behind a chain of runs runs over. -/
theorem RunsOver.after {as : List α} (h : RunsOver p g t)
    (hchain : Chain (fun s a t => p g s = .done a t) s as t) : RunsOver p g s := by
  obtain ⟨bs, u, hbs, hlong⟩ := h
  exact ⟨as ++ bs, u, hchain.append hbs, hlong⟩

/-- If some run of a repetition finds a number too long, so does the repetition. -/
theorem RunsOver.many (h : RunsOver p g s) (hp : Progresses p g) : (many p g s).Overflows := by
  obtain ⟨as, u, has, e, he, hlong⟩ := h
  exact ⟨e, many_of_chain_of_fault hp has he, hlong⟩

/-- If a repetition finds a number too long, one of its runs does. -/
theorem runsOver_of_many (h : (many p g s).Overflows) : RunsOver p g s := by
  obtain ⟨e, he, hlong⟩ := h
  obtain ⟨as, t, has, ht⟩ := chain_of_upTo_fault he
  exact ⟨as, t, has, e, ht, hlong⟩

end Overflows

end Parser

/-! ## Character escapes

`UnicodeEscape` and `Escape` list what may follow the backslash, with the value it stands for. What
the grammar allows only in one of its modes is a premise of the constructor. -/

/-- What may follow a backslash as a Unicode escape. -/
inductive UnicodeEscape (wide : Bool) : List CodePoint → CodePoint → Prop
  | pair {cs₁ cs₂ : List CodePoint} {ds₁ ds₂ : List Nat} (hw : wide = true)
      (h₁ : Digits 16 cs₁ ds₁) (h₂ : Digits 16 cs₂ ds₂) (hl₁ : cs₁.length = 4)
      (hl₂ : cs₂.length = 4) (hlead : (CodePoint.ofNat (ofDigits 16 ds₁)).isLead)
      (htrail : (CodePoint.ofNat (ofDigits 16 ds₂)).isTrail) :
      UnicodeEscape wide (.ofChar 'u' :: (cs₁ ++ .ofChar '\\' :: .ofChar 'u' :: cs₂))
        (.ofPair (.ofNat (ofDigits 16 ds₁)) (.ofNat (ofDigits 16 ds₂)))
  | fixed {cs : List CodePoint} {ds : List Nat} (h : Digits 16 cs ds) (hl : cs.length = 4) :
      UnicodeEscape wide ('u' :: cs) (.ofNat (ofDigits 16 ds))
  | braced {cs : List CodePoint} {ds : List Nat} {v : CodePoint} (hw : wide = true)
      (h : Digits 16 cs ds) (hne : ds ≠ []) (hv : CodePoint.ofInt? (ofDigits 16 ds) = some v) :
      UnicodeEscape wide (.ofChar 'u' :: .ofChar '{' :: (cs ++ [.ofChar '}'])) v

/-- What may follow a backslash to stand for one character. -/
inductive Escape (g : Grammar) : List CodePoint → CodePoint → Prop
  | control {c v : CodePoint} (h : controlValue? c = some v) : Escape g [c] v
  | letter {c : CodePoint} (h : c.isLatinLetter) : Escape g ['c', c] (.ofNat (c.val % 0x20))
  | zero : Escape g ['0'] (.ofNat 0)
  | hex {cs : List CodePoint} {ds : List Nat} (h : Digits 16 cs ds) (hl : cs.length = 2) :
      Escape g ('x' :: cs) (.ofNat (ofDigits 16 ds))
  | unicode {cs : List CodePoint} {v : CodePoint} (h : UnicodeEscape g.unicode cs v) :
      Escape g cs v
  | octal {cs : List CodePoint} {ds : List Nat} (hg : g.exact = false) (h : Digits 8 cs ds)
      (hne : ds ≠ []) (hv : ofDigits 8 ds < 256) : Escape g cs (.ofNat (ofDigits 8 ds))
  | identity {c : CodePoint} (h : isIdentityEscape g c) : Escape g [c] c

namespace Parser

theorem controlLetter_eq_done {v : CodePoint} (h : controlLetter g s = .done v t) :
    ∃ c, CodePoint.isLatinLetter c ∧ s.Reads ['c', c] t ∧ v = .ofNat (c.val % 0x20) := by
  rw [controlLetter, eat_bind_eq_done] at h
  obtain ⟨u, hu, h⟩ := h
  obtain ⟨c, w, hc, h⟩ := bind_eq_done.mp h
  obtain ⟨rfl, rfl⟩ := pure_eq_done.mp h
  obtain ⟨hl, hr⟩ := satisfy_eq_done.mp hc
  exact ⟨c, hl, hu.trans hr, rfl⟩

theorem zeroEscape_eq_done {v : CodePoint} (h : zeroEscape g s = .done v t) :
    s.Reads ['0'] t ∧ v = .ofNat 0 := by
  rw [zeroEscape] at h
  split at h
  · cases h
  · obtain ⟨u, hu, h⟩ := eat_bind_eq_done.mp h
    obtain ⟨rfl, rfl⟩ := pure_eq_done.mp h
    exact ⟨hu, rfl⟩

theorem hexEscape_eq_done {v : CodePoint} (h : hexEscape g s = .done v t) :
    ∃ cs ds, s.Reads (.ofChar 'x' :: cs) t ∧ Digits 16 cs ds ∧ cs.length = 2 ∧
      v = .ofNat (ofDigits 16 ds) := by
  rw [hexEscape, eat_bind_eq_done] at h
  obtain ⟨u, hu, h⟩ := h
  rcases orElse_eq_done.mp h with h | ⟨-, h⟩
  · obtain ⟨n, hn, rfl⟩ := map_eq_done.mp h
    obtain ⟨cs, ds, hr, hcs, hlen, rfl⟩ := fixedHex_eq_done hn
    exact ⟨cs, ds, hu.trans hr, hcs, hlen, rfl⟩
  · rw [grammar_bind, require_bind_eq_done] at h
    exact absurd h.2 fail_ne_done

theorem escapedPair_eq_done {v : CodePoint} (h : escapedPair g s = .done v t) :
    ∃ cs₁ cs₂ ds₁ ds₂, s.Reads (cs₁ ++ .ofChar '\\' :: .ofChar 'u' :: cs₂) t ∧
      Digits 16 cs₁ ds₁ ∧ Digits 16 cs₂ ds₂ ∧ cs₁.length = 4 ∧ cs₂.length = 4 ∧
      (CodePoint.ofNat (ofDigits 16 ds₁)).isLead ∧ (CodePoint.ofNat (ofDigits 16 ds₂)).isTrail ∧
      v = .ofPair (.ofNat (ofDigits 16 ds₁)) (.ofNat (ofDigits 16 ds₂)) := by
  rw [escapedPair, bind_eq_done] at h
  obtain ⟨n, u₁, hn, h⟩ := h
  obtain ⟨hlead, h⟩ := require_bind_eq_done.mp h
  obtain ⟨u₂, hu, h⟩ := eatAll_bind_eq_done.mp h
  obtain ⟨m, u₃, hm, h⟩ := bind_eq_done.mp h
  obtain ⟨htrail, h⟩ := require_bind_eq_done.mp h
  obtain ⟨rfl, rfl⟩ := pure_eq_done.mp h
  obtain ⟨cs₁, ds₁, hr₁, hcs₁, hlen₁, rfl⟩ := fixedHex_eq_done hn
  obtain ⟨cs₂, ds₂, hr₂, hcs₂, hlen₂, rfl⟩ := fixedHex_eq_done hm
  exact ⟨cs₁, cs₂, ds₁, ds₂, hr₁.trans (hu.trans hr₂), hcs₁, hcs₂, hlen₁, hlen₂, hlead, htrail,
    rfl⟩

theorem bracedCodePoint_eq_done {v : CodePoint} (h : bracedCodePoint g s = .done v t) :
    ∃ cs ds, s.Reads (.ofChar '{' :: (cs ++ [.ofChar '}'])) t ∧ Digits 16 cs ds ∧ ds ≠ [] ∧
      CodePoint.ofInt? (ofDigits 16 ds) = some v := by
  rw [bracedCodePoint, eat_bind_eq_done] at h
  obtain ⟨u₁, hopen, h⟩ := h
  obtain ⟨n, u₂, hn, h⟩ := bind_eq_done.mp h
  obtain ⟨u₃, hclose, h⟩ := eat_bind_eq_done.mp h
  obtain ⟨cs, ds, hr, hcs, hne, rfl, -⟩ := number_eq_done hn
  cases hv : CodePoint.ofInt? (ofDigits 16 ds) with
  | none =>
    rw [hv] at h
    cases h
  | some w =>
    rw [hv] at h
    obtain ⟨rfl, rfl⟩ := pure_eq_done.mp h
    exact ⟨cs, ds, hopen.trans (hr.trans hclose), hcs, hne, hv⟩

/-- A Unicode escape is read from one of its spellings, by which its value is known. -/
theorem unicodeEscape_eq_done {wide : Bool} {v : CodePoint}
    (h : unicodeEscape wide g s = .done v t) : ∃ cs, s.Reads cs t ∧ UnicodeEscape wide cs v := by
  rw [unicodeEscape, eat_bind_eq_done] at h
  obtain ⟨u, hu, h⟩ := h
  rcases orElse_eq_done.mp h with h | ⟨-, h⟩
  · obtain ⟨hw, h⟩ := require_bind_eq_done.mp h
    obtain ⟨cs₁, cs₂, ds₁, ds₂, hr, hcs₁, hcs₂, hl₁, hl₂, hlead, htrail, rfl⟩ :=
      escapedPair_eq_done h
    exact ⟨_, hu.trans hr, .pair hw hcs₁ hcs₂ hl₁ hl₂ hlead htrail⟩
  rcases orElse_eq_done.mp h with h | ⟨-, h⟩
  · obtain ⟨n, hn, rfl⟩ := map_eq_done.mp h
    obtain ⟨cs, ds, hr, hcs, hl, rfl⟩ := fixedHex_eq_done hn
    exact ⟨_, hu.trans hr, .fixed hcs hl⟩
  rcases orElse_eq_done.mp h with h | ⟨-, h⟩
  · obtain ⟨hw, h⟩ := require_bind_eq_done.mp h
    obtain ⟨cs, ds, hr, hcs, hne, hv⟩ := bracedCodePoint_eq_done h
    exact ⟨_, hu.trans hr, .braced hw hcs hne hv⟩
  · rw [grammar_bind, require_bind_eq_done] at h
    exact absurd h.2 fail_ne_done

/-- An octal escape has at most three digits and stays below 256, and it has as many digits as these
limits allow. -/
theorem legacyOctal_eq_done {v : CodePoint} (h : legacyOctal g s = .done v t) :
    ∃ cs ds, s.Reads cs t ∧ Digits 8 cs ds ∧ ds ≠ [] ∧ ds.length ≤ 3 ∧ ofDigits 8 ds < 256 ∧
      v = .ofNat (ofDigits 8 ds) ∧
      ∀ d, t.cursor.current.bind (CodePoint.digit? 8) = some d →
        ds.length = 3 ∨ 255 < ofDigits 8 ds * 8 + d := by
  have hmiss : ∀ {u : State}, digit 8 g u = .miss → ∀ d,
      u.cursor.current.bind (CodePoint.digit? 8) ≠ some d := by
    intro u hu d hd
    rw [select_eq_miss.mp hu] at hd
    cases hd
  rw [legacyOctal, bind_eq_done] at h
  obtain ⟨d₁, u₁, hd₁, h⟩ := h
  obtain ⟨c₁, hc₁, hr₁⟩ := digit_eq_done.mp hd₁
  have hlt₁ := CodePoint.digit?_lt hc₁
  obtain ⟨o, u₂, ho, h⟩ := bind_eq_done.mp h
  rcases attempt_eq_done.mp ho with ⟨d₂, rfl, hd₂⟩ | ⟨rfl, hnone, rfl⟩
  · obtain ⟨c₂, hc₂, hr₂⟩ := digit_eq_done.mp hd₂
    have hlt₂ := CodePoint.digit?_lt hc₂
    have htwo : ofDigits 8 [d₁, d₂] = d₁ * 8 + d₂ := by simp [ofDigits]
    have hread₂ : s.Reads [c₁, c₂] u₂ := hr₁.trans hr₂
    have hdigits₂ : Digits 8 [c₁, c₂] [d₁, d₂] := .cons hc₁ (.cons hc₂ rfl)
    have hlength₂ : [d₁, d₂].length ≤ 3 := Nat.le_succ 2
    -- there is a third digit only after a first one below four, so the value stays below 256
    dsimp only at h
    split at h
    · next hle =>
      obtain ⟨o, u₃, ho, h⟩ := bind_eq_done.mp h
      rcases attempt_eq_done.mp ho with ⟨d₃, rfl, hd₃⟩ | ⟨rfl, hnone, rfl⟩
      · obtain ⟨rfl, rfl⟩ := pure_eq_done.mp h
        obtain ⟨c₃, hc₃, hr₃⟩ := digit_eq_done.mp hd₃
        have hlt₃ := CodePoint.digit?_lt hc₃
        have hthree : ofDigits 8 [d₁, d₂, d₃] = d₁ * 64 + d₂ * 8 + d₃ := by
          simp only [ofDigits, List.foldl_cons, List.foldl_nil]
          omega
        exact ⟨[c₁, c₂, c₃], [d₁, d₂, d₃], hr₁.trans (hr₂.trans hr₃),
          .cons hc₁ (.cons hc₂ (.cons hc₃ rfl)), List.cons_ne_nil _ _, Nat.le_refl 3, by omega,
          by rw [hthree], fun _ _ => .inl rfl⟩
      · obtain ⟨rfl, rfl⟩ := pure_eq_done.mp h
        exact ⟨_, _, hread₂, hdigits₂, List.cons_ne_nil _ _, hlength₂, by omega, by rw [htwo],
          fun d hd => absurd hd (hmiss hnone d)⟩
    · -- a third digit would go too far after a first one above three
      obtain ⟨rfl, rfl⟩ := pure_eq_done.mp h
      exact ⟨_, _, hread₂, hdigits₂, List.cons_ne_nil _ _, hlength₂, by omega, by rw [htwo],
        fun d _ => .inr (by omega)⟩
  · obtain ⟨rfl, rfl⟩ := pure_eq_done.mp h
    have hone : ofDigits 8 [d₁] = d₁ := by simp [ofDigits]
    exact ⟨[c₁], [d₁], hr₁, .cons hc₁ rfl, List.cons_ne_nil _ _, Nat.le_add_left 1 2, by omega,
      by rw [hone], fun d hd => absurd hd (hmiss hnone d)⟩

/-- A character escape is read from one of its spellings. -/
theorem escapedValue_eq_done {v : CodePoint} (h : escapedValue g s = .done v t) :
    ∃ cs, s.Reads cs t ∧ Escape g cs v := by
  -- one case for each kind of escape, in the order in which they are tried
  rw [escapedValue, grammar_bind] at h
  rcases orElse_eq_done.mp h with h | ⟨-, h⟩
  · obtain ⟨c, hc, hr⟩ := select_eq_done.mp h
    exact ⟨[c], hr, .control hc⟩
  rcases orElse_eq_done.mp h with h | ⟨-, h⟩
  · obtain ⟨c, hc, hr, rfl⟩ := controlLetter_eq_done h
    exact ⟨_, hr, .letter hc⟩
  rcases orElse_eq_done.mp h with h | ⟨-, h⟩
  · obtain ⟨hr, rfl⟩ := zeroEscape_eq_done h
    exact ⟨_, hr, .zero⟩
  rcases orElse_eq_done.mp h with h | ⟨-, h⟩
  · obtain ⟨cs, ds, hr, hcs, hl, rfl⟩ := hexEscape_eq_done h
    exact ⟨_, hr, .hex hcs hl⟩
  rcases orElse_eq_done.mp h with h | ⟨-, h⟩
  · obtain ⟨cs, hr, hcs⟩ := unicodeEscape_eq_done h
    exact ⟨_, hr, .unicode hcs⟩
  rcases orElse_eq_done.mp h with h | ⟨-, h⟩
  · obtain ⟨hw, h⟩ := require_bind_eq_done.mp h
    obtain ⟨cs, ds, hr, hcs, hne, -, hlt, rfl, -⟩ := legacyOctal_eq_done h
    exact ⟨_, hr, .octal (by simpa using hw) hcs hne hlt⟩
  · rw [identityEscape, grammar_bind] at h
    obtain ⟨hc, hr⟩ := satisfy_eq_done.mp h
    exact ⟨_, hr, .identity hc⟩

theorem characterFrom_eq_done {mark : Cursor} {v : CodePoint} {c : Character} :
    characterFrom mark v g s = .done c t ↔ c = ⟨Span.between mark t.cursor, v⟩ ∧ s = t := by
  rw [characterFrom, spanFrom_bind, pure_eq_done]
  constructor
  · rintro ⟨rfl, rfl⟩
    exact ⟨rfl, rfl⟩
  · rintro ⟨rfl, rfl⟩
    exact ⟨rfl, rfl⟩

/-- A character escape is read from one of its spellings, and spans it. -/
theorem characterEscape_eq_done {mark : Cursor} {c : Character}
    (h : characterEscape mark g s = .done c t) :
    ∃ cs, s.Reads cs t ∧ Escape g cs c.value ∧ c.span = Span.between mark t.cursor := by
  rw [characterEscape, bind_eq_done] at h
  obtain ⟨v, u, hv, h⟩ := h
  obtain ⟨cs, hr, hcs⟩ := escapedValue_eq_done hv
  obtain ⟨rfl, rfl⟩ := characterFrom_eq_done.mp h
  exact ⟨cs, hr, hcs, rfl⟩

end Parser

/-! ## Group names

A name is spelt character by character, each as it is, as a surrogate pair in two units, or as an
escape. The test on the first character differs from that on the others, so the first one is singled
out. -/

/-- Whether a surrogate pair in a group's name is one character although the pattern is read by
code units. -/
def Grammar.joinsNames (g : Grammar) : Bool :=
  !g.unicode && g.edition.supports .unicodeGroupNames

/-- A character of a group's name, as it is or escaped. -/
inductive NameCharacter (g : Grammar) : List CodePoint → CodePoint → Prop
  | plain (c : CodePoint) : NameCharacter g [c] c
  | escaped {cs : List CodePoint} {c : CodePoint}
      (h : UnicodeEscape (g.joinsNames || g.unicode) cs c) : NameCharacter g (.ofChar '\\' :: cs) c
  | pair {a b : CodePoint} (hg : g.joinsNames = true) (ha : a.isLead) (hb : b.isTrail) :
      NameCharacter g [a, b] (.ofPair a b)

/-- A group's name, without the angle brackets. -/
inductive NameSpelling (g : Grammar) : List CodePoint → GroupName → Prop
  | nil : NameSpelling g [] []
  | cons {cs ds : List CodePoint} {c : CodePoint} {name : GroupName} (h : NameCharacter g cs c)
      (hc : c.isIdentifierStart ∨ c.isIdentifierPart) (tail : NameSpelling g ds name) :
      NameSpelling g (cs ++ ds) (c :: name)

namespace Parser

/-- A character of a name is read from one of its spellings and passes the test. -/
theorem nameCharacter_eq_done {test : CodePoint → Bool} {c : CodePoint}
    (h : nameCharacter test g s = .done c t) :
    ∃ cs, s.Reads cs t ∧ NameCharacter g cs c ∧ test c := by
  rw [nameCharacter, grammar_bind, bind_eq_done] at h
  obtain ⟨first, u, hfirst, h⟩ := h
  obtain ⟨-, hu⟩ := satisfy_eq_done.mp hfirst
  obtain ⟨d, v, hd, h⟩ := bind_eq_done.mp h
  obtain ⟨htest, h⟩ := require_bind_eq_done.mp h
  obtain ⟨rfl, rfl⟩ := pure_eq_done.mp h
  rcases orElse_eq_done.mp hd with hd | ⟨-, hd⟩
  · obtain ⟨hslash, hd⟩ := require_bind_eq_done.mp hd
    obtain rfl := eq_of_beq hslash
    obtain ⟨cs, hr, hcs⟩ := unicodeEscape_eq_done hd
    exact ⟨_, hu.trans hr, .escaped hcs, htest⟩
  rcases orElse_eq_done.mp hd with hd | ⟨-, hd⟩
  · obtain ⟨hjoin, hd⟩ := require_bind_eq_done.mp hd
    obtain ⟨hg, hlead⟩ := (Bool.and_eq_true _ _).mp hjoin
    obtain ⟨trail, w, htrail, hd⟩ := bind_eq_done.mp hd
    obtain ⟨rfl, rfl⟩ := pure_eq_done.mp hd
    obtain ⟨htrail, hr⟩ := satisfy_eq_done.mp htrail
    exact ⟨_, hu.trans hr, .pair hg hlead htrail, htest⟩
  · obtain ⟨rfl, rfl⟩ := pure_eq_done.mp hd
    exact ⟨_, hu, .plain first, htest⟩

/-- A character of a name takes up text, so a name can be read as a repetition. -/
theorem progresses_nameCharacter (test : CodePoint → Bool) (g : Grammar) :
    Progresses (nameCharacter test) g := by
  intro s c t hc
  obtain ⟨cs, hr, hcs, -⟩ := nameCharacter_eq_done hc
  refine hr.cursor.remaining_lt ?_
  cases hcs <;> exact List.cons_ne_nil _ _

/-- A name is spelt character by character. -/
theorem nameSpelling_of_chain {name : GroupName}
    (h : Chain (fun s c t => nameCharacter CodePoint.isIdentifierPart g s = .done c t) s name t) :
    ∃ cs, s.Reads cs t ∧ NameSpelling g cs name := by
  induction h with
  | nil s => exact ⟨[], .refl s, .nil⟩
  | cons head tail ih =>
    obtain ⟨cs, hr, hcs, hc⟩ := nameCharacter_eq_done head
    obtain ⟨ds, hrs, hds⟩ := ih
    exact ⟨cs ++ ds, hr.trans hrs, .cons hcs (.inr hc) hds⟩

/-- The name is read from between its angle brackets. -/
theorem groupName_eq_done {name : GroupName} (h : groupName g s = .done name t) :
    ∃ cs, s.Reads (.ofChar '<' :: (cs ++ [.ofChar '>'])) t ∧ NameSpelling g cs name ∧
      name ≠ [] := by
  rw [groupName, eat_bind_eq_done] at h
  obtain ⟨u₁, hopen, h⟩ := h
  obtain ⟨name', u₂, hname, h⟩ := bind_eq_done.mp h
  obtain ⟨u₃, hclose, h⟩ := eat_or_fail_bind_eq_done.mp h
  obtain ⟨rfl, rfl⟩ := pure_eq_done.mp h
  rw [orElse_fail_eq_done, identifierName, bind_eq_done] at hname
  obtain ⟨c, v, hc, hname⟩ := hname
  obtain ⟨rest, w, hrest, hname⟩ := bind_eq_done.mp hname
  obtain ⟨rfl, rfl⟩ := pure_eq_done.mp hname
  obtain ⟨cs, hr, hcs, hstart⟩ := nameCharacter_eq_done hc
  obtain ⟨ds, hrs, hds⟩ := nameSpelling_of_chain (chain_of_many hrest)
  have hread : s.Reads (.ofChar '<' :: (cs ++ ds ++ [.ofChar '>'])) u₃ :=
    hopen.trans ((hr.trans hrs).trans hclose)
  exact ⟨cs ++ ds, hread, .cons hcs (.inl hstart) hds, List.cons_ne_nil _ _⟩

end Parser

/-! ## Set escapes

A letter for a set, or a property between braces. The node that is made depends on the span, so a
spelling gives a function from spans to nodes. -/

/-- What may follow a backslash to stand for a set, and the set that it stands for. -/
inductive SetSpelling (g : Grammar) : List CodePoint → (Span → CharSet) → Prop
  | letter {c : CodePoint} {set : EscapeSet} {negated : Bool}
      (h : escapeSet? c = some (set, negated)) :
      SetSpelling g [c] fun span => .escape span set negated
  | property {c : CodePoint} {cs : List CodePoint} {p : Property} {negated : Bool}
      (hu : g.unicode = true) (hs : g.edition.supports .propertyEscapes)
      (hc : propertyLetter? c = some negated)
      (hcs : ∀ d ∈ cs, d.isPropertyValueCharacter ∨ d = .ofChar '=')
      (hp : (∃ name value, Property.ofPair? g.edition name value = some p) ∨
        ∃ name, Property.ofName? g.edition g.sets name = some p)
      (hn : (negated && p.strings) = false) :
      SetSpelling g (c :: .ofChar '{' :: (cs ++ [.ofChar '}'])) fun span =>
        .property span p negated

namespace Parser

theorem eq_of_propertyLetter? {c : CodePoint} (h : propertyLetter? c ≠ none) :
    c = .ofChar 'p' ∨ c = .ofChar 'P' := by
  unfold propertyLetter? at h
  split at h
  · next hp => exact .inl (eq_of_beq hp)
  · split at h
    · next hP => exact .inr (eq_of_beq hP)
    · exact absurd rfl h

theorem reads_of_chain_satisfy {test : CodePoint → Bool} {cs : List CodePoint}
    (h : Chain (fun s c t => satisfy test g s = .done c t) s cs t) :
    s.Reads cs t ∧ ∀ c ∈ cs, test c := by
  induction h with
  | nil s => exact ⟨.refl s, nofun⟩
  | cons head tail ih =>
    obtain ⟨hc, hr⟩ := satisfy_eq_done.mp head
    refine ⟨hr.trans ih.1, ?_⟩
    intro c hmem
    rcases List.mem_cons.mp hmem with rfl | hmem
    · exact hc
    · exact ih.2 c hmem

theorem propertyWord_eq_done {test : CodePoint → Bool} {w : String}
    (h : propertyWord test g s = .done w t) : ∃ cs, s.Reads cs t ∧ ∀ c ∈ cs, test c := by
  rw [propertyWord, bind_eq_done] at h
  obtain ⟨cs, u, hcs, h⟩ := h
  obtain ⟨rfl, rfl⟩ := pure_eq_done.mp h
  rw [many1, bind_eq_done] at hcs
  obtain ⟨c, v, hc, hcs⟩ := hcs
  obtain ⟨rest, x, hrest, hcs⟩ := bind_eq_done.mp hcs
  obtain ⟨rfl, rfl⟩ := pure_eq_done.mp hcs
  exact ⟨_, reads_of_chain_satisfy (Chain.cons hc (chain_of_many hrest))⟩

/-- A pair that is read is listed in the edition. -/
theorem propertyPair_eq_done {p : Property} (h : propertyPair g s = .done p t) :
    ∃ cs, s.Reads cs t ∧ (∀ c ∈ cs, c.isPropertyValueCharacter ∨ c = .ofChar '=') ∧
      ∃ name value, Property.ofPair? g.edition name value = some p := by
  rw [propertyPair, bind_eq_done] at h
  obtain ⟨name, u₁, hname, h⟩ := h
  obtain ⟨u₂, heq, h⟩ := eat_bind_eq_done.mp h
  obtain ⟨value, u₃, hvalue, h⟩ := bind_eq_done.mp h
  obtain ⟨cs, hr, hcs⟩ := propertyWord_eq_done hname
  obtain ⟨ds, hrs, hds⟩ := propertyWord_eq_done hvalue
  have hname : ∀ c ∈ cs, c.isPropertyValueCharacter := by
    intro c hc
    rw [CodePoint.isPropertyValueCharacter, hcs c hc, Bool.true_or]
  rw [grammar_bind] at h
  cases hp : Property.ofPair? g.edition name value with
  | none =>
    rw [hp] at h
    exact absurd h fail_ne_done
  | some q =>
    rw [hp] at h
    obtain ⟨rfl, rfl⟩ := pure_eq_done.mp h
    refine ⟨cs ++ .ofChar '=' :: ds, hr.trans (heq.trans hrs), ?_, name, value, hp⟩
    intro c hc
    rcases List.mem_append.mp hc with hc | hc
    · exact .inl (hname c hc)
    · rcases List.mem_cons.mp hc with rfl | hc
      · exact .inr rfl
      · exact .inl (hds c hc)

/-- A property that stands alone is listed in the edition. -/
theorem loneProperty_eq_done {p : Property} (h : loneProperty g s = .done p t) :
    ∃ cs, s.Reads cs t ∧ (∀ c ∈ cs, c.isPropertyValueCharacter) ∧
      ∃ name, Property.ofName? g.edition g.sets name = some p := by
  rw [loneProperty, bind_eq_done] at h
  obtain ⟨name, u, hname, h⟩ := h
  obtain ⟨cs, hr, hcs⟩ := propertyWord_eq_done hname
  rw [grammar_bind] at h
  cases hp : Property.ofName? g.edition g.sets name with
  | none =>
    rw [hp] at h
    exact absurd h fail_ne_done
  | some q =>
    rw [hp] at h
    obtain ⟨rfl, rfl⟩ := pure_eq_done.mp h
    exact ⟨cs, hr, hcs, name, hp⟩

theorem propertyEscape_eq_done {mark : Cursor} {x : CharSet}
    (h : propertyEscape mark g s = .done x t) :
    ∃ cs make, s.Reads cs t ∧ SetSpelling g cs make ∧ x = make (Span.between mark t.cursor) := by
  rw [propertyEscape, grammar_bind, require_bind_eq_done] at h
  obtain ⟨hu, h⟩ := h
  rw [supports_bind, require_bind_eq_done] at h
  obtain ⟨hs, h⟩ := h
  obtain ⟨negated, u₁, hneg, h⟩ := bind_eq_done.mp h
  obtain ⟨c, hc, hr₁⟩ := select_eq_done.mp hneg
  obtain ⟨u₂, hopen, h⟩ := eat_or_fail_bind_eq_done.mp h
  obtain ⟨p, u₃, hp, h⟩ := bind_eq_done.mp h
  obtain ⟨u₄, hclose, h⟩ := eat_or_fail_bind_eq_done.mp h
  have hword : ∃ cs, u₂.Reads cs u₃ ∧ (∀ d ∈ cs, d.isPropertyValueCharacter ∨ d = .ofChar '=') ∧
      ((∃ name value, Property.ofPair? g.edition name value = some p) ∨
        ∃ name, Property.ofName? g.edition g.sets name = some p) := by
    rcases orElse_eq_done.mp hp with hp | ⟨-, hp⟩
    · obtain ⟨cs, hr, hcs, hp⟩ := propertyPair_eq_done hp
      exact ⟨cs, hr, hcs, .inl hp⟩
    · obtain ⟨cs, hr, hcs, hp⟩ := loneProperty_eq_done (orElse_fail_eq_done.mp hp)
      exact ⟨cs, hr, fun d hd => .inl (hcs d hd), .inr hp⟩
  obtain ⟨cs, hr, hcs, hp⟩ := hword
  split at h
  · exact absurd h fail_ne_done
  · next hn =>
    rw [spanFrom_bind] at h
    obtain ⟨rfl, rfl⟩ := pure_eq_done.mp h
    exact ⟨_, _, hr₁.trans (hopen.trans (hr.trans hclose)),
      .property hu hs hc hcs hp (by simpa using hn), rfl⟩

/-- An escape for a set is read from one of its spellings, and spans it. -/
theorem setEscape_eq_done {mark : Cursor} {x : CharSet} (h : setEscape mark g s = .done x t) :
    ∃ cs make, s.Reads cs t ∧ SetSpelling g cs make ∧ x = make (Span.between mark t.cursor) := by
  rcases orElse_eq_done.mp h with h | ⟨-, h⟩
  · obtain ⟨⟨set, negated⟩, u, hset, h⟩ := bind_eq_done.mp h
    obtain ⟨c, hc, hr⟩ := select_eq_done.mp hset
    dsimp only at h
    rw [spanFrom_bind] at h
    obtain ⟨rfl, rfl⟩ := pure_eq_done.mp h
    exact ⟨[c], _, hr, .letter hc, rfl⟩
  · exact propertyEscape_eq_done h

end Parser

/-! ## Quantifiers

The signs that stand for bounds and the bounds between braces. A lenient parser reads the same
texts; it differs in what it does where there is nothing to read. -/

/-- The bounds of a quantifier as they are written. -/
inductive BoundsSpelling : List CodePoint → Bounds → Prop
  | star : BoundsSpelling ['*'] (0, none)
  | plus : BoundsSpelling ['+'] (1, none)
  | question : BoundsSpelling ['?'] (0, some 1)
  | exactly {cs : List CodePoint} {ds : List Nat} (h : Digits 10 cs ds) :
      BoundsSpelling (.ofChar '{' :: (cs ++ [.ofChar '}']))
        (ofDigits 10 ds, some (ofDigits 10 ds))
  | atLeast {cs : List CodePoint} {ds : List Nat} (h : Digits 10 cs ds) :
      BoundsSpelling (.ofChar '{' :: (cs ++ [.ofChar ',', .ofChar '}'])) (ofDigits 10 ds, none)
  | between {cs cs' : List CodePoint} {ds ds' : List Nat} (h : Digits 10 cs ds)
      (h' : Digits 10 cs' ds') :
      BoundsSpelling (.ofChar '{' :: (cs ++ .ofChar ',' :: (cs' ++ [.ofChar '}'])))
        (ofDigits 10 ds, some (ofDigits 10 ds'))

/-- A quantifier as it is written: its bounds, and a question mark if the match is to be short. -/
inductive QuantifierSpelling : List CodePoint → Repetition → Prop
  | greedy {cs : List CodePoint} {least : Nat} {greatest : Option Nat}
      (h : BoundsSpelling cs (least, greatest)) : QuantifierSpelling cs ⟨least, greatest, true⟩
  | lazy {cs : List CodePoint} {least : Nat} {greatest : Option Nat}
      (h : BoundsSpelling cs (least, greatest)) :
      QuantifierSpelling (cs ++ [.ofChar '?']) ⟨least, greatest, false⟩

namespace Parser

theorem incompleteBounds_ne_done {α : Type} {lenient : Bool} {a : α} :
    incompleteBounds lenient g s ≠ .done a t := by
  intro h
  rw [incompleteBounds, grammar_bind] at h
  split at h
  · cases h
  · exact absurd h fail_ne_done

/-- Behind bounds that may be incomplete, only the sign itself can be read. -/
theorem eat_or_incomplete_eq_done {lenient : Bool} {c : CodePoint} {x : Unit} :
    (eat c <|> incompleteBounds lenient : Parser Unit) g s = .done x t ↔ s.Reads [c] t := by
  rw [orElse_eq_done, eat_eq_done]
  simp [incompleteBounds_ne_done]

theorem number_or_incomplete_eq_done {lenient : Bool} {n : Nat} :
    (number 10 <|> incompleteBounds lenient : Parser Nat) g s = .done n t ↔
      number 10 g s = .done n t := by
  rw [orElse_eq_done]
  simp [incompleteBounds_ne_done]

/-- Bounds between braces are read from one of their spellings. -/
theorem bracedBounds_eq_done {lenient : Bool} {b : Bounds}
    (h : bracedBounds lenient g s = .done b t) : ∃ cs, s.Reads cs t ∧ BoundsSpelling cs b := by
  rw [bracedBounds, eat_bind_eq_done] at h
  obtain ⟨u₁, hopen, h⟩ := h
  obtain ⟨least, u₂, hleast, h⟩ := bind_eq_done.mp h
  obtain ⟨cs, ds, hr, hcs, -, rfl, -⟩ := number_eq_done (number_or_incomplete_eq_done.mp hleast)
  obtain ⟨comma, u₃, hcomma, h⟩ := bind_eq_done.mp h
  -- what is left to read once the greatest count is known
  have hrest : ∀ {greatest : Option Nat} {v : State},
      (do
        eat '}' <|> incompleteBounds lenient
        if !lenient && outOfOrder (ofDigits 10 ds, greatest) then fail .quantifierOutOfOrder
        else return (ofDigits 10 ds, greatest) : Parser Bounds) g v = .done b t →
      v.Reads [.ofChar '}'] t ∧ b = (ofDigits 10 ds, greatest) := by
    intro greatest v h
    obtain ⟨_, w, hclose, h⟩ := bind_eq_done.mp h
    split at h
    · exact absurd h fail_ne_done
    · obtain ⟨rfl, rfl⟩ := pure_eq_done.mp h
      exact ⟨eat_or_incomplete_eq_done.mp hclose, rfl⟩
  rcases eats_eq_done.mp hcomma with ⟨rfl, hread⟩ | ⟨rfl, -, rfl⟩
  · obtain ⟨greatest, u₄, hgreatest, h⟩ := bind_eq_done.mp h
    obtain ⟨hclose, rfl⟩ := hrest h
    rcases attempt_eq_done.mp hgreatest with ⟨n, rfl, hn⟩ | ⟨rfl, -, rfl⟩
    · obtain ⟨cs', ds', hr', hcs', -, rfl, -⟩ := number_eq_done hn
      exact ⟨_, hopen.trans (hr.trans (hread.trans (hr'.trans hclose))), .between hcs hcs'⟩
    · exact ⟨_, hopen.trans (hr.trans (hread.trans hclose)), .atLeast hcs⟩
  · obtain ⟨greatest, u₄, hgreatest, h⟩ := bind_eq_done.mp h
    obtain ⟨hclose, rfl⟩ := hrest h
    obtain ⟨rfl, rfl⟩ := pure_eq_done.mp hgreatest
    exact ⟨_, hopen.trans (hr.trans hclose), .exactly hcs⟩

/-- Behind an opening brace there are no bounds but those between braces. -/
theorem quantifierBounds_of_brace {lenient : Bool} (hc : s.cursor.current = some (.ofChar '{')) :
    quantifierBounds lenient g s = bracedBounds lenient g s := by
  have hne : ∀ {k : CodePoint}, k ≠ .ofChar '{' → s.cursor.current ≠ some k := by
    intro k hk hcur
    exact hk (Option.some.inj (hcur.symm.trans hc))
  rw [quantifierBounds, orElse_of_miss (bind_of_miss (eat_eq_miss.mpr (hne (by decide)))),
    orElse_of_miss (bind_of_miss (eat_eq_miss.mpr (hne (by decide)))),
    orElse_of_miss (bind_of_miss (eat_eq_miss.mpr (hne (by decide))))]

/-- If the first number behind the brace is too long, so are the bounds. -/
theorem bracedBounds_overflows (lenient : Bool) (hopen : s.Reads ['{'] t)
    (h : (number 10 g t).Overflows) : (bracedBounds lenient g s).Overflows := by
  rw [bracedBounds, bind_of_done (eat_eq_done (x := ()).mpr hopen)]
  exact Overflows.bind (Overflows.orElse h)

/-- A quantifier that begins with a brace finds what its bounds find. -/
theorem quantifier_overflows {lenient : Bool} (hc : s.cursor.current = some (.ofChar '{'))
    (h : (bracedBounds lenient g s).Overflows) : (quantifier lenient g s).Overflows := by
  rw [← quantifierBounds_of_brace hc] at h
  exact Overflows.bind h

theorem quantifierBounds_eq_done {lenient : Bool} {b : Bounds}
    (h : quantifierBounds lenient g s = .done b t) : ∃ cs, s.Reads cs t ∧ BoundsSpelling cs b := by
  rcases orElse_eq_done.mp h with h | ⟨-, h⟩
  · obtain ⟨u, hr, h⟩ := eat_bind_eq_done.mp h
    obtain ⟨rfl, rfl⟩ := pure_eq_done.mp h
    exact ⟨_, hr, .star⟩
  rcases orElse_eq_done.mp h with h | ⟨-, h⟩
  · obtain ⟨u, hr, h⟩ := eat_bind_eq_done.mp h
    obtain ⟨rfl, rfl⟩ := pure_eq_done.mp h
    exact ⟨_, hr, .plus⟩
  rcases orElse_eq_done.mp h with h | ⟨-, h⟩
  · obtain ⟨u, hr, h⟩ := eat_bind_eq_done.mp h
    obtain ⟨rfl, rfl⟩ := pure_eq_done.mp h
    exact ⟨_, hr, .question⟩
  · exact bracedBounds_eq_done h

/-- A quantifier is read from one of its spellings. -/
theorem quantifier_eq_done {lenient : Bool} {r : Repetition}
    (h : quantifier lenient g s = .done r t) :
    ∃ cs, s.Reads cs t ∧ QuantifierSpelling cs r := by
  rw [quantifier, bind_eq_done] at h
  obtain ⟨⟨least, greatest⟩, u, hb, h⟩ := h
  obtain ⟨cs, hr, hcs⟩ := quantifierBounds_eq_done hb
  obtain ⟨short, v, hshort, h⟩ := bind_eq_done.mp h
  obtain ⟨rfl, rfl⟩ := pure_eq_done.mp h
  rcases eats_eq_done.mp hshort with ⟨rfl, hq⟩ | ⟨rfl, -, rfl⟩
  · exact ⟨_, hr.trans hq, .lazy hcs⟩
  · exact ⟨_, hr, .greedy hcs⟩

end Parser

end EcmaPattern
