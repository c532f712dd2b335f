import Mathlib.Algebra.Group.Nat.Defs
import EcmaPattern.Proofs.SetGrammar.Characters
import EcmaPattern.Proofs.Traces

/-!
# Values of characters

The value of a character is worked out from the text it is written as, by a function of its own
(`code?`). What the parsers of escapes read, after trying the longer forms first, has the value that
this function gives, and is as long as it can be: no octal digit that still fits is left behind, and
no escaped lead surrogate is read without its trail (`ReadsValue.decodes`).

Key lemmas:

* `Decodes.of_octal`, where the longest run of digits that fits is shown to be taken;
* `unicodeEscape_decodes`, where a lead and a trail are read together;
* `escapedValue_decodes`, assembled from one lemma for each kind of escape.
-/

namespace EcmaPattern

open EcmaPattern.Parser

variable {g : Grammar} {s t u : State}

/-! ## Codes

The function does not follow the parser. It takes the whole text of a character and decides by its
length and its first signs. -/

/-- The number that digits of a base write, if there is at least one and there is nothing else. -/
def numberOf? (base : Nat) (cs : List CodePoint) : Option Nat :=
  if cs.isEmpty then none else (cs.mapM (CodePoint.digit? base)).map (ofDigits base)

def controlCodes : List (CodePoint × Nat) :=
  [('f', 0x0C), ('n', 0x0A), ('r', 0x0D), ('t', 0x09), ('v', 0x0B)]

/-- The code of one escaped character. In classes `\b` is a backspace; elsewhere it is no character.
Without the extensions of the web grammar, zero is the only digit that is one. -/
def singleCode? (exact inClass : Bool) (c : CodePoint) : Option Nat :=
  if c = 'b' then if inClass then some 0x08 else none
  else if c = '0' ∨ exact = false ∧ c.isOctalDigit = true then c.digit? 8
  else some ((controlCodes.lookup c).getD c.val)

def pairCode? (lead trail : Nat) : Option Nat :=
  if 0xD800 ≤ lead ∧ lead ≤ 0xDBFF ∧ 0xDC00 ≤ trail ∧ trail ≤ 0xDFFF then
    some (0x10000 + (lead - 0xD800) * 0x400 + (trail - 0xDC00))
  else none

/-- The code of what follows the `u` of an escape: four digits or, by code points, digits between
braces, or two escaped surrogates. -/
def unicodeCode? (unicode : Bool) (cs : List CodePoint) : Option Nat :=
  if cs.head? = some (.ofChar '{') then
    if unicode = true ∧ cs.getLast? = some (.ofChar '}') then numberOf? 16 cs.tail.dropLast
    else none
  else if cs.length = 4 then numberOf? 16 cs
  else if unicode = true ∧ cs.length = 10 ∧ (cs.drop 4).take 2 = [.ofChar '\\', .ofChar 'u'] then do
    pairCode? (← numberOf? 16 (cs.take 4)) (← numberOf? 16 (cs.drop 6))
  else none

def escapedCode? (unicode exact inClass : Bool) : List CodePoint → Option Nat
  | [] => none
  | [c] => singleCode? exact inClass c
  | c :: cs =>
    if c = 'c' then if cs.length = 1 then cs.head?.map fun letter => letter.val % 32 else none
    else if c = 'x' then if cs.length = 2 then numberOf? 16 cs else none
    else if c = 'u' then unicodeCode? unicode cs
    else if exact = false ∧ cs.length ≤ 2 then (numberOf? 8 (c :: cs)).filter (· ≤ 255)
    else none

/-- The code of an escape of more than one character. -/
theorem escapedCode?_cons_cons {unicode exact inClass : Bool} {c c' : CodePoint}
    {cs : List CodePoint} :
    escapedCode? unicode exact inClass (c :: c' :: cs) =
      if c = 'c' then if (c' :: cs).length = 1 then some (c'.val % 32) else none
      else if c = 'x' then if (c' :: cs).length = 2 then numberOf? 16 (c' :: cs) else none
      else if c = 'u' then unicodeCode? unicode (c' :: cs)
      else if exact = false ∧ (c' :: cs).length ≤ 2 then
        (numberOf? 8 (c :: c' :: cs)).filter (· ≤ 255)
      else none := rfl

/-- The code of a character as it is written: its own, that of an escape, or that of a lone
backslash. -/
def code? (unicode exact inClass : Bool) : List CodePoint → Option Nat
  | [] => none
  | [c] => some c.val
  | c :: cs => if c = '\\' then escapedCode? unicode exact inClass cs else none

theorem code?_cons_cons {unicode exact inClass : Bool} {c c' : CodePoint} {cs : List CodePoint} :
    code? unicode exact inClass (c :: c' :: cs) =
      if c = '\\' then escapedCode? unicode exact inClass (c' :: cs) else none := rfl

/-- An escape of four digits whose number is a trail surrogate begins the text. -/
def BeginsWithTrail (cs : List CodePoint) : Prop :=
  ∃ ds rest n, cs = .ofChar '\\' :: .ofChar 'u' :: (ds ++ rest) ∧ ds.length = 4 ∧
    numberOf? 16 ds = some n ∧ 0xDC00 ≤ n ∧ n ≤ 0xDFFF

/-- The text has the value as its code, and it goes as far as it can: the octal digits of an escape
are not followed by one that fits, nor an escaped lead surrogate by its trail. -/
structure Decodes (unicode exact inClass : Bool) (cs : List CodePoint) (v : CodePoint)
    (next : List CodePoint) : Prop where
  code : code? unicode exact inClass cs = some v.val
  octal : ∀ ds n d, cs = .ofChar '\\' :: ds → numberOf? 8 ds = some n →
    next.head?.bind (CodePoint.digit? 8) = some d → ds.length = 3 ∨ 255 < n * 8 + d
  unsplit : unicode = true → ∀ ds n, cs = .ofChar '\\' :: .ofChar 'u' :: ds → ds.length = 4 →
    numberOf? 16 ds = some n → 0xD800 ≤ n → n ≤ 0xDBFF → ¬ BeginsWithTrail next

/-! ### Digits

Numbers in bases 8, 10 and 16 as digits from the left. -/

/-- Digits with their values are the text in which every character has a value. -/
theorem digits_iff_mapM {base : Nat} {cs : List CodePoint} {ds : List Nat} :
    Digits base cs ds ↔ cs.mapM (CodePoint.digit? base) = some ds := by
  induction cs generalizing ds with
  | nil =>
    rw [Digits, List.map_nil, List.mapM_nil]
    constructor
    · intro h
      rw [List.map_eq_nil_iff.mp h.symm]
      rfl
    · intro h
      rw [← Option.some.inj h, List.map_nil]
  -- by induction on the text; the first character is a digit or nothing is
  | cons c cs ih =>
    rw [List.mapM_cons]
    cases hc : c.digit? base with
    | none =>
      constructor
      · intro h
        cases ds with
        | nil => cases h
        | cons d ds => rw [Digits, List.map_cons, hc] at h; cases h
      · intro h
        cases h
    | some d =>
      constructor
      · intro h
        cases ds with
        | nil => cases h
        | cons d' ds =>
          obtain ⟨hd, htail⟩ := List.cons.inj h
          obtain rfl : d = d' := Option.some.inj (hc.symm.trans hd)
          show (do return d :: (← cs.mapM (CodePoint.digit? base)) : Option (List Nat)) = _
          rw [ih.mp htail]
          rfl
      · intro h
        obtain ⟨d', hd, h⟩ := Option.bind_eq_some_iff.mp h
        obtain ⟨ds', hds, heq⟩ := Option.bind_eq_some_iff.mp h
        obtain rfl : d = d' := Option.some.inj hd
        rw [← Option.some.inj heq]
        exact (ih.mpr hds).cons hc

/-- A text writes a number if it is made of digits, and there is at least one. -/
theorem numberOf?_eq_some {base n : Nat} {cs : List CodePoint} :
    numberOf? base cs = some n ↔ ∃ ds, Digits base cs ds ∧ ds ≠ [] ∧ ofDigits base ds = n := by
  rw [numberOf?]
  constructor
  · intro h
    split at h
    · cases h
    · next hne =>
      obtain ⟨ds, hds, hn⟩ := Option.map_eq_some_iff.mp h
      have hds := digits_iff_mapM.mpr hds
      refine ⟨ds, hds, ?_, hn⟩
      rintro rfl
      exact hne (List.isEmpty_iff.mpr (List.length_eq_zero_iff.mp hds.length_eq))
  · rintro ⟨ds, hds, hne, rfl⟩
    rw [digits_iff_mapM.mp hds, if_neg]
    · rfl
    · intro hcs
      rw [List.isEmpty_iff.mp hcs] at hds
      exact hne (List.length_eq_zero_iff.mp hds.length_eq.symm)

theorem numberOf?_eq_none {base : Nat} {c : CodePoint} {cs : List CodePoint}
    (h : c.digit? base = none) : numberOf? base (c :: cs) = none := by
  rw [Option.eq_none_iff_forall_ne_some]
  intro n hn
  obtain ⟨ds, hds, -, -⟩ := numberOf?_eq_some.mp hn
  have hc := hds.isSome_of_mem List.mem_cons_self
  rw [h] at hc
  cases hc

/-- So many digits stand for a number below that power of the base. -/
theorem ofDigits_foldl_lt {base : Nat} {ds : List Nat} (h : ∀ d ∈ ds, d < base) (n : Nat) :
    ds.foldl (fun n d => n * base + d) n < (n + 1) * base ^ ds.length := by
  induction ds generalizing n with
  | nil => simp
  | cons d ds ih =>
    obtain ⟨hd, hds⟩ := List.forall_mem_cons.mp h
    have hle : n * base + d + 1 ≤ (n + 1) * base := by
      rw [Nat.add_mul]
      omega
    calc ds.foldl (fun n d => n * base + d) (n * base + d)
        < (n * base + d + 1) * base ^ ds.length := ih hds _
      _ ≤ (n + 1) * base * base ^ ds.length := Nat.mul_le_mul_right _ hle
      _ = (n + 1) * base ^ (d :: ds).length := by
        rw [List.length_cons, Nat.pow_succ', Nat.mul_assoc]

/-- A number of so many digits. -/
theorem numberOf?_lt {base n : Nat} {cs : List CodePoint} (h : numberOf? base cs = some n) :
    n < base ^ cs.length := by
  obtain ⟨ds, hds, -, rfl⟩ := numberOf?_eq_some.mp h
  rw [hds.length_eq, ← Nat.one_mul (base ^ ds.length)]
  refine ofDigits_foldl_lt (fun d hd => ?_) 0
  obtain ⟨c, -, hc⟩ := List.mem_map.mp (hds ▸ List.mem_map_of_mem hd : some d ∈ cs.map _)
  exact CodePoint.digit?_lt hc

/-! ## Escapes

For each kind of escape: its text has the code that the parser gives. Where the parser has tried
longer forms before, their missing shows that no digit and no trail was left behind. -/

section Escapes

variable {unicode exact inClass : Bool} {v : CodePoint}

/-- An escape that does not begin with a digit, nor with a `u` and four of them. -/
theorem Decodes.of_escape {c : CodePoint} {cs next : List CodePoint} (hc : c.digit? 8 = none)
    (hu : c = 'u' → cs.length = 4 → numberOf? 16 cs = none)
    (hcode : escapedCode? unicode exact inClass (c :: cs) = some v.val) :
    Decodes unicode exact inClass (.ofChar '\\' :: c :: cs) v next where
  code := hcode
  octal ds n d hds hn := by
    rw [← (List.cons.inj hds).2, numberOf?_eq_none hc] at hn
    cases hn
  unsplit _ ds n hds hl hn := by
    obtain ⟨-, hds⟩ := List.cons.inj hds
    obtain ⟨hc, rfl⟩ := List.cons.inj hds
    rw [hu hc hl] at hn
    cases hn

/-- An escape that begins with another letter than `u`. -/
theorem Decodes.of_letter {c : CodePoint} {cs next : List CodePoint} (hc : c.digit? 8 = none)
    (hu : c ≠ 'u') (hcode : escapedCode? unicode exact inClass (c :: cs) = some v.val) :
    Decodes unicode exact inClass (.ofChar '\\' :: c :: cs) v next :=
  .of_escape hc (fun h => absurd h hu) hcode

theorem lookup_controlCodes (c : CodePoint) :
    controlCodes.lookup c = (controlValue? c).map (·.val) := by
  simp only [controlCodes, List.lookup_cons, List.lookup_nil, controlValue?]
  cases c == .ofChar 'f' <;> cases c == .ofChar 'n' <;> cases c == .ofChar 'r' <;>
    cases c == .ofChar 't' <;> cases c == .ofChar 'v' <;> rfl

/-- A letter that stands for a control character is no digit. -/
theorem digit?_eq_none_of_controlValue? {c : CodePoint} (hc : controlValue? c = some v) :
    c.digit? 8 = none := by
  have hcode := lookup_controlCodes c
  rw [hc] at hcode
  obtain ⟨before, after, hcodes, -⟩ := List.lookup_eq_some_iff.mp hcode
  have hmem : (c, v.val) ∈ controlCodes := by
    rw [hcodes]
    exact List.mem_append_right before List.mem_cons_self
  have hall : ∀ p ∈ controlCodes, p.1.digit? 8 = none := by decide
  exact hall _ hmem

/-- An escaped character that is not `b` and no digit that begins a number. -/
theorem singleCode?_eq {c : CodePoint} (hb : c ≠ 'b') (hzero : c ≠ '0')
    (hdigit : exact = false → c.isOctalDigit = false) :
    singleCode? exact inClass c = some (((controlValue? c).map (·.val)).getD c.val) := by
  rw [singleCode?, if_neg hb, if_neg, lookup_controlCodes]
  rintro (h | ⟨hexact, h⟩)
  · exact hzero h
  · rw [hdigit hexact] at h
    cases h

/-- An escaped character that stands for itself. -/
theorem Decodes.of_identity {next : List CodePoint} (hb : v ≠ 'b') (hdigit : v.digit? 8 = none)
    (hcontrol : controlValue? v = none) :
    Decodes unicode exact inClass ['\\', v] v next := by
  have hzero : v ≠ '0' := by
    rintro rfl
    exact absurd hdigit (by decide)
  refine .of_escape hdigit (fun _ hl => absurd hl (by decide)) ?_
  rw [escapedCode?, singleCode?_eq hb hzero fun _ => by rw [CodePoint.isOctalDigit, hdigit]; rfl,
    hcontrol]
  rfl

/-- A character that stands for itself, or a lone backslash. -/
theorem Decodes.of_single {next : List CodePoint} : Decodes unicode exact inClass [v] v next where
  code := rfl
  octal ds n d hds hn := by
    rw [← (List.cons.inj hds).2] at hn
    cases hn
  unsplit _ ds n hds := by cases (List.cons.inj hds).2

/-- An escape that is written with octal digits. -/
theorem escapedCode?_of_octal {cs : List CodePoint} {ds : List Nat} (h : Digits 8 cs ds)
    (hne : ds ≠ []) (hlength : ds.length ≤ 3) (hle : ofDigits 8 ds ≤ 255) :
    escapedCode? unicode false inClass cs = some (ofDigits 8 ds) := by
  have hnumber := numberOf?_eq_some.mpr ⟨ds, h, hne, rfl⟩
  have hlength' := h.length_eq
  have hletter : ∀ letter : CodePoint, letter.digit? 8 = none → ∀ c ∈ cs, c ≠ letter := by
    rintro _ hnone c hc rfl
    have hdigit := h.isSome_of_mem hc
    rw [hnone] at hdigit
    cases hdigit
  cases cs with
  | nil => exact absurd (List.length_eq_zero_iff.mp hlength'.symm) hne
  | cons c cs =>
    cases cs with
    | nil =>
      have hdigit : c.isOctalDigit = true := h.isSome_of_mem List.mem_cons_self
      have hb := hletter 'b' (by decide) c List.mem_cons_self
      obtain ⟨d, rfl⟩ : ∃ d, ds = [d] := List.length_eq_one_iff.mp hlength'.symm
      rw [escapedCode?, singleCode?, if_neg hb, if_pos (.inr ⟨rfl, hdigit⟩), (List.cons.inj h).1]
      simp [ofDigits]
    | cons c' cs =>
      have hc := hletter 'c' (by decide) c List.mem_cons_self
      have hx := hletter 'x' (by decide) c List.mem_cons_self
      have hu := hletter 'u' (by decide) c List.mem_cons_self
      rw [List.length_cons] at hlength'
      rw [escapedCode?_cons_cons, if_neg hc, if_neg hx, if_neg hu, if_pos ⟨rfl, by omega⟩, hnumber]
      simpa using hle

/-- Octal digits of an escape that no digit follows which would fit. -/
theorem Decodes.of_octal {cs next : List CodePoint} {ds : List Nat} (h : Digits 8 cs ds)
    (hne : ds ≠ []) (hlength : ds.length ≤ 3) (hle : ofDigits 8 ds ≤ 255)
    (hnext : ∀ d, next.head?.bind (CodePoint.digit? 8) = some d →
      ds.length = 3 ∨ 255 < ofDigits 8 ds * 8 + d) :
    Decodes unicode false inClass (.ofChar '\\' :: cs) (.ofNat (ofDigits 8 ds)) next := by
  have hcs : ∃ c cs', cs = c :: cs' := by
    refine List.exists_cons_of_ne_nil ?_
    rintro rfl
    exact hne (List.length_eq_zero_iff.mp h.length_eq.symm)
  obtain ⟨c, cs', rfl⟩ := hcs
  refine ⟨?_, ?_, ?_⟩
  · rw [CodePoint.val_ofNat (by omega)]
    exact escapedCode?_of_octal h hne hlength hle
  · intro ds' n d hds hn hd
    rw [← (List.cons.inj hds).2, numberOf?_eq_some.mpr ⟨ds, h, hne, rfl⟩] at hn
    rw [← (List.cons.inj hds).2, h.length_eq, ← Option.some.inj hn]
    exact hnext d hd
  · intro _ ds' n hds
    obtain ⟨hu, -⟩ := List.cons.inj (List.cons.inj hds).2
    have hdigit := h.isSome_of_mem List.mem_cons_self
    rw [hu] at hdigit
    exact absurd hdigit (by decide)

/-- An octal escape decodes to its value and takes as many digits as it can. -/
theorem legacyOctal_decodes (h : legacyOctal g s = .done v t) :
    ∃ cs, s.Reads cs t ∧
      Decodes unicode false inClass (.ofChar '\\' :: cs) v t.cursor.characters := by
  obtain ⟨cs, ds, hr, hcs, hne, hlength, hlt, rfl, hnext⟩ := legacyOctal_eq_done h
  refine ⟨cs, hr, .of_octal hcs hne hlength (Nat.le_of_lt_succ hlt) fun d hd => hnext d ?_⟩
  rwa [Cursor.current_eq_head?]

/-- A number of two or four hexadecimal digits is a code point. -/
theorem numberOf?_eq_val {cs : List CodePoint} {ds : List Nat} (h : Digits 16 cs ds)
    (hl : cs.length = 2 ∨ cs.length = 4) :
    numberOf? 16 cs = some (CodePoint.ofNat (ofDigits 16 ds)).val ∧
      (CodePoint.ofNat (ofDigits 16 ds)).val = ofDigits 16 ds := by
  have hlength := h.length_eq
  have hne : ds ≠ [] := by
    rintro rfl
    rw [List.length_nil] at hlength
    omega
  have hnumber := numberOf?_eq_some.mpr ⟨ds, h, hne, rfl⟩
  have hlt := numberOf?_lt hnumber
  have hval : (CodePoint.ofNat (ofDigits 16 ds)).val = ofDigits 16 ds := by
    refine CodePoint.val_ofNat (Nat.lt_of_lt_of_le hlt ?_)
    rcases hl with hl | hl <;> rw [hl] <;> decide
  rw [hval]
  exact ⟨hnumber, rfl⟩

/-- Two escaped surrogates have the code of the pair. -/
theorem unicodeCode?_pair {cs₁ cs₂ : List CodePoint} {ds₁ ds₂ : List Nat} (h₁ : Digits 16 cs₁ ds₁)
    (h₂ : Digits 16 cs₂ ds₂) (hl₁ : cs₁.length = 4) (hl₂ : cs₂.length = 4)
    (hlead : (CodePoint.ofNat (ofDigits 16 ds₁)).isLead = true)
    (htrail : (CodePoint.ofNat (ofDigits 16 ds₂)).isTrail = true) :
    unicodeCode? true (cs₁ ++ .ofChar '\\' :: .ofChar 'u' :: cs₂) =
      some (CodePoint.ofPair (.ofNat (ofDigits 16 ds₁)) (.ofNat (ofDigits 16 ds₂))).val := by
  have hval := CodePoint.val_ofPair hlead htrail
  obtain ⟨hn₁, hval₁⟩ := numberOf?_eq_val h₁ (.inr hl₁)
  obtain ⟨hn₂, hval₂⟩ := numberOf?_eq_val h₂ (.inr hl₂)
  rw [CodePoint.isLead_iff] at hlead
  rw [CodePoint.isTrail_iff] at htrail
  have hhead : (cs₁ ++ .ofChar '\\' :: .ofChar 'u' :: cs₂).head? ≠ some (.ofChar '{') := by
    cases cs₁ with
    | nil => cases hl₁
    | cons c cs =>
      intro hc
      have hdigit := h₁.isSome_of_mem List.mem_cons_self
      rw [Option.some.inj hc] at hdigit
      exact absurd hdigit (by decide)
  rw [unicodeCode?, if_neg hhead, if_neg (by simp [hl₁]), if_pos (by simp [hl₁, hl₂]), ← hl₁,
    List.take_left, hn₁]
  have hdrop : (cs₁ ++ .ofChar '\\' :: .ofChar 'u' :: cs₂).drop 6 = cs₂ := by
    rw [show 6 = cs₁.length + 2 by rw [hl₁], List.drop_length_add_append]
    rfl
  rw [hdrop, hn₂]
  show pairCode? _ _ = _
  rw [pairCode?, if_pos ⟨hlead.1, hlead.2, htrail⟩, hval, Option.some.injEq]
  omega

/-- Where surrogates are read in pairs, a lead that was read by itself has no trail behind it. -/
theorem Decodes.of_fixed {cs : List CodePoint} {ds : List Nat} (h : Digits 16 cs ds)
    (hl : cs.length = 4) (hnext : unicode = true →
      (CodePoint.ofNat (ofDigits 16 ds)).isLead = true → ¬ SetGrammar.EscapedTrail t.cursor) :
    Decodes unicode exact inClass (.ofChar '\\' :: .ofChar 'u' :: cs) (.ofNat (ofDigits 16 ds))
      t.cursor.characters := by
  obtain ⟨hnumber, -⟩ := numberOf?_eq_val h (.inr hl)
  have hdigit : ∀ {c : CodePoint}, c ∈ cs → c ≠ '{' := by
    rintro c hc rfl
    exact absurd (h.isSome_of_mem hc) (by decide)
  have hhead : cs.head? ≠ some (.ofChar '{') := fun hc => hdigit (List.mem_of_head? hc) rfl
  obtain ⟨c, cs, rfl⟩ := List.exists_cons_of_length_eq_add_one hl
  refine ⟨?_, ?_, ?_⟩
  · show unicodeCode? unicode (c :: cs) = _
    rw [unicodeCode?, if_neg hhead, if_pos hl, hnumber]
  · intro ds' n d hds hn
    rw [← (List.cons.inj hds).2, numberOf?_eq_none (by decide)] at hn
    cases hn
  · rintro hu ds' n hds - hn hlead hle ⟨ds'', rest, m, hcharacters, hl', hm, htrail, hle'⟩
    rw [← (List.cons.inj (List.cons.inj hds).2).2, hnumber] at hn
    obtain rfl := Option.some.inj hn
    obtain ⟨d, hd⟩ : ∃ d, t.cursor.Reads (.ofChar '\\' :: .ofChar 'u' :: ds'') d :=
      Cursor.reads_of_characters hcharacters
    obtain ⟨es, hes, -, rfl⟩ := numberOf?_eq_some.mp hm
    refine hnext hu (CodePoint.isLead_iff.mpr ⟨hlead, hle⟩) ⟨ds'', es, d, hd, hes, hl', ?_⟩
    rw [CodePoint.isTrail_iff, (numberOf?_eq_val hes (.inr hl')).2]
    exact ⟨htrail, hle'⟩

theorem unicodeCode?_braced {cs : List CodePoint} {ds : List Nat} (h : Digits 16 cs ds)
    (hne : ds ≠ []) (hv : CodePoint.ofInt? (ofDigits 16 ds) = some v) :
    unicodeCode? true (.ofChar '{' :: (cs ++ [.ofChar '}'])) = some v.val := by
  have hlast : (.ofChar '{' :: (cs ++ [.ofChar '}']) : List CodePoint).getLast? =
      some (.ofChar '}') := by
    rw [← List.cons_append, List.getLast?_concat]
  rw [unicodeCode?, if_pos List.head?_cons, if_pos ⟨rfl, hlast⟩, List.tail_cons,
    List.dropLast_concat, numberOf?_eq_some.mpr ⟨ds, h, hne, rfl⟩]
  rw [CodePoint.ofInt?] at hv
  split at hv
  · rw [← Option.some.inj hv]
    rfl
  · cases hv

/-- A Unicode escape decodes to its value, in whichever way it is written. -/
theorem unicodeEscape_decodes (h : unicodeEscape g.unicode g s = .done v t) :
    ∃ cs, s.Reads (.ofChar 'u' :: cs) t ∧
      Decodes g.unicode exact inClass (.ofChar '\\' :: .ofChar 'u' :: cs) v
        t.cursor.characters := by
  rw [unicodeEscape, eat_bind_eq_done] at h
  obtain ⟨u, hu, h⟩ := h
  rcases orElse_eq_done.mp h with h | ⟨hpair, h⟩
  · obtain ⟨hw, h⟩ := require_bind_eq_done.mp h
    -- a pair is as long as no other form, so its text cannot be taken for one
    obtain ⟨cs₁, cs₂, ds₁, ds₂, hr, h₁, h₂, hl₁, hl₂, hlead, htrail, rfl⟩ := escapedPair_eq_done h
    obtain ⟨c, cs₁, rfl⟩ := List.exists_cons_of_length_eq_add_one hl₁
    have hlength : (c :: cs₁ ++ .ofChar '\\' :: .ofChar 'u' :: cs₂).length = 10 := by
      simp only [List.length_append, List.length_cons] at hl₁ ⊢
      omega
    refine ⟨_, hu.trans hr, .of_escape (by decide) (fun _ hl => ?_) ?_⟩
    · exact absurd (hlength.symm.trans hl) (by decide)
    rw [hw]
    exact unicodeCode?_pair h₁ h₂ hl₁ hl₂ hlead htrail
  rcases orElse_eq_done.mp h with h | ⟨-, h⟩
  · obtain ⟨n, hn, rfl⟩ := map_eq_done.mp h
    obtain ⟨cs, ds, hr, hcs, hl, rfl⟩ := fixedHex_eq_done hn
    refine ⟨_, hu.trans hr, .of_fixed hcs hl fun hw => ?_⟩
    -- that the pair missed says that no trail follows a lead
    rcases require_bind_eq_miss.mp hpair with hw' | hpair
    · rw [hw] at hw'
      cases hw'
    · exact (escapedPair_eq_miss hr hcs hl).mp hpair
  rcases orElse_eq_done.mp h with h | ⟨-, h⟩
  · obtain ⟨hw, h⟩ := require_bind_eq_done.mp h
    obtain ⟨cs, ds, hr, hcs, hne, hv⟩ := bracedCodePoint_eq_done h
    refine ⟨_, hu.trans hr, .of_escape (by decide) (fun _ _ => numberOf?_eq_none (by decide)) ?_⟩
    rw [hw]
    obtain ⟨c, cs', hcs'⟩ : ∃ c cs', cs ++ [.ofChar '}'] = c :: cs' :=
      List.exists_cons_of_ne_nil (by simp)
    exact unicodeCode?_braced hcs hne hv
  · rw [grammar_bind, require_bind_eq_done] at h
    exact absurd h.2 fail_ne_done

/-- Without the extensions of the web grammar, no digit stands for itself. -/
theorem isIdentityEscape_digit {c : CodePoint} (hg : g.exact = true)
    (hc : c.isDecimalDigit = true) : isIdentityEscape g c = false := by
  rw [isIdentityEscape]
  cases hu : g.unicode with
  | true =>
    rw [if_pos rfl, CodePoint.isSyntaxCharacter,
      CodePoint.isOneOf_eq_false CodePoint.isDecimalDigit hc (by decide),
      CodePoint.isOneOf_eq_false CodePoint.isDecimalDigit hc (by decide)]
    rfl
  | false =>
    have hs : g.strict = true := by simpa [Grammar.exact, hu] using hg
    rw [if_neg Bool.false_ne_true, if_pos hs,
      CodePoint.isIdentifierPart_of_alphanumeric (by rw [hc, Bool.or_true])]
    rfl

theorem legacyOctal_eq_miss (h : legacyOctal g s = .miss) :
    s.cursor.current.bind (CodePoint.digit? 8) = none := by
  rcases bind_eq_miss.mp h with h | ⟨d, u, -, h⟩
  · exact select_eq_miss.mp h
  -- behind a digit nothing more has to be there
  rcases bind_eq_miss.mp h with h | ⟨o, w, -, h⟩
  · exact absurd h attempt_ne_miss
  cases o with
  | none => cases h
  | some d' =>
    dsimp only at h
    split at h
    · rcases bind_eq_miss.mp h with h | ⟨o, x, -, h⟩
      · exact absurd h attempt_ne_miss
      · cases o <;> cases h
    · cases h

/-- A control escape decodes to its value. -/
theorem controlEscape_decodes (h : controlEscape g s = .done v t) :
    ∃ cs, s.Reads cs t ∧
      Decodes unicode exact inClass (.ofChar '\\' :: cs) v t.cursor.characters := by
  obtain ⟨c, hc, hr⟩ := select_eq_done.mp h
  have hne : ∀ {d : CodePoint}, controlValue? d = none → c ≠ d := by
    rintro d hd rfl
    rw [hc] at hd
    cases hd
  have hdigit := digit?_eq_none_of_controlValue? hc
  refine ⟨_, hr, .of_escape hdigit (fun _ hl => absurd hl (by decide)) ?_⟩
  rw [escapedCode?, singleCode?_eq (hne (by decide)) (hne (by decide)), hc]
  · rfl
  · intro _
    rw [CodePoint.isOctalDigit, hdigit]
    rfl

theorem controlLetter_decodes (h : controlLetter g s = .done v t) :
    ∃ cs, s.Reads cs t ∧
      Decodes unicode exact inClass (.ofChar '\\' :: cs) v t.cursor.characters := by
  obtain ⟨c, -, hr, rfl⟩ := controlLetter_eq_done h
  refine ⟨_, hr, .of_letter (by decide) (by decide) ?_⟩
  rw [CodePoint.val_ofNat (by omega)]
  rfl

/-- No decimal digit follows a zero that stands by itself, so no octal one does. -/
theorem zeroEscape_decodes (h : zeroEscape g s = .done v t) :
    ∃ cs, s.Reads cs t ∧
      Decodes unicode exact inClass (.ofChar '\\' :: cs) v t.cursor.characters := by
  obtain ⟨hr, hdigit, rfl⟩ := zeroEscape_eq_done_iff.mp h
  refine ⟨_, hr, rfl, fun ds n d _ _ hd => ?_, fun _ ds n hds => ?_⟩
  · rw [← Cursor.current_eq_head?] at hd
    obtain ⟨c, hc, hd⟩ := Option.bind_eq_some_iff.mp hd
    rw [hc, Option.any_some, CodePoint.isDecimalDigit_of_octal hd] at hdigit
    cases hdigit
  · exact absurd (List.cons.inj (List.cons.inj hds).2).1 (by decide)

/-- A hexadecimal escape decodes to its value. -/
theorem hexEscape_decodes (h : hexEscape g s = .done v t) :
    ∃ cs, s.Reads cs t ∧
      Decodes unicode exact inClass (.ofChar '\\' :: cs) v t.cursor.characters := by
  obtain ⟨cs, ds, hr, hcs, hl, rfl⟩ := hexEscape_eq_done h
  obtain ⟨c, cs', rfl⟩ := List.exists_cons_of_length_eq_add_one hl
  refine ⟨_, hr, .of_letter (by decide) (by decide) ?_⟩
  rw [← (numberOf?_eq_val hcs (.inl hl)).1]
  exact if_pos hl

/-- A character stands for itself only where it begins no other escape. -/
theorem identityEscape_decodes (hb : g.unicode = true ∨ s.cursor.current ≠ some (.ofChar 'b'))
    (hcontrol : controlEscape g s = .miss) (hoctal : g.exact = false → legacyOctal g s = .miss)
    (h : identityEscape g s = .done v t) :
    ∃ cs, s.Reads cs t ∧
      Decodes unicode exact inClass (.ofChar '\\' :: cs) v t.cursor.characters := by
  rw [identityEscape, grammar_bind] at h
  obtain ⟨hidentity, hr⟩ := satisfy_eq_done.mp h
  have hcurrent := hr.current_eq
  have hb : v ≠ 'b' := by
    rintro rfl
    rcases hb with hu | hb
    · rw [isIdentityEscape, if_pos hu] at hidentity
      exact absurd hidentity (by decide)
    · exact hb hcurrent
  have hdigit : v.digit? 8 = none := by
    cases hg : g.exact with
    | true =>
      rw [Option.eq_none_iff_forall_ne_some]
      intro d hd
      rw [isIdentityEscape_digit hg (CodePoint.isDecimalDigit_of_octal hd)] at hidentity
      cases hidentity
    | false =>
      have hnone := legacyOctal_eq_miss (hoctal hg)
      rwa [hcurrent] at hnone
  have hnone : controlValue? v = none := by
    have := select_eq_miss.mp hcontrol
    rwa [hcurrent] at this
  exact ⟨_, hr, .of_identity hb hdigit hnone⟩

/-- What the parser of escapes reads, the decoder reads too, and as much of it. -/
theorem escapedValue_decodes (hb : g.unicode = true ∨ s.cursor.current ≠ some (.ofChar 'b'))
    (h : escapedValue g s = .done v t) :
    ∃ cs, s.Reads cs t ∧
      Decodes g.unicode g.exact inClass (.ofChar '\\' :: cs) v t.cursor.characters := by
  rw [escapedValue, grammar_bind] at h
  rcases orElse_eq_done.mp h with h | ⟨hcontrol, h⟩
  · exact controlEscape_decodes h
  rcases orElse_eq_done.mp h with h | ⟨-, h⟩
  · exact controlLetter_decodes h
  rcases orElse_eq_done.mp h with h | ⟨-, h⟩
  · exact zeroEscape_decodes h
  rcases orElse_eq_done.mp h with h | ⟨-, h⟩
  · exact hexEscape_decodes h
  rcases orElse_eq_done.mp h with h | ⟨-, h⟩
  · obtain ⟨cs, hr, hcs⟩ := unicodeEscape_decodes h
    exact ⟨_, hr, hcs⟩
  rcases orElse_eq_done.mp h with h | ⟨hoctal, h⟩
  · obtain ⟨hg, h⟩ := require_bind_eq_done.mp h
    have hg : g.exact = false := by simpa using hg
    rw [hg]
    exact legacyOctal_decodes h
  · refine identityEscape_decodes hb hcontrol (fun hg => ?_) h
    rcases require_bind_eq_miss.mp hoctal with hexact | hoctal
    · simp [hg] at hexact
    · exact hoctal

end Escapes

/-! ## Characters

A character without a backslash has its own code, and one behind a backslash that stands for itself
too. -/

def Place.inClass (p : Place) : Bool := p != .term

/-- However a character was read, its text decodes to its value. -/
theorem ReadsValue.decodes {p : Place} {v : CodePoint} (hp : p = .sets → g.unicode = true)
    (h : ReadsValue g p s v t) :
    ∃ cs, s.Reads cs t ∧ Decodes g.unicode g.exact p.inClass cs v t.cursor.characters := by
  cases h with
  | plain _ hr => exact ⟨_, hr, .of_single⟩
  | escaped hslash hb h =>
    have hb' : g.unicode = true ∨ _ := (em (p = .sets)).imp hp hb
    obtain ⟨cs, hr, hcs⟩ := escapedValue_decodes hb' h
    exact ⟨_, hslash.trans hr, hcs⟩
  | backspace hterm hr =>
    refine ⟨_, hr, .of_letter (by decide) (by decide) ?_⟩
    rw [show p.inClass = true by simpa [Place.inClass] using hterm]
    rfl
  | hyphen hr => exact ⟨_, hr, .of_identity (by decide) (by decide) (by decide)⟩
  | letter hr =>
    refine ⟨_, hr, .of_letter (by decide) (by decide) ?_⟩
    rw [CodePoint.val_ofNat (by omega)]
    rfl
  | punctuator hc hr =>
    have htest := CodePoint.of_isOneOf
      (fun c => c != 'b' && c.digit? 8 == none && controlValue? c == none) hc (by decide)
    simp only [Bool.and_eq_true, bne_iff_ne, beq_iff_eq] at htest
    exact ⟨_, hr, .of_identity htest.1.1 htest.1.2 htest.2⟩
  | backslash hr => exact ⟨_, hr, .of_single⟩

end EcmaPattern
