import EcmaPattern.Proofs.NameModes
import EcmaPattern.Proofs.ResolvedReferences

/-!
# What names stand for

The code points that a name's text stands for are worked out from the text alone (`nameCodes`):
every escape is one code point, and every other character stands for itself. A name that is read has
just these code points, none of them a surrogate, whichever way the rest of the pattern is read
(`group_names_mean_the_same`).
-/

namespace EcmaPattern

open EcmaPattern.Parser

variable {g : Grammar} {s t : State} {cs ds : List CodePoint} {c : CodePoint} {name : GroupName}

/-! ## Decoding

`nameCodes` goes through the text from left to right and skips as much as an escape is long. The
number of characters to skip is an argument, so that the recursion is on the text. -/

/-- The escape that some characters begin with: its code, and how many of them it takes up. Two
escaped surrogates that form a pair are one escape. -/
def leadingEscape? (cs : List CodePoint) : Option (Nat × Nat) :=
  if cs.take 2 = [.ofChar '\\', .ofChar 'u'] then
    let rest := cs.drop 2
    let lengths :=
      if rest.head? = some (.ofChar '{') then [(rest.takeWhile (· != .ofChar '}')).length + 1]
      else [10, 4]
    lengths.findSome? fun n =>
      if n ≤ rest.length then (unicodeCode? true (rest.take n)).map fun code => (code, n + 2)
      else none
  else none

/-- The codes that the characters of a name's text stand for; the first of them may belong to an
escape that began before. -/
def nameCodes : Nat → List CodePoint → List Nat
  | _, [] => []
  | skip + 1, _ :: cs => nameCodes skip cs
  | 0, c :: cs =>
    match leadingEscape? (c :: cs) with
    | some (code, length) => code :: nameCodes (length - 1) cs
    | none => c.val :: nameCodes 0 cs

theorem nameCodes_skip (cs ds : List CodePoint) :
    nameCodes cs.length (cs ++ ds) = nameCodes 0 ds := by
  induction cs with
  | nil => rfl
  | cons c cs ih => exact ih

/-- A character that is no backslash has its own code. -/
theorem nameCodes_plain (hc : c ≠ .ofChar '\\') (cs : List CodePoint) :
    nameCodes 0 (c :: cs) = c.val :: nameCodes 0 cs := by
  have hnone : leadingEscape? (c :: cs) = none := by
    rw [leadingEscape?, if_neg]
    rw [List.take_succ_cons, List.cons.injEq]
    exact fun h => hc h.1
  rw [nameCodes, hnone]

/-- An escape has its code, and the characters of it have none of their own. -/
theorem nameCodes_escape {code : Nat} (h : leadingEscape? (c :: (cs ++ ds)) =
    some (code, cs.length + 1)) : nameCodes 0 (c :: (cs ++ ds)) = code :: nameCodes 0 ds := by
  rw [nameCodes, h]
  show code :: nameCodes cs.length (cs ++ ds) = _
  rw [nameCodes_skip]

/-! ### Escapes

Four digits, two times four digits for a pair, or braces. For each of them the leading escape of the
text is found and its code is that of the escape. -/

/-- Digits hold nothing but digits. -/
theorem Digits.not_mem {base : Nat} {es : List Nat} {d : CodePoint} (h : Digits base cs es)
    (hd : d.digit? base = none) : d ∉ cs := by
  intro hmem
  have hsome := h.isSome_of_mem hmem
  rw [hd] at hsome
  cases hsome

theorem Digits.head?_ne {base : Nat} {es : List Nat} {d : CodePoint} (h : Digits base cs es)
    (hd : d.digit? base = none) (hcs : cs ≠ []) (ds : List CodePoint) :
    (cs ++ ds).head? ≠ some d := by
  obtain ⟨c, cs, rfl⟩ := List.exists_cons_of_ne_nil hcs
  rw [List.cons_append, List.head?_cons, Ne, Option.some.injEq]
  rintro rfl
  exact h.not_mem hd List.mem_cons_self

/-- An escape of four digits that is no lead surrogate is not the first half of a pair. -/
theorem unicodeCode?_of_not_lead {es : List Nat} (h : Digits 16 cs es) (hl : cs.length = 4)
    (hlead : (CodePoint.ofNat (ofDigits 16 es)).isLead = false)
    (hlength : 10 ≤ (cs ++ ds).length) : unicodeCode? true ((cs ++ ds).take 10) = none := by
  obtain ⟨hnumber, -⟩ := numberOf?_eq_val h (.inr hl)
  have hne : cs ≠ [] := by
    rintro rfl
    cases hl
  have hhead : ((cs ++ ds).take 10).head? ≠ some (.ofChar '{') := by
    rw [List.head?_take, if_neg (by decide)]
    exact h.head?_ne (by decide) hne ds
  have htake : ((cs ++ ds).take 10).take 4 = cs := by
    rw [List.take_take, Nat.min_eq_left (by decide), ← hl]
    exact List.take_left
  have hten : ((cs ++ ds).take 10).length = 10 := List.length_take_of_le hlength
  rw [unicodeCode?, if_neg hhead, if_neg (by rw [hten]; decide)]
  split
  · rw [htake, hnumber]
    show (numberOf? 16 _ >>= fun trail => pairCode? _ trail) = none
    refine Option.bind_eq_none_iff.mpr fun trail _ => ?_
    rw [pairCode?, if_neg]
    rintro ⟨hlow, hhigh, -⟩
    rw [CodePoint.isLead_iff.mpr ⟨hlow, hhigh⟩] at hlead
    cases hlead
  · rfl

/-- What follows `\u` is decided by its first character: a brace, or four digits and perhaps an
escaped partner. -/
theorem leadingEscape?_eq (rest : List CodePoint) :
    leadingEscape? (.ofChar '\\' :: .ofChar 'u' :: rest) =
      (if rest.head? = some (.ofChar '{') then [(rest.takeWhile (· != .ofChar '}')).length + 1]
        else [10, 4]).findSome? fun n =>
          if n ≤ rest.length then (unicodeCode? true (rest.take n)).map fun code => (code, n + 2)
          else none :=
  if_pos rfl

/-- Two escaped surrogates that form a pair are one escape. -/
theorem leadingEscape?_pair {cs₁ cs₂ : List CodePoint} {es₁ es₂ : List Nat}
    (h₁ : Digits 16 cs₁ es₁) (h₂ : Digits 16 cs₂ es₂) (hl₁ : cs₁.length = 4) (hl₂ : cs₂.length = 4)
    (hlead : (CodePoint.ofNat (ofDigits 16 es₁)).isLead = true)
    (htrail : (CodePoint.ofNat (ofDigits 16 es₂)).isTrail = true) :
    leadingEscape? (.ofChar '\\' :: .ofChar 'u' ::
        (cs₁ ++ .ofChar '\\' :: .ofChar 'u' :: cs₂ ++ ds)) =
      some ((CodePoint.ofPair (.ofNat (ofDigits 16 es₁)) (.ofNat (ofDigits 16 es₂))).val, 12) := by
  have hlength : (cs₁ ++ .ofChar '\\' :: .ofChar 'u' :: cs₂).length = 10 := by
    rw [List.length_append, List.length_cons, List.length_cons, hl₁, hl₂]
  have hhead : (cs₁ ++ .ofChar '\\' :: .ofChar 'u' :: cs₂ ++ ds).head? ≠ some (.ofChar '{') := by
    rw [List.append_assoc]
    refine h₁.head?_ne (by decide) ?_ _
    rintro rfl
    cases hl₁
  rw [leadingEscape?_eq, if_neg hhead, List.findSome?_cons,
    if_pos (by rw [List.length_append]; omega), List.take_left' hlength,
    unicodeCode?_pair h₁ h₂ hl₁ hl₂ hlead htrail]
  rfl

/-- Four digits that are no lead surrogate are an escape by themselves. -/
theorem leadingEscape?_fixed {es : List Nat} (h : Digits 16 cs es) (hl : cs.length = 4)
    (hlead : (CodePoint.ofNat (ofDigits 16 es)).isLead = false) :
    leadingEscape? (.ofChar '\\' :: .ofChar 'u' :: (cs ++ ds)) =
      some ((CodePoint.ofNat (ofDigits 16 es)).val, 6) := by
  obtain ⟨hnumber, -⟩ := numberOf?_eq_val h (.inr hl)
  have hne : cs ≠ [] := by
    rintro rfl
    cases hl
  -- at the length of a pair there is no escape
  have hten : (if 10 ≤ (cs ++ ds).length then
      (unicodeCode? true ((cs ++ ds).take 10)).map fun code => (code, 10 + 2)
      else none) = none := by
    split
    · next hlength =>
      rw [unicodeCode?_of_not_lead h hl hlead hlength]
      rfl
    · rfl
  have hcode : unicodeCode? true cs = some (CodePoint.ofNat (ofDigits 16 es)).val := by
    have hhead := h.head?_ne (d := .ofChar '{') (by decide) hne []
    rw [List.append_nil] at hhead
    rw [unicodeCode?, if_neg hhead, if_pos hl, hnumber]
  rw [leadingEscape?_eq, if_neg (h.head?_ne (by decide) hne ds), List.findSome?_cons, hten,
    List.findSome?_cons, if_pos (by rw [List.length_append]; omega), List.take_left' hl, hcode]
  rfl

theorem leadingEscape?_braced {es : List Nat} (h : Digits 16 cs es) (hne : es ≠ [])
    (hv : CodePoint.ofInt? (ofDigits 16 es) = some c) (ds : List CodePoint) :
    leadingEscape? (.ofChar '\\' :: .ofChar 'u' :: (.ofChar '{' :: (cs ++ [.ofChar '}']) ++ ds)) =
      some (c.val, cs.length + 4) := by
  have hwhile : (.ofChar '{' :: (cs ++ [.ofChar '}']) ++ ds : List CodePoint).takeWhile
      (· != .ofChar '}') = .ofChar '{' :: cs := by
    have hdigits : ∀ d ∈ cs, (d != .ofChar '}') = true := by
      intro d hd
      rw [bne_iff_ne]
      rintro rfl
      exact h.not_mem (by decide) hd
    rw [List.cons_append, List.takeWhile_cons_of_pos (by decide), List.append_assoc,
      List.takeWhile_append_of_pos hdigits]
    show _ :: (cs ++ List.takeWhile _ (.ofChar '}' :: ds)) = _
    rw [List.takeWhile_cons_of_neg (by decide), List.append_nil]
  have hlength : (.ofChar '{' :: (cs ++ [.ofChar '}']) : List CodePoint).length =
      cs.length + 1 + 1 := by
    rw [List.length_cons, List.length_append, List.length_singleton]
  have hhead : (.ofChar '{' :: (cs ++ [.ofChar '}']) ++ ds : List CodePoint).head? =
      some (.ofChar '{') := rfl
  rw [leadingEscape?_eq, if_pos hhead, hwhile, List.findSome?_cons, List.length_cons,
    List.take_left' hlength, unicodeCode?_braced h hne hv,
    if_pos (by rw [List.length_append]; omega)]
  rfl

/-- An escape is found at its full length, whatever comes after it. -/
theorem leadingEscape?_of_unicodeEscape (h : UnicodeEscape true cs c) (hc : c.isSurrogate = false)
    (ds : List CodePoint) :
    leadingEscape? (.ofChar '\\' :: (cs ++ ds)) = some (c.val, cs.length + 1) := by
  cases h with
  | @pair cs₁ cs₂ es₁ es₂ _ h₁ h₂ hl₁ hl₂ hlead htrail =>
    have hlength : (.ofChar 'u' :: (cs₁ ++ .ofChar '\\' :: .ofChar 'u' :: cs₂) :
        List CodePoint).length + 1 = 12 := by
      simp only [List.length_cons, List.length_append, hl₁, hl₂]
    rw [hlength]
    exact leadingEscape?_pair h₁ h₂ hl₁ hl₂ hlead htrail
  | fixed h hl =>
    rw [List.length_cons, hl]
    exact leadingEscape?_fixed h hl (Bool.or_eq_false_iff.mp hc).1
  | braced _ h hne hv =>
    have hfound := leadingEscape?_braced h hne hv ds
    simpa only [List.cons_append, List.length_cons, List.length_append, List.length_nil]
      using hfound

/-! ### Names

A name was read as a chain of characters, each of which decodes to one code point. -/

/-- A character of a name stands for itself or is one escape. -/
theorem nameCodes_character (hg : g.unicode = true) (h : NameCharacter g cs c)
    (hsurrogate : c.isSurrogate = false) (hslash : c ≠ .ofChar '\\') (ds : List CodePoint) :
    nameCodes 0 (cs ++ ds) = c.val :: nameCodes 0 ds := by
  cases h with
  | plain c => exact nameCodes_plain hslash ds
  | escaped h =>
    rw [hg, Bool.or_true] at h
    exact nameCodes_escape (leadingEscape?_of_unicodeEscape h hsurrogate ds)
  | pair hjoins =>
    rw [Grammar.joinsNames, hg] at hjoins
    cases hjoins

theorem nameTest_of_either (h : c.isIdentifierStart ∨ c.isIdentifierPart) :
    c.isSurrogate = false ∧ c.isOneOf ['\\', '>'] = false :=
  h.elim (nameTest_start c) (nameTest_part c)

/-- By code points, the text of a name stands for its characters. -/
theorem NameSpelling.nameCodes_eq (hg : g.unicode = true) (h : NameSpelling g cs name) :
    nameCodes 0 cs = name.map (·.val) := by
  induction h with
  | nil => rfl
  | cons h hc _ ih =>
    obtain ⟨hsurrogate, hsign⟩ := nameTest_of_either hc
    rw [nameCodes_character hg h hsurrogate, ih, List.map_cons]
    rintro rfl
    exact absurd hsign (by decide)

/-- No escape holds the bracket that closes a name. -/
theorem UnicodeEscape.not_mem_close {wide : Bool} (h : UnicodeEscape wide cs c) :
    .ofChar '>' ∉ cs := by
  have hdigit : (CodePoint.ofChar '>').digit? 16 = none := by decide
  have hsign : CodePoint.ofChar '>' ∉ [.ofChar 'u', .ofChar '\\', .ofChar '{', .ofChar '}'] := by
    decide
  simp only [List.mem_cons, List.not_mem_nil, or_false, not_or] at hsign
  cases h with
  | pair _ h₁ h₂ =>
    have := h₁.not_mem hdigit
    have := h₂.not_mem hdigit
    simp_all
  | fixed h =>
    have := h.not_mem hdigit
    simp_all
  | braced _ h =>
    have := h.not_mem hdigit
    simp_all

/-- The bracket that closes a name occurs nowhere in it. -/
theorem NameSpelling.not_mem_close (h : NameSpelling g cs name) : .ofChar '>' ∉ cs := by
  induction h with
  | nil => exact List.not_mem_nil
  | cons h hc _ ih =>
    rw [List.mem_append, not_or]
    refine ⟨?_, ih⟩
    cases h with
    | plain c =>
      rw [List.mem_singleton]
      rintro rfl
      exact absurd (nameTest_of_either hc).2 (by decide)
    | escaped h =>
      rw [List.mem_cons, not_or]
      exact ⟨by decide, h.not_mem_close⟩
    | pair _ ha hb =>
      rw [List.mem_cons, List.mem_singleton, not_or]
      constructor
      · rintro rfl
        exact absurd ha (by decide)
      · rintro rfl
        exact absurd hb (by decide)

/-! ## Names that are read

Well-formed means to begin with a character that may begin a name and to go on with those that may
stand in one. Neither kind has surrogates. -/

/-- A name of whole characters, the first of which can begin an identifier. -/
structure GroupName.WellFormed (name : GroupName) : Prop where
  eq_cons : ∃ first rest, name = first :: rest ∧ first.isIdentifierStart = true ∧
    ∀ c ∈ rest, c.isIdentifierPart = true
  not_surrogate : ∀ c ∈ name, c.isSurrogate = false

/-- The text, up to the bracket that closes it, stands for the name. -/
structure GroupName.IsDecoded (name : GroupName) (text : Text) : Prop where
  nameCodes : EcmaPattern.nameCodes 0 (text.characters true) = name.map (·.val)
  not_mem_close : .ofChar '>' ∉ text.characters true

namespace Parser

theorem isIdentifierPart_of_chain
    (h : Chain (fun s c t => nameCharacter CodePoint.isIdentifierPart g s = .done c t) s cs t) :
    ∀ c ∈ cs, c.isIdentifierPart = true := by
  induction h with
  | nil s => exact nofun
  | cons head tail ih =>
    obtain ⟨-, -, -, hpart⟩ := nameCharacter_eq_done head
    exact List.forall_mem_cons.mpr ⟨hpart, ih⟩

/-- What a name begins with, and what follows. -/
theorem identifierName_wellFormed (h : identifierName g s = .done name t) : name.WellFormed := by
  rw [identifierName, bind_eq_done] at h
  obtain ⟨first, u, hfirst, h⟩ := h
  obtain ⟨rest, v, hrest, h⟩ := bind_eq_done.mp h
  obtain ⟨rfl, rfl⟩ := pure_eq_done.mp h
  have hstart : first.isIdentifierStart = true := by
    obtain ⟨-, -, -, htest⟩ := nameCharacter_eq_done hfirst
    exact htest
  have hpart := isIdentifierPart_of_chain (chain_of_many hrest)
  refine ⟨⟨first, rest, rfl, hstart, hpart⟩, fun c hc => ?_⟩
  rcases List.mem_cons.mp hc with rfl | hc
  · exact (nameTest_start c hstart).1
  · exact (nameTest_part c (hpart c hc)).1

/-- A name that is read begins and goes on as names do. -/
theorem groupName_wellFormed (h : groupName g s = .done name t) : name.WellFormed := by
  rw [groupName, eat_bind_eq_done] at h
  obtain ⟨u, -, h⟩ := h
  obtain ⟨name', v, hname, h⟩ := bind_eq_done.mp h
  obtain ⟨w, -, h⟩ := eat_or_fail_bind_eq_done.mp h
  obtain ⟨rfl, rfl⟩ := pure_eq_done.mp h
  exact identifierName_wellFormed (orElse_fail_eq_done.mp hname)

/-- By code points, a name that is read is what the text between its brackets stands for. -/
theorem groupName_isDecoded (hg : g.unicode = true) (hpaired : s.cursor.paired = true)
    (h : groupName g s = .done name t) :
    ∃ text, s.cursor.ahead = .ofString "<" ++ text ++ .ofString ">" ++ t.cursor.ahead ∧
      t.cursor.index = s.cursor.index + text.length + 2 ∧ name.IsDecoded text := by
  obtain ⟨cs, hr, hspelling, -⟩ := groupName_eq_done h
  have hbrackets : Text.ofCodePoints (.ofChar '<' :: (cs ++ [.ofChar '>'])) =
      .ofString "<" ++ Text.ofCodePoints cs ++ .ofString ">" := by
    simp only [Text.ofCodePoints, List.flatMap_cons, List.flatMap_append, List.flatMap_nil,
      List.append_nil, List.append_assoc]
    rfl
  have htext : (Text.ofCodePoints cs).characters true = cs := by
    obtain ⟨-, hname⟩ := Cursor.reads_cons.mp hr.cursor
    obtain ⟨d, hname, -⟩ := Cursor.reads_append.mp hname
    have hcharacters := hname.characters_text
    rwa [Cursor.advance_paired, hpaired] at hcharacters
  refine ⟨Text.ofCodePoints cs, ?_, ?_, ?_, ?_⟩
  · rw [hr.cursor.ahead, hbrackets]
  · rw [hr.cursor.index, hbrackets]
    simp only [List.length_append]
    have hone : (Text.ofString "<").length = 1 ∧ (Text.ofString ">").length = 1 := by decide
    omega
  · rw [htext]
    exact hspelling.nameCodes_eq hg
  · rw [htext]
    exact hspelling.not_mem_close

end Parser

/-- Group names mean the same by code points and by code units. In an edition with Unicode group
names, reading one comes to the same in both modes: to the same name and place, or to the same
fault. A name that is read is made of whole characters, the first of which can begin an identifier
and the others can go on with it, and it is what the text between its brackets stands for. -/
theorem group_names_mean_the_same {g g' : Grammar} (hg : g.unicode = true)
    (hg' : g'.unicode = false) (hedition : .es2020 ≤ g'.edition) (s : State) :
    groupName g' (s.inMode false) = (groupName g (s.inMode true)).inMode false ∧
      ∀ name t, groupName g (s.inMode true) = .done name t → name.WellFormed ∧
        ∃ text, s.cursor.ahead = .ofString "<" ++ text ++ .ofString ">" ++ t.cursor.ahead ∧
          t.cursor.index = s.cursor.index + text.length + 2 ∧ name.IsDecoded text := by
  have hsupports : g'.edition.supports .unicodeGroupNames = true := decide_eq_true hedition
  have hsame := eq_inMode_of_pairs (groupName_inModes hg hg' hsupports) s
  refine ⟨hsame, fun name t h => ⟨groupName_wellFormed h, ?_⟩⟩
  exact groupName_isDecoded (s := s.inMode true) hg rfl h

/-- A letter outside the basic plane, first as it is, then as two escapes, then as one. -/
theorem group_names_mean_the_same_in_each_spelling :
    ∃ t, groupName ⟨.es2020, true, true, false, false, 0⟩
        ⟨⟨0, .ofString "<𝒜\\uD835\\uDC9C\\u\x7b1d49c\x7d>", true⟩, .empty .forbidden, 0⟩ =
          .done (List.replicate 3 (.ofChar '𝒜')) t ∧
      groupName ⟨.es2020, true, false, false, false, 0⟩
        ⟨⟨0, .ofString "<𝒜\\uD835\\uDC9C\\u\x7b1d49c\x7d>", false⟩, .empty .forbidden, 0⟩ =
          .done (List.replicate 3 (.ofChar '𝒜')) (t.inMode false) ∧
      GroupName.WellFormed (List.replicate 3 (.ofChar '𝒜')) ∧
      ∃ text, 25 = text.length + 2 ∧
        GroupName.IsDecoded (List.replicate 3 (.ofChar '𝒜')) text := by
  obtain ⟨s, hs⟩ : ∃ s : State, s = ⟨⟨0, .ofString "<𝒜\\uD835\\uDC9C\\u\x7b1d49c\x7d>", true⟩,
      .empty .forbidden, 0⟩ := ⟨_, rfl⟩
  obtain ⟨name, t, hdone, htest⟩ := Outcome.exists_eq_done
    (x := groupName ⟨.es2020, true, true, false, false, 0⟩ s)
    (f := fun name t => name == List.replicate 3 (.ofChar '𝒜') && t.cursor.index == 25)
    (by rw [hs]; decide +kernel)
  obtain ⟨hname, hindex⟩ := (Bool.and_eq_true _ _).mp htest
  obtain rfl := eq_of_beq hname
  have hmode : s.inMode true = s := by rw [hs]; rfl
  obtain ⟨hsame, hread⟩ := @group_names_mean_the_same ⟨.es2020, true, true, false, false, 0⟩
    ⟨.es2020, true, false, false, false, 0⟩ rfl rfl (by decide) s
  rw [hmode, hdone] at hsame
  rw [hmode] at hread
  obtain ⟨hwell, text, -, hstop, hdecoded⟩ := hread _ _ hdone
  have hstart : s.cursor.index = 0 := by rw [hs]
  refine ⟨t, by rw [← hs]; exact hdone, ?_, hwell, text, ?_, hdecoded⟩
  · rw [hs] at hsame
    exact hsame
  · rw [← eq_of_beq hindex, hstop, hstart, Nat.zero_add]

end EcmaPattern
