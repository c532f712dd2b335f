import EcmaPattern.Proofs.CharacterValues
import EcmaPattern.Proofs.Traces.Answers

/-!
# Characters in answers

In every tree that answers a request, each character has the value that its text decodes to
(`characters_decode_their_text`). The text of a node, read by itself, has the characters that were
read for the node, so what is known of reading carries over to it.
-/

namespace EcmaPattern

variable {g : Grammar} {s t u : State}

/-! ## Bounds

By code units no code is above `0xFFFF`, whatever a character is written as. A node with a value
above it therefore was read by code points. -/

/-- By code units no character is above `0xFFFF`. -/
theorem Text.le_of_mem_characters {text : Text} :
    ∀ c ∈ text.characters false, c.val ≤ 0xFFFF := by
  have hunit : ∀ u : CodeUnit, (CodePoint.ofUnit u).val ≤ 0xFFFF := fun u =>
    Nat.le_of_lt_succ u.toNat_lt
  fun_induction characters false text with
  | case1 => exact List.forall_mem_nil _
  | case2 u => exact List.forall_mem_singleton.mpr (hunit u)
  | case3 u v rest h ih => simp at h
  | case4 u v rest h ih => exact List.forall_mem_cons.mpr ⟨hunit u, ih⟩

theorem singleCode?_le {exact inClass : Bool} {c : CodePoint} {n : Nat} (hc : c.val ≤ 0xFFFF)
    (h : singleCode? exact inClass c = some n) : n ≤ 0xFFFF := by
  rw [singleCode?] at h
  split at h
  · split at h <;> cases h
    decide
  split at h
  · have := CodePoint.digit?_lt h
    omega
  · obtain rfl := Option.some.inj h
    cases hcontrol : controlCodes.lookup c with
    | none => exact hc
    | some n =>
      have hmem : (c, n) ∈ controlCodes := by
        obtain ⟨before, after, heq, -⟩ := List.lookup_eq_some_iff.mp hcontrol
        exact heq ▸ List.mem_append_right _ List.mem_cons_self
      have hall : ∀ x ∈ controlCodes, x.2 ≤ 0xFFFF := by decide
      exact hall _ hmem

theorem numberOf?_le {cs : List CodePoint} {n : Nat} (h : numberOf? 16 cs = some n)
    (hl : cs.length ≤ 4) : n ≤ 0xFFFF := by
  have hlt : n < 16 ^ 4 := Nat.lt_of_lt_of_le (numberOf?_lt h) (Nat.pow_le_pow_right (by decide) hl)
  omega

theorem unicodeCode?_le {cs : List CodePoint} {n : Nat} (h : unicodeCode? false cs = some n) :
    n ≤ 0xFFFF := by
  rw [unicodeCode?] at h
  split at h
  · split at h
    · next hunicode => cases hunicode.1
    · cases h
  split at h
  · next hl => exact numberOf?_le h (Nat.le_of_eq hl)
  split at h
  · next hunicode => cases hunicode.1
  · cases h

/-- By code units no escape stands for more than `0xFFFF`. -/
theorem escapedCode?_le {exact inClass : Bool} {c c' : CodePoint} {cs : List CodePoint} {n : Nat}
    (h : escapedCode? false exact inClass (c :: c' :: cs) = some n) : n ≤ 0xFFFF := by
  rw [escapedCode?_cons_cons] at h
  split at h
  · split at h
    · have hn := Option.some.inj h
      omega
    · cases h
  split at h
  · split at h
    · next hl => exact numberOf?_le h (by omega)
    · cases h
  split at h
  · exact unicodeCode?_le h
  split at h
  · have := of_decide_eq_true (Option.filter_eq_some_iff.mp h).2
    omega
  · cases h

/-- Where characters are single units, an escape stands for one too. -/
theorem code?_le {exact inClass : Bool} {cs : List CodePoint} {n : Nat}
    (hcs : ∀ c ∈ cs, c.val ≤ 0xFFFF) (h : code? false exact inClass cs = some n) : n ≤ 0xFFFF := by
  cases cs with
  | nil => cases h
  | cons slash cs =>
    cases cs with
    | nil =>
      rw [← Option.some.inj h]
      exact hcs slash List.mem_cons_self
    | cons c cs =>
      rw [code?_cons_cons] at h
      split at h
      · cases cs with
        | nil => exact singleCode?_le (hcs c (by simp)) h
        | cons c' cs => exact escapedCode?_le h
      · cases h

/-! ## Nodes

A node knows where it starts and ends. What lies between, cut out of the text, has the characters
that were read: a pair is not torn by it, since places inside a pair cannot be reached. -/

/-- The text of a node, read by itself, has the characters that were read for it. -/
theorem State.Reads.characters_raw {cs : List CodePoint} (h : s.Reads cs t) :
    (Span.between s.cursor t.cursor).raw.characters s.cursor.paired = cs := by
  show (s.cursor.textTo t.cursor.index).characters _ = cs
  rw [h.cursor.textTo, h.cursor.characters_text]

def Slice.charactersFrom (s : Slice) (paired : Bool) (offset : Nat) : List CodePoint :=
  (s.cursorAt paired offset).characters

/-- What lies ahead of a place is what the slice has from its offset on. -/
theorem Slice.Holds.charactersFrom_index {slice : Slice} {paired : Bool} {c : Cursor}
    (h : slice.Holds paired c) : slice.charactersFrom paired c.index = c.characters :=
  congrArg Cursor.characters h.eq_cursorAt.symm

/-- The text of a character decodes to its value, goes as far as it can, and separates no surrogate
pair. -/
structure Character.Exact (o : Options) (flags : FlagSet) (slice : Slice) (inClass : Bool)
    (c : Character) : Prop where
  decodes : Decodes flags.unicodeMode (o.strict || flags.unicodeMode) inClass
    (c.span.raw.characters flags.unicodeMode) c.value
    (slice.charactersFrom flags.unicodeMode c.span.stop)
  value_le : flags.unicodeMode = false → c.value.val ≤ 0xFFFF
  whole : flags.unicodeMode = true →
    slice.IsBoundary c.span.start ∧ slice.IsBoundary c.span.stop

def Node.CharacterExact (o : Options) (flags : FlagSet) (slice : Slice) : Node → Prop
  | .term (.set (.character c)) => c.Exact o flags slice false
  | .charSet (.character c) => c.Exact o flags slice true
  | _ => True

/-- Where characters are single units, so are values. -/
theorem Decodes.value_le {exact inClass : Bool} {text : Text} {v : CodePoint}
    {next : List CodePoint} (h : Decodes false exact inClass (text.characters false) v next) :
    v.val ≤ 0xFFFF :=
  code?_le Text.le_of_mem_characters h.code

section

variable {o : Options} {flags : FlagSet} {slice : Slice} {named : Bool} {n : Node} {c : Character}
  {p : Place}

/-- The characters that were read are those of the text, and what comes next is what the slice has
from there on. -/
theorem ReadsValue.decodes_raw (hs : slice.Holds flags.unicodeMode s.cursor)
    (hp : p = .sets → flags.unicodeMode = true) (hspan : c.span = .between s.cursor t.cursor)
    (h : ReadsValue (Pattern.grammarFor o flags named (slice.cursor flags.unicodeMode)) p s
      c.value t) :
    slice.Holds flags.unicodeMode t.cursor ∧
      Decodes flags.unicodeMode (o.strict || flags.unicodeMode) p.inClass
        (c.span.raw.characters flags.unicodeMode) c.value
        (slice.charactersFrom flags.unicodeMode c.span.stop) := by
  obtain ⟨cs, hr, hcs⟩ := h.decodes hp
  have ht : slice.Holds flags.unicodeMode t.cursor := hs.trans hr.cursor.reaches
  have hpaired : s.cursor.paired = flags.unicodeMode := by
    obtain ⟨ds, hds⟩ := hs
    exact hds.paired
  have hraw : c.span.raw.characters flags.unicodeMode = cs := by
    rw [hspan, ← hpaired, hr.characters_raw]
  have hnext : slice.charactersFrom flags.unicodeMode c.span.stop = t.cursor.characters := by
    rw [hspan]
    exact ht.charactersFrom_index
  refine ⟨ht, ?_⟩
  rw [hraw, hnext]
  exact hcs

/-- A character that is read with a value its text stands for is exact. -/
theorem ReadsValue.exact (hv : slice.Valid) (hs : slice.Holds flags.unicodeMode s.cursor)
    (hp : p = .sets → flags.unicodeMode = true) (hspan : c.span = .between s.cursor t.cursor)
    (h : ReadsValue (Pattern.grammarFor o flags named (slice.cursor flags.unicodeMode)) p s
      c.value t) :
    c.Exact o flags slice p.inClass := by
  obtain ⟨ht, hdecodes⟩ := h.decodes_raw hs hp hspan
  refine ⟨hdecodes, fun hmode => ?_, fun hmode => ?_⟩
  · rw [hmode] at hdecodes
    exact hdecodes.value_le
  · rw [hmode] at hs ht
    rw [hspan]
    exact ⟨hs.isBoundary hv, ht.isBoundary hv⟩

theorem FlagSet.unicodeMode_of_sets (h : flags.unicodeSets = true) : flags.unicodeMode = true := by
  rw [FlagSet.unicodeMode, h, Bool.or_true]

/-- A node that a parser gave is exact if it is a character. -/
theorem Node.GivenIn.characterExact (hv : slice.Valid) (h : n.GivenIn o flags slice) :
    n.CharacterExact o flags slice := by
  obtain ⟨named, m, f, s, t, rfl, hs, h⟩ := h
  cases m with
  | charSet x =>
    cases x with
    | character c =>
      obtain ⟨hspan, h⟩ := h.character_of_charSet
      cases hmode : flags.unicodeSets with
      | true =>
        rw [Grammar.classPlace_sets hmode] at h
        exact h.exact hv hs (fun _ => FlagSet.unicodeMode_of_sets hmode) hspan
      | false =>
        rw [Grammar.classPlace_ranges hmode] at h
        exact h.exact (p := .ranges) hv hs nofun hspan
    | _ => trivial
  | term e =>
    cases e with
    | set x =>
      cases x with
      | character c =>
        obtain ⟨hspan, h, -⟩ := h.character_of_term
        exact h.exact (p := .term) hv hs nofun hspan
      | _ => trivial
    | reference span target => cases target <;> trivial
    | _ => trivial
  | _ => trivial

end

/-! ## Answers

By the trace of an answer, with one look at characters. -/

/-- In every tree that answers a request, the value of each character is what its text stands for:
the text decodes to it, no octal digit that still fits and no escaped trail surrogate is left behind
it, and where patterns are read by code points, neither end separates a surrogate pair. Where they
are not, the value is that of a code unit. -/
theorem characters_decode_their_text (o : Options) (q : Request) (n : Node) (hq : q.Valid)
    (h : q.answer o = .ok n) :
    (∃ f, n = .flags f) ∨ ∃ slice flags, q.ReadsPattern o slice flags ∧
      ∀ m ∈ n.descendants, m.CharacterExact o flags slice := by
  rcases Request.given_of_answer hq h with hflags | ⟨slice, flags, hreads, hnodes⟩
  · exact .inl hflags
  · refine .inr ⟨slice, flags, hreads, fun m hm => ?_⟩
    rcases hnodes m hm with hholder | hgiven
    · cases m with
      | literal l => trivial
      | pattern p => trivial
      | flags f => trivial
      | _ => cases hholder
    · exact hgiven.characterExact hreads.valid

theorem characters_decode_their_text_with_pairs_and_octals :
    (∃ p, parsePattern (.ofEdition .es2025 false) (.set { unicode := true })
        ⟨.ofString "x😀[\\u{1F600}-\\uD83D\\uDE02]", 1, 27⟩ = .ok p ∧
      ∀ m ∈ (Node.pattern p).descendants, m.CharacterExact (.ofEdition .es2025 false)
        { unicode := true } ⟨.ofString "x😀[\\u{1F600}-\\uD83D\\uDE02]", 1, 27⟩) ∧
    ∃ p, parsePattern (.ofEdition .es2025 false) (.set {})
        (.whole (.ofString "\\4567[\\b\\c]\\u{1}")) = .ok p ∧
      ∀ m ∈ (Node.pattern p).descendants, m.CharacterExact (.ofEdition .es2025 false) {}
        (.whole (.ofString "\\4567[\\b\\c]\\u{1}")) := by
  constructor
  · obtain ⟨p, hp⟩ : ∃ p, parsePattern (.ofEdition .es2025 false) (.set { unicode := true })
        ⟨.ofString "x😀[\\u{1F600}-\\uD83D\\uDE02]", 1, 27⟩ = .ok p :=
      Except.exists_eq_ok (by decide +kernel)
    have hv : Slice.Valid ⟨.ofString "x😀[\\u{1F600}-\\uD83D\\uDE02]", 1, 27⟩ :=
      ⟨by decide, by decide +kernel⟩
    rcases characters_decode_their_text (.ofEdition .es2025 false)
      (.pattern (.set { unicode := true })
        ⟨.ofString "x😀[\\u{1F600}-\\uD83D\\uDE02]", 1, 27⟩) (.pattern p) hv
      (Except.map_eq_ok.mpr ⟨p, hp, rfl⟩) with ⟨f, hf⟩ | ⟨slice, flags, hreads, hnodes⟩
    · cases hf
    · cases hreads with
      | pattern _ hflags =>
        cases hflags
        exact ⟨p, hp, hnodes⟩
  · obtain ⟨p, hp⟩ : ∃ p, parsePattern (.ofEdition .es2025 false) (.set {})
        (.whole (.ofString "\\4567[\\b\\c]\\u{1}")) = .ok p :=
      Except.exists_eq_ok (by decide +kernel)
    rcases characters_decode_their_text (.ofEdition .es2025 false)
      (.pattern (.set {}) (.whole (.ofString "\\4567[\\b\\c]\\u{1}"))) (.pattern p)
      (Slice.valid_whole _) (Except.map_eq_ok.mpr ⟨p, hp, rfl⟩) with
      ⟨f, hf⟩ | ⟨slice, flags, hreads, hnodes⟩
    · cases hf
    · cases hreads with
      | pattern _ hflags =>
        cases hflags
        exact ⟨p, hp, hnodes⟩

end EcmaPattern
