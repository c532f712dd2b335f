import EcmaPattern.Proofs.FaultPlaces
import EcmaPattern.Proofs.LiteralBody

/-!
# Where a call finds faults

A call reads up to three parts of a text, and what is wrong with a part is reported inside it: flags
at one of their units, a pattern between its ends, and what is wrong with the slashes of a literal
within the literal. The parser of patterns stays where it can read (`disjunction_staysAfter`), so
each pass over a pattern does; flags and slashes are looked for unit by unit.
-/

namespace EcmaPattern

open EcmaPattern.Parser

/-! ## Patterns

A place that can be read from the start of a slice has an offset within it, and the end of the
pattern is such a place too. -/

/-- The offset is one of a slice and, where surrogate pairs are single characters, does not separate
one. -/
structure Slice.HasPlace (s : Slice) (paired : Bool) (offset : Nat) : Prop where
  start_le : s.start ≤ offset
  le_stop : offset ≤ s.stop
  isBoundary : paired = true → s.IsBoundary offset

theorem Slice.Holds.hasPlace {s : Slice} {paired : Bool} {c : Cursor} (hs : s.Valid)
    (h : s.Holds paired c) : s.HasPlace paired c.index := by
  refine ⟨h.start_le, h.le_stop hs, ?_⟩
  rintro rfl
  exact h.isBoundary hs

namespace Parser

variable {g : Grammar} {s : State} {depth : Nat} {f : Fault}

/-- The place of a fault of `endOfPattern` is the current one. -/
theorem index_of_endOfPattern (h : endOfPattern g s = .fault f) :
    f.index = s.cursor.index := by
  rw [endOfPattern] at h
  split at h
  · cases h
  · cases h
    rfl

/-- What is found in a pattern is found by its alternatives or behind them. -/
theorem pattern_eq_fault (h : pattern depth g s = .fault f) :
    f.FoundAfter s.cursor ∨
      ∃ qs t, disjunction depth g s = .done qs t ∧ endOfPattern g t = .fault f := by
  have hafter := disjunction_staysAfter (b := s.cursor) (g := g) depth s (.refl _)
  rw [pattern, here_bind, bind_apply] at h
  cases hqs : disjunction depth g s with
  | miss =>
    rw [hqs] at h
    cases h
  | fault e =>
    rw [hqs] at h hafter
    cases h
    exact .inl hafter
  | done qs t =>
    simp only [hqs, bind_apply] at h hafter
    cases hend : endOfPattern g t with
    | miss =>
      rw [hend] at h
      cases h
    | fault e =>
      rw [hend] at h
      cases h
      exact .inr ⟨qs, t, rfl, hend⟩
    | done x u =>
      -- what follows refers to the names that were collected, at the place where all has been read
      obtain ⟨-, rfl⟩ := Pattern.endOfPattern_eq_done.mp hend
      simp only [hend, spanFrom, resolved] at h
      split at h
      · cases h
      · cases h
        exact .inl ⟨⟨t.cursor, hafter, rfl⟩, .inl rfl⟩

/-- A fault in a pattern lies at a place that can be read from where the pattern begins. -/
theorem place_of_pattern (h : pattern depth g s = .fault f) :
    ∃ c, s.cursor.Reaches c ∧ c.index = f.index := by
  rcases pattern_eq_fault h with hfound | ⟨qs, t, hqs, hend⟩
  · exact hfound.place
  · have hafter := disjunction_staysAfter (b := s.cursor) (g := g) depth s (.refl _)
    rw [hqs] at hafter
    exact ⟨t.cursor, hafter, (index_of_endOfPattern hend).symm⟩

end Parser

namespace Pattern

variable {rule : DuplicateRule} {o : Options} {flags : FlagSet} {named : Bool} {c : Cursor}
  {f : Fault}

/-- A fault of a pass lies at a place that can be read. -/
theorem place_of_pass (h : pass rule o flags named c = .error f) :
    ∃ d, c.Reaches d ∧ d.index = f.index := by
  rw [pass] at h
  split at h
  · cases h
  · cases h
    exact ⟨c, .refl c, rfl⟩
  · next hfault =>
    cases h
    exact place_of_pattern hfault

/-- Whichever pass finds it, a fault in a pattern is at a place of the pattern. -/
theorem place_of_readUnder (h : readUnder rule o flags c = .error f) :
    ∃ d, c.Reaches d ∧ d.index = f.index := by
  rw [readUnder, Except.bind_eq_error] at h
  rcases h with h | ⟨⟨p, scope⟩, -, h⟩
  · exact place_of_pass h
  · dsimp only at h
    split at h
    · rcases Except.bind_eq_error.mp h with h | ⟨q, -, h⟩
      · exact place_of_pass h
      · cases h
    · cases h

/-- A fault in a slice that is read as a pattern lies in the slice. -/
theorem hasPlace_of_read {slice : Slice} (hs : slice.Valid) (h : read o flags slice = .error f) :
    slice.HasPlace flags.unicodeMode f.index := by
  rw [read] at h
  split at h
  · cases h
    exact (slice.holds_cursor flags.unicodeMode).hasPlace hs
  · obtain ⟨d, hd, hindex⟩ := place_of_readUnder h
    rw [← hindex]
    exact Slice.Holds.hasPlace hs hd

end Pattern

/-! ## Flags

A flag is one character of the flags as they are given, so its offset is its position. Within a
literal flags are joined from surrogates first, so there the offset of a character is where its
units begin. -/

/-- There are no more characters than units. -/
theorem Text.length_characters_le (paired : Bool) (t : Text) :
    (t.characters paired).length ≤ t.length := by
  fun_induction characters paired t with
  | case1 => exact Nat.le_refl _
  | case2 u => exact Nat.le_refl _
  | case3 u v rest h ih => simp only [List.length_cons]; omega
  | case4 u v rest h ih => simp only [List.length_cons] at ih ⊢; omega

namespace FlagSet

variable {e : Edition} {seen seen' : List (Flag × Nat)} {index : Nat} {cs : List CodePoint}
  {f : Fault}

/-- A fault of flags lies at one of the letters. -/
theorem index_of_collect (h : collect e seen index cs = .error f) :
    index ≤ f.index ∧ f.index < index + cs.length := by
  induction cs generalizing seen index with
  | nil => cases h
  | cons c rest ih =>
    rw [List.length_cons]
    have hhere : f.index = index → index ≤ f.index ∧ f.index < index + (rest.length + 1) := by omega
    rw [collect] at h
    split at h
    · cases h
      exact hhere rfl
    · split at h
      · cases h
        exact hhere rfl
      · split at h
        · have := ih h
          omega
        · cases h
          exact hhere rfl

/-- Every flag was seen at one of the letters that have been read. -/
theorem offset_of_collect (hseen : ∀ x ∈ seen, x.2 < index)
    (h : collect e seen index cs = .ok seen') : ∀ x ∈ seen', x.2 < index + cs.length := by
  induction cs generalizing seen index with
  | nil =>
    cases h
    exact hseen
  | cons c rest ih =>
    rw [collect] at h
    split at h
    · cases h
    · next f _ =>
      split at h
      · cases h
      · split at h
        · have hnext : ∀ x ∈ seen ++ [(f, index)], x.2 < index + 1 := by
            intro x hx
            rcases List.mem_append.mp hx with hx | hx
            · exact Nat.lt_succ_of_lt (hseen x hx)
            · rw [List.mem_singleton.mp hx]
              exact Nat.lt_succ_self _
          intro x hx
          have := ih hnext h x hx
          rw [List.length_cons]
          omega
        · cases h

theorem index_of_read (h : read e cs = .error f) : f.index < cs.length := by
  rw [read, Except.bind_eq_error] at h
  rcases h with h | ⟨seen, hseen, h⟩
  · have := index_of_collect h
    omega
  · have hoffset : ∀ flag n, offset? seen flag = some n → n < cs.length := by
      intro flag n hn
      obtain ⟨before, after, heq, -⟩ := List.lookup_eq_some_iff.mp hn
      have hmem : (flag, n) ∈ seen := heq ▸ List.mem_append_right _ List.mem_cons_self
      have := offset_of_collect (List.forall_mem_nil _) hseen _ hmem
      omega
    split at h
    · next u v hu hv =>
      cases h
      exact Nat.max_lt.mpr ⟨hoffset _ _ hu, hoffset _ _ hv⟩
    · cases h

end FlagSet

/-! ## Literals

The body ends before the slash that closes it, and flags begin behind. A fault in one of the parts
is moved to where the part begins. -/

namespace Literal

def body (slice : Slice) (length : Nat) : Slice :=
  { slice with start := slice.start + 1, stop := slice.start + length + 1 }

def flagPart (slice : Slice) (length : Nat) : Slice :=
  { slice with start := slice.start + length + 2 }

/-- What is wrong with a literal whose pattern has the given length is reported at one of the flags
if they are wrong, and else in the pattern. -/
def FaultInPart (e : Edition) (slice : Slice) (length index : Nat) : Prop :=
  match FlagSet.read e ((flagPart slice length).content.characters true) with
  | .error _ => (flagPart slice length).start ≤ index ∧ index < slice.stop
  | .ok flags => (body slice length).HasPlace flags.unicodeMode index

variable {o : Options} {slice : Slice} {length : Nat} {f : Fault}

/-- The scan for the end of a pattern fails within the text. -/
theorem position_of_bodyLength {inClass escaped : Bool} {text : Text} {position k : Nat}
    {cause : Cause} (h : bodyLength inClass escaped text position = .error (cause, k)) :
    position ≤ k ∧ k ≤ position + text.length := by
  induction text generalizing inClass escaped position with
  | nil =>
    rw [bodyLength] at h
    cases h
    exact ⟨Nat.le_refl _, Nat.le_refl _⟩
  | cons u rest ih =>
    rw [bodyLength_cons] at h
    rw [List.length_cons]
    split at h
    · cases h
      omega
    · split at h
      · have := ih h
        omega
      · cases h

/-- What is wrong with the slashes of a literal lies within the literal. -/
theorem index_of_patternLength (hs : slice.Valid) (h : patternLength slice = .error f) :
    slice.start ≤ f.index ∧ f.index ≤ slice.stop := by
  have hlength := Slice.length_content hs
  have hle := hs.start_le_stop
  rw [patternLength] at h
  cases hcontent : slice.content with
  | nil =>
    simp only [hcontent] at h
    cases h
    exact ⟨Nat.le_refl _, hle⟩
  | cons u text =>
    rw [hcontent, List.length_cons] at hlength
    simp only [hcontent] at h
    split at h
    · split at h
      · cases h
        simp only
        omega
      · obtain ⟨⟨cause, k⟩, hscan, hf⟩ := Except.mapError_eq_error.mp h
        cases hf
        have := position_of_bodyLength hscan
        simp only
        omega
    · cases h
      exact ⟨Nat.le_refl _, hle⟩

/-- What is wrong with a literal that can be split lies in the part that is wrong. -/
theorem faultInPart_of_readParts (hs : slice.Valid) (hd : Delimited slice length)
    (h : readParts o slice length = .error f) : FaultInPart o.edition slice length f.index := by
  have hle := hd.le_stop
  have hstop := hs.stop_le_length
  have hpart : (flagPart slice length).Valid := ⟨hle, hstop⟩
  have hbody : (body slice length).Valid := ⟨by simp only [body]; omega, by simp only [body]; omega⟩
  rw [readParts, Except.bind_eq_error] at h
  rw [FaultInPart]
  rcases h with h | ⟨flags, hflags, h⟩
  · rcases Except.bind_eq_error.mp h with h | ⟨set, -, h⟩
    · obtain ⟨e, he, rfl⟩ := Except.mapError_eq_error.mp h
      have hread : FlagSet.read o.edition ((flagPart slice length).content.characters true) =
          .error e := he
      have hindex := Nat.lt_of_lt_of_le (FlagSet.index_of_read hread)
        (Text.length_characters_le true _)
      rw [Slice.length_content hpart] at hindex
      rw [hread]
      simp only [Fault.shift, flagPart] at hindex ⊢
      omega
    · cases h
  · obtain ⟨set, hset, hflags⟩ := Except.bind_eq_ok.mp hflags
    cases hflags
    have hread : FlagSet.read o.edition ((flagPart slice length).content.characters true) =
        .ok set := Except.mapError_eq_ok.mp hset
    rw [hread]
    rcases Except.bind_eq_error.mp h with h | ⟨p, -, h⟩
    · exact Pattern.hasPlace_of_read hbody h
    · cases h

/-- Either part lies in the literal. -/
theorem FaultInPart.mem {e : Edition} {index : Nat} (hd : Delimited slice length)
    (h : FaultInPart e slice length index) : slice.start ≤ index ∧ index ≤ slice.stop := by
  have hle := hd.le_stop
  rw [FaultInPart] at h
  split at h
  · simp only [flagPart] at h
    omega
  · have hstart := h.start_le
    have hstop := h.le_stop
    simp only [body] at hstart hstop
    omega

end Literal

/-! ## Answers

By kinds of request, and for each the parts it reads. -/

/-- What is wrong with the flags of a pattern is reported at one of them, without a source; what is
wrong with the pattern, at a place of it. What is wrong with a literal is reported inside it: in the
pattern or at one of the flags as soon as it is known which these are. No fault of a pattern that is
read by code points separates a surrogate pair. -/
theorem faults_lie_in_their_parts (o : Options) :
    (∀ choice slice d, slice.Valid → parsePattern o choice slice = .error (.diagnostic d) →
      (∃ letters, ∃ n : Nat, choice = .text letters ∧
        choice.resolve o.edition = .error (.diagnostic d) ∧ d.source = none ∧ d.index = n ∧
        n < letters.length) ∨
      ∃ flags, ∃ n : Nat, choice.resolve o.edition = .ok flags ∧ d.index = n ∧
        slice.HasPlace flags.unicodeMode n) ∧
    (∀ slice d, slice.Valid → parseLiteral o slice = .error (.diagnostic d) →
      ∃ n : Nat, d.index = n ∧ slice.start ≤ n ∧ n ≤ slice.stop ∧
        ∀ length, Literal.patternLength slice = .ok length →
          Literal.FaultInPart o.edition slice length n) ∧
    (∀ source flags d, parseParts o source flags = .error (.diagnostic d) →
      ∃ n : Nat, d.index = n ∧ n ≤ (Literal.join source flags).length ∧
        Literal.FaultInPart o.edition (.whole (Literal.join source flags)) source.length n) := by
  refine ⟨?_, ?_, ?_⟩
  · intro choice slice d hs h
    rw [parsePattern, Except.bind_eq_error] at h
    rcases h with h | ⟨flags, hflags, h⟩
    -- flags are reported at one of their characters, and without a source
    · cases choice with
      | set flags => cases h
      | text letters =>
        obtain ⟨e, he, hd⟩ := Except.mapError_eq_error.mp h
        obtain ⟨f, hf, rfl⟩ := Except.mapError_eq_error.mp he
        cases hd
        exact .inl ⟨letters, f.index, rfl, h, rfl, Int.zero_add _, FlagSet.index_of_read hf⟩
    · obtain ⟨f, hf, hd⟩ := Except.mapError_eq_error.mp h
      obtain rfl := Failure.eq_of_ofFault hd
      exact .inr ⟨flags, f.index, hflags, rfl, Pattern.hasPlace_of_read hs hf⟩
  · intro slice d hs h
    obtain ⟨f, hf, hd⟩ := Except.mapError_eq_error.mp h
    obtain rfl := Failure.eq_of_ofFault hd
    rw [Literal.read, Except.bind_eq_error] at hf
    refine ⟨f.index, rfl, ?_⟩
    rcases hf with hf | ⟨length, hlength, hf⟩
    · obtain ⟨hstart, hstop⟩ := Literal.index_of_patternLength hs hf
      refine ⟨hstart, hstop, fun length hlength => ?_⟩
      rw [hf] at hlength
      cases hlength
    -- the body was found, so the fault is in it or in the flags
    · have hd := Literal.delimited_of_patternLength hlength
      have hpart := Literal.faultInPart_of_readParts hs hd hf
      refine ⟨(hpart.mem hd).1, (hpart.mem hd).2, fun length' hlength' => ?_⟩
      rw [hlength] at hlength'
      cases hlength'
      exact hpart
  · intro source flags d h
    obtain ⟨f, hf, hd⟩ := Except.mapError_eq_error.mp h
    obtain rfl := Failure.eq_of_ofFault hd
    have hd := Literal.delimited_join source flags
    have hpart := Literal.faultInPart_of_readParts (Slice.valid_whole _) hd hf
    exact ⟨f.index, rfl, (hpart.mem hd).2, hpart⟩

theorem faults_lie_in_their_parts_behind_pairs :
    (∃ d, ∃ n : Nat, parsePattern (.ofEdition .es2025 false) (.text ['u'])
        ⟨.ofString "x[😀-a]😀", 1, 7⟩ = .error (.diagnostic d) ∧ d.index = n ∧ 1 ≤ n ∧ n ≤ 7 ∧
      Slice.IsBoundary ⟨.ofString "x[😀-a]😀", 1, 7⟩ n) ∧
    (∃ d, parsePattern (.ofEdition .es2025 false) (.text ['g', 'u', 'u'])
      (.whole (.ofString "a")) = .error (.diagnostic d) ∧ d.source = none ∧ d.index < 3) ∧
    (∃ d, ∃ n : Nat, parseLiteral (.ofEdition .es2025 false) ⟨.ofString "x/😀/gig", 1, 8⟩ =
      .error (.diagnostic d) ∧ d.index = n ∧ 5 ≤ n ∧ n < 8) ∧
    ∃ d, ∃ n : Nat, parseParts (.ofEdition .es2025 false) (.ofString "😀(") (.ofString "v") =
      .error (.diagnostic d) ∧ d.index = n ∧ 1 ≤ n ∧ n ≤ 4 := by
  obtain ⟨hpattern, hliteral, hparts⟩ := faults_lie_in_their_parts (.ofEdition .es2025 false)
  refine ⟨?_, ?_, ?_, ?_⟩
  -- a range out of order in a slice that starts and ends within a longer text
  · have hv : Slice.Valid ⟨.ofString "x[😀-a]😀", 1, 7⟩ := ⟨by decide, by decide +kernel⟩
    obtain ⟨d, hd⟩ : ∃ d, parsePattern (.ofEdition .es2025 false) (.text ['u'])
        ⟨.ofString "x[😀-a]😀", 1, 7⟩ = .error (.diagnostic d) :=
      Except.exists_eq_diagnostic (by decide +kernel)
    have hflags : FlagChoice.resolve (Options.ofEdition .es2025 false).edition
        (.text ['u']) = .ok { unicode := true } := by rfl
    rcases hpattern _ _ d hv hd with ⟨t, n, -, herror, -⟩ | ⟨flags, n, hok, hn, hplace⟩
    · rw [hflags] at herror
      cases herror
    · rw [hflags] at hok
      cases hok
      exact ⟨d, n, hd, hn, hplace.start_le, hplace.le_stop, hplace.isBoundary rfl⟩
  · obtain ⟨d, hd⟩ : ∃ d, parsePattern (.ofEdition .es2025 false) (.text ['g', 'u', 'u'])
        (.whole (.ofString "a")) = .error (.diagnostic d) :=
      Except.exists_eq_diagnostic (by decide +kernel)
    have hflags : (FlagChoice.resolve (Options.ofEdition .es2025 false).edition
        (.text ['g', 'u', 'u'])).isOk = false := by decide +kernel
    rcases hpattern _ _ d (Slice.valid_whole _) hd with
      ⟨t, n, ht, -, hsource, hn, hlt⟩ | ⟨flags, n, hok, -⟩
    · cases ht
      refine ⟨d, hd, hsource, ?_⟩
      rw [List.length_cons, List.length_cons, List.length_singleton] at hlt
      omega
    · rw [hok] at hflags
      cases hflags
  · have hv : Slice.Valid ⟨.ofString "x/😀/gig", 1, 8⟩ := ⟨by decide, by decide +kernel⟩
    obtain ⟨d, hd⟩ : ∃ d, parseLiteral (.ofEdition .es2025 false) ⟨.ofString "x/😀/gig", 1, 8⟩ =
        .error (.diagnostic d) := Except.exists_eq_diagnostic (by decide +kernel)
    -- a flag that stands twice, behind a body with a pair in it
    have hlength : Literal.patternLength ⟨.ofString "x/😀/gig", 1, 8⟩ = .ok 2 := by rfl
    obtain ⟨e, he⟩ : ∃ e, FlagSet.read (Options.ofEdition .es2025 false).edition
        ((Literal.flagPart ⟨.ofString "x/😀/gig", 1, 8⟩ 2).content.characters true) = .error e :=
      Except.exists_eq_error (by decide +kernel)
    obtain ⟨n, hn, -, -, hpart⟩ := hliteral _ d hv hd
    have hindex := hpart 2 hlength
    rw [Literal.FaultInPart, he] at hindex
    exact ⟨d, n, hd, hn, hindex⟩
  · obtain ⟨d, hd⟩ : ∃ d, parseParts (.ofEdition .es2025 false) (.ofString "😀(") (.ofString "v") =
        .error (.diagnostic d) := Except.exists_eq_diagnostic (by decide +kernel)
    -- the flags are read, so the fault is in the body
    have hlength : (Text.ofString "😀(").length = 3 := by decide
    have hflags : FlagSet.read (Options.ofEdition .es2025 false).edition
        ((Literal.flagPart (.whole (Literal.join (.ofString "😀(") (.ofString "v")))
          3).content.characters true) = .ok { unicodeSets := true } := by rfl
    obtain ⟨n, hn, -, hpart⟩ := hparts _ _ d hd
    rw [Literal.FaultInPart, hlength, hflags] at hpart
    exact ⟨d, n, hd, hn, hpart.start_le, hpart.le_stop⟩

end EcmaPattern
