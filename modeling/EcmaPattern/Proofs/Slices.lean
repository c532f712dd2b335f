import EcmaPattern.Proofs.FlagText
import EcmaPattern.Proofs.Tiling
import EcmaPattern.Proofs.Translation
import EcmaPattern.Proofs.Utf16

/-!
# Slices in isolation

A slice is read as a text of its own: what lies around it has no influence, and where it lies moves
all offsets alike (`slices_parsed_in_isolation`). In the same way a pattern that is given along with
its flags is read one unit further on, behind the slash that opens the literal. The flags have
become text by then, in which two halves of a pair are one character: where that is the first that
is no flag, it is reported in the place of its first half (`FlagSet.read_ofCodePoints`).
-/

namespace EcmaPattern

def Flags.shift (k : Nat) (f : Flags) : Flags := { f with span := f.span.shift k }

def Literal.shift (k : Nat) (l : Literal) : Literal :=
  ⟨l.span.shift k, l.pattern.shift k, l.flags.shift k⟩

/-- The answer, so many units further on; the function moves the tree. -/
def shiftAnswer {α : Type} (k : Nat) (f : α → α) (answer : Except Failure α) :
    Except Failure α :=
  (answer.map f).mapError (·.shift k)

/-! ## Slices with the same content

Two slices are moved against each other if they have the same contents and their starts differ by so
many units. Their parts are moved by as much. -/

namespace Slice

/-- The first slice holds the same text as the second, so many units further on. -/
structure Moved (k : Nat) (a b : Slice) : Prop where
  start : a.start = k + b.start
  stop : a.stop = k + b.stop
  content : a.content = b.content

theorem moved_whole {s : Slice} (hs : s.Valid) : Moved s.start s (.whole s.content) where
  start := rfl
  stop := by
    have hle := hs.start_le_stop
    show s.stop = s.start + s.content.length
    rw [length_content hs]
    omega
  content := (content_whole _).symm

theorem content_from (s : Slice) (i : Nat) :
    content ⟨s.text, s.start + i, s.stop⟩ = s.content.drop i := by
  rw [content, content, Text.slice, Text.slice, List.drop_drop]

/-- The part of a slice is a part of its contents. -/
theorem content_part (s : Slice) {i j : Nat} (h : s.start + j ≤ s.stop) :
    content ⟨s.text, s.start + i, s.start + j⟩ = (s.content.take j).drop i := by
  rw [content, content, Text.slice, Text.slice, List.take_drop, List.take_take,
    Nat.min_eq_left (by omega), List.drop_drop]

variable {k : Nat} {a b : Slice}

/-- A place in a moved slice is the moved place. -/
theorem Moved.cursor (h : Moved k a b) (paired : Bool) :
    a.cursor paired = (b.cursor paired).shift k := by
  have hcontent : a.text.slice a.start a.stop = b.text.slice b.start b.stop := h.content
  rw [Slice.cursor, cursorAt, hcontent, h.start]
  rfl

theorem Moved.from (h : Moved k a b) (i : Nat) :
    Moved k ⟨a.text, a.start + i, a.stop⟩ ⟨b.text, b.start + i, b.stop⟩ where
  start := by
    show a.start + i = k + (b.start + i)
    rw [h.start, Nat.add_assoc]
  stop := h.stop
  content := by rw [content_from, content_from, h.content]

/-- Parts of slices that are moved against each other are moved by as much. -/
theorem Moved.part (h : Moved k a b) {i j : Nat} (hj : b.start + j ≤ b.stop) :
    Moved k ⟨a.text, a.start + i, a.start + j⟩ ⟨b.text, b.start + i, b.start + j⟩ where
  start := by
    show a.start + i = k + (b.start + i)
    rw [h.start, Nat.add_assoc]
  stop := by
    show a.start + j = k + (b.start + j)
    rw [h.start, Nat.add_assoc]
  content := by
    have hj' : a.start + j ≤ a.stop := by
      rw [h.start, h.stop]
      omega
    rw [content_part a hj', content_part b hj, h.content]

end Slice

theorem Fault.shift_shift (f : Fault) (i k : Nat) : (f.shift i).shift k = f.shift (k + i) := by
  rw [shift, shift, shift, Nat.add_assoc]

/-! ## Reading them

Each of the readers gives the moved value, or the fault at the moved offset. -/

section Reading

variable {k : Nat} {a b : Slice} (h : Slice.Moved k a b) (o : Options)

include h

/-- A moved slice is read as the moved pattern. -/
theorem Pattern.read_moved (flags : FlagSet) :
    Pattern.read o flags a =
      ((Pattern.read o flags b).map (Pattern.shift k)).mapError (·.shift k) := by
  rw [Pattern.read, Pattern.read]
  split
  · rw [h.start]
    rfl
  · rw [h.cursor, Pattern.readUnder_shift]

/-- A moved slice is read as the moved flags. -/
theorem Flags.read_moved (e : Edition) :
    Flags.read e a = ((Flags.read e b).map (Flags.shift k)).mapError (·.shift k) := by
  rw [Flags.read, Flags.read, h.content, h.start, h.stop]
  cases FlagSet.read e (b.content.characters true) with
  | error f => exact congrArg Except.error (f.shift_shift b.start k).symm
  | ok set => rfl

/-- A moved literal is split at the same length. -/
theorem Literal.patternLength_moved :
    Literal.patternLength a = (Literal.patternLength b).mapError (·.shift k) := by
  have hindex : ∀ cause i,
      (⟨cause, k + b.start + i⟩ : Fault) = Fault.shift ⟨cause, b.start + i⟩ k :=
    fun cause i => congrArg (Fault.mk cause) (Nat.add_assoc k b.start i)
  rw [patternLength, patternLength, h.content, h.start]
  cases b.content with
  | nil => rfl
  | cons u body =>
    dsimp only
    split
    · split
      · exact congrArg Except.error (hindex _ 1)
      · cases bodyLength false false body 0 with
        | error e =>
          refine congrArg Except.error ?_
          dsimp only
          rw [Nat.add_assoc (k + b.start), hindex, Nat.add_assoc b.start]
        | ok n => rfl
    · rfl

/-- A moved literal is read as the moved literal, if it holds its flags. -/
theorem Literal.readParts_moved {length : Nat} (hlength : b.start + length + 2 ≤ b.stop) :
    Literal.readParts o a length =
      ((Literal.readParts o b length).map (Literal.shift k)).mapError (·.shift k) := by
  have hflags := Flags.read_moved (h.from (length + 2)) o.edition
  have hpattern := Pattern.read_moved (h.part (i := 1) (j := length + 1) (by omega)) o
  have hread : ∀ s : Slice, Literal.readParts o s length = do
      let flags ← Flags.read o.edition ⟨s.text, s.start + (length + 2), s.stop⟩
      let pattern ← Pattern.read o flags.set ⟨s.text, s.start + 1, s.start + (length + 1)⟩
      return ⟨⟨s.start, s.stop, s.content⟩, pattern, flags⟩ := fun s => rfl
  rw [hread a, hread b, hflags]
  cases Flags.read o.edition ⟨b.text, b.start + (length + 2), b.stop⟩ with
  | error f => rfl
  | ok flags =>
    show (Pattern.read o flags.set _ >>= _) =
      Except.mapError _ (Except.map _ (Pattern.read _ _ _ >>= _))
    rw [hpattern, h.start, h.stop, h.content]
    cases Pattern.read o flags.set ⟨b.text, b.start + 1, b.start + (length + 1)⟩ with
    | error f => rfl
    | ok p => rfl

theorem Literal.read_moved :
    Literal.read o a = ((Literal.read o b).map (Literal.shift k)).mapError (·.shift k) := by
  rw [Literal.read, Literal.read, patternLength_moved h]
  cases hlength : Literal.patternLength b with
  | error f => rfl
  | ok length => exact readParts_moved h o (delimited_of_patternLength hlength).le_stop

end Reading

/-! ## A pattern behind a slash

In a literal that is joined from a pattern and flags, the pattern begins at offset one. -/

theorem Literal.moved_source (source flags : Text) :
    Slice.Moved 1 ⟨join source flags, 1, source.length + 1⟩ (.whole source) where
  start := rfl
  stop := Nat.add_comm _ _
  content := by rw [content_source, Slice.content_whole]

/-! ## Answers

A slice is moved against the text of its contents, so the answer for it is the moved answer for that
text. A diagnostic quotes the source, which is not moved. -/

theorem Diagnostic.ofFault_shift (source : Option Text) (f : Fault) (k : Nat) :
    ofFault source (f.shift k) = (ofFault source f).shift k := by
  rw [ofFault, ofFault, shift, Fault.shift, Int.natCast_add]

theorem Failure.ofFault_shift (source : Option Text) (f : Fault) (k : Nat) :
    ofFault source (f.shift k) = (ofFault source f).shift k := by
  obtain ⟨cause, index⟩ := f
  cases cause with
  | tooManyDigits n => rfl
  | _ => exact congrArg Failure.diagnostic (Diagnostic.ofFault_shift source _ k)

/-- A moved answer is reported at moved offsets. -/
theorem mapError_ofFault_shift {α : Type} (source : Option Text) (k : Nat) (f : α → α)
    (x : Except Fault α) :
    ((x.map f).mapError (·.shift k)).mapError (.ofFault source) =
      shiftAnswer k f (x.mapError (.ofFault source)) := by
  cases x with
  | error e => exact congrArg Except.error (Failure.ofFault_shift source e k)
  | ok a => rfl

section Answers

variable (o : Options) {slice : Slice} (hv : slice.Valid)

include hv

/-- A pattern in a slice is the pattern of its contents, moved to where the slice begins. -/
theorem parsePattern_slice (choice : FlagChoice) :
    parsePattern o choice slice =
      match choice.resolve o.edition with
      | .ok _ => shiftAnswer slice.start (Pattern.shift slice.start)
          (parsePattern o choice (.whole slice.content))
      | .error _ => parsePattern o choice (.whole slice.content) := by
  have hmoved := Slice.moved_whole hv
  rw [parsePattern, parsePattern]
  cases choice.resolve o.edition with
  | error d => rfl
  | ok set =>
    have hsource : patternSource (.whole slice.content) set = patternSource slice set := by
      rw [patternSource, patternSource, ← hmoved.content]
    show (Pattern.read o set slice).mapError _ = shiftAnswer _ _ (Except.mapError _ _)
    rw [Pattern.read_moved hmoved, hsource, mapError_ofFault_shift]

/-- A literal in a slice is the literal of its contents, moved to where the slice begins. -/
theorem parseLiteral_slice :
    parseLiteral o slice = shiftAnswer slice.start (Literal.shift slice.start)
      (parseLiteral o (.whole slice.content)) := by
  have hmoved := Slice.moved_whole hv
  have hsource : literalSource (.whole slice.content) = literalSource slice := by
    rw [literalSource, literalSource, ← hmoved.content]
  rw [parseLiteral, parseLiteral, Literal.read_moved hmoved, hsource, mapError_ofFault_shift]

/-- The flags in a slice are those of its contents, moved to where the slice begins. -/
theorem parseFlags_slice :
    parseFlags o slice = shiftAnswer slice.start (Flags.shift slice.start)
      (parseFlags o (.whole slice.content)) := by
  rw [parseFlags, parseFlags, Flags.read_moved (Slice.moved_whole hv), mapError_ofFault_shift]

end Answers

/-! ## Flags as text

Flags that are given as characters are written into the literal as units. If a lead surrogate is
directly followed by a trail among them, these are read as one character, and the message names
another one than it does for the flags by themselves; that is the only difference
(`flags_named_differently_at_pair`). -/

namespace FlagSet

variable {e : Edition}

/-- A letter outside ASCII is no flag in any edition. -/
theorem collect_of_val_le {c : CodePoint} (h : 0x80 ≤ c.val) (seen : List (Flag × Nat))
    (index : Nat) (rest : List CodePoint) :
    collect e seen index (c :: rest) = .error ⟨.invalidFlag c, index⟩ := by
  have hnone : Flag.ofLetter? c = none := by
    refine List.find?_eq_none.mpr fun f _ => ?_
    rw [beq_iff_eq]
    rintro rfl
    revert h
    cases f <;> decide
  rw [collect, hnone]

/-- Letters are read as they would be from their text, unless the first that is no flag is half of a
pair. -/
theorem collect_ofCodePoints (letters : List CodePoint) (seen : List (Flag × Nat)) (index : Nat) :
    collect e seen index ((Text.ofCodePoints letters).characters true) =
        collect e seen index letters ∨
      ∃ k a b, letters[k]? = some a ∧ letters[k + 1]? = some b ∧ CodePoint.ArePair a b ∧
        collect e seen index letters = .error ⟨.invalidFlag a, index + k⟩ ∧
        collect e seen index ((Text.ofCodePoints letters).characters true) =
          .error ⟨.invalidFlag (.ofPair a b), index + k⟩ := by
  induction letters generalizing seen index with
  | nil => exact .inl rfl
  | cons c rest ih =>
    by_cases hpair : ∃ d ∈ rest.head?, CodePoint.ArePair c d
    · obtain ⟨d, hd, hpair⟩ := hpair
      obtain ⟨rest, rfl⟩ := List.head?_eq_some_iff.mp hd
      have hlead := CodePoint.isLead_iff.mp hpair.1
      have htrail := CodePoint.isTrail_iff.mp hpair.2
      obtain ⟨u, hu, rfl⟩ := CodePoint.encode_of_lt (c := c) (by omega)
      obtain ⟨v, hv, rfl⟩ := CodePoint.encode_of_lt (c := d) (by omega)
      have hisPair : Text.isPair u v = true := by
        rw [Text.isPair, hpair.1, hpair.2]
        rfl
      have htext : Text.ofCodePoints (.ofUnit u :: .ofUnit v :: rest) =
          u :: v :: Text.ofCodePoints rest := by
        simp [Text.ofCodePoints, hu, hv]
      -- neither a lone surrogate nor a pair is a flag, so both are refused here
      have hjoined := Text.val_joined hisPair
      refine .inr ⟨0, .ofUnit u, .ofUnit v, rfl, rfl, hpair, collect_of_val_le (by omega) _ _ _, ?_⟩
      rw [htext, Text.characters, Bool.true_and, if_pos hisPair]
      exact collect_of_val_le (by omega) _ _ _
    · have huncons : (Text.ofCodePoints (c :: rest)).uncons? true =
          some (c, Text.ofCodePoints rest) :=
        Text.uncons?_encode_append fun d hd hfalse => hpair ⟨d, hd, hfalse⟩
      rw [Text.characters_eq_uncons?, huncons]
      simp only [collect]
      split
      · exact .inl rfl
      · split
        · exact .inl rfl
        · split
          · next f _ _ _ =>
            rcases ih (seen ++ [(f, index)]) (index + 1) with heq |
              ⟨k, a, b, ha, hb, hpair, hletters, htext⟩
            · exact .inl heq
            · have hindex : index + 1 + k = index + (k + 1) := by omega
              rw [hindex] at hletters htext
              exact .inr ⟨k + 1, a, b, ha, hb, hpair, hletters, htext⟩
          · exact .inl rfl

/-- Letters that are put into units and read again are the same letters, but for a lead that is
directly followed by a trail; neither of those is a flag. -/
theorem read_ofCodePoints (letters : List CodePoint) :
    read e ((Text.ofCodePoints letters).characters true) = read e letters ∨
      ∃ k a b, letters[k]? = some a ∧ letters[k + 1]? = some b ∧ CodePoint.ArePair a b ∧
        read e letters = .error ⟨.invalidFlag a, k⟩ ∧
        read e ((Text.ofCodePoints letters).characters true) =
          .error ⟨.invalidFlag (.ofPair a b), k⟩ := by
  rcases collect_ofCodePoints (e := e) letters [] 0 with heq |
    ⟨k, a, b, ha, hb, hpair, hletters, htext⟩
  · left
    rw [read, read, heq]
  · rw [Nat.zero_add] at hletters htext
    refine .inr ⟨k, a, b, ha, hb, hpair, ?_, ?_⟩
    · rw [read, hletters]
      rfl
    · rw [read, htext]
      rfl

end FlagSet

/-- Of parts, first the flags are read and then, one unit further on, the pattern. -/
theorem parseParts_eq (o : Options) (source flags : Text) :
    parseParts o source flags =
      match FlagSet.read o.edition (flags.characters true) with
      | .error f => .error (.ofFault (literalSource (.whole (Literal.join source flags)))
          (f.shift (source.length + 2)))
      | .ok set => ((Pattern.read o set (.whole source)).map fun p =>
          ⟨(Slice.whole (Literal.join source flags)).span, p.shift 1,
            ⟨⟨source.length + 2, (Literal.join source flags).length, flags⟩, set⟩⟩).mapError
              fun f =>
                .ofFault (literalSource (.whole (Literal.join source flags))) (f.shift 1) := by
  rw [parseParts, Literal.readParts]
  simp only [Slice.whole, Nat.zero_add, Flags.read]
  rw [Literal.content_flags]
  cases FlagSet.read o.edition (flags.characters true) with
  | error f => rfl
  | ok set =>
    show Except.mapError _
        (Pattern.read o set ⟨Literal.join source flags, 1, source.length + 1⟩ >>= _) =
      Except.mapError _ (Except.map _ (Pattern.read o set (.whole source)))
    rw [Pattern.read_moved (Literal.moved_source source flags)]
    cases Pattern.read o set (.whole source) <;> rfl

/-- Flags that are given as text are read letter by letter, whatever the slice. -/
theorem parsePattern_text (o : Options) (letters : List CodePoint) (slice : Slice) :
    parsePattern o (.text letters) slice =
      match FlagSet.read o.edition letters with
      | .error f => .error (.diagnostic ((Diagnostic.ofFault none f).shift 0))
      | .ok set =>
        (Pattern.read o set slice).mapError (.ofFault (some (patternSource slice set))) := by
  rw [parsePattern, FlagChoice.resolve, readFlags]
  cases FlagSet.read o.edition letters <;> rfl

/-- The first failure is the second at an offset so many units further on. In flags that are written
as text, a pair is named where in the letters it is the first half of one. -/
inductive Failure.MovedInParts (letters : List CodePoint) (k : Nat) : Failure → Failure → Prop
  | tooManyDigits (count : Nat) : MovedInParts letters k (.tooManyDigits count)
      (.tooManyDigits count)
  | same {d e : Diagnostic} (message : d.message = e.message) (nesting : d.nesting = e.nesting)
      (index : d.index = e.index + k) : MovedInParts letters k (.diagnostic d) (.diagnostic e)
  | pair {d e : Diagnostic} {i : Nat} {a b : CodePoint} (lead : letters[i]? = some a)
      (trail : letters[i + 1]? = some b) (pair : CodePoint.ArePair a b)
      (half : e.message = (Cause.invalidFlag a).message) (place : e.index = i)
      (whole : d.message = (Cause.invalidFlag (.ofPair a b)).message)
      (nesting : d.nesting = e.nesting) (index : d.index = e.index + k) :
      MovedInParts letters k (.diagnostic d) (.diagnostic e)

theorem Failure.ofFault_of_flags {source : Option Text} {f : Fault} {k : Nat}
    (h : f.cause.isOfFlags = true) :
    ofFault source (f.shift k) = .diagnostic (.ofFault source (f.shift k)) := by
  obtain ⟨cause, index⟩ := f
  cases cause with
  | tooManyDigits n => cases h
  | _ => rfl

theorem Failure.movedInParts_ofFault (letters : List CodePoint) (source source' : Option Text)
    (f : Fault) (k : Nat) :
    MovedInParts letters k (ofFault source (f.shift k)) (ofFault source' f) := by
  obtain ⟨cause, index⟩ := f
  have hindex : ((k + index : Nat) : Int) = index + k := by omega
  cases cause with
  | tooManyDigits n => exact .tooManyDigits n
  | _ => exact .same rfl rfl hindex

/-- A slice is parsed as its content is by itself: the offsets of the tree and of a fault are those
in the content, moved by the start of the slice, and all else is the same. A fault in the flags that
a pattern is given has nothing to do with the slice. A pattern and flags that are given together are
parsed exactly if the pattern is under those flags; the offsets of the pattern, and of a fault in
it, are moved by one, and those of a fault in the flags by the length of the pattern and the two
slashes. -/
theorem slices_parsed_in_isolation (o : Options) :
    (∀ choice slice, slice.Valid →
      parsePattern o choice slice =
        match choice.resolve o.edition with
        | .ok _ => shiftAnswer slice.start (Pattern.shift slice.start)
            (parsePattern o choice (.whole slice.content))
        | .error _ => parsePattern o choice (.whole slice.content)) ∧
    (∀ slice, slice.Valid →
      parseLiteral o slice = shiftAnswer slice.start (Literal.shift slice.start)
        (parseLiteral o (.whole slice.content))) ∧
    (∀ slice, slice.Valid →
      parseFlags o slice = shiftAnswer slice.start (Flags.shift slice.start)
        (parseFlags o (.whole slice.content))) ∧
    ∀ source letters,
      ((∃ l, parseParts o source (.ofCodePoints letters) = .ok l) ↔
        ∃ p, parsePattern o (.text letters) (.whole source) = .ok p) ∧
      (∀ l p, parseParts o source (.ofCodePoints letters) = .ok l →
        parsePattern o (.text letters) (.whole source) = .ok p → l.pattern = p.shift 1) ∧
      ∀ d e, parseParts o source (.ofCodePoints letters) = .error d →
        parsePattern o (.text letters) (.whole source) = .error e →
        Failure.MovedInParts letters (match FlagChoice.resolve o.edition (.text letters) with
          | .ok _ => 1
          | .error _ => source.length + 2) d e := by
  refine ⟨fun choice slice hv => parsePattern_slice o hv choice,
    fun slice hv => parseLiteral_slice o hv, fun slice hv => parseFlags_slice o hv, ?_⟩
  intro source letters
  have hresolve : FlagChoice.resolve o.edition (.text letters) =
      (FlagSet.read o.edition letters).mapError fun f =>
        .diagnostic ((Diagnostic.ofFault none f).shift 0) := by
    rw [FlagChoice.resolve, readFlags]
    cases FlagSet.read o.edition letters <;> rfl
  rw [parseParts_eq, parsePattern_text, hresolve]
  -- the flags of the parts are joined from surrogates, those given to a pattern are not
  rcases FlagSet.read_ofCodePoints (e := o.edition) letters with heq |
    ⟨k, a, b, ha, hb, hpair, hletters, htext⟩
  · rw [heq]
    cases hread : FlagSet.read o.edition letters with
    | error f =>
      refine ⟨iff_of_false Except.not_exists_ok_of_error Except.not_exists_ok_of_error, ?_, ?_⟩
      · rintro l p ⟨⟩
      · rintro d e ⟨⟩ ⟨⟩
        rw [Failure.ofFault_of_flags (FlagSet.cause_of_read hread)]
        refine .same rfl rfl ?_
        show ((source.length + 2 + f.index : Nat) : Int) = 0 + f.index + (source.length + 2 : Nat)
        omega
    | ok set =>
      dsimp only
      cases Pattern.read o set (.whole source) with
      | error f =>
        refine ⟨iff_of_false Except.not_exists_ok_of_error Except.not_exists_ok_of_error, ?_, ?_⟩
        · rintro l p ⟨⟩
        · rintro d e ⟨⟩ ⟨⟩
          exact Failure.movedInParts_ofFault letters _ _ f 1
      | ok p =>
        refine ⟨⟨fun _ => ⟨p, rfl⟩, fun _ => ⟨_, rfl⟩⟩, ?_, ?_⟩
        · rintro l q ⟨⟩ ⟨⟩
          rfl
        · rintro d e ⟨⟩
  · rw [hletters, htext]
    refine ⟨iff_of_false Except.not_exists_ok_of_error Except.not_exists_ok_of_error, ?_, ?_⟩
    · rintro l p ⟨⟩
    · rintro d e ⟨⟩ ⟨⟩
      refine .pair ha hb hpair rfl (Int.zero_add _) rfl rfl ?_
      show ((source.length + 2 + k : Nat) : Int) = 0 + k + (source.length + 2 : Nat)
      omega

/-- The halves of a pair, given as flags: the pattern is refused for the first half, and in the
parts it is the pair that is named. -/
theorem flags_named_differently_at_pair :
    ∃ d e, parseParts (.ofEdition .es2025 false) (.ofString "a")
        (.ofCodePoints [.ofUnit 0xD83D, .ofUnit 0xDE00]) = .error d ∧
      parsePattern (.ofEdition .es2025 false) (.text [.ofUnit 0xD83D, .ofUnit 0xDE00])
        (.whole (.ofString "a")) = .error e ∧
      d.message ≠ e.message :=
  ⟨_, _, rfl, rfl, by decide⟩

theorem slices_parsed_in_isolation_at_cut_pair :
    Slice.Valid ⟨.ofString "x(?<n>[^😀]\\k<n>)😀", 1, 18⟩ ∧
    ∃ p, parsePattern (.ofEdition .es2025 false) (.text ['u'])
        (.whole (Slice.content ⟨.ofString "x(?<n>[^😀]\\k<n>)😀", 1, 18⟩)) = .ok p ∧
      parsePattern (.ofEdition .es2025 false) (.text ['u'])
        ⟨.ofString "x(?<n>[^😀]\\k<n>)😀", 1, 18⟩ = .ok (p.shift 1) ∧
      ∃ l, parseParts (.ofEdition .es2025 false)
          (Slice.content ⟨.ofString "x(?<n>[^😀]\\k<n>)😀", 1, 18⟩) (.ofCodePoints ['u']) = .ok l ∧
        l.pattern = p.shift 1 := by
  have hv : Slice.Valid ⟨.ofString "x(?<n>[^😀]\\k<n>)😀", 1, 18⟩ := ⟨by decide, by decide +kernel⟩
  obtain ⟨p, hp⟩ : ∃ p, parsePattern (.ofEdition .es2025 false) (.text ['u'])
      (.whole (Slice.content ⟨.ofString "x(?<n>[^😀]\\k<n>)😀", 1, 18⟩)) = .ok p :=
    Except.exists_eq_ok (by decide +kernel)
  obtain ⟨flags, hflags⟩ : ∃ flags,
      FlagChoice.resolve (Options.ofEdition .es2025 false).edition (.text ['u']) =
        .ok flags :=
    Except.exists_eq_ok (by decide +kernel)
  obtain ⟨hpattern, -, -, hparts⟩ := slices_parsed_in_isolation (.ofEdition .es2025 false)
  obtain ⟨hsucceeds, hmoved, -⟩ :=
    hparts (Slice.content ⟨.ofString "x(?<n>[^😀]\\k<n>)😀", 1, 18⟩) ['u']
  obtain ⟨l, hl⟩ := hsucceeds.mpr ⟨p, hp⟩
  refine ⟨hv, p, hp, ?_, l, hl, hmoved l p hl hp⟩
  rw [hpattern _ _ hv, hflags, hp]
  rfl

end EcmaPattern
