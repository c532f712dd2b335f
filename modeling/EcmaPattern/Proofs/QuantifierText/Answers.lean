import EcmaPattern.Proofs.CharacterValues.Answers
import EcmaPattern.Proofs.QuantifierText

/-!
# Quantifiers in answers

In every tree that answers a request, each quantifier is read exactly and none is left over
(`quantifiers_read_exactly`). A quantifier has the bounds that its text stands for and repeats a
term that may be repeated, and no text that could have been read as a quantifier stands where terms
begin or end. By the web grammar an opening brace may be a character, but none that begins bounds
is.
-/

namespace EcmaPattern

open EcmaPattern.Parser

/-! ## What is read

What is demanded of a node: that its bounds are those of its text, that what it repeats may be
repeated, and that its places are without quantifiers. -/

/-- Whether a term may be repeated. An assertion may not, but for a lookahead by the web grammar. -/
def Term.Repeatable (exact : Bool) : Term → Prop
  | edge _ _ => False
  | wordBoundary _ _ => False
  | look _ .ahead _ _ => exact = false
  | look _ .behind _ _ => False
  | quantified _ _ _ => False
  | _ => True

/-- The repetition is what the text between two offsets says, and its bounds are in order. -/
structure Repetition.StandsIn (slice : Slice) (start stop : Nat) (r : Repetition) : Prop where
  writtenAs : ∃ cs, r.WrittenAs cs ∧ slice.text.Spells start cs stop
  ordered : ∀ most, r.max = some most → r.min ≤ most

/-- A character that is written as a brace begins no bounds, and it stands only in the web
grammar. -/
structure Character.LoneBrace (exact : Bool) (c : Character) (next : List CodePoint) : Prop where
  noBounds : c.span.raw = .ofString "\x7b" → ¬ BeginsWithBraces next
  web : exact = true → c.span.raw ≠ .ofString "\x7b" ∧ c.span.raw ≠ .ofString "\x7d"

/-- Around the node, quantifiers are read exactly and none is left over. -/
def Node.QuantifiersExact (o : Options) (flags : FlagSet) (slice : Slice) : Node → Prop
  | .term (.quantified span r e) =>
    r.StandsIn slice e.span.stop span.stop ∧ e.Repeatable (o.strict || flags.unicodeMode)
  | .sequence q =>
    ∀ i ∈ q.span.start :: q.elements.map (·.span.stop),
      ¬ BeginsWithQuantifier (slice.charactersFrom flags.unicodeMode i)
  | .term (.set (.character c)) =>
    c.LoneBrace (o.strict || flags.unicodeMode)
      (slice.charactersFrom flags.unicodeMode c.span.start)
  | _ => True

/-! ## Nodes

Resolving a reference changes neither its text nor whether it may be repeated. -/

/-- Resolving references does not change what may be repeated. -/
theorem Term.Repeatable.resolve {exact : Bool} {f : GroupName → List Nat} {e : Term}
    (h : e.Repeatable exact) : (e.resolve f).Repeatable exact := by
  cases e with
  | look span direction negated qs => cases direction <;> exact h
  | reference span target => cases target <;> trivial
  | quantified _ _ _ => exact h
  | _ => exact h

/-- To resolve references moves nothing. -/
theorem Node.quantifiersExact_resolve {o : Options} {flags : FlagSet} {slice : Slice}
    {f : GroupName → List Nat} {n : Node} (h : n.QuantifiersExact o flags slice) :
    (n.resolve f).QuantifiersExact o flags slice := by
  cases n with
  | sequence q =>
    obtain ⟨span, es⟩ := q
    simpa only [resolve, Term.resolveSequence, QuantifiersExact, Sequence.elements, Sequence.span,
      Term.resolveTerms_eq, List.map_map, Function.comp_def, Term.span_resolve] using h
  | term e =>
    cases e with
    | quantified span r e =>
      obtain ⟨hr, he⟩ := h
      refine ⟨?_, he.resolve⟩
      rwa [Term.span_resolve]
    | reference span target => cases target <;> trivial
    | _ => exact h
  | _ => exact h

section Terms

variable {g : Grammar} {s t u : State} {d : Nat} {e : Term}

/-- An atom may be repeated. -/
theorem ReadsAtom.repeatable {exact : Bool}
    (h : ReadsAtom g (Parser.charClass d false) (nestedAt d) s e t) : e.Repeatable exact := by
  cases h with
  | group h =>
    rcases group_shape h with ⟨_, _, _, rfl⟩ | ⟨_, _, _, _, rfl⟩
    · trivial
    · trivial
  | _ => trivial

theorem Term.repeatable_of_isLookahead (h : e.isLookahead = true) : e.Repeatable false := by
  cases e with
  | look span direction negated qs =>
    cases direction with
    | ahead => rfl
    | behind => cases h
  | _ => cases h

/-- A text that is a single sign was read for a character that stands for itself. -/
theorem ReadsValue.plain_of_raw {c : Character} (h : ReadsValue g .term s c.value t)
    (hspan : c.span = .between s.cursor t.cursor) (text : Text) (sign : CodePoint)
    (htext : ∀ paired, text.characters paired = [sign]) (hne : sign ≠ .ofChar '\\')
    (hraw : c.span.raw = text) :
    s.cursor.current = some sign ∧ Place.term.allows g sign = true := by
  obtain ⟨cs, hr, hcs⟩ := h.reads
  have hcharacters : text.characters s.cursor.paired = cs := by
    rw [← hraw, hspan, hr.characters_raw]
  rw [htext] at hcharacters
  subst hcharacters
  rcases hcs with ⟨heq, hallows⟩ | hslash
  · rw [← List.singleton_inj.mp heq] at hallows
    exact ⟨hr.current_eq, hallows⟩
  · exact absurd (Option.some.inj hslash) hne

/-- A brace that is read as a character begins no bounds. -/
theorem ReadsValue.loneBrace {c : Character} (h : ReadsValue g .term s c.value t)
    (hspan : c.span = .between s.cursor t.cursor)
    (hb : s.cursor.current = some (.ofChar '{') → strayBounds g s = .miss) :
    c.LoneBrace g.exact s.cursor.characters := by
  have hopen := h.plain_of_raw hspan (.ofString "\x7b") '{' (by decide) (by decide)
  have hclose := h.plain_of_raw hspan (.ofString "\x7d") '}' (by decide) (by decide)
  refine ⟨fun hraw => noBraces_of_strayBounds (hb (hopen hraw).1), fun hexact => ?_⟩
  refine ⟨fun hraw => ?_, fun hraw => ?_⟩
  · have hallows := (hopen hraw).2
    rw [Place.allows, if_pos hexact] at hallows
    cases hallows
  · have hallows := (hclose hraw).2
    rw [Place.allows, if_pos hexact] at hallows
    cases hallows

end Terms

section Nodes

variable {o : Options} {flags : FlagSet} {slice : Slice} {n : Node}

/-- A node that a parser gave has its quantifiers exact. -/
theorem Node.GivenIn.quantifiersExact (hv : slice.Valid) (h : n.GivenIn o flags slice) :
    n.QuantifiersExact o flags slice := by
  obtain ⟨named, m, f, s, t, rfl, hs, h⟩ := h
  refine Node.quantifiersExact_resolve ?_
  -- only alternatives, quantifiers and characters have something to show
  cases m with
  | sequence q =>
    intro i hi
    obtain ⟨v, hreaches, rfl, hplace⟩ := h.alternative_places i hi
    rwa [(hs.trans hreaches).charactersFrom_index]
  | term e =>
    cases e with
    | quantified span r e =>
      obtain ⟨d, u, he, hspan, hreaches, rfl, hr⟩ := h.quantified_parts
      obtain ⟨hordered, cs, hcs, hreads⟩ := quantifier_writtenAs hr
      refine ⟨⟨⟨cs, hcs, ?_⟩, fun most hmost => ?_⟩, ?_⟩
      · rw [hspan]
        exact (hs.trans hreaches).spells hv hreads.cursor
      · rw [hmost] at hordered
        exact Nat.le_of_not_lt (of_decide_eq_false hordered)
      · rcases he with ⟨hexact, hlook⟩ | hatom
        · rw [show (o.strict || flags.unicodeMode) = false from hexact]
          exact Term.repeatable_of_isLookahead hlook
        · exact hatom.repeatable
    | set x =>
      cases x with
      | character c =>
        obtain ⟨hspan, h, hb⟩ := h.character_of_term
        have hlone := h.loneBrace hspan hb
        rw [← hs.charactersFrom_index] at hlone
        show c.LoneBrace _ (slice.charactersFrom _ c.span.start)
        rw [hspan]
        exact hlone
      | _ => trivial
    | _ => trivial
  | _ => trivial

end Nodes

/-! ## Answers

By the trace of an answer. -/

/-- In every tree that answers a request, quantifiers are read exactly and none is left over. The
text behind a repeated term is that of its repetition, whose bounds are in order, and the term may
be repeated. Where an alternative begins, and behind each of its elements, no quantifier stands.
Outside classes, a character that is written as a brace begins no bounds, and without the web
grammar there is none. -/
theorem quantifiers_read_exactly (o : Options) (q : Request) (n : Node) (hq : q.Valid)
    (h : q.answer o = .ok n) :
    (∃ f, n = .flags f) ∨ ∃ slice flags, q.ReadsPattern o slice flags ∧
      ∀ m ∈ n.descendants, m.QuantifiersExact o flags slice := by
  rcases Request.given_of_answer hq h with hflags | ⟨slice, flags, hreads, hnodes⟩
  · exact .inl hflags
  · refine .inr ⟨slice, flags, hreads, fun m hm => ?_⟩
    rcases hnodes m hm with hholder | hgiven
    · cases m with
      | literal l => trivial
      | pattern p => trivial
      | flags f => trivial
      | _ => cases hholder
    · exact hgiven.quantifiersExact hreads.valid

/-- A repeated lookahead, zeros before a number, and braces that are characters, one of them
repeated and one behind a quantifier. -/
theorem quantifiers_read_exactly_by_web_grammar :
    ∃ p, parsePattern (.ofEdition .es2025 false) (.set {})
        (.whole (.ofString "(?=a)*?\x7b+|b\x7b07,\x7d\x7b,5\x7d[\x7b2\x7d]")) = .ok p ∧
      ∀ m ∈ (Node.pattern p).descendants, m.QuantifiersExact (.ofEdition .es2025 false) {}
        (.whole (.ofString "(?=a)*?\x7b+|b\x7b07,\x7d\x7b,5\x7d[\x7b2\x7d]")) := by
  obtain ⟨p, hp⟩ : ∃ p, parsePattern (.ofEdition .es2025 false) (.set {})
      (.whole (.ofString "(?=a)*?\x7b+|b\x7b07,\x7d\x7b,5\x7d[\x7b2\x7d]")) = .ok p :=
    Except.exists_eq_ok (by decide +kernel)
  rcases quantifiers_read_exactly (.ofEdition .es2025 false)
    (.pattern (.set {})
      (.whole (.ofString "(?=a)*?\x7b+|b\x7b07,\x7d\x7b,5\x7d[\x7b2\x7d]")))
    (.pattern p) (Slice.valid_whole _) (Except.map_eq_ok.mpr ⟨p, hp, rfl⟩) with
    ⟨f, hf⟩ | ⟨slice, flags, hreads, hnodes⟩
  · cases hf
  · cases hreads with
    | pattern _ hflags =>
      cases hflags
      exact ⟨p, hp, hnodes⟩

end EcmaPattern
