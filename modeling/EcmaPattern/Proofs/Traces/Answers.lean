import EcmaPattern.Proofs.ResolvedReferences
import EcmaPattern.Proofs.Traces.Terms

/-!
# Traces of answers

Resolving the named references of a pattern changes no trace but theirs, so every node below a
pattern that a pass gives is a resolved one that was given (`Pattern.given_of_pass`). The answer to
any request is made of such nodes and of those that hold them (`Request.given_of_answer`).
-/

namespace EcmaPattern

/-- The node is a literal, a pattern or flags, which no parser of parts of a pattern gives. -/
def Node.isHolder : Node → Bool
  | .literal _ => true
  | .pattern _ => true
  | .flags _ => true
  | _ => false

/-- The node was given in the course of a pass over a slice, and resolved at the end. -/
def Node.GivenIn (o : Options) (flags : FlagSet) (slice : Slice) (n : Node) : Prop :=
  ∃ named m f s t, n = m.resolve f ∧ slice.Holds flags.unicodeMode s.cursor ∧
    Given (Pattern.grammarFor o flags named (slice.cursor flags.unicodeMode)) s m t

namespace Pattern

variable {rule : DuplicateRule} {o : Options} {flags : FlagSet} {named : Bool} {slice : Slice}
  {p : Pattern} {scope : GroupScope}

/-- Every node below a pattern that a pass gives was given by a parser of its own. -/
theorem given_of_pass
    (h : pass rule o flags named (slice.cursor flags.unicodeMode) = .ok (p, scope)) :
    ∀ n ∈ (Node.pattern p).descendants, n = .pattern p ∨ n.GivenIn o flags slice := by
  obtain ⟨qs, t, hqs, -, -, -, rfl⟩ := pass_eq_ok.mp h
  have htraced := disjunction_traced hqs
  intro n hn
  rw [show Node.pattern (Pattern.resolve _ _) = (Node.pattern _).resolve _ from rfl,
    Node.descendants_resolve] at hn
  obtain ⟨m, hm, rfl⟩ := List.mem_map.mp hn
  rw [Node.descendants_eq, Node.children_pattern] at hm
  rcases List.mem_cons.mp hm with rfl | hm
  · exact .inl rfl
  · obtain ⟨q, hq, hm⟩ := List.mem_flatMap.mp hm
    obtain ⟨s, v, hs, -, hgiven⟩ := (htraced.traced q hq).given m hm
    exact .inr ⟨named, m, _, s, v, rfl, hs, hgiven⟩

/-- Every node below a pattern that is read from a slice was given by a parser of its own. -/
theorem given_of_read (h : read o flags slice = .ok p) :
    ∀ n ∈ (Node.pattern p).descendants, n = .pattern p ∨ n.GivenIn o flags slice := by
  obtain ⟨named, scope, hpass⟩ := pass_of_read h
  exact given_of_pass hpass

end Pattern

namespace Request

/-- What a request reads lies within its text. -/
def Valid : Request → Prop
  | .literal slice => slice.Valid
  | .parts .. => True
  | .pattern _ slice => slice.Valid
  | .flags slice => slice.Valid

variable {o : Options} {q : Request} {n : Node}

/-- The nodes of a literal are those of its pattern, and two that hold them and the flags. -/
theorem given_of_readParts {whole : Slice} {length : Nat} {l : Literal}
    (h : Literal.readParts o whole length = .ok l) :
    FlagSet.read o.edition
        (({ whole with start := whole.start + length + 2 } : Slice).content.characters true) =
          .ok l.flags.set ∧
      ∀ m ∈ (Node.literal l).descendants, m.isHolder = true ∨
        m.GivenIn o l.flags.set
          { whole with start := whole.start + 1, stop := whole.start + length + 1 } := by
  obtain ⟨set, hset, hflags, hp, -⟩ := Literal.readParts_eq_ok.mp h
  have hset' : l.flags.set = set := congrArg Flags.set hflags
  rw [hset']
  refine ⟨hset, Node.forall_descendants.mpr ⟨.inl rfl, ?_⟩⟩
  rw [Node.children_literal]
  refine List.forall_mem_cons.mpr ⟨fun m hm => ?_, List.forall_mem_singleton.mpr ?_⟩
  · rcases Pattern.given_of_read hp m hm with rfl | hm
    · exact .inl rfl
    · exact .inr hm
  · refine Node.forall_descendants.mpr ⟨.inl rfl, ?_⟩
    rw [Node.children_flags]
    exact List.forall_mem_nil _

/-- An answer is a set of flags, or it is made of nodes that were given in the pattern that the
request reads, and of those that hold them. -/
theorem given_of_answer (hq : q.Valid) (h : q.answer o = .ok n) :
    (∃ f, n = .flags f) ∨ ∃ slice flags, q.ReadsPattern o slice flags ∧
      ∀ m ∈ n.descendants, m.isHolder = true ∨ m.GivenIn o flags slice := by
  cases q with
  | literal slice =>
    obtain ⟨l, hl, rfl⟩ := Except.map_eq_ok.mp h
    obtain ⟨length, hlength, hl⟩ := parseLiteral_eq_ok.mp hl
    obtain ⟨hflags, hgiven⟩ := given_of_readParts hl
    exact .inr ⟨_, _, .literal hq hlength hflags, hgiven⟩
  | parts source flagText =>
    obtain ⟨l, hl, rfl⟩ := Except.map_eq_ok.mp h
    obtain ⟨hflags, hgiven⟩ := given_of_readParts (parseParts_eq_ok.mp hl)
    refine .inr ⟨⟨Literal.join source flagText, 1, source.length + 1⟩, l.flags.set, .parts ?_, ?_⟩
    · simpa [Slice.whole, Literal.content_flags] using hflags
    · simpa [Slice.whole] using hgiven
  | pattern choice slice =>
    obtain ⟨p, hp, rfl⟩ := Except.map_eq_ok.mp h
    obtain ⟨flags, hflags, hp⟩ := parsePattern_eq_ok.mp hp
    refine .inr ⟨slice, flags, .pattern hq hflags, fun m hm => ?_⟩
    rcases Pattern.given_of_read hp m hm with rfl | hm
    · exact .inl rfl
    · exact .inr hm
  | flags slice =>
    obtain ⟨f, -, rfl⟩ := Except.map_eq_ok.mp h
    exact .inl ⟨f, rfl⟩

end Request

end EcmaPattern
