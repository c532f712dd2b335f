import EcmaPattern.Tree.Node

/-!
# Fields and records

What stands in a node, field by field. `Node.fields` is the one place that knows the parts of each
kind of node; the children of a node, the node that a path selects and the record of a tree are all
made from it. Children come in the order in which they stand in the text.

Walks over a tree go from a node down to its parts. They end because a part is smaller than the node
it is in, `Node.sizeOf_lt_of_mem_fields`, which is proved kind by kind and is what every recursion
over nodes cites.
-/

namespace EcmaPattern

/-! ## Fields -/

/-- A plain value that a node holds. -/
inductive Value where
  | null
  | bool (b : Bool)
  | number (n : Nat)
  | numbers (ns : List Nat)
  | word (s : String)
  | text (t : Text)

/-- What stands under a name in a node: a plain value, a part, or a list of parts. -/
inductive Field where
  | value (v : Value)
  | node (n : Node)
  | nodes (ns : List Node)

def Field.parts : Field → List Node
  | value _ => []
  | node n => [n]
  | nodes ns => ns

namespace CharSet

def fields : CharSet → List (String × Field)
  | character c => [("value", .value (.number c.value.val))]
  | escape _ set negated =>
    let kind := match set with
      | .digit => "digit"
      | .space => "space"
      | .word => "word"
    [("kind", .value (.word kind)), ("negate", .value (.bool negated))]
  | property _ p negated =>
    [("key", .value (.word p.key)),
      ("value", .value (p.value.elim .null .word)),
      ("negate", .value (.bool negated)),
      ("strings", .value (.bool p.strings)),
      ("kind", .value (.word "property"))]
  | range _ first last =>
    [("min", .node (.charSet (.character first))), ("max", .node (.charSet (.character last)))]
  | strings _ alternatives => [("alternatives", .nodes (alternatives.map .classString))]
  | operation _ _ left right => [("left", .node (.charSet left)), ("right", .node (.charSet right))]
  | listing _ negated sets elements =>
    [("negate", .value (.bool negated)),
      ("unicode_sets", .value (.bool sets)),
      ("elements", .nodes (elements.map .charSet))]
  | expression _ negated contents =>
    [("negate", .value (.bool negated)), ("expression", .node (.charSet contents))]

end CharSet

namespace Term

def alternativesField (alternatives : List Sequence) : String × Field :=
  ("alternatives", .nodes (alternatives.map .sequence))

def nameText (name : GroupName) : Value := .text (.ofCodePoints name)

def fields : Term → List (String × Field)
  | set s => s.fields
  | any _ => [("kind", .value (.word "any"))]
  | edge _ e =>
    let kind := match e with
      | .start => "start"
      | .stop => "end"
    [("kind", .value (.word kind))]
  | wordBoundary _ negated =>
    [("negate", .value (.bool negated)), ("kind", .value (.word "word"))]
  | look _ direction negated alternatives =>
    let kind := match direction with
      | .ahead => "lookahead"
      | .behind => "lookbehind"
    [("kind", .value (.word kind)), ("negate", .value (.bool negated)),
      alternativesField alternatives]
  | group _ modifiers alternatives =>
    [("modifiers", modifiers.elim (.value .null) fun m => .node (.modifiers m)),
      alternativesField alternatives]
  | capture _ index name alternatives =>
    [("index", .value (.number index)), ("name", .value (name.elim .null nameText)),
      alternativesField alternatives]
  | reference _ (.number n) =>
    [("ref", .value (.number n)), ("resolved", .value (.numbers [n]))]
  | reference _ (.name name indexes) =>
    [("ref", .value (nameText name)), ("resolved", .value (.numbers indexes))]
  | quantified _ repetition element =>
    [("min", .value (.number repetition.min)),
      ("max", .value (repetition.max.elim (.word "$$Infinity") .number)),
      ("greedy", .value (.bool repetition.greedy)),
      ("element", .node (.term element))]

end Term

def FlagSet.entries (f : FlagSet) : List (String × Bool) :=
  [("has_indices", f.indices), ("global_", f.global), ("ignore_case", f.ignoreCase),
    ("multiline", f.multiline), ("dot_all", f.dotAll), ("unicode", f.unicode),
    ("unicode_sets", f.unicodeSets), ("sticky", f.sticky)]

namespace Node

def fields : Node → List (String × Field)
  | literal l => [("pattern", .node (.pattern l.pattern)), ("flags", .node (.flags l.flags))]
  | pattern p => [Term.alternativesField p.alternatives]
  | flags f => f.set.entries.map fun (name, b) => (name, .value (.bool b))
  | sequence (.mk _ elements) => [("elements", .nodes (elements.map .term))]
  | term t => t.fields
  | charSet s => s.fields
  | classString s => [("elements", .nodes (s.characters.map fun c => .charSet (.character c)))]
  | modifiers m =>
    [("add", .node (.modifierFlags m.add)),
      ("remove", m.remove.elim (.value .null) fun r => .node (.modifierFlags r))]
  | modifierFlags m =>
    [("ignore_case", .value (.bool m.ignoreCase)), ("multiline", .value (.bool m.multiline)),
      ("dot_all", .value (.bool m.dotAll))]

/-- The nodes directly under a node, in the order in which they stand in the text. -/
def children (n : Node) : List Node := n.fields.flatMap fun (_, f) => f.parts

/-! ### Size

Walks over a tree go from a node down to its parts, which are smaller. -/

theorem sizeOf_span_pos (s : Span) : 0 < sizeOf s := by
  cases s
  simp only [Span.mk.sizeOf_spec]
  omega

/-- A part of a set is no larger than the set and the constructor around it. -/
theorem sizeOf_lt_of_mem_setFields {s : CharSet} {field : String × Field} {part : Node}
    (hf : field ∈ s.fields) (hp : part ∈ field.2.parts) : sizeOf part < 1 + sizeOf s := by
  cases s with
  | character c => simp_all [CharSet.fields, Field.parts]
  | escape span set negated => cases set <;> simp [CharSet.fields] at hf <;> grind [Field.parts]
  | property span p negated => simp [CharSet.fields] at hf; grind [Field.parts]
  | range span first last =>
    have := sizeOf_span_pos span
    simp only [CharSet.fields, List.mem_cons, List.not_mem_nil, or_false] at hf
    rcases hf with rfl | rfl <;> simp only [Field.parts, List.mem_singleton] at hp <;> subst hp <;>
      simp only [charSet.sizeOf_spec, CharSet.character.sizeOf_spec, CharSet.range.sizeOf_spec] <;>
      omega
  | strings span alternatives =>
    simp only [CharSet.fields, List.mem_singleton] at hf
    subst hf
    simp only [Field.parts, List.mem_map] at hp
    obtain ⟨a, ha, rfl⟩ := hp
    have := List.sizeOf_lt_of_mem ha
    simp only [classString.sizeOf_spec, CharSet.strings.sizeOf_spec]
    omega
  | operation span op left right =>
    simp only [CharSet.fields, List.mem_cons, List.not_mem_nil, or_false] at hf
    rcases hf with rfl | rfl <;> simp only [Field.parts, List.mem_singleton] at hp <;> subst hp <;>
      simp only [charSet.sizeOf_spec, CharSet.operation.sizeOf_spec] <;> omega
  | listing span negated sets elements =>
    simp only [CharSet.fields, List.mem_cons, List.not_mem_nil, or_false] at hf
    rcases hf with rfl | rfl | rfl
    · simp [Field.parts] at hp
    · simp [Field.parts] at hp
    · simp only [Field.parts, List.mem_map] at hp
      obtain ⟨a, ha, rfl⟩ := hp
      have := List.sizeOf_lt_of_mem ha
      simp only [charSet.sizeOf_spec, CharSet.listing.sizeOf_spec]
      omega
  | expression span negated contents =>
    simp only [CharSet.fields, List.mem_cons, List.not_mem_nil, or_false] at hf
    rcases hf with rfl | rfl
    · simp [Field.parts] at hp
    · simp only [Field.parts, List.mem_singleton] at hp
      subst hp
      simp only [charSet.sizeOf_spec, CharSet.expression.sizeOf_spec]
      omega

theorem sizeOf_lt_of_mem_alternatives {alternatives : List Sequence} {part : Node}
    (hp : part ∈ (Term.alternativesField alternatives).2.parts) :
    sizeOf part < 1 + sizeOf alternatives := by
  simp only [Term.alternativesField, Field.parts, List.mem_map] at hp
  obtain ⟨a, ha, rfl⟩ := hp
  have := List.sizeOf_lt_of_mem ha
  simp only [sequence.sizeOf_spec]
  omega

/-- A part of a term is no larger than the term and the constructor around it. -/
theorem sizeOf_lt_of_mem_termFields {t : Term} {field : String × Field} {part : Node}
    (hf : field ∈ t.fields) (hp : part ∈ field.2.parts) : sizeOf part < 1 + sizeOf t := by
  cases t with
  | set s =>
    have := sizeOf_lt_of_mem_setFields hf hp
    simp only [Term.set.sizeOf_spec]
    omega
  | any span => simp_all [Term.fields, Field.parts]
  | edge span e => simp_all [Term.fields, Field.parts]
  | wordBoundary span negated => simp [Term.fields] at hf; grind [Field.parts]
  | look span direction negated alternatives =>
    simp only [Term.fields, List.mem_cons, List.not_mem_nil, or_false] at hf
    rcases hf with rfl | rfl | rfl
    · simp [Field.parts] at hp
    · simp [Field.parts] at hp
    · have := sizeOf_lt_of_mem_alternatives hp
      simp only [Term.look.sizeOf_spec]
      omega
  | group span modifiers alternatives =>
    simp only [Term.fields, List.mem_cons, List.not_mem_nil, or_false] at hf
    rcases hf with rfl | rfl
    · cases modifiers with
      | none => simp [Field.parts] at hp
      | some m =>
        simp only [Option.elim, Field.parts, List.mem_singleton] at hp
        subst hp
        simp only [Node.modifiers.sizeOf_spec, Term.group.sizeOf_spec, Option.some.sizeOf_spec]
        omega
    · have := sizeOf_lt_of_mem_alternatives hp
      simp only [Term.group.sizeOf_spec]
      omega
  | capture span index name alternatives =>
    simp only [Term.fields, List.mem_cons, List.not_mem_nil, or_false] at hf
    rcases hf with rfl | rfl | rfl
    · simp [Field.parts] at hp
    · simp [Field.parts] at hp
    · have := sizeOf_lt_of_mem_alternatives hp
      simp only [Term.capture.sizeOf_spec]
      omega
  | reference span target => cases target <;> simp [Term.fields] at hf <;> grind [Field.parts]
  | quantified span repetition element =>
    simp only [Term.fields, List.mem_cons, List.not_mem_nil, or_false] at hf
    rcases hf with rfl | rfl | rfl | rfl
    · simp [Field.parts] at hp
    · simp [Field.parts] at hp
    · simp [Field.parts] at hp
    · simp only [Field.parts, List.mem_singleton] at hp
      subst hp
      simp only [term.sizeOf_spec, Term.quantified.sizeOf_spec]
      omega

/-- A part of a node is smaller than the node. -/
theorem sizeOf_lt_of_mem_fields {n : Node} {field : String × Field} {part : Node}
    (hf : field ∈ n.fields) (hp : part ∈ field.2.parts) : sizeOf part < sizeOf n := by
  cases n with
  | literal l =>
    cases l
    simp only [fields, List.mem_cons, List.not_mem_nil, or_false] at hf
    rcases hf with rfl | rfl <;> simp only [Field.parts, List.mem_singleton] at hp <;> subst hp <;>
      simp only [pattern.sizeOf_spec, flags.sizeOf_spec, literal.sizeOf_spec,
        Literal.mk.sizeOf_spec] <;> omega
  | pattern p =>
    cases p
    simp only [fields, List.mem_singleton] at hf
    subst hf
    have := sizeOf_lt_of_mem_alternatives hp
    simp only [pattern.sizeOf_spec, Pattern.mk.sizeOf_spec]
    omega
  | flags f =>
    simp only [fields, List.mem_map] at hf
    obtain ⟨e, _, rfl⟩ := hf
    simp [Field.parts] at hp
  | sequence s =>
    cases s
    simp only [fields, List.mem_singleton] at hf
    subst hf
    simp only [Field.parts, List.mem_map] at hp
    obtain ⟨a, ha, rfl⟩ := hp
    have := List.sizeOf_lt_of_mem ha
    simp only [term.sizeOf_spec, sequence.sizeOf_spec, Sequence.mk.sizeOf_spec]
    omega
  | term t => simpa only [term.sizeOf_spec] using sizeOf_lt_of_mem_termFields hf hp
  | charSet s => simpa only [charSet.sizeOf_spec] using sizeOf_lt_of_mem_setFields hf hp
  | classString s =>
    cases s
    simp only [fields, List.mem_singleton] at hf
    subst hf
    simp only [Field.parts, List.mem_map] at hp
    obtain ⟨a, ha, rfl⟩ := hp
    have := List.sizeOf_lt_of_mem ha
    simp only [charSet.sizeOf_spec, CharSet.character.sizeOf_spec, classString.sizeOf_spec,
      ClassString.mk.sizeOf_spec]
    have := sizeOf_span_pos ‹Span›
    omega
  | modifiers m =>
    cases m with
    | mk span add remove =>
      simp only [fields, List.mem_cons, List.not_mem_nil, or_false] at hf
      rcases hf with rfl | rfl
      · simp only [Field.parts, List.mem_singleton] at hp
        subst hp
        simp only [modifierFlags.sizeOf_spec, modifiers.sizeOf_spec, Modifiers.mk.sizeOf_spec]
        omega
      · cases remove with
        | none => simp [Field.parts] at hp
        | some r =>
          simp only [Option.elim, Field.parts, List.mem_singleton] at hp
          subst hp
          simp only [modifierFlags.sizeOf_spec, modifiers.sizeOf_spec, Modifiers.mk.sizeOf_spec,
            Option.some.sizeOf_spec]
          omega
  | modifierFlags m => simp [fields] at hf; grind [Field.parts]

/-- A child of a node is smaller than the node. -/
theorem sizeOf_lt_of_mem_children {n c : Node} (h : c ∈ n.children) : sizeOf c < sizeOf n := by
  simp only [children, List.mem_flatMap] at h
  obtain ⟨field, hf, hc⟩ := h
  exact sizeOf_lt_of_mem_fields hf hc

/-! ### Selection -/

/-- A step from a node to a part of it: a field, or a place in a list of parts, which counts from
the end if it is below zero. -/
inductive Step where
  | field (name : String)
  | position (k : Int)

def Step.follow : Step → List Node → List Node
  | field name, [n] => ((n.fields.lookup name).map Field.parts).getD []
  | field _, _ => []
  | position k, ns => ns[Text.offsetOf ns.length k]?.toList

def select? (n : Node) (path : List Step) : Option Node :=
  match path.foldl (fun ns step => step.follow ns) [n] with
  | [m] => some m
  | _ => none

end Node

/-! ## Records

A tree as plain data: each node is a record of its kind, its span and its fields. -/

/-- Plain data. -/
inductive Datum where
  | value (v : Value)
  | list (ds : List Datum)
  | record (entries : List (String × Datum))

namespace Node

def header (n : Node) : List (String × Datum) :=
  [("type", .value (.word n.kind.name)), ("start", .value (.number n.span.start)),
    ("end", .value (.number n.span.stop)), ("raw", .value (.text n.span.raw))]

def toDatum (n : Node) : Datum :=
  .record (n.header ++ n.fields.attach.map fun ⟨(name, field), _hf⟩ =>
    match field with
    | .value v => (name, .value v)
    | .node part => (name, part.toDatum)
    | .nodes parts => (name, .list (parts.attach.map fun ⟨part, _hp⟩ => part.toDatum)))
termination_by sizeOf n
decreasing_by
  · exact sizeOf_lt_of_mem_fields _hf (by simp [Field.parts])
  · exact sizeOf_lt_of_mem_fields _hf _hp

end Node

end EcmaPattern
