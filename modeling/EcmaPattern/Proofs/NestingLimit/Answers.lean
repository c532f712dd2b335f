import EcmaPattern.Proofs.NestingLimit.Terms
import EcmaPattern.Proofs.Relaxation.Passes
import EcmaPattern.Proofs.StrictReferences

/-!
# The nesting limit

The nesting limit changes nothing but whether a pattern nests too deeply. An answer under a limit is
the answer under no limit, or that the pattern nests too deeply; and if there is a tree, its depth
decides which, and the first node beneath the limit is where it does (`limit_only_finds_depth`).

`limit_only_finds_depth` is assembled from three facts: a pass is limited (`Pattern.pass_limited`),
an answer puts passes together by `LimitedTo.bind`, and the first node beneath the limit in a tree
is beneath it in one of the parts of the answer. The second theorem is for requests that need two
passes, of which the first may already break off.
-/

namespace EcmaPattern

open EcmaPattern.Parser

/-! ## Results under two limits

A result under a limit is compared with the result under a higher one. The relation has a case for
trees, in which the depth decides, and a case for faults, in which both may be at fault for
different reasons. -/

def Fault.tooDeep (i : Nat) : Fault := ⟨.nestedTooDeeply, i⟩

/-- The first result is the second, and nothing of that is too `deep`; or it is the report that
something is. That takes so many units of the text. -/
def LimitedTo {ε α : Type} (report : Nat → ε) (units text : Nat) (deep : α → List Nat)
    (x y : Except ε α) : Prop :=
  (x = y ∧ ∀ a, y = .ok a → deep a = []) ∨
    ∃ i, x = .error (report i) ∧ units ≤ text ∧ ∀ a, y = .ok a → (deep a).head? = some i

namespace LimitedTo

variable {ε α β : Type} {report : Nat → ε} {units text text' : Nat} {deep : α → List Nat}
  {deep' : β → List Nat} {x y : Except ε α}

theorem refl (h : ∀ a, x = .ok a → deep a = []) : LimitedTo report units text deep x x :=
  .inl ⟨rfl, h⟩

theorem text_le (htext : text ≤ text') (h : LimitedTo report units text deep x y) :
    LimitedTo report units text' deep x y := by
  rcases h with h | ⟨i, hi, hunits, hdeep⟩
  · exact .inl h
  · exact .inr ⟨i, hi, Nat.le_trans hunits htext, hdeep⟩

theorem map {f : α → β} (hf : ∀ a, deep' (f a) = deep a)
    (h : LimitedTo report units text deep x y) :
    LimitedTo report units text deep' (f <$> x) (f <$> y) := by
  rcases h with ⟨rfl, hdeep⟩ | ⟨i, rfl, hunits, hdeep⟩
  · refine .refl fun b hb => ?_
    obtain ⟨a, ha, rfl⟩ := Except.map_eq_ok.mp hb
    rw [hf, hdeep a ha]
  · refine .inr ⟨i, rfl, hunits, fun b hb => ?_⟩
    obtain ⟨a, ha, rfl⟩ := Except.map_eq_ok.mp hb
    rw [hf, hdeep a ha]

/-- Faults are reported with the text that they are in. -/
theorem ofFault {x y : Except Fault α} (source : Option Text)
    (h : LimitedTo Fault.tooDeep units text deep x y) :
    LimitedTo (fun i => .diagnostic (.tooDeep i source)) units text deep
      (x.mapError (Failure.ofFault source)) (y.mapError (Failure.ofFault source)) := by
  rcases h with ⟨rfl, hdeep⟩ | ⟨i, rfl, hunits, hdeep⟩
  · exact .refl fun a ha => hdeep a (Except.mapError_eq_ok.mp ha)
  · exact .inr ⟨i, rfl, hunits, fun a ha => hdeep a (Except.mapError_eq_ok.mp ha)⟩

/-- The limits do not bear on what comes first. -/
theorem bind {z : Except ε β} {f g : β → Except ε α}
    (h : ∀ b, z = .ok b → LimitedTo report units text deep (f b) (g b)) :
    LimitedTo report units text deep (z >>= f) (z >>= g) := by
  cases z with
  | error e => exact .refl nofun
  | ok b => exact h b rfl

end LimitedTo

/-! ## Patterns

Whether a second pass is made depends on the groups that the first one found. If the first pass
breaks off there is no second one; if it does not, both limits choose alike. -/

namespace Pattern

variable {rule : DuplicateRule} {o o' : Options} {flags : FlagSet} {c : Cursor}
  (hedition : o'.edition = o.edition) (hstrict : o'.strict = o.strict)
  (hle : o.maxDepth ≤ o'.maxDepth)

include hedition hstrict in
theorem grammarFor_congr (named : Bool) :
    grammarFor o' flags named c = grammarFor o flags named c := by
  rw [grammarFor, grammarFor, hedition, hstrict]

include hedition hstrict in
theorem alwaysNamedReferences_congr :
    alwaysNamedReferences o' flags = alwaysNamedReferences o flags := by
  rw [alwaysNamedReferences, alwaysNamedReferences, hedition, hstrict]

include hedition hstrict hle

/-- A pass is limited by the levels it is given. -/
theorem pass_limited (named : Bool) :
    LimitedTo .tooDeep (o.maxDepth + 1) c.remaining (fun x => x.1.beneath o.maxDepth)
      (pass rule o flags named c) (pass rule o' flags named c) := by
  have hgrammar : grammarFor o' flags named c = grammarFor o flags named c :=
    grammarFor_congr hedition hstrict named
  -- what lies beneath the limit in the pattern is what lies there in its alternatives
  have hdeep : ∀ x, pass rule o' flags named c = .ok x →
      ∃ qs t, disjunction o'.maxDepth (grammarFor o flags named c) ⟨c, .empty rule, 0⟩ =
          .done qs t ∧ x.1.beneath o.maxDepth = deepDisjunction o.maxDepth qs := by
    rintro ⟨p, scope⟩ hp
    obtain ⟨qs, t, hqs, -, -, -, rfl⟩ := pass_eq_ok.mp hp
    rw [hgrammar] at hqs
    exact ⟨qs, t, hqs, beneath_resolve _ _ _⟩
  rcases disjunction_limits (g := grammarFor o flags named c) hle ⟨c, .empty rule, 0⟩
    with ⟨heq, hnil⟩ | ⟨i, hi, hunits, -, hhead⟩
  · left
    constructor
    · rw [pass, pass, hgrammar, Parser.pattern, Parser.pattern, here_bind, here_bind, bind_apply,
        bind_apply, heq]
    · intro x hx
      obtain ⟨qs, t, hqs, hbeneath⟩ := hdeep x hx
      exact hbeneath.trans (hnil qs t hqs).1
  · refine .inr ⟨i, pass_of_disjunction_fault hi, hunits, fun x hx => ?_⟩
    obtain ⟨qs, t, hqs, hbeneath⟩ := hdeep x hx
    exact (congrArg List.head? hbeneath).trans (hhead qs t hqs)

/-- A pattern is read under a limit as under a higher one, but for its depth. -/
theorem readUnder_limited :
    LimitedTo .tooDeep (o.maxDepth + 1) c.remaining (beneath o.maxDepth)
      (readUnder rule o flags c) (readUnder rule o' flags c) := by
  have halways : alwaysNamedReferences o' flags = alwaysNamedReferences o flags :=
    alwaysNamedReferences_congr hedition hstrict
  have hpass : LimitedTo .tooDeep (o.maxDepth + 1) c.remaining (fun x => x.1.beneath o.maxDepth)
      (pass rule o flags (alwaysNamedReferences o flags) c)
      (pass rule o' flags (alwaysNamedReferences o flags) c) :=
    pass_limited hedition hstrict hle _
  rcases hpass with ⟨heq, hnil⟩ | ⟨i, hi, hunits, hhead⟩
  · cases hfirst : pass rule o flags (alwaysNamedReferences o flags) c with
    | error f =>
      rw [readUnder_of_pass_error hfirst, readUnder_of_pass_error (by rw [halways, ← heq, hfirst])]
      exact .refl nofun
    | ok x =>
      obtain ⟨p, scope⟩ := x
      have hfirst' := heq.symm.trans hfirst
      rw [readUnder_of_pass_ok hfirst, readUnder_of_pass_ok (halways ▸ hfirst'), halways, hedition]
      split
      · exact (pass_limited hedition hstrict hle true).map fun _ => rfl
      · refine .refl fun a ha => ?_
        cases ha
        exact hnil _ hfirst'
  · refine .inr ⟨i, readUnder_of_pass_error hi, hunits, fun q hq => ?_⟩
    obtain ⟨p, scope, hp, hq⟩ := readUnder_eq_ok.mp hq
    have hdeep : (p.beneath o.maxDepth).head? = some i := hhead _ (halways ▸ hp)
    split at hq
    · next hagain =>
      -- the pass that is broken off is the first, and there would have been a second
      obtain ⟨scope', hq⟩ := hq
      simp only [Bool.and_eq_true, Bool.not_eq_true'] at hagain
      rw [hagain.1.1] at hp
      rw [(passes_alike hagain.1.1 hagain.1.2 hp hq).2 o.maxDepth, hdeep]
    · rwa [← hq]

/-- A slice is read as without the limit, unless something in it is too deep. -/
theorem read_limited (slice : Slice) :
    LimitedTo .tooDeep (o.maxDepth + 1) slice.text.length (beneath o.maxDepth)
      (read o flags slice) (read o' flags slice) := by
  rw [read, read, hedition]
  split
  · exact .refl fun _ h => by cases h
  · refine (readUnder_limited hedition hstrict hle).text_le ?_
    simp only [Slice.cursor, Slice.cursorAt, Cursor.remaining, Text.slice, List.length_drop,
      List.length_take]
    omega

end Pattern

/-! ## Requests

Flags and literals put nodes of their own above the pattern. They do not nest, so nothing that is
beneath the limit is added by them. -/

/-- The same of a tree: where the nodes start that nest, with just so many others above them. -/
def Node.beneathStarts (levels : Nat) (n : Node) : List Nat :=
  (n.beneath levels).map (·.span.start)

theorem Node.beneath_flags (f : Flags) (levels : Nat) : (Node.flags f).beneath levels = [] :=
  beneath_leaf rfl rfl levels

theorem Node.beneath_literal (l : Literal) (levels : Nat) :
    (Node.literal l).beneath levels = (Node.pattern l.pattern).beneath levels := by
  rw [beneath_of_not_nests rfl, children_literal]
  simp [beneath_flags]

namespace Request

def text : Request → Text
  | literal slice => slice.text
  | parts source flagText => Literal.join source flagText
  | pattern _ slice => slice.text
  | flags slice => slice.text

variable {o o' : Options} (hedition : o'.edition = o.edition) (hstrict : o'.strict = o.strict)
  (hle : o.maxDepth ≤ o'.maxDepth)

include hedition hstrict hle

/-- A literal is read as without the limit, unless something in its pattern is too deep. -/
theorem readParts_limited (slice : Slice) (length : Nat) :
    LimitedTo .tooDeep (o.maxDepth + 1) slice.text.length
      (fun l => (Node.literal l).beneathStarts o.maxDepth)
      (Literal.readParts o slice length) (Literal.readParts o' slice length) := by
  rw [Literal.readParts, Literal.readParts, hedition]
  refine .bind fun flags _ => ?_
  refine (Pattern.read_limited hedition hstrict hle _).map (f := fun p => Literal.mk _ p flags) ?_
  intro p
  rw [Node.beneathStarts, Node.beneath_literal]
  rfl

/-- A request is answered under a limit as under a higher one, but for the depth of the tree. -/
theorem answer_limited (q : Request) :
    ∃ source, LimitedTo (fun i => .diagnostic (.tooDeep i source)) (o.maxDepth + 1)
      q.text.length (Node.beneathStarts o.maxDepth) (q.answer o) (q.answer o') := by
  cases q with
  | literal slice =>
    refine ⟨literalSource slice, .map (f := Node.literal) (fun _ => rfl) ?_⟩
    rw [parseLiteral, parseLiteral]
    apply LimitedTo.ofFault
    rw [Literal.read, Literal.read]
    exact .bind fun length _ => readParts_limited hedition hstrict hle slice length
  | parts source flagText =>
    refine ⟨literalSource (.whole (Literal.join source flagText)), ?_⟩
    refine .map (f := Node.literal) (fun _ => rfl) ?_
    rw [parseParts, parseParts]
    apply LimitedTo.ofFault
    exact readParts_limited hedition hstrict hle _ _
  | pattern choice slice =>
    -- flags do not depend on the limit, so a fault in them is the same under both
    cases hflags : choice.resolve o.edition with
    | error d =>
      refine ⟨none, ?_⟩
      rw [answer, answer, parsePattern, parsePattern, hedition, hflags]
      exact .refl fun _ h => by cases h
    | ok flags =>
      refine ⟨some (patternSource slice flags), .map (f := Node.pattern) (fun _ => rfl) ?_⟩
      rw [parsePattern, parsePattern, hedition, hflags]
      apply LimitedTo.ofFault
      exact Pattern.read_limited hedition hstrict hle slice
  | flags slice =>
    refine ⟨none, ?_⟩
    rw [answer, answer, parseFlags, parseFlags, hedition]
    refine .refl fun n hn => ?_
    obtain ⟨f, -, rfl⟩ := Except.map_eq_ok.mp hn
    rw [Node.beneathStarts, Node.beneath_flags]
    rfl

omit hedition hstrict hle in
/-- In an answer, the nodes beneath some levels start in the order of the text. -/
theorem beneath_ascends_of_answer {q : Request} {n : Node} (h : q.answer o = .ok n) (levels : Nat) :
    ∃ i j, Ascends i (n.beneathStarts levels) j := by
  have hpattern : ∀ {rule flags named c p scope},
      Pattern.pass rule o flags named c = .ok (p, scope) →
        ∃ i j, Ascends i (p.beneath levels) j := by
    intro rule flags named c p scope hpass
    obtain ⟨qs, t, hqs, -, -, rfl⟩ := Pattern.derives_of_pass hpass
    rw [Pattern.beneath_resolve]
    exact ⟨_, _, hqs.beneath_ascends levels⟩
  rcases pass_of_answer h with
    ⟨f, rfl⟩ | ⟨rule, flags, named, c, p, scope, hpass, rfl | ⟨l, rfl, rfl⟩⟩
  · rw [Node.beneathStarts, Node.beneath_flags]
    exact ⟨0, 0, Nat.le_refl 0⟩
  · exact hpattern hpass
  · rw [Node.beneathStarts, Node.beneath_literal]
    exact hpattern hpass

/-- The answer that a request has under every limit that is high enough: the answer under no
limit. -/
def Unlimited (o : Options) (q : Request) (r : Except Failure Node) : Prop :=
  ∃ bound, ∀ o' : Options, o'.edition = o.edition → o'.strict = o.strict → bound ≤ o'.maxDepth →
    q.answer o' = r

omit hedition hstrict hle in
/-- Every request has an answer under no limit, since a text has only so many units to nest. -/
theorem unlimited_answer (o : Options) (q : Request) :
    q.Unlimited o (q.answer ⟨o.edition, o.strict, q.text.length + 1, Nat.succ_pos _⟩) := by
  refine ⟨q.text.length + 1, fun o' hedition hstrict hbound => ?_⟩
  obtain ⟨source, ⟨heq, -⟩ | ⟨i, -, hunits, -⟩⟩ :=
    answer_limited (o := ⟨o.edition, o.strict, q.text.length + 1, Nat.succ_pos _⟩) hedition hstrict
      hbound q
  · exact heq.symm
  · exact absurd hunits (by simp only; omega)

end Request

/-- A nesting limit changes nothing but that a tree may be too deep for it. Every request has an
answer under no limit. If that is a tree whose depth is within the limit, it is the answer. If it is
a deeper tree, the answer is that it nests too deeply, at the first of the nodes that nest and have
just as many others above them as the limit allows. If it is a failure, it is the answer, unless
that is that the pattern nests too deeply. -/
theorem limit_only_finds_depth (o : Options) (q : Request) :
    (∃ r, q.Unlimited o r) ∧
    (∀ n, q.Unlimited o (.ok n) →
      if n.depth ≤ o.maxDepth then q.answer o = .ok n
      else ∃ x ∈ n.beneath o.maxDepth,
        (∀ y ∈ n.beneath o.maxDepth, x.span.start ≤ y.span.start) ∧
        ∃ source, q.answer o = .error (.diagnostic (.tooDeep x.span.start source))) ∧
    ∀ d, q.Unlimited o (.error d) →
      q.answer o = .error d ∨
        ∃ i source, q.answer o = .error (.diagnostic (.tooDeep i source)) := by
  -- some limit that is high enough is no lower than the limit
  have hhigher : ∀ r, q.Unlimited o r → ∃ o' : Options, q.answer o' = r ∧ ∃ source,
      LimitedTo (fun i => .diagnostic (.tooDeep i source)) (o.maxDepth + 1) q.text.length
        (Node.beneathStarts o.maxDepth) (q.answer o) r := by
    rintro r ⟨bound, hbound⟩
    obtain ⟨o', hedition, hstrict, hdepth⟩ : ∃ o' : Options, o'.edition = o.edition ∧
        o'.strict = o.strict ∧ o'.maxDepth = bound + o.maxDepth :=
      ⟨⟨o.edition, o.strict, bound + o.maxDepth, Nat.add_pos_right _ o.maxDepth_pos⟩, rfl, rfl, rfl⟩
    have hanswer := hbound o' hedition hstrict (by omega)
    refine ⟨o', hanswer, ?_⟩
    rw [← hanswer]
    exact Request.answer_limited hedition hstrict (by omega) q
  refine ⟨⟨_, q.unlimited_answer o⟩, fun n hn => ?_, fun d hd => ?_⟩
  · obtain ⟨o', hanswer, source, ⟨heq, hnil⟩ | ⟨i, hi, -, hhead⟩⟩ := hhigher _ hn
    · have hbeneath : n.beneath o.maxDepth = [] := List.map_eq_nil_iff.mp (hnil n rfl)
      rw [if_pos (Node.depth_le_iff.mpr hbeneath)]
      exact heq
    · obtain ⟨x, hx, rfl⟩ : ∃ x, (n.beneath o.maxDepth).head? = some x ∧ x.span.start = i := by
        simpa [Node.beneathStarts] using hhead n rfl
      have hmem := List.mem_of_head? hx
      have hdepth : ¬ n.depth ≤ o.maxDepth := by
        rw [Node.depth_le_iff]
        exact List.ne_nil_of_mem hmem
      rw [if_neg hdepth]
      refine ⟨x, hmem, fun y hy => ?_, source, hi⟩
      obtain ⟨i, j, hascends⟩ := Request.beneath_ascends_of_answer hanswer o.maxDepth
      exact hascends.head_le (hhead n rfl) (List.mem_map_of_mem hy)
  · obtain ⟨-, -, source, ⟨heq, -⟩ | ⟨i, hi, -⟩⟩ := hhigher _ hd
    · exact .inl heq
    · exact .inr ⟨i, source, hi⟩

/-- Three levels where two are allowed, in a pattern that is read twice: the class is where it is
too deep. -/
theorem limit_only_finds_depth_over_two_passes :
    ∃ (o : Options) (q : Request) (n : Node) (source : Option Text),
      o = ⟨.es2025, false, 2, by decide⟩ ∧
      q = .pattern (.set {}) (.whole (.ofString "\\k<n>(a(?<n>b)|(?:c[d]))")) ∧
      q.Unlimited o (.ok n) ∧ q.answer o = .error (.diagnostic (.tooDeep 19 source)) := by
  obtain ⟨o, ho⟩ : ∃ o : Options, o = ⟨.es2025, false, 2, by decide⟩ := ⟨_, rfl⟩
  obtain ⟨q, hq⟩ : ∃ q : Request,
    q = .pattern (.set {}) (.whole (.ofString "\\k<n>(a(?<n>b)|(?:c[d]))")) := ⟨_, rfl⟩
  have hlong : (q.answer ⟨o.edition, o.strict, q.text.length + 1, Nat.succ_pos _⟩).toOption.any
      (fun n => !decide (n.depth ≤ o.maxDepth) && (n.beneathStarts o.maxDepth == [19])) = true := by
    rw [ho, hq]
    decide +kernel
  obtain ⟨n, hn, htest⟩ := Except.exists_eq_ok_of_any hlong
  simp only [Bool.and_eq_true, Bool.not_eq_true', decide_eq_false_iff_not, beq_iff_eq] at htest
  have hunlimited : q.Unlimited o (.ok n) := hn ▸ q.unlimited_answer o
  have hanswer := (limit_only_finds_depth o q).2.1 n hunlimited
  rw [if_neg htest.1] at hanswer
  obtain ⟨x, hx, -, source, hanswer⟩ := hanswer
  have hstart : x.span.start ∈ n.beneathStarts o.maxDepth := List.mem_map_of_mem hx
  rw [htest.2, List.mem_singleton] at hstart
  refine ⟨o, q, n, source, ho, hq, hunlimited, ?_⟩
  rw [hanswer, hstart]
  rfl

end EcmaPattern
