import EcmaPattern.Proofs.Fragments.Terms
import EcmaPattern.Proofs.Scan

/-!
# Where constructs come from

Every group, lookaround and class of a tree was given by a parser of its own that was run in the
course of the reading. `Source` says which parser that is, and `Begun` what is known of the state in
which it was run: how many groups had been opened there, which is how many groups of the tree start
before the construct. `disjunction_origins` finds the source of every construct.

That a construct in a tree was read by the parser of such constructs, from its start to its end, is
a fact on the reading that the tree does not tell. Here it is recovered: along the parsers of terms,
for groups and lookarounds, and along the classes within them. The levels that were left at that
place come with it.
-/

namespace EcmaPattern

open EcmaPattern.Parser

variable {g : Grammar} {s t u : State}

/-! ## Trees in which nothing nests

For most parsers there is nothing to show: no construct is among their values. -/

/-- No group, lookaround or class stands in the tree. -/
def Node.Flat (n : Node) : Prop := ∀ m ∈ n.descendants, m.kind.nests = false

namespace Node

/-- A tree is flat if its root does not nest and its children are flat. -/
theorem flat_iff {n : Node} : n.Flat ↔ n.kind.nests = false ∧ ∀ c ∈ n.children, c.Flat :=
  forall_descendants

/-- A node without children is flat unless it nests. -/
theorem flat_leaf {n : Node} (hn : n.kind.nests = false) (hc : n.children = []) : n.Flat := by
  rw [flat_iff, hc]
  exact ⟨hn, List.forall_mem_nil _⟩

theorem flat_character (c : Character) : (charSet (.character c)).Flat := flat_leaf rfl rfl

theorem flat_range (span : Span) (first last : Character) :
    (charSet (.range span first last)).Flat := by
  rw [flat_iff, children_range]
  exact ⟨rfl, List.forall_mem_cons.mpr ⟨flat_character first,
    List.forall_mem_cons.mpr ⟨flat_character last, List.forall_mem_nil _⟩⟩⟩

theorem flat_strings (span : Span) (xs : List ClassString) :
    (charSet (.strings span xs)).Flat := by
  rw [flat_iff, children_strings]
  refine ⟨rfl, fun c hc => ?_⟩
  obtain ⟨x, -, rfl⟩ := List.mem_map.mp hc
  rw [flat_iff, children_classString]
  refine ⟨rfl, fun c hc => ?_⟩
  obtain ⟨ch, -, rfl⟩ := List.mem_map.mp hc
  exact flat_character ch

theorem flat_modifiers (m : Modifiers) : (modifiers m).Flat := by
  have hflags : ∀ f, (modifierFlags f).Flat := fun f => flat_leaf rfl rfl
  rw [flat_iff]
  refine ⟨rfl, fun c hc => ?_⟩
  cases hr : m.remove with
  | none =>
    simp only [children, fields, Field.parts, hr, Option.elim, List.flatMap_cons,
      List.flatMap_nil, List.append_nil, List.mem_singleton] at hc
    exact hc ▸ hflags _
  | some f =>
    simp only [children, fields, Field.parts, hr, Option.elim, List.flatMap_cons,
      List.flatMap_nil, List.singleton_append, List.append_nil, List.mem_cons,
      List.not_mem_nil, or_false] at hc
    rcases hc with rfl | rfl <;> exact hflags _

/-- A term that is a set has below it what the set has. -/
theorem flat_set {x : CharSet} (h : (charSet x).Flat) : (term (.set x)).Flat :=
  flat_iff.mpr ⟨(flat_iff.mp h).1, (flat_iff.mp h).2⟩

end Node

/-- An escape for a set is flat. -/
theorem ReadsSetEscape.flat {x : CharSet} (h : ReadsSetEscape g s x t) :
    (Node.charSet x).Flat := by
  cases h with
  | mk h _ => cases h <;> exact Node.flat_leaf rfl rfl

/-- Where no bracket and no parenthesis stands, the term that is read nests nothing. -/
theorem Derives.flat_of_current {e : Term} (h : Derives g s (.term e) t)
    (hparen : s.cursor.current ≠ some (.ofChar '('))
    (hbracket : s.cursor.current ≠ some (.ofChar '[')) : (Node.term e).Flat := by
  -- only a repetition has a term below it, so the induction is for that case
  generalize hx : Piece.term e = x at h
  induction h generalizing e with
  | termCharacter _ _ => cases hx; exact Node.flat_set (Node.flat_character _)
  | termEscape h => cases hx; exact Node.flat_set h.flat
  | termClass h => exact absurd h.current_of_charClass hbracket
  | any _ => cases hx; exact Node.flat_leaf rfl rfl
  | edge _ => cases hx; exact Node.flat_leaf rfl rfl
  | wordBoundary _ => cases hx; exact Node.flat_leaf rfl rfl
  | @look _ _ _ _ direction negated _ _ hr _ _ =>
    refine absurd ?_ hparen
    cases direction <;> cases negated <;> exact hr.current_eq
  | group hr _ _ => exact absurd hr.current_eq hparen
  | modifiedGroup _ hr _ _ _ _ => exact absurd hr.current_eq hparen
  | capture hr _ _ _ => exact absurd hr.current_eq hparen
  | namedCapture _ _ _ hr _ _ => exact absurd hr.current_eq hparen
  | numbered _ _ _ _ _ => cases hx; exact Node.flat_leaf rfl rfl
  | named _ _ _ => cases hx; exact Node.flat_leaf rfl rfl
  | quantified _ _ _ ih =>
    cases hx
    rw [Node.flat_iff, Node.children_quantified]
    exact ⟨rfl, List.forall_mem_singleton.mpr (ih hparen hbracket rfl)⟩
  | _ => cases hx

/-! ## Classes

Every class within a class was read by the same parser with one level less. -/

/-- Every class in the tree of a node belongs to one that the parser of inner classes gave between
two states. -/
def ClassesRead (g : Grammar) (inner : Parser CharSet) (s t : State) (n : Node) : Prop :=
  ∀ m ∈ n.descendants, m.kind.nests = true → ∃ x u v, m ∈ (Node.charSet x).descendants ∧
    inner g u = .done x v ∧ s.cursor.Reaches u.cursor ∧ v.cursor.Reaches t.cursor ∧
      u.opened = s.opened

/-- An element of a class, and the classes in it. -/
structure ElementRead (g : Grammar) (inner : Parser CharSet) (s : State) (x : CharSet) (t : State) :
    Prop where
  derives : Derives g s (.element x) t
  classes : ClassesRead g inner s t (.charSet x)

section Elements

variable {inner : Parser CharSet} {n : Node} {x y : CharSet} {xs : List CharSet}

/-- In a flat tree there is no class to account for. -/
theorem ClassesRead.of_flat (h : n.Flat) : ClassesRead g inner s t n := by
  intro m hm hnests
  rw [h m hm] at hnests
  cases hnests

/-- Classes that were read between two states were read between any two states around them. -/
theorem ClassesRead.within {v : State} (h : ClassesRead g inner t u n)
    (hst : s.cursor.Reaches t.cursor) (hopened : t.opened = s.opened)
    (huv : u.cursor.Reaches v.cursor) : ClassesRead g inner s v n := by
  intro m hm hnests
  obtain ⟨x, a, b, hx, hrun, ha, hb, heq⟩ := h m hm hnests
  exact ⟨x, a, b, hx, hrun, hst.trans ha, hb.trans huv, heq.trans hopened⟩

theorem ClassesRead.operation {span : Span} {op : SetOperation}
    (hx : ClassesRead g inner s t (.charSet x)) (hy : ClassesRead g inner s t (.charSet y)) :
    ClassesRead g inner s t (.charSet (.operation span op x y)) := by
  refine Node.forall_descendants.mpr ⟨fun hnests => ?_, ?_⟩
  · cases op <;> cases hnests
  · rw [Node.children_operation]
    exact List.forall_mem_cons.mpr ⟨hx, List.forall_mem_singleton.mpr hy⟩

variable (hg : g.sets = true)
  (hinner : ∀ s x t, inner g s = .done x t → Derives g s (.charClass x) t)

include hg hinner

omit hinner in
theorem classSetCharacter_read {c : Character} (h : classSetCharacter g s = .done c t) :
    ElementRead g inner s (.character c) t :=
  ⟨classSetCharacter_derives hg h, .of_flat (Node.flat_character c)⟩

omit hinner in
theorem classSetRange_read {c : Character} (hc : classSetCharacter g s = .done c t)
    (h : classSetRange c s.cursor g t = .done x u) : ElementRead g inner s x u := by
  refine ⟨classSetRange_derives hg hc h, .of_flat ?_⟩
  obtain ⟨d, v, -, -, -, rfl⟩ := classSetRange_eq_done h
  exact Node.flat_range _ _ _

/-- An operand is a class or has its classes from the parser of inner classes. -/
theorem classSetOperand_read (h : classSetOperand inner g s = .done x t) :
    ElementRead g inner s x t := by
  refine ⟨classSetOperand_derives hg hinner h, ?_⟩
  rcases orElse_eq_done.mp h with h | ⟨-, h⟩
  · exact fun m hm _ => ⟨x, s, t, hm, h, .refl _, .refl _, rfl⟩
  rcases orElse_eq_done.mp h with h | ⟨-, h⟩
  · exact .of_flat (escapedSet_eq_done h).flat
  rcases orElse_eq_done.mp h with h | ⟨-, h⟩
  · obtain ⟨y, ys, _, _, _, -, -, -, -, rfl⟩ := classStrings_eq_done h
    exact .of_flat (Node.flat_strings _ _)
  · obtain ⟨c, -, rfl⟩ := map_eq_done.mp h
    exact .of_flat (Node.flat_character c)

/-- To have its classes read in between is a relation of the kind that reaches from elements to
contents. -/
theorem elementsRelated_read :
    ElementsRelated inner g (ElementRead g inner) fun s xs t =>
      s.cursor.Reaches t.cursor ∧ ∀ y ∈ xs, ClassesRead g inner s t (.charSet y) where
  character h := classSetCharacter_read hg h
  range hc h := classSetRange_read hg hc h
  operand h := classSetOperand_read hg hinner h
  operation hx hsign hy := by
    have hkeeps := (hx.derives.keeps rfl).trans hsign.keeps
    refine ⟨.operation hg hx.derives hsign hy.derives, .operation ?_ ?_⟩
    · exact hx.classes.within (.refl _) rfl (hsign.cursor.reaches.trans hy.derives.reaches)
    · exact hy.classes.within (hx.derives.reaches.trans hsign.cursor.reaches) hkeeps.opened
        (.refl _)
  nil s := ⟨.refl _, List.forall_mem_nil _⟩
  cons hx hxs := by
    obtain ⟨hreaches, hclasses⟩ := hxs
    refine ⟨hx.derives.reaches.trans hreaches, List.forall_mem_cons.mpr ⟨?_, fun y hy => ?_⟩⟩
    · exact hx.classes.within (.refl _) rfl hreaches
    · exact (hclasses y hy).within hx.derives.reaches (hx.derives.keeps rfl).opened (.refl _)

theorem classSetContents_read (h : classSetContents inner g s = .done xs t) :
    ∀ y ∈ xs, ClassesRead g inner s t (.charSet y) :=
  ((elementsRelated_read hg hinner).of_classSetContents h).2

end Elements

/-- By ranges, a class has no classes in it. -/
theorem Derives.flat_elements {xs : List CharSet} (hg : g.sets = false)
    (h : Derives g s (.elements xs) t) : ∀ x ∈ xs, (Node.charSet x).Flat := by
  have helement : ∀ {s t : State} {x : CharSet}, Derives g s (.element x) t →
      (Node.charSet x).Flat := by
    intro s t x h
    cases h with
    | character _ => exact Node.flat_character _
    | setEscape h => exact h.flat
    | range _ _ _ _ => exact Node.flat_range _ _ _
    | strings hsets _ _ _ => rw [hg] at hsets; cases hsets
    | operation hsets _ _ _ => rw [hg] at hsets; cases hsets
    | nested hsets _ => rw [hg] at hsets; cases hsets
  generalize hy : Piece.elements xs = y at h
  induction h generalizing xs with
  | noElement s => cases hy; exact List.forall_mem_nil _
  | consElement h _ _ ihs => cases hy; exact List.forall_mem_cons.mpr ⟨helement h, ihs rfl⟩
  | _ => cases hy

/-- Below a class are its elements. -/
theorem endOfClass_children {mark : Cursor} {nested negated : Bool} {xs : List CharSet}
    {y : CharSet} (h : endOfClass mark nested negated xs g s = .done y t) :
    s.cursor.Reaches t.cursor ∧ (Node.charSet y).children = xs.map .charSet := by
  obtain ⟨_, u, hclose, h⟩ := bind_eq_done.mp h
  split at h
  · exact absurd h fail_ne_done
  rw [classOf, grammar_bind, spanFrom_bind] at h
  have hreaches := (closeClass_eq_done.mp hclose).cursor.reaches
  split at h
  · split at h
    · obtain ⟨rfl, rfl⟩ := pure_eq_done.mp h
      exact ⟨hreaches, Node.children_expression _ _ _⟩
    · obtain ⟨rfl, rfl⟩ := pure_eq_done.mp h
      exact ⟨hreaches, Node.children_listing _ _ _ _⟩
  · obtain ⟨rfl, rfl⟩ := pure_eq_done.mp h
    exact ⟨hreaches, Node.children_listing _ _ _ _⟩

/-- The classes below a class have been read inside it. -/
theorem classBody_read {inner : Parser CharSet} {nested : Bool} {y : CharSet}
    (hinner : ∀ s x t, inner g s = .done x t → Derives g s (.charClass x) t)
    (h : classBody inner nested g s = .done y t) :
    ∀ n ∈ (Node.charSet y).children, ClassesRead g inner s t n := by
  rw [classBody_eq, here_bind, eat_bind_eq_done] at h
  obtain ⟨u, hbracket, h⟩ := h
  obtain ⟨negated, v, hcaret, h⟩ := bind_eq_done.mp h
  have hopening : s.cursor.Reaches v.cursor ∧ v.opened = s.opened := by
    rcases eats_eq_done.mp hcaret with ⟨-, hr⟩ | ⟨-, -, rfl⟩
    · exact ⟨(hbracket.trans hr).cursor.reaches, (hbracket.trans hr).opened⟩
    · exact ⟨hbracket.cursor.reaches, hbracket.opened⟩
  rw [grammar_bind] at h
  obtain ⟨xs, w, hxs, h⟩ := bind_eq_done.mp h
  obtain ⟨hclosing, hchildren⟩ := endOfClass_children h
  have hclasses : ∀ x ∈ xs, ClassesRead g inner v w (.charSet x) := by
    cases hg : g.sets with
    | true =>
      rw [hg] at hxs
      exact classSetContents_read hg hinner hxs
    | false =>
      rw [hg] at hxs
      exact fun x hx => .of_flat ((classRanges_derives hg hxs).flat_elements hg x hx)
  rw [hchildren]
  intro n hn
  obtain ⟨x, hx, rfl⟩ := List.mem_map.mp hn
  exact (hclasses x hx).within hopening.1 hopening.2 hclosing

/-- Every class in a class is read by the parser of classes. -/
theorem charClass_classes {depth : Nat} {nested : Bool} {y : CharSet}
    (h : charClass depth nested g s = .done y t) :
    ∀ m ∈ (Node.charSet y).descendants, m.kind.nests = true → ∃ d x u v nested', d ≤ depth ∧
      m = .charSet x ∧ charClass d nested' g u = .done x v ∧ s.cursor.Reaches u.cursor ∧
        v.cursor.Reaches t.cursor ∧ u.opened = s.opened := by
  induction depth generalizing nested s t y with
  | zero => exact absurd h charClass_zero_ne_done
  | succ depth ih =>
    refine Node.forall_descendants.mpr ⟨fun _ => ?_, fun n hn m hm hnests => ?_⟩
    · exact ⟨depth + 1, y, s, t, nested, Nat.le_refl _, rfl, h, .refl _, .refl _, rfl⟩
    · obtain ⟨x, u, v, hx, hrun, hsu, hvt, hopened⟩ :=
        classBody_read (fun _ _ _ => charClass_derives) h n hn m hm hnests
      obtain ⟨d, z, a, b, nested', hd, rfl, hz, hua, hbv, heq⟩ := ih hrun m hx hnests
      exact ⟨d, z, a, b, nested', Nat.le_succ_of_le hd, rfl, hz, hsu.trans hua, hbv.trans hvt,
        heq.trans hopened⟩

/-! ## What is known where a construct begins

The text and the options are those of the pass. The number of groups that have been opened is the
number of groups in the tree that start before the place. -/

/-- In the course of a reading, in which the given groups are read, a state is reached in which as
many groups have been opened as start before it. -/
structure Begun (s : State) (cs : List Capture) (t u : State) : Prop where
  reaches : s.cursor.Reaches u.cursor
  index_le : u.cursor.index ≤ t.cursor.index
  opened : u.opened = s.opened + cs.countP fun c => c.start < u.cursor.index

namespace Begun

variable {cs ds : List Capture} {w : State}

/-- A reading has begun where it starts. -/
theorem refl (h : Numbered s cs t) : Begun s cs t s := by
  refine ⟨.refl _, h.index_le, ?_⟩
  have hnone : cs.countP (fun c => decide (c.start < s.cursor.index)) = 0 := by
    refine List.countP_eq_zero.mpr fun c hc => ?_
    have hstart := (h.within c hc).1
    rw [decide_eq_true_eq]
    omega
  rw [hnone, Nat.add_zero]

/-- The groups that are read afterwards start later. -/
theorem append_left (h : Begun s cs t u) (h' : Numbered t ds w) : Begun s (cs ++ ds) w u := by
  refine ⟨h.reaches, Nat.le_trans h.index_le h'.index_le, ?_⟩
  have hnone : ds.countP (fun c => decide (c.start < u.cursor.index)) = 0 := by
    refine List.countP_eq_zero.mpr fun c hc => ?_
    have hstart := (h'.within c hc).1
    have hle := h.index_le
    rw [decide_eq_true_eq]
    omega
  rw [List.countP_append, hnone, Nat.add_zero]
  exact h.opened

/-- The groups that have been read before start earlier. -/
theorem append_right (h : Numbered s cs t) (hr : s.cursor.Reaches t.cursor)
    (h' : Begun t ds w u) : Begun s (cs ++ ds) w u := by
  refine ⟨hr.trans h'.reaches, h'.index_le, ?_⟩
  have hall : cs.countP (fun c => decide (c.start < u.cursor.index)) = cs.length := by
    refine List.countP_eq_length.mpr fun c hc => ?_
    have hstart := (h.within c hc).2
    have hle := h'.reaches.index_le
    rw [decide_eq_true_eq]
    omega
  rw [List.countP_append, hall, h'.opened, h.opened, Nat.add_assoc]

/-- A group has been opened before what is in it. -/
theorem openCapture {xs : List CodePoint} {name : Option GroupName} (hne : xs ≠ [])
    (hr : s.Reads xs t) (h : Begun (t.openCapture name) cs w u) :
    Begun s (⟨s.cursor.index, s.opened + 1, name⟩ :: cs) w u := by
  refine ⟨hr.cursor.reaches.trans h.reaches, h.index_le, ?_⟩
  have hlt : s.cursor.index < u.cursor.index :=
    Nat.lt_of_lt_of_le (hr.index_lt hne) h.reaches.index_le
  have hopened : (t.openCapture name).opened = s.opened + 1 := congrArg (· + 1) hr.opened
  rw [List.countP_cons_of_pos (by simpa using hlt), h.opened, hopened]
  omega

end Begun

/-! ## Terms at brackets and parentheses

From the first character of a term one can tell which of the alternatives gave it. -/

namespace Parser

variable {cls : Parser CharSet} {inside : Nested}

theorem orElse_of_miss_right {α : Type} {p q : Parser α} (h : q g s = .miss) :
    (p <|> q) g s = p g s := by
  rw [orElse_apply, h]
  cases p g s <;> rfl

theorem orElse_congr_right {α : Type} {p q q' : Parser α} (h : q g s = q' g s) :
    (p <|> q) g s = (p <|> q') g s := by
  rw [orElse_apply, orElse_apply, h]

/-- The signs that begin a class or a group, and the end, begin no other atom. -/
theorem atom_eq_of_current
    (h : ∀ c, s.cursor.current = some c → c.isOneOf ['[', '('] = true) :
    (if g.exact then atom cls inside else webAtom cls inside) g s =
      (Term.set <$> cls <|> group inside) g s := by
  have hne : ∀ {c : CodePoint}, c.isOneOf ['[', '('] = false → s.cursor.current ≠ some c := by
    intro c hc hcurrent
    rw [h c hcurrent] at hc
    cases hc
  have hplain : ∀ {test : CodePoint → Bool}, (∀ c, test c = true → c.isOneOf ['[', '('] = false) →
      plainCharacter test g s = .miss := by
    intro test htest
    rw [plainCharacter, here_bind]
    refine bind_of_miss (satisfy_eq_miss.mpr fun c hc => ?_)
    exact Bool.eq_false_iff.mpr fun hc' => hne (htest c hc') hc
  have hstray : strayBounds g s = .miss := bind_of_miss (bracedBounds_eq_miss (hne rfl))
  cases g.exact with
  | true =>
    rw [if_pos rfl, atom, orElse_of_miss (anyCharacter_eq_miss (hne rfl)),
      orElse_of_miss (escapedAtom_eq_miss (hne rfl))]
    exact orElse_congr_right (orElse_of_miss_right (hplain fun c hc =>
      CodePoint.isOneOf_eq_false (!·.isSyntaxCharacter) hc rfl))
  | false =>
    rw [if_neg Bool.false_ne_true, webAtom, orElse_of_miss (anyCharacter_eq_miss (hne rfl)),
      orElse_of_miss (escapedAtom_eq_miss (hne rfl)),
      orElse_of_miss (lonelyBackslash_eq_miss (hne rfl))]
    refine orElse_congr_right (orElse_of_miss_right ?_)
    rw [orElse_of_miss hstray]
    exact hplain fun c hc => CodePoint.isOneOf_eq_false (!·.isReservedInWebGrammar) hc rfl

theorem isOneOf_of_current {c : CodePoint} (hc : s.cursor.current = some c)
    (h : c.isOneOf ['[', '('] = true) (d : CodePoint) (hd : s.cursor.current = some d) :
    d.isOneOf ['[', '('] = true := by
  rw [hc] at hd
  cases hd
  exact h

/-- An assertion that begins with a parenthesis is a lookaround. -/
theorem assertion_eq_lookaround (hc : s.cursor.current = some (.ofChar '(')) :
    assertion inside g s = lookaround inside g s := by
  have hne : ∀ {c : CodePoint}, c ≠ .ofChar '(' → s.cursor.current ≠ some c := by
    intro c hne h
    exact hne (Option.some.inj (h.symm.trans hc))
  have hedge : edgeAssertion g s = .miss := by
    rw [edgeAssertion, here_bind]
    refine bind_of_miss (orElse_eq_miss.mpr ⟨?_, ?_⟩)
    · exact bind_of_miss (eat_eq_miss.mpr (hne (by decide)))
    · exact bind_of_miss (eat_eq_miss.mpr (hne (by decide)))
  have hword : wordBoundary g s = .miss := by
    rw [wordBoundary, here_bind]
    refine bind_of_miss (orElse_eq_miss.mpr ⟨?_, ?_⟩)
    · exact bind_of_miss (eatAll_eq_miss_of_ne (hne (by decide)))
    · exact bind_of_miss (eatAll_eq_miss_of_ne (hne (by decide)))
  rw [assertion, orElse_of_miss hedge, orElse_of_miss hword]

theorem assertion_eq_miss_of_ne (hc : s.cursor.current = some (.ofChar '[')) :
    assertion inside g s = .miss := by
  apply assertion_eq_miss
  · rw [hc]
    rintro _ ⟨⟩
    decide
  · intro u hr
    have hslash := hr.current_eq
    rw [hc] at hslash
    exact absurd hslash (by decide)

end Parser

/-! ## What constructs enclose

The alternatives inside a group or a lookaround are read from the place behind its opening, with one
level less. -/

/-- A group or a lookaround is read around what is inside it. -/
inductive Encloses (g : Grammar) (inside : Nested) (s : State) : Term → State → Prop
  | look {mark : Cursor} {cs : List CodePoint} {u v t : State} {qs : List Sequence}
      {direction : Direction} {negated : Bool} (hopen : s.Reads cs u)
      (h : inside mark g u = .done qs v) (hclose : v.Reads [')'] t) :
      Encloses g inside s (.look (.between s.cursor t.cursor) direction negated qs) t
  | group {mark : Cursor} {cs : List CodePoint} {u v t : State} {qs : List Sequence}
      {m : Option Modifiers} (hopen : s.Reads cs u)
      (h : inside mark g u = .done qs v) (hclose : v.Reads [')'] t) :
      Encloses g inside s (.group (.between s.cursor t.cursor) m qs) t
  | capture {mark : Cursor} {cs : List CodePoint} {u v t : State} {qs : List Sequence}
      {name : Option GroupName} (hne : cs ≠ []) (hopen : s.Reads cs u)
      (h : inside mark g (u.openCapture name) = .done qs v) (hclose : v.Reads [')'] t) :
      Encloses g inside s (.capture (.between s.cursor t.cursor) (s.opened + 1) name qs) t

section Enclosed

variable {inside : Nested}

/-- A lookaround encloses what is inside it. -/
theorem lookaround_encloses {e : Term} (h : lookaround inside g s = .done e t) :
    Encloses g inside s e t := by
  obtain ⟨direction, negated, u, qs, v, hopen, hqs, hclose, rfl⟩ := lookaround_eq_done h
  exact .look (lookOpening_eq_done hopen).1 hqs hclose

/-- A group encloses what is inside it. -/
theorem group_encloses {e : Term} (h : group inside g s = .done e t) :
    Encloses g inside s e t := by
  cases group_reads h with
  | capture hopen _ hqs hclose => exact .capture (List.cons_ne_nil _ _) hopen hqs hclose
  | named _ hopen hname hqs hclose =>
    obtain ⟨cs, hr, -, -⟩ := groupName_eq_done hname
    exact .capture (List.cons_ne_nil _ _) (hopen.trans hr) hqs hclose
  | plain hopen hqs hclose => exact .group hopen hqs hclose
  | modified _ hopen hm hcolon hqs hclose =>
    obtain ⟨ds, hr, -⟩ := (modifiers_eq_done hm).reads
    exact .group (hopen.trans (hr.trans hcolon)) hqs hclose

end Enclosed

/-- The constructs below a group or a lookaround are those inside it. -/
theorem Encloses.inner {inside : Nested} {e : Term} (h : Encloses g inside s e t) :
    ∃ mark u qs v, inside mark g u = .done qs v ∧ v.Reads [')'] t ∧
      (∀ n ∈ (Node.term e).children, n.Flat ∨ ∃ q ∈ qs, n = .sequence q) ∧
      (Piece.disjunction qs).captures.length ≤ (Piece.term e).captures.length ∧
      ∀ w, Begun u (Piece.disjunction qs).captures v w →
        Begun s (Piece.term e).captures v w := by
  have hsequences : ∀ {qs : List Sequence} {n : Node}, n ∈ qs.map Node.sequence →
      n.Flat ∨ ∃ q ∈ qs, n = .sequence q := by
    intro qs n hn
    obtain ⟨q, hq, rfl⟩ := List.mem_map.mp hn
    exact .inr ⟨q, hq, rfl⟩
  -- signs open no groups, so what is inside begins with the count of the whole
  have hreads : ∀ {cs : List CodePoint} {u : State}, s.Reads cs u → Numbered s [] u := by
    intro cs u hr
    exact ⟨hr.cursor.index_le, hr.opened, rfl, .nil, List.forall_mem_nil _⟩
  cases h with
  | @look mark _ u v _ qs _ _ hopen h hclose =>
    refine ⟨mark, u, qs, v, h, hclose, ?_, ?_, ?_⟩
    · rw [Node.children_look]
      exact fun n => hsequences
    · exact Nat.le_of_eq (congrArg List.length (Piece.captures_look _ _ _ _).symm)
    · rw [Piece.captures_look]
      exact fun w hw => .append_right (hreads hopen) hopen.cursor.reaches hw
  | @group mark _ u v _ qs m hopen h hclose =>
    refine ⟨mark, u, qs, v, h, hclose, ?_, ?_, ?_⟩
    · cases m with
      | none =>
        rw [Node.children_group_none]
        exact fun n => hsequences
      | some m =>
        rw [Node.children_group_some]
        exact List.forall_mem_cons.mpr ⟨.inl (Node.flat_modifiers m), fun n => hsequences⟩
    · exact Nat.le_of_eq (congrArg List.length (Piece.captures_group _ _ _).symm)
    · rw [Piece.captures_group]
      exact fun w hw => .append_right (hreads hopen) hopen.cursor.reaches hw
  | @capture mark _ u v _ qs name hne hopen h hclose =>
    refine ⟨mark, u.openCapture name, qs, v, h, hclose, ?_, ?_, ?_⟩
    · rw [Node.children_capture]
      exact fun n => hsequences
    -- the group itself is the first of its groups, hence one more than inside
    · rw [Piece.captures_capture]
      exact Nat.le_succ _
    · rw [Piece.captures_capture]
      exact fun w hw => .openCapture hne hopen hw

/-! ## Sources

By induction on the levels. In every step the sources of a part are sources of the whole, since
numbers of groups before it are added up. -/

/-- The parser that gives a construct, with at most the given number of levels left. If groups may
be in the construct, not more are counted from there on than the given number. -/
inductive Source (g : Grammar) (depth count : Nat) (s : State) : Node → State → Prop
  | group {d : Nat} {e : Term} {t : State} (hd : d ≤ depth)
      (hcount : countCaptures false false s.cursor.characters ≤ count)
      (hmiss : assertion (nestedAt d) g s = .miss) (h : group (nestedAt d) g s = .done e t) :
      Source g depth count s (.term e) t
  | look {d : Nat} {e : Term} {t : State} (hd : d ≤ depth)
      (hcount : countCaptures false false s.cursor.characters ≤ count)
      (h : lookaround (nestedAt d) g s = .done e t) : Source g depth count s (.term e) t
  | set {d : Nat} {x : CharSet} {t : State} (hd : d ≤ depth)
      (h : charClass d false g s = .done x t) : Source g depth count s (.term (.set x)) t
  | nested {d : Nat} {nested : Bool} {x : CharSet} {t : State} (hd : d ≤ depth)
      (h : charClass d nested g s = .done x t) : Source g depth count s (.charSet x) t

/-- With more levels or more groups, a construct has the same source. -/
theorem Source.mono {d depth n count : Nat} {m : Node} (hd : d ≤ depth) (hn : n ≤ count)
    (h : Source g d n s m t) : Source g depth count s m t := by
  cases h with
  | group hle hcount hmiss h =>
    exact .group (Nat.le_trans hle hd) (Nat.le_trans hcount hn) hmiss h
  | look hle hcount h => exact .look (Nat.le_trans hle hd) (Nat.le_trans hcount hn) h
  | set hle h => exact .set (Nat.le_trans hle hd) h
  | nested hle h => exact .nested (Nat.le_trans hle hd) h

/-- In the course of a reading, in which the given groups are read, a construct is read. -/
def Origin (g : Grammar) (depth : Nat) (s : State) (cs : List Capture) (t : State) (m : Node) :
    Prop :=
  ∃ u v, Begun s cs t u ∧
    Source g depth (countCaptures false false s.cursor.characters) u m v

/-- Every construct in a part of a tree has an origin. -/
def Origins (g : Grammar) (depth : Nat) (s : State) (x : Piece) (t : State) : Prop :=
  ∀ n ∈ x.nodes, ∀ m ∈ n.descendants, m.kind.nests = true → Origin g depth s x.captures t m

section Origins

variable {depth : Nat} {cs ds : List Capture} {m : Node} {x : Piece}

/-- A construct keeps its origin when more groups are read behind it. -/
theorem Origin.append_left (h : Origin g depth s cs t m) (h' : Numbered t ds u) :
    Origin g depth s (cs ++ ds) u m := by
  obtain ⟨v, w, hbegun, hsource⟩ := h
  exact ⟨v, w, hbegun.append_left h', hsource⟩

/-- What is read before a construct has groups that are counted. -/
theorem Origin.append_right (h : Numbered s cs t) (hr : s.cursor.Reaches t.cursor)
    (hcount : countCaptures false false t.cursor.characters ≤
      countCaptures false false s.cursor.characters)
    (h' : Origin g depth t ds u m) : Origin g depth s (cs ++ ds) u m := by
  obtain ⟨v, w, hbegun, hsource⟩ := h'
  exact ⟨v, w, .append_right h hr hbegun, hsource.mono (Nat.le_refl _) hcount⟩

/-- In flat nodes there is no construct to find the origin of. -/
theorem origins_of_flat (h : ∀ n ∈ x.nodes, n.Flat) : Origins g depth s x t := by
  intro n hn m hm hnests
  rw [h n hn m hm] at hnests
  cases hnests

/-- A construct has an origin if what is inside it does. -/
theorem Encloses.origins {inside : Nested} {d : Nat} {e : Term} (h : Encloses g inside s e t)
    (he : Derives g s (.term e) t)
    (hinside : ∀ mark s qs t, inside mark g s = .done qs t →
      Derives g s (.disjunction qs) t ∧ Origins g d s (.disjunction qs) t)
    (hd : d ≤ depth)
    (hself : Source g depth (countCaptures false false s.cursor.characters) s (.term e) t) :
    Origins g depth s (.term e) t := by
  obtain ⟨mark, u, qs, v, hqs, hclose, hchildren, hlength, hbegun⟩ := h.inner
  obtain ⟨hderives, horigins⟩ := hinside mark u qs v hqs
  -- the scan finds at least the groups inside and all groups behind, on both sides
  have hcount : countCaptures false false u.cursor.characters ≤
      countCaptures false false s.cursor.characters := by
    have hscan : _ = (Piece.term e).captures.length + _ := he.scanned
    have hscan' : _ = (Piece.disjunction qs).captures.length + _ := hderives.scanned
    have hparen : countCaptures false false v.cursor.characters =
        countCaptures false false t.cursor.characters :=
      (Unmarked.single rfl).inert.scan hclose false
    rw [hscan, hscan', hparen]
    exact Nat.add_le_add_right hlength _
  have hnone : Numbered v [] t :=
    ⟨hclose.cursor.index_le, hclose.opened, rfl, .nil, List.forall_mem_nil _⟩
  -- the construct itself, and then what is inside it
  refine List.forall_mem_singleton.mpr (Node.forall_descendants.mpr ⟨fun _ => ?_, ?_⟩)
  · exact ⟨s, t, .refl he.captures_numbered, hself⟩
  · intro n hn m hm hnests
    rcases hchildren n hn with hflat | ⟨q, hq, rfl⟩
    · rw [hflat m hm] at hnests
      cases hnests
    · obtain ⟨w, z, hw, hsource⟩ := horigins _ (List.mem_map_of_mem hq) m hm hnests
      have hw := (hbegun w hw).append_left hnone
      rw [List.append_nil] at hw
      exact ⟨w, z, hw, hsource.mono hd hcount⟩

/-- A quantifier is no construct, so the origins are those in its term. -/
theorem origins_quantified {mark : Cursor} {e e' : Term} (he : Origins g depth s (.term e) t)
    (h : quantified mark e g t = .done e' u) : Origins g depth s (.term e') u := by
  rcases quantified_eq_done h with ⟨r, hr, rfl⟩ | ⟨-, rfl, rfl⟩
  · obtain ⟨cs, hread, -⟩ := quantifier_eq_done hr
    have hnone : Numbered t [] u :=
      ⟨hread.cursor.index_le, hread.opened, rfl, .nil, List.forall_mem_nil _⟩
    refine List.forall_mem_singleton.mpr (Node.forall_descendants.mpr ⟨fun h => (by cases h), ?_⟩)
    rw [Node.children_quantified, Piece.captures_quantified]
    refine List.forall_mem_singleton.mpr fun m hm hnests => ?_
    have horigin := (List.forall_mem_singleton.mp he m hm hnests).append_left hnone
    rwa [List.append_nil] at horigin
  · exact he

/-- A class, and every class in it. -/
theorem origins_set {y : CharSet} (h : charClass depth false g s = .done y t) :
    Origins g depth s (.term (.set y)) t := by
  have hnumbered := (Derives.termClass (charClass_derives h)).captures_numbered
  refine List.forall_mem_singleton.mpr (Node.forall_descendants.mpr ⟨fun _ => ?_, ?_⟩)
  · exact ⟨s, t, .refl hnumbered, .set (Nat.le_refl _) h⟩
  · have hclasses := (Node.forall_descendants.mp (charClass_classes h)).2
    intro n hn m hm hnests
    obtain ⟨d, x, u, v, nested, hd, rfl, hx, hsu, hvt, hopened⟩ := hclasses n hn m hm hnests
    refine ⟨u, v, ⟨hsu, ?_, ?_⟩, .nested hd hx⟩
    · exact Nat.le_trans (charClass_derives hx).reaches.index_le hvt.index_le
    · rw [Piece.captures_set]
      exact hopened

section Terms

variable {d : Nat} (hd : d ≤ depth)
  (hinside : ∀ mark s qs t, nestedAt depth mark g s = .done qs t →
    Derives g s (.disjunction qs) t ∧ Origins g d s (.disjunction qs) t)

include hd hinside

/-- The constructs of a term have origins: the term itself, or one inside it, by induction on the
levels. -/
theorem term_origins {e : Term}
    (h : term (charClass depth false) (nestedAt depth) g s = .done e t) :
    Origins g depth s (.term e) t := by
  have hderives : ∀ mark s qs t, nestedAt depth mark g s = .done qs t →
      Derives g s (.disjunction qs) t := fun mark s qs t h => (hinside mark s qs t h).1
  by_cases hparen : s.cursor.current = some (.ofChar '(')
  · rcases term_eq_done h with ⟨a, u, hlook, h⟩ | ⟨ha, a, u, hgroup, h⟩
    · rw [assertion_eq_lookaround hparen] at hlook
      have horigins := (lookaround_encloses hlook).origins (lookaround_derives hderives hlook)
        hinside hd (.look (Nat.le_refl _) (Nat.le_refl _) hlook)
      split at h
      · exact origins_quantified horigins h
      · obtain ⟨rfl, rfl⟩ := pure_eq_done.mp h
        exact horigins
    · have hcls : charClass depth false g s = .miss :=
        charClass_eq_miss (by rw [hparen]; decide)
      rw [atom_eq_of_current (isOneOf_of_current hparen rfl),
        orElse_of_miss (map_eq_miss.mpr hcls)] at hgroup
      exact origins_quantified ((group_encloses hgroup).origins (group_derives hderives hgroup)
        hinside hd (.group (Nat.le_refl _) (Nat.le_refl _) ha hgroup)) h
  by_cases hbracket : s.cursor.current = some (.ofChar '[')
  · rw [term_of_atom (assertion_eq_miss_of_ne hbracket), bind_eq_done] at h
    obtain ⟨a, u, ha, h⟩ := h
    rw [atom_eq_of_current (isOneOf_of_current hbracket rfl),
      orElse_of_miss_right (group_eq_miss hparen)] at ha
    obtain ⟨y, hy, rfl⟩ := map_eq_done.mp ha
    exact origins_quantified (origins_set hy) h
  · refine origins_of_flat (List.forall_mem_singleton.mpr ?_)
    exact (term_derives hderives (fun _ _ _ => charClass_derives) h).flat_of_current hparen hbracket

omit hd hinside in
/-- Two parts one after the other. -/
theorem origins_append {y z : Piece} {cs : List CodePoint} {v : State}
    (hx : Derives g s x t) (hr : t.Reads cs u) {f : GroupScope → GroupScope}
    (hy : Derives g (u.inScope f) y v)
    (hcount : countCaptures false false u.cursor.characters ≤
      countCaptures false false s.cursor.characters)
    (hnodes : z.nodes = x.nodes ++ y.nodes) (hxs : Origins g depth s x t)
    (hys : Origins g depth (u.inScope f) y v) : Origins g depth s z v := by
  have hcaptures : z.captures = x.captures ++ y.captures := by
    rw [Piece.captures, hnodes, List.flatMap_append]
    rfl
  have hnone : Numbered t [] (u.inScope f) :=
    ⟨hr.cursor.index_le, hr.opened, rfl, .nil, List.forall_mem_nil _⟩
  intro n hn m hm hnests
  rw [hcaptures]
  rcases List.mem_append.mp (hnodes ▸ hn) with hn | hn
  · exact (hxs n hn m hm hnests).append_left (hnone.append hy.captures_numbered)
  · have hnumbered := hx.captures_numbered.append hnone
    rw [List.append_nil] at hnumbered
    exact .append_right hnumbered (hx.reaches.trans hr.cursor.reaches) hcount
      (hys n hn m hm hnests)

/-- The constructs of terms in a row have origins. -/
theorem terms_origins {es : List Term}
    (h : Chain (fun s e t => term (charClass depth false) (nestedAt depth) g s = .done e t)
      s es t) : Derives g s (.terms es) t ∧ Origins g depth s (.terms es) t := by
  have hderives : ∀ mark s qs t, nestedAt depth mark g s = .done qs t →
      Derives g s (.disjunction qs) t := fun mark s qs t h => (hinside mark s qs t h).1
  induction h with
  | nil s => exact ⟨.noTerm s, origins_of_flat (List.forall_mem_nil _)⟩
  | @cons s u t e es head tail ih =>
    obtain ⟨hes, horigins⟩ := ih
    have he := term_derives hderives (fun _ _ _ => charClass_derives) head
    have hscan : _ = (Piece.term e).captures.length + _ := he.scanned
    refine ⟨.consTerm he hes, ?_⟩
    exact origins_append he (.refl u) (f := id) hes (by omega) rfl
      (term_origins hd hinside head) horigins

theorem sequence_origins {q : Sequence}
    (h : sequence (charClass depth false) (nestedAt depth) g s = .done q t) :
    Derives g s (.sequence q) t ∧ Origins g depth s (.sequence q) t := by
  obtain ⟨es, hes, rfl⟩ := sequence_eq_done h
  obtain ⟨hderives, horigins⟩ := terms_origins hd hinside (chain_of_many hes)
  refine ⟨.sequence hderives, List.forall_mem_singleton.mpr ?_⟩
  refine Node.forall_descendants.mpr ⟨fun h => (by cases h), ?_⟩
  rw [Node.children_sequence, Piece.captures_sequence]
  exact horigins

theorem followingSequences_origins {q : Sequence} {qs : List Sequence}
    (hq : Derives g s (.sequence q) t) (hqs : Origins g depth s (.sequence q) t)
    (h : Chain (fun s q t =>
      followingSequence (charClass depth false) (nestedAt depth) g s = .done q t) t qs u) :
    Derives g s (.alternatives (q :: qs)) u ∧ Origins g depth s (.alternatives (q :: qs)) u := by
  induction h generalizing s q with
  | nil t => exact ⟨.lastAlternative hq, hqs⟩
  | @cons t v u q' qs head _ ih =>
    obtain ⟨w, hbar, hnext⟩ := followingSequence_eq_done head
    obtain ⟨hnext, horigins⟩ := sequence_origins hd hinside hnext
    obtain ⟨hrest, hrests⟩ := ih hnext horigins
    have hcount : countCaptures false false w.cursor.characters ≤
        countCaptures false false s.cursor.characters := by
      have hscan : _ = (Piece.sequence q).captures.length + _ := hq.scanned
      have hscan' : countCaptures false false t.cursor.characters =
          countCaptures false false w.cursor.characters :=
        (Unmarked.single rfl).inert.scan hbar false
      omega
    exact ⟨.consAlternative hq hbar hrest, origins_append hq hbar hrest hcount rfl hqs hrests⟩

/-- The constructs of alternatives have origins. -/
theorem alternatives_origins {qs : List Sequence}
    (h : alternatives (charClass depth false) (nestedAt depth) g s = .done qs t) :
    Derives g s (.disjunction qs) t ∧ Origins g depth s (.disjunction qs) t := by
  obtain ⟨q, rest, u, v, hq, hqs, -, rfl, rfl⟩ := alternatives_eq_done h
  obtain ⟨hderives, horigins⟩ := sequence_origins hd hinside hq
  obtain ⟨hderives, horigins⟩ :=
    followingSequences_origins hd hinside hderives horigins (chain_of_many hqs)
  refine ⟨.disjunction hderives, fun n hn m hm hnests => ?_⟩
  -- to enter and to leave a disjunction opens no group
  obtain ⟨w, z, hbegun, hsource⟩ := horigins n hn m hm hnests
  exact ⟨w, z, ⟨hbegun.reaches, hbegun.index_le, hbegun.opened⟩, hsource⟩

end Terms

end Origins

/-- Every construct in a disjunction was given by a parser of its own. -/
theorem disjunction_origins {depth : Nat} {qs : List Sequence}
    (h : disjunction depth g s = .done qs t) :
    Derives g s (.disjunction qs) t ∧ Origins g depth s (.disjunction qs) t := by
  induction depth generalizing s t qs with
  | zero =>
    rw [disjunction_eq_nestedAt] at h
    exact alternatives_origins (Nat.le_refl 0) (fun _ _ _ _ h => by cases h) h
  | succ depth ih =>
    rw [disjunction_eq_nestedAt] at h
    exact alternatives_origins (Nat.le_succ depth) (fun _ _ _ _ h => ih h) h

end EcmaPattern
