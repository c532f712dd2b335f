import EcmaPattern.Proofs.Passes
import EcmaPattern.Proofs.Resolution

/-!
# Capturing groups

The capturing groups of a tree, in the order of its nodes. They are numbered from one on, in the
order in which they start (`Derives.captures_numbered`), and the scope of group names declares those
of them that have a name (`Derives.captures_declared`). What holds of each term that is derived
holds of every node of a tree (`Derives.forall_nodes`).

Key lemmas:

* `Derives.follows`: a relation between states and the groups opened in between holds along every
  derivation, if it holds of a group and composes;
* `Derives.captures_numbered` and `Derives.captures_declared`, two uses of it;
* `Derives.forall_nodes`: what holds of each derived term holds of all nodes.
-/

namespace EcmaPattern

/-- A capturing group: where it starts, its number and, if it has one, its name. -/
structure Capture where
  start : Nat
  index : Nat
  name : Option GroupName
  deriving DecidableEq

namespace Node

def capture? : Node → Option Capture
  | term (.capture span index name _) => some ⟨span.start, index, name⟩
  | _ => none

def captures (n : Node) : List Capture := n.descendants.filterMap capture?

/-- The groups of a tree are that of its root, if it is one, and those of its children, in order. -/
theorem captures_eq (n : Node) : n.captures = n.capture?.toList ++ n.children.flatMap captures :=
  filterMap_descendants capture? n

theorem capture?_resolve (f : GroupName → List Nat) (n : Node) :
    (n.resolve f).capture? = n.capture? := by
  cases n with
  | term t =>
    cases t with
    | reference span target => cases target <;> simp [resolve, Term.resolve, capture?]
    | _ => simp [resolve, Term.resolve, capture?]
  | _ => rfl

/-- Resolving references changes no group. -/
@[simp] theorem captures_resolve (f : GroupName → List Nat) (n : Node) :
    (n.resolve f).captures = n.captures := by
  rw [captures, descendants_resolve, List.filterMap_map, captures]
  congr 1
  funext m
  exact capture?_resolve f m

/-! ## Nodes inside classes

No term stands in a class, so classes can be passed over wherever groups or references are looked
for. -/

def insideClass : Node → Bool
  | charSet _ => true
  | classString _ => true
  | _ => false

theorem insideClass_of_mem_children {n m : Node} (hn : n.insideClass) (hm : m ∈ n.children) :
    m.insideClass := by
  cases n with
  | charSet x =>
    cases x with
    | character c => exact absurd hm List.not_mem_nil
    | escape span set negated => exact absurd hm List.not_mem_nil
    | property span p negated => exact absurd hm List.not_mem_nil
    | range span first last =>
      rw [children_range] at hm
      rcases List.mem_cons.mp hm with rfl | hm
      · rfl
      · rw [List.mem_singleton.mp hm]
        rfl
    | strings span xs =>
      rw [children_strings] at hm
      obtain ⟨y, -, rfl⟩ := List.mem_map.mp hm
      rfl
    | operation span op left right =>
      rw [children_operation] at hm
      rcases List.mem_cons.mp hm with rfl | hm
      · rfl
      · rw [List.mem_singleton.mp hm]
        rfl
    | listing span negated sets xs =>
      rw [children_listing] at hm
      obtain ⟨y, -, rfl⟩ := List.mem_map.mp hm
      rfl
    | expression span negated y =>
      rw [children_expression] at hm
      rw [List.mem_singleton.mp hm]
      rfl
  | classString x =>
    rw [children_classString] at hm
    obtain ⟨c, -, rfl⟩ := List.mem_map.mp hm
    rfl
  | _ => cases hn

/-- What stands below a class stands in a class. -/
theorem insideClass_of_mem_descendants {n m : Node} (hn : n.insideClass)
    (hm : m ∈ n.descendants) : m.insideClass := by
  induction n using induction_on_children with
  | h n ih =>
    rw [descendants_eq] at hm
    rcases List.mem_cons.mp hm with rfl | hm
    · exact hn
    · obtain ⟨c, hc, hm⟩ := List.mem_flatMap.mp hm
      exact ih c hc (insideClass_of_mem_children hn hc) hm

/-- No group stands in a class. -/
theorem captures_of_insideClass {n : Node} (hn : n.insideClass) : n.captures = [] := by
  rw [captures, List.filterMap_eq_nil_iff]
  intro m hm
  have hm := insideClass_of_mem_descendants hn hm
  cases m with
  | charSet x => rfl
  | classString x => rfl
  | _ => cases hm

theorem captures_set (x : CharSet) : (term (.set x)).captures = [] := by
  have h : (charSet x).captures = [] := captures_of_insideClass rfl
  rw [captures_eq] at h ⊢
  exact h

/-- No term stands among modifiers. -/
theorem not_mem_descendants_modifiers {m : Modifiers} {e : Term} :
    term e ∉ (modifiers m).descendants := by
  have hflags : ∀ f, (modifierFlags f).descendants = [modifierFlags f] := by
    intro f
    rw [descendants_eq]
    rfl
  intro h
  rw [descendants_eq] at h
  cases hr : m.remove <;> simp [children, fields, Field.parts, hr, hflags] at h

theorem captures_modifiers (m : Modifiers) : (modifiers m).captures = [] := by
  have hflags : ∀ f, (modifierFlags f).captures = [] := by
    intro f
    rw [captures_eq]
    rfl
  rw [captures_eq]
  cases hr : m.remove <;> simp [capture?, children, fields, Field.parts, hr, hflags]

end Node

/-! ## Pieces of a tree

The groups of a piece, production by production, as equations that simplify. -/

namespace Piece

def nodes : Piece → List Node
  | element x => [.charSet x]
  | elements xs => xs.map .charSet
  | charClass x => [.charSet x]
  | term e => [.term e]
  | terms es => es.map .term
  | sequence q => [.sequence q]
  | alternatives qs => qs.map .sequence
  | disjunction qs => qs.map .sequence

def captures (x : Piece) : List Capture := x.nodes.flatMap Node.captures

def insideClass : Piece → Bool
  | element _ => true
  | elements _ => true
  | charClass _ => true
  | _ => false

theorem captures_of_insideClass {x : Piece} (h : x.insideClass) : x.captures = [] := by
  have hset : ∀ y, (Node.charSet y).captures = [] := fun y => Node.captures_of_insideClass rfl
  cases x with
  | element y => simp [captures, nodes, hset]
  | elements ys => simp [captures, nodes, hset]
  | charClass y => simp [captures, nodes, hset]
  | _ => cases h

section Laws

variable (span : Span)

@[simp] theorem captures_set (y : CharSet) : (term (.set y)).captures = [] := by
  rw [captures, nodes, List.flatMap_singleton, Node.captures_set]

@[simp] theorem captures_leaf {e : Term} (h : (Node.term e).capture? = none)
    (hc : (Node.term e).children = []) : (term e).captures = [] := by
  rw [captures, nodes, List.flatMap_singleton, Node.captures_eq, h, hc]
  rfl

@[simp] theorem captures_look (direction : Direction) (negated : Bool) (qs : List Sequence) :
    (term (.look span direction negated qs)).captures = (disjunction qs).captures := by
  rw [captures, nodes, List.flatMap_singleton, Node.captures_eq, Node.children_look]
  rfl

@[simp] theorem captures_group (m : Option Modifiers) (qs : List Sequence) :
    (term (.group span m qs)).captures = (disjunction qs).captures := by
  rw [captures, nodes, List.flatMap_singleton, Node.captures_eq]
  cases m with
  | none => rw [Node.children_group_none]; rfl
  | some m =>
    rw [Node.children_group_some, List.flatMap_cons, Node.captures_modifiers]
    rfl

/-- A capturing group comes before the groups inside it. -/
@[simp] theorem captures_capture (index : Nat) (name : Option GroupName) (qs : List Sequence) :
    (term (.capture span index name qs)).captures =
      ⟨span.start, index, name⟩ :: (disjunction qs).captures := by
  rw [captures, nodes, List.flatMap_singleton, Node.captures_eq, Node.children_capture]
  rfl

@[simp] theorem captures_quantified (r : Repetition) (e : Term) :
    (term (.quantified span r e)).captures = (term e).captures := by
  rw [captures, nodes, List.flatMap_singleton, Node.captures_eq, Node.children_quantified]
  rfl

@[simp] theorem captures_noTerm : (terms []).captures = [] := rfl

/-- The groups of terms in a row are the groups of the first and then those of the rest. -/
@[simp] theorem captures_terms (e : Term) (es : List Term) :
    (terms (e :: es)).captures = (term e).captures ++ (terms es).captures := by
  simp [captures, nodes]

@[simp] theorem captures_sequence (es : List Term) :
    (sequence (.mk span es)).captures = (terms es).captures := by
  rw [captures, nodes, List.flatMap_singleton, Node.captures_eq, Node.children_sequence]
  rfl

@[simp] theorem captures_lastAlternative (q : Sequence) :
    (alternatives [q]).captures = (sequence q).captures := rfl

@[simp] theorem captures_alternatives (q : Sequence) (qs : List Sequence) :
    (alternatives (q :: qs)).captures = (sequence q).captures ++ (alternatives qs).captures := by
  simp [captures, nodes]

end Laws

end Piece

/-- The groups of a pattern are those of its alternatives, also when its references have been
resolved. -/
theorem Pattern.captures_resolve (p : Pattern) (f : GroupName → List Nat) :
    (Node.pattern (p.resolve f)).captures = (Piece.disjunction p.alternatives).captures := by
  show ((Node.pattern p).resolve f).captures = _
  rw [Node.captures_resolve, Node.captures_eq, Node.children_pattern]
  rfl

/-! ## Along derivations

Most of what is read opens no group (`State.Keeps`). `FollowsCaptures` collects what a relation must
satisfy in order to hold along a derivation, and `Derives.follows` is the one induction. -/

section Derivations

variable {g : Grammar} {s t u : State}

/-- Between the two states no group opens. -/
structure State.Keeps (s t : State) : Prop where
  opened : t.opened = s.opened
  scope : t.scope = s.scope

theorem State.Keeps.refl (s : State) : s.Keeps s := ⟨rfl, rfl⟩

theorem State.Keeps.trans (h : s.Keeps t) (h' : t.Keeps u) : s.Keeps u :=
  ⟨h'.opened.trans h.opened, h'.scope.trans h.scope⟩

/-- Reading characters opens no group. -/
theorem State.Reads.keeps {cs : List CodePoint} (h : s.Reads cs t) : s.Keeps t :=
  ⟨h.opened, h.scope⟩

theorem ReadsCharacter.keeps {p : Place} {c : Character} (h : ReadsCharacter g p s c t) :
    s.Keeps t := by
  obtain ⟨cs, -, hr⟩ := h.reads
  exact hr.keeps

theorem ReadsString.keeps {x : ClassString} (h : ReadsString g s x t) : s.Keeps t := by
  cases h with
  | mk h =>
    induction h with
    | nil s => exact .refl s
    | cons head _ ih => exact head.keeps.trans ih

theorem ReadsStrings.keeps {xs : List ClassString} (h : ReadsStrings g s xs t) : s.Keeps t := by
  induction h with
  | last h => exact h.keeps
  | cons h hbar _ ih => exact h.keeps.trans (hbar.keeps.trans ih)

/-- What is read in a class opens no group. -/
theorem Derives.keeps {x : Piece} (h : Derives g s x t) (hx : x.insideClass) : s.Keeps t := by
  induction h with
  | character h => exact h.keeps
  | setEscape h =>
    cases h with
    | mk _ hr => exact hr.keeps
  | range hc hdash hd _ => exact hc.keeps.trans (hdash.keeps.trans hd.keeps)
  | strings _ hopen h hclose => exact hopen.keeps.trans (h.keeps.trans hclose.keeps)
  | operation _ _ hsign _ ihx ihy => exact (ihx rfl).trans (hsign.keeps.trans (ihy rfl))
  | nested _ _ ih => exact ih rfl
  | noElement s => exact .refl s
  | consElement _ _ ih ihs => exact (ih rfl).trans (ihs rfl)
  | listing hopen _ hclose _ ih => exact hopen.keeps.trans ((ih rfl).trans hclose.keeps)
  | expression _ hopen _ hclose _ _ ih => exact hopen.keeps.trans ((ih rfl).trans hclose.keeps)
  | _ => cases hx

/-- The names that a scope declares, with the numbers of their groups. -/
def GroupScope.entries (scope : GroupScope) : List (GroupName × Nat) :=
  scope.declarations.map fun d => (d.name, d.index)

theorem GroupScope.entries_declare (scope : GroupScope) (name : GroupName) (index : Nat) :
    (scope.declare name index).entries = scope.entries ++ [(name, index)] := by
  rw [entries, declare, List.map_append]
  rfl

/-- A name is declared only once it has been read; alternatives declare none. -/
theorem GroupScope.entries_followingAlternative (scope : GroupScope) :
    scope.followingAlternative.entries = scope.entries := by
  rw [followingAlternative]
  split
  · rfl
  · rw [enterAlternative]
    split <;> rfl

/-- A relation between two states and the groups that open between them which holds along every
derivation: it holds where no group opens, it composes, and it goes into a group. -/
structure FollowsCaptures (R : State → List Capture → State → Prop) : Prop where
  nil : ∀ {s t : State}, s.cursor.Reaches t.cursor → t.opened = s.opened →
    t.scope.entries = s.scope.entries → R s [] t
  append : ∀ {s t u : State} {cs ds : List Capture}, R s cs t → R t ds u → R s (cs ++ ds) u
  openCapture : ∀ {s t u : State} {xs : List CodePoint} {name : Option GroupName}
    {cs : List Capture}, xs ≠ [] → s.Reads xs t → R (t.openCapture name) cs u →
    R s (⟨s.cursor.index, s.opened + 1, name⟩ :: cs) u

namespace FollowsCaptures

variable {R : State → List Capture → State → Prop} (hR : FollowsCaptures R) {cs : List Capture}

include hR

/-- Where no group opens, the relation holds. -/
theorem of_keeps (hreaches : s.cursor.Reaches t.cursor) (h : s.Keeps t) : R s [] t :=
  hR.nil hreaches h.opened (by rw [h.scope])

theorem of_reads {xs : List CodePoint} (h : s.Reads xs t) : R s [] t :=
  hR.of_keeps h.cursor.reaches h.keeps

/-- The relation goes from what is inside a construct to the construct. -/
theorem enclose {xs ys : List CodePoint} {v : State} (hopen : s.Reads xs t) (h : R t cs u)
    (hclose : u.Reads ys v) : R s cs v := by
  have happend := hR.append (hR.append (hR.of_reads hopen) h) (hR.of_reads hclose)
  rwa [List.nil_append, List.append_nil] at happend

end FollowsCaptures

/-- A relation that follows groups holds along every derivation. This is the one induction over
derivations that the statements about groups need. -/
theorem Derives.follows {R : State → List Capture → State → Prop} (hR : FollowsCaptures R)
    {x : Piece} (h : Derives g s x t) : R s x.captures t := by
  have hself := h
  -- by induction on the derivation; the cases in a class open no group and come last
  induction h with
  | termCharacter h _ =>
    obtain ⟨cs, -, hr⟩ := h.reads
    rw [Piece.captures_set]
    exact hR.of_reads hr
  | termEscape h =>
    cases h with
    | mk _ hr =>
      rw [Piece.captures_set]
      exact hR.of_reads hr
  | termClass h _ =>
    rw [Piece.captures_set]
    exact hR.of_keeps h.reaches (h.keeps rfl)
  | any h =>
    rw [Piece.captures_leaf rfl rfl]
    exact hR.of_reads h
  | edge h =>
    rw [Piece.captures_leaf rfl rfl]
    exact hR.of_reads h
  | wordBoundary h =>
    rw [Piece.captures_leaf rfl rfl]
    exact hR.of_reads h
  | numbered _ _ _ _ hr =>
    rw [Piece.captures_leaf rfl rfl]
    exact hR.of_reads hr
  | named _ _ hr =>
    rw [Piece.captures_leaf rfl rfl]
    exact hR.of_reads hr
  | look _ hopen h hclose ih =>
    rw [Piece.captures_look]
    exact hR.enclose hopen (ih h) hclose
  | group hopen h hclose ih =>
    rw [Piece.captures_group]
    exact hR.enclose hopen (ih h) hclose
  | modifiedGroup _ hopen hm hcolon h hclose ih =>
    obtain ⟨cs, hread, -⟩ := hm.reads
    rw [Piece.captures_group]
    exact hR.enclose (hopen.trans (hread.trans hcolon)) (ih h) hclose
  | capture hopen _ h hclose ih =>
    rw [Piece.captures_capture]
    exact hR.openCapture (List.cons_ne_nil _ _) hopen (hR.enclose (.refl _) (ih h) hclose)
  | namedCapture _ _ _ hopen h hclose ih =>
    rw [Piece.captures_capture]
    exact hR.openCapture (List.cons_ne_nil _ _) hopen (hR.enclose (.refl _) (ih h) hclose)
  | quantified h _ hr ih =>
    rw [Piece.captures_quantified]
    exact hR.enclose (.refl _) (ih h) hr
  | noTerm s =>
    rw [Piece.captures_noTerm]
    exact hR.of_reads (.refl s)
  | consTerm h hs ih ihs =>
    rw [Piece.captures_terms]
    exact hR.append (ih h) (ihs hs)
  | sequence h ih =>
    rw [Piece.captures_sequence]
    exact ih h
  | lastAlternative h ih =>
    rw [Piece.captures_lastAlternative]
    exact ih h
  | @consAlternative s t u v q qs h hbar hs ih ihs =>
    have hnext : R u [] (u.inScope GroupScope.followingAlternative) :=
      hR.nil (.refl _) rfl u.scope.entries_followingAlternative
    rw [Piece.captures_alternatives]
    exact hR.append (ih h) (hR.append (hR.of_reads hbar) (hR.append hnext (ihs hs)))
  | @disjunction s t qs h ih =>
    have henter : R s [] (s.inScope GroupScope.enterDisjunction) := hR.nil (.refl _) rfl rfl
    have hleave : R t [] (t.inScope GroupScope.leaveDisjunction) := hR.nil (.refl _) rfl rfl
    have happend := hR.append (hR.append henter (ih h)) hleave
    rwa [List.nil_append, List.append_nil] at happend
  | _ =>
    rw [Piece.captures_of_insideClass rfl]
    exact hR.of_keeps hself.reaches (hself.keeps rfl)

/-! ## Numbers

Groups are numbered from the next number on, and each of them starts behind the one before it. The
count in the final state is the number of groups. -/

/-- Between two states the given groups open: they are numbered in order, from the next number on,
and each starts after the one before it. -/
structure Numbered (s : State) (cs : List Capture) (t : State) : Prop where
  index_le : s.cursor.index ≤ t.cursor.index
  opened : t.opened = s.opened + cs.length
  indexes : cs.map Capture.index = List.range' (s.opened + 1) cs.length
  starts : (cs.map Capture.start).Pairwise (· < ·)
  within : ∀ c ∈ cs, s.cursor.index ≤ c.start ∧ c.start < t.cursor.index

/-- Groups that are numbered in order are numbered in order when they are put one after the other.
-/
theorem Numbered.append {cs ds : List Capture} (h : Numbered s cs t) (h' : Numbered t ds u) :
    Numbered s (cs ++ ds) u where
  index_le := Nat.le_trans h.index_le h'.index_le
  opened := by
    rw [h'.opened, h.opened, List.length_append, Nat.add_assoc]
  indexes := by
    have hnext : t.opened + 1 = s.opened + 1 + cs.length := by
      rw [h.opened]
      omega
    rw [List.map_append, h.indexes, h'.indexes, List.length_append, hnext, List.range'_append_1]
  starts := by
    rw [List.map_append, List.pairwise_append]
    refine ⟨h.starts, h'.starts, ?_⟩
    intro a ha b hb
    obtain ⟨c, hc, rfl⟩ := List.mem_map.mp ha
    obtain ⟨d, hd, rfl⟩ := List.mem_map.mp hb
    exact Nat.lt_of_lt_of_le (h.within c hc).2 (h'.within d hd).1
  within := by
    intro c hc
    rcases List.mem_append.mp hc with hc | hc
    · exact ⟨(h.within c hc).1, Nat.lt_of_lt_of_le (h.within c hc).2 h'.index_le⟩
    · exact ⟨Nat.le_trans h.index_le (h'.within c hc).1, (h'.within c hc).2⟩

theorem State.Reads.index_lt {xs : List CodePoint} (h : s.Reads xs t) (hne : xs ≠ []) :
    s.cursor.index < t.cursor.index := by
  obtain ⟨c, xs, rfl⟩ := List.exists_cons_of_ne_nil hne
  have hwidth := c.width_pos
  rw [h.cursor.index, Text.ofCodePoints, List.flatMap_cons, List.length_append, c.length_encode]
  omega

/-- A group opens before those inside it. -/
theorem Numbered.openCapture {xs : List CodePoint} {name : Option GroupName} {cs : List Capture}
    (hne : xs ≠ []) (hr : s.Reads xs t) (h : Numbered (t.openCapture name) cs u) :
    Numbered s (⟨s.cursor.index, s.opened + 1, name⟩ :: cs) u := by
  have hlt := hr.index_lt hne
  have hle : t.cursor.index ≤ u.cursor.index := h.index_le
  have hnext : (t.openCapture name).opened = s.opened + 1 := congrArg (· + 1) hr.opened
  refine ⟨by omega, ?_, ?_, ?_, ?_⟩
  · rw [h.opened, hnext, List.length_cons]
    omega
  · rw [List.map_cons, h.indexes, hnext, List.length_cons, List.range'_succ]
  · rw [List.map_cons, List.pairwise_cons]
    refine ⟨?_, h.starts⟩
    intro a ha
    obtain ⟨c, hc, rfl⟩ := List.mem_map.mp ha
    exact Nat.lt_of_lt_of_le hlt (h.within c hc).1
  · intro c hc
    rcases List.mem_cons.mp hc with rfl | hc
    · exact ⟨Nat.le_refl _, Nat.lt_of_lt_of_le hlt hle⟩
    · have hstart : t.cursor.index ≤ c.start := (h.within c hc).1
      exact ⟨by omega, (h.within c hc).2⟩

/-- Groups are numbered in the order in which they open. -/
theorem Derives.captures_numbered {x : Piece} (h : Derives g s x t) :
    Numbered s x.captures t := by
  refine h.follows ⟨?_, Numbered.append, Numbered.openCapture⟩
  intro s t hreaches hopened _
  exact ⟨hreaches.index_le, hopened, rfl, .nil, fun _ hc => absurd hc List.not_mem_nil⟩

/-! ## Names

The scope holds exactly the groups that have a name, in the same order, with their numbers. -/

def Capture.named? (c : Capture) : Option (GroupName × Nat) := c.name.map fun n => (n, c.index)

/-- The scope declares the groups that have a name, in the order in which they open. -/
theorem Derives.captures_declared {x : Piece} (h : Derives g s x t) :
    t.scope.entries = s.scope.entries ++ x.captures.filterMap Capture.named? := by
  refine h.follows (R := fun s cs t =>
    t.scope.entries = s.scope.entries ++ cs.filterMap Capture.named?) ⟨?_, ?_, ?_⟩
  · intro s t _ _ hentries
    rw [hentries, List.filterMap_nil, List.append_nil]
  · intro s t u cs ds h h'
    rw [h', h, List.filterMap_append, List.append_assoc]
  · intro s t u xs name cs _ hr h
    rw [h]
    cases name with
    | none =>
      show t.scope.entries ++ _ = s.scope.entries ++ _
      rw [hr.scope]
      rfl
    | some n =>
      show (t.scope.declare n (t.opened + 1)).entries ++ _ = _
      rw [GroupScope.entries_declare, hr.scope, hr.opened, List.append_assoc]
      rfl

/-! ## All nodes of a tree

A statement about derived terms that ignores the states is one about the nodes of the tree. -/

/-- What holds of each term that is derived, and of each node that is no term, holds of all nodes of
a tree. -/
theorem Derives.forall_nodes {slice : Slice} {paired : Bool} {P : Node → Prop}
    (hterm : ∀ s e t, slice.Holds paired s.cursor → Derives g s (.term e) t → P (.term e))
    (hother : ∀ n : Node, (∀ e, n ≠ .term e) → P n) {x : Piece} (h : Derives g s x t)
    (hs : slice.Holds paired s.cursor) : ∀ n ∈ x.nodes, ∀ m ∈ n.descendants, P m := by
  have hself := h
  -- the nodes of a class are no terms
  have hclass : ∀ n : Node, n.insideClass → ∀ m ∈ n.descendants, P m := by
    intro n hn m hm
    refine hother m ?_
    rintro e rfl
    cases Node.insideClass_of_mem_descendants hn hm
  have hsingle : ∀ {n : Node}, (∀ m ∈ n.descendants, P m) →
      ∀ k ∈ [n], ∀ m ∈ k.descendants, P m := by
    intro n hn k hk
    rw [List.mem_singleton.mp hk]
    exact hn
  -- a term, given what holds of the nodes under it
  have hnode : ∀ {s t : State} {e : Term}, slice.Holds paired s.cursor → Derives g s (.term e) t →
      (∀ c ∈ (Node.term e).children, ∀ m ∈ c.descendants, P m) →
      ∀ k ∈ (Piece.term e).nodes, ∀ m ∈ k.descendants, P m := by
    intro s t e hs he hchildren
    exact hsingle (Node.forall_descendants.mpr ⟨hterm s e t hs he, hchildren⟩)
  have hset : ∀ (y : CharSet), ∀ c ∈ (Node.term (.set y)).children, ∀ m ∈ c.descendants, P m := by
    intro y
    exact (Node.forall_descendants.mp (hclass (.charSet y) rfl)).2
  have hleaf : ∀ {e : Term}, (Node.term e).children = [] →
      ∀ c ∈ (Node.term e).children, ∀ m ∈ c.descendants, P m := by
    intro e he c hc
    rw [he] at hc
    exact absurd hc List.not_mem_nil
  induction h with
  | termCharacter => exact hnode hs hself (hset _)
  | termEscape => exact hnode hs hself (hset _)
  | termClass => exact hnode hs hself (hset _)
  | any => exact hnode hs hself (hleaf rfl)
  | edge => exact hnode hs hself (hleaf rfl)
  | wordBoundary => exact hnode hs hself (hleaf rfl)
  | numbered => exact hnode hs hself (hleaf rfl)
  | named => exact hnode hs hself (hleaf rfl)
  | look _ hopen h _ ih =>
    refine hnode hs hself ?_
    rw [Node.children_look]
    exact ih (hs.trans hopen.cursor.reaches) h
  | group hopen h _ ih =>
    refine hnode hs hself ?_
    rw [Node.children_group_none]
    exact ih (hs.trans hopen.cursor.reaches) h
  | modifiedGroup _ hopen hm hcolon h _ ih =>
    refine hnode hs hself ?_
    rw [Node.children_group_some]
    intro c hc
    rcases List.mem_cons.mp hc with rfl | hc
    · intro n hn
      refine hother n ?_
      rintro e rfl
      exact Node.not_mem_descendants_modifiers hn
    · exact ih ((hs.trans hopen.cursor.reaches).trans (hm.reaches.trans hcolon.cursor.reaches)) h
        c hc
  | capture hopen _ h _ ih =>
    refine hnode hs hself ?_
    rw [Node.children_capture]
    exact ih (hs.trans hopen.cursor.reaches) h
  | namedCapture _ _ _ hopen h _ ih =>
    refine hnode hs hself ?_
    rw [Node.children_capture]
    exact ih (hs.trans hopen.cursor.reaches) h
  | quantified h _ _ ih =>
    refine hnode hs hself ?_
    rw [Node.children_quantified]
    exact ih hs h
  | noTerm => exact fun n hn => absurd hn List.not_mem_nil
  | consTerm h hes ih ihs =>
    intro n hn
    rcases List.mem_cons.mp hn with rfl | hn
    · exact ih hs h _ List.mem_cons_self
    · exact ihs (hs.trans h.reaches) hes n hn
  | sequence h ih =>
    refine hsingle (Node.forall_descendants.mpr ⟨hother _ nofun, ?_⟩)
    rw [Node.children_sequence]
    exact ih hs h
  | lastAlternative h ih => exact ih hs h
  | consAlternative h hbar hqs ih ihs =>
    intro n hn
    rcases List.mem_cons.mp hn with rfl | hn
    · exact ih hs h _ List.mem_cons_self
    · exact ihs ((hs.trans h.reaches).trans hbar.cursor.reaches) hqs n hn
  | disjunction h ih => exact ih hs h
  | noElement => exact fun n hn => absurd hn List.not_mem_nil
  | consElement h hxs ih ihs =>
    intro n hn
    rcases List.mem_cons.mp hn with rfl | hn
    · exact hclass _ rfl
    · exact ihs (hs.trans h.reaches) hxs n hn
  | _ => exact hsingle (hclass _ rfl)

end Derivations

/-- What holds of each term that is derived, of each node that is no term, and of what becomes of a
node when references are resolved, holds of all nodes of the pattern that a pass gives. -/
theorem Pattern.forall_nodes_of_pass {rule : DuplicateRule} {o : Options} {flags : FlagSet}
    {named : Bool} {slice : Slice} {paired : Bool} {p : Pattern} {scope : GroupScope}
    {P : Node → Prop}
    (hterm : ∀ s e t, slice.Holds paired s.cursor →
      Derives (grammarFor o flags named (slice.cursor paired)) s (.term e) t → P (.term e))
    (hother : ∀ n : Node, (∀ e, n ≠ .term e) → P n)
    (hresolve : ∀ f n, P n → P (n.resolve f))
    (h : pass rule o flags named (slice.cursor paired) = .ok (p, scope)) :
    ∀ n ∈ (Node.pattern p).descendants, P n := by
  obtain ⟨qs, t, hqs, -, -, rfl⟩ := derives_of_pass h
  have hall := hqs.forall_nodes hterm hother (slice.holds_cursor paired)
  intro n hn
  have hn : n ∈ ((Node.pattern ⟨_, qs⟩).resolve scope.indexes).descendants := hn
  rw [Node.descendants_resolve] at hn
  obtain ⟨m, hm, rfl⟩ := List.mem_map.mp hn
  apply hresolve
  rw [Node.descendants_eq, Node.children_pattern] at hm
  rcases List.mem_cons.mp hm with rfl | hm
  · exact hother _ nofun
  · obtain ⟨c, hc, hm⟩ := List.mem_flatMap.mp hm
    exact hall c hc m hm

end EcmaPattern
