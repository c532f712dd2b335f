import EcmaPattern.Text.Lowercase
import EcmaPattern.Tree.Record

/-!
# Traversal

Walks over a tree, depth first. A handler is told when a node is entered and when it is left, by the
hooks it has; `Node.visit` gives the calls that it gets. A walk comes to the parts of a node in the
order in which they start, whatever the order in which they are declared: `Node.inOrder_perm` says
that it comes to all of them, and `Node.visit_eq` unrolls a walk by one level.

Walks recurse on the tree, and nothing but the tree bounds the recursion: the model has no call
stack that a deep tree could exhaust. A program that runs out of stack on a walk is outside of it.
-/

namespace EcmaPattern

/-! ## Names in snake case

Hooks are named for kinds of nodes, whose names are written with a capital at each word. In snake
case an underscore goes before each capital but the first character, and all is in lower case. -/

def underscored : List Char → List Char
  | [] => []
  | c :: rest => if c.isUpper then '_' :: c :: underscored rest else c :: underscored rest

def snakeCase (name : String) : String :=
  match name.toList with
  | [] => ""
  | c :: rest => .ofList (Casing.lower (c :: underscored rest))

/-! ## Walks

A hook is found by its name, and a handler need not have all of them. The parts of a node are
declared in an order of their own, which for a group with modifiers is not that of the text, so they
are sorted. -/

/-- The two times at which a handler is called for a node. -/
inductive Moment where
  | enter
  | leave
  deriving DecidableEq

def hookName (k : Kind) (m : Moment) : String :=
  let suffix := match m with
    | .enter => "_enter"
    | .leave => "_leave"
  "on_" ++ snakeCase k.name ++ suffix

/-- A call of a hook. -/
structure Call where
  moment : Moment
  node : Node

def Call.hook (c : Call) : String := hookName c.node.kind c.moment

namespace Node

/-- The parts of a node in the order in which they are declared. The alternatives of a group are
declared before its modifiers, which stand before them in the text. -/
def declared : Node → List Node
  | term (.group _ (some m) alternatives) => alternatives.map sequence ++ [modifiers m]
  | n => n.children

/-- The parts of a node in the order in which a walk comes to them: by the offsets at which they
start. Parts that start together stay in the order in which they are declared. -/
def inOrder (n : Node) : List Node :=
  -- the sort is stable
  n.declared.mergeSort fun a b => a.span.start ≤ b.span.start

/-- The declared parts are the children, if in another order. -/
theorem declared_perm (n : Node) : n.declared.Perm n.children := by
  unfold declared
  split
  · next span m alternatives =>
    have hchildren : (term (.group span (some m) alternatives)).children =
        modifiers m :: (alternatives.map sequence ++ []) := rfl
    rw [hchildren, List.append_nil]
    exact List.perm_append_singleton _ _
  · exact .refl _

/-- A walk comes to all children, each of them once. -/
theorem inOrder_perm (n : Node) : n.inOrder.Perm n.children :=
  (List.mergeSort_perm _ _).trans n.declared_perm

def callOf (has : String → Bool) (m : Moment) (n : Node) : List Call :=
  if has (hookName n.kind m) then [⟨m, n⟩] else []

/-- The calls that a handler gets on a walk: on entering a node, for each of its parts in turn, and
on leaving it. Hooks that the handler does not have are passed over. -/
def visit (has : String → Bool) (n : Node) : List Call :=
  n.callOf has .enter ++ (n.inOrder.attach.flatMap fun ⟨c, _⟩ => c.visit has) ++
    n.callOf has .leave
termination_by sizeOf n
decreasing_by
  exact sizeOf_lt_of_mem_children (n.inOrder_perm.subset ‹_›)

/-- A walk is the call on entering, the walks over the parts in their order, and the call on
leaving. -/
theorem visit_eq (has : String → Bool) (n : Node) :
    n.visit has =
      n.callOf has .enter ++ n.inOrder.flatMap (visit has) ++ n.callOf has .leave := by
  rw [visit, List.flatMap_subtype (g := visit has) (fun _ _ => rfl), List.unattach_attach]

/-- All nodes of a tree, each before its children. -/
def descendants (n : Node) : List Node :=
  n :: n.children.attach.flatMap fun ⟨c, _⟩ => c.descendants
termination_by sizeOf n
decreasing_by
  exact sizeOf_lt_of_mem_children ‹_›

/-- The nodes of a tree are its root and the nodes below each child. -/
theorem descendants_eq (n : Node) : n.descendants = n :: n.children.flatMap descendants := by
  rw [descendants, List.flatMap_subtype (g := descendants) (fun _ _ => rfl), List.unattach_attach]

end Node

end EcmaPattern
