import EcmaPattern.CodePoint

/-!
# Group scopes

Which names capturing groups have been given so far, and where. A place in a pattern is the path of
alternatives from the root down to it. Two declarations of one name are allowed, in editions that
allow them at all, if they stand in different alternatives of one disjunction, since then no match
takes part in both.
-/

namespace EcmaPattern

abbrev GroupName := List CodePoint

/-- A disjunction, by serial number, and one of its alternatives, by position. -/
structure Fork where
  serial : Nat
  alternative : Nat
  deriving DecidableEq

/-- The forks taken from the root of a pattern down to a place in it. -/
abbrev ForkPath := List Fork

namespace ForkPath

/-- Whether two places lie in different alternatives of one disjunction: where their paths first
differ, they differ in the alternative only. -/
def separated : ForkPath → ForkPath → Bool
  | a :: as, b :: bs => if a = b then separated as bs else a.serial == b.serial
  | _, _ => false

end ForkPath

/-- A name that a capturing group was given. -/
structure Declaration where
  name : GroupName
  path : ForkPath
  /-- The number of the group. -/
  index : Nat
  deriving DecidableEq

/-- When one name may be given twice. -/
inductive DuplicateRule where
  /-- Never. -/
  | forbidden
  /-- In different alternatives of one disjunction. -/
  | separated
  /-- Always. -/
  | unchecked
  deriving DecidableEq

/-- The names given so far, and the place that has been reached. -/
structure GroupScope where
  rule : DuplicateRule
  /-- In the order in which the groups open. -/
  declarations : List Declaration
  path : ForkPath
  /-- How many disjunctions have been entered. -/
  entered : Nat
  deriving DecidableEq

namespace GroupScope

def empty (rule : DuplicateRule) : GroupScope := ⟨rule, [], [], 0⟩

def clear (s : GroupScope) : GroupScope := empty s.rule

def isEmpty (s : GroupScope) : Bool := s.declarations.isEmpty

def enterDisjunction (s : GroupScope) : GroupScope :=
  { s with path := s.path ++ [⟨s.entered + 1, 0⟩], entered := s.entered + 1 }

def enterAlternative (s : GroupScope) (alternative : Nat) : GroupScope :=
  match s.path.getLast? with
  | none => s
  | some fork => { s with path := s.path.dropLast ++ [{ fork with alternative }] }

def followingAlternative (s : GroupScope) : GroupScope :=
  match s.path.getLast? with
  | none => s
  | some fork => s.enterAlternative (fork.alternative + 1)

def leaveDisjunction (s : GroupScope) : GroupScope := { s with path := s.path.dropLast }

def declarationsOf (s : GroupScope) (name : GroupName) : List Declaration :=
  s.declarations.filter (·.name == name)

def declares (s : GroupScope) (name : GroupName) : Bool := s.declarations.any (·.name == name)

/-- Whether the name may not be given here, because of the groups that have it already. -/
def conflicts (s : GroupScope) (name : GroupName) : Bool :=
  match s.rule with
  | .forbidden => s.declares name
  | .separated => (s.declarationsOf name).any fun d => !d.path.separated s.path
  | .unchecked => false

def declare (s : GroupScope) (name : GroupName) (index : Nat) : GroupScope :=
  { s with declarations := s.declarations ++ [⟨name, s.path, index⟩] }

def indexes (s : GroupScope) (name : GroupName) : List Nat :=
  (s.declarationsOf name).map (·.index)

/-- The names given so far, each once, in the order in which they were first given. -/
def names (s : GroupScope) : List GroupName := (s.declarations.map (·.name)).eraseDups

end GroupScope

end EcmaPattern
