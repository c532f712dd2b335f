import EcmaPattern.Tree.Term

/-!
# Nodes

All parts of a tree that have a span, under one type, so that a tree can be walked and shown without
regard to what its parts are. A node has a `Kind`, by which hooks and records name it, and a span.
-/

namespace EcmaPattern

/-- The kinds of nodes. -/
inductive Kind where
  | literal
  | pattern
  | flags
  | alternative
  | group
  | capturingGroup
  | lookaround
  | edge
  | wordBoundary
  | quantifier
  | reference
  | anyCharacter
  | escapeSet
  | property
  | character
  | characterClass
  | expressionClass
  | range
  | classStrings
  | classString
  | intersection
  | subtraction
  | modifiers
  | modifierFlags
  deriving DecidableEq

def Kind.name : Kind → String
  | literal => "RegExpLiteral"
  | pattern => "Pattern"
  | flags => "Flags"
  | alternative => "Alternative"
  | group => "Group"
  | capturingGroup => "CapturingGroup"
  | lookaround => "LookaroundAssertion"
  | edge => "EdgeAssertion"
  | wordBoundary => "WordBoundaryAssertion"
  | quantifier => "Quantifier"
  | reference => "Backreference"
  | anyCharacter => "AnyCharacterSet"
  | escapeSet => "EscapeCharacterSet"
  | property => "UnicodePropertyCharacterSet"
  | character => "Character"
  | characterClass => "CharacterClass"
  | expressionClass => "ExpressionCharacterClass"
  | range => "CharacterClassRange"
  | classStrings => "ClassStringDisjunction"
  | classString => "StringAlternative"
  | intersection => "ClassIntersection"
  | subtraction => "ClassSubtraction"
  | modifiers => "Modifiers"
  | modifierFlags => "ModifierFlags"

/-- A part of a tree. -/
inductive Node where
  | literal (l : Literal)
  | pattern (p : Pattern)
  | flags (f : Flags)
  | sequence (s : Sequence)
  | term (t : Term)
  | charSet (s : CharSet)
  | classString (s : ClassString)
  | modifiers (m : Modifiers)
  | modifierFlags (m : ModifierFlags)

namespace CharSet

def kind : CharSet → Kind
  | character _ => .character
  | escape .. => .escapeSet
  | property .. => .property
  | range .. => .range
  | strings .. => .classStrings
  | operation _ .intersection _ _ => .intersection
  | operation _ .subtraction _ _ => .subtraction
  | listing .. => .characterClass
  | expression .. => .expressionClass

end CharSet

namespace Term

def kind : Term → Kind
  | set s => s.kind
  | any _ => .anyCharacter
  | edge .. => .edge
  | wordBoundary .. => .wordBoundary
  | look .. => .lookaround
  | group .. => .group
  | capture .. => .capturingGroup
  | reference .. => .reference
  | quantified .. => .quantifier

end Term

namespace Node

def kind : Node → Kind
  | literal _ => .literal
  | pattern _ => .pattern
  | flags _ => .flags
  | sequence _ => .alternative
  | term t => t.kind
  | charSet s => s.kind
  | classString _ => .classString
  | modifiers _ => .modifiers
  | modifierFlags _ => .modifierFlags

def span : Node → Span
  | literal l => l.span
  | pattern p => p.span
  | flags f => f.span
  | sequence s => s.span
  | term t => t.span
  | charSet s => s.span
  | classString s => s.span
  | modifiers m => m.span
  | modifierFlags m => m.span

/-- Whether a node can match a string that is not a single character. -/
def mayContainStrings : Node → Bool
  | charSet s => s.mayContainStrings
  | term (.set s) => s.mayContainStrings
  | _ => false

end Node

end EcmaPattern
