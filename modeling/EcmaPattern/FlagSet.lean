import EcmaPattern.Diagnostic
import EcmaPattern.Options

/-!
# Flags

The flags of a regular expression and how they are read from a text. Each flag may stand once, must
be known to the edition, and `u` and `v` exclude each other.
-/

namespace EcmaPattern

/-- A flag. -/
inductive Flag where
  | indices
  | global
  | ignoreCase
  | multiline
  | dotAll
  | unicode
  | unicodeSets
  | sticky
  deriving DecidableEq

namespace Flag

def all : List Flag :=
  [indices, global, ignoreCase, multiline, dotAll, unicode, unicodeSets, sticky]

def letter : Flag → Char
  | indices => 'd'
  | global => 'g'
  | ignoreCase => 'i'
  | multiline => 'm'
  | dotAll => 's'
  | unicode => 'u'
  | unicodeSets => 'v'
  | sticky => 'y'

def feature? : Flag → Option Feature
  | indices => some .indicesFlag
  | global => none
  | ignoreCase => none
  | multiline => none
  | dotAll => some .dotAllFlag
  | unicode => some .unicodeFlag
  | unicodeSets => some .unicodeSetsFlag
  | sticky => some .stickyFlag

def availableIn (e : Edition) (f : Flag) : Bool := f.feature?.all e.supports

def ofLetter? (c : CodePoint) : Option Flag := all.find? fun f => .ofChar f.letter == c

end Flag

/-- A set of flags. -/
structure FlagSet where
  indices : Bool := false
  global : Bool := false
  ignoreCase : Bool := false
  multiline : Bool := false
  dotAll : Bool := false
  unicode : Bool := false
  unicodeSets : Bool := false
  sticky : Bool := false
  deriving DecidableEq

namespace FlagSet

def ofList (fs : List Flag) : FlagSet where
  indices := fs.contains .indices
  global := fs.contains .global
  ignoreCase := fs.contains .ignoreCase
  multiline := fs.contains .multiline
  dotAll := fs.contains .dotAll
  unicode := fs.contains .unicode
  unicodeSets := fs.contains .unicodeSets
  sticky := fs.contains .sticky

/-- Whether patterns are read by code points: one of `u` and `v` is set. -/
def unicodeMode (f : FlagSet) : Bool := f.unicode || f.unicodeSets

/-- Reads flags in order, given those already seen with their offsets. A flag that was seen before
is refused as a duplicate, one that is unknown or not in the edition as invalid. -/
def collect (e : Edition) (seen : List (Flag × Nat)) (index : Nat) :
    List CodePoint → Except Fault (List (Flag × Nat))
  | [] => .ok seen
  | c :: rest =>
    match Flag.ofLetter? c with
    | none => .error ⟨.invalidFlag c, index⟩
    | some f =>
      if seen.any (·.1 == f) then .error ⟨.duplicatedFlag c, index⟩
      else if f.availableIn e then collect e (seen ++ [(f, index)]) (index + 1) rest
      else .error ⟨.invalidFlag c, index⟩

def offset? (seen : List (Flag × Nat)) (f : Flag) : Option Nat := seen.lookup f

/-- Reads a string of flags. The offset of a fault counts from the start of the string. -/
def read (e : Edition) (letters : List CodePoint) : Except Fault FlagSet := do
  let seen ← collect e [] 0 letters
  match offset? seen .unicode, offset? seen .unicodeSets with
  | some u, some v => throw ⟨.conflictingFlags, max u v⟩
  | _, _ => return ofList (seen.map (·.1))

end FlagSet

end EcmaPattern
