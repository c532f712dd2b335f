import EcmaPattern.Text

/-!
# Editions and options

The editions of the language, what each of them added, and the options a caller chooses for a parse.

* A grammar difference between editions is data: each `Feature` names the first edition that has it,
  and `Edition.supports` compares the two. Since editions are ordered by their years,
  `Edition.supports_mono` holds by transitivity, and with it every statement about later editions.
* `Options` carries the proof that its nesting limit is positive, so options that were refused
  cannot be handed on. `Options.ofFields` and `Options.select` are the only places where options are
  checked.
-/

namespace EcmaPattern

/-! ## Editions

The editions of the language whose grammars are known, and the constructs that later editions added.
A grammar difference is data: each feature names the first edition that has it, and
`Edition.supports` compares the two. -/

/-- An edition of the language. -/
inductive Edition where
  | es5
  | es2015
  | es2016
  | es2017
  | es2018
  | es2019
  | es2020
  | es2021
  | es2022
  | es2023
  | es2024
  | es2025
  deriving DecidableEq

namespace Edition

def year : Edition → Nat
  | es5 => 5
  | es2015 => 2015
  | es2016 => 2016
  | es2017 => 2017
  | es2018 => 2018
  | es2019 => 2019
  | es2020 => 2020
  | es2021 => 2021
  | es2022 => 2022
  | es2023 => 2023
  | es2024 => 2024
  | es2025 => 2025

def all : List Edition :=
  [es5, es2015, es2016, es2017, es2018, es2019, es2020, es2021, es2022, es2023, es2024, es2025]

def latest : Edition := es2025

/-- Editions are ordered by their years. -/
instance : LE Edition := ⟨fun a b => a.year ≤ b.year⟩

instance (a b : Edition) : Decidable (a ≤ b) := inferInstanceAs (Decidable (a.year ≤ b.year))

def ofYear? (n : Int) : Option Edition := all.find? fun e => (e.year : Int) == n

end Edition

/-- A construct that some edition added. -/
inductive Feature where
  | stickyFlag
  | unicodeFlag
  | dotAllFlag
  | indicesFlag
  | unicodeSetsFlag
  | lookbehind
  | namedGroups
  | propertyEscapes
  | unicodeGroupNames
  | strictNamedReferences
  | propertiesOfStrings
  | duplicateNamedGroups
  | modifiers
  deriving DecidableEq

namespace Feature

def all : List Feature :=
  [stickyFlag, unicodeFlag, dotAllFlag, indicesFlag, unicodeSetsFlag, lookbehind, namedGroups,
    propertyEscapes, unicodeGroupNames, strictNamedReferences, propertiesOfStrings,
    duplicateNamedGroups, modifiers]

def name : Feature → String
  | stickyFlag => "flag_y"
  | unicodeFlag => "flag_u"
  | dotAllFlag => "flag_s"
  | indicesFlag => "flag_d"
  | unicodeSetsFlag => "flag_v"
  | lookbehind => "lookbehind"
  | namedGroups => "named_groups"
  | propertyEscapes => "property_escapes"
  | unicodeGroupNames => "unicode_group_names"
  | strictNamedReferences => "strict_named_references"
  | propertiesOfStrings => "properties_of_strings"
  | duplicateNamedGroups => "duplicate_named_groups"
  | modifiers => "modifiers"

def since : Feature → Edition
  | stickyFlag => .es2015
  | unicodeFlag => .es2015
  | dotAllFlag => .es2018
  | indicesFlag => .es2022
  | unicodeSetsFlag => .es2024
  | lookbehind => .es2018
  | namedGroups => .es2018
  | propertyEscapes => .es2018
  | unicodeGroupNames => .es2020
  | strictNamedReferences => .es2023
  | propertiesOfStrings => .es2024
  | duplicateNamedGroups => .es2025
  | modifiers => .es2025

end Feature

namespace Edition

def supports (e : Edition) (f : Feature) : Bool := f.since ≤ e

/-- A later edition keeps the features of an earlier one. -/
theorem supports_mono {a b : Edition} (h : a ≤ b) {f : Feature} (hf : a.supports f) :
    b.supports f := by
  simp only [supports, decide_eq_true_eq] at hf ⊢
  exact Nat.le_trans hf h

end Edition

/-- An edition as a caller asks for it: by default, by year, or by some other text, which names
none. -/
inductive EditionChoice where
  | latest
  | year (n : Int)
  | text (t : Text)

/-! ## Options

What a caller chooses for a parse: the edition, whether the web grammar is refused, and how deeply
groups and classes may nest. Options are checked when they are put together, so a value of `Options`
is always usable. -/

/-- Why options are refused. -/
inductive OptionError where
  /-- No edition has this name. -/
  | unknownEdition (asked : Text)
  /-- The nesting limit is below one. -/
  | depthNotPositive (depth : Int)
  /-- Options were given both ready-made and one by one. -/
  | givenTwice

def OptionError.message : OptionError → Text
  | unknownEdition asked => .ofString "'" ++ asked ++ .ofString "' is not a valid ECMA version"
  | depthNotPositive depth => .ofString s!"max_depth must be positive, got {depth}"
  | givenTwice => .ofString "Pass either options or keyword options, not both"

def Edition.choose : EditionChoice → Except OptionError Edition
  | .latest => .ok Edition.latest
  | .year n =>
    match Edition.ofYear? n with
    | some e => .ok e
    | none => .error (.unknownEdition (.ofString (toString n)))
  | .text t => .error (.unknownEdition t)

/-- Checked options. -/
structure Options where
  /-- The edition whose grammar is read. -/
  edition : Edition
  /-- Whether the extensions of the web grammar are refused. -/
  strict : Bool
  /-- How deeply groups and classes may nest. -/
  maxDepth : Nat
  maxDepth_pos : 0 < maxDepth

namespace Options

/-- Options as they are asked for, one by one; each may be left out. -/
structure Fields where
  edition : Option EditionChoice := none
  strict : Option Bool := none
  maxDepth : Option Int := none

def Fields.isEmpty (f : Fields) : Bool :=
  f.edition.isNone && f.strict.isNone && f.maxDepth.isNone

def defaultMaxDepth : Int := 64

/-- Checks options: first the edition, then the nesting limit. -/
def ofFields (f : Fields) : Except OptionError Options := do
  let edition ← Edition.choose (f.edition.getD .latest)
  let depth := f.maxDepth.getD defaultMaxDepth
  if h : 0 < depth then
    return ⟨edition, f.strict.getD false, depth.toNat, by omega⟩
  else
    throw (.depthNotPositive depth)

/-- The options in force when some may be given ready-made and some one by one: not both. -/
def select (ready : Option Options) (f : Fields) : Except OptionError Options :=
  match ready with
  | none => ofFields f
  | some o => if f.isEmpty then .ok o else .error .givenTwice

end Options

end EcmaPattern
