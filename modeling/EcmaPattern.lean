import EcmaPattern.CodePoint
import EcmaPattern.Text
import EcmaPattern.Text.Quoted
import EcmaPattern.Text.Lowercase
import EcmaPattern.Options
import EcmaPattern.Identifier
import EcmaPattern.Property
import EcmaPattern.Diagnostic
import EcmaPattern.FlagSet
import EcmaPattern.Cursor
import EcmaPattern.Window
import EcmaPattern.GroupScope
import EcmaPattern.Tree.Term
import EcmaPattern.Tree.Node
import EcmaPattern.Tree.Record
import EcmaPattern.Tree.Traversal
import EcmaPattern.Grammar.Parser
import EcmaPattern.Grammar.Escape
import EcmaPattern.Grammar.Term
import EcmaPattern.Grammar.CharClass
import EcmaPattern.Grammar.Pattern
import EcmaPattern.Routine
import EcmaPattern.Routine.Escape
import EcmaPattern.Routine.CharClass
import EcmaPattern.Routine.Term
import EcmaPattern.Routine.Pattern
import EcmaPattern.Parse
import EcmaPattern.Proofs.Characters
import EcmaPattern.Proofs.Reading
import EcmaPattern.Proofs.Outcome
import EcmaPattern.Proofs.Spelling
import EcmaPattern.Proofs.Derivation
import EcmaPattern.Proofs.Derivation.Classes
import EcmaPattern.Proofs.Derivation.Terms
import EcmaPattern.Proofs.Progress
import EcmaPattern.Proofs.Pairing
import EcmaPattern.Proofs.Pairing.Losses
import EcmaPattern.Proofs.Pairing.Classes
import EcmaPattern.Proofs.Pairing.Terms
import EcmaPattern.Proofs.Passes
import EcmaPattern.Proofs.Resolution
import EcmaPattern.Proofs.Tiling
import EcmaPattern.Proofs.Captures
import EcmaPattern.Proofs.Nesting
import EcmaPattern.Proofs.FlatScan
import EcmaPattern.Proofs.Scan
import EcmaPattern.Proofs.Relaxation
import EcmaPattern.Proofs.Relaxation.Classes
import EcmaPattern.Proofs.Relaxation.Names
import EcmaPattern.Proofs.Relaxation.Terms
import EcmaPattern.Proofs.Relaxation.Passes
import EcmaPattern.Proofs.NamedReferences
import EcmaPattern.Proofs.Strictness
import EcmaPattern.Proofs.Agreement
import EcmaPattern.Proofs.Agreement.Names
import EcmaPattern.Proofs.Agreement.Classes
import EcmaPattern.Proofs.Agreement.Terms
import EcmaPattern.Proofs.Agreement.References
import EcmaPattern.Proofs.CodePointStrictness
import EcmaPattern.Proofs.StrictReferences
import EcmaPattern.Proofs.Editions
import EcmaPattern.Proofs.Sessions
import EcmaPattern.Proofs.Interpretation
import EcmaPattern.Proofs.LiteralBody
import EcmaPattern.Proofs.Translation
import EcmaPattern.Proofs.Slices
import EcmaPattern.Proofs.SetGrammar
import EcmaPattern.Proofs.SetGrammar.Characters
import EcmaPattern.Proofs.SetGrammar.Operands
import EcmaPattern.Proofs.SetGrammar.Classes
import EcmaPattern.Proofs.SetGrammar.Patterns
import EcmaPattern.Proofs.ResolvedReferences
import EcmaPattern.Proofs.NestingLimit
import EcmaPattern.Proofs.NestingLimit.Terms
import EcmaPattern.Proofs.NestingLimit.Answers
import EcmaPattern.Proofs.GroupPlaces
import EcmaPattern.Proofs.DuplicateNames
import EcmaPattern.Proofs.DuplicateNames.Answers
import EcmaPattern.Proofs.Fragments
import EcmaPattern.Proofs.Fragments.Numbers
import EcmaPattern.Proofs.Fragments.Terms
import EcmaPattern.Proofs.Fragments.Origins
import EcmaPattern.Proofs.Fragments.Constructs
import EcmaPattern.Proofs.Fragments.Answers
import EcmaPattern.Proofs.Extension
import EcmaPattern.Proofs.Extension.Terms
import EcmaPattern.Proofs.Extension.Passes
import EcmaPattern.Proofs.Composition
import EcmaPattern.Proofs.Forms
import EcmaPattern.Proofs.Forms.Atoms
import EcmaPattern.Proofs.Forms.Answers
import EcmaPattern.Proofs.FaultPlaces
import EcmaPattern.Proofs.FaultPlaces.Answers
import EcmaPattern.Proofs.Traces
import EcmaPattern.Proofs.Traces.Classes
import EcmaPattern.Proofs.Traces.Terms
import EcmaPattern.Proofs.Traces.Answers
import EcmaPattern.Proofs.CharacterValues
import EcmaPattern.Proofs.CharacterValues.Answers
import EcmaPattern.Proofs.FeatureGates
import EcmaPattern.Proofs.QuantifierText
import EcmaPattern.Proofs.QuantifierText.Answers
import EcmaPattern.Proofs.FlagText
import EcmaPattern.Proofs.PatternEnds
import EcmaPattern.Proofs.NameModes
import EcmaPattern.Proofs.NameModes.Decoding
import EcmaPattern.Proofs.RangeGrammar
import EcmaPattern.Proofs.RangeGrammar.Classes
import EcmaPattern.Proofs.Traversal
import EcmaPattern.Proofs.Window
import EcmaPattern.Proofs.Utf16
import EcmaPattern.Proofs.Routines
import EcmaPattern.Proofs.Routines.Escapes
import EcmaPattern.Proofs.Routines.Classes
import EcmaPattern.Proofs.Routines.Terms
import EcmaPattern.Proofs.Routines.Patterns
import EcmaPattern.Proofs.Routines.Backtracking
