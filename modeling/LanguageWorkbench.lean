import LanguageWorkbench.Automaton
import LanguageWorkbench.Bindings
import LanguageWorkbench.Code
import LanguageWorkbench.Error
import LanguageWorkbench.Expectation
import LanguageWorkbench.Fault
import LanguageWorkbench.Grammar.Analysis
import LanguageWorkbench.Grammar.Basic
import LanguageWorkbench.Grammar.Check
import LanguageWorkbench.Grammar.Load
import LanguageWorkbench.Grammar.Resolve
import LanguageWorkbench.Identifier
import LanguageWorkbench.Language
import LanguageWorkbench.Language.Basic
import LanguageWorkbench.Lexicon
import LanguageWorkbench.Location
import LanguageWorkbench.Lowered.Basic
import LanguageWorkbench.Lowered.OfGrammar
import LanguageWorkbench.NatSet
import LanguageWorkbench.Node.Basic
import LanguageWorkbench.Node.Store
import LanguageWorkbench.Note
import LanguageWorkbench.Parser
import LanguageWorkbench.Pattern.Basic
import LanguageWorkbench.Pattern.ByteForm
import LanguageWorkbench.Pattern.ClassReader
import LanguageWorkbench.Pattern.ClassSet
import LanguageWorkbench.Pattern.Compile
import LanguageWorkbench.Pattern.Engine
import LanguageWorkbench.Pattern.Escape
import LanguageWorkbench.Pattern.Footprint
import LanguageWorkbench.Pattern.Matcher
import LanguageWorkbench.Pattern.Program
import LanguageWorkbench.Pattern.Reader
import LanguageWorkbench.Policy
import LanguageWorkbench.Proofs.Acceptance
import LanguageWorkbench.Proofs.Aliases
import LanguageWorkbench.Proofs.Alternatives
import LanguageWorkbench.Proofs.Ambiguity
import LanguageWorkbench.Proofs.Atomicity
import LanguageWorkbench.Proofs.Beginnings
import LanguageWorkbench.Proofs.Bodies
import LanguageWorkbench.Proofs.BodyTexts
import LanguageWorkbench.Proofs.Building
import LanguageWorkbench.Proofs.Canonical
import LanguageWorkbench.Proofs.CanonicalNames
import LanguageWorkbench.Proofs.CanonicalTable
import LanguageWorkbench.Proofs.Choices
import LanguageWorkbench.Proofs.Collapsing
import LanguageWorkbench.Proofs.Collection
import LanguageWorkbench.Proofs.Compiling
import LanguageWorkbench.Proofs.Conflicts
import LanguageWorkbench.Proofs.Conservation
import LanguageWorkbench.Proofs.Constructing
import LanguageWorkbench.Proofs.Contents
import LanguageWorkbench.Proofs.Cutting
import LanguageWorkbench.Proofs.Dependents
import LanguageWorkbench.Proofs.Derivation
import LanguageWorkbench.Proofs.Driving
import LanguageWorkbench.Proofs.EmptyTexts
import LanguageWorkbench.Proofs.ErrorDetection
import LanguageWorkbench.Proofs.ExactFirsts
import LanguageWorkbench.Proofs.Feeding
import LanguageWorkbench.Proofs.Findings
import LanguageWorkbench.Proofs.First
import LanguageWorkbench.Proofs.Flawless
import LanguageWorkbench.Proofs.Inference
import LanguageWorkbench.Proofs.Interning
import LanguageWorkbench.Proofs.ItemSets
import LanguageWorkbench.Proofs.Kinds
import LanguageWorkbench.Proofs.Layout
import LanguageWorkbench.Proofs.Lines
import LanguageWorkbench.Proofs.Links
import LanguageWorkbench.Proofs.LiteralPrograms
import LanguageWorkbench.Proofs.Literals
import LanguageWorkbench.Proofs.LocalPrograms
import LanguageWorkbench.Proofs.Locality
import LanguageWorkbench.Proofs.Lowering
import LanguageWorkbench.Proofs.Matching
import LanguageWorkbench.Proofs.MaximalMunch
import LanguageWorkbench.Proofs.Membership
import LanguageWorkbench.Proofs.Naming
import LanguageWorkbench.Proofs.Numbering
import LanguageWorkbench.Proofs.OnePass
import LanguageWorkbench.Proofs.Outcome
import LanguageWorkbench.Proofs.Outlines
import LanguageWorkbench.Proofs.Parameters
import LanguageWorkbench.Proofs.ParentKinds
import LanguageWorkbench.Proofs.PatternSplits
import LanguageWorkbench.Proofs.Positions
import LanguageWorkbench.Proofs.Preservation
import LanguageWorkbench.Proofs.Printing
import LanguageWorkbench.Proofs.Productions
import LanguageWorkbench.Proofs.Reachability
import LanguageWorkbench.Proofs.Realms
import LanguageWorkbench.Proofs.Rebuilding
import LanguageWorkbench.Proofs.Recognition
import LanguageWorkbench.Proofs.ReductionBound
import LanguageWorkbench.Proofs.Reparsing
import LanguageWorkbench.Proofs.Rereading
import LanguageWorkbench.Proofs.Resolving
import LanguageWorkbench.Proofs.Saturation
import LanguageWorkbench.Proofs.Scratch
import LanguageWorkbench.Proofs.Sentences
import LanguageWorkbench.Proofs.Serving
import LanguageWorkbench.Proofs.Settling
import LanguageWorkbench.Proofs.Sharing
import LanguageWorkbench.Proofs.Slots
import LanguageWorkbench.Proofs.Spacing
import LanguageWorkbench.Proofs.Spelling
import LanguageWorkbench.Proofs.Splitting
import LanguageWorkbench.Proofs.SuffixTags
import LanguageWorkbench.Proofs.Table
import LanguageWorkbench.Proofs.Termination
import LanguageWorkbench.Proofs.Tokenizing
import LanguageWorkbench.Proofs.TreeGrowth
import LanguageWorkbench.Proofs.TreeMatches
import LanguageWorkbench.Proofs.TreeRuns
import LanguageWorkbench.Proofs.Unambiguity
import LanguageWorkbench.Proofs.UniqueNames
import LanguageWorkbench.Proofs.ValidChoices
import LanguageWorkbench.Proofs.Values
import LanguageWorkbench.Proofs.ViablePrefixes
import LanguageWorkbench.Proofs.WellFormed
import LanguageWorkbench.Regex
import LanguageWorkbench.Schema
import LanguageWorkbench.Source.Basic
import LanguageWorkbench.Source.Element
import LanguageWorkbench.Source.Names
import LanguageWorkbench.Source.Reader
import LanguageWorkbench.Table.Basic
import LanguageWorkbench.Table.Build
import LanguageWorkbench.Table.Collection
import LanguageWorkbench.Table.First
import LanguageWorkbench.Table.Items
import LanguageWorkbench.Text.Blank
import LanguageWorkbench.Text.CharSet
import LanguageWorkbench.Text.Letter
import LanguageWorkbench.Text.LetterCase
import LanguageWorkbench.Text.Printable
import LanguageWorkbench.Text.Quoted
import LanguageWorkbench.Text.WordCharacter
import LanguageWorkbench.TreeBuilder
import LanguageWorkbench.Workspace
