import GoExcerpt.Collected
import GoExcerpt.CommandLine.Arguments
import GoExcerpt.CommandLine.Json
import GoExcerpt.CommandLine.Run
import GoExcerpt.Config
import GoExcerpt.Declaration
import GoExcerpt.Document
import GoExcerpt.Extract
import GoExcerpt.Fault
import GoExcerpt.FileSystem
import GoExcerpt.Index
import GoExcerpt.Load.Constraint
import GoExcerpt.Load.Discover
import GoExcerpt.Load.Glob
import GoExcerpt.Load.Ignore
import GoExcerpt.Load.Module
import GoExcerpt.Main
import GoExcerpt.Manifest
import GoExcerpt.Path
import GoExcerpt.Proofs.CallGraph
import GoExcerpt.Resolve.Calls
import GoExcerpt.Resolve.Imports
import GoExcerpt.Resolve.Scope
import GoExcerpt.Resolve.TypeEnv
import GoExcerpt.Resolve.Types
import GoExcerpt.Resolve.Unit
import GoExcerpt.Excerpt
import GoExcerpt.Symbol
import GoExcerpt.Syntax.Grammar
import GoExcerpt.Syntax.Kind
import GoExcerpt.Syntax.Lexeme
import GoExcerpt.Syntax.Number
import GoExcerpt.Syntax.Position
import GoExcerpt.Syntax.Rules.Expressions
import GoExcerpt.Syntax.Rules.Statements
import GoExcerpt.Syntax.Rules.Types
import GoExcerpt.Syntax.SourceFile
import GoExcerpt.Syntax.Tree
import GoExcerpt.Text.Blank
import GoExcerpt.Text.Identifier
import GoExcerpt.Text.Split
import GoExcerpt.Toml.Reader
import GoExcerpt.Toml.Scalar
import GoExcerpt.Toml.Value
import GoExcerpt.Toml.Writer
import GoExcerpt.Walk
import GoExcerpt.Detour
import GoExcerpt.Proofs.Trace
import GoExcerpt.Proofs.Replay
import GoExcerpt.Proofs.WalkTrace
import GoExcerpt.Proofs.WalkFailure
import GoExcerpt.Proofs.WalkText
import GoExcerpt.Proofs.WalkDepth
import GoExcerpt.Proofs.ExcludedRoot
import GoExcerpt.Proofs.Declared
import GoExcerpt.Proofs.Loaded
import GoExcerpt.Proofs.Indexing
import GoExcerpt.Proofs.Membership
import GoExcerpt.Proofs.Layout
import GoExcerpt.Proofs.Locate
import GoExcerpt.Proofs.Variables
import GoExcerpt.Proofs.Naming
import GoExcerpt.Proofs.Places
import GoExcerpt.Proofs.Lexemes
import GoExcerpt.Proofs.Reading
import GoExcerpt.Proofs.Items
import GoExcerpt.Proofs.Excerpts
import GoExcerpt.Proofs.Reread
import GoExcerpt.Proofs.PathSpelling
import GoExcerpt.Proofs.Selectors
import GoExcerpt.Proofs.Listed
import GoExcerpt.Proofs.WrittenTypes
import GoExcerpt.Proofs.Nesting
import GoExcerpt.Proofs.Bindings
import GoExcerpt.Proofs.Environments
import GoExcerpt.Proofs.Scoping
import GoExcerpt.Proofs.Initializers
import GoExcerpt.Proofs.Uncommented
import GoExcerpt.Proofs.Numbers
import GoExcerpt.Proofs.Scanning
import GoExcerpt.Proofs.LineEnds
import GoExcerpt.Proofs.Unbroken
import GoExcerpt.Proofs.Blanking
import GoExcerpt.Proofs.Lexical
import GoExcerpt.Proofs.Counted
import GoExcerpt.Proofs.Told
import GoExcerpt.Proofs.Comments
import GoExcerpt.Proofs.ByteOrder
import GoExcerpt.Proofs.Discovered
import GoExcerpt.Proofs.PathNames
import GoExcerpt.Proofs.Partition
import GoExcerpt.Proofs.Directories
import GoExcerpt.Proofs.LineRanges
import GoExcerpt.Proofs.SourceText
import GoExcerpt.Proofs.WholeLines
import GoExcerpt.Proofs.Toml.Strings
import GoExcerpt.Proofs.Toml.Values
import GoExcerpt.Proofs.Toml.Documents
import GoExcerpt.Proofs.WrittenFiles
import GoExcerpt.Proofs.SavedSettings
import GoExcerpt.Proofs.Detours
import GoExcerpt.Proofs.Entering
import GoExcerpt.Proofs.FileOrder
import GoExcerpt.Proofs.ManifestLines
import GoExcerpt.Proofs.ManifestText
import GoExcerpt.Proofs.Worklist
import GoExcerpt.Proofs.Fences
import GoExcerpt.Proofs.Runs
import GoExcerpt.Proofs.Documentation
import GoExcerpt.Proofs.Bodies
import GoExcerpt.Proofs.FirstCalls
import GoExcerpt.Proofs.Verbatim
import GoExcerpt.Proofs.EntryLookup
import GoExcerpt.Proofs.SourceRule
import GoExcerpt.Proofs.LastDeclared
import GoExcerpt.Proofs.ListingOrder
import GoExcerpt.Proofs.DisplayForms
import GoExcerpt.Proofs.CallOrder
import GoExcerpt.Proofs.PackageClause
import GoExcerpt.Proofs.FieldChains
