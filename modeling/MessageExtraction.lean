import MessageExtraction.Catalog
import MessageExtraction.CommandLine.Arguments
import MessageExtraction.CommandLine.Commands
import MessageExtraction.CommandLine.Markup
import MessageExtraction.CommandLine.Output
import MessageExtraction.Extraction.Log
import MessageExtraction.Extraction.Recognizers
import MessageExtraction.Extraction.Run
import MessageExtraction.Extraction.State
import MessageExtraction.Fault
import MessageExtraction.FileSystem.Basic
import MessageExtraction.FileSystem.Snapshot
import MessageExtraction.FileSystem.Write
import MessageExtraction.Folding.Fold
import MessageExtraction.Folding.Rules
import MessageExtraction.Ignore.Glob
import MessageExtraction.Ignore.Rule
import MessageExtraction.Ignore.Rules
import MessageExtraction.Json.Basic
import MessageExtraction.Json.Printer
import MessageExtraction.Json.Reader
import MessageExtraction.Language
import MessageExtraction.Message.Basic
import MessageExtraction.Message.Catalog
import MessageExtraction.Message.Complaint
import MessageExtraction.Message.Descriptor
import MessageExtraction.Number.Binary
import MessageExtraction.Number.Literal
import MessageExtraction.Number.Shortest
import MessageExtraction.Number.Written
import MessageExtraction.Options
import MessageExtraction.Path
import MessageExtraction.Pattern.Basic
import MessageExtraction.Pattern.Parser
import MessageExtraction.Pattern.Printer
import MessageExtraction.Project.Emission
import MessageExtraction.Project.Run
import MessageExtraction.Project.Walk
import MessageExtraction.Project.Walker
import MessageExtraction.Scope.Binding
import MessageExtraction.Scope.Declarations
import MessageExtraction.Scope.Lookup
import MessageExtraction.Settings.Basic
import MessageExtraction.Settings.Document
import MessageExtraction.Text.Basic
import MessageExtraction.Text.Blank
import MessageExtraction.Text.CharacterReference
import MessageExtraction.Text.Digit
import MessageExtraction.Text.Escape
import MessageExtraction.Text.Lines
import MessageExtraction.Text.NamedReference
import MessageExtraction.Text.Printable
import MessageExtraction.Text.Quoted
import MessageExtraction.Text.Utf8
import MessageExtraction.Tree.Basic
import MessageExtraction.Tree.Literal
import MessageExtraction.Tree.Rejection
import MessageExtraction.Tree.Source
import MessageExtraction.Validation
import MessageExtraction.Value.Arithmetic
import MessageExtraction.Value.Basic
import MessageExtraction.Value.Equality
import MessageExtraction.Value.Shown
import MessageExtraction.Main
import MessageExtraction.Proofs.Number.Decimal
import MessageExtraction.Proofs.Pattern.Scan
import MessageExtraction.Proofs.Pattern.Parts
import MessageExtraction.Proofs.Pattern.Escapes
import MessageExtraction.Proofs.Pattern.Shape
import MessageExtraction.Proofs.Pattern.ReadBack
import MessageExtraction.Proofs.Pattern.Reread
import MessageExtraction.Proofs.Pattern.RoundTrip
import MessageExtraction.Proofs.Pattern.Canonical
import MessageExtraction.Proofs.Catalog.Put
import MessageExtraction.Proofs.Extraction.DefaultMessages
import MessageExtraction.Proofs.Project.Accounting
import MessageExtraction.Proofs.Scope.Declarators
import MessageExtraction.Proofs.Folding.Derivation
import MessageExtraction.Proofs.Folding.Exactness
import MessageExtraction.Proofs.Pattern.Acceptance
import MessageExtraction.Proofs.Scope.Writes
import MessageExtraction.Proofs.Catalog.FirstDeclarations
import MessageExtraction.Proofs.Extraction.Declarations
import MessageExtraction.Proofs.Extraction.Traversal
import MessageExtraction.Proofs.Extraction.Removals
import MessageExtraction.Proofs.Scope.Shadowing
import MessageExtraction.Proofs.Scope.Hoisting
import MessageExtraction.Proofs.Catalog.Invariant
import MessageExtraction.Proofs.Extraction.Growth
import MessageExtraction.Proofs.Extraction.Retraversal
import MessageExtraction.Proofs.FileSystem.Faces
import MessageExtraction.Proofs.FileSystem.Resolution
import MessageExtraction.Proofs.FileSystem.Evolution
import MessageExtraction.Proofs.Json.Encoding
import MessageExtraction.Proofs.Path
import MessageExtraction.Proofs.Project.Emission
import MessageExtraction.Proofs.Project.Walk
import MessageExtraction.Proofs.Project.Walker
import MessageExtraction.Proofs.Project.Catalogs
import MessageExtraction.Proofs.Extraction.Noninterference
import MessageExtraction.Proofs.Json.Data
import MessageExtraction.Proofs.Value.Equality
import MessageExtraction.Proofs.Catalog.Permutation
import MessageExtraction.Proofs.Number.Magnitude
import MessageExtraction.Proofs.Number.Rounding
import MessageExtraction.Proofs.Number.Shortest
import MessageExtraction.Proofs.Number.Numerals
import MessageExtraction.Proofs.Json.Scalars
import MessageExtraction.Proofs.Json.Grammar
import MessageExtraction.Proofs.Json.Conformance
import MessageExtraction.Proofs.Json.Tokens
import MessageExtraction.Proofs.Json.ReadBack
import MessageExtraction.Proofs.Message.RoundTrip
import MessageExtraction.Proofs.Project.CatalogText
import MessageExtraction.Proofs.Project.Totals
import MessageExtraction.Proofs.Ignore.Defaults
import MessageExtraction.Proofs.Value.Operations
import MessageExtraction.Proofs.Folding.Faults
import MessageExtraction.Proofs.Folding.Plainness
import MessageExtraction.Proofs.Folding.Readable
import MessageExtraction.Proofs.FileSystem.Linkless
import MessageExtraction.Proofs.FileSystem.Directories
import MessageExtraction.Proofs.Project.WalkOrder
import MessageExtraction.Proofs.Project.Additions
import MessageExtraction.Proofs.Project.Turns
import MessageExtraction.Proofs.Project.Counting
import MessageExtraction.Proofs.Project.Rerun
import MessageExtraction.Proofs.Extraction.Wrappers
import MessageExtraction.Proofs.Folding.Arrays
import MessageExtraction.Proofs.Folding.Redeclarations
import MessageExtraction.Folding.Memory
import MessageExtraction.Proofs.Folding.Memory
import MessageExtraction.Proofs.Project.Eligibility
import MessageExtraction.Proofs.Catalog.Conflicts
import MessageExtraction.Proofs.Pattern.Beginnings
import MessageExtraction.Proofs.Pattern.Errors
import MessageExtraction.Proofs.Pattern.Unreadable
import MessageExtraction.Proofs.Path.Mirroring
import MessageExtraction.Proofs.Text.Utf8
import MessageExtraction.Proofs.Text.Digits
import MessageExtraction.Proofs.Tree.Positions
import MessageExtraction.Proofs.Tree.Strings
import MessageExtraction.Proofs.Number.Spellings
import MessageExtraction.Proofs.Tree.Frames
import MessageExtraction.Proofs.Extraction.RemovalOrder
import MessageExtraction.Proofs.Scope.Patterns
