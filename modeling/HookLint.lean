import HookLint.Text.Slice
import HookLint.Text.Blank
import HookLint.Syntax.Kind
import HookLint.Syntax.Tree
import HookLint.Syntax.Site
import HookLint.Syntax.Wrapper
import HookLint.Syntax.Expression
import HookLint.Scope.Graph
import HookLint.Scope.Outline
import HookLint.Scope.Events
import HookLint.Scope.Build
import HookLint.Text.Case
import HookLint.Text.Position
import HookLint.Diagnostic.Severity
import HookLint.Diagnostic.Basic
import HookLint.Diagnostic.Report
import HookLint.Format.Json
import HookLint.Format.JsonReader
import HookLint.Format.Record
import HookLint.Dependency.Path
import HookLint.Dependency.Read
import HookLint.Diagnostic.Encode
import HookLint.Diagnostic.Decode
import HookLint.Files.Path
import HookLint.Syntax.Language
import HookLint.Text.Word
import HookLint.Hook.Pattern
import HookLint.Hook.PatternReader
import HookLint.Hook.Convention
import HookLint.Hook.Call
import HookLint.Dependency.Stability
import HookLint.Dependency.Declared
import HookLint.Dependency.Diff
import HookLint.Dependency.ArrayText
import HookLint.Dependency.Message
import HookLint.Dependency.Analysis
import HookLint.Config.Basic
import HookLint.Config.Decode
import HookLint.Rule.Basic
import HookLint.Rule.Summary
import HookLint.Rule.Engine
import HookLint.Fix.Apply
import HookLint.Fix.Patch
import HookLint.Fix.Source
import HookLint.Format.Sha256
import HookLint.Report.Text
import HookLint.Report.Sarif
import HookLint.Report.Format
import HookLint.Format.Toml
import HookLint.Format.TomlReader
import HookLint.Files.Glob
import HookLint.Files.Ignore
import HookLint.Files.Disk
import HookLint.Files.Sources
import HookLint.Config.Load
import HookLint.Command.Arguments
import HookLint.Command.Session
import HookLint.Command.Check
import HookLint.Command.Fix
import HookLint.Command.Init
import HookLint.Command.Run
import HookLint.Command.Snapshot
import HookLint.Main
import HookLint.Proofs.Sites
import HookLint.Proofs.Numbering
import HookLint.Proofs.Contributions
import HookLint.Proofs.Walk
import HookLint.Proofs.Once
import HookLint.Proofs.Visits
import HookLint.Proofs.Building
import HookLint.Proofs.Nesting
import HookLint.Proofs.FreeVariables
import HookLint.Proofs.Arguments
import HookLint.Proofs.Paths
import HookLint.Proofs.Spelling
import HookLint.Proofs.Settled
import HookLint.Proofs.Lines
import HookLint.Proofs.ArrayLiteral
import HookLint.Proofs.ArrayRows
import HookLint.Proofs.ArrayReading
import HookLint.Proofs.ArrayUpdate
import HookLint.Proofs.Edit.Reads
import HookLint.Proofs.Binders
import HookLint.Proofs.Declarations
import HookLint.Proofs.Resolution
import HookLint.Proofs.Arena
import HookLint.Proofs.Disk
import HookLint.Proofs.Passes
import HookLint.Proofs.Edit.Stability
import HookLint.Proofs.Edit.Requirements
import HookLint.Proofs.Comparison
import HookLint.Proofs.Replacements
import HookLint.Proofs.Innermost
import HookLint.Proofs.Placement
import HookLint.Proofs.Schedule
import HookLint.Proofs.ReportText
import HookLint.Proofs.Comments
import HookLint.Proofs.Accounting
import HookLint.Proofs.Hunks
import HookLint.Proofs.ArrayLayout
import HookLint.Proofs.LineEndings
import HookLint.Proofs.ArrayOrder
import HookLint.Proofs.PathMeaning
import HookLint.Proofs.Climbing
import HookLint.Proofs.Targets
import HookLint.Proofs.Aliases
import HookLint.Proofs.SafeHooks
import HookLint.Proofs.Slots
import HookLint.Proofs.WriteSites
import HookLint.Proofs.Enclosing
import HookLint.Proofs.TypeSyntax
import HookLint.Proofs.OwnNames
import HookLint.Proofs.Wrapping
import HookLint.Proofs.HookSearch
import HookLint.Proofs.Sorting
import HookLint.Proofs.Isolation
import HookLint.Proofs.Styling
import HookLint.Proofs.Segments
import HookLint.Proofs.Tally
import HookLint.Proofs.LogConsistency
import HookLint.Proofs.Addresses
import HookLint.Proofs.Destructuring
import HookLint.Proofs.Ascent
