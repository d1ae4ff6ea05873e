import DeclBundle.Action
import DeclBundle.Bundle.Assembly
import DeclBundle.Bundle.Fragment
import DeclBundle.Bundle.Run
import DeclBundle.CommandLine.Arguments
import DeclBundle.CommandLine.Given
import DeclBundle.CommandLine.Journal
import DeclBundle.CommandLine.Misuse
import DeclBundle.CommandLine.Session
import DeclBundle.CommandLine.Snapshot
import DeclBundle.CommandLine.Switch
import DeclBundle.CommandLine.Usage
import DeclBundle.CommandLine.Word
import DeclBundle.Compiler.Command
import DeclBundle.Compiler.Program
import DeclBundle.Compiler.Report
import DeclBundle.Compiler.Run
import DeclBundle.Data.Display
import DeclBundle.Data.Value
import DeclBundle.Decimal.Literal
import DeclBundle.Decimal.Shortest
import DeclBundle.Diagnostic
import DeclBundle.Emission
import DeclBundle.Failure
import DeclBundle.FileSystem.Access
import DeclBundle.FileSystem.Basic
import DeclBundle.FileSystem.Directories
import DeclBundle.FileSystem.Fault
import DeclBundle.Glob
import DeclBundle.Json.Comment
import DeclBundle.Json.Fault
import DeclBundle.Json.Printer
import DeclBundle.Json.Reader
import DeclBundle.Main
import DeclBundle.Module.Extension
import DeclBundle.Module.Id
import DeclBundle.Module.Selection
import DeclBundle.Options
import DeclBundle.Options.File
import DeclBundle.Path.Normal
import DeclBundle.Path.Part
import DeclBundle.Path.Relative
import DeclBundle.Path.Separator
import DeclBundle.Path.Tidy
import DeclBundle.Progress
import DeclBundle.Proofs.Accounting
import DeclBundle.Proofs.Actions
import DeclBundle.Proofs.Alike
import DeclBundle.Proofs.CharacterOffset
import DeclBundle.Proofs.Classification
import DeclBundle.Proofs.Climb
import DeclBundle.Proofs.CommentFree
import DeclBundle.Proofs.CommentInsertion
import DeclBundle.Proofs.CommentedFile
import DeclBundle.Proofs.Compilation
import DeclBundle.Proofs.Conservation
import DeclBundle.Proofs.Containment
import DeclBundle.Proofs.Contribution
import DeclBundle.Proofs.CopiedLeaves
import DeclBundle.Proofs.DeclarationPath
import DeclBundle.Proofs.DiagnosticForm
import DeclBundle.Proofs.Draft
import DeclBundle.Proofs.EitherWay
import DeclBundle.Proofs.EmittedDeclarations
import DeclBundle.Proofs.EntryFile
import DeclBundle.Proofs.FailFast
import DeclBundle.Proofs.Heeded
import DeclBundle.Proofs.Identity
import DeclBundle.Proofs.ImportSpelling
import DeclBundle.Proofs.Indentation
import DeclBundle.Proofs.Inset
import DeclBundle.Proofs.Joining
import DeclBundle.Proofs.KeptReferences
import DeclBundle.Proofs.KeptTokens
import DeclBundle.Proofs.LastMatch
import DeclBundle.Proofs.LeavingImport
import DeclBundle.Proofs.LineStart
import DeclBundle.Proofs.LinkedTree
import DeclBundle.Proofs.ListedFile
import DeclBundle.Proofs.MalformedFile
import DeclBundle.Proofs.MergedSettings
import DeclBundle.Proofs.MixedLines
import DeclBundle.Proofs.ModuleBlock
import DeclBundle.Proofs.NestedSplice
import DeclBundle.Proofs.Nesting
import DeclBundle.Proofs.NodeOfCst
import DeclBundle.Proofs.Obstacle
import DeclBundle.Proofs.OptionPaths
import DeclBundle.Proofs.Overriding
import DeclBundle.Proofs.ParsedLinks
import DeclBundle.Proofs.ParsedOrder
import DeclBundle.Proofs.Places
import DeclBundle.Proofs.ProgressSummary
import DeclBundle.Proofs.Pruning
import DeclBundle.Proofs.QuotedId
import DeclBundle.Proofs.QuotedText
import DeclBundle.Proofs.ReadSpelling
import DeclBundle.Proofs.Recompiled
import DeclBundle.Proofs.RecordOrder
import DeclBundle.Proofs.RelativeImport
import DeclBundle.Proofs.Relocation
import DeclBundle.Proofs.Renamed
import DeclBundle.Proofs.Reopened
import DeclBundle.Proofs.Repeated
import DeclBundle.Proofs.ReportItem
import DeclBundle.Proofs.RestatedOptions
import DeclBundle.Proofs.Restored
import DeclBundle.Proofs.Revisited
import DeclBundle.Proofs.Row
import DeclBundle.Proofs.RunsAlike
import DeclBundle.Proofs.SettingsText
import DeclBundle.Proofs.SilentFailure
import DeclBundle.Proofs.SoundOptions
import DeclBundle.Proofs.SourceRoute
import DeclBundle.Proofs.Spelling
import DeclBundle.Proofs.SplitImport
import DeclBundle.Proofs.Steps
import DeclBundle.Proofs.StoppedReading
import DeclBundle.Proofs.Stopping
import DeclBundle.Proofs.Stretches
import DeclBundle.Proofs.Substitution
import DeclBundle.Proofs.SuccessiveReports
import DeclBundle.Proofs.TidyPath
import DeclBundle.Proofs.Told
import DeclBundle.Proofs.TrailingComma
import DeclBundle.Proofs.UniqueId
import DeclBundle.Proofs.Untouched
import DeclBundle.Proofs.UsableCommand
import DeclBundle.Proofs.Visit
import DeclBundle.Proofs.Written
import DeclBundle.Proofs.WrittenConfiguration
import DeclBundle.Settings
import DeclBundle.ShellWord
import DeclBundle.Site
import DeclBundle.Splice
import DeclBundle.Syntax.Linked
import DeclBundle.Syntax.Listing
import DeclBundle.Syntax.Mark
import DeclBundle.Syntax.Node
import DeclBundle.Syntax.Parsed
import DeclBundle.Syntax.Region
import DeclBundle.Syntax.Require
import DeclBundle.Text.Blank
import DeclBundle.Text.Digit
import DeclBundle.Text.Encoding
import DeclBundle.Text.Line
import DeclBundle.Text.Offset
import DeclBundle.Text.Piece
import DeclBundle.Text.Printable
import DeclBundle.Text.Quoted
import DeclBundle.Text.UpperCase
import DeclBundle.Yaml.Fault
import DeclBundle.Yaml.Node
import DeclBundle.Yaml.Plain
import DeclBundle.Yaml.Reader
import DeclBundle.Yaml.Token
