import LintInference.Candidate
import LintInference.Command.Arguments
import LintInference.Command.Reply
import LintInference.Command.Request
import LintInference.Command.Run
import LintInference.Configuration.Basic
import LintInference.Configuration.Description
import LintInference.Configuration.Discovery
import LintInference.Configuration.Loading
import LintInference.Configuration.Merge
import LintInference.Configuration.Toml
import LintInference.Configuration.Yaml
import LintInference.Decimal.Binary64
import LintInference.Decimal.Fixed
import LintInference.Decimal.Shortest
import LintInference.Disk
import LintInference.Elapsed
import LintInference.Entries
import LintInference.Failure
import LintInference.Grammar
import LintInference.Host
import LintInference.Inference
import LintInference.Json.Basic
import LintInference.Json.Cursor
import LintInference.Json.Reader
import LintInference.Json.Shape
import LintInference.Json.Token
import LintInference.Json.Writer
import LintInference.Linter.External
import LintInference.Linter.Scripted
import LintInference.Linter.Session
import LintInference.Main
import LintInference.Options
import LintInference.Probe
import LintInference.Proofs.Command.Flags
import LintInference.Proofs.Command.Inferring
import LintInference.Proofs.Command.Listing
import LintInference.Proofs.Command.Settings
import LintInference.Proofs.Configuration.Layers
import LintInference.Proofs.Configuration.Nearest
import LintInference.Proofs.Configuration.Precedence
import LintInference.Proofs.Disk
import LintInference.Proofs.Entries
import LintInference.Proofs.Inference.Confinement
import LintInference.Proofs.Inference.Failing
import LintInference.Proofs.Inference.FirstMatch
import LintInference.Proofs.Inference.Independence
import LintInference.Proofs.Inference.Leftovers
import LintInference.Proofs.Inference.Progress
import LintInference.Proofs.Inference.Protocol
import LintInference.Proofs.Inference.Together
import LintInference.Proofs.Json.Equality
import LintInference.Proofs.Json.Layout
import LintInference.Proofs.Json.Lines
import LintInference.Proofs.Json.Shapes
import LintInference.Proofs.Json.Tokens
import LintInference.Proofs.Linter.Answers
import LintInference.Proofs.Linter.Events
import LintInference.Proofs.Linter.Replay
import LintInference.Proofs.Linter.Scripted
import LintInference.Proofs.Probe.Features
import LintInference.Proofs.Probe.Minimal
import LintInference.Proofs.Probe.Search
import LintInference.Proofs.Rearrangement
import LintInference.Proofs.Registry
import LintInference.Proofs.RoundTrip
import LintInference.Proofs.Schema.Alike
import LintInference.Proofs.Schema.Calls
import LintInference.Proofs.Schema.Cycles
import LintInference.Proofs.Schema.Demands
import LintInference.Proofs.Schema.Derivation
import LintInference.Proofs.Schema.Dictionary
import LintInference.Proofs.Schema.Expansion
import LintInference.Proofs.Schema.Extent
import LintInference.Proofs.Schema.Induction
import LintInference.Proofs.Schema.KeyOrder
import LintInference.Proofs.Schema.Keywords
import LintInference.Proofs.Schema.LexicalScope
import LintInference.Proofs.Schema.Nodes
import LintInference.Proofs.Schema.NormalForm
import LintInference.Proofs.Schema.Recognised
import LintInference.Proofs.Schema.Repetition
import LintInference.Proofs.Schema.ResolvedForm
import LintInference.Proofs.Schema.Scoping
import LintInference.Proofs.Schema.Spelling
import LintInference.Proofs.Schema.Stacks
import LintInference.Proofs.Schema.Success
import LintInference.Proofs.Schema.Suffixes
import LintInference.Proofs.Schema.Termination
import LintInference.Proofs.Schema.Turns
import LintInference.Proofs.Schema.Unions
import LintInference.Proofs.Schema.Wheels
import LintInference.Proofs.Shell.Pattern
import LintInference.Proofs.Shell.Quoting
import LintInference.Proofs.Shell.Regex
import LintInference.Proofs.Shell.Running
import LintInference.Proofs.Text.ByteOrder
import LintInference.Proofs.Text.Utf8
import LintInference.Registry
import LintInference.Report
import LintInference.Schema.Basic
import LintInference.Schema.Enumeration
import LintInference.Schema.Limits
import LintInference.Schema.Resolution
import LintInference.Selection
import LintInference.Shell.Arithmetic
import LintInference.Shell.Builtin
import LintInference.Shell.Evaluation
import LintInference.Shell.Fields
import LintInference.Shell.Host
import LintInference.Shell.Pattern
import LintInference.Shell.Program
import LintInference.Shell.Reader
import LintInference.Shell.Regex
import LintInference.Shell.State
import LintInference.Shell.Syntax
import LintInference.Shell.Tool
import LintInference.Shell.Tools
import LintInference.Shell.Tools.Edit
import LintInference.Shell.Tools.Files
import LintInference.Shell.Tools.Filter
import LintInference.Shell.Tools.Print
import LintInference.Shell.Tools.Test
import LintInference.Suggestion
import LintInference.Text.Quoted
import LintInference.Text.Utf8
import LintInference.Toml.Basic
import LintInference.Toml.Reader
import LintInference.Yaml.Node
import LintInference.Yaml.Token
