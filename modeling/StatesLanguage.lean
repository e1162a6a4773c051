import StatesLanguage.Branch.Basic
import StatesLanguage.Branch.Tolerance
import StatesLanguage.Choice.Operator
import StatesLanguage.Choice.Rule
import StatesLanguage.Document.Basic
import StatesLanguage.Document.Decode
import StatesLanguage.Document.Encode
import StatesLanguage.Document.Nested
import StatesLanguage.Document.Parse
import StatesLanguage.Document.Reading
import StatesLanguage.Document.Shape
import StatesLanguage.Execution.Advance
import StatesLanguage.Execution.Config
import StatesLanguage.Execution.Context
import StatesLanguage.Execution.Error
import StatesLanguage.Execution.Run
import StatesLanguage.Execution.Step
import StatesLanguage.Flow.Basic
import StatesLanguage.Intrinsic.Call
import StatesLanguage.Intrinsic.Evaluate
import StatesLanguage.Jmespath.Dialect
import StatesLanguage.Jmespath.Query
import StatesLanguage.Jmespath.Reader
import StatesLanguage.Jmespath.Syntax
import StatesLanguage.Job.Registry
import StatesLanguage.Job.Runner
import StatesLanguage.Job.Scripted
import StatesLanguage.Json.Decimal
import StatesLanguage.Json.Rounding
import StatesLanguage.Json.Source
import StatesLanguage.Json.Value
import StatesLanguage.Json.Writer
import StatesLanguage.Machine.Basic
import StatesLanguage.Machine.Compile
import StatesLanguage.Path.Basic
import StatesLanguage.Path.Segment
import StatesLanguage.Path.Syntax
import StatesLanguage.Path.Translation
import StatesLanguage.Proofs.Abandonment
import StatesLanguage.Proofs.Acyclic
import StatesLanguage.Proofs.Brackets
import StatesLanguage.Proofs.Calls
import StatesLanguage.Proofs.Chains
import StatesLanguage.Proofs.Closed
import StatesLanguage.Proofs.Coherence
import StatesLanguage.Proofs.Comparisons
import StatesLanguage.Proofs.Compiling
import StatesLanguage.Proofs.Conditions
import StatesLanguage.Proofs.Constants
import StatesLanguage.Proofs.Custody
import StatesLanguage.Proofs.Digits
import StatesLanguage.Proofs.Distinctness
import StatesLanguage.Proofs.Endings
import StatesLanguage.Proofs.Entries
import StatesLanguage.Proofs.Escalation
import StatesLanguage.Proofs.Everywhere
import StatesLanguage.Proofs.Expressions
import StatesLanguage.Proofs.Fairness
import StatesLanguage.Proofs.Fields
import StatesLanguage.Proofs.Floats
import StatesLanguage.Proofs.Forms
import StatesLanguage.Proofs.Globs
import StatesLanguage.Proofs.Graphs
import StatesLanguage.Proofs.Integers
import StatesLanguage.Proofs.Items
import StatesLanguage.Proofs.Kinds
import StatesLanguage.Proofs.Ledger
import StatesLanguage.Proofs.Levels
import StatesLanguage.Proofs.Likeness
import StatesLanguage.Proofs.Literals
import StatesLanguage.Proofs.Loads
import StatesLanguage.Proofs.Lulls
import StatesLanguage.Proofs.Mantissas
import StatesLanguage.Proofs.Nesting
import StatesLanguage.Proofs.Numerals
import StatesLanguage.Proofs.Overrides
import StatesLanguage.Proofs.Paces
import StatesLanguage.Proofs.Pairs
import StatesLanguage.Proofs.Patterns
import StatesLanguage.Proofs.Payloads
import StatesLanguage.Proofs.Placeholders
import StatesLanguage.Proofs.Placements
import StatesLanguage.Proofs.Promises
import StatesLanguage.Proofs.Readings
import StatesLanguage.Proofs.Recordings
import StatesLanguage.Proofs.Records
import StatesLanguage.Proofs.Reencoding
import StatesLanguage.Proofs.Registries
import StatesLanguage.Proofs.Repetitions
import StatesLanguage.Proofs.Results
import StatesLanguage.Proofs.Retries
import StatesLanguage.Proofs.Rounds
import StatesLanguage.Proofs.Rules
import StatesLanguage.Proofs.Scanning
import StatesLanguage.Proofs.Schedules
import StatesLanguage.Proofs.Sessions
import StatesLanguage.Proofs.Slots
import StatesLanguage.Proofs.Spellings
import StatesLanguage.Proofs.Steady
import StatesLanguage.Proofs.Stepping
import StatesLanguage.Proofs.Suffixes
import StatesLanguage.Proofs.Sums
import StatesLanguage.Proofs.Tickets
import StatesLanguage.Proofs.Trails
import StatesLanguage.Proofs.Twins
import StatesLanguage.Proofs.Verdicts
import StatesLanguage.Proofs.Waiting
import StatesLanguage.Retry.Basic
import StatesLanguage.Template.Basic
import StatesLanguage.Text.Class
import StatesLanguage.Text.Expression
import StatesLanguage.Text.Glob
import StatesLanguage.Text.Pattern
import StatesLanguage.Text.Printable
import StatesLanguage.Time.Date
import StatesLanguage.Time.Instant
import StatesLanguage.Time.Seconds
import StatesLanguage.Time.Timestamp
import StatesLanguage.Validation.Check
import StatesLanguage.Validation.Fields
import StatesLanguage.Validation.Issue
import StatesLanguage.Validation.Structure
import StatesLanguage.Validation.Targets
import StatesLanguage.Workflow.Basic
import StatesLanguage.Workflow.Drive
import StatesLanguage.Yaml.Cursor
import StatesLanguage.Yaml.Node
import StatesLanguage.Yaml.Plain
import StatesLanguage.Yaml.Scalar
import StatesLanguage.Yaml.Token
import StatesLanguage.Yaml.Value
