import Patchbay.Behavior.Action
import Patchbay.Behavior.Request
import Patchbay.Behavior.Script
import Patchbay.Binary64
import Patchbay.Coerce
import Patchbay.Config
import Patchbay.Decimal.Layout
import Patchbay.Decimal.Numeral
import Patchbay.Decimal.Shortest
import Patchbay.Document
import Patchbay.Edge
import Patchbay.Emitter
import Patchbay.Engine.Context
import Patchbay.Engine.Control
import Patchbay.Engine.Edit
import Patchbay.Engine.Invocation
import Patchbay.Engine.Resolution
import Patchbay.Engine.Session
import Patchbay.Engine.State
import Patchbay.Engine.Turn
import Patchbay.Error
import Patchbay.Event
import Patchbay.Expr.Eval
import Patchbay.Expr.Function
import Patchbay.Expr.Literal
import Patchbay.Expr.Parser
import Patchbay.Expr.Printer
import Patchbay.Expr.Token
import Patchbay.Expr.Tree
import Patchbay.Expr.Whitelist
import Patchbay.Fault
import Patchbay.Graph
import Patchbay.Json.Reader
import Patchbay.Json.Writer
import Patchbay.Kind
import Patchbay.Library
import Patchbay.Library.Code
import Patchbay.Library.ControlFlow
import Patchbay.Library.Data
import Patchbay.Library.Entry
import Patchbay.Library.Inspection
import Patchbay.Library.Numbers
import Patchbay.Library.Palette
import Patchbay.Library.Texts
import Patchbay.Library.Truth
import Patchbay.Loop
import Patchbay.Node
import Patchbay.Notice
import Patchbay.Port
import Patchbay.Proofs.Abiding
import Patchbay.Proofs.Assurance
import Patchbay.Proofs.Beats
import Patchbay.Proofs.Births
import Patchbay.Proofs.Bystanders
import Patchbay.Proofs.Chronicles
import Patchbay.Proofs.Coercions
import Patchbay.Proofs.Completion
import Patchbay.Proofs.Containment
import Patchbay.Proofs.Counting
import Patchbay.Proofs.Courses
import Patchbay.Proofs.Crossings
import Patchbay.Proofs.Cycles
import Patchbay.Proofs.Declarations
import Patchbay.Proofs.Deliveries
import Patchbay.Proofs.Discipline
import Patchbay.Proofs.DocumentTexts
import Patchbay.Proofs.Editors
import Patchbay.Proofs.Effects
import Patchbay.Proofs.Emissions
import Patchbay.Proofs.Enrolment
import Patchbay.Proofs.Evaluations
import Patchbay.Proofs.Exclusion
import Patchbay.Proofs.Extents
import Patchbay.Proofs.Frames
import Patchbay.Proofs.Freshness
import Patchbay.Proofs.Functions
import Patchbay.Proofs.Gatherings
import Patchbay.Proofs.Grammar
import Patchbay.Proofs.Hearing
import Patchbay.Proofs.Histories
import Patchbay.Proofs.InStep
import Patchbay.Proofs.Indexes
import Patchbay.Proofs.Indifference
import Patchbay.Proofs.Integrity
import Patchbay.Proofs.Interleaving
import Patchbay.Proofs.Isolation
import Patchbay.Proofs.Launches
import Patchbay.Proofs.Leaks
import Patchbay.Proofs.Ledger
import Patchbay.Proofs.Likeness
import Patchbay.Proofs.Limits
import Patchbay.Proofs.Listeners
import Patchbay.Proofs.Literals
import Patchbay.Proofs.Lookup
import Patchbay.Proofs.Mirroring
import Patchbay.Proofs.Modesty
import Patchbay.Proofs.Nesting
import Patchbay.Proofs.NewErrors
import Patchbay.Proofs.Operations
import Patchbay.Proofs.Outcomes
import Patchbay.Proofs.Overruns
import Patchbay.Proofs.Passes
import Patchbay.Proofs.Pending
import Patchbay.Proofs.Plain
import Patchbay.Proofs.Possessions
import Patchbay.Proofs.Present
import Patchbay.Proofs.Programs
import Patchbay.Proofs.Propagation
import Patchbay.Proofs.Rearming
import Patchbay.Proofs.Recall
import Patchbay.Proofs.Recursion
import Patchbay.Proofs.Refusals
import Patchbay.Proofs.Registrations
import Patchbay.Proofs.Reinvocation
import Patchbay.Proofs.Reporting
import Patchbay.Proofs.Rereading
import Patchbay.Proofs.Returns
import Patchbay.Proofs.Rosters
import Patchbay.Proofs.RoundTrip
import Patchbay.Proofs.Rounds
import Patchbay.Proofs.Rousing
import Patchbay.Proofs.Scheduling
import Patchbay.Proofs.Scopes
import Patchbay.Proofs.Scripts
import Patchbay.Proofs.Searches
import Patchbay.Proofs.Seats
import Patchbay.Proofs.Seeds
import Patchbay.Proofs.Settings
import Patchbay.Proofs.Settling
import Patchbay.Proofs.Shapes
import Patchbay.Proofs.Silence
import Patchbay.Proofs.Sleeps
import Patchbay.Proofs.Spellings
import Patchbay.Proofs.Stepping
import Patchbay.Proofs.Stopping
import Patchbay.Proofs.Tenure
import Patchbay.Proofs.Timelines
import Patchbay.Proofs.Tracking
import Patchbay.Proofs.Transparency
import Patchbay.Proofs.Turns
import Patchbay.Proofs.Unbound
import Patchbay.Proofs.Unwinding
import Patchbay.Proofs.Upkeep
import Patchbay.Proofs.Upstream
import Patchbay.Proofs.Validity
import Patchbay.Proofs.Versions
import Patchbay.Proofs.Vouching
import Patchbay.Proofs.Whitelisting
import Patchbay.Proofs.Writers
import Patchbay.Registry
import Patchbay.Scheduler
import Patchbay.Scheduler.Timeline
import Patchbay.Scope
import Patchbay.Text.Blank
import Patchbay.Text.Casing
import Patchbay.Text.CodeRanges
import Patchbay.Text.DecimalDigit
import Patchbay.Text.Identifier
import Patchbay.Text.Printable
import Patchbay.Text.Quoted
import Patchbay.Text.Template
import Patchbay.Validation
import Patchbay.Value.Arithmetic
import Patchbay.Value.Basic
import Patchbay.Value.Order
import Patchbay.Value.Percent
import Patchbay.Value.Rounding
import Patchbay.Value.Sequence
import Patchbay.Value.Show
import Patchbay.Value.Tagged
import Patchbay.Variables
import Patchbay.Variables.Exclusive
