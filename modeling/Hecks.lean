import Hecks.Lib.Text
import Hecks.Lib.Reading
import Hecks.Lib.Binary64
import Hecks.Lib.Rounding
import Hecks.Lib.Packing
import Hecks.Lib.Decimal
import Hecks.Lib.FloatOrder
import Hecks.Lib.IntegerOrder
import Hecks.Lib.Act
import Hecks.Lib.Machine
import Hecks.Lib.Trial
import Hecks.Lib.Backtrack
import Hecks.Lib.Paging
import Hecks.Lib.Panics
import Hecks.Lib.Answers
import Hecks.Lib.Renaming
import Hecks.Lib.Lockstep
import Hecks.Lib.Hash
import Hecks.Json
import Hecks.Json.Parser
import Hecks.Json.Reads
import Hecks.Json.Grammar
import Hecks.Json.Numeral
import Hecks.Json.Accepts
import Hecks.Json.Writer
import Hecks.Json.Rereading
import Hecks.Json.RoundTrip
import Hecks.Json.Integers
import Hecks.Json.Escapes
import Hecks.Expr
import Hecks.Expr.Rendering
import Hecks.Expr.Lookup
import Hecks.Expr.Operators
import Hecks.Expr.Interpret
import Hecks.Expr.Safety
import Hecks.Expr.Keyed
import Hecks.Expr.Doors
import Hecks.Needs
import Hecks.Pattern.Parser
import Hecks.Pattern.Matcher
import Hecks.Pattern.WholeString
import Hecks.Query.Comparators
import Hecks.Query.Cursor
import Hecks.Query.Named
import Hecks.Query.Roles
import Hecks.Query.Sequence
import Hecks.Query.Token
import Hecks.Query.Pages
import Hecks.Query.SortedSlice
import Hecks.Query.Limits
import Hecks.Lib.Hops
import Hecks.Query.ReferenceChains
import Hecks.Lib.Grouping
import Hecks.Query.Nesting
import Hecks.Query.Placing
import Hecks.Query.Reductions
import Hecks.Orchestrate.Tables
import Hecks.Orchestrate.Projection
import Hecks.Orchestrate.Cascade
import Hecks.Orchestrate.Frame
import Hecks.Orchestrate.Outcome
import Hecks.Orchestrate.Order
import Hecks.Orchestrate.Book
import Hecks.Orchestrate.Ledgers
import Hecks.Orchestrate.Simulation
import Hecks.Orchestrate.Depth
import Hecks.Orchestrate.Discipline
import Hecks.Orchestrate.Lifecycle
import Hecks.Orchestrate.Compensation
import Hecks.Orchestrate.Termination
import Hecks.Orchestrate.Snapshot
import Hecks.Dispatch.Collecting
import Hecks.Dispatch.Rules
import Hecks.Dispatch.Entity
import Hecks.Dispatch.Command
import Hecks.Dispatch.Commit
import Hecks.Dispatch.Existence
import Hecks.Dispatch.ElementFrame
import Hecks.Dispatch.DryRun
import Hecks.Routing
import Hecks.Host.Serde
import Hecks.Host.ExprJson
import Hecks.Host.Doors
import Hecks.Host.Memory
import Hecks.Host.ClientAddress
import Hecks.Host.Clock
import Hecks.Host.Delivery
import Hecks.Host.NamesByEra
import Hecks.Host.Naming
import Hecks.Host.Needs
import Hecks.Host.Enforcement
import Hecks.Host.Enrichment
import Hecks.Host.Preview
import Hecks.Parser.Tree
import Hecks.Parser.AstJson
import Hecks.Parser.Handover
import Hecks.Parser.Inclusion
import Hecks.Parser.Canonical
import Hecks.Parser.RubyValue
import Hecks.Parser.RubyRoundTrip
import Hecks.Parser.Durations
import Hecks.Parser.Product
import Hecks.Lib.Routes
import Hecks.Era.EdgeRoute
import Hecks.Parser.CanonicalPass
import Hecks.Orchestrate.Literals
import Hecks.Expr.IntegerComparison
import Hecks.Query.IntegerComparators
import Hecks.Era.Rules
import Hecks.Era.Expression
import Hecks.Era.Rewrite
import Hecks.Era.Landing
import Hecks.Era.Reference
import Hecks.Era.Sql
import Hecks.Era.Compose
import Hecks.Era.Origins
import Hecks.Lib.Slices
import Hecks.Host.RateLimit
import Hecks.Host.RelationNames
import Hecks.Host.RetryAfter
import Hecks.Lib.Utf8
import Hecks.Signin.Accepts
import Hecks.Signin.Documents
import Hecks.Signin.SingleUse
import Hecks.Signin.Jwks
import Hecks.Lib.Search
import Hecks.Lib.Segments
import Hecks.Lib.Calendar
import Hecks.Lib.Chain
import Hecks.Lib.Unfolding
import Hecks.Lib.Delimited
import Hecks.Host.Instants
import Hecks.Host.Ledger
import Hecks.Host.Seals
import Hecks.Host.StorageShape
import Hecks.Host.ReferenceValidate
import Hecks.Host.ShapeEdits
import Hecks.Host.ShapeOrder
import Hecks.Host.Audit
import Hecks.Host.AuditEnds
import Hecks.Era.ShapeDiff
import Hecks.Era.Scaffold
import Hecks.Era.ScaffoldPaths
import Hecks.Era.ScaffoldCoverage
import Hecks.StateCodec.Codec
import Hecks.StateCodec.RoundTrip
import Hecks.Lib.Replay
import Hecks.Heki.Files
import Hecks.Heki.Lines
import Hecks.Heki.Crash
import Hecks.Saga.Leg
import Hecks.Saga.CrashRecord
import Hecks.Lib.Optimistic
import Hecks.Runtime.Reads
import Hecks.Runtime.Planning
import Hecks.Runtime.Acting
import Hecks.Runtime.LostUpdate
import Hecks.Lib.Layout
import Hecks.Sentence.Phrases
import Hecks.Sentence.Cuts
import Hecks.Sentence.Lines
import Hecks.Sentence.Ir
import Hecks.Sentence.Reader
import Hecks.Sentence.File
import Hecks.Sentence.Slots
import Hecks.Sentence.Merge
import Hecks.Outbox.Store
import Hecks.Outbox.Relay
import Hecks.Outbox.SingleRun
import Hecks.Lib.Components
import Hecks.Lib.StrongComponents
import Hecks.Lib.FirstCut
import Hecks.Lib.Joined
import Hecks.Runtime.ReadSet
import Hecks.Lib.StableSort
import Hecks.Query.Keyset
import Hecks.Saga.DispatchClaim
import Hecks.Runtime.Identity
import Hecks.Runtime.Hydration
import Hecks.Runtime.AggregateLock
import Hecks.ModelCheck.Reactions
import Hecks.ModelCheck.ReactionDepth
import Hecks.ModelCheck.ReactionCycles
import Hecks.ModelCheck.ReactionWalk
import Hecks.Parser.PatternSubset
import Hecks.Parser.PatternAgreement
import Hecks.Parser.Lex
import Hecks.Parser.LineParts
import Hecks.Parser.Joining
import Hecks.Parser.Continuations
import Hecks.Host.PaymentKeys
import Hecks.Host.FailedSave
