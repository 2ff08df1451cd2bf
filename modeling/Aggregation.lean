import Aggregation.CommandLine.Arguments
import Aggregation.CommandLine.Run
import Aggregation.Compile.Basic
import Aggregation.Compile.Config
import Aggregation.Compile.Explain
import Aggregation.Correlation.Map
import Aggregation.Correlation.Resolver
import Aggregation.Expr.Basic
import Aggregation.Expr.Build
import Aggregation.Expr.Display
import Aggregation.Expr.Equality
import Aggregation.Expr.Error
import Aggregation.Expr.Operator
import Aggregation.Expr.ResultType
import Aggregation.Expr.Update
import Aggregation.ExtendedJson.Basic
import Aggregation.ExtendedJson.Fault
import Aggregation.Files.Access
import Aggregation.Files.Basic
import Aggregation.Files.Path
import Aggregation.Json.Basic
import Aggregation.Json.Number
import Aggregation.Json.Printer
import Aggregation.Json.Reading
import Aggregation.Json.Syntax
import Aggregation.Log
import Aggregation.Number.Binary64
import Aggregation.Number.Decimal128
import Aggregation.Number.Reading
import Aggregation.Number.Shortest
import Aggregation.Pipeline.Basic
import Aggregation.Pipeline.Elimination
import Aggregation.Pipeline.Emission
import Aggregation.Pipeline.Lowering
import Aggregation.Pipeline.Predicate
import Aggregation.Plan.Basic
import Aggregation.Plan.Binding
import Aggregation.Query.Basic
import Aggregation.Query.Building
import Aggregation.Query.Reading
import Aggregation.Record
import Aggregation.Scope
import Aggregation.Text.Base64
import Aggregation.Text.Hex
import Aggregation.Text.Numeral
import Aggregation.Text.Printable
import Aggregation.Text.Quoted
import Aggregation.Text.Utf8
import Aggregation.Value.Basic
import Aggregation.Value.Display
import Aggregation.Value.Equality
import Aggregation.Wire.Decoding
import Aggregation.Wire.DocumentStream
import Aggregation.Wire.ElementType
import Aggregation.Wire.Encoding
import Aggregation.Wire.Error
import Aggregation.Wire.FrameKind
import Aggregation.Wire.Limits
import Aggregation.Wire.Reader
import Aggregation.Wire.ReplayBuffer
import Aggregation.Wire.Transport
import Aggregation.Wire.Writer
import Aggregation.Main
import Aggregation.Proofs.Compile.Preservation
import Aggregation.Proofs.Expr.Sessions
import Aggregation.Proofs.Wire.Bytes
import Aggregation.Proofs.Wire.Layout
import Aggregation.Proofs.Wire.Steps
import Aggregation.Proofs.Wire.Streams
import Aggregation.Proofs.Plan.Naming
import Aggregation.Proofs.Expr.Places
import Aggregation.Proofs.Plan.Replacement
import Aggregation.Proofs.Plan.Runs
import Aggregation.Proofs.Expr.Failures
import Aggregation.Proofs.Query.Sessions
import Aggregation.Proofs.Plan.Soundness
import Aggregation.Proofs.Plan.Completeness
import Aggregation.Proofs.Pipeline.Acceptance
import Aggregation.Proofs.Compile.Acceptance
import Aggregation.Proofs.Query.Acceptance
import Aggregation.Proofs.Wire.Windows
import Aggregation.Proofs.Wire.Agreement
import Aggregation.Proofs.Wire.Bookmarks
import Aggregation.Proofs.Wire.Values
import Aggregation.Proofs.Wire.Transports
import Aggregation.Proofs.Wire.Calls
import Aggregation.Proofs.Wire.Drafts
import Aggregation.Proofs.Wire.ReadingWalks
import Aggregation.Proofs.Wire.Mirror
import Aggregation.Proofs.Wire.LostDocuments
import Aggregation.Proofs.Wire.Wholeness
import Aggregation.Proofs.Wire.Canonical
import Aggregation.Proofs.Wire.Outcomes
import Aggregation.Proofs.Wire.Refusals
import Aggregation.Proofs.Pipeline.Positions
import Aggregation.Proofs.Plan.Readers
import Aggregation.Proofs.Compile.Visibility
import Aggregation.Proofs.Pipeline.Names
import Aggregation.Proofs.Compile.Sending
import Aggregation.Proofs.Compile.Renaming
import Aggregation.Proofs.Wire.Boundaries
import Aggregation.Proofs.Pipeline.Results
import Aggregation.Proofs.Wire.Custody
import Aggregation.Proofs.Wire.Finality
import Aggregation.Proofs.Pipeline.Redundancy
import Aggregation.Proofs.Pipeline.Orders
import Aggregation.Proofs.Compile.Orders
import Aggregation.Proofs.Compile.Projections
import Aggregation.Proofs.Wire.Extents
import Aggregation.Proofs.Wire.Skipping
import Aggregation.Proofs.Wire.Passing
import Aggregation.Proofs.Wire.SamePlace
import Aggregation.Proofs.Wire.Traversal
import Aggregation.Proofs.Wire.Abandonment
import Aggregation.Proofs.Wire.Approach
import Aggregation.Proofs.Wire.Tiling
import Aggregation.Proofs.Wire.Truncation
import Aggregation.Proofs.Wire.UnknownTags
import Aggregation.Proofs.Wire.Unambiguous
import Aggregation.Proofs.Expr.Rewriting
import Aggregation.Proofs.Plan.Merging
import Aggregation.Proofs.Wire.Observers
import Aggregation.Proofs.Text.Letters
import Aggregation.Proofs.Text.Numerals
import Aggregation.Proofs.ExtendedJson.RoundTrip
import Aggregation.Proofs.Number.Decimal128
import Aggregation.Proofs.Plan.Standing
import Aggregation.Proofs.Plan.Idempotence
import Aggregation.Proofs.ExtendedJson.Identifiers
import Aggregation.Proofs.Log.Lines
import Aggregation.Proofs.Query.Heeded
import Aggregation.Proofs.Query.Spelling
import Aggregation.Proofs.Wire.Arithmetic
import Aggregation.Proofs.Wire.Bounds
import Aggregation.Proofs.Expr.TypeNames
import Aggregation.Proofs.Record.Histories
import Aggregation.Proofs.Compile.Numbering
import Aggregation.Proofs.Correlation.Traversal
