import Coverage.Conversion.Batch
import Coverage.Conversion.Crew
import Coverage.Conversion.SharedPool
import Coverage.Files.Directory
import Coverage.Main
import Coverage.Script.Raw
import Coverage.Proofs.SortedMap
import Coverage.Proofs.Readers
import Coverage.Proofs.Validity
import Coverage.Proofs.Matching.Exclusive
import Coverage.Proofs.Matching.Own
import Coverage.Proofs.Merge.Raise
import Coverage.Proofs.Merge.Directive
import Coverage.Proofs.Merge.Sources
import Coverage.Proofs.Merge.Structure
import Coverage.Proofs.Merge.Counts
import Coverage.Proofs.Merge.Totals
import Coverage.Proofs.Merge.Order
import Coverage.Proofs.Merge.Own
import Coverage.Proofs.Matching.Maximum
import Coverage.Proofs.Merge.Branches
import Coverage.Proofs.Merge.Arms
import Coverage.Proofs.Merge.Permutation
import Coverage.Proofs.Merge.Lift
import Coverage.Proofs.Merge.Absorption
import Coverage.Proofs.Merge.UpperBound
import Coverage.Proofs.Merge.Incremental
import Coverage.Proofs.Base.Files
import Coverage.Proofs.Base.Partition
import Coverage.Proofs.Base.Again
import Coverage.Proofs.Base.Skeleton
import Coverage.Proofs.Merge.FalseZero
import Coverage.Proofs.Conversion.Step
import Coverage.Proofs.Conversion.Ledger
import Coverage.Proofs.Conversion.History
import Coverage.Proofs.Conversion.Isolation
import Coverage.Proofs.Conversion.Progress
import Coverage.Proofs.Conversion.Answers
import Coverage.Proofs.Conversion.Dispatch
import Coverage.Proofs.Conversion.Batch
import Coverage.Proofs.Conversion.Independence
import Coverage.Proofs.Conversion.Scripts
import Coverage.Proofs.Conversion.Crew
import Coverage.Proofs.Conversion.Moments
import Coverage.Proofs.Conversion.Refinement
import Coverage.Proofs.Conversion.Status
import Coverage.Proofs.Conversion.Sharing
import Coverage.Proofs.Text.Bytes
import Coverage.Proofs.Text.Lines
import Coverage.Proofs.Text.Positions
import Coverage.Proofs.Text.Locations
import Coverage.Proofs.Text.Words
import Coverage.Proofs.Script.Ranges
import Coverage.Proofs.Script.Narrowing
import Coverage.Proofs.Script.Skipping
import Coverage.Proofs.Script.Grouping
import Coverage.Proofs.Script.Words
import Coverage.Proofs.Script.Cover
import Coverage.Proofs.Script.Fields
import Coverage.Proofs.Script.Positions
import Coverage.Proofs.Script.Decoding
import Coverage.Proofs.Script.Tracking
import Coverage.Proofs.Script.Exactness
import Coverage.Proofs.Script.Layout
import Coverage.Proofs.Script.Spelling
import Coverage.Proofs.Script.Encoding
import Coverage.Proofs.Fixups.Erasure
import Coverage.Proofs.Fixups.Passes
import Coverage.Proofs.Fixups.Files
import Coverage.Proofs.Fixups.Separate
import Coverage.Proofs.Fixups.Again
import Coverage.Proofs.Fixups.Removal
import Coverage.Proofs.Fixups.Keepers
import Coverage.Proofs.Fixups.Declarations
import Coverage.Proofs.Fixups.Innermost
import Coverage.Proofs.Fixups.Callbacks
import Coverage.Proofs.Json.Canonical
import Coverage.Proofs.Json.Digits
import Coverage.Proofs.Json.Quoted
import Coverage.Proofs.Json.RoundTrip
import Coverage.Proofs.Document.Shape
import Coverage.Proofs.Document.Ingestion
import Coverage.Proofs.Document.RoundTrip
import Coverage.Proofs.Keys
import Coverage.Proofs.Invariants.Stable
import Coverage.Proofs.Invariants.Writable
import Coverage.Proofs.Keys.Again
import Coverage.Proofs.Keys.Collisions
import Coverage.Proofs.Invariants.Alignment
import Coverage.Proofs.Fixups.Rebuilding
import Coverage.Proofs.Fixups.Spurious
import Coverage.Proofs.Invariants.Operations
import Coverage.Proofs.Files.Storage
import Coverage.Proofs.Selection.Patterns
import Coverage.Proofs.Selection.Filter
import Coverage.Proofs.CommandLine.Run
