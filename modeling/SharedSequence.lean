import SharedSequence.ListView
import SharedSequence.SequenceMap
import SharedSequence.Sequence.Equality
import SharedSequence.Sequence.Order
import SharedSequence.Sequence.Outline
import SharedSequence.Binary64.Basic
import SharedSequence.CodePoints
import SharedSequence.Bytes
import SharedSequence.Text.Unprintable
import SharedSequence.DebugText
import SharedSequence.Json.Printer
import SharedSequence.Json.Element
import SharedSequence.Json.Parser
import SharedSequence.Json.Scalars
import SharedSequence.Session.HashedStep
import SharedSequence.Session.KindStep
import SharedSequence.Proofs.Balance
import SharedSequence.Proofs.Search
import SharedSequence.Proofs.HashTable
import SharedSequence.Proofs.Leaves
import SharedSequence.Proofs.Cuts
import SharedSequence.Proofs.Extraction
import SharedSequence.Proofs.Ownership
import SharedSequence.Proofs.Windows
import SharedSequence.Proofs.Soundness
import SharedSequence.Proofs.Comparison
import SharedSequence.Proofs.Concatenation
import SharedSequence.Proofs.ElementKind
import SharedSequence.Proofs.Agreement
import SharedSequence.Proofs.Constructions
import SharedSequence.Proofs.KindCommands
import SharedSequence.Proofs.Programs
import SharedSequence.Proofs.Memo
import SharedSequence.Proofs.Equality
import SharedSequence.Proofs.Ordering
import SharedSequence.Proofs.Uniformity
import SharedSequence.Proofs.Canonical
import SharedSequence.Proofs.GuardedSearch
import SharedSequence.Proofs.GuardedAccess
import SharedSequence.Proofs.GuardedTable
import SharedSequence.Proofs.GuardedConcat
import SharedSequence.Proofs.GuardedCursor
import SharedSequence.Proofs.FaultFree
import SharedSequence.Proofs.Iteration
import SharedSequence.Proofs.Indexing
import SharedSequence.Proofs.Maps
import SharedSequence.Proofs.Reductions
import SharedSequence.Proofs.JsonElements
import SharedSequence.Proofs.JsonRoundTrip
import SharedSequence.Proofs.Subsequence
import SharedSequence.Proofs.CountingSort
import SharedSequence.Proofs.Halving
import SharedSequence.Proofs.Reversal
import SharedSequence.Proofs.WindowHeight
import SharedSequence.Proofs.Encodings
import SharedSequence.Proofs.Utf16
import SharedSequence.Proofs.Utf8
import SharedSequence.Proofs.HexText
import SharedSequence.Proofs.Merging
import SharedSequence.Proofs.Integers
import SharedSequence.Proofs.Targets
import SharedSequence.Proofs.MapEncoding
