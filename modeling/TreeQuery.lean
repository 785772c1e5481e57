import TreeQuery.Main
import TreeQuery.Proofs.Walks
import TreeQuery.Proofs.Edits
import TreeQuery.Proofs.Operations
import TreeQuery.Proofs.Loaded
import TreeQuery.Proofs.Reachable
import TreeQuery.Proofs.Contracts
import TreeQuery.Proofs.Frame
import TreeQuery.Proofs.Calls
import TreeQuery.Proofs.DocumentOrder
import TreeQuery.Proofs.Positional
import TreeQuery.Proofs.Steps
import TreeQuery.Proofs.Characters
import TreeQuery.Proofs.SimpleTests
import TreeQuery.Proofs.SiblingTests
import TreeQuery.Proofs.Following
import TreeQuery.Proofs.Matching
import TreeQuery.Proofs.PathOrder
import TreeQuery.Proofs.Denotation
import TreeQuery.Proofs.Rooted
import TreeQuery.Proofs.CompoundOrder
import TreeQuery.Proofs.Spacing
import TreeQuery.Proofs.Spans
import TreeQuery.Proofs.Scanning
import TreeQuery.Proofs.RoundTrip
import TreeQuery.Proofs.Traversal
import TreeQuery.Proofs.Forest
import TreeQuery.Proofs.Export
import TreeQuery.Proofs.Building
import TreeQuery.Proofs.Rebuilding
import TreeQuery.Proofs.JsonText
import TreeQuery.Proofs.JsonDepth
import TreeQuery.Proofs.MarkupText
import TreeQuery.Proofs.Success
import TreeQuery.Proofs.History
import TreeQuery.Proofs.Scope
import TreeQuery.Proofs.Determined
import TreeQuery.Proofs.Commas
import TreeQuery.Proofs.Unions
import TreeQuery.Proofs.Attempts
import TreeQuery.Proofs.Mounted
import TreeQuery.Proofs.Iterators
import TreeQuery.Proofs.Slices
import TreeQuery.Proofs.QuotedText
import TreeQuery.Proofs.Filtering
import TreeQuery.Proofs.Progressions
import TreeQuery.Proofs.NameTests
import TreeQuery.Proofs.LiteralText
import TreeQuery.Proofs.SiblingRuns
import TreeQuery.Proofs.SiblingCompounds
import TreeQuery.Proofs.Pointwise
import TreeQuery.Proofs.Partitions
import TreeQuery.Proofs.ImpliedStar
import TreeQuery.Proofs.NestedSearch
import TreeQuery.Proofs.SiblingWalks
import TreeQuery.Proofs.Respacing
import TreeQuery.Proofs.Cursor
import TreeQuery.Proofs.Shape
import TreeQuery.Proofs.Nesting
import TreeQuery.Proofs.Records
import TreeQuery.Proofs.Registry
import TreeQuery.Proofs.ClosedSpans
import TreeQuery.Proofs.IntegerArguments
