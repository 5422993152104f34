import Unfydqry.Lib.Checked
import Unfydqry.Lib.Prog
import Unfydqry.Lib.Rollback
import Unfydqry.Lib.Interleave
import Unfydqry.Lib.Completion
import Unfydqry.Lib.Monitor
import Unfydqry.Config
import Unfydqry.Normalize.Passes
import Unfydqry.Normalize.Steps
import Unfydqry.Normalize.CaseVariants
import Unfydqry.Normalize.KanaVariants
import Unfydqry.Normalize.Neighbours
import Unfydqry.Normalize.FoldExcerpt
import Unfydqry.Normalize.Variants
import Unfydqry.Normalize.Clusters
import Unfydqry.Lib.Table
import Unfydqry.Store.Db
import Unfydqry.Store.Like
import Unfydqry.Store.Fts5
import Unfydqry.Store.Sqlite
import Unfydqry.Search.Basic
import Unfydqry.Search.EditDist
import Unfydqry.Search.DisjointWords
import Unfydqry.Search.FuzzyTrigram
import Unfydqry.Search.Strategy
import Unfydqry.Engine.Types
import Unfydqry.Engine.Documents
import Unfydqry.Engine.Highlight
import Unfydqry.Engine.Regions
import Unfydqry.Engine.TableLoop
import Unfydqry.MarkedText
import Unfydqry.Engine.PrefixTable
import Unfydqry.MarkedRegions
import Unfydqry.PlainHighlight
import Unfydqry.MatchSpans
import Unfydqry.Engine.Records
import Unfydqry.Engine.Open
import Unfydqry.Engine.Call
import Unfydqry.Engine.Ids
import Unfydqry.Engine.Effect
import Unfydqry.Engine.RecordEffect
import Unfydqry.Engine.ReadEffect
import Unfydqry.Engine.RewriteEffect
import Unfydqry.Engine.OpenEffect
import Unfydqry.Engine.Shape
import Unfydqry.PackedIds
import Unfydqry.Lib.Traps
import Unfydqry.Catalog
import Unfydqry.IndexInvariant
import Unfydqry.RecordArithmetic
import Unfydqry.SharedEngine
import Unfydqry.SharedInvariant
import Unfydqry.IndexMachine
import Unfydqry.Reconfiguration
import Unfydqry.Lib.Overlay
import Unfydqry.LastWrite
import Unfydqry.Retry
import Unfydqry.ReindexStatus
import Unfydqry.FailedMutation
import Unfydqry.Lib.PrefixRange
import Unfydqry.Lib.RankedPages
import Unfydqry.Search.Rows
import Unfydqry.Search.RowOrder
import Unfydqry.PrefixSuffix
import Unfydqry.LiteralSearch
import Unfydqry.Matching
import Unfydqry.Reindex
import Unfydqry.Regeneration
import Unfydqry.RecordPages
import Unfydqry.Lib.CutOff
import Unfydqry.Lib.Interruption
import Unfydqry.Migration
import Unfydqry.Lib.Blocks
import Unfydqry.Lib.CanonicalOrder
import Unfydqry.Normalize.StepsFixed
import Unfydqry.Normalize.Choonpu
import Unfydqry.Normalize.NormalForms
import Unfydqry.Normalize.FixedPoint
import Unfydqry.Lib.PairTable
import Unfydqry.Normalize.Counts
import Unfydqry.Normalize.Excerpt
import Unfydqry.Normalize.Idempotence
import Unfydqry.Repack
import Unfydqry.Lib.Renaming
import Unfydqry.Search.Renumbered
import Unfydqry.WidthChange
import Unfydqry.DocumentPages
import Unfydqry.PageBounds
import Unfydqry.RowFailures
import Unfydqry.QuotedQueries
import Unfydqry.SimilarTexts
import Unfydqry.AllTermsSearch
import Unfydqry.Lib.EditDistance
import Unfydqry.Search.EditTable
import Unfydqry.Search.EditBuffers
import Unfydqry.EditDistances
import Unfydqry.WordFuzzy
import Unfydqry.RecordFrame
import Unfydqry.Lib.Sequence
import Unfydqry.FoundHighlighted
import Unfydqry.WhitespaceQuery
import Unfydqry.Engine.Handles
import Unfydqry.HalfWritten
import Unfydqry.TwoHandles
import Unfydqry.UndisturbedCalls
import Unfydqry.BatchCalls
import Unfydqry.TopRecords
import Unfydqry.Flutter.Wire
import Unfydqry.Flutter.Plugin
import Unfydqry.Flutter.Client
import Unfydqry.Flutter.Decoding
import Unfydqry.Flutter.Lifetime
import Unfydqry.Flutter.Answers
import Unfydqry.Flutter.Sides
import Unfydqry.Lib.Codec
import Unfydqry.Lib.Delimited
import Unfydqry.Binding.Strings
import Unfydqry.Binding.Values
import Unfydqry.Binding.Converters
import Unfydqry.Binding.WireFormat
import Unfydqry.Sample.Marked
import Unfydqry.Sample.Rows
import Unfydqry.Binding.Object
import Unfydqry.Binding.Lifetime
import Unfydqry.IndexSearch
