import Lucivy.Indexer.DictionaryFiles
import Lucivy.Indexer.ReferencedTexts
import Lucivy.SuffixFst.InternKey
import Lucivy.Briques.Boundaries
import Lucivy.Sharded.DocumentFlow
import Lucivy.Indexer.InternedIds
import Lucivy.SuffixFst.ByteOffsets
import Lucivy.SuffixFst.WordPosMap
import Lucivy.SuffixFst.DerivedFiles
import Lucivy.Sync.CrashSafety
import Lucivy.Query.ExpressionValue
import Lucivy.Query.LeafFrequencies
import Lucivy.Query.TruncatedPrescan
import Lucivy.Sharded.ShardShutdown
import Lucivy.Sharded.UncommittedFlag
import Lucivy.Sharded.SearchCompleteness
import Lucivy.Sharded.SparsePool
import Lucivy.SuffixFst.ParentRecord
import Lucivy.Indexer.PendingFlag
import Lucivy.Indexer.HeldOnce
import Lucivy.Indexer.PipelineTokens
import Lucivy.SuffixFst.PendingEpochs
import Lucivy.Luciole.Runtime
import Lucivy.Luciole.SuspendResume
import Lucivy.Sparse.Postings
