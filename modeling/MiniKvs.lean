import MiniKvs.Lib.Machine
import MiniKvs.Lib.SortedList
import MiniKvs.Lib.OrdMap
import MiniKvs.Lib.DList
import MiniKvs.Lib.Chunks
import MiniKvs.Lib.Bisect
import MiniKvs.Lib.Counter
import MiniKvs.Lib.Layers
import MiniKvs.Lib.TreeHeap
import MiniKvs.Lib.Bytes
import MiniKvs.Lib.Matches
import MiniKvs.Lib.Recency
import MiniKvs.Utils
import MiniKvs.Pool.LruRecency
import MiniKvs.Pool.LocalDepth
import MiniKvs.Pool.AllPages
import MiniKvs.Pool.SplitRecursion
import MiniKvs.Pool.ShrinkLoss
import MiniKvs.Pool.DepthBounds
import MiniKvs.Pool.Capacity
import MiniKvs.Pool.Lifetime
import MiniKvs.Pool.LockStep
import MiniKvs.Pool.Coherence
import MiniKvs.Pool.Residency
import MiniKvs.Memtable.AvlTree
import MiniKvs.Memtable.AvlPointers
import MiniKvs.Sst.Merging
import MiniKvs.Sst.Reading
import MiniKvs.Sst.CachedScan
import MiniKvs.Sst.Height
import MiniKvs.Sst.LastLevel
import MiniKvs.Sst.Positions
import MiniKvs.Sst.Bytes
import MiniKvs.Sst.ByteFiles
import MiniKvs.Sst.ByteBuild
import MiniKvs.Sst.LeafNodes
import MiniKvs.Sst.CachedBytes
import MiniKvs.Store.Level
import MiniKvs.Store.ByteTree
import MiniKvs.Store.KVStore
import MiniKvs.Store.Settling
import MiniKvs.Store.Contents
import MiniKvs.Store.Rest
import MiniKvs.Store.Runs
import MiniKvs.Store.Bounded
import MiniKvs.Store.Reopen
import MiniKvs.Store.Loading
import MiniKvs.Store.Snapshot
import MiniKvs.Store.Serving
import MiniKvs.Store.Isolation
import MiniKvs.Store.Refinement
import MiniKvs.Store.Scanning
import MiniKvs.Store.ReadCost
import MiniKvs.Store.Coherence
import MiniKvs.Sst.Unfiltered
import MiniKvs.Store.Agreement
import MiniKvs.Store.WorkingSet
import MiniKvs.Store.Amortised
import MiniKvs.Store.Memtable
import MiniKvs.Store.Durable
import MiniKvs.Store.ByteStore
