import GraphNode.Data.Entity
import GraphNode.Lib.List
import GraphNode.Lib.Bytes
import GraphNode.Lib.Merge
import GraphNode.Store.Write.Modification
import GraphNode.Store.Write.RowGroup
import GraphNode.Store.Write.Invariant
import GraphNode.Store.Write.LastOp
import GraphNode.Store.Write.Memoize
import GraphNode.Store.Write.Batch
import GraphNode.Store.Write.Iterators
import GraphNode.Store.EntityCache
import GraphNode.Store.EntityCache.Accumulate
import GraphNode.Store.EntityCache.Modifications
import GraphNode.Store.EntityCache.LoadRelated
import GraphNode.Store.Postgres.Layout
import GraphNode.Store.Postgres.Query
import GraphNode.Store.Postgres.Refinement
import GraphNode.Store.Postgres.BatchWrite
import GraphNode.Store.Postgres.Writable
import GraphNode.Store.Postgres.Rollup
import GraphNode.Chain.Ethereum.Adapter
import GraphNode.Chain.Ethereum.Trigger
import GraphNode.Chain.Ethereum.Filter
import GraphNode.Amp.RecordBatch
import GraphNode.Amp.StreamAggregator
import GraphNode.Runtime.AscAbi
import GraphNode.Runtime.AscGet
import GraphNode.Util.Intern
import GraphNode.Util.Object
import GraphNode.Util.LfuCache
import GraphNode.Data.BigDecimal
import GraphNode.Chain.Ethereum.PollingBlockStream
import GraphNode.Graphql.Complexity
import GraphNode.Store.Postgres.VidBatcher
import GraphNode.Util.BoundedQueue
import GraphNode.Util.Stats
import GraphNode.Store.Postgres.WriteQueue
import GraphNode.Util.AtomicStats
