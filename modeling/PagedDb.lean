import PagedDb.Basic
import PagedDb.Tuple
import PagedDb.LeafPage
import PagedDb.LeafMap
import PagedDb.IndexPage
import PagedDb.World
import PagedDb.BufferPool
import PagedDb.FrameAccounting
import PagedDb.Lru
import PagedDb.Coherence
import PagedDb.HeapPage
import PagedDb.HeapPageView
import PagedDb.HeapFile
import PagedDb.HeapScan
import PagedDb.HeapIterate
import PagedDb.HeapRun
import PagedDb.HeapClient
import PagedDb.Binary64
import PagedDb.Query
import PagedDb.QueryScan
import PagedDb.QueryRun
import PagedDb.Aggregate
import PagedDb.AggregateGroup
import PagedDb.AggregateValue
import PagedDb.AggregateRun
import PagedDb.QueryOutput
