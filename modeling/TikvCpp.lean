import TikvCpp.Data.OrdMap
import TikvCpp.Data.Hex
import TikvCpp.Order.Span
import TikvCpp.Order.Tiling
import TikvCpp.Transition.Run
import TikvCpp.Transition.Program
import TikvCpp.Sync.RWLock
import TikvCpp.Sync.Threads
import TikvCpp.Sync.Abandoned
import TikvCpp.Sync.Waiters
import TikvCpp.Btree.Node
import TikvCpp.Btree.Tree
import TikvCpp.Btree.Iteration
import TikvCpp.Btree.Insert
import TikvCpp.Btree.Search
import TikvCpp.Btree.Erase
import TikvCpp.Btree.Map
import TikvCpp.Btree.Verify
import TikvCpp.Meta
import TikvCpp.Utils
import TikvCpp.PDClient.Answers
import TikvCpp.PDClient.Client
import TikvCpp.PDClient.Rules
import TikvCpp.PDClient.Failover
import TikvCpp.PDClient.Bookkeeping
import TikvCpp.PDClient.Picks
import TikvCpp.PDClient.Dials
import TikvCpp.PDClient.Refresh
import TikvCpp.PDClient.HeaderErrors
import TikvCpp.PDClient.Replay
import TikvCpp.RegionCache.Cache
import TikvCpp.RegionCache.Clients
import TikvCpp.RegionCache.IndexAgreement
import TikvCpp.RegionCache.Dump
import TikvCpp.RegionCache.OnBtree
import TikvCpp.RegionCache.Provenance
import TikvCpp.RegionCache.Partition
import TikvCpp.RegionCache.Search
import TikvCpp.RegionCache.CacheHits
import TikvCpp.RegionCache.Process
import TikvCpp.RegionCache.Locks
import TikvCpp.RegionCache.LockRefinement
import TikvCpp.RegionCache.StoreLock
import TikvCpp.RegionCache.Waits
import TikvCpp.RegionCache.Leaders
import TikvCpp.RegionCache.Calls
import TikvCpp.RegionCache.StoreAddrs
import TikvCpp.RegionCache.Epochs
import TikvCpp.RegionCache.LeaderUpdate
import TikvCpp.RegionCache.AccessTimes
import TikvCpp.RegionCache.RpcContexts
import TikvCpp.RegionCache.Drops
import TikvCpp.RegionCache.Commutation
import TikvCpp.RegionCache.World
import TikvCpp.RegionCache.Overlap
import TikvCpp.Mock.Cluster
import TikvCpp.Mock.History
import TikvCpp.Mock.Splits
import TikvCpp.RegionCache.SplitCluster
import TikvCpp.RegionCache.StableHits
