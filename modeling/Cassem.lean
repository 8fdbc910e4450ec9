import Cassem.Lib.SortedMap
import Cassem.Lib.Tree
import Cassem.Lib.HierMap
import Cassem.Lib.Transition
import Cassem.Lib.Count
import Cassem.Lib.Fold
import Cassem.Lib.Program
import Cassem.Lib.Decimal
import Cassem.Lib.Recency
import Cassem.Lib.LRUK
import Cassem.Lib.LinkedList
import Cassem.Lib.Split
import Cassem.Lib.Base64
import Cassem.Lib.Protobuf
import Cassem.Lib.Interleave
import Cassem.Lib.CSV
import Cassem.Lib.Paging
import Cassem.Lib.ResumedScan
import Cassem.Lib.SharedCursor
import Cassem.Concept.Error
import Cassem.KV.Entity
import Cassem.KV.Storage
import Cassem.KV.Hierarchy
import Cassem.KV.RaftNode
import Cassem.KV.Apply
import Cassem.KV.Recovery
import Cassem.KV.Cluster
import Cassem.KV.Acknowledge
import Cassem.KV.Origin
import Cassem.KV.Expiry
import Cassem.KV.ExclusiveCreate
import Cassem.KV.EventLoop
import Cassem.KV.SnapshotConsistency
import Cassem.Concept.Element
import Cassem.Concept.ElementKey
import Cassem.Coord.Element
import Cassem.Coord.Plan
import Cassem.Coord.Outcome
import Cassem.Coord.MetadataInvariant
import Cassem.Coord.PartialFailure
import Cassem.Coord.Serialise
import Cassem.Coord.Compaction
import Cassem.Adm.Bind
import Cassem.Adm.Route
import Cassem.Adm.Scope
import Cassem.Adm.Session
import Cassem.Adm.Guard
import Cassem.Coord.Account
import Cassem.Coord.Token
import Cassem.Coord.TokenSoundness
import Cassem.Adm.SessionValidity
import Cassem.Coord.Acl
import Cassem.Coord.Superadmin
import Cassem.Coord.RolePersistence
import Cassem.Coord.PolicyRecord
import Cassem.Coord.PolicyRoundTrip
import Cassem.Coord.RoleMerge
import Cassem.Coord.Store
import Cassem.Coord.Read
import Cassem.Agent.Cache
import Cassem.Agent.LRUK
import Cassem.Agent.CacheCoherence
import Cassem.Agent.GetElement
import Cassem.KV.Membership
import Cassem.KV.Delivery
import Cassem.KV.WatchStream
import Cassem.KV.HierarchicalMap
import Cassem.Coord.AgentHybrid
import Cassem.Lib.Chan
import Cassem.KV.Watcher
import Cassem.KV.Shutdown
import Cassem.KV.LeaderHealth
import Cassem.Agent.Dispatch
import Cassem.Agent.ReadAccess
import Cassem.Agent.PoolIndex
import Cassem.Agent.Streams
import Cassem.Adm.AgentPool
import Cassem.Adm.AgentRefresh
import Cassem.Adm.AgentDelivery
import Cassem.Adm.DispatchOrder
import Cassem.Coord.InstanceHybrid
import Cassem.Coord.InstanceIndex
import Cassem.Coord.InstanceRegistration
import Cassem.Sdk.Client
import Cassem.Sdk.Lifecycle
import Cassem.KV.Listing
import Cassem.Adm.RetentionGC
import Cassem.Adm.RetentionScan
import Cassem.Adm.RetentionRun
import Cassem.Adm.RetentionCycle
import Cassem.Adm.RetentionDeadline
import Cassem.KV.Children
import Cassem.KV.RangePaging
import Cassem.KV.RangeKeys
import Cassem.KV.ConditionalSet
import Cassem.KV.Aging
import Cassem.Lib.LRUKCapacity
import Cassem.Agent.Purge
import Cassem.KV.WatchHandler
import Cassem.Coord.Search
import Cassem.Coord.CompactionRun
import Cassem.KV.Sequential
import Cassem.Coord.ElementStore
import Cassem.Coord.ElementLayout
import Cassem.Coord.ElementService
import Cassem.Coord.ElementHistory
import Cassem.Coord.SearchPaging
import Cassem.Agent.ErrorStatus
import Cassem.Coord.KeyCodec
import Cassem.Coord.Deletion
import Cassem.Coord.InstanceKeys
import Cassem.Coord.RoleDomains
import Cassem.KV.PeerTable
import Cassem.KV.DistributedLock
import Cassem.Coord.Enforce
import Cassem.Adm.Access
import Cassem.Coord.TokenAccess
import Cassem.Coord.Document
import Cassem.Coord.DocumentStore
import Cassem.Coord.ValueLimit
import Cassem.Coord.OperationLog
import Cassem.Coord.HistoryPaging
import Cassem.Web.CopyElement
import Cassem.Web.CopyEnvironment
import Cassem.KV.Replication
