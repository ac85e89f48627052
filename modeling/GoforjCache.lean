import GoforjCache.Cache.Pull
import GoforjCache.Cache.RateLimit
import GoforjCache.Cache.RememberStale
import GoforjCache.Cache.TypedReads
import GoforjCache.Core.BoundedDecode
import GoforjCache.Core.Contract
import GoforjCache.Core.Inspect
import GoforjCache.Core.Observation
import GoforjCache.Core.Portable
import GoforjCache.Core.SerialLocks
import GoforjCache.Core.ShapedRuns
import GoforjCache.Core.Shaping
import GoforjCache.Core.ShapingRoundTrip
import GoforjCache.Core.ShapingUpgrade
import GoforjCache.Core.Types
import GoforjCache.Drivers.CounterLog
import GoforjCache.Drivers.CounterRange
import GoforjCache.Drivers.ExpiringTable
import GoforjCache.Drivers.FlushScope
import GoforjCache.Drivers.Inspection
import GoforjCache.Drivers.Isolation
import GoforjCache.Drivers.LazyRemoval
import GoforjCache.Drivers.Portability
import GoforjCache.Dynamo.BulkDelete
import GoforjCache.Dynamo.Counters
import GoforjCache.Dynamo.Inspect
import GoforjCache.Dynamo.Store
import GoforjCache.File.Equivalence
import GoforjCache.File.FailedWrites
import GoforjCache.File.Inspect
import GoforjCache.File.Records
import GoforjCache.File.Removals
import GoforjCache.File.Store
import GoforjCache.Foundation.Base64
import GoforjCache.Foundation.ByteCodec
import GoforjCache.Foundation.Decimal
import GoforjCache.Foundation.ExpiringMap
import GoforjCache.Foundation.Glob
import GoforjCache.Foundation.Lifecycle
import GoforjCache.Foundation.Like
import GoforjCache.Foundation.Linearization
import GoforjCache.Foundation.Noninterference
import GoforjCache.Foundation.Paging
import GoforjCache.Foundation.Readers
import GoforjCache.Foundation.RevisionedRegister
import GoforjCache.Foundation.Tenancy
import GoforjCache.Foundation.Transition
import GoforjCache.Foundation.Words
import GoforjCache.Lock.Background
import GoforjCache.Lock.Client
import GoforjCache.Lock.DirectLocks
import GoforjCache.Lock.Episode
import GoforjCache.Lock.Exclusion
import GoforjCache.Lock.Handle
import GoforjCache.Lock.HandleRelease
import GoforjCache.Lock.Layers
import GoforjCache.Lock.MemoryRefresh
import GoforjCache.Lock.Overlap
import GoforjCache.Lock.Refresh
import GoforjCache.Memcached.Acknowledged
import GoforjCache.Memcached.Commands
import GoforjCache.Memcached.CounterCalls
import GoforjCache.Memcached.Counters
import GoforjCache.Memcached.Hygiene
import GoforjCache.Memcached.Lifetimes
import GoforjCache.Memcached.Locality
import GoforjCache.Memcached.Logged
import GoforjCache.Memcached.RateLimit
import GoforjCache.Memcached.ReadYourWrites
import GoforjCache.Memcached.Rules
import GoforjCache.Memcached.Server
import GoforjCache.Memcached.Sharing
import GoforjCache.Memcached.SignedSums
import GoforjCache.Memcached.Simulation
import GoforjCache.Memcached.Store
import GoforjCache.Memcached.Termination
import GoforjCache.Memcached.Timed
import GoforjCache.Memcached.Wire
import GoforjCache.Memo.Coherence
import GoforjCache.Memo.Expiry
import GoforjCache.Memo.FailedBatches
import GoforjCache.Memo.Sequential
import GoforjCache.Memo.Store
import GoforjCache.Memory.Concurrency
import GoforjCache.Memory.Store
import GoforjCache.Nats.Counters
import GoforjCache.Nats.Envelope
import GoforjCache.Nats.Equivalence
import GoforjCache.Nats.Keys
import GoforjCache.Nats.Locks
import GoforjCache.Nats.Progress
import GoforjCache.Nats.Scope
import GoforjCache.Nats.Store
import GoforjCache.Redis.CounterExpiry
import GoforjCache.Redis.Equivalence
import GoforjCache.Redis.Flush
import GoforjCache.Redis.Inspect
import GoforjCache.Redis.Store
import GoforjCache.Sql.Counters
import GoforjCache.Sql.Inspect
import GoforjCache.Sql.Locks
import GoforjCache.Sql.Store
