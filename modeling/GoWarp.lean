import GoWarp.Cache.Accounting
import GoWarp.Core.Lease
import GoWarp.Core.LeaseEnd
import GoWarp.Lock.Nats
import GoWarp.Lock.Timers
import GoWarp.Lock.Wakeup
import GoWarp.Lock.NatsAcquire
import GoWarp.Mesh.Listen
import GoWarp.Mesh.PendingSet
import GoWarp.Core.Quorum
import GoWarp.Core.Coherence
import GoWarp.Core.Observability
import GoWarp.Core.FailSafe
import GoWarp.Core.DynamicTTL
import GoWarp.Core.LoadThrough
import GoWarp.Core.Leaks
import GoWarp.Core.Warming
import GoWarp.Core.Convergence
import GoWarp.Core.OwnWrite
import GoWarp.Core.CompareAndSwap
import GoWarp.StreamBus.Session
import GoWarp.StreamBus.Resume
import GoWarp.StreamBus.Gap
import GoWarp.StreamBus.Signals
import GoWarp.StreamBus.FanOut
import GoWarp.StreamBus.Arrivals
import GoWarp.WatchBus.Matching
import GoWarp.WatchBus.Nats
import GoWarp.Core.ClockLattice
import GoWarp.Core.AutoHeal
import GoWarp.Core.Resiliency
import GoWarp.Core.MapCache
import GoWarp.Core.PastValues
import GoWarp.Core.TimeTravel
import GoWarp.Core.KeyBound
import GoWarp.Cache.SlidingWindow
import GoWarp.Adapter.Batches
import GoWarp.SyncBus.Delivery
import GoWarp.SyncBus.Redis
import GoWarp.Lock.Echo
import GoWarp.Lock.Exclusion
