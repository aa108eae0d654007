import RedisSemaphore.Transition
import RedisSemaphore.Simulation
import RedisSemaphore.TwoRuns
import RedisSemaphore.Population
import RedisSemaphore.LeaseService
import RedisSemaphore.KeyLayout
import RedisSemaphore.Redis.SortedSet
import RedisSemaphore.Redis.Key
import RedisSemaphore.Redis.LuaNumber
import RedisSemaphore.Semaphore.Scripts
import RedisSemaphore.Semaphore.OwnersTtl
import RedisSemaphore.Semaphore.Leases
import RedisSemaphore.Semaphore.MutualExclusion
import RedisSemaphore.Semaphore.Fencing
import RedisSemaphore.Semaphore.Observers
import RedisSemaphore.Semaphore.ReleaseAnswer
import RedisSemaphore.Semaphore.Instance
import RedisSemaphore.Semaphore.HeartbeatLife
import RedisSemaphore.Semaphore.Belief
import RedisSemaphore.Semaphore.Loss
import RedisSemaphore.Semaphore.Occupancy
import RedisSemaphore.Semaphore.ReleaseGuard
import RedisSemaphore.Semaphore.Deadline
import RedisSemaphore.Semaphore.Wakeup
import RedisSemaphore.Semaphore.AcquireLoop
import RedisSemaphore.Semaphore.AcquireTimeout
import RedisSemaphore.Semaphore.Backoff
import RedisSemaphore.Semaphore.WaitingCounter
import RedisSemaphore.Semaphore.Refinement
import RedisSemaphore.Semaphore.Skew
import RedisSemaphore.KeyedLoop
import RedisSemaphore.RateLimiter.Scripts
import RedisSemaphore.RateLimiter.Limits
import RedisSemaphore.RateLimiter.Accounting
import RedisSemaphore.SlidingWindow
import RedisSemaphore.WindowService
import RedisSemaphore.RateLimiter.Admission
import RedisSemaphore.RateLimiter.Expiry
import RedisSemaphore.RateLimiter.RetryAfter
import RedisSemaphore.RateLimiter.Denials
import RedisSemaphore.RateLimiter.Window
import RedisSemaphore.RateLimiter.Resend
import RedisSemaphore.RateLimiter.Permits
import RedisSemaphore.RateLimiter.Replace
import RedisSemaphore.RateLimiter.Lifetime
import RedisSemaphore.RateLimiter.Blocking
import RedisSemaphore.RateLimiter.Abort
import RedisSemaphore.RateLimiter.SmallCosts
import RedisSemaphore.RateLimiter.PermitScope
import RedisSemaphore.RateLimiter.Refinement
import RedisSemaphore.RateLimiter.Skew
import RedisSemaphore.Redis.HashTag
import RedisSemaphore.ClusterKeys
import RedisSemaphore.Redis.Stream
import RedisSemaphore.Dispatch.Server
import RedisSemaphore.Dispatch.Worker
import RedisSemaphore.Dispatch.System
import RedisSemaphore.Dispatch.NoLoss
import RedisSemaphore.Dispatch.Admission
import RedisSemaphore.Dispatch.Timeout
import RedisSemaphore.Dispatch.ClaimLock
import RedisSemaphore.Dispatch.Taken
import RedisSemaphore.Dispatch.Once
import RedisSemaphore.Dispatch.HandBack
import RedisSemaphore.Dispatch.Order
import RedisSemaphore.Dispatch.Fifo
import RedisSemaphore.Dispatch.Scan
import RedisSemaphore.Dispatch.Backlog
import RedisSemaphore.Dispatch.Requeue
import RedisSemaphore.Dispatch.Drop
import RedisSemaphore.Dispatch.Enqueue
import RedisSemaphore.Dispatch.Lifecycle
import RedisSemaphore.Dispatch.Shutdown
import RedisSemaphore.Dispatch.Fatal
import RedisSemaphore.Dispatch.Leadership
import RedisSemaphore.Dispatch.Submit
import RedisSemaphore.Dispatch.Pass
import RedisSemaphore.Redis.Text
import RedisSemaphore.Redis.Script
import RedisSemaphore.Redis.Rename
import RedisSemaphore.Wire
import RedisSemaphore.Semaphore.Wire
import RedisSemaphore.RateLimiter.Wire
import RedisSemaphore.Deployment
import RedisSemaphore.ScriptClient
import RedisSemaphore.Json
import RedisSemaphore.Dispatch.Codec
import RedisSemaphore.Dispatch.Told
import RedisSemaphore.Dispatch.Exchange
