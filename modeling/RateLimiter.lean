import RateLimiter.Policy.Schema
import RateLimiter.Lib.LuaNumber
import RateLimiter.Policy.Keys
import RateLimiter.Redis.Scripts
import RateLimiter.Lib.Quota.Bucket
import RateLimiter.Limiter.Decision
import RateLimiter.Limiter.Ideal
import RateLimiter.Redis.Refinement
import RateLimiter.Redis.Server
import RateLimiter.Redis.Expiry
import RateLimiter.Limiter.Algorithms
import RateLimiter.Limiter.LocalFallback
import RateLimiter.Limiter.Agreement
import RateLimiter.Lib.Transition
import RateLimiter.Service.Fleet
import RateLimiter.Service.Invariant
import RateLimiter.Service.Quota
import RateLimiter.Service.Charges
import RateLimiter.Database.Table
import RateLimiter.Database.Writes
import RateLimiter.Database.Validity
import RateLimiter.Database.Versions
import RateLimiter.Cache.Calls
import RateLimiter.Cache.Interleaving
import RateLimiter.Cache.Freshness
import RateLimiter.Cache.Staleness
import RateLimiter.MultiRegion.Simulation
import RateLimiter.MultiRegion.Oversubscription
import RateLimiter.Lib.Quota.Forecast
import RateLimiter.Redis.Outcome
import RateLimiter.Limiter.Forecast
import RateLimiter.Limiter.Machines
import RateLimiter.Limiter.Replies
import RateLimiter.Limiter.Denials
import RateLimiter.Lib.Quota.Levels
import RateLimiter.Redis.BucketRule
import RateLimiter.Limiter.ClockSteps
import RateLimiter.Limiter.WindowRule
import RateLimiter.Limiter.LocalServer
import RateLimiter.Limiter.LogEviction
import RateLimiter.Lib.Quota.Forgetful
import RateLimiter.Limiter.WindowCrossings
import RateLimiter.Lib.FirstMaximum
import RateLimiter.Policy.Resolution
import RateLimiter.Database.Columns
import RateLimiter.Limiter.Deadline
import RateLimiter.Service.Evaluate
import RateLimiter.Service.PolicyService
import RateLimiter.Service.Updates
import RateLimiter.Service.Upserts
import RateLimiter.Policy.Json
import RateLimiter.Service.ConfigSync
import RateLimiter.MultiRegion.Accounting
import RateLimiter.MultiRegion.Delivery
import RateLimiter.MultiRegion.LagComparison
import RateLimiter.MultiRegion.LagFidelity
import RateLimiter.Lib.JsonText.Text
import RateLimiter.Lib.JsonText.Numbers
import RateLimiter.Lib.JsonText.RoundTrip
import RateLimiter.Policy.CacheFormat
import RateLimiter.Cache.TextCache
import RateLimiter.Cache.Provenance
import RateLimiter.Service.System
import RateLimiter.Service.SystemFleet
import RateLimiter.Service.SystemQuota
import RateLimiter.Http.Api
import RateLimiter.Http.Authority
import RateLimiter.Service.Directory
import RateLimiter.Http.Directory
import RateLimiter.Service.Alone
import RateLimiter.Http.Quota
import RateLimiter.Limiter.Retention
import RateLimiter.Redis.Retention
import RateLimiter.Service.Retention
import RateLimiter.Service.RetryAfter
import RateLimiter.Service.Seed
