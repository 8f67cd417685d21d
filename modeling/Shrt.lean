import Shrt.Lib.Framing
import Shrt.Lib.Decimal
import Shrt.Codec.LogLine
import Shrt.Codec.RoundTrip
import Shrt.Codec.Record
import Shrt.Codec.Spelling
import Shrt.Lib.HashMap
import Shrt.Store.Disk
import Shrt.Store.Engine
import Shrt.Store.History
import Shrt.Lib.KeyedLog
import Shrt.Store.Replay
import Shrt.Store.Journal
import Shrt.Store.Refinement
import Shrt.Lib.Runs
import Shrt.Store.Restart
import Shrt.Store.CompactFaults
import Shrt.Store.CompactCrash
import Shrt.Store.Handles
import Shrt.Store.Writers
import Shrt.Store.Race
import Shrt.Codec.Torn
import Shrt.Store.TornTail
import Shrt.Store.Tailing
import Shrt.Store.Pair
import Shrt.Store.Follower
import Shrt.Store.Mesh
import Shrt.Store.Simulation
import Shrt.Store.Settle
import Shrt.Http.App
import Shrt.Http.Connection
import Shrt.Http.Pipeline
import Shrt.Http.Redirect
import Shrt.Kv.Cached
import Shrt.Kv.Interleaved
import Shrt.Rocks.Interleaved
import Shrt.Store.Claim
import Shrt.Store.Ownership
import Shrt.Store.Links
import Shrt.Store.Reopened
import Shrt.Store.LogFormat
import Shrt.Kv.Deadlines
import Shrt.Kv.Fleet
import Shrt.Kv.Janitor
import Shrt.Kv.Equivalence
import Shrt.Rocks.Mutations
import Shrt.Rocks.Hits
import Shrt.Rocks.Reaping
import Shrt.Store.Tailed
import Shrt.Store.FailedFlush
import Shrt.Kv.Bulk
import Shrt.Kv.Outage
import Shrt.Rocks.Outage
import Shrt.Http.Slices
import Shrt.Http.Expiry
import Shrt.Http.Answered
import Shrt.Http.Reachable
import Shrt.Store.Missed
import Shrt.Store.Bulk
import Shrt.Store.Boot
import Shrt.Kv.Resp
import Shrt.Kv.Truncated
import Shrt.Rocks.Filter
import Shrt.Kv.Buckets
import Shrt.Kv.Unswept
import Shrt.Backends.Update
import Shrt.Rocks.Bulk
import Shrt.Kv.OldRows
import Shrt.Limiter.Throughput
import Shrt.Limiter.Memory
import Shrt.Limiter.Evicted
import Shrt.Limiter.Clock
import Shrt.Store.Pages
import Shrt.Kv.Delivered
import Shrt.Rocks.Listing
import Shrt.Backends.Created
import Shrt.Base62
import Shrt.Rocks.Merged
import Shrt.Metrics
import Shrt.Kv.Evictions
import Shrt.Codec.Indexed
import Shrt.Kv.Matched
import Shrt.Http.Client
import Shrt.Http.Hyper
import Shrt.Http.Service
import Shrt.Store.Crash
import Shrt.Kv.Staleness
import Shrt.Lib.Sharded
import Shrt.Store.Sharded
import Shrt.Prometheus
import Shrt.Backends.Store
import Shrt.Http.Acknowledged
import Shrt.Http.Stores
import Shrt.Kv.Scanned
