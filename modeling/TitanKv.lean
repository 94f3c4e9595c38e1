import TitanKv.Lib.Lines
import TitanKv.Lib.Linear
import TitanKv.Lib.LogOrder
import TitanKv.Lib.Deadlock
import TitanKv.Lib.Files
import TitanKv.Lib.Scan
import TitanKv.Lib.Merged
import TitanKv.Lib.FifoSerial
import TitanKv.Engine
import TitanKv.Protocol
import TitanKv.Server
import TitanKv.Keyspace
import TitanKv.Replay
import TitanKv.Dispatch
import TitanKv.Agreement
import TitanKv.Concurrent
import TitanKv.Locks
import TitanKv.Codec
import TitanKv.Torn
import TitanKv.Compaction
import TitanKv.Background
import TitanKv.Durability
import TitanKv.Snapshot
import TitanKv.Sweeper
import TitanKv.Reader
import TitanKv.Replies
import TitanKv.Effects
import TitanKv.Connection
import TitanKv.Queue
import TitanKv.Sharding
import TitanKv.Isolation
import TitanKv.Locality
import TitanKv.Writer
import TitanKv.Trim
import TitanKv.Recovery
import TitanKv.Routing
import TitanKv.Restarts
import TitanKv.Ranges
import TitanKv.Moves
import TitanKv.Types
import TitanKv.Counting
import TitanKv.Deadlines
import TitanKv.Sizes
import TitanKv.Audit
import TitanKv.Expiry
import TitanKv.Boot
import TitanKv.Lifetimes
import TitanKv.Scanning
import TitanKv.Patterns
import TitanKv.Emptied
import TitanKv.SweepTiming
import TitanKv.Inline
import TitanKv.Pubsub
import TitanKv.ThreadPool
import TitanKv.Delivery
import TitanKv.Monitors
import TitanKv.Crash
import TitanKv.Listing
import TitanKv.SweepPass
import TitanKv.Waiting
import TitanKv.Wire
import TitanKv.Sessions
import TitanKv.Serving
import TitanKv.Registry
