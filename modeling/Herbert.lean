import Herbert.AllLocks
import Herbert.Arrow
import Herbert.Broker
import Herbert.Cli
import Herbert.Client
import Herbert.ClientReads
import Herbert.Connection
import Herbert.Consumers
import Herbert.Continuous
import Herbert.Crash
import Herbert.Creations
import Herbert.Durability
import Herbert.FailedCalls
import Herbert.Faults
import Herbert.Fetch
import Herbert.Framing
import Herbert.Grammar
import Herbert.Group
import Herbert.GroupCommit
import Herbert.Groups
import Herbert.Handlers
import Herbert.Isolation
import Herbert.KafkaApi
import Herbert.Lib.Atomic
import Herbert.Lib.BufWriter
import Herbert.Lib.Bytes
import Herbert.Lib.Chunks
import Herbert.Lib.Codec
import Herbert.Lib.Collect
import Herbert.Lib.Cursor
import Herbert.Lib.Faulty
import Herbert.Lib.FlatIndex
import Herbert.Lib.Frames
import Herbert.Lib.Json
import Herbert.Lib.Mutex
import Herbert.Lib.Runs
import Herbert.Lib.Stream
import Herbert.Lifetimes
import Herbert.Linear
import Herbert.Listeners
import Herbert.Locks
import Herbert.Managers
import Herbert.Metadata
import Herbert.OffsetCalls
import Herbert.OffsetManager
import Herbert.OffsetRecovery
import Herbert.OffsetThreads
import Herbert.Outages
import Herbert.Panics
import Herbert.Parallel
import Herbert.Payload
import Herbert.Ports
import Herbert.Producers
import Herbert.Progress
import Herbert.Queue
import Herbert.Recovery
import Herbert.Requests
import Herbert.Rows
import Herbert.Sequential
import Herbert.Serial
import Herbert.Server
import Herbert.ShortWrites
import Herbert.Slices
import Herbert.SocketGroup
import Herbert.Sockets
import Herbert.Storage
import Herbert.Streams
import Herbert.Tasks
import Herbert.Threads
import Herbert.TopicManager
import Herbert.TornTail
import Herbert.Wal
import Herbert.WalOrder
import Herbert.Wire
