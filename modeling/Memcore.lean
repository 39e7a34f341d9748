import Memcore.Lib.ByteStream
import Memcore.Lib.Cut
import Memcore.Lib.Go
import Memcore.Lib.DList
import Memcore.Lib.GoMap
import Memcore.Lib.Index
import Memcore.Lib.Raise
import Memcore.Lib.Incremental
import Memcore.Lib.Calls
import Memcore.Value.Pack
import Memcore.Value.List
import Memcore.Value.Hash
import Memcore.Value.Set
import Memcore.Value.Maps
import Memcore.Lib.Chain
import Memcore.Value.Score
import Memcore.Value.SkipList
import Memcore.Value.ZSet
import Memcore.Value.Levels
import Memcore.Value.AnyScore
import Memcore.Value.Ranking
import Memcore.Value.Compact
import Memcore.Value.Value
import Memcore.Keyspace
import Memcore.KeyspaceIndex
import Memcore.Reply
import Memcore.Settings
import Memcore.SettingsRace
import Memcore.Resp.Writer
import Memcore.Lib.Prog
import Memcore.Lib.Run
import Memcore.Lib.Count
import Memcore.Lib.RWLock
import Memcore.Lib.Exclusion
import Memcore.Lib.Register
import Memcore.Lib.Machine
import Memcore.Lib.File
import Memcore.Lib.Bufio
import Memcore.Lib.BufWriter
import Memcore.Lib.FileWriter
import Memcore.Lib.Stream
import Memcore.Lib.Ahead
import Memcore.Lib.Recogniser
import Memcore.Resp.Output
import Memcore.Resp.Reader
import Memcore.Client.Client
import Memcore.Client.Node
import Memcore.Resp.Grammar
import Memcore.Resp.Packets
import Memcore.Resp.Rounds
import Memcore.Resp.Cut
import Memcore.Command.Context
import Memcore.Shards
import Memcore.Command.Handlers
import Memcore.Command.Config
import Memcore.Command.Registry
import Memcore.Command.Effect
import Memcore.Command.Growth
import Memcore.Command.Stored
import Memcore.Command.Answer
import Memcore.Command.Footprint
import Memcore.Command.Deadline
import Memcore.Command.Counter
import Memcore.Command.Refine
import Memcore.Command.Replies
import Memcore.Command.Intersection
import Memcore.Command.Framing
import Memcore.Server.Execute
import Memcore.Persistence.Codec
import Memcore.Persistence.Snapshot
import Memcore.Persistence.Truncated
import Memcore.Persistence.AppendLog
import Memcore.Persistence.Damaged
import Memcore.Persistence.Store
import Memcore.Persistence.Lifetime
import Memcore.Persistence.Compaction
import Memcore.Persistence.Durable
import Memcore.Persistence.Synced
import Memcore.Persistence.FailingStore
import Memcore.Persistence.FailedRotate
import Memcore.Server.Recover
import Memcore.Server.DamagedBoot
import Memcore.Server.Expire
import Memcore.Server.Serve
import Memcore.Server.Conn
import Memcore.Server.Outcome
import Memcore.Server.Aligned
import Memcore.Server.Timeless
import Memcore.Server.Durability
import Memcore.Server.Persistent
import Memcore.Server.Acknowledged
import Memcore.Server.Confined
import Memcore.Server.Declared
import Memcore.Server.ActiveExpiry
import Memcore.Server.Reached
import Memcore.Server.RecoveredSettings
import Memcore.Server.Concurrent
import Memcore.Server.Locks
import Memcore.Server.Serializable
import Memcore.Server.Spec
import Memcore.Server.Configuration
import Memcore.Server.Live
import Memcore.Server.Linearizable
import Memcore.Server.Grain
import Memcore.Server.SnapshotCut
import Memcore.Server.Crash
import Memcore.Server.Restart
import Memcore.Server.Framed
import Memcore.Server.Network
import Memcore.Server.Lifecycle
