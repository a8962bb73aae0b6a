import CrossByte.Auth.JWT
import CrossByte.Cluster.NodeChannelRuns
import CrossByte.Cluster.Rendezvous
import CrossByte.Cluster.SnowflakeId
import CrossByte.DS.InterestSet
import CrossByte.DS.SequenceRingBits
import CrossByte.DS.SequenceRingWindow
import CrossByte.Db.ConnectionPoolLoans
import CrossByte.Db.Kv.MemoryKVStoreRuns
import CrossByte.Db.SchemaMigrator
import CrossByte.Http.H2.H2Connection
import CrossByte.Http.H2.H2Stream
import CrossByte.Http.H2.HpackOctets
import CrossByte.Http.LoadPool
import CrossByte.Http.RequestBodyMemoryRun
import CrossByte.Net.Ice.IceRoles
import CrossByte.Net.Ice.IceSelection
import CrossByte.Net.RateLimiter
import CrossByte.Net.Reliable.FrameWindow
import CrossByte.Net.SessionCipherReplay
import CrossByte.Net.Stun.StunIntegrity
import CrossByte.Net.TurnStream
import CrossByte.RPC.BudgetExact
import CrossByte.RPC.Chunks
import CrossByte.RPC.DeadlinesRun
import CrossByte.RPC.StringKeys
import CrossByte.Storage.FileStoreRuns
import CrossByte.System.Timer.TimerTable
import CrossByte.System.Timer.TimerWheelTicks
import CrossByte.System.Timer.Timers
