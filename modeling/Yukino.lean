import Yukino.Raft.Election
import Yukino.Raft.Membership
import Yukino.Raft.Restart
import Yukino.Raft.Leadership
import Yukino.Raft.Totality
import Yukino.TimeWheel.Replace
import Yukino.Cache.Disruption
import Yukino.Cache.Group
import Yukino.Cache.SingleFlight
import Yukino.HashRing.Ownership
import Yukino.HashRing.RedisRing
import Yukino.RedisLock.Rollback
import Yukino.TaskFlow.Migrator
import Yukino.Tcc.Atomicity
import Yukino.ConsistentCache.Consistency
import Yukino.RedMq.Delivery
import Yukino.Timer.Lock
import Yukino.Http.Application
import Yukino.Http.Compose
import Yukino.Http.Reassembly
import Yukino.Rpc.Pending
import Yukino.Rpc.Packets
import Yukino.Rpc.Routing
import Yukino.Rpc.Bookkeeping
import Yukino.Rpc.WeightedRR
import Yukino.Rpc.Stream
import Yukino.AgentProxy.ClaudeStreams
import Yukino.CreativeAgent.Points
import Yukino.CreativeAgent.Requests
import Yukino.CreativeAgent.Payload
import Yukino.Raft.ReadQuorum
import Yukino.Raft.PreVote
import Yukino.Raft.LogRefinement
import Yukino.Raft.Probing
import Yukino.Lsm.TornLog
import Yukino.Lsm.Lookup
import Yukino.Lsm.LevelSearch
import Yukino.Lsm.FlushOrder
import Yukino.Cache.Recency
import Yukino.Cache.FreshWrite
