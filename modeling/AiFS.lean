import AiFS.Lib.Machine
import AiFS.Lib.TermLog
import AiFS.Lib.TermLogInv
import AiFS.Lib.TermLogSafety
import AiFS.Lib.LastSeen
import AiFS.Lib.Pool
import AiFS.Lib.Linearize
import AiFS.Lib.Links
import AiFS.Lib.Backtrack
import AiFS.Lib.Components
import AiFS.Raft.Basic
import AiFS.Raft.Handlers
import AiFS.Raft.Cluster
import AiFS.Raft.LogShape
import AiFS.Raft.HandlerSpec
import AiFS.Raft.Moves
import AiFS.Raft.Delivery
import AiFS.Raft.Abstraction
import AiFS.Raft.Simulation
import AiFS.Raft.AllRuns
import AiFS.Raft.Safety
import AiFS.Raft.Senders
import AiFS.Raft.Promise
import AiFS.Raft.Durability
import AiFS.Raft.Representation
import AiFS.Raft.Exchange
import AiFS.Raft.Compaction
import AiFS.Raft.Backup
import AiFS.Raft.NextIndex
import AiFS.Raft.Stale
import AiFS.Raft.Validity
import AiFS.Porcupine.Bitset
import AiFS.Porcupine.Checker
import AiFS.Porcupine.KvModel
import AiFS.Porcupine.Layout
import AiFS.Porcupine.Search
import AiFS.Porcupine.CheckSingle
import AiFS.Porcupine.Entries
import AiFS.Porcupine.Parallel
import AiFS.Porcupine.CheckOperations
import AiFS.Porcupine.CheckEvents
import AiFS.LabRpc.Network
import AiFS.LabRpc.Calls
import AiFS.KV.Basic
import AiFS.KV.Dedup
import AiFS.KV.Replica
import AiFS.KV.Waiters
import AiFS.KV.Notify
import AiFS.KV.Serving
import AiFS.KV.Recovery
import AiFS.KV.Agreement
import AiFS.KV.Applied
import AiFS.KV.Ledger
import AiFS.KV.Http
import AiFS.KV.Servers
import AiFS.KV.ServersLedger
import AiFS.KV.Anonymous
import AiFS.KV.Honest
import AiFS.KV.Client
import AiFS.KV.RoundRobin
import AiFS.KV.ClientCalls
import AiFS.KV.Acknowledge
import AiFS.KV.Clerk
import AiFS.KV.ClerkTurns
import AiFS.KV.ClerkHistory
import AiFS.Controlplane.Controller
import AiFS.Controlplane.Keys
import AiFS.Controlplane.Scheduling
import AiFS.Controlplane.Registry
import AiFS.Controlplane.Expiry
import AiFS.Controlplane.Calls
import AiFS.Dataplane.Gateway
import AiFS.Dataplane.Conservation
import AiFS.Dataplane.InferencePool
import AiFS.Dataplane.InferenceOnce
import AiFS.Dataplane.EndToEnd
