import AiFS.Lib.Machine
import AiFS.Raft.Handlers

set_option autoImplicit false

/-! # The cluster

`n` Raft objects, the goroutines they have started and the RPCs between them, as one partial step
function `Cluster.step`. A step is one stretch of code under one server's lock, so a run is an
arbitrary interleaving of all goroutines of all servers.

* A goroutine that is waiting for the lock is a `Task` of its server. The gaps in which the source
  holds no lock are the points where a task is in the list: between the leader check of
  `broadcastHeartbeat` or `replicationLog` and the per-peer goroutine of `makeAppendEntry`, between
  that goroutine's snapshot test and `sendInstallSnapshotToPeers`, and between the last vote and
  `becomeLeader`.
* A goroutine that is waiting for a call to return is the call's `Packet`: the request on its way,
  then the reply on its way back. The network delivers packets in any order or drops them, and
  delivers none twice. `labrpc` runs a handler at most once a call and reports a lost request or
  reply to the caller, which then changes nothing (a vote goroutine goes on with a zero reply, that
  neither grants a vote nor has a high term).
* `epoch` counts a server's restarts: a reply to a call of an earlier object finds no goroutine.
* Timeouts are arbitrary: `tick` may happen whenever the ticker's check of `state` allows it.
* A crash loses everything but the persister. It may also hit a handler that has already persisted
  the higher term of a request (`crashMid`); every other point of a crash inside a handler leaves
  the same persister as one before or after it. -/

namespace AiFS

variable {n : ℕ} {κ : Type}

/-! ## State -/

/-- A goroutine that waits for its server's lock, by what it does next. -/
inductive Task (n : ℕ)
  | startElection
  | becomeLeader (electionTerm replyTerm : ℕ)
  | checkReplyTerm (replyTerm : ℕ)
  | broadcastHeartbeat
  | replicationLog
  | makeAppendEntry (peer : Fin n)
  | sendInstallSnapshotToPeers (peer : Fin n)
deriving DecidableEq

/-- A call on its way from the caller `src` to `dst`, or its reply on the way back to `src`. -/
inductive Packet (n : ℕ) (κ : Type)
  | requestVote (src dst : Fin n) (epoch : ℕ) (args : RequestVoteArgs n)
  | requestVoteReply (src dst : Fin n) (epoch : ℕ) (args : RequestVoteArgs n)
      (reply : RequestVoteReply)
  | appendEntries (src dst : Fin n) (epoch : ℕ) (args : AppendEntriesArgs n κ)
  | appendEntriesReply (src dst : Fin n) (epoch : ℕ) (args : AppendEntriesArgs n κ)
      (reply : AppendEntriesReply)
  | installSnapshot (src dst : Fin n) (epoch : ℕ) (args : InstallSnapshotArgs n κ)
  | installSnapshotReply (src dst : Fin n) (epoch : ℕ) (args : InstallSnapshotArgs n κ)
      (reply : InstallSnapshotReply)
deriving DecidableEq

structure Node (n : ℕ) (κ : Type) where
  rf : Raft n κ
  tasks : List (Task n)
  /-- The `votes` variables of the elections this object has started, by their `startTerm`. -/
  votes : ℕ → ℕ
  epoch : ℕ
  /-- The goroutines blocked on `applyCh <- msg`, by their message. -/
  outbox : List (ApplyMsg κ)

structure Cluster (n : ℕ) (κ : Type) where
  node : Fin n → Node n κ
  net : List (Packet n κ)

/-- All servers but `me`. -/
def peers (me : Fin n) : List (Fin n) :=
  (List.finRange n).filter (fun peer => peer ≠ me)

/-! ## Goroutines -/

namespace Node

/-- A fresh object on the given persister: `Make` and the goroutines it starts. -/
def boot (me : Fin n) (persister : Persister n κ) (epoch : ℕ) : Node n κ where
  rf := Raft.make me persister
  tasks := []
  votes := fun _ => 0
  epoch := epoch
  outbox := (Raft.make me persister).bootMsg

def spawn (nd : Node n κ) (ts : List (Task n)) : Node n κ :=
  { nd with tasks := nd.tasks ++ ts }

/-- The next stretch of a goroutine, and the calls it makes then. -/
def runTask (nd : Node n κ) : Task n → Option (Node n κ × List (Packet n κ))
  | .startElection =>
      match nd.rf.startElection with
      | none => none
      | some (rf, args) =>
          some ({ nd with rf := rf, votes := Function.update nd.votes rf.currTerm 1 },
            (peers nd.rf.me).map (fun peer => .requestVote nd.rf.me peer nd.epoch args))
  | .becomeLeader electionTerm replyTerm =>
      let (rf, led) := nd.rf.becomeLeader electionTerm
      some (({ nd with rf := rf } : Node n κ).spawn
        ((if led then [.broadcastHeartbeat] else []) ++ [.checkReplyTerm replyTerm]), [])
  | .checkReplyTerm replyTerm => some ({ nd with rf := nd.rf.seeTerm replyTerm }, [])
  | .broadcastHeartbeat =>
      if nd.rf.state ≠ Role.leader then some (nd, [])
      else some (nd.spawn ((peers nd.rf.me).map .makeAppendEntry ++ [.broadcastHeartbeat]), [])
  | .replicationLog =>
      if nd.rf.state ≠ Role.leader then some (nd, [])
      else some (nd.spawn ((peers nd.rf.me).map .makeAppendEntry), [])
  | .makeAppendEntry peer =>
      if nd.rf.nextIndex peer ≤ nd.rf.lastIncludedIndex then
        some (nd.spawn [.sendInstallSnapshotToPeers peer], [])
      else
        match nd.rf.appendEntriesArgs peer with
        | none => none
        | some args => some (nd, [.appendEntries nd.rf.me peer nd.epoch args])
  | .sendInstallSnapshotToPeers peer =>
      some (nd, [.installSnapshot nd.rf.me peer nd.epoch nd.rf.installSnapshotArgs])

/-- The goroutine of a call of the object `epoch` goes on with the reply; replies to an earlier
    object find nothing. -/
def onReply (nd : Node n κ) (epoch : ℕ) (f : Node n κ → Option (Node n κ)) :
    Option (Node n κ) :=
  if nd.epoch = epoch then f nd else some nd

end Node

/-! ## Steps -/

/-- What can happen next: the ticker of `s` finds its timeout elapsed, the `k`-th waiting goroutine
    of `s` gets the lock, the `k`-th packet arrives or is lost, the service of `s` calls `Start` or
    `Snapshot`, `sendApplyMsg` of `s` takes the next entry, the service of `s` receives from
    `applyCh`, or a server crashes and restarts. -/
inductive Action (n : ℕ) (κ : Type)
  | tick (s : Fin n)
  | run (s : Fin n) (k : ℕ)
  | deliver (k : ℕ)
  | drop (k : ℕ)
  | start (s : Fin n) (command : Option κ)
  | snapshot (s : Fin n) (index : ℕ) (data : List UInt8)
  | apply (s : Fin n)
  | receive (s : Fin n) (k : ℕ)
  | crash (s : Fin n)
  | crashMid (k : ℕ)

namespace Cluster

/-- `n` fresh servers and an empty network. -/
def init (n : ℕ) (κ : Type) : Cluster n κ where
  node := fun s => Node.boot s Persister.makePersister 0
  net := []

def rf (c : Cluster n κ) (s : Fin n) : Raft n κ :=
  (c.node s).rf

def setNode (c : Cluster n κ) (s : Fin n) (nd : Node n κ) : Cluster n κ :=
  { c with node := Function.update c.node s nd }

def setRf (c : Cluster n κ) (s : Fin n) (rf : Raft n κ) : Cluster n κ :=
  c.setNode s { c.node s with rf := rf }

def send (c : Cluster n κ) (ps : List (Packet n κ)) : Cluster n κ :=
  { c with net := c.net ++ ps }

/-- What a packet does when it arrives; it is no longer in `c.net`. -/
def handle (c : Cluster n κ) : Packet n κ → Option (Cluster n κ)
  | .requestVote src dst epoch args =>
      match (c.rf dst).requestVote args with
      | none => none
      | some (rf, reply) =>
          some ((c.setRf dst rf).send [.requestVoteReply src dst epoch args reply])
  | .requestVoteReply src _ epoch args reply =>
      ((c.node src).onReply epoch fun nd =>
        let (rf, votes, won) := nd.rf.requestVoteReply (nd.votes args.term) args.term reply
        some (({ nd with rf := rf, votes := Function.update nd.votes args.term votes } :
            Node n κ).spawn
          (if won then [.becomeLeader args.term reply.term] else []))).map (c.setNode src)
  | .appendEntries src dst epoch args =>
      match (c.rf dst).appendEntries args with
      | none => none
      | some (rf, reply) =>
          some ((c.setRf dst rf).send [.appendEntriesReply src dst epoch args reply])
  | .appendEntriesReply src dst epoch args reply =>
      ((c.node src).onReply epoch fun nd =>
        match nd.rf.appendEntriesReply dst args reply with
        | none => none
        | some (rf, lagging) =>
            some (({ nd with rf := rf } : Node n κ).spawn
              (if lagging then [.sendInstallSnapshotToPeers dst] else []))).map (c.setNode src)
  | .installSnapshot src dst epoch args =>
      let (rf, reply, msgs) := (c.rf dst).installSnapshot args
      let nd := c.node dst
      some ((c.setNode dst { nd with rf := rf, outbox := nd.outbox ++ msgs }).send
        [.installSnapshotReply src dst epoch args reply])
  | .installSnapshotReply src dst epoch args reply =>
      ((c.node src).onReply epoch fun nd =>
        some { nd with rf := nd.rf.installSnapshotReply dst args reply }).map (c.setNode src)

/-- The term a request carries, and the server it is for. -/
def requestTerm : Packet n κ → Option (Fin n × ℕ)
  | .requestVote _ dst _ args => some (dst, args.term)
  | .appendEntries _ dst _ args => some (dst, args.term)
  | .installSnapshot _ dst _ args => some (dst, args.term)
  | _ => none

/-- Server `s` restarts on the given persister. -/
def reboot (c : Cluster n κ) (s : Fin n) (persister : Persister n κ) : Cluster n κ :=
  c.setNode s (Node.boot s persister ((c.node s).epoch + 1))

def isCommand : ApplyMsg κ → Bool
  | .command .. => true
  | .snapshot .. => false

def step (c : Cluster n κ) : Action n κ → Option (Cluster n κ)
  | .tick s =>
      if (c.rf s).state ≠ Role.leader then
        some (c.setNode s ((c.node s).spawn [.startElection]))
      else none
  | .run s k =>
      match (c.node s).tasks[k]? with
      | none => none
      | some t =>
          match ({ c.node s with tasks := (c.node s).tasks.eraseIdx k } : Node n κ).runTask t with
          | none => none
          | some (nd, ps) => some ((c.setNode s nd).send ps)
  | .deliver k =>
      match c.net[k]? with
      | none => none
      | some pkt => ({ c with net := c.net.eraseIdx k } : Cluster n κ).handle pkt
  | .drop k => some { c with net := c.net.eraseIdx k }
  | .start s command =>
      let (rf, started) := (c.rf s).start command
      some (c.setNode s (({ c.node s with rf := rf } : Node n κ).spawn
        (if started.isSome then [.replicationLog] else [])))
  | .snapshot s index data => ((c.rf s).snapshot index data).map (c.setRf s)
  | .apply s =>
      -- the goroutine is not at its loop head while it is blocked with a command
      if (c.node s).outbox.any isCommand then none
      else
        match (c.rf s).sendApplyMsg with
        | none => none
        | some (rf, msg) =>
            some (c.setNode s { c.node s with rf := rf, outbox := (c.node s).outbox ++ [msg] })
  | .receive s k =>
      some (c.setNode s { c.node s with outbox := (c.node s).outbox.eraseIdx k })
  | .crash s => some (c.reboot s (c.rf s).persister)
  | .crashMid k =>
      match (c.net[k]?).bind requestTerm with
      | none => none
      | some (dst, term) =>
          if term > (c.rf dst).currTerm then
            some (({ c with net := c.net.eraseIdx k } : Cluster n κ).reboot dst
              ((c.rf dst).stepDown term).persister)
          else none

/-- The requests a step puts on the network. -/
def sends (c : Cluster n κ) : Action n κ → List (Packet n κ)
  | .run s k =>
      match (c.node s).tasks[k]? with
      | none => []
      | some t =>
          match ({ c.node s with tasks := (c.node s).tasks.eraseIdx k } : Node n κ).runTask t with
          | none => []
          | some (_, ps) => ps
  | _ => []

/-- The state after a run from the start. -/
def exec (as : List (Action n κ)) : Option (Cluster n κ) :=
  Machine.exec step (init n κ) as

end Cluster

end AiFS
