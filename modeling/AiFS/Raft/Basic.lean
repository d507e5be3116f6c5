import Mathlib

set_option autoImplicit false

/-! # The Raft object: data model

The state of one Raft peer (`raft/raft.go`), its persister (`raft/persister.go`) and the arguments
and replies of its three RPCs. Commands are of an arbitrary type `κ` (`interface{}` in the source;
`none` is `nil`), the cluster has `n` servers, and a server is named by its index in `peers`.

Indices and terms are natural numbers. `logs[0]` is the head entry that stands for everything up to
`lastIncludedIndex`, so the entry with logical index `i` is `logs[i - lastIncludedIndex]`; an access
outside of `logs`, at which the source panics, is `none` in `entryAt`.

What `persist` encodes is kept decoded (`RaftState`): labgob's decoder undoes its encoder. A
snapshot is the service's bytes together with `covers`, the entries `1..lastIncludedIndex` that it
stands for. `covers` is a history variable: it is recorded when the log is compacted, travels with
the bytes, and no function reads it to decide anything. With it `fullLog` is the log a server would
hold if nothing had ever been compacted.

Left out are fields that no modelled function reads: `currLeader` (only ever written), `timer`
(timeouts are arbitrary here) and `dead` (a crash ends the object). -/

namespace AiFS

variable {n : ℕ} {κ : Type}

/-! ## Log entries and snapshots -/

structure LogEntry (κ : Type) where
  term : ℕ
  command : Option κ
deriving DecidableEq, Repr

/-- A service snapshot. `covers` is history, see above. -/
structure Snapshot (κ : Type) where
  data : List UInt8
  covers : List (LogEntry κ)
deriving DecidableEq, Repr

/-- `0:leader 1:candidate 2: follower` -/
inductive Role
  | leader
  | candidate
  | follower
deriving DecidableEq, Repr

/-! ## Persister -/

/-- What `persist` encodes, in its order. -/
structure RaftState (n : ℕ) (κ : Type) where
  currTerm : ℕ
  votedFor : Option (Fin n)
  logs : List (LogEntry κ)
  lastIncludedIndex : ℕ
  lastIncludedTerm : ℕ
deriving DecidableEq

/-- `raftstate` is `none` while it holds no bytes. -/
structure Persister (n : ℕ) (κ : Type) where
  raftstate : Option (RaftState n κ)
  snapshot : Snapshot κ
deriving DecidableEq

def Persister.makePersister : Persister n κ :=
  { raftstate := none, snapshot := { data := [], covers := [] } }

def Persister.saveRaftState (ps : Persister n κ) (state : RaftState n κ) : Persister n κ :=
  { ps with raftstate := some state }

def Persister.saveStateAndSnapshot (_ps : Persister n κ) (state : RaftState n κ)
    (snapshot : Snapshot κ) : Persister n κ :=
  { raftstate := some state, snapshot := snapshot }

/-! ## The Raft object -/

structure Raft (n : ℕ) (κ : Type) where
  persister : Persister n κ
  me : Fin n
  currTerm : ℕ
  /-- `none` is the source's `-1`. -/
  votedFor : Option (Fin n)
  state : Role
  logs : List (LogEntry κ)
  lastIncludedIndex : ℕ
  lastIncludedTerm : ℕ
  commitIndex : ℕ
  lastApplied : ℕ
  nextIndex : Fin n → ℕ
  matchIndex : Fin n → ℕ

/-- A message for the service on `applyCh`. -/
inductive ApplyMsg (κ : Type)
  | command (commandIndex : ℕ) (command : Option κ)
  | snapshot (snapshotIndex snapshotTerm : ℕ) (snapshot : Snapshot κ)
deriving DecidableEq, Repr

namespace Raft

/-- `lastIncludedIndex + len(logs) - 1` -/
def lastLogicalIndex (rf : Raft n κ) : ℕ :=
  rf.lastIncludedIndex + rf.logs.length - 1

/-- `logs[getPhysicalIndex(i)]`, `none` where that access panics. -/
def entryAt (rf : Raft n κ) (i : ℕ) : Option (LogEntry κ) :=
  if i < rf.lastIncludedIndex then none else rf.logs[i - rf.lastIncludedIndex]?

def raftState (rf : Raft n κ) : RaftState n κ where
  currTerm := rf.currTerm
  votedFor := rf.votedFor
  logs := rf.logs
  lastIncludedIndex := rf.lastIncludedIndex
  lastIncludedTerm := rf.lastIncludedTerm

def persist (rf : Raft n κ) : Raft n κ :=
  { rf with persister := rf.persister.saveRaftState rf.raftState }

/-- The entries the snapshot stands for. -/
def covers (rf : Raft n κ) : List (LogEntry κ) :=
  rf.persister.snapshot.covers

/-- The whole log from index `1` on, the compacted entries included. -/
def fullLog (rf : Raft n κ) : List (LogEntry κ) :=
  rf.covers ++ rf.logs.tail

def readPersist (rf : Raft n κ) (data : Option (RaftState n κ)) : Raft n κ :=
  match data with
  | none => rf
  | some st =>
      let rf :=
        { rf with
          currTerm := st.currTerm
          votedFor := st.votedFor
          logs := st.logs
          lastIncludedIndex := st.lastIncludedIndex
          lastIncludedTerm := st.lastIncludedTerm }
      if rf.lastIncludedIndex > 0 then
        { rf with commitIndex := rf.lastIncludedIndex, lastApplied := rf.lastIncludedIndex }
      else rf

/-- The object `Make` returns; the goroutines it starts are in `Cluster.lean`. -/
def make (me : Fin n) (persister : Persister n κ) : Raft n κ :=
  let rf : Raft n κ :=
    { persister := persister
      me := me
      currTerm := 0
      votedFor := none
      state := Role.follower
      logs := [{ term := 0, command := none }]
      lastIncludedIndex := 0
      lastIncludedTerm := 0
      commitIndex := 0
      lastApplied := 0
      nextIndex := fun _ => 0
      matchIndex := fun _ => 0 }
  let rf := rf.readPersist persister.raftstate
  if rf.lastIncludedIndex > 0 then
    { rf with commitIndex := rf.lastIncludedIndex, lastApplied := rf.lastIncludedIndex }
  else rf

/-- The snapshot message that a goroutine of `Make` puts on `applyCh`, if there is a snapshot. -/
def bootMsg (rf : Raft n κ) : List (ApplyMsg κ) :=
  if rf.persister.snapshot.data.length > 0 then
    [ApplyMsg.snapshot rf.lastIncludedIndex rf.lastIncludedTerm rf.persister.snapshot]
  else []

end Raft

/-! ## RPC arguments and replies -/

structure RequestVoteArgs (n : ℕ) where
  term : ℕ
  candidateId : Fin n
  lastLogIndex : ℕ
  lastLogTerm : ℕ
deriving DecidableEq

structure RequestVoteReply where
  term : ℕ
  voteGranted : Bool
deriving DecidableEq

structure AppendEntriesArgs (n : ℕ) (κ : Type) where
  term : ℕ
  leaderId : Fin n
  prevLogIndex : ℕ
  prevLogTerm : ℕ
  entries : List (LogEntry κ)
  leaderCommit : ℕ
deriving DecidableEq

/-- A field a handler does not set keeps Go's zero value. -/
structure AppendEntriesReply where
  success : Bool := false
  term : ℕ := 0
  conflictIndex : ℕ := 0
  conflictTerm : ℤ := 0
deriving DecidableEq

/-- `Offset` and `Done` are constants that no code reads. -/
structure InstallSnapshotArgs (n : ℕ) (κ : Type) where
  term : ℕ
  leaderId : Fin n
  lastIncludedIndex : ℕ
  lastIncludedTerm : ℕ
  data : Snapshot κ
deriving DecidableEq

structure InstallSnapshotReply where
  term : ℕ
deriving DecidableEq

end AiFS
