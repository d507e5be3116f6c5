import AiFS.Raft.Basic

set_option autoImplicit false

/-! # The Raft object: what runs under its lock

Every definition here is one stretch of `raft/raft.go` between a `Lock` and the matching `Unlock`:
the three RPC handlers, the calls of the service (`Start`, `Snapshot`), and the pieces of the
election, replication and apply goroutines. A goroutine that releases the lock and takes it again
is cut into its stretches; which stretch follows which is in `Cluster.lean`.

`none` is a panic (an index or a slice bound out of range). Replies of a handler that the source
fills field by field start from Go's zero values. -/

namespace AiFS

namespace Raft

variable {n : ℕ} {κ : Type}

/-- The lines with which the source reacts to a higher term, at six places: follower in that term,
    no vote given, persisted. -/
def stepDown (rf : Raft n κ) (term : ℕ) : Raft n κ :=
  ({ rf with state := Role.follower, votedFor := none, currTerm := term } : Raft n κ).persist

/-- A term in a request or a reply is compared with `currTerm`. -/
def seeTerm (rf : Raft n κ) (term : ℕ) : Raft n κ :=
  if term > rf.currTerm then rf.stepDown term else rf

/-- The first lines of `AppendEntries` and `InstallSnapshot` once the request is not stale: its
    sender is followed, in its term. -/
def follow (rf : Raft n κ) (term : ℕ) : Raft n κ :=
  ({ rf with state := Role.follower } : Raft n κ).seeTerm term

/-! ## RequestVote -/

def requestVote (rf : Raft n κ) (args : RequestVoteArgs n) :
    Option (Raft n κ × RequestVoteReply) :=
  let rf := rf.seeTerm args.term
  if args.term < rf.currTerm then
    some (rf, { term := rf.currTerm, voteGranted := false })
  else if rf.votedFor = none ∨ rf.votedFor = some args.candidateId then
    match rf.entryAt rf.lastLogicalIndex with
    | none => none
    | some lastlog =>
        if args.lastLogTerm > lastlog.term ∨
            (args.lastLogTerm = lastlog.term ∧ args.lastLogIndex ≥ rf.lastLogicalIndex) then
          let rf := ({ rf with votedFor := some args.candidateId } : Raft n κ).persist
          some ({ rf with state := Role.follower }, { term := rf.currTerm, voteGranted := true })
        else
          some (rf, { term := rf.currTerm, voteGranted := false })
  else
    some (rf, { term := rf.currTerm, voteGranted := false })

/-! ## AppendEntries -/

/-- The search for `ConflictIndex`: from `i` down to the entry after the snapshot, as long as the
    entries have the term `t`. -/
def conflictSearch (rf : Raft n κ) (t : ℕ) : ℕ → ℕ → ℕ
  | 0, conflictIndex => conflictIndex
  | i + 1, conflictIndex =>
      if i + 1 > rf.lastIncludedIndex ∧ (rf.entryAt (i + 1)).map LogEntry.term = some t then
        conflictSearch rf t i (i + 1)
      else conflictIndex

/-- The loop over `args.Entries` from logical index `currIndex` on: skip what is there, truncate
    at the first entry of a different term, append the rest. -/
def appendLoop (rf : Raft n κ) : ℕ → List (LogEntry κ) → Option (List (LogEntry κ))
  | _, [] => some rf.logs
  | currIndex, entry :: rest =>
      if currIndex ≤ rf.lastLogicalIndex then
        match rf.entryAt currIndex with
        | none => none
        | some old =>
            if old.term ≠ entry.term then
              some (rf.logs.take (currIndex - rf.lastIncludedIndex) ++ (entry :: rest))
            else appendLoop rf (currIndex + 1) rest
      else some (rf.logs ++ (entry :: rest))

def appendEntries (rf : Raft n κ) (args : AppendEntriesArgs n κ) :
    Option (Raft n κ × AppendEntriesReply) :=
  if args.term < rf.currTerm then
    some (rf, { success := false, term := rf.currTerm })
  else
    let rf := rf.follow args.term
    if args.prevLogIndex > rf.lastLogicalIndex then
      some (rf, { success := false, conflictTerm := -1, conflictIndex := rf.lastLogicalIndex + 1 })
    else if args.prevLogIndex < rf.lastIncludedIndex then
      some (rf, { success := false, term := rf.currTerm, conflictTerm := -1,
                  conflictIndex := rf.lastIncludedIndex + 1 })
    else
      match rf.entryAt args.prevLogIndex with
      | none => none
      | some prev =>
          if args.prevLogTerm ≠ prev.term then
            some (rf, { success := false, conflictTerm := prev.term,
                        conflictIndex := rf.conflictSearch prev.term args.prevLogIndex 0 })
          else
            match rf.appendLoop (args.prevLogIndex + 1) args.entries with
            | none => none
            | some logs =>
                let rf := ({ rf with logs := logs } : Raft n κ).persist
                let rf : Raft n κ :=
                  if args.leaderCommit > rf.commitIndex then
                    { rf with commitIndex := min args.leaderCommit rf.lastLogicalIndex }
                  else rf
                some (rf, { success := true })

/-! ## InstallSnapshot -/

/-- The physical index at which the snapshot's last entry is found in the local log. -/
def splitIdx (rf : Raft n κ) (index term : ℕ) : Option ℕ :=
  (List.range rf.logs.length).foldl
    (fun found i =>
      if i + rf.lastIncludedIndex = index ∧ (rf.logs[i]?).map LogEntry.term = some term then some i
      else found)
    none

/-- The new state, the reply and the message a goroutine then puts on `applyCh`. -/
def installSnapshot (rf : Raft n κ) (args : InstallSnapshotArgs n κ) :
    Raft n κ × InstallSnapshotReply × List (ApplyMsg κ) :=
  if rf.currTerm > args.term then
    (rf, { term := rf.currTerm }, [])
  else
    let rf := rf.follow args.term
    if rf.lastIncludedIndex ≥ args.lastIncludedIndex then
      (rf, { term := rf.currTerm }, [])
    else
      let head : LogEntry κ := { term := args.lastIncludedTerm, command := none }
      let logs :=
        match rf.splitIdx args.lastIncludedIndex args.lastIncludedTerm with
        | some i => head :: rf.logs.drop (i + 1)
        | none => [head]
      let rf : Raft n κ :=
        { rf with
          logs := logs
          currTerm := args.term
          lastIncludedIndex := args.lastIncludedIndex
          lastIncludedTerm := args.lastIncludedTerm
          commitIndex := max args.lastIncludedIndex rf.commitIndex
          lastApplied := max args.lastIncludedIndex rf.lastApplied }
      let rf : Raft n κ :=
        { rf with persister := rf.persister.saveStateAndSnapshot rf.raftState args.data }
      (rf, { term := rf.currTerm },
        [ApplyMsg.snapshot rf.lastIncludedIndex rf.lastIncludedTerm args.data])

/-! ## The service's calls -/

/-- `Start`: the new state and `(index, term)`, `none` when this server is not the leader. -/
def start (rf : Raft n κ) (command : Option κ) : Raft n κ × Option (ℕ × ℕ) :=
  if rf.state ≠ Role.leader then (rf, none)
  else
    (({ rf with logs := rf.logs ++ [{ term := rf.currTerm, command := command }] } :
        Raft n κ).persist,
      some (rf.lastLogicalIndex + 1, rf.currTerm))

/-- `Snapshot`: drop the log up to `index`, which `snapshot` stands for. -/
def snapshot (rf : Raft n κ) (index : ℕ) (snapshot : List UInt8) : Option (Raft n κ) :=
  if index ≤ rf.lastIncludedIndex then some rf
  else
    match rf.entryAt index with
    | none => none
    | some last =>
        let physical := index - rf.lastIncludedIndex
        let head : LogEntry κ := { term := last.term, command := none }
        let newlogs :=
          if physical + 1 < rf.logs.length then head :: rf.logs.drop (physical + 1) else [head]
        -- history: what the snapshot stands for
        let covered := rf.fullLog.take index
        let rf : Raft n κ :=
          { rf with
            lastIncludedTerm := last.term
            logs := newlogs
            lastIncludedIndex := index
            lastApplied := max index rf.lastApplied }
        some { rf with
          persister :=
            rf.persister.saveStateAndSnapshot rf.raftState { data := snapshot, covers := covered } }

/-- One round of `sendApplyMsg`'s inner loop: the next committed entry, `none` when there is
    nothing to hand over (or the access panics). -/
def sendApplyMsg (rf : Raft n κ) : Option (Raft n κ × ApplyMsg κ) :=
  if rf.lastApplied < rf.commitIndex ∧ rf.lastApplied + 1 ≤ rf.lastLogicalIndex then
    match rf.entryAt (rf.lastApplied + 1) with
    | none => none
    | some entry =>
        some ({ rf with lastApplied := rf.lastApplied + 1 },
          ApplyMsg.command (rf.lastApplied + 1) entry.command)
  else none

/-! ## Elections -/

/-- The first stretch of `startElection`: the new state and the request sent to every peer. -/
def startElection (rf : Raft n κ) : Option (Raft n κ × RequestVoteArgs n) :=
  let rf : Raft n κ :=
    ({ rf with
        currTerm := rf.currTerm + 1, votedFor := some rf.me, state := Role.candidate } :
      Raft n κ).persist
  match rf.entryAt rf.lastLogicalIndex with
  | none => none
  | some lastlog =>
      some (rf,
        { term := rf.currTerm, candidateId := rf.me, lastLogIndex := rf.lastLogicalIndex,
          lastLogTerm := lastlog.term })

/-- A vote goroutine of the election in `startTerm` after its call has returned. The second
    component is the vote counter, the third tells that it goes on with `becomeLeader`. -/
def requestVoteReply (rf : Raft n κ) (votes startTerm : ℕ) (reply : RequestVoteReply) :
    Raft n κ × ℕ × Bool :=
  if rf.state ≠ Role.candidate ∨ rf.currTerm ≠ startTerm then (rf, votes, false)
  else if reply.voteGranted then
    if votes + 1 > n / 2 then (rf, votes + 1, true)
    else (rf.seeTerm reply.term, votes + 1, false)
  else (rf.seeTerm reply.term, votes, false)

/-- `becomeLeader`; the second component tells that `broadcastHeartbeat` is started. -/
def becomeLeader (rf : Raft n κ) (electionTerm : ℕ) : Raft n κ × Bool :=
  if rf.state ≠ Role.candidate ∨ electionTerm ≠ rf.currTerm then (rf, false)
  else
    ({ rf with
        state := Role.leader
        nextIndex := fun peer =>
          if peer = rf.me then rf.nextIndex peer else rf.lastLogicalIndex + 1 }, true)

/-! ## Replication -/

/-- The request a goroutine of `makeAppendEntry` builds once `nextIndex[peer]` is past the
    snapshot. -/
def appendEntriesArgs (rf : Raft n κ) (peer : Fin n) : Option (AppendEntriesArgs n κ) :=
  let physical := rf.nextIndex peer - rf.lastIncludedIndex
  if rf.logs.length < physical then none
  else
    match rf.logs[physical - 1]? with
    | none => none
    | some prev =>
        some
          { term := rf.currTerm, leaderId := rf.me, prevLogIndex := rf.nextIndex peer - 1,
            prevLogTerm := prev.term, entries := rf.logs.drop physical,
            leaderCommit := rf.commitIndex }

/-- How many servers hold index `N` by `matchIndex`, this one included. -/
def matchCount (rf : Raft n κ) (N : ℕ) : ℕ :=
  1 + (List.finRange n).countP (fun peer => peer ≠ rf.me ∧ rf.matchIndex peer ≥ N)

/-- The loop of `commitIndexUpdate` from `N` downwards. -/
def commitIndexUpdateFrom (rf : Raft n κ) : ℕ → Option (Raft n κ)
  | 0 => some rf
  | N + 1 =>
      if N + 1 > rf.commitIndex then
        match rf.entryAt (N + 1) with
        | none => none
        | some entry =>
            if entry.term ≠ rf.currTerm then commitIndexUpdateFrom rf N
            else if rf.matchCount (N + 1) > n / 2 then some { rf with commitIndex := N + 1 }
            else commitIndexUpdateFrom rf N
      else some rf

def commitIndexUpdate (rf : Raft n κ) : Option (Raft n κ) :=
  rf.commitIndexUpdateFrom rf.lastLogicalIndex

/-- The search for the last entry of the conflict term in the leader's log, from physical index
    `i - 1` down; the result is the logical index after it. -/
def lastOfTerm (rf : Raft n κ) (t : ℤ) : ℕ → Option ℕ
  | 0 => none
  | i + 1 =>
      if (rf.logs[i]?).map (fun e => (e.term : ℤ)) = some t then
        some (i + rf.lastIncludedIndex + 1)
      else lastOfTerm rf t i

def setNextIndex (rf : Raft n κ) (peer : Fin n) (i : ℕ) : Raft n κ :=
  { rf with nextIndex := Function.update rf.nextIndex peer i }

/-- A goroutine of `makeAppendEntry` after its call has returned. The second component tells that it
    goes on with `sendInstallSnapshotToPeers`. -/
def appendEntriesReply (rf : Raft n κ) (peer : Fin n) (args : AppendEntriesArgs n κ)
    (reply : AppendEntriesReply) : Option (Raft n κ × Bool) :=
  if rf.currTerm ≠ args.term then some (rf, false)
  else if reply.term > rf.currTerm then some (rf.stepDown reply.term, false)
  else if rf.state ≠ Role.leader then some (rf, false)
  else if reply.success then
    let matched := max (args.prevLogIndex + args.entries.length) (rf.matchIndex peer)
    let rf : Raft n κ := { rf with matchIndex := Function.update rf.matchIndex peer matched }
    match (rf.setNextIndex peer (matched + 1)).commitIndexUpdate with
    | none => none
    | some rf => some (rf.setNextIndex peer (max (rf.nextIndex peer) 1), false)
  else if reply.conflictTerm = -1 then
    some (rf.setNextIndex peer (max reply.conflictIndex 1), false)
  else if reply.conflictIndex < rf.lastIncludedIndex then some (rf, true)
  else
    match rf.lastOfTerm reply.conflictTerm rf.logs.length with
    | some next => some (rf.setNextIndex peer (max next 1), false)
    | none => some (rf.setNextIndex peer (max reply.conflictIndex 1), false)

/-- The request `sendInstallSnapshotToPeers` builds. -/
def installSnapshotArgs (rf : Raft n κ) : InstallSnapshotArgs n κ where
  term := rf.currTerm
  leaderId := rf.me
  lastIncludedIndex := rf.lastIncludedIndex
  lastIncludedTerm := rf.lastIncludedTerm
  data := rf.persister.snapshot

/-- The rest of `sendInstallSnapshotToPeers` after its call has returned. -/
def installSnapshotReply (rf : Raft n κ) (peer : Fin n) (args : InstallSnapshotArgs n κ)
    (reply : InstallSnapshotReply) : Raft n κ :=
  if reply.term > rf.currTerm then rf.stepDown reply.term
  else if rf.state ≠ Role.leader ∨ rf.currTerm ≠ args.term then rf
  else
    let matched := max args.lastIncludedIndex (rf.matchIndex peer)
    let rf : Raft n κ := { rf with matchIndex := Function.update rf.matchIndex peer matched }
    rf.setNextIndex peer (max (matched + 1) (rf.nextIndex peer))

end Raft

end AiFS
