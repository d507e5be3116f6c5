import AiFS.KV.Replica
import AiFS.Raft.Promise

set_option autoImplicit false

/-! # Handlers that wait for the applier

`Get`, `PutAppend` and `Delete` of `kvraft/server.go` on the replicas of `Replica.lean`, with the
channels through which the applier hands them their replies. A handler is cut where it takes or
gives back a lock: it looks the client up and calls `Start` under `kv.mu`, makes a channel with one
slot and registers it in `notifyChans` (`waitApplied`), takes a reply out of it or times out, asks
Raft for its term, and deletes the entry of its index, whoever's channel is there by then. Requests
that share an index, one from each of several terms, overwrite each other's entries.

The applier handles a message and then, for a command, notifies: this is a step of its own, because
`kv.mu` is given back in between for the call of `Snapshot` (here it always may be). A snapshot
message that is not ignored fills every empty channel and deletes its entry, in one stretch.

A handler that finds its server killed returns at once (`refuse`; who is killed when is the business
of `Servers.lean`). The handlers of a server that restarts are gone, and so are its channels.
`LeaderId` is left out. -/

namespace AiFS

namespace KV

variable {n : ℕ}

/-! ## State -/

/-- Where a handler is: before its first stretch, between `Start` and its registration, in the
    `select` of `waitApplied`, behind it with a reply, back from `waitApplied`, or returned. -/
inductive WaitStage
  | entered
  | started
  | selecting
  | received (reply : OpReply)
  | returning (reply : OpReply) (err : Err)
  | answered (reply : OpReply)
  | lost
deriving DecidableEq, Repr

def WaitStage.returned : WaitStage → Bool
  | .answered _ => true
  | _ => false

/-- `index` and `startTerm` are what `Start` returned, `ch` is what is in the channel. -/
structure Waiter (n : ℕ) where
  server : Fin n
  op : Op
  index : ℕ
  startTerm : ℕ
  ch : Option OpReply
  progress : WaitStage
deriving DecidableEq, Repr

structure Waiters (n : ℕ) where
  replicas : Replicas n
  /-- The command that the applier has handled and not yet notified anyone of. -/
  notifying : Fin n → Option (ℕ × OpReply)
  /-- The handler whose channel is registered at an index. -/
  notifyChans : Fin n → ℕ → Option ℕ
  handlers : List (Waiter n)

/-- What a handler returns of a reply: only `Get` hands on the value. -/
def Op.returns (op : Op) (reply : OpReply) : OpReply where
  err := reply.err
  value := if op.type = .get then reply.value else ""

namespace Waiters

variable (codec : Codec)

def init (n : ℕ) : Waiters n where
  replicas := Replicas.init codec n
  notifying := fun _ => none
  notifyChans := fun _ _ => none
  handlers := []

def modify (w : Waiters n) (h : ℕ) (f : Waiter n → Waiter n) : Waiters n :=
  { w with handlers := w.handlers.modify h f }

def setChan (w : Waiters n) (s : Fin n) (index : ℕ) (chan : Option ℕ) : Waiters n :=
  { w with
    notifyChans := Function.update w.notifyChans s (Function.update (w.notifyChans s) index chan) }

/-! ## Handlers -/

/-- The first stretch of a handler. -/
def enter (w : Waiters n) (h : ℕ) (x : Waiter n) : Option (Waiters n) :=
  match (w.replicas.replica x.server).kv.state.seen x.op with
  | some lastReply =>
      some (w.modify h fun x => { x with progress := .answered (x.op.returns lastReply) })
  | none =>
      (w.replicas.step codec (.start x.server (some x.op))).map fun r =>
        ({ w with replicas := r } : Waiters n).modify h fun x =>
          match ((w.replicas.raft.rf x.server).start (some x.op)).2 with
          | none => { x with progress := .answered { err := Err.errWrongLeader } }
          | some (index, startTerm) =>
              { x with index := index, startTerm := startTerm, progress := .started }

/-- A fresh channel is registered, in the place of whatever is there. -/
def register (w : Waiters n) (h : ℕ) (x : Waiter n) : Waiters n :=
  (w.setChan x.server x.index (some h)).modify h fun x =>
    { x with ch := none, progress := .selecting }

/-- What `waitApplied` makes of a reply. -/
def checkLeader (w : Waiters n) (x : Waiter n) : Err :=
  let (currTerm, isLeader) := (w.replicas.raft.rf x.server).getState
  if !isLeader ∨ currTerm ≠ x.startTerm then Err.errWrongLeader else Err.ok

/-- The last stretch of a handler. -/
def finish (w : Waiters n) (h : ℕ) (x : Waiter n) (reply : OpReply) (err : Err) : Waiters n :=
  (w.setChan x.server x.index none).modify h fun x =>
    { x with
      progress := .answered (if err = Err.ok then x.op.returns reply else { err := err }) }

/-! ## The applier -/

/-- `notifyChan <- reply`; on a full channel the applier blocks. -/
def notify (w : Waiters n) (s : Fin n) : Option (Waiters n) :=
  match w.notifying s with
  | none => none
  | some (idx, reply) =>
      let w' : Waiters n := { w with notifying := Function.update w.notifying s none }
      match w.notifyChans s idx with
      | none => some w'
      | some h =>
          match (w.handlers[h]?).map Waiter.ch with
          | some none => some (w'.modify h fun x => { x with ch := some reply })
          | _ => none

/-- The channel of handler `h` is registered at an index and empty. -/
def vacant (w : Waiters n) (s : Fin n) (index h : ℕ) : Bool :=
  w.notifyChans s index == some h && (w.handlers[h]?).map Waiter.ch == some none

/-- What a snapshot does to the channels: those that are empty get `ErrWrongLeader` and their
    entries are deleted. -/
def bounce (w : Waiters n) (s : Fin n) : Waiters n :=
  { w with
    handlers := w.handlers.mapIdx fun h x =>
      if w.vacant s x.index h then { x with ch := some { err := Err.errWrongLeader } } else x
    notifyChans := Function.update w.notifyChans s fun index =>
      (w.notifyChans s index).filter fun h => !w.vacant s index h }

/-- A new object has no handlers and no channels. -/
def restart (w : Waiters n) (s : Fin n) : Waiters n :=
  { w with
    notifying := Function.update w.notifying s none
    notifyChans := Function.update w.notifyChans s fun _ => none
    handlers := w.handlers.map fun x =>
      if x.server = s ∧ !x.progress.returned then { x with progress := .lost } else x }

/-- What a step of the replicas means for the handlers: the applier takes a message, or a server
    restarts. -/
def served (w : Waiters n) : Action n Op → Option (Waiters n)
  | .receive s k =>
      match w.notifying s with
      | some _ => none
      | none =>
          match (w.replicas.raft.node s).outbox[k]? with
          | some (.command idx (some cmd)) =>
              let reply := ((w.replicas.replica s).kv.state.execute cmd).2
              some { w with notifying := Function.update w.notifying s (some (idx, reply)) }
          | some (.snapshot idx _ _) =>
              some (if idx > (w.replicas.replica s).kv.commitIndex then w.bounce s else w)
          | _ => none
  | a =>
      match w.replicas.raft.restarts a with
      | none => some w
      | some s => some (w.restart s)

end Waiters

/-! ## Steps -/

/-- What can happen next: a step of the replicas, a request, a handler is sent away, a stretch of a
    handler, or the applier notifies. `Start` is only called by handlers. -/
inductive Happening (n : ℕ)
  | replicas (a : Action n Op)
  | call (s : Fin n) (op : Op)
  | refuse (h : ℕ)
  | enter (h : ℕ)
  | register (h : ℕ)
  | wake (h : ℕ)
  | timeout (h : ℕ)
  | getState (h : ℕ)
  | finish (h : ℕ)
  | notify (s : Fin n)

namespace Waiters

variable (codec : Codec)

def step (w : Waiters n) : Happening n → Option (Waiters n)
  | .replicas (.start _ _) => none
  | .replicas a =>
      match w.replicas.step codec a with
      | none => none
      | some r => (w.served a).map fun w' => { w' with replicas := r }
  | .call s op => some { w with handlers := w.handlers ++ [⟨s, op, 0, 0, none, .entered⟩] }
  | .refuse h =>
      match w.handlers[h]? with
      | some x =>
          if x.progress = .entered then
            some (w.modify h fun x => { x with progress := .answered {} })
          else none
      | none => none
  | .enter h =>
      match w.handlers[h]? with
      | some x => if x.progress = .entered then w.enter codec h x else none
      | none => none
  | .register h =>
      match w.handlers[h]? with
      | some x => if x.progress = .started then some (w.register h x) else none
      | none => none
  | .wake h =>
      match w.handlers[h]? with
      | some ⟨_, _, _, _, some reply, .selecting⟩ =>
          some (w.modify h fun x => { x with ch := none, progress := .received reply })
      | _ => none
  | .timeout h =>
      match w.handlers[h]? with
      | some ⟨_, _, _, _, _, .selecting⟩ =>
          some (w.modify h fun x => { x with progress := .returning {} Err.errTimeOut })
      | _ => none
  | .getState h =>
      match w.handlers[h]? with
      | some ⟨s, op, index, startTerm, ch, .received reply⟩ =>
          let err := w.checkLeader ⟨s, op, index, startTerm, ch, .received reply⟩
          some (w.modify h fun x => { x with progress := .returning reply err })
      | _ => none
  | .finish h =>
      match w.handlers[h]? with
      | some ⟨s, op, index, startTerm, ch, .returning reply err⟩ =>
          some (w.finish h ⟨s, op, index, startTerm, ch, .returning reply err⟩ reply err)
      | _ => none
  | .notify s => w.notify s

/-- The state after a run from the start. -/
def exec (evs : List (Happening n)) : Option (Waiters n) :=
  Machine.exec (step codec) (init codec n) evs

/-! ## Who looks what up -/

/-- The lookup of a client's record in a step: by a handler in its first stretch, or by the applier
    for a command. -/
def lookup (w : Waiters n) : Happening n → Option (Fin n × Op)
  | .enter h => (w.handlers[h]?).map fun x => (x.server, x.op)
  | .replicas a => (w.replicas.taken a).map fun x => (x.1, x.2.2)
  | _ => none

/-- How far the furthest server has got after a step, if it was `m` before. -/
def mark (w : Waiters n) (m : ℕ) : Happening n → ℕ
  | .replicas a => w.replicas.mark m a
  | _ => m

end Waiters

end KV

end AiFS
