import AiFS.KV.Basic
import AiFS.Raft.Delivery
import AiFS.Raft.Simulation

set_option autoImplicit false

/-! # Replicas: the key/value servers on top of the cluster

Every server of the cluster runs a `KVServer` (`kvraft/server.go`) whose applier takes messages off
`applyCh`. The channel has no buffer and two kinds of senders: `sendApplyMsg`, which is blocked with
one command at a time, and one goroutine for each installed snapshot. The applier takes them in
whatever order they get through. What it does with one message is one step here; the call of
`Snapshot` that may follow it is a step of its own, and may come later than in the source.

`highest` and `restored` are history: the highest index among the messages that the current object
of a server has handled, and the index of the snapshot it was started from. -/

namespace AiFS

/-- `CommandIndex` or `SnapshotIndex`. -/
def ApplyMsg.index {κ : Type} : ApplyMsg κ → ℕ
  | .command idx _ => idx
  | .snapshot idx _ _ => idx

namespace KV

variable {n : ℕ}

/-! ## The server -/

/-- labgob on a pair of maps. Nothing can be decoded from no bytes. -/
structure Codec where
  encode : State → List UInt8
  decode : List UInt8 → Option State
  decode_nil : decode [] = none

/-- For runs without snapshots. -/
def blankCodec : Codec where
  encode := fun _ => []
  decode := fun _ => none
  decode_nil := rfl

/-- The fields of a `KVServer` that the applier works on. -/
structure Server where
  commitIndex : ℕ
  state : State

namespace Server

variable (codec : Codec)

/-- On a decoding error the maps stay as they are. -/
def restoreSnapshot (kv : Server) (data : List UInt8) : Server :=
  match codec.decode data with
  | none => kv
  | some state => { kv with state := state }

def startKVServer (snapshot : List UInt8) : Server :=
  let kv : Server := { commitIndex := 0, state := State.empty }
  if snapshot.length > 0 then kv.restoreSnapshot codec snapshot else kv

theorem commitIndex_startKVServer (snapshot : List UInt8) :
    (startKVServer codec snapshot).commitIndex = 0 := by
  simp only [startKVServer, restoreSnapshot]
  split
  · split <;> rfl
  · rfl

/-- One round of the applier's loop; `none` is the panic of `msg.Command.(Op)`. -/
def applier (kv : Server) : ApplyMsg Op → Option Server
  | .command _ none => none
  | .command idx (some cmd) => some { commitIndex := idx, state := kv.state.apply cmd }
  | .snapshot idx _ snapshot =>
      if idx > kv.commitIndex then
        some (({ kv with commitIndex := idx } : Server).restoreSnapshot codec snapshot.data)
      else some kv

end Server

/-- A server with its history. -/
structure Replica where
  kv : Server
  highest : Option ℕ
  restored : ℕ

namespace Replica

variable (codec : Codec)

def boot (index : ℕ) (snapshot : List UInt8) : Replica where
  kv := Server.startKVServer codec snapshot
  highest := none
  restored := index

def handle (rep : Replica) (msg : ApplyMsg Op) : Option Replica :=
  (rep.kv.applier codec msg).map fun kv =>
    { rep with kv := kv, highest := some (max (rep.highest.getD 0) msg.index) }

/-- How far the state has got. -/
def reached (rep : Replica) : ℕ :=
  max rep.kv.commitIndex rep.restored

theorem reached_boot (index : ℕ) (snapshot : List UInt8) :
    (boot codec index snapshot).reached = index := by
  rw [reached, boot, Server.commitIndex_startKVServer]
  exact Nat.zero_max _

end Replica

/-! ## The system -/

structure Replicas (n : ℕ) where
  raft : Cluster n Op
  replica : Fin n → Replica

namespace Replicas

variable (codec : Codec)

def init (n : ℕ) : Replicas n where
  raft := Cluster.init n Op
  replica := fun _ => Replica.boot codec 0 []

/-- What the services do in a step: the applier handles the message that is received, the index
    and the bytes of a `Snapshot` call are the applier's, and a restart is one of both. -/
def service (r : Replicas n) : Action n Op → Option (Replicas n)
  | .receive s k =>
      match (r.raft.node s).outbox[k]? with
      | none => none
      | some msg =>
          ((r.replica s).handle codec msg).map fun rep =>
            { r with replica := Function.update r.replica s rep }
  | .snapshot s index data =>
      if index = (r.replica s).kv.commitIndex ∧ data = codec.encode (r.replica s).kv.state then
        some r
      else none
  | a =>
      match r.raft.restarts a with
      | none => some r
      | some s =>
          some { r with
            replica := Function.update r.replica s
              (Replica.boot codec (r.raft.rf s).lastIncludedIndex
                (r.raft.rf s).persister.snapshot.data) }

def step (r : Replicas n) (a : Action n Op) : Option (Replicas n) :=
  match r.raft.step a with
  | none => none
  | some raft => (r.service codec a).map fun r' => { r' with raft := raft }

/-! What a step of the services is, by what the cluster does in it. -/

theorem service_quiet {r r' : Replicas n} {a : Action n Op} (ha : ∀ s k, a ≠ .receive s k)
    (hr : r.raft.restarts a = none) (h : r.service codec a = some r') : r' = r := by
  cases a with
  | receive s k => exact absurd rfl (ha s k)
  | snapshot s index data =>
      simp only [service] at h
      split at h
      · exact (Option.some.inj h).symm
      · exact absurd h (by simp)
  | _ =>
      simp only [service, hr] at h
      exact (Option.some.inj h).symm

theorem service_receive {r r' : Replicas n} {s : Fin n} {k : ℕ}
    (h : r.service codec (.receive s k) = some r') :
    ∃ msg rep, (r.raft.node s).outbox[k]? = some msg ∧
      (r.replica s).handle codec msg = some rep ∧
      r'.replica = Function.update r.replica s rep := by
  simp only [service] at h
  split at h
  · exact absurd h (by simp)
  · next msg hmsg =>
      obtain ⟨rep, hrep, rfl⟩ := Option.map_eq_some_iff.1 h
      exact ⟨msg, rep, hmsg, hrep, rfl⟩

theorem service_restart {r r' : Replicas n} {a : Action n Op} {s : Fin n}
    (hr : r.raft.restarts a = some s) (h : r.service codec a = some r') :
    r'.replica = Function.update r.replica s
      (Replica.boot codec (r.raft.rf s).lastIncludedIndex
        (r.raft.rf s).persister.snapshot.data) := by
  cases a with
  | crash v =>
      obtain rfl : v = s := by simpa [Cluster.restarts] using hr
      obtain rfl := Option.some.inj h
      rfl
  | crashMid k =>
      simp only [service, hr] at h
      obtain rfl := Option.some.inj h
      rfl
  | _ => exact absurd hr (by simp [Cluster.restarts])

/-- The services of all servers but the one that moves stay as they are. -/
theorem service_frame {r r' : Replicas n} {a : Action n Op} {v : Fin n} {nd : Node n Op}
    (hm : Move r.raft a v nd) (h : r.service codec a = some r') :
    ∃ rep, r'.replica = Function.update r.replica v rep := by
  rcases hm.restarts with hr | hr
  · by_cases ha : ∃ s k, a = .receive s k
    · obtain ⟨s, k, rfl⟩ := ha
      obtain ⟨_, rep, _, _, hupd⟩ := service_receive codec h
      cases hm
      exact ⟨rep, hupd⟩
    · have hq := service_quiet codec (fun s k hk => ha ⟨s, k, hk⟩) hr h
      exact ⟨r.replica v, by rw [hq, Function.update_eq_self]⟩
  · exact ⟨_, service_restart codec hr h⟩

/-- A step of the system is one of the cluster and one of the services. -/
theorem step_inv {r r' : Replicas n} {a : Action n Op} (h : r.step codec a = some r') :
    r.raft.step a = some r'.raft ∧
      ∃ q : Replicas n, r.service codec a = some q ∧ r'.replica = q.replica := by
  unfold step at h
  split at h
  · exact absurd h (by simp)
  · next raft hraft =>
      obtain ⟨q, hq, rfl⟩ := Option.map_eq_some_iff.1 h
      exact ⟨hraft, q, hq, rfl⟩

/-! ## Commands that are taken -/

/-- The command that an applier takes in a step: its server, its index and the operation. -/
def taken (r : Replicas n) : Action n Op → Option (Fin n × ℕ × Op)
  | .receive s k =>
      match (r.raft.node s).outbox[k]? with
      | some (.command i (some op)) => some (s, i, op)
      | _ => none
  | _ => none

/-- The highest index of a command that an applier has taken, if it was `m` before the step. -/
def mark (r : Replicas n) (m : ℕ) (a : Action n Op) : ℕ :=
  match r.taken a with
  | some (_, i, _) => max m i
  | none => m

theorem taken_eq_some {r : Replicas n} {a : Action n Op} {s : Fin n} {i : ℕ} {op : Op}
    (h : r.taken a = some (s, i, op)) :
    ∃ k, a = .receive s k ∧ (r.raft.node s).outbox[k]? = some (.command i (some op)) := by
  cases a with
  | receive v k =>
      simp only [taken] at h
      split at h
      · next hk =>
          obtain ⟨rfl, rfl, rfl⟩ : _ ∧ _ ∧ _ := by simpa using h
          exact ⟨k, rfl, hk⟩
      · exact absurd h (by simp)
  | _ => exact absurd h (by simp [taken])

theorem mark_of_taken {r : Replicas n} {a : Action n Op} {s : Fin n} {m i : ℕ} {op : Op}
    (h : r.taken a = some (s, i, op)) : r.mark m a = max m i := by
  simp only [mark, h]

theorem le_mark (r : Replicas n) (m : ℕ) (a : Action n Op) : m ≤ r.mark m a := by
  unfold mark
  split
  · exact le_max_left _ _
  · exact le_rfl

end Replicas

end KV

end AiFS
