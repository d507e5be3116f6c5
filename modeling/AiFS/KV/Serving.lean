import AiFS.KV.Replica
import AiFS.Raft.AllRuns

set_option autoImplicit false

/-! # The state of a replica is a prefix of the committed operations

The applier's only guard is `SnapshotIndex > commitIndex`. It does not keep the state a prefix of
the committed operations: a command that gets through before the snapshot that it builds on makes
the applier ignore that snapshot (`snapshot_ignored`). If no message overtakes another that way,
the state is the prefix up to the highest index handled, also across restarts (`replica_state`). -/

namespace AiFS

namespace KV

variable {n : ℕ}

/-! ## Conditions on a run -/

/-- The bytes are a snapshot of the first `i` operations. -/
def Carries (codec : Codec) (ops : List Op) (i : ℕ) (data : List UInt8) : Prop :=
  i ≤ ops.length ∧ codec.decode data = some (State.replay (ops.take i))

/-- What is taken for granted of server `s` and a committed sequence of operations: what `s` has
    committed is from that sequence, the snapshots sent to `s` are of its prefixes, and decoding
    undoes the encoding of its own snapshots. -/
structure Assumed (codec : Codec) (ops : List Op) (s : Fin n) (r : Replicas n) (a : Action n Op) :
    Prop where
  agreed : ∀ i < (r.raft.rf s).commitIndex, ∃ op, ops[i]? = some op ∧
    ((r.raft.rf s).fullLog[i]?).map LogEntry.command = some (some op)
  received : ∀ k src ep args, a = .deliver k →
    r.raft.net[k]? = some (.installSnapshot src s ep args) →
    Carries codec ops args.lastIncludedIndex args.data.data
  decoded : ∀ index data, a = .snapshot s index data →
    codec.decode data = some (r.replica s).kv.state

/-- Taking `msg` before `other` skips the snapshot that a command builds on, or makes a command come
    after a snapshot that contains it. -/
def overtakes (reached : ℕ) : ApplyMsg Op → ApplyMsg Op → Prop
  | .command i _, .snapshot j _ _ => reached < j ∧ j < i
  | .snapshot j _ _, .command i _ => reached < j ∧ i < j
  | _, _ => False

instance (reached : ℕ) : ∀ msg other, Decidable (overtakes reached msg other)
  | .command i _, .snapshot j _ _ => inferInstanceAs (Decidable (reached < j ∧ j < i))
  | .snapshot j _ _, .command i _ => inferInstanceAs (Decidable (reached < j ∧ i < j))
  | .command .., .command .. => isFalse id
  | .snapshot .., .snapshot .. => isFalse id

/-- The message that the applier of `s` takes overtakes none that is waiting. -/
def InOrder (s : Fin n) (r : Replicas n) : Action n Op → Prop
  | .receive v k => v = s → ∀ msg ∈ (r.raft.node s).outbox[k]?, ∀ other ∈ (r.raft.node s).outbox,
      ¬ overtakes (r.replica s).reached msg other
  | _ => True

instance (s : Fin n) (r : Replicas n) : ∀ a, Decidable (InOrder s r a)
  | .receive v k => inferInstanceAs (Decidable (v = s → ∀ msg ∈ (r.raft.node s).outbox[k]?,
      ∀ other ∈ (r.raft.node s).outbox, ¬ overtakes (r.replica s).reached msg other))
  | .tick _ | .run .. | .deliver _ | .drop _ | .start .. | .snapshot .. | .apply _ | .crash _
  | .crashMid _ => isTrue trivial

/-! ## What one server has been served

`Serving` connects a replica with the part of its Raft object that the service sees. The messages
that wait are of the committed sequence, and between what has been handled and `lastApplied` nothing
is missing: the command that waits builds on what has been handled, or on a snapshot that waits. -/

/-- A message is of the committed sequence. -/
def Good (codec : Codec) (ops : List Op) : ApplyMsg Op → Prop
  | .command i cmd => 0 < i ∧ ∃ op, ops[i - 1]? = some op ∧ cmd = some op
  | .snapshot i _ sn => Carries codec ops i sn.data

structure Serving (codec : Codec) (ops : List Op) (rep : Replica) (w : ServiceView Op) : Prop where
  state : rep.kv.state = State.replay (ops.take rep.reached)
  highest : (rep.highest = none ∧ rep.kv.commitIndex = 0) ∨
    (rep.highest = some rep.kv.commitIndex ∧ rep.restored ≤ rep.kv.commitIndex)
  bound : rep.reached ≤ ops.length
  reached_le : rep.reached ≤ w.lastApplied
  included_le : w.lastIncludedIndex ≤ w.lastApplied
  restored_le : rep.restored ≤ w.lastIncludedIndex
  saved : (w.lastIncludedIndex = 0 ∧ w.snapshot.data = []) ∨
    Carries codec ops w.lastIncludedIndex w.snapshot.data
  waiting : ∀ msg ∈ w.outbox, rep.restored ≤ msg.index ∧ msg.index ≤ w.lastApplied ∧
    Good codec ops msg
  once : w.outbox.countP Cluster.isCommand ≤ 1
  next : w.lastApplied ≤ rep.reached ∨ ∃ msg ∈ w.outbox, msg.index = w.lastApplied
  turn : ∀ i cmd, .command i cmd ∈ w.outbox → rep.reached ≤ i ∧
    (i ≤ rep.reached + 1 ∨ ∃ t sn, .snapshot (i - 1) t sn ∈ w.outbox)

namespace Serving

variable {codec : Codec} {ops : List Op} {rep rep' : Replica} {w : ServiceView Op}

/-- A server that starts on a good snapshot. -/
theorem boot {index : ℕ} (term : ℕ) (sn : Snapshot Op)
    (h : (index = 0 ∧ sn.data = []) ∨ Carries codec ops index sn.data) :
    Serving codec ops (Replica.boot codec index sn.data)
      { outbox := bootMsgs index term sn
        lastApplied := index
        lastIncludedIndex := index
        snapshot := sn } := by
  have hcommit := Server.commitIndex_startKVServer codec sn.data
  have hreached := Replica.reached_boot codec index sn.data
  have hmsgs : ∀ msg ∈ bootMsgs index term sn, msg = .snapshot index term sn := by
    intro msg hmsg
    unfold bootMsgs at hmsg
    split at hmsg
    · exact List.mem_singleton.1 hmsg
    · exact absurd hmsg (by simp)
  have hlen : index ≤ ops.length := h.elim (fun h => by omega) (fun h => h.1)
  have hempty : 0 < sn.data.length → Carries codec ops index sn.data := by
    intro hpos
    exact h.resolve_left fun h => by rw [h.2] at hpos; exact absurd hpos (by simp)
  refine
    { state := ?_
      highest := Or.inl ⟨rfl, hcommit⟩
      bound := by rw [hreached]; exact hlen
      reached_le := hreached.le
      included_le := le_rfl
      restored_le := le_rfl
      saved := h
      waiting := fun msg hmsg => ?_
      once := ?_
      next := Or.inl hreached.ge
      turn := fun i cmd hmem => absurd (hmsgs _ hmem) (by simp) }
  · rw [hreached]
    rcases h with ⟨rfl, hnil⟩ | ⟨_, hdec⟩
    · simp [Replica.boot, Server.startKVServer, hnil]
    · have hpos : 0 < sn.data.length := by
        rw [List.length_pos_iff]
        intro hnil
        rw [hnil, codec.decode_nil] at hdec
        exact absurd hdec (by simp)
      simp [Replica.boot, Server.startKVServer, hpos, Server.restoreSnapshot, hdec]
  · obtain rfl := hmsgs msg hmsg
    unfold bootMsgs at hmsg
    split at hmsg
    · next hpos => exact ⟨le_rfl, le_rfl, hempty hpos⟩
    · exact absurd hmsg (by simp)
  · unfold bootMsgs
    split <;> simp [Cluster.isCommand]

/-- `sendApplyMsg` takes the next entry. -/
theorem command (h : Serving codec ops rep w) {op : Op}
    (hidle : w.outbox.any Cluster.isCommand = false) (hop : ops[w.lastApplied]? = some op) :
    Serving codec ops rep
      { w with
        outbox := w.outbox ++ [.command (w.lastApplied + 1) (some op)]
        lastApplied := w.lastApplied + 1 } := by
  have hreached := h.reached_le
  have hrestored := h.restored_le.trans h.included_le
  have hnone : ∀ i cmd, .command i cmd ∉ w.outbox := by
    intro i cmd hmem
    exact absurd (List.any_eq_false.1 hidle _ hmem) (by simp [Cluster.isCommand])
  refine
    { h with
      reached_le := hreached.trans (Nat.le_succ _)
      included_le := h.included_le.trans (Nat.le_succ _)
      waiting := fun msg hmsg => ?_
      once := ?_
      next := Or.inr ⟨_, List.mem_append_right _ (List.mem_singleton.2 rfl), rfl⟩
      turn := fun i cmd hmem => ?_ }
  · rcases List.mem_append.1 hmsg with hmem | hmem
    · obtain ⟨hlow, hhigh, hgood⟩ := h.waiting msg hmem
      exact ⟨hlow, hhigh.trans (Nat.le_succ _), hgood⟩
    · obtain rfl := List.mem_singleton.1 hmem
      exact ⟨hrestored.trans (Nat.le_succ _), le_rfl, Nat.succ_pos _, op, hop, rfl⟩
  · rw [List.countP_append, List.countP_eq_zero.2 (fun x hx => List.any_eq_false.1 hidle x hx)]
    simp [Cluster.isCommand]
  · rcases List.mem_append.1 hmem with hold | hnew
    · exact absurd hold (hnone i cmd)
    · obtain ⟨rfl, _⟩ := ApplyMsg.command.inj (List.mem_singleton.1 hnew)
      refine ⟨hreached.trans (Nat.le_succ _), ?_⟩
      -- what waits at `lastApplied` is no command
      rcases h.next with hle | ⟨msg, hmsg, hidx⟩
      · exact Or.inl (by omega)
      · cases msg with
        | command j cmd' => exact absurd hmsg (hnone j cmd')
        | snapshot j t sn =>
            obtain rfl : j = w.lastApplied := hidx
            exact Or.inr ⟨t, sn, List.mem_append_left _ hmsg⟩

/-- `InstallSnapshot` starts a goroutine with a snapshot. -/
theorem install (h : Serving codec ops rep w) {index term : ℕ} {sn : Snapshot Op}
    (hlt : w.lastIncludedIndex < index) (hsn : Carries codec ops index sn.data) :
    Serving codec ops rep
      { outbox := w.outbox ++ [.snapshot index term sn]
        lastApplied := max index w.lastApplied
        lastIncludedIndex := index
        snapshot := sn } where
  state := h.state
  highest := h.highest
  bound := h.bound
  reached_le := h.reached_le.trans (le_max_right _ _)
  included_le := le_max_left _ _
  restored_le := h.restored_le.trans hlt.le
  saved := Or.inr hsn
  waiting msg hmsg := by
    rcases List.mem_append.1 hmsg with hmem | hmem
    · obtain ⟨hlow, hhigh, hgood⟩ := h.waiting msg hmem
      exact ⟨hlow, hhigh.trans (le_max_right _ _), hgood⟩
    · obtain rfl := List.mem_singleton.1 hmem
      exact ⟨h.restored_le.trans hlt.le, le_max_left _ _, hsn⟩
  once := by
    rw [List.countP_append]
    simpa [Cluster.isCommand] using h.once
  next := by
    rcases le_total index w.lastApplied with hle | hle
    · rw [max_eq_right hle]
      exact h.next.imp_right fun ⟨msg, hmem, hidx⟩ => ⟨msg, List.mem_append_left _ hmem, hidx⟩
    · rw [max_eq_left hle]
      exact Or.inr ⟨_, List.mem_append_right _ (List.mem_singleton.2 rfl), rfl⟩
  turn i cmd hmem := by
    have hold : .command i cmd ∈ w.outbox :=
      (List.mem_append.1 hmem).resolve_right (by simp)
    obtain ⟨hle, hturn⟩ := h.turn i cmd hold
    exact ⟨hle, hturn.imp_right fun ⟨t, sn', hsn'⟩ => ⟨t, sn', List.mem_append_left _ hsn'⟩⟩

/-- The service compacts the log up to what it has handled. -/
theorem compact (h : Serving codec ops rep w) {sn : Snapshot Op}
    (hlt : w.lastIncludedIndex < rep.kv.commitIndex)
    (hsn : codec.decode sn.data = some rep.kv.state) :
    Serving codec ops rep
      { w with
        lastApplied := max rep.kv.commitIndex w.lastApplied
        lastIncludedIndex := rep.kv.commitIndex
        snapshot := sn } := by
  have hrestored := h.restored_le
  have hreached : rep.reached = rep.kv.commitIndex := max_eq_left (by omega)
  have hle := h.reached_le
  rw [hreached] at hle
  have hmax : max rep.kv.commitIndex w.lastApplied = w.lastApplied := max_eq_right hle
  rw [hmax]
  exact
    { h with
      included_le := hle
      restored_le := hrestored.trans hlt.le
      saved := Or.inr ⟨hreached ▸ h.bound, by rw [hsn, h.state, hreached]⟩ }

/-- The state after the next operation, also when that operation is the last one handled. -/
theorem apply_eq (h : Serving codec ops rep w) {i : ℕ} {op : Op} (hpos : 0 < i)
    (hop : ops[i - 1]? = some op) (hle : rep.reached ≤ i) (hnext : i ≤ rep.reached + 1) :
    rep.kv.state.apply op = State.replay (ops.take i) := by
  have htake : ops.take i = ops.take (i - 1) ++ [op] := by
    obtain ⟨j, rfl⟩ := Nat.exists_eq_add_of_le' hpos
    exact State.take_succ_of_getElem? hop
  rw [h.state]
  rcases hle.eq_or_lt with heq | hlt
  · rw [heq, htake, State.replay_concat, State.apply_apply]
  · rw [htake, State.replay_concat, show rep.reached = i - 1 by omega]

/-- What is left when a message has been taken that moves the state to `commitIndex`. -/
theorem taken (h : Serving codec ops rep w) {msg : ApplyMsg Op} {rest : List (ApplyMsg Op)}
    (hperm : (msg :: rest).Perm w.outbox) {kv : Server}
    (hstate : kv.state = State.replay (ops.take kv.commitIndex))
    (hcommit : kv.commitIndex = max rep.kv.commitIndex msg.index)
    (hbound : kv.commitIndex ≤ ops.length)
    (hwait : ∀ i cmd, .command i cmd ∈ rest → kv.commitIndex ≤ i) :
    Serving codec ops
      { rep with kv := kv, highest := some (max (rep.highest.getD 0) msg.index) }
      { w with outbox := rest } := by
  have hmem : msg ∈ w.outbox := hperm.mem_iff.1 List.mem_cons_self
  have hrest : ∀ {x}, x ∈ rest → x ∈ w.outbox := fun hx =>
    hperm.mem_iff.1 (List.mem_cons_of_mem _ hx)
  have hback : ∀ {x}, x ∈ w.outbox → x = msg ∨ x ∈ rest := fun hx =>
    List.mem_cons.1 (hperm.mem_iff.2 hx)
  obtain ⟨hlow, hhigh, _⟩ := h.waiting msg hmem
  have hidx : msg.index ≤ kv.commitIndex := hcommit ▸ le_max_right _ _
  have hreached : max kv.commitIndex rep.restored = kv.commitIndex :=
    max_eq_left (hlow.trans hidx)
  have hle : kv.commitIndex ≤ w.lastApplied :=
    hcommit ▸ max_le ((le_max_left _ _).trans h.reached_le) hhigh
  have hmono : rep.reached ≤ kv.commitIndex :=
    max_le (hcommit ▸ le_max_left _ _) (hlow.trans hidx)
  have honce := h.once
  rw [← hperm.countP_eq, List.countP_cons] at honce
  refine
    { state := by simpa only [Replica.reached, hreached] using hstate
      highest := Or.inr ⟨?_, hlow.trans hidx⟩
      bound := by simpa only [Replica.reached, hreached] using hbound
      reached_le := by simpa only [Replica.reached, hreached] using hle
      included_le := h.included_le
      restored_le := h.restored_le
      saved := h.saved
      waiting := fun msg hmsg => h.waiting msg (hrest hmsg)
      once := (Nat.le_add_right _ _).trans honce
      next := ?_
      turn := fun i cmd hi => ?_ }
  · rcases h.highest with ⟨hnone, hzero⟩ | ⟨hsome, _⟩
    · rw [hcommit, hnone, hzero]
      rfl
    · rw [hcommit, hsome]
      rfl
  · simp only [Replica.reached, hreached]
    rcases h.next with hla | ⟨other, hother, hla⟩
    · exact Or.inl (hla.trans hmono)
    · rcases hback hother with rfl | hother
      · exact Or.inl (hla ▸ hidx)
      · exact Or.inr ⟨other, hother, hla⟩
  · simp only [Replica.reached, hreached]
    refine ⟨hwait i cmd hi, ?_⟩
    rcases (h.turn i cmd (hrest hi)).2 with hnext | ⟨t, sn, hsn⟩
    · exact Or.inl (by omega)
    · rcases hback hsn with rfl | hsn
      · exact Or.inl (by simp only [ApplyMsg.index] at hidx; omega)
      · exact Or.inr ⟨t, sn, hsn⟩

/-- A command that overtakes no snapshot is the next one or the last one once more: otherwise it
    would overtake the snapshot that it builds on. -/
theorem command_turn (h : Serving codec ops rep w) {i : ℕ} {cmd : Option Op}
    (hmem : .command i cmd ∈ w.outbox)
    (hord : ∀ other ∈ w.outbox, ¬ overtakes rep.reached (.command i cmd) other) :
    rep.reached ≤ i ∧ i ≤ rep.reached + 1 := by
  obtain ⟨hle, hturn⟩ := h.turn i cmd hmem
  refine ⟨hle, ?_⟩
  rcases hturn with hnext | ⟨t, sn, hsn⟩
  · exact hnext
  · by_contra hgt
    exact hord _ hsn ⟨by omega, by omega⟩

/-- A command that is handled is the last one that the state contains. -/
theorem reached_command {i : ℕ} {cmd : Option Op} (h : Serving codec ops rep w)
    (hmem : .command i cmd ∈ w.outbox)
    (hh : rep.handle codec (.command i cmd) = some rep') : rep'.reached = i := by
  obtain ⟨hlow, _, _, op, _, rfl⟩ := h.waiting _ hmem
  obtain ⟨kv, hkv, rfl⟩ := Option.map_eq_some_iff.1 hh
  obtain rfl := Option.some.inj hkv
  exact max_eq_left hlow

/-- A snapshot that is handled is ignored if the state has got further. -/
theorem reached_snapshot {i t : ℕ} {sn : Snapshot Op} (h : Serving codec ops rep w)
    (hmem : .snapshot i t sn ∈ w.outbox)
    (hh : rep.handle codec (.snapshot i t sn) = some rep') :
    rep'.reached = max rep.reached i := by
  obtain ⟨hlow, _, _, hdec⟩ := h.waiting _ hmem
  have hlow : rep.restored ≤ i := hlow
  obtain ⟨kv, hkv, rfl⟩ := Option.map_eq_some_iff.1 hh
  simp only [Server.applier] at hkv
  split at hkv
  · obtain rfl := Option.some.inj hkv
    simp only [Replica.reached, Server.restoreSnapshot, hdec]
    omega
  · obtain rfl := Option.some.inj hkv
    simp only [Replica.reached]
    omega

/-- **The applier takes a message** that overtakes no other. -/
theorem handle (h : Serving codec ops rep w) {msg : ApplyMsg Op} {rest : List (ApplyMsg Op)}
    (hperm : (msg :: rest).Perm w.outbox)
    (hord : ∀ other ∈ w.outbox, ¬ overtakes rep.reached msg other)
    (hh : rep.handle codec msg = some rep') :
    Serving codec ops rep' { w with outbox := rest } := by
  obtain ⟨kv, hkv, rfl⟩ := Option.map_eq_some_iff.1 hh
  have hmem : msg ∈ w.outbox := hperm.mem_iff.1 List.mem_cons_self
  obtain ⟨hlow, _, hgood⟩ := h.waiting msg hmem
  cases msg with
  | command i cmd =>
      obtain ⟨hpos, op, hop, rfl⟩ := hgood
      obtain rfl := Option.some.inj hkv
      obtain ⟨hle, hnext⟩ := h.command_turn hmem hord
      refine h.taken hperm (h.apply_eq hpos hop hle hnext)
        (max_eq_right ((le_max_left _ _).trans hle)).symm ?_ fun j cmd' hj => ?_
      · have := (List.getElem?_eq_some_iff.1 hop).1
        exact Nat.le_of_pred_lt this
      · -- `sendApplyMsg` is blocked with one command at a time
        have honce := h.once
        rw [← hperm.countP_eq, List.countP_cons_of_pos rfl] at honce
        have : 0 < rest.countP Cluster.isCommand := List.countP_pos_iff.2 ⟨_, hj, rfl⟩
        omega
  | snapshot x t sn =>
      obtain ⟨hlen, hdec⟩ := hgood
      simp only [Server.applier] at hkv
      split at hkv
      · next hgt =>
          obtain rfl := Option.some.inj hkv
          simp only [Server.restoreSnapshot, hdec]
          refine h.taken hperm rfl (max_eq_right (le_of_lt hgt)).symm hlen fun i cmd hi => ?_
          have hi' := hperm.mem_iff.1 (List.mem_cons_of_mem _ hi)
          by_contra hlt
          refine hord _ hi' ⟨?_, not_le.1 hlt⟩
          exact (h.turn i cmd hi').1.trans_lt (not_le.1 hlt)
      · next hle =>
          obtain rfl := Option.some.inj hkv
          have hle : x ≤ rep.kv.commitIndex := not_lt.1 hle
          have hreached : rep.reached = rep.kv.commitIndex := max_eq_left (hlow.trans hle)
          refine h.taken hperm (hreached ▸ h.state) (max_eq_left hle).symm (hreached ▸ h.bound)
            fun i cmd hi => ?_
          exact hreached ▸ (h.turn i cmd (hperm.mem_iff.1 (List.mem_cons_of_mem _ hi))).1

end Serving

/-! ## Runs -/

section Runs

variable {codec : Codec} {ops : List Op} {s : Fin n} {r r' : Replicas n}

theorem serving_init (s : Fin n) :
    Serving codec ops ((Replicas.init codec n).replica s)
      ((Replicas.init codec n).raft.node s).view :=
  Serving.boot 0 { data := [], covers := [] } (Or.inl ⟨rfl, rfl⟩)

/-- **Step lemma.** A step of the server keeps `Serving`, if what it takes from the log is the next
    operation and the snapshots that come in and go out are of the operations. -/
theorem Serving.step {a : Action n Op} {nd : Node n Op} {q : Replicas n}
    (h : Serving codec ops (r.replica s) (r.raft.node s).view) (hd : Delivery r.raft a s nd)
    (hagreed : ∀ e, a = .apply s → (r.raft.rf s).lastApplied < (r.raft.rf s).commitIndex →
      (r.raft.rf s).entryAt ((r.raft.rf s).lastApplied + 1) = some e →
      ∃ op, ops[(r.raft.rf s).lastApplied]? = some op ∧ e.command = some op)
    (hreceived : ∀ k src ep args, a = .deliver k →
      r.raft.net[k]? = some (.installSnapshot src s ep args) →
      Carries codec ops args.lastIncludedIndex args.data.data)
    (hdecoded : ∀ index data, a = .snapshot s index data →
      data = codec.encode (r.replica s).kv.state → codec.decode data = some (r.replica s).kv.state)
    (ho : InOrder s r a) (hq : r.service codec a = some q) :
    Serving codec ops (q.replica s) nd.view := by
  cases hd with
  | quiet hno hr hview =>
      rw [Replicas.service_quiet codec hno hr hq, hview]
      exact h
  | installed hdel hk hlt hview =>
      rw [Replicas.service_quiet codec (by simp [hdel]) (by rw [hdel]; rfl) hq, hview]
      exact h.install hlt (hreceived _ _ _ _ hdel hk)
  | compacted hsnap hlt hdata hview =>
      rw [Replicas.service_quiet codec (by simp [hsnap]) (by rw [hsnap]; rfl) hq, hview]
      subst hsnap
      rw [Replicas.service] at hq
      split at hq
      · next hcall =>
          obtain ⟨rfl, hcoded⟩ := hcall
          exact h.compact hlt (hdata ▸ hdecoded _ _ rfl hcoded)
      · exact absurd hq (by simp)
  | applied happ hidle hlt he hview =>
      obtain ⟨op, hop, hcmd⟩ := hagreed _ happ hlt he
      rw [Replicas.service_quiet codec (by simp [happ]) (by rw [happ]; rfl) hq, hview, hcmd]
      exact h.command hidle hop
  | received hrec hview =>
      subst hrec
      obtain ⟨msg, rep, hmsg, hhandle, hupd⟩ := Replicas.service_receive codec hq
      rw [hupd, Function.update_self, hview]
      refine h.handle ?_ (ho rfl msg hmsg) hhandle
      obtain ⟨hk, rfl⟩ := List.getElem?_eq_some_iff.1 hmsg
      exact List.getElem_cons_eraseIdx_perm hk
  | restarted hr hview =>
      rw [Replicas.service_restart codec hr hq, Function.update_self, hview]
      exact Serving.boot _ _ h.saved

theorem serving_step {a : Action n Op} {p : Hist n Op} (hsim : Sim False r.raft p)
    (h : Serving codec ops (r.replica s) (r.raft.node s).view) (ha : Assumed codec ops s r a)
    (ho : InOrder s r a) (hstep : r.step codec a = some r') :
    Serving codec ops (r'.replica s) (r'.raft.node s).view := by
  obtain ⟨hraft, q, hq, hrep⟩ := Replicas.step_inv codec hstep
  rw [hrep]
  rcases step_move hraft with ⟨⟨k, rfl⟩, hsame⟩ | ⟨v, nd, hm, hnode⟩
  · obtain rfl := Replicas.service_quiet codec (by simp) rfl hq
    rwa [hsame]
  by_cases hv : s = v
  · subst hv
    have hserver := (hsim.server s).raft
    rw [hnode, Function.update_self]
    refine h.step (hm.delivery fun _ => ⟨hserver.mirrored, hserver.me⟩) (fun e _ hlt he => ?_)
      ha.received (fun index data hsnap _ => ha.decoded index data hsnap) ho hq
    obtain ⟨op, hop, hlog⟩ := ha.agreed _ hlt
    have hinc : (r.raft.rf s).lastIncludedIndex < (r.raft.rf s).lastApplied + 1 :=
      Nat.lt_succ_of_le h.included_le
    rw [hserver.wf.entryAt_of_lt hinc, Nat.add_sub_cancel] at he
    rw [he, Option.map_some, Option.some.injEq] at hlog
    exact ⟨op, hop, hlog⟩
  · obtain ⟨rep, hframe⟩ := Replicas.service_frame codec hm hq
    rwa [hnode, hframe, Function.update_of_ne hv, Function.update_of_ne hv]

/-- **Replica state.** In a run in which no message overtakes another, what the applier has after
    handling messages is the result of the committed operations up to the highest index handled. -/
theorem replica_state {as : List (Action n Op)} {m : ℕ}
    (hd : Machine.Along (Replicas.step codec) (fun r a => Assumed codec ops s r a ∧ InOrder s r a)
      (Replicas.init codec n) as)
    (h : Machine.exec (Replicas.step codec) (Replicas.init codec n) as = some r)
    (hm : (r.replica s).highest = some m) :
    m ≤ ops.length ∧ (r.replica s).kv.state = State.replay (ops.take m) := by
  have hinv : (∃ p, Sim False r.raft p) ∧
      Serving codec ops (r.replica s) (r.raft.node s).view := by
    refine Machine.invariant_exec (I := fun r => (∃ p, Sim False r.raft p) ∧
      Serving codec ops (r.replica s) (r.raft.node s).view) ?_ as _ r
      ⟨⟨_, sim_init False⟩, serving_init s⟩ hd h
    rintro r a r' ⟨⟨p, hsim⟩, hserv⟩ ⟨ha, ho⟩ hstep
    obtain ⟨p', _, hsim'⟩ := sim_step hsim (fun hno => hno.elim) (Replicas.step_inv codec hstep).1
    exact ⟨⟨p', hsim'⟩, serving_step hsim hserv ha ho hstep⟩
  have hserv := hinv.2
  rcases hserv.highest with ⟨hnone, _⟩ | ⟨hsome, hle⟩
  · exact absurd (hnone.symm.trans hm) (by simp)
  · obtain rfl : (r.replica s).kv.commitIndex = m := Option.some.inj (hsome.symm.trans hm)
    have hreached : (r.replica s).reached = (r.replica s).kv.commitIndex := max_eq_left hle
    exact ⟨hreached ▸ hserv.bound, hreached ▸ hserv.state⟩

end Runs

/-! ## A server that lags behind -/

def lagOps : List Op :=
  [⟨.put, "x", "1", 1, 7⟩, ⟨.put, "y", "2", 2, 7⟩, ⟨.put, "z", "3", 3, 7⟩]

/-- One byte stands for the state after the first two operations. -/
def lagCodec : Codec where
  encode := fun _ => [2]
  decode := fun data => if data = [2] then some (State.replay (lagOps.take 2)) else none
  decode_nil := rfl

/-- Leader `0` commits two operations with server `1` and compacts its log, so that server `2` gets
    a snapshot. While the goroutine with that snapshot is blocked, the third operation is committed
    with server `2`, and its `sendApplyMsg` is blocked with it. -/
def lagRun : List (Action 3 Op) :=
  electRun ++ ([.drop 0,
    .start 0 lagOps[0]?, .start 0 lagOps[1]?, .run 0 2, .run 0 3, .deliver 0, .deliver 0,
    .apply 0, .receive 0 0, .apply 0, .receive 0 0, .snapshot 0 2 [2],
    .run 0 3, .run 0 3, .deliver 0, .deliver 0,
    .start 0 lagOps[2]?, .run 0 3, .run 0 4, .deliver 0, .deliver 0,
    .run 0 0, .run 0 4, .deliver 0, .apply 2] : List (Action 3 Op))

/-- `Assumed` of server `2` and these operations, in a form that can be evaluated. -/
def lagAssumed (r : Replicas 3) (a : Action 3 Op) : Bool :=
  (List.range (r.raft.rf 2).commitIndex).all (fun i =>
      lagOps[i]?.isSome &&
        ((r.raft.rf 2).fullLog[i]?).map LogEntry.command == some lagOps[i]?) &&
    match a with
    | .deliver k =>
        match r.raft.net[k]? with
        | some (.installSnapshot _ _ _ args) =>
            args.lastIncludedIndex == 2 && args.data.data == [2]
        | _ => true
    | .snapshot s _ _ => s != 2
    | _ => true

theorem assumed_of_lagAssumed {r : Replicas 3} {a : Action 3 Op} (h : lagAssumed r a = true) :
    Assumed lagCodec lagOps 2 r a := by
  unfold lagAssumed at h
  rw [Bool.and_eq_true, List.all_eq_true] at h
  obtain ⟨hlog, hact⟩ := h
  refine ⟨fun i hi => ?_, fun k src ep args ha hk => ?_, fun index data ha => ?_⟩
  · have hi := hlog i (List.mem_range.2 hi)
    rw [Bool.and_eq_true, beq_iff_eq] at hi
    obtain ⟨op, hop⟩ := Option.isSome_iff_exists.1 hi.1
    exact ⟨op, hop, hop ▸ hi.2⟩
  · subst ha
    simp only [hk, Bool.and_eq_true, beq_iff_eq] at hact
    rw [Carries, hact.1, hact.2]
    exact ⟨by decide, rfl⟩
  · subst ha
    exact absurd hact (by simp)

/-- The snapshot is taken first, and then the command. -/
theorem replica_state_lagRun : ∃ r,
    Machine.exec (Replicas.step lagCodec) (Replicas.init lagCodec 3)
      (lagRun ++ [.receive 2 0, .receive 2 0]) = some r ∧
    (r.replica 2).kv.state = State.replay (lagOps.take 3) := by
  have hrun : (Machine.exec (Replicas.step lagCodec) (Replicas.init lagCodec 3)
      (lagRun ++ [.receive 2 0, .receive 2 0])).map (fun r => (r.replica 2).highest) =
      some (some 3) := by decide
  have hmeets : Machine.Along (Replicas.step lagCodec)
      (fun r a => lagAssumed r a = true ∧ InOrder 2 r a) (Replicas.init lagCodec 3)
      (lagRun ++ [.receive 2 0, .receive 2 0]) := by decide
  obtain ⟨r, hr, hm⟩ := Option.map_eq_some_iff.1 hrun
  refine ⟨r, hr, (replica_state ?_ hr hm).2⟩
  exact Machine.along_mono (fun _ _ h => ⟨assumed_of_lagAssumed h.1, h.2⟩) hmeets

/-- The command is taken first: the snapshot is then ignored, and the first two operations are
    missing for good. -/
theorem snapshot_ignored :
    Machine.Along (Replicas.step lagCodec) (Assumed lagCodec lagOps 2) (Replicas.init lagCodec 3)
      (lagRun ++ [.receive 2 1, .receive 2 0]) ∧
    (Machine.exec (Replicas.step lagCodec) (Replicas.init lagCodec 3)
        (lagRun ++ [.receive 2 1, .receive 2 0])).map
        (fun r => ((r.replica 2).highest, ["x", "y", "z"].map (r.replica 2).kv.state.kvStore)) =
      some (some 3, [none, none, some "3"]) ∧
    ["x", "y", "z"].map (State.replay (lagOps.take 3)).kvStore =
      [some "1", some "2", some "3"] := by
  have hmeets : Machine.Along (Replicas.step lagCodec) (fun r a => lagAssumed r a = true)
      (Replicas.init lagCodec 3) (lagRun ++ [.receive 2 1, .receive 2 0]) := by decide
  exact ⟨Machine.along_mono (fun _ _ h => assumed_of_lagAssumed h) hmeets, by decide, by decide⟩

end KV

end AiFS
