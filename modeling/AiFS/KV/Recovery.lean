import AiFS.KV.Serving

set_option autoImplicit false

/-! # A key/value server comes back

After a crash the state comes back on two ways. `StartKVServer` decodes the persisted snapshot, with
`commitIndex` still `0`; and a goroutine of `Make` sends the same snapshot through `applyCh`, in a
race with the commands that `sendApplyMsg` replays behind it. The applier restores the second copy
if it is the first message to arrive, and ignores it later. Neither does any harm: the copy has the
index that the state was restored at (`Recovers`), so it overtakes nothing and nothing overtakes it.

Nothing is taken for granted of the other servers, nor of the log in the persisted state: only that
the snapshot is of the committed operations up to `lastIncludedIndex`, and that the commands taken
from the log after it are the operations that follow. -/

namespace AiFS

namespace KV

variable {n : ℕ} {codec : Codec} {ops : List Op} {s : Fin n} {r r' : Replicas n}

/-! ## A server that never crashes -/

namespace Server

/-- The applier handles one command after the other, the first one with index `i`. -/
def handleCommands (codec : Codec) (kv : Server) : ℕ → List Op → Option Server
  | _, [] => some kv
  | i, op :: ops =>
      match kv.applier codec (.command i (some op)) with
      | none => none
      | some kv => handleCommands codec kv (i + 1) ops

/-- A server that has handled the operations without ever crashing. -/
def uncrashed (codec : Codec) (ops : List Op) : Option Server :=
  (startKVServer codec []).handleCommands codec 1 ops

theorem state_handleCommands (kv : Server) (i : ℕ) (ops : List Op) :
    (kv.handleCommands codec i ops).map Server.state =
      some (ops.foldl (fun st op => st.apply op) kv.state) := by
  induction ops generalizing kv i with
  | nil => rfl
  | cons op ops ih => exact ih _ (i + 1)

theorem state_uncrashed (ops : List Op) :
    (uncrashed codec ops).map Server.state = some (State.replay ops) :=
  state_handleCommands _ 1 ops

end Server

/-! ## Recovery -/

/-- Server `s` stays up and is sent no snapshot, and what it takes from its log are the committed
    operations. -/
structure Recovering (ops : List Op) (s : Fin n) (r : Replicas n) (a : Action n Op) : Prop where
  up : r.raft.restarts a ≠ some s
  alone : ∀ k src ep args, a = .deliver k →
    r.raft.net[k]? ≠ some (.installSnapshot src s ep args)
  agreed : ∀ e, a = .apply s → (r.raft.rf s).lastApplied < (r.raft.rf s).commitIndex →
    (r.raft.rf s).entryAt ((r.raft.rf s).lastApplied + 1) = some e →
    ∃ op, ops[(r.raft.rf s).lastApplied]? = some op ∧ e.command = some op

/-- The only snapshots that wait for the applier are those it was started from. -/
structure Recovers (codec : Codec) (ops : List Op) (s : Fin n) (r : Replicas n) : Prop where
  serving : Serving codec ops (r.replica s) (r.raft.node s).view
  old : ∀ i term sn, .snapshot i term sn ∈ (r.raft.node s).outbox → i ≤ (r.replica s).restored

theorem Recovers.inOrder (h : Recovers codec ops s r) (a : Action n Op) : InOrder s r a := by
  have hold : ∀ i term sn, .snapshot i term sn ∈ (r.raft.node s).outbox →
      i ≤ (r.replica s).reached := fun i term sn hmem =>
    (h.old i term sn hmem).trans (le_max_right _ _)
  cases a with
  | receive v k =>
      intro hv msg hmsg other hother hover
      have hmem : msg ∈ (r.raft.node s).outbox := List.mem_of_getElem? hmsg
      cases msg with
      | command i cmd =>
          cases other with
          | command j cmd' => exact hover
          | snapshot j term sn => exact absurd (hold j term sn hother) (not_le.2 hover.1)
      | snapshot j term sn =>
          cases other with
          | command i cmd => exact absurd (hold j term sn hmem) (not_le.2 hover.1)
          | snapshot i term' sn' => exact hover
  | _ => trivial

/-- **Step lemma.** -/
theorem recovers_step {a : Action n Op}
    (hcodec : ∀ i ≤ ops.length, codec.decode (codec.encode (State.replay (ops.take i))) =
      some (State.replay (ops.take i)))
    (h : Recovers codec ops s r) (ha : Recovering ops s r a) (hstep : r.step codec a = some r') :
    Recovers codec ops s r' := by
  obtain ⟨hraft, q, hq, hrep⟩ := Replicas.step_inv codec hstep
  rcases step_move hraft with ⟨⟨k, rfl⟩, hsame⟩ | ⟨v, nd, hm, hnode⟩
  · obtain rfl := Replicas.service_quiet codec (by simp) rfl hq
    exact ⟨by rw [hrep, hsame]; exact h.serving, by rw [hrep, hsame]; exact h.old⟩
  by_cases hv : s = v
  swap
  · obtain ⟨rep, hframe⟩ := Replicas.service_frame codec hm hq
    have hnode' : r'.raft.node s = r.raft.node s := by rw [hnode, Function.update_of_ne hv]
    have hrep' : r'.replica s = r.replica s := by rw [hrep, hframe, Function.update_of_ne hv]
    exact ⟨by rw [hnode', hrep']; exact h.serving, by rw [hnode', hrep']; exact h.old⟩
  subst hv
  have hd := hm.delivery (fun hr => absurd hr ha.up)
  have hnd : r'.raft.node s = nd := by rw [hnode, Function.update_self]
  refine ⟨?_, ?_⟩
  · rw [hrep, hnd]
    exact h.serving.step hd ha.agreed
      (fun k src ep args hdel hk => absurd hk (ha.alone k src ep args hdel))
      (fun index data _ hdata => by
        rw [hdata, h.serving.state]
        exact hcodec _ h.serving.bound)
      (h.inOrder a) hq
  · rw [hrep, hnd]
    -- nothing but a restart or an installed snapshot puts a snapshot on the channel
    have hquiet : (∀ s k, a ≠ .receive s k) → r.raft.restarts a = none →
        (∀ msg ∈ nd.outbox, msg ∈ (r.raft.node s).outbox ∨ Cluster.isCommand msg = true) →
        ∀ i term sn, .snapshot i term sn ∈ nd.outbox → i ≤ (q.replica s).restored := by
      intro hno hr hsub i term sn hmem
      rw [Replicas.service_quiet codec hno hr hq]
      rcases hsub _ hmem with hold | hcmd
      · exact h.old i term sn hold
      · exact absurd hcmd (by simp [Cluster.isCommand])
    cases hd with
    | quiet hno hr hview =>
        have hout : nd.outbox = (r.raft.node s).outbox := congrArg ServiceView.outbox hview
        exact hquiet hno hr (fun msg hmsg => Or.inl (hout ▸ hmsg))
    | installed hdel hk _ _ => exact absurd hk (ha.alone _ _ _ _ hdel)
    | compacted hsnap _ _ hview =>
        have hout : nd.outbox = (r.raft.node s).outbox := congrArg ServiceView.outbox hview
        exact hquiet (by simp [hsnap]) (by rw [hsnap]; rfl) (fun msg hmsg => Or.inl (hout ▸ hmsg))
    | applied happ _ _ _ hview =>
        have hout : nd.outbox = (r.raft.node s).outbox ++ [.command _ _] :=
          congrArg ServiceView.outbox hview
        refine hquiet (by simp [happ]) (by rw [happ]; rfl) (fun msg hmsg => ?_)
        rw [hout] at hmsg
        rcases List.mem_append.1 hmsg with hold | hnew
        · exact Or.inl hold
        · rw [List.mem_singleton.1 hnew]
          exact Or.inr rfl
    | received hrec hview =>
        subst hrec
        obtain ⟨msg, rep, _, hhandle, hupd⟩ := Replicas.service_receive codec hq
        have hout : nd.outbox = (r.raft.node s).outbox.eraseIdx _ :=
          congrArg ServiceView.outbox hview
        have hrestored : rep.restored = (r.replica s).restored := by
          obtain ⟨kv, _, rfl⟩ := Option.map_eq_some_iff.1 hhandle
          rfl
        rw [hupd, Function.update_self, hrestored, hout]
        exact fun i term sn hmem => h.old i term sn (List.eraseIdx_subset hmem)
    | restarted hr _ => exact absurd hr ha.up

/-- A server that has just been started on a snapshot of the operations. -/
theorem recovers_boot {persister : Persister n Op} {epoch : ℕ}
    (hnode : r.raft.node s = Node.boot s persister epoch)
    (hrep : r.replica s = Replica.boot codec (Raft.make s persister).lastIncludedIndex
      persister.snapshot.data)
    (hsaved : ((Raft.make s persister).lastIncludedIndex = 0 ∧ persister.snapshot.data = []) ∨
      Carries codec ops (Raft.make s persister).lastIncludedIndex persister.snapshot.data) :
    Recovers codec ops s r := by
  have hview := boot_view s persister epoch
  rw [← hnode] at hview
  refine ⟨?_, ?_⟩
  · rw [hrep, hview]
    exact Serving.boot _ _ hsaved
  · intro i term sn hmem
    have hout : (r.raft.node s).outbox = bootMsgs (Raft.make s persister).lastIncludedIndex
        (Raft.make s persister).lastIncludedTerm persister.snapshot :=
      congrArg ServiceView.outbox hview
    rw [hout] at hmem
    rw [hrep]
    unfold bootMsgs at hmem
    split at hmem
    · obtain ⟨rfl, _⟩ := ApplyMsg.snapshot.inj (List.mem_singleton.1 hmem)
      exact le_rfl
    · exact absurd hmem (by simp)

/-- **Crash recovery.** A server restarts on a persisted state with `lastIncludedIndex = L` and the
    snapshot of the first `L` operations. In whatever order the messages get through afterwards,
    and whatever is compacted in between: when it has handled the command with index `i`, it has
    the state of a server that has handled the first `i` operations without ever crashing. -/
theorem crash_recovery {persister : Persister n Op} {epoch L i k : ℕ} {cmd : Option Op}
    {as : List (Action n Op)} {r₀ : Replicas n}
    (hcodec : ∀ j ≤ ops.length, codec.decode (codec.encode (State.replay (ops.take j))) =
      some (State.replay (ops.take j)))
    (hL : (Raft.make s persister).lastIncludedIndex = L) (hlen : L ≤ ops.length)
    (hsaved : persister.snapshot.data = codec.encode (State.replay (ops.take L)) ∨
      (L = 0 ∧ persister.snapshot.data = []))
    (hnode : r₀.raft.node s = Node.boot s persister epoch)
    (hrep : r₀.replica s = Replica.boot codec L persister.snapshot.data)
    (hrun : Machine.Along (Replicas.step codec) (Recovering ops s) r₀ as)
    (h : Machine.exec (Replicas.step codec) r₀ as = some r)
    (hmsg : (r.raft.node s).outbox[k]? = some (.command i cmd))
    (hstep : r.step codec (.receive s k) = some r') :
    i ≤ ops.length ∧ (r'.replica s).kv.commitIndex = i ∧
      (Server.uncrashed codec (ops.take i)).map Server.state =
        some (r'.replica s).kv.state := by
  subst hL
  have hboot : Recovers codec ops s r₀ := by
    refine recovers_boot hnode hrep ?_
    rcases hsaved with hdata | hnone
    · exact Or.inr ⟨hlen, by rw [hdata, hcodec _ hlen]⟩
    · exact Or.inl hnone
  have hinv : Recovers codec ops s r :=
    Machine.invariant_exec (fun _ _ _ h ha hs => recovers_step hcodec h ha hs) as r₀ r hboot hrun h
  -- the last step handles the command
  have hinv' : Recovers codec ops s r' := recovers_step hcodec hinv
    ⟨by simp [Cluster.restarts], by simp, by simp⟩ hstep
  obtain ⟨_, q, hq, hrep'⟩ := Replicas.step_inv codec hstep
  obtain ⟨msg, rep, hmsg', hhandle, hupd⟩ := Replicas.service_receive codec hq
  obtain rfl : msg = .command i cmd := Option.some.inj (hmsg'.symm.trans hmsg)
  have hserv := hinv'.serving
  rw [hrep', hupd, Function.update_self] at hserv ⊢
  obtain ⟨kv, hkv, rfl⟩ := Option.map_eq_some_iff.1 hhandle
  have hcommit : kv.commitIndex = i := by
    cases cmd with
    | none => exact absurd hkv (by simp [Server.applier])
    | some op => rw [← Option.some.inj hkv]
  have hreached : max kv.commitIndex (r.replica s).restored = i := by
    rcases hserv.highest with ⟨hnone, _⟩ | ⟨_, hle⟩
    · exact absurd hnone (by simp)
    · rw [← hcommit]
      exact max_eq_left hle
  refine ⟨hreached ▸ hserv.bound, hcommit, ?_⟩
  rw [Server.state_uncrashed, hserv.state]
  exact congrArg (fun i => some (State.replay (ops.take i))) hreached.symm

/-! ## A restart between two operations -/

def crashOps : List Op :=
  [⟨.put, "x", "1", 1, 7⟩, ⟨.put, "y", "2", 2, 7⟩]

/-- The number of operations stands for the state. -/
def crashCodec : Codec where
  encode := fun st =>
    if (st.kvStore "y").isSome then [2] else if (st.kvStore "x").isSome then [1] else [0]
  decode := fun data =>
    match data with
    | [i] => some (State.replay (crashOps.take i.toNat))
    | _ => none
  decode_nil := rfl

/-- The first operation has been compacted. -/
def crashPersister : Persister 3 Op where
  raftstate := some
    { currTerm := 1
      votedFor := none
      logs := [⟨1, none⟩, ⟨1, crashOps[1]?⟩]
      lastIncludedIndex := 1
      lastIncludedTerm := 1 }
  snapshot := { data := [1], covers := [⟨1, crashOps[0]?⟩] }

/-- All servers have restarted, and a heartbeat on its way to server `0` commits the second
    operation. -/
def crashStart : Replicas 3 where
  raft :=
    { node := fun s => Node.boot s crashPersister 1
      net := [.appendEntries 1 0 0
        { term := 1, leaderId := 1, prevLogIndex := 2, prevLogTerm := 1, entries := []
          leaderCommit := 2 }] }
  replica := fun _ => Replica.boot crashCodec 1 [1]

/-- The command gets through before the snapshot that was sent at the start. -/
theorem crash_recovery_crashStart : ∃ r r',
    Machine.exec (Replicas.step crashCodec) crashStart [.deliver 0, .apply 0] = some r ∧
    r.step crashCodec (.receive 0 1) = some r' ∧
    (Server.uncrashed crashCodec crashOps).map Server.state = some (r'.replica 0).kv.state := by
  have hrun : (Machine.exec (Replicas.step crashCodec) crashStart [.deliver 0, .apply 0]).map
      (fun r => ((r.raft.node 0).outbox[1]?, (r.step crashCodec (.receive 0 1)).isSome)) =
      some (some (.command 2 crashOps[1]?), true) := by decide
  have hmid : ((Replicas.step crashCodec) crashStart (.deliver 0)).map
      (fun r => ((r.raft.rf 0).lastApplied, (r.raft.rf 0).entryAt 2)) =
      some (1, some ⟨1, crashOps[1]?⟩) := by decide
  obtain ⟨r, hr, hval⟩ := Option.map_eq_some_iff.1 hrun
  obtain ⟨hmsg, hsome⟩ := Prod.mk.inj hval
  obtain ⟨r', hr'⟩ := Option.isSome_iff_exists.1 hsome
  obtain ⟨r₁, hr₁, hval₁⟩ := Option.map_eq_some_iff.1 hmid
  obtain ⟨hla, hentry⟩ := Prod.mk.inj hval₁
  have hnode : crashStart.raft.node 0 = Node.boot 0 crashPersister 1 := rfl
  have hcodec : ∀ j ≤ crashOps.length,
      crashCodec.decode (crashCodec.encode (State.replay (crashOps.take j))) =
        some (State.replay (crashOps.take j)) := by
    intro j hj
    change j ≤ 2 at hj
    interval_cases j <;> rfl
  have hmeets : Machine.Along (Replicas.step crashCodec) (Recovering crashOps 0) crashStart
      [.deliver 0, .apply 0] := by
    have halone : ∀ k src ep args, (.deliver 0 : Action 3 Op) = .deliver k →
        crashStart.raft.net[k]? ≠ some (.installSnapshot src 0 ep args) := by
      rintro _ src ep args ⟨⟩ hk
      exact absurd (Option.some.inj hk) (by simp)
    refine ⟨⟨by simp [Cluster.restarts], halone, by simp⟩, fun q hq => ?_⟩
    obtain rfl : r₁ = q := Option.some.inj (hr₁.symm.trans hq)
    refine ⟨⟨by simp [Cluster.restarts], by simp, ?_⟩, fun _ _ => trivial⟩
    intro e _ _ he
    rw [hla] at he ⊢
    obtain rfl := Option.some.inj (hentry.symm.trans he)
    exact ⟨_, rfl, rfl⟩
  exact ⟨r, r', hr, hr', (crash_recovery hcodec rfl (by decide) (Or.inl rfl) hnode rfl hmeets hr
    hmsg hr').2.2⟩

end KV

end AiFS
