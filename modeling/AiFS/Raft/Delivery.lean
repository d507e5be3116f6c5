import AiFS.Raft.HandlerSpec
import AiFS.Raft.Moves

set_option autoImplicit false

/-! # What reaches the service

A service sees little of its Raft object: the messages blocked on `applyCh`, how far it has been
served (`lastApplied`), what the log has dropped (`lastIncludedIndex`) and the snapshot that the
persister holds for it. `Node.view` is this part of a server. Four stretches change it, besides the
hand-over itself and a restart: `sendApplyMsg`, `InstallSnapshot` and `Snapshot`. `Delivery` lists
them, and `Move.delivery` says that every other step of a server leaves the view alone. -/

namespace AiFS

variable {n : ℕ} {κ : Type}

structure ServiceView (κ : Type) where
  outbox : List (ApplyMsg κ)
  lastApplied : ℕ
  lastIncludedIndex : ℕ
  snapshot : Snapshot κ

def Node.view (nd : Node n κ) : ServiceView κ where
  outbox := nd.outbox
  lastApplied := nd.rf.lastApplied
  lastIncludedIndex := nd.rf.lastIncludedIndex
  snapshot := nd.rf.persister.snapshot

/-- The server that restarts in a step. -/
def Cluster.restarts (c : Cluster n κ) : Action n κ → Option (Fin n)
  | .crash s => some s
  | .crashMid k => ((c.net[k]?).bind Cluster.requestTerm).map Prod.fst
  | _ => none

/-- The message that `Make` hands over for a snapshot, if it is not empty. -/
def bootMsgs (index term : ℕ) (snapshot : Snapshot κ) : List (ApplyMsg κ) :=
  if snapshot.data.length > 0 then [.snapshot index term snapshot] else []

inductive Delivery (c : Cluster n κ) (a : Action n κ) (v : Fin n) (nd : Node n κ) : Prop
  | quiet (ha : ∀ s k, a ≠ .receive s k) (hr : c.restarts a = none)
      (hview : nd.view = (c.node v).view)
  | installed {k : ℕ} {src : Fin n} {ep : ℕ} {args : InstallSnapshotArgs n κ}
      (ha : a = .deliver k) (hk : c.net[k]? = some (.installSnapshot src v ep args))
      (hlt : (c.rf v).lastIncludedIndex < args.lastIncludedIndex)
      (hview : nd.view =
        { outbox := (c.node v).outbox ++
            [.snapshot args.lastIncludedIndex args.lastIncludedTerm args.data]
          lastApplied := max args.lastIncludedIndex (c.rf v).lastApplied
          lastIncludedIndex := args.lastIncludedIndex
          snapshot := args.data })
  | compacted {index : ℕ} {data : List UInt8} {sn : Snapshot κ} (ha : a = .snapshot v index data)
      (hlt : (c.rf v).lastIncludedIndex < index) (hsn : sn.data = data)
      (hview : nd.view =
        { (c.node v).view with
          lastApplied := max index (c.rf v).lastApplied
          lastIncludedIndex := index
          snapshot := sn })
  | applied {e : LogEntry κ} (ha : a = .apply v)
      (hidle : (c.node v).outbox.any Cluster.isCommand = false)
      (hlt : (c.rf v).lastApplied < (c.rf v).commitIndex)
      (he : (c.rf v).entryAt ((c.rf v).lastApplied + 1) = some e)
      (hview : nd.view =
        { (c.node v).view with
          outbox := (c.node v).outbox ++ [.command ((c.rf v).lastApplied + 1) e.command]
          lastApplied := (c.rf v).lastApplied + 1 })
  | received {k : ℕ} (ha : a = .receive v k)
      (hview : nd.view = { (c.node v).view with outbox := (c.node v).outbox.eraseIdx k })
  | restarted {term : ℕ} (hs : c.restarts a = some v)
      (hview : nd.view =
        { (c.node v).view with
          outbox := bootMsgs (c.rf v).lastIncludedIndex term (c.rf v).persister.snapshot
          lastApplied := (c.rf v).lastIncludedIndex })

/-- What the service sees of a Raft object is left alone. -/
structure Raft.SameView (rf rf' : Raft n κ) : Prop where
  lastApplied : rf'.lastApplied = rf.lastApplied
  lastIncludedIndex : rf'.lastIncludedIndex = rf.lastIncludedIndex
  snapshot : rf'.persister.snapshot = rf.persister.snapshot

theorem Node.view_congr {nd nd' : Node n κ} (hout : nd'.outbox = nd.outbox)
    (h : Raft.SameView nd.rf nd'.rf) : nd'.view = nd.view := by
  rw [Node.view, hout, h.lastApplied, h.lastIncludedIndex, h.snapshot]
  rfl

namespace Raft

variable {rf rf' : Raft n κ}

theorem seeTerm_sameView (rf : Raft n κ) (term : ℕ) : SameView rf (rf.seeTerm term) :=
  ⟨seeTerm_lastApplied _ _, seeTerm_lastIncludedIndex _ _, seeTerm_snapshot _ _⟩

theorem follow_sameView (rf : Raft n κ) (term : ℕ) : SameView rf (rf.follow term) :=
  ⟨follow_lastApplied _ _, follow_lastIncludedIndex _ _, follow_snapshot _ _⟩

theorem requestVote_sameView {args : RequestVoteArgs n} {reply : RequestVoteReply}
    (h : rf.requestVote args = some (rf', reply)) : SameView rf rf' := by
  have hsee := seeTerm_sameView rf args.term
  unfold requestVote at h
  dsimp only at h
  split at h
  · obtain ⟨rfl, -⟩ := Prod.mk.inj (Option.some.inj h)
    exact hsee
  · split at h
    · split at h
      · exact absurd h (by simp)
      · split at h
        · obtain ⟨rfl, -⟩ := Prod.mk.inj (Option.some.inj h)
          exact ⟨hsee.lastApplied, hsee.lastIncludedIndex, hsee.snapshot⟩
        · obtain ⟨rfl, -⟩ := Prod.mk.inj (Option.some.inj h)
          exact hsee
    · obtain ⟨rfl, -⟩ := Prod.mk.inj (Option.some.inj h)
      exact hsee

theorem appendEntries_sameView {args : AppendEntriesArgs n κ} {reply : AppendEntriesReply}
    (h : rf.appendEntries args = some (rf', reply)) : SameView rf rf' := by
  have hfollow := follow_sameView rf args.term
  cases appendEntries_reaction h with
  | stale => exact ⟨rfl, rfl, rfl⟩
  | merged => exact ⟨hfollow.lastApplied, hfollow.lastIncludedIndex, hfollow.snapshot⟩
  | _ => exact hfollow

theorem startElection_sameView {args : RequestVoteArgs n}
    (h : rf.startElection = some (rf', args)) :
    SameView rf rf' ∧ rf'.commitIndex = rf.commitIndex := by
  unfold startElection at h
  dsimp only at h
  split at h
  · exact absurd h (by simp)
  · obtain ⟨rfl, -⟩ := Prod.mk.inj (Option.some.inj h)
    exact ⟨⟨rfl, rfl, rfl⟩, rfl⟩

/-- `Snapshot` does nothing, or compacts the log up to an entry that it holds. -/
theorem snapshot_cases {index : ℕ} {data : List UInt8} (h : rf.snapshot index data = some rf') :
    rf' = rf ∨ (rf.lastIncludedIndex < index ∧ ∃ e, rf.entryAt index = some e ∧
      rf'.lastIncludedIndex = index ∧ rf'.lastIncludedTerm = e.term ∧
      rf'.lastApplied = max index rf.lastApplied ∧ rf'.persister.snapshot.data = data) := by
  unfold snapshot at h
  split at h
  · exact Or.inl (Option.some.inj h).symm
  · next hlt =>
      split at h
      · exact absurd h (by simp)
      · next e he =>
          rw [← Option.some.inj h]
          exact Or.inr ⟨not_le.1 hlt, e, he, rfl, rfl, rfl, rfl⟩

theorem make_lastApplied (me : Fin n) (persister : Persister n κ) :
    (make me persister).lastApplied = (make me persister).lastIncludedIndex := by
  unfold make readPersist
  cases hst : persister.raftstate with
  | none => simp
  | some st =>
      by_cases hpos : 0 < st.lastIncludedIndex
      · simp [hpos]
      · simp [Nat.eq_zero_of_not_pos hpos]

theorem make_persister (me : Fin n) (persister : Persister n κ) :
    (make me persister).persister = persister := by
  unfold make readPersist
  dsimp only
  split <;> split <;> rfl

end Raft

/-- No goroutine's stretch hands anything over or commits anything. -/
theorem runTask_view {nd nd' : Node n κ} {t : Task n} {ps : List (Packet n κ)}
    (h : nd.runTask t = some (nd', ps)) :
    nd'.view = nd.view ∧ nd'.rf.commitIndex = nd.rf.commitIndex := by
  cases runTask_stretch h with
  | startElection hse =>
      obtain ⟨hview, hcommit⟩ := Raft.startElection_sameView hse
      exact ⟨Node.view_congr rfl hview, hcommit⟩
  | @becomeLeader T r =>
      rcases Raft.becomeLeader_cases nd.rf T with heq | ⟨_, _, next, heq⟩
      · simp [heq, Node.spawn, Node.view]
      · simp [heq, Node.spawn, Node.view]
  | checkReplyTerm => simp [Node.view]
  | _ => exact ⟨rfl, rfl⟩

/-- `InstallSnapshot` hands over a snapshot and moves the indices with it, or does neither. -/
theorem installSnapshot_view (nd : Node n κ) (args : InstallSnapshotArgs n κ) :
    (({ nd with
        rf := (nd.rf.installSnapshot args).1
        outbox := nd.outbox ++ (nd.rf.installSnapshot args).2.2 } : Node n κ).view = nd.view) ∨
    (nd.rf.lastIncludedIndex < args.lastIncludedIndex ∧
      ({ nd with
        rf := (nd.rf.installSnapshot args).1
        outbox := nd.outbox ++ (nd.rf.installSnapshot args).2.2 } : Node n κ).view =
        { outbox := nd.outbox ++
            [.snapshot args.lastIncludedIndex args.lastIncludedTerm args.data]
          lastApplied := max args.lastIncludedIndex nd.rf.lastApplied
          lastIncludedIndex := args.lastIncludedIndex
          snapshot := args.data }) := by
  by_cases hstale : nd.rf.currTerm > args.term
  · exact Or.inl (by simp [Raft.installSnapshot, hstale, Node.view])
  · by_cases hblock : args.lastIncludedIndex ≤ nd.rf.lastIncludedIndex
    · exact Or.inl (by simp [Raft.installSnapshot, hstale, hblock, Node.view])
    · refine Or.inr ⟨not_le.1 hblock, ?_⟩
      simp [Raft.installSnapshot, hstale, hblock, Node.view, Persister.saveStateAndSnapshot]

/-- What a restart hands over. -/
theorem boot_view (me : Fin n) (persister : Persister n κ) (epoch : ℕ) :
    (Node.boot me persister epoch).view =
      { outbox := bootMsgs (Raft.make me persister).lastIncludedIndex
          (Raft.make me persister).lastIncludedTerm persister.snapshot
        lastApplied := (Raft.make me persister).lastIncludedIndex
        lastIncludedIndex := (Raft.make me persister).lastIncludedIndex
        snapshot := persister.snapshot } := by
  simp only [Node.view, Node.boot, Raft.make_lastApplied, Raft.bootMsg, Raft.make_persister,
    bootMsgs]

theorem boot_view_of_mirrored {rf : Raft n κ} (h : rf.Mirrored) (epoch : ℕ) :
    (Node.boot rf.me rf.persister epoch).view =
      { outbox := bootMsgs rf.lastIncludedIndex rf.lastIncludedTerm rf.persister.snapshot
        lastApplied := rf.lastIncludedIndex
        lastIncludedIndex := rf.lastIncludedIndex
        snapshot := rf.persister.snapshot } := by
  rw [boot_view, Raft.make_of_mirrored h]

/-- **What a step hands over.** -/
theorem Move.delivery {c : Cluster n κ} {a : Action n κ} {v : Fin n} {nd : Node n κ}
    (hboot : c.restarts a = some v → (c.rf v).Mirrored ∧ (c.rf v).me = v) (hm : Move c a v nd) :
    Delivery c a v nd := by
  cases hm with
  | tick h => exact .quiet (by simp) rfl rfl
  | run ht h => exact .quiet (by simp) rfl (runTask_view h).1
  | requestVote hk h =>
      exact .quiet (by simp) rfl (Node.view_congr rfl (Raft.requestVote_sameView h))
  | @requestVoteReply k src dst ep args reply rf votes won hk h =>
      rcases Raft.requestVoteReply_cases (c.rf v) ((c.node v).votes args.term) args.term reply with
        ⟨_, heq⟩ | ⟨_, _, _, _, heq⟩ | ⟨_, _, heq⟩
      · obtain rfl : c.rf v = rf := (Prod.mk.inj (heq.symm.trans h)).1
        exact .quiet (by simp) rfl rfl
      · obtain rfl : c.rf v = rf := (Prod.mk.inj (heq.symm.trans h)).1
        exact .quiet (by simp) rfl rfl
      · obtain rfl : (c.rf v).seeTerm reply.term = rf := (Prod.mk.inj (heq.symm.trans h)).1
        exact .quiet (by simp) rfl (Node.view_congr rfl (Raft.seeTerm_sameView _ _))
  | appendEntries hk h =>
      exact .quiet (by simp) rfl (Node.view_congr rfl (Raft.appendEntries_sameView h))
  | appendEntriesReply hk hep h =>
      rcases Raft.appendEntriesReply_spec h with
        ⟨_, _, rfl, _⟩ | ⟨_, rfl, _⟩ | ⟨_, _, _, _, _, _, rfl, _⟩
      · exact .quiet (by simp) rfl rfl
      · exact .quiet (by simp) rfl rfl
      · exact .quiet (by simp) rfl rfl
  | @installSnapshot k src dst ep args hk =>
      rcases installSnapshot_view (c.node v) args with heq | ⟨hlt, heq⟩
      · exact .quiet (by simp) rfl heq
      · exact .installed rfl hk hlt heq
  | @installSnapshotReply k src dst ep args reply hk hep =>
      rcases Raft.installSnapshotReply_cases (c.rf v) dst args reply with
        ⟨_, heq⟩ | heq | ⟨_, _, _, next, heq⟩
      · exact .quiet (by simp) rfl (by rw [heq]; rfl)
      · exact .quiet (by simp) rfl (by rw [heq]; rfl)
      · exact .quiet (by simp) rfl (by rw [heq]; rfl)
  | staleReply => exact .quiet (by simp) rfl rfl
  | start =>
      refine .quiet (by simp) rfl ?_
      simp only [Node.spawn, Raft.start]
      split <;> rfl
  | snapshot h =>
      rcases Raft.snapshot_cases h with rfl | ⟨hlt, e, _, hidx, _, hla, hdata⟩
      · exact .quiet (by simp) rfl rfl
      · exact .compacted rfl hlt hdata (by rw [Node.view, hidx, hla]; rfl)
  | apply hidle h =>
      obtain ⟨hlt, rfl, e, he, rfl⟩ := Raft.sendApplyMsg_spec h
      exact .applied rfl hidle hlt he rfl
  | receive => exact .received rfl rfl
  | crash =>
      obtain ⟨hmir, hme⟩ := hboot rfl
      have hview := boot_view_of_mirrored hmir ((c.node v).epoch + 1)
      rw [hme] at hview
      exact .restarted rfl hview
  | @crashMid k dst term hk h =>
      -- the persister has the higher term, and otherwise what the server had
      have hr : c.restarts (.crashMid k) = some v := by simp [Cluster.restarts, hk]
      have hview := boot_view_of_mirrored (Or.inl rfl : ((c.rf v).stepDown term).Mirrored)
        ((c.node v).epoch + 1)
      rw [show ((c.rf v).stepDown term).me = v from (hboot hr).2] at hview
      exact .restarted hr hview

/-- A step restarts the server it moves, or none. -/
theorem Move.restarts {c : Cluster n κ} {a : Action n κ} {v : Fin n} {nd : Node n κ}
    (hm : Move c a v nd) : c.restarts a = none ∨ c.restarts a = some v := by
  cases hm with
  | crash => exact Or.inr rfl
  | crashMid hk h => exact Or.inr (by simp [Cluster.restarts, hk])
  | _ => exact Or.inl rfl

end AiFS
