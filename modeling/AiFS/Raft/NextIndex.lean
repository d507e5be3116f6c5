import AiFS.Raft.Backup
import AiFS.Raft.Safety

set_option autoImplicit false

/-! # The next indices of a leader

A sender slices its log at `nextIndex[peer]`, after a test against `lastIncludedIndex` only: that
the index is not beyond the end of the log is left to the rest of the code. `nextIndex` is written
from an election, from the index or the term that a rejection names, and from `matchIndex`; and none
of this keeps it in the log of a server that has lost its leadership, has been cut back by another
leader, and has a sender left (`slice_out_of_range`).

In a disciplined run it stays in range. While a server leads, its log only grows, and whatever
`nextIndex` is set to points into the log of the term: `NextOK`. -/

namespace AiFS

open TermLog

variable {n : ℕ} {κ : Type} {as : List (Action n κ)} {a : Action n κ} {c c' : Cluster n κ}

namespace Raft

variable {rf rf' : Raft n κ}

/-! ## Replies -/

/-- A server that is still leader has not seen a higher term. -/
theorem seeTerm_eq_of_leader {T : ℕ} (h : (rf.seeTerm T).state = Role.leader) :
    rf.seeTerm T = rf := by
  unfold seeTerm at h ⊢
  split
  · next hlt =>
      rw [if_pos hlt] at h
      exact absurd h (by simp [stepDown, persist])
  · rfl

theorem lastOfTerm_le {t : ℤ} {k next : ℕ} (h : rf.lastOfTerm t k = some next) :
    next ≤ k + rf.lastIncludedIndex := by
  induction k with
  | zero => exact absurd h (by simp [lastOfTerm])
  | succ k ih =>
      rw [lastOfTerm] at h
      split at h
      · have := Option.some.inj h
        omega
      · have := ih h
        omega

/-- A step leaves a server leader, in its term: what `nextIndex` is then at most. `named` are the
    indices that a rejection may name. -/
structure StaysLeader (rf rf' : Raft n κ) (named : ℕ → Prop) : Prop where
  leads : rf.state = Role.leader
  term : rf'.currTerm = rf.currTerm
  next : ∀ q, rf'.nextIndex q ≤ rf.nextIndex q ∨ rf'.nextIndex q ≤ rf'.matchIndex q + 1 ∨
    rf'.nextIndex q ≤ rf.lastLogicalIndex + 1 ∨ named (rf'.nextIndex q)

theorem StaysLeader.of_eq {named : ℕ → Prop} (hlead : rf.state = Role.leader)
    (hterm : rf'.currTerm = rf.currTerm) (hnext : rf'.nextIndex = rf.nextIndex) :
    StaysLeader rf rf' named :=
  ⟨hlead, hterm, fun q => Or.inl (by rw [hnext])⟩

theorem StaysLeader.seeTerm {named : ℕ → Prop} {T : ℕ}
    (h : (rf.seeTerm T).state = Role.leader) : StaysLeader rf (rf.seeTerm T) named := by
  have hsame := seeTerm_eq_of_leader h
  rw [hsame] at h ⊢
  exact .of_eq h rfl rfl

/-- A reply to `AppendEntries` that leaves its server leader moves `nextIndex` for one peer, to
    behind the new `matchIndex`, to the index that the reply names, or into the log. -/
theorem appendEntriesReply_next {peer : Fin n} {args : AppendEntriesArgs n κ}
    {reply : AppendEntriesReply} {lagging : Bool} (hlogs : rf.logs ≠ [])
    (h : rf.appendEntriesReply peer args reply = some (rf', lagging))
    (hlead : rf'.state = Role.leader) :
    StaysLeader rf rf' (fun i => rf.currTerm = args.term ∧ i ≤ reply.conflictIndex) := by
  have hlast := lastLogicalIndex_succ hlogs
  -- `nextIndex` of the peer is set to `next`, or to `1` if that is below
  have hmoved : ∀ next, rf.currTerm = args.term → rf.state = Role.leader →
      (next ≤ rf.lastLogicalIndex + 1 ∨ next ≤ reply.conflictIndex) →
      StaysLeader rf (rf.setNextIndex peer (max next 1))
        (fun i => rf.currTerm = args.term ∧ i ≤ reply.conflictIndex) := by
    intro next hterm hl hnext
    refine ⟨hl, rfl, fun q => ?_⟩
    by_cases hq : q = peer
    · subst hq
      rw [setNextIndex_self]
      omega
    · exact Or.inl (Function.update_of_ne hq _ _).le
  cases appendEntriesReply_digest h with
  | ignored => exact .of_eq hlead rfl rfl
  | deposed => exact absurd hlead (by simp [stepDown, persist])
  | counted _ hl _ _ heq _ =>
      subst heq
      refine ⟨hl, rfl, fun q => ?_⟩
      dsimp only
      by_cases hq : q = peer
      · subst hq
        rw [Function.update_self, Function.update_self]
        exact Or.inr (Or.inl le_rfl)
      · exact Or.inl (Function.update_of_ne hq _ _).le
  | lagging _ hl => exact .of_eq hl rfl rfl
  | found hterm hl hfound =>
      have := lastOfTerm_le hfound
      exact hmoved _ hterm hl (Or.inl (by omega))
  | named hterm hl => exact hmoved _ hterm hl (Or.inr le_rfl)

/-- A reply to `InstallSnapshot` that leaves its server leader moves `nextIndex` at most to behind
    the new `matchIndex`. -/
theorem installSnapshotReply_next (peer : Fin n) (args : InstallSnapshotArgs n κ)
    (reply : InstallSnapshotReply)
    (hlead : (rf.installSnapshotReply peer args reply).state = Role.leader) {named : ℕ → Prop} :
    StaysLeader rf (rf.installSnapshotReply peer args reply) named := by
  unfold installSnapshotReply at hlead ⊢
  split
  · next hhigh =>
      rw [if_pos hhigh] at hlead
      exact absurd hlead (by simp [stepDown, persist])
  · next hlow =>
      rw [if_neg hlow] at hlead
      split
      · next hoff =>
          rw [if_pos hoff] at hlead
          exact .of_eq hlead rfl rfl
      · next hon =>
          rw [not_or, not_not, not_not] at hon
          refine ⟨hon.1, rfl, fun q => ?_⟩
          by_cases hq : q = peer
          · subst hq
            dsimp only
            rw [setNextIndex_self]
            show max (max args.lastIncludedIndex (rf.matchIndex q) + 1) (rf.nextIndex q) ≤ _ ∨
              _ ≤ Function.update rf.matchIndex q _ q + 1 ∨ _
            rw [Function.update_self]
            omega
          · exact Or.inl (Function.update_of_ne hq _ _).le

end Raft

/-! ## Steps -/

/-- A reply to `v` in its term is on its way that names the index `i`, or one above it. -/
def Cluster.Names (c : Cluster n κ) (v : Fin n) (i : ℕ) : Prop :=
  ∃ peer ep args reply, .appendEntriesReply v peer ep args reply ∈ c.net ∧
    (c.rf v).currTerm = args.term ∧ i ≤ reply.conflictIndex

theorem Raft.WF.logs_ne_nil {rf : Raft n κ} (h : rf.WF) : rf.logs ≠ [] := by
  obtain ⟨head, hlogs, _⟩ := h.logs_eq
  rw [hlogs]
  simp

/-- A goroutine's stretch keeps a leader in office, or wins the election. -/
theorem runTask_stays_or_elected {nd nd' : Node n κ} {t : Task n} {ps : List (Packet n κ)}
    (hwf : nd.rf.WF) (h : nd.runTask t = some (nd', ps)) (hlead : nd'.rf.state = Role.leader)
    {named : ℕ → Prop} : nd.rf.StaysLeader nd'.rf named ∨
      (nd.rf.state = Role.candidate ∧ nd'.rf.currTerm = nd.rf.currTerm ∧
        ∀ peer, peer ≠ nd.rf.me → nd'.rf.nextIndex peer = nd'.rf.lastLogicalIndex + 1) := by
  cases runTask_stretch h with
  | startElection hse =>
      obtain ⟨heq, _⟩ := Raft.startElection_spec hwf hse
      rw [heq] at hlead
      exact absurd hlead (by simp [Raft.persist])
  | @becomeLeader T r =>
      change (nd.rf.becomeLeader T).1.state = Role.leader at hlead
      show nd.rf.StaysLeader (nd.rf.becomeLeader T).1 _ ∨
        (_ ∧ (nd.rf.becomeLeader T).1.currTerm = _ ∧
          ∀ peer, peer ≠ nd.rf.me → (nd.rf.becomeLeader T).1.nextIndex peer = _)
      unfold Raft.becomeLeader at hlead ⊢
      split
      · next hoff =>
          rw [if_pos hoff] at hlead
          exact Or.inl (.of_eq hlead rfl rfl)
      · next hon =>
          exact Or.inr ⟨not_not.1 (not_or.1 hon).1, rfl, fun peer hne => if_neg hne⟩
  | checkReplyTerm => exact Or.inl (.seeTerm hlead)
  | _ => exact Or.inl (.of_eq hlead rfl rfl)

/-- **Move lemma.** A server that is leader after a step has been leader before, or has just been
    elected. -/
theorem Move.stays_or_elected {σ : Prop} {p : Hist n κ} {v : Fin n} {nd : Node n κ}
    (hsim : Sim σ c p) (hm : Move c a v nd) (hlead : nd.rf.state = Role.leader) :
    (c.rf v).StaysLeader nd.rf (c.Names v) ∨
      ((c.rf v).state = Role.candidate ∧ nd.rf.currTerm = (c.rf v).currTerm ∧
        ∀ peer, peer ≠ v → nd.rf.nextIndex peer = nd.rf.lastLogicalIndex + 1) := by
  have hrel := (hsim.server v).raft
  cases hm with
  | tick h => exact absurd hlead h
  | run ht h =>
      have hme : (c.node v).rf.me = v := hrel.me
      rcases runTask_stays_or_elected (by exact hrel.wf) h hlead with
        hstays | ⟨hcand, hterm, helected⟩
      · exact Or.inl hstays
      · exact Or.inr ⟨hcand, hterm, fun peer hne => helected peer (by dsimp only; rwa [hme])⟩
  | requestVote hk h =>
      rcases Raft.requestVote_spec hrel.wf h with ⟨rfl, _⟩ | ⟨_, _, _, rfl⟩
      · exact Or.inl (.seeTerm hlead)
      · exact absurd hlead (by simp)
  | @requestVoteReply k src dst ep args reply rf votes won hk h =>
      rcases Raft.requestVoteReply_cases (c.rf v) ((c.node v).votes args.term) args.term reply with
        ⟨_, heq⟩ | ⟨_, _, _, _, heq⟩ | ⟨_, _, heq⟩
      · obtain rfl : c.rf v = rf := (Prod.mk.inj (heq.symm.trans h)).1
        exact Or.inl (.of_eq hlead rfl rfl)
      · obtain rfl : c.rf v = rf := (Prod.mk.inj (heq.symm.trans h)).1
        exact Or.inl (.of_eq hlead rfl rfl)
      · obtain rfl : (c.rf v).seeTerm reply.term = rf := (Prod.mk.inj (heq.symm.trans h)).1
        exact Or.inl (.seeTerm hlead)
  | appendEntries hk h =>
      cases Raft.appendEntries_reaction h with
      | stale => exact Or.inl (.of_eq hlead rfl rfl)
      | merged => exact absurd hlead (by simp [Raft.persist])
      | _ => exact absurd hlead (by simp)
  | @appendEntriesReply k src dst ep args reply rf lagging hk hep h =>
      have hstays := Raft.appendEntriesReply_next hrel.wf.logs_ne_nil h hlead
      refine Or.inl ⟨hstays.leads, hstays.term, fun q => ?_⟩
      refine (hstays.next q).imp_right (Or.imp_right (Or.imp_right ?_))
      rintro ⟨hterm, hle⟩
      exact ⟨dst, ep, args, reply, List.mem_of_getElem? hk, hterm, hle⟩
  | @installSnapshot k src dst ep args hk =>
      change ((c.rf v).installSnapshot args).1.state = Role.leader at hlead
      refine Or.inl ?_
      show (c.rf v).StaysLeader ((c.rf v).installSnapshot args).1 _
      unfold Raft.installSnapshot at hlead ⊢
      split
      · next hstale =>
          rw [if_pos hstale] at hlead
          exact .of_eq hlead rfl rfl
      · next hnew =>
          rw [if_neg hnew] at hlead
          dsimp only at hlead
          split at hlead
          · exact absurd hlead (by simp)
          · exact absurd hlead (by simp)
  | installSnapshotReply hk hep =>
      exact Or.inl (Raft.installSnapshotReply_next _ _ _ hlead)
  | staleReply => exact Or.inl (.of_eq hlead rfl rfl)
  | @start s command =>
      have hstart : ((c.rf v).start command).1.state = (c.rf v).state ∧
          ((c.rf v).start command).1.currTerm = (c.rf v).currTerm ∧
          ((c.rf v).start command).1.nextIndex = (c.rf v).nextIndex := by
        unfold Raft.start
        split <;> exact ⟨rfl, rfl, rfl⟩
      exact Or.inl (.of_eq (hstart.1 ▸ hlead) hstart.2.1 hstart.2.2)
  | snapshot h =>
      rcases Raft.snapshot_spec hrel.wf h with rfl | ⟨_, _, _, _, _, _, _, _, _, rfl⟩
      · exact Or.inl (.of_eq hlead rfl rfl)
      · exact Or.inl (.of_eq hlead rfl rfl)
  | apply hidle h =>
      obtain ⟨_, rfl, _⟩ := Raft.sendApplyMsg_spec h
      exact Or.inl (.of_eq hlead rfl rfl)
  | receive => exact Or.inl (.of_eq hlead rfl rfl)
  | crash => exact absurd ((Raft.make_state _ _).symm.trans hlead) (by simp)
  | crashMid hk h => exact absurd ((Raft.make_state _ _).symm.trans hlead) (by simp)

/-! ## The invariant -/

/-- The index that a rejection names points into the log of the term it answers, or behind it. -/
def ConflictOK (p : Hist n κ) : Packet n κ → Prop
  | .appendEntriesReply _ _ _ args reply => (p.leader args.term).isSome ∧
      reply.conflictIndex ≤ (p.leaderLog args.term).length + 1
  | _ => True

theorem ConflictOK.mono {p p' : Hist n κ} (g : Grows p p') {pkt : Packet n κ}
    (h : ConflictOK p pkt) : ConflictOK p' pkt := by
  cases pkt with
  | appendEntriesReply src dst ep args reply =>
      obtain ⟨hl, hle⟩ := h
      have := (g.leaderLog args.term hl).length_le
      exact ⟨g.leader_isSome hl, by omega⟩
  | _ => trivial

/-- `nextIndex` of a leader is not beyond the end of its log; senders are for other servers. -/
structure NextOK (c : Cluster n κ) (p : Hist n κ) : Prop where
  next : ∀ s, (c.rf s).state = Role.leader → ∀ peer, peer ≠ s →
    (c.rf s).nextIndex peer ≤ (c.rf s).lastLogicalIndex + 1
  senders : ∀ s peer, .makeAppendEntry peer ∈ (c.node s).tasks → peer ≠ s
  packets : ∀ pkt ∈ c.net, ConflictOK p pkt

/-- What a follower answers to a request names an index of the sender's log: where its own log ends,
    or what it has committed, or where it was asked. -/
theorem conflictOK_answer {p : Hist n κ} (hsim : Sim True c p) {req pkt : Packet n κ}
    (hreq : req ∈ c.net) (h : Answer c req pkt) : ConflictOK p pkt := by
  cases h with
  | requestVote => trivial
  | installSnapshot => trivial
  | @appendEntries src dst ep args rf reply h =>
      obtain ⟨M, hM, hprev, _⟩ := hsim.packets _ hreq
      obtain ⟨hl, hpre⟩ := hM.ofLeader trivial
      have hlen := hpre.length_le
      have hserver := hsim.server dst
      refine ⟨hl, ?_⟩
      cases Raft.appendEntries_reaction h with
      | stale => exact Nat.zero_le _
      | merged => exact Nat.zero_le _
      | short _ hshort =>
          dsimp only
          omega
      | @conflict e _ he hne =>
          have := Raft.conflictSearch_le ((c.rf dst).follow args.term) e.term args.prevLogIndex 0
          dsimp only
          omega
      | compacted hterm _ =>
          -- the snapshot of the follower is committed, so the leader of the term has it
          have hsafe := hserver.safe trivial
          obtain ⟨P, _, hPlen, hP⟩ := hsafe.committed
          have hin := ((hP.mono (Grows.refl p) hterm).prefix_leaderLog hsim.inv (hsim.kept trivial)
            hl).length_le
          have hinc := hsafe.included_le
          have happ := hsafe.applied_le
          dsimp only
          omega

/-- A leader's `matchIndex` and `commitIndex` point into its log. -/
theorem Sim.matchIndex_le {p : Hist n κ} (hsim : Sim True c p) {s peer : Fin n}
    (hlead : (c.rf s).state = Role.leader) (hne : peer ≠ s) :
    (c.rf s).matchIndex peer ≤ (c.rf s).lastLogicalIndex := by
  have hserver := hsim.server s
  obtain ⟨hl, hlog⟩ := hserver.raft.lead hlead
  obtain ⟨P, hP, hPlen, _⟩ := (hserver.safe trivial).committed
  have hcommit := hP.length_le
  rw [hserver.raft.wf.lastLogicalIndex_eq]
  rcases (hserver.safe trivial).matched hlead peer hne with hack | hle
  · rcases Nat.eq_zero_or_pos (p.acked peer (c.rf s).currTerm) with hzero | hpos
    · omega
    · obtain ⟨_, _, hlen⟩ := (hsim.kept trivial).acks _ _ hpos
      rw [hlog] at hlen
      omega
  · omega

/-- The log of a leader only grows. -/
theorem lastLogicalIndex_le {p p' : Hist n κ} (hsim : Sim True c p) (hsim' : Sim True c' p')
    (g : Grows p p') {s : Fin n} (hlead : (c.rf s).state = Role.leader)
    (hlead' : (c'.rf s).state = Role.leader) (hterm : (c'.rf s).currTerm = (c.rf s).currTerm) :
    (c.rf s).lastLogicalIndex ≤ (c'.rf s).lastLogicalIndex := by
  obtain ⟨hl, hlog⟩ := (hsim.server s).raft.lead hlead
  obtain ⟨_, hlog'⟩ := (hsim'.server s).raft.lead hlead'
  rw [(hsim.server s).raft.wf.lastLogicalIndex_eq, (hsim'.server s).raft.wf.lastLogicalIndex_eq,
    ← hlog, ← hlog', hterm]
  exact (g.leaderLog _ (by rw [hl]; rfl)).length_le

/-- What a goroutine sends is no reply. -/
theorem conflictOK_sends {p : Hist n κ} {pkt : Packet n κ} (h : pkt ∈ c.sends a) :
    ConflictOK p pkt := by
  obtain ⟨s, k, t, nd, ps, _, _, hstretch, hmem⟩ := sends_stretch h
  cases hstretch with
  | startElection =>
      obtain ⟨peer, _, rfl⟩ := List.mem_map.1 hmem
      trivial
  | appendEntries =>
      obtain rfl := List.mem_singleton.1 hmem
      trivial
  | installSnapshot =>
      obtain rfl := List.mem_singleton.1 hmem
      trivial
  | _ => exact absurd hmem (by simp)

/-- A goroutine's stretch starts senders for other servers only. -/
theorem Stretch.senders {nd nd' : Node n κ} {t : Task n} {ps : List (Packet n κ)} {peer : Fin n}
    (h : Stretch nd t nd' ps) (hmem : .makeAppendEntry peer ∈ nd'.tasks) :
    .makeAppendEntry peer ∈ nd.tasks ∨ peer ≠ nd.rf.me := by
  cases h with
  | becomeLeader =>
      refine Or.inl ((List.mem_append.1 hmem).resolve_right ?_)
      split <;> simp
  | fannedOut hlead hmore =>
      rcases List.mem_append.1 hmem with hold | hnew
      · exact Or.inl hold
      · rcases List.mem_append.1 hnew with hsender | hother
        · obtain ⟨q, hq, heq⟩ := List.mem_map.1 hsender
          rw [← Task.makeAppendEntry.inj heq]
          exact Or.inr (mem_peers.1 hq)
        · exact absurd (hmore _ hother) (by simp)
  | lagging => exact Or.inl ((List.mem_append.1 hmem).resolve_right (by simp))
  | _ => exact Or.inl hmem

theorem Move.senders {v peer : Fin n} {nd : Node n κ} (hme : (c.rf v).me = v) (hm : Move c a v nd)
    (hmem : .makeAppendEntry peer ∈ nd.tasks) :
    .makeAppendEntry peer ∈ (c.node v).tasks ∨ peer ≠ v := by
  cases hm with
  | tick => exact Or.inl ((List.mem_append.1 hmem).resolve_right (by simp))
  | run ht h =>
      rcases (runTask_stretch h).senders hmem with hold | hne
      · exact Or.inl (List.eraseIdx_subset hold)
      · have hself : (c.node v).rf.me = v := hme
        exact Or.inr (by dsimp only at hne; rwa [hself] at hne)
  | requestVoteReply =>
      refine Or.inl ((List.mem_append.1 hmem).resolve_right ?_)
      split <;> simp
  | appendEntriesReply =>
      refine Or.inl ((List.mem_append.1 hmem).resolve_right ?_)
      split <;> simp
  | start =>
      refine Or.inl ((List.mem_append.1 hmem).resolve_right ?_)
      split <;> simp
  | crash => exact absurd hmem (by simp [Node.boot])
  | crashMid => exact absurd hmem (by simp [Node.boot])
  | _ => exact Or.inl hmem

/-- **Step lemma.** -/
theorem nextOK_step {p p' : Hist n κ} (hsim : Sim True c p) (hsim' : Sim True c' p')
    (g : Grows p p') (h : NextOK c p) (hstep : c.step a = some c') : NextOK c' p' where
  next s hlead' peer hne := by
    rcases step_node hstep s with hsame | hm
    · rw [Cluster.rf, hsame] at hlead' ⊢
      exact h.next s hlead' peer hne
    rcases hm.stays_or_elected hsim hlead' with hstays | ⟨_, _, helected⟩
    · change (c.rf s).StaysLeader (c'.rf s) _ at hstays
      have hgrow := lastLogicalIndex_le hsim hsim' g hstays.leads hlead' hstays.term
      rcases hstays.next peer with hle | hle | hle | ⟨q, ep, args, reply, hpkt, hterm, hle⟩
      · have := h.next s hstays.leads peer hne
        omega
      · have := hsim'.matchIndex_le hlead' hne
        omega
      · omega
      · -- the reply is of the leader's own term
        obtain ⟨_, hconf⟩ := h.packets _ hpkt
        rw [← hterm, ((hsim.server s).raft.lead hstays.leads).2,
          ← (hsim.server s).raft.wf.lastLogicalIndex_eq] at hconf
        omega
    · exact (helected peer hne).le
  senders s peer hmem := by
    rcases step_node hstep s with hsame | hm
    · exact h.senders s peer (hsame ▸ hmem)
    rcases hm.senders (hsim.server s).raft.me hmem with hold | hne
    · exact h.senders s peer hold
    · exact hne
  packets pkt hpkt := by
    rcases step_net hstep hpkt with hold | hsent | ⟨k, req, _, hk, hans⟩
    · exact (h.packets pkt hold).mono g
    · exact conflictOK_sends hsent
    · exact (conflictOK_answer hsim (List.mem_of_getElem? hk) hans).mono g

theorem nextOK_init : NextOK (Cluster.init n κ) (Proto.init (Fin n) (LogEntry κ)) where
  next s hlead := by
    change (Raft.make s Persister.makePersister).state = Role.leader at hlead
    exact absurd ((Raft.make_state _ _).symm.trans hlead) (by simp)
  senders s peer hmem := absurd hmem (by simp [Cluster.init, Node.boot])
  packets pkt hpkt := absurd hpkt (by simp [Cluster.init])

theorem nextOK_exec (hd : Machine.Along Cluster.step Disciplined (Cluster.init n κ) as)
    (h : Cluster.exec as = some c) : ∃ p, Sim True c p ∧ NextOK c p := by
  refine Machine.invariant_exec (I := fun c => ∃ p, Sim True c p ∧ NextOK c p) ?_ as _ _
    ⟨_, sim_init True, nextOK_init⟩ hd h
  rintro c a c' ⟨p, hsim, hnext⟩ hd hstep
  obtain ⟨p', hfollows, hsim'⟩ := sim_step hsim (fun _ => hd) hstep
  exact ⟨p', hsim', nextOK_step hsim hsim' (hfollows.grows hsim.inv) hnext hstep⟩

/-! ## Slices -/

/-- **Index range.** In a disciplined run, a sender that has passed its snapshot test slices its log
    within range, and builds its request without a panic. -/
theorem slice_in_range {s peer : Fin n} {k : ℕ}
    (hd : Machine.Along Cluster.step Disciplined (Cluster.init n κ) (as ++ [.run s k]))
    (h : Cluster.exec as = some c)
    (ht : (c.node s).tasks[k]? = some (.makeAppendEntry peer))
    (hsnap : ¬ (c.rf s).nextIndex peer ≤ (c.rf s).lastIncludedIndex) :
    (c.rf s).lastIncludedIndex < (c.rf s).nextIndex peer ∧
      (c.rf s).nextIndex peer ≤ (c.rf s).lastLogicalIndex + 1 ∧
      ((c.rf s).appendEntriesArgs peer).isSome = true := by
  obtain ⟨p, hsim, hnext⟩ := nextOK_exec (Machine.along_left hd) h
  have hlead : (c.rf s).state = Role.leader :=
    (Machine.along_last hd h).leaderSends (s, .makeAppendEntry peer) (running_run ht) rfl
  have hne := hnext.senders s peer (List.mem_of_getElem? ht)
  have hle := hnext.next s hlead peer hne
  obtain ⟨args, hargs, _⟩ :=
    Raft.exists_built (hsim.server s).raft.wf.logs_ne_nil (not_le.1 hsnap) hle
  exact ⟨not_le.1 hsnap, hle, by rw [hargs]; rfl⟩

/-- The leader of `electRun` has taken a command and starts its senders. -/
def sliceRun : List (Action 3 ℕ) :=
  electRun ++ ([.start 0 (some 7), .run 0 2] : List (Action 3 ℕ))

theorem slice_in_range_sliceRun : ∃ c, Cluster.exec sliceRun = some c ∧
    (c.node 0).tasks[2]? = some (.makeAppendEntry 1) ∧
    (c.rf 0).nextIndex 1 ≤ (c.rf 0).lastLogicalIndex + 1 := by
  have hrun : (Cluster.exec sliceRun).map (fun c => ((c.node 0).tasks[2]?,
      (c.rf 0).nextIndex 1, (c.rf 0).lastIncludedIndex)) =
      some (some (.makeAppendEntry 1), 1, 0) := by decide
  obtain ⟨c, hc, hval⟩ := Option.map_eq_some_iff.1 hrun
  obtain ⟨htask, hidx⟩ := Prod.mk.inj hval
  obtain ⟨hnext, hinc⟩ := Prod.mk.inj hidx
  exact ⟨c, hc, htask, (slice_in_range (by decide) hc htask (by omega)).2.1⟩

/-- Server `0` has two entries that nobody else has, is deposed and elected once more in term `3`,
    and starts its senders. Server `1` wins term `4` with server `2`, and its first entry replaces
    those of server `0`. -/
def cutBackRun : List (Action 3 ℕ) :=
  electRun ++ ([.start 0 (some 7), .start 0 (some 8), .tick 1, .run 1 0, .deliver 1,
    .tick 0, .run 0 4, .deliver 4, .deliver 4, .run 0 4, .run 0 0,
    .tick 1, .run 1 0, .tick 1, .run 1 0, .deliver 7, .deliver 7, .run 1 0,
    .start 1 (some 9), .run 1 2, .run 1 2, .deliver 7] : List (Action 3 ℕ))

/-- The sender that waited meanwhile passes its snapshot test and slices beyond the log. -/
theorem slice_out_of_range :
    (Cluster.exec cutBackRun).map (fun c => ((c.node 0).tasks[5]?,
      (c.rf 0).lastIncludedIndex, (c.rf 0).nextIndex 1, (c.rf 0).lastLogicalIndex,
      ((c.rf 0).appendEntriesArgs 1).isSome)) =
      some (some (.makeAppendEntry 1), 0, 3, 1, false) := by
  decide

end AiFS
