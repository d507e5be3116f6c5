import AiFS.Raft.AllRuns
import AiFS.Raft.Moves

set_option autoImplicit false

/-! # Who speaks for a term

`broadcastHeartbeat` and `replicationLog` look at `state` before they start the goroutines that
send, and those do not look again. So a request may go out when its server is no longer leader: it
is built under the lock, but with the `currTerm` the server has by then. `deposedRun` is such a run.

What the checks do give is proved here: as long as no server is deposed while one of its senders
waits for the lock, every `AppendEntries` and `InstallSnapshot` request is built by the leader of
the term it carries. A request counts as sent when it is built. -/

namespace AiFS

variable {n : ℕ} {κ : Type} {as : List (Action n κ)} {a : Action n κ} {c c' : Cluster n κ}

/-! ## Requests of a leader -/

/-- Who speaks in a packet as leader of which term. -/
def Packet.speaker : Packet n κ → Option (Fin n × ℕ)
  | .appendEntries src _ _ args => some (src, args.term)
  | .installSnapshot src _ _ args => some (src, args.term)
  | _ => none

/-- The packet is not a leader's request, or comes from the leader of the term it carries. -/
def FromLeader (c : Cluster n κ) (pkt : Packet n κ) : Prop :=
  ∀ x ∈ pkt.speaker, (c.rf x.1).state = Role.leader ∧ (c.rf x.1).currTerm = x.2

/-- A sender of server `s` waits for the lock. -/
def Sending (nd : Node n κ) : Prop :=
  ∃ t ∈ nd.tasks, t.isSender = true

instance (nd : Node n κ) : Decidable (Sending nd) :=
  inferInstanceAs (Decidable (∃ t ∈ nd.tasks, _))

/-- The step ends a leadership of `s`: a request or a reply brings a higher term (for
    `AppendEntries` and `InstallSnapshot` the same term is enough), or an election started before
    the last one was won goes on. -/
def Cluster.deposes (c : Cluster n κ) (s : Fin n) : Action n κ → Bool
  | .deliver k =>
      match c.net[k]? with
      | some (.requestVote _ dst _ args) => dst = s ∧ (c.rf s).currTerm < args.term
      | some (.appendEntries _ dst _ args) => dst = s ∧ (c.rf s).currTerm ≤ args.term
      | some (.installSnapshot _ dst _ args) => dst = s ∧ (c.rf s).currTerm ≤ args.term
      | some (.appendEntriesReply src _ _ args reply) =>
          src = s ∧ (c.rf s).currTerm = args.term ∧ (c.rf s).currTerm < reply.term
      | some (.installSnapshotReply src _ _ _ reply) => src = s ∧ (c.rf s).currTerm < reply.term
      | _ => false
  | .run r k =>
      match (c.node r).tasks[k]? with
      | some .startElection => r = s
      | some (.checkReplyTerm replyTerm) => r = s ∧ (c.rf s).currTerm < replyTerm
      | _ => false
  | _ => false

/-- No leader is deposed while one of its senders waits for the lock. -/
def Undisturbed (c : Cluster n κ) (a : Action n κ) : Prop :=
  ∀ s, (c.rf s).state = Role.leader → Sending (c.node s) → c.deposes s a = false

instance (c : Cluster n κ) (a : Action n κ) : Decidable (Undisturbed c a) :=
  inferInstanceAs (Decidable (∀ _, _ → _ → _ = false))

/-! ## Senders belong to leaders -/

/-- Senders wait only at leaders. -/
def SendersLead (c : Cluster n κ) : Prop :=
  ∀ s, Sending (c.node s) → (c.rf s).state = Role.leader

theorem sending_spawn {nd : Node n κ} {ts : List (Task n)} (h : Sending (nd.spawn ts)) :
    Sending nd ∨ ∃ t ∈ ts, t.isSender = true := by
  obtain ⟨t, ht, hs⟩ := h
  rcases List.mem_append.1 ht with ht | ht
  · exact Or.inl ⟨t, ht, hs⟩
  · exact Or.inr ⟨t, ht, hs⟩

/-- Starting goroutines that do not send makes no node a sending one. -/
theorem Sending.of_spawn {nd : Node n κ} {ts : List (Task n)} (h : Sending (nd.spawn ts))
    (hts : ∀ t ∈ ts, t.isSender = false) : Sending nd := by
  rcases sending_spawn h with hold | ⟨t, ht, hs⟩
  · exact hold
  · exact absurd (hs.symm.trans (hts t ht)) (by simp)

theorem Sending.of_eraseIdx {nd : Node n κ} {k : ℕ}
    (h : Sending ({ nd with tasks := nd.tasks.eraseIdx k } : Node n κ)) : Sending nd := by
  obtain ⟨t, ht, hs⟩ := h
  exact ⟨t, List.eraseIdx_subset ht, hs⟩

/-- A goroutine's stretch leaves senders only at a leader. -/
theorem sendersLead_run {s : Fin n} {k : ℕ} {t : Task n} {nd : Node n κ} {ps : List (Packet n κ)}
    (hlead : Sending (c.node s) → (c.rf s).state = Role.leader) (hu : Undisturbed c (.run s k))
    (ht : (c.node s).tasks[k]? = some t)
    (h : ({ c.node s with tasks := (c.node s).tasks.eraseIdx k } : Node n κ).runTask t =
      some (nd, ps)) (hsend : Sending nd) : nd.rf.state = Role.leader := by
  -- a sender that was there before means that the server is leader and stays it
  have hstay : Sending (c.node s) → (c.rf s).state = Role.leader ∧ c.deposes s (.run s k) = false :=
    fun hs => ⟨hlead hs, hu s (hlead hs) hs⟩
  have hself : t.isSender = true → (c.rf s).state = Role.leader := fun hs =>
    hlead ⟨t, List.mem_of_getElem? ht, hs⟩
  cases runTask_stretch h with
  | startElection hse =>
      obtain ⟨_, hno⟩ := hstay (Sending.of_eraseIdx hsend)
      simp [Cluster.deposes, ht] at hno
  | @becomeLeader T r =>
      have hold := hsend.of_spawn (by split <;> simp [Task.isSender])
      obtain ⟨hl, _⟩ := hstay (Sending.of_eraseIdx hold)
      change ((c.rf s).becomeLeader T).1.state = Role.leader
      simp [Raft.becomeLeader, hl]
  | @checkReplyTerm r =>
      obtain ⟨hl, hno⟩ := hstay (Sending.of_eraseIdx hsend)
      have hle : r ≤ (c.rf s).currTerm := by simpa [Cluster.deposes, ht] using hno
      change ((c.rf s).seeTerm r).state = Role.leader
      rw [Raft.seeTerm_of_le hle]
      exact hl
  | retired => exact (hstay (Sending.of_eraseIdx hsend)).1
  | fannedOut hl => exact hl
  | lagging => exact hself rfl
  | appendEntries => exact hself rfl
  | installSnapshot => exact hself rfl

/-- A leader has given its vote in its term to itself. -/
theorem Sim.leader_votedFor {σ : Prop} {p : Hist n κ} (h : Sim σ c p) {s : Fin n}
    (hlead : (c.rf s).state = Role.leader) : (c.rf s).votedFor = some s := by
  have hrel := (h.server s).raft
  have hok := h.inv.leaders _ s (hrel.lead hlead).1
  rw [← hrel.voted]
  exact (h.inv.cands s _ _ hok.cand).2.2.2

/-- A leader that is asked for its vote in its own term (or an old one) stays leader. -/
theorem leader_requestVote {σ : Prop} {p : Hist n κ} {k ep : ℕ} {src dst : Fin n}
    {args : RequestVoteArgs n} {rf : Raft n κ} {reply : RequestVoteReply} (h : Sim σ c p)
    (hk : c.net[k]? = some (.requestVote src dst ep args))
    (hrv : (c.rf dst).requestVote args = some (rf, reply))
    (hlead : (c.rf dst).state = Role.leader) (hle : args.term ≤ (c.rf dst).currTerm) :
    rf.state = Role.leader := by
  obtain ⟨hid, hne, _⟩ := h.packets _ (List.mem_of_getElem? hk)
  rcases Raft.requestVote_spec (h.server dst).raft.wf hrv with ⟨rfl, _⟩ | ⟨_, hfree, _, _⟩
  · rw [Raft.seeTerm_of_le hle]
    exact hlead
  · rw [Raft.seeTerm_of_le hle, h.leader_votedFor hlead, hid] at hfree
    rcases hfree with hnone | hself
    · exact absurd hnone (by simp)
    · exact absurd (Option.some.inj hself) hne

/-- **Move lemma.** In an undisturbed step, a node with a waiting sender is left a leader. -/
theorem Move.leader_of_sending {p : Hist n κ} {v : Fin n} {nd : Node n κ} (hsim : Sim False c p)
    (hlead : Sending (c.node v) → (c.rf v).state = Role.leader) (hu : Undisturbed c a)
    (hm : Move c a v nd) (hsend : Sending nd) : nd.rf.state = Role.leader := by
  have hwf := (hsim.server v).raft.wf
  have hstay : Sending (c.node v) → (c.rf v).state = Role.leader ∧ c.deposes v a = false :=
    fun hs => ⟨hlead hs, hu v (hlead hs) hs⟩
  cases hm with
  | tick h => exact hlead (hsend.of_spawn (by simp [Task.isSender]))
  | run ht h => exact sendersLead_run hlead hu ht h hsend
  | requestVote hk h =>
      obtain ⟨hl, hno⟩ := hstay hsend
      exact leader_requestVote hsim hk h hl (by simpa [Cluster.deposes, hk] using hno)
  | @requestVoteReply k src dst ep args reply rf votes won hk h =>
      have hl := hlead (hsend.of_spawn (by split <;> simp [Task.isSender]))
      -- votes are not counted any more
      rcases Raft.requestVoteReply_cases (c.rf v) ((c.node v).votes args.term) args.term reply with
        ⟨_, heq⟩ | ⟨hcand, _⟩ | ⟨hcand, _⟩
      · obtain rfl : c.rf v = rf := (Prod.mk.inj (heq.symm.trans h)).1
        exact hl
      · exact absurd (hl.symm.trans hcand) (by simp)
      · exact absurd (hl.symm.trans hcand) (by simp)
  | appendEntries hk h =>
      obtain ⟨hl, hno⟩ := hstay hsend
      have hlt := by simpa [Cluster.deposes, hk] using hno
      rcases Raft.appendEntries_cases hwf h with ⟨_, rfl, _⟩ | ⟨hle, _⟩ | ⟨hle, _⟩
      · exact hl
      · exact absurd hle (not_le.2 hlt)
      · exact absurd hle (not_le.2 hlt)
  | appendEntriesReply hk hep h =>
      rcases sending_spawn hsend with hold | ⟨t, hmem, _⟩
      · obtain ⟨hl, hno⟩ := hstay hold
        rcases Raft.appendEntriesReply_spec h with
          ⟨hterm, hlt, _⟩ | ⟨_, rfl, _⟩ | ⟨_, _, _, _, _, _, rfl, _⟩
        · exact absurd hlt (by simpa [Cluster.deposes, hk, hterm] using hno)
        · exact hl
        · exact hl
      · -- a new sender, started by a leader
        split at hmem
        · next hlag =>
            rcases Raft.appendEntriesReply_spec h with
              ⟨_, _, _, hno⟩ | ⟨_, rfl, hl⟩ | ⟨_, _, _, hno, _⟩
            · exact absurd (hlag.symm.trans hno) (by simp)
            · exact hl hlag
            · exact absurd (hlag.symm.trans hno) (by simp)
        · exact absurd hmem (by simp)
  | @installSnapshot k src dst ep args hk =>
      obtain ⟨hl, hno⟩ := hstay hsend
      have hlt : args.term < (c.rf v).currTerm := by simpa [Cluster.deposes, hk] using hno
      simpa [Raft.installSnapshot, hlt] using hl
  | @installSnapshotReply k src dst ep args reply hk hep =>
      obtain ⟨hl, hno⟩ := hstay hsend
      change ((c.rf v).installSnapshotReply dst args reply).state = Role.leader
      rcases Raft.installSnapshotReply_cases (c.rf v) dst args reply with
        ⟨hlt, _⟩ | heq | ⟨_, _, _, next, heq⟩
      · exact absurd hlt (by simpa [Cluster.deposes, hk] using hno)
      · rw [heq]
        exact hl
      · rw [heq]
        exact hl
  | staleReply => exact hlead hsend
  | @start s command =>
      have hl := hlead (hsend.of_spawn (by split <;> simp [Task.isSender]))
      simp [Node.spawn, Raft.start, hl, Raft.persist]
  | snapshot h =>
      rcases Raft.snapshot_spec hwf h with rfl | ⟨_, _, _, _, _, _, _, _, _, rfl⟩
      · exact hlead hsend
      · exact hlead hsend
  | apply hidle h =>
      obtain ⟨_, rfl, _⟩ := Raft.sendApplyMsg_spec h
      exact hlead hsend
  | receive => exact hlead hsend
  | crash =>
      obtain ⟨t, hmem, _⟩ := hsend
      exact absurd hmem (by simp [Node.boot])
  | crashMid hk h =>
      obtain ⟨t, hmem, _⟩ := hsend
      exact absurd hmem (by simp [Node.boot])

theorem sendersLead_step {p : Hist n κ} (hsim : Sim False c p) (h : SendersLead c)
    (hu : Undisturbed c a) (hstep : c.step a = some c') : SendersLead c' := by
  intro s hs
  rcases step_node hstep s with hsame | hm
  · rw [hsame] at hs
    rw [Cluster.rf, hsame]
    exact h s hs
  · exact hm.leader_of_sending hsim (h s) hu hs

theorem sendersLead_exec (hu : Machine.Along Cluster.step Undisturbed (Cluster.init n κ) as)
    (h : Cluster.exec as = some c) : SendersLead c ∧ ∃ p, Sim False c p := by
  refine Machine.invariant_exec (I := fun c => SendersLead c ∧ ∃ p, Sim False c p) ?_ as _ _
    ⟨?_, _, sim_init False⟩ hu h
  · rintro c a c' ⟨hlead, p, hsim⟩ hu hstep
    obtain ⟨p', _, hsim'⟩ := sim_step hsim False.elim hstep
    exact ⟨sendersLead_step hsim hlead hu hstep, p', hsim'⟩
  · rintro s ⟨t, ht, _⟩
    exact absurd ht (by simp [Cluster.init, Node.boot])

/-! ## Only leaders speak -/

/-- The requests of a leader that a goroutine sends are a sender's, and carry its server's name and
    term. -/
theorem Stretch.speaker {nd nd' : Node n κ} {t : Task n} {ps : List (Packet n κ)}
    {pkt : Packet n κ} {x : Fin n × ℕ} (hwf : nd.rf.WF) (h : Stretch nd t nd' ps)
    (hpkt : pkt ∈ ps) (hx : x ∈ pkt.speaker) :
    t.isSender = true ∧ x = (nd.rf.me, nd.rf.currTerm) := by
  cases h with
  | startElection hse =>
      obtain ⟨peer, _, rfl⟩ := List.mem_map.1 hpkt
      exact absurd hx (by simp [Packet.speaker])
  | appendEntries hnext hargs =>
      obtain rfl := List.mem_singleton.1 hpkt
      obtain rfl := Option.some.inj hx
      obtain ⟨hterm, _⟩ := Raft.appendEntriesArgs_spec hwf hnext hargs
      exact ⟨rfl, by rw [hterm]⟩
  | installSnapshot =>
      obtain rfl := List.mem_singleton.1 hpkt
      obtain rfl := Option.some.inj hx
      exact ⟨rfl, rfl⟩
  | _ => exact absurd hpkt (by simp)

/-- **Only the leader of a term speaks for it.** In an undisturbed run, every `AppendEntries` and
    `InstallSnapshot` request is sent by a leader, with its term. -/
theorem only_leader_speaks (hu : Machine.Along Cluster.step Undisturbed (Cluster.init n κ) as)
    (h : Cluster.exec as = some c) (a : Action n κ) : ∀ pkt ∈ c.sends a, FromLeader c pkt := by
  obtain ⟨hlead, p, hsim⟩ := sendersLead_exec hu h
  intro pkt hpkt x hx
  obtain ⟨s, k, t, nd, ps, _, ht, hstretch, hmem⟩ := sends_stretch hpkt
  have hrel := (hsim.server s).raft
  have hme : (c.node s).rf.me = s := hrel.me
  obtain ⟨hsender, hspeaker⟩ := hstretch.speaker (by exact hrel.wf) hmem hx
  rw [hspeaker]
  dsimp only
  rw [hme]
  exact ⟨hlead s ⟨t, List.mem_of_getElem? ht, hsender⟩, rfl⟩

/-- The leader of `electRun` starts a sender for each of its peers. -/
def heartbeatRun : List (Action 3 ℕ) :=
  electRun ++ [.run 0 0]

theorem only_leader_speaks_heartbeatRun : ∃ c, Cluster.exec heartbeatRun = some c ∧
    (c.sends (.run 0 1)).map Packet.speaker = [some (0, 1)] ∧
    ∀ pkt ∈ c.sends (.run 0 1), FromLeader c pkt := by
  have hrun : (Cluster.exec heartbeatRun).map
      (fun c => (c.sends (.run 0 1)).map Packet.speaker) = some [some (0, 1)] := by decide
  obtain ⟨c, hc, hval⟩ := Option.map_eq_some_iff.1 hrun
  exact ⟨c, hc, hval, only_leader_speaks (by decide) hc _⟩

/-- After `heartbeatRun`, server `2` stands for election in term `2`, and its request for the vote
    of server `0` deposes it. -/
def deposedRun : List (Action 3 ℕ) :=
  heartbeatRun ++ [.deliver 0, .tick 2, .run 2 0, .deliver 1]

/-- The sender that waited meanwhile speaks for term `2`, as a follower. -/
theorem follower_speaks :
    (Cluster.exec deposedRun).map (fun c => ((c.rf 0).state, (c.rf 0).currTerm,
      (c.sends (.run 0 1)).map Packet.speaker)) =
      some (Role.follower, 2, [some (0, 2)]) := by
  decide

end AiFS
