import AiFS.Raft.Abstraction
import AiFS.Raft.Moves

set_option autoImplicit false

/-! # The cluster follows the protocol

`Sim` relates a state of the cluster to a state of the abstract protocol: every server as in
`Abstraction.lean`, every packet on the network carries what `PacketRel` says, and the votes a
candidate has counted are votes in the history, of servers whose ballot is no longer under way.
The step theorem `sim_step` says that every step of the cluster is a step of the protocol (or none)
that keeps the relation.

`Disciplined` is the condition on a step under which the relation includes what `commitIndex` stands
for. It has three parts: a sender goroutine gets the lock only while its server is leader, a
candidate wins only if its `matchIndex` claims nothing above its `commitIndex`, and the service
compacts only what it was handed. The source guarantees the last (`kvraft` passes the index it has
applied) but neither of the first two. -/

namespace AiFS

open TermLog

variable {n : ℕ} {κ : Type} {σ : Prop}

/-! ## Packets -/

/-- The vote a packet is about: whose election, in which term, and who is asked. -/
def Packet.ballot : Packet n κ → Option (Fin n × ℕ × Fin n)
  | .requestVote src dst _ args => some (src, args.term, dst)
  | .requestVoteReply src dst _ args _ => some (src, args.term, dst)
  | _ => none

/-- The ballots under way. -/
def ballots (net : List (Packet n κ)) : List (Fin n × ℕ × Fin n) :=
  net.filterMap Packet.ballot

/-- What a packet on the network stands for. -/
def PacketRel (σ : Prop) (p : Hist n κ) : Packet n κ → Prop
  | .requestVote src dst _ args => args.candidateId = src ∧ dst ≠ src ∧
      ∃ C, p.candLog src args.term = some C ∧ args.lastLogIndex = C.length ∧
        args.lastLogTerm = lastTerm LogEntry.term C
  | .requestVoteReply src dst _ args reply => (p.candLog src args.term).isSome ∧
      (reply.voteGranted = true → p.voted dst args.term = some src)
  | .appendEntries _ _ _ args => ∃ M, Shipped σ p args.term M ∧ args.prevLogIndex ≤ M.length ∧
      args.prevLogTerm = lastTerm LogEntry.term (M.take args.prevLogIndex) ∧
      args.entries = M.drop args.prevLogIndex ∧
      (σ → ∃ P, P <+: M ∧ P.length = args.leaderCommit ∧
        CommittedBy LogEntry.term p args.term P)
  | .appendEntriesReply _ dst _ args reply => σ → reply.success = true →
      args.prevLogIndex + args.entries.length ≤ p.acked dst args.term
  | .installSnapshot _ _ _ args => Shipped σ p args.term args.data.covers ∧
      args.data.covers.length = args.lastIncludedIndex ∧
      args.lastIncludedTerm = lastTerm LogEntry.term args.data.covers ∧
      (σ → CommittedBy LogEntry.term p args.term args.data.covers)
  | .installSnapshotReply _ dst _ args reply => σ → reply.term ≤ args.term →
      args.lastIncludedIndex ≤ p.acked dst args.term

theorem PacketRel.mono {p p' : Hist n κ} (g : Grows p p') {pkt : Packet n κ}
    (h : PacketRel σ p pkt) : PacketRel σ p' pkt := by
  cases pkt with
  | requestVote src dst ep args =>
      obtain ⟨hid, hne, C, hC, hrest⟩ := h
      exact ⟨hid, hne, C, g.candLog _ _ _ hC, hrest⟩
  | requestVoteReply src dst ep args reply =>
      obtain ⟨hc, hv⟩ := h
      obtain ⟨C, hC⟩ := Option.isSome_iff_exists.1 hc
      exact ⟨by rw [g.candLog _ _ _ hC]; rfl, fun hg => g.voted _ _ _ (hv hg)⟩
  | appendEntries src dst ep args =>
      obtain ⟨M, hM, hprev, hterm, hent, hcommit⟩ := h
      refine ⟨M, hM.mono g, hprev, hterm, hent, fun hσ => ?_⟩
      obtain ⟨P, hP, hlen, hc⟩ := hcommit hσ
      exact ⟨P, hP, hlen, hc.mono g le_rfl⟩
  | appendEntriesReply src dst ep args reply =>
      exact fun hσ hs => (h hσ hs).trans (g.acked _ _)
  | installSnapshot src dst ep args =>
      obtain ⟨hM, hlen, hterm, hcommit⟩ := h
      exact ⟨hM.mono g, hlen, hterm, fun hσ => (hcommit hσ).mono g le_rfl⟩
  | installSnapshotReply src dst ep args reply =>
      exact fun hσ hs => (h hσ hs).trans (g.acked _ _)

/-! ## The relation -/

/-- A majority has voted for `s` in term `T`. -/
def Elected (p : Hist n κ) (s : Fin n) (T : ℕ) : Prop :=
  ∃ Q : Finset (Fin n), Majority Q ∧ ∀ w ∈ Q, p.voted w T = some s

theorem Elected.mono {p p' : Hist n κ} (g : Grows p p') {s : Fin n} {T : ℕ} (h : Elected p s T) :
    Elected p' s T := by
  obtain ⟨Q, hQ, hv⟩ := h
  exact ⟨Q, hQ, fun w hw => g.voted _ _ _ (hv w hw)⟩

/-- The vote counter of a candidate counts votes that were given, each by a server whose ballot is
    not under way any more. -/
def Tally (p : Hist n κ) (net : List (Packet n κ)) (s : Fin n) (nd : Node n κ) : Prop :=
  nd.rf.state = Role.candidate → ∃ V : Finset (Fin n), V.card = nd.votes nd.rf.currTerm ∧
    ∀ w ∈ V, p.voted w nd.rf.currTerm = some s ∧ (s, nd.rf.currTerm, w) ∉ ballots net

structure Sim (σ : Prop) (c : Cluster n κ) (p : Hist n κ) : Prop where
  inv : p.Inv LogEntry.term
  kept : σ → p.Kept LogEntry.term
  server : ∀ s, ServerRel σ p s (c.rf s)
  tasks : ∀ s T r, .becomeLeader T r ∈ (c.node s).tasks → Elected p s T
  tally : ∀ s, Tally p c.net s (c.node s)
  packets : ∀ pkt ∈ c.net, PacketRel σ p pkt
  ballots_nodup : (ballots c.net).Nodup

theorem sim_init (σ : Prop) : Sim σ (Cluster.init n κ) (Proto.init (Fin n) (LogEntry κ)) where
  inv := inv_init
  kept _ := kept_init
  server s := by
    refine ⟨?_, fun _ => ?_⟩
    · exact
        { me := rfl
          wf := ⟨rfl, rfl, rfl⟩
          mirrored := Or.inr ⟨rfl, rfl⟩
          term := rfl
          log := rfl
          voted := rfl
          cand := fun hc => absurd hc (by simp [Cluster.rf, Cluster.init, Node.boot, Raft.make,
            Raft.readPersist, Persister.makePersister])
          lead := fun hl => absurd hl (by simp [Cluster.rf, Cluster.init, Node.boot, Raft.make,
            Raft.readPersist, Persister.makePersister]) }
    · exact
        { committed := ⟨[], List.nil_prefix, rfl, Or.inl rfl⟩
          included_le := le_rfl
          applied_le := le_rfl
          matched := fun _ peer _ => Or.inl le_rfl }
  tasks s T r h := absurd h (by simp [Cluster.init, Node.boot])
  tally s h := absurd h (by simp [Cluster.init, Node.boot, Raft.make,
            Raft.readPersist, Persister.makePersister])
  packets pkt h := absurd h (by simp [Cluster.init])
  ballots_nodup := List.nodup_nil

/-! ## Replacing one server -/

section Update

variable {c : Cluster n κ} {p p' : Hist n κ} {v : Fin n} {nd : Node n κ}

/-- A counter survives whatever starts no candidacy and brings no new ballots of its server. -/
theorem Tally.calm {net net' : List (Packet n κ)} {nd' : Node n κ} (h : Tally p net v nd)
    (g : Grows p p') (hcalm : Raft.Calm nd.rf nd'.rf) (hvotes : nd'.votes = nd.votes)
    (hnet : ∀ b ∈ ballots net', b.1 = v → b ∈ ballots net) : Tally p' net' v nd' := by
  intro hc
  obtain ⟨hc0, hterm⟩ := hcalm.candidate hc
  obtain ⟨V, hcard, hV⟩ := h hc0
  refine ⟨V, by rw [hvotes, hterm]; exact hcard, fun w hw => ?_⟩
  rw [hterm]
  exact ⟨g.voted _ _ _ (hV w hw).1, fun hb => (hV w hw).2 (hnet _ hb rfl)⟩

/-- **Update rule.** A protocol step of `v` that is matched by the new node of `v` and the new
    network keeps the relation: the other servers and the packets that stay take care of
    themselves. -/
theorem Sim.update (h : Sim σ c p) (hs : Step LogEntry.term σ v p p')
    {net' : List (Packet n κ)} (hrel : ServerRel σ p' v nd.rf)
    (htasks : ∀ T r, .becomeLeader T r ∈ nd.tasks →
      .becomeLeader T r ∈ (c.node v).tasks ∨ Elected p' v T)
    (htally : Tally p' net' v nd)
    (hnet : ∀ pkt ∈ net', pkt ∈ c.net ∨ PacketRel σ p' pkt)
    (hnodup : (ballots net').Nodup)
    (hballots : ∀ b ∈ ballots net', b ∈ ballots c.net ∨ b.1 = v) :
    Sim σ ⟨Function.update c.node v nd, net'⟩ p' := by
  have g := hs.grows h.inv
  refine
    { inv := inv_step h.inv hs
      kept := fun hσ => kept_step hσ h.inv (h.kept hσ) hs
      server := fun s => ?_
      tasks := fun s T r ht => ?_
      tally := fun s => ?_
      packets := fun pkt hpkt => (hnet pkt hpkt).elim (fun hold => (h.packets pkt hold).mono g) id
      ballots_nodup := hnodup }
  · by_cases hsv : s = v
    · subst hsv
      simpa [Cluster.rf] using hrel
    · simpa [Cluster.rf, Function.update_of_ne hsv] using (h.server s).frame g (hs.frame hsv)
  · by_cases hsv : s = v
    · subst hsv
      simp only [Function.update_self] at ht
      exact (htasks T r ht).elim (fun hold => (h.tasks s T r hold).mono g) id
    · simp only [Function.update_of_ne hsv] at ht
      exact (h.tasks s T r ht).mono g
  · by_cases hsv : s = v
    · subst hsv
      simpa using htally
    · simp only [Function.update_of_ne hsv]
      refine (h.tally s).calm g (Raft.calm_refl _) rfl (fun b hb hbs => ?_)
      exact (hballots b hb).resolve_right (fun hbv => hsv (hbs.symm.trans hbv))

/-- **Update rule** for the steps that are not about votes: packets may disappear, and what is sent
    carries no ballot. -/
theorem Sim.calm (h : Sim σ c p) (hs : Step LogEntry.term σ v p p')
    {net' : List (Packet n κ)} (ps : List (Packet n κ)) (hrel : ServerRel σ p' v nd.rf)
    (hcalm : Raft.Calm (c.rf v) nd.rf) (hvotes : nd.votes = (c.node v).votes)
    (htasks : ∀ T r, .becomeLeader T r ∈ nd.tasks → .becomeLeader T r ∈ (c.node v).tasks)
    (hsub : net'.Sublist c.net) (hps : ∀ pkt ∈ ps, PacketRel σ p' pkt ∧ pkt.ballot = none) :
    Sim σ ⟨Function.update c.node v nd, net' ++ ps⟩ p' := by
  have hquiet : ballots (net' ++ ps) = ballots net' := by
    have hnil : ps.filterMap Packet.ballot = [] :=
      List.filterMap_eq_nil_iff.2 (fun pkt hpkt => (hps pkt hpkt).2)
    rw [ballots, List.filterMap_append, hnil, List.append_nil]
    rfl
  have hsub' : (ballots (net' ++ ps)).Sublist (ballots c.net) := by
    rw [hquiet]
    exact hsub.filterMap _
  refine h.update hs hrel (fun T r ht => Or.inl (htasks T r ht)) ?_ ?_
    (h.ballots_nodup.sublist hsub')
    (fun b hb => Or.inl (hsub'.subset hb))
  · exact (h.tally v).calm (hs.grows h.inv) hcalm hvotes (fun b hb _ => hsub'.subset hb)
  · intro pkt hpkt
    rcases List.mem_append.1 hpkt with hold | hnew
    · exact Or.inl (hsub.subset hold)
    · exact Or.inr (hps pkt hnew).1

/-- The same when nothing is sent. -/
theorem Sim.local (h : Sim σ c p) (hs : Step LogEntry.term σ v p p')
    {net' : List (Packet n κ)} (hrel : ServerRel σ p' v nd.rf)
    (hcalm : Raft.Calm (c.rf v) nd.rf) (hvotes : nd.votes = (c.node v).votes)
    (htasks : ∀ T r, .becomeLeader T r ∈ nd.tasks → .becomeLeader T r ∈ (c.node v).tasks)
    (hsub : net'.Sublist c.net) : Sim σ ⟨Function.update c.node v nd, net'⟩ p' := by
  have := h.calm hs [] hrel hcalm hvotes htasks hsub (by simp)
  rwa [List.append_nil] at this

end Update

/-! ## Discipline -/

/-- The goroutines that send for the leader. -/
def Task.isSender : Task n → Bool
  | .makeAppendEntry _ => true
  | .sendInstallSnapshotToPeers _ => true
  | _ => false

/-- The election a goroutine is about to win. -/
def Task.electionTerm : Task n → Option ℕ
  | .becomeLeader electionTerm _ => some electionTerm
  | _ => none

/-- The goroutine that gets its server's lock in a step. -/
def Cluster.running (c : Cluster n κ) : Action n κ → Option (Fin n × Task n)
  | .run s k => ((c.node s).tasks[k]?).map (fun t => (s, t))
  | _ => none

/-- The server that compacts its log in a step, and up to which index. -/
def Action.compacts : Action n κ → Option (Fin n × ℕ)
  | .snapshot s index _ => some (s, index)
  | _ => none

/-- A sender goroutine gets the lock only while its server is leader. -/
def LeaderSends (c : Cluster n κ) (a : Action n κ) : Prop :=
  ∀ x ∈ c.running a, x.2.isSender = true → (c.rf x.1).state = Role.leader

/-- A candidate wins only if its `matchIndex` claims nothing above its `commitIndex`. -/
def FreshMatch (c : Cluster n κ) (a : Action n κ) : Prop :=
  ∀ x ∈ c.running a, x.2.electionTerm = some (c.rf x.1).currTerm →
    (c.rf x.1).state = Role.candidate →
    ∀ peer, peer ≠ x.1 → (c.rf x.1).matchIndex peer ≤ (c.rf x.1).commitIndex

/-- The service compacts only what it was handed. -/
def CompactsApplied (c : Cluster n κ) (a : Action n κ) : Prop :=
  ∀ x ∈ a.compacts, x.2 ≤ (c.rf x.1).lastApplied

structure Disciplined (c : Cluster n κ) (a : Action n κ) : Prop where
  leaderSends : LeaderSends c a
  freshMatch : FreshMatch c a
  compactsApplied : CompactsApplied c a

instance (c : Cluster n κ) (a : Action n κ) : Decidable (LeaderSends c a) :=
  inferInstanceAs (Decidable (∀ x ∈ c.running a, _ → _))

instance (c : Cluster n κ) (a : Action n κ) : Decidable (FreshMatch c a) :=
  inferInstanceAs (Decidable (∀ x ∈ c.running a, _ → _ → ∀ _, _ → _))

instance (c : Cluster n κ) (a : Action n κ) : Decidable (CompactsApplied c a) :=
  inferInstanceAs (Decidable (∀ x ∈ a.compacts, _))

instance (c : Cluster n κ) (a : Action n κ) : Decidable (Disciplined c a) :=
  decidable_of_iff (LeaderSends c a ∧ FreshMatch c a ∧ CompactsApplied c a)
    ⟨fun h => ⟨h.1, h.2.1, h.2.2⟩, fun h => ⟨h.1, h.2, h.3⟩⟩

/-- A step of the protocol by some server, or none. -/
def Follows (σ : Prop) (p p' : Hist n κ) : Prop :=
  p' = p ∨ ∃ v, Step LogEntry.term σ v p p'

/-! ## Goroutines -/

section Run

variable {c : Cluster n κ} {p : Hist n κ} {s : Fin n} {k : ℕ}

theorem running_run {t : Task n} (ht : (c.node s).tasks[k]? = some t) :
    (s, t) ∈ c.running (.run s k) := by
  simp [Cluster.running, ht]

/-- No ballot of a term that its candidate has not entered is under way. -/
theorem Sim.ballot_term_le (h : Sim σ c p) {w : Fin n} {T : ℕ} (hb : (s, T, w) ∈ ballots c.net) :
    T ≤ (c.rf s).currTerm := by
  obtain ⟨pkt, hpkt, hbal⟩ := List.mem_filterMap.1 hb
  have hrel := h.packets pkt hpkt
  have hcand : (p.candLog s T).isSome := by
    cases pkt with
    | requestVote src dst ep args =>
        obtain ⟨rfl, rfl, _⟩ := by simpa [Packet.ballot] using hbal
        obtain ⟨_, _, C, hC, _⟩ := hrel
        rw [hC]
        rfl
    | requestVoteReply src dst ep args reply =>
        obtain ⟨rfl, rfl, _⟩ := by simpa [Packet.ballot] using hbal
        exact hrel.1
    | _ => exact absurd hbal (by simp [Packet.ballot])
  obtain ⟨C, hC⟩ := Option.isSome_iff_exists.1 hcand
  rw [← (h.server s).raft.term]
  exact (h.inv.cands s T C hC).2.2.1

theorem mem_peers {me peer : Fin n} : peer ∈ peers me ↔ peer ≠ me := by
  simp [peers]

/-- The ballots of a new election are new, and one for each peer. -/
theorem ballots_startElection (s : Fin n) (ep : ℕ) (args : RequestVoteArgs n) :
    ballots ((peers s).map (fun peer => (.requestVote s peer ep args : Packet n κ))) =
      (peers s).map (fun peer => (s, args.term, peer)) := by
  rw [ballots, List.filterMap_map, ← List.filterMap_eq_map]
  rfl

theorem sim_startElection {rf : Raft n κ} {args : RequestVoteArgs n} (h : Sim σ c p)
    (hse : (c.rf s).startElection = some (rf, args)) :
    ∃ p', Follows σ p p' ∧ Sim σ ⟨Function.update c.node s
      { c.node s with
        tasks := (c.node s).tasks.eraseIdx k, rf := rf
        votes := Function.update (c.node s).votes rf.currTerm 1 },
      c.net ++ (peers (c.rf s).me).map
        (fun peer => .requestVote (c.rf s).me peer (c.node s).epoch args)⟩ p' := by
  obtain ⟨hs, hrel, hterm, _, hid, hargs, hcand, hidx, hlt⟩ :=
    (h.server s).startElection h.inv hse
  have hme : (c.rf s).me = s := (h.server s).raft.me
  have hnew := ballots_startElection (κ := κ) s (c.node s).epoch args
  -- a ballot under way is an old one or one of this election
  have hsplit : ballots (c.net ++ (peers s).map
      (fun peer => (.requestVote s peer (c.node s).epoch args : Packet n κ))) =
      ballots c.net ++ (peers s).map (fun peer => (s, args.term, peer)) := by
    rw [← hnew, ballots, List.filterMap_append]
    rfl
  have hold : ∀ w, (s, args.term, w) ∉ ballots c.net := fun w hw => by
    have := h.ballot_term_le hw
    have : args.term = (c.rf s).currTerm + 1 := hargs
    omega
  have hT : rf.currTerm = args.term := hterm.trans hargs.symm
  refine ⟨_, Or.inr ⟨s, hs⟩, ?_⟩
  rw [hme]
  refine h.update hs hrel (fun T r ht => Or.inl (List.eraseIdx_subset ht)) ?_ ?_ ?_ ?_
  · -- the candidate has counted its own vote
    intro _
    refine ⟨{s}, by simp, fun w hw => ?_⟩
    rw [Finset.mem_singleton.1 hw]
    change (p.campaign s).voted s rf.currTerm = some s ∧ (s, rf.currTerm, s) ∉ ballots _
    rw [hT, hsplit]
    refine ⟨((inv_step h.inv hs).cands s _ _ hcand).2.2.2, fun hb => ?_⟩
    rcases List.mem_append.1 hb with hb | hb
    · exact hold s hb
    · obtain ⟨peer, hpeer, heq⟩ := List.mem_map.1 hb
      exact mem_peers.1 hpeer (by simpa using heq)
  · intro pkt hpkt
    rcases List.mem_append.1 hpkt with hpkt | hpkt
    · exact Or.inl hpkt
    · obtain ⟨peer, hpeer, rfl⟩ := List.mem_map.1 hpkt
      exact Or.inr ⟨hid, mem_peers.1 hpeer, _, hcand, hidx, hlt⟩
  · rw [hsplit, List.nodup_append]
    refine ⟨h.ballots_nodup, ?_, ?_⟩
    · refine List.Nodup.map ?_ ((List.nodup_finRange n).filter _)
      intro a b hab
      simpa using hab
    · rintro b hb b' hb' rfl
      obtain ⟨w, _, rfl⟩ := List.mem_map.1 hb'
      exact hold w hb
  · intro b hb
    rw [hsplit] at hb
    rcases List.mem_append.1 hb with hb | hb
    · exact Or.inl hb
    · obtain ⟨w, _, rfl⟩ := List.mem_map.1 hb
      exact Or.inr rfl

/-- The tasks of a server after one was taken and others, none of them a `becomeLeader`, came. -/
theorem becomeLeader_mem_spawn {ts ts' : List (Task n)} {T r : ℕ}
    (hts : .becomeLeader T r ∉ ts') (h : .becomeLeader T r ∈ ts.eraseIdx k ++ ts') :
    .becomeLeader T r ∈ ts := by
  rcases List.mem_append.1 h with h | h
  · exact List.eraseIdx_subset h
  · exact absurd h hts

theorem sim_becomeLeader {T r : ℕ} (h : Sim σ c p) (hd : σ → FreshMatch c (.run s k))
    (ht : (c.node s).tasks[k]? = some (.becomeLeader T r)) :
    ∃ p', Follows σ p p' ∧ Sim σ ⟨Function.update c.node s
      (({ c.node s with
          tasks := (c.node s).tasks.eraseIdx k, rf := ((c.rf s).becomeLeader T).1 } :
        Node n κ).spawn ((if ((c.rf s).becomeLeader T).2 then [.broadcastHeartbeat] else []) ++
          [.checkReplyTerm r])), c.net⟩ p' := by
  have htasks : ∀ U q, .becomeLeader U q ∈ (c.node s).tasks.eraseIdx k ++
      ((if ((c.rf s).becomeLeader T).2 then [.broadcastHeartbeat] else []) ++
        [.checkReplyTerm r]) → .becomeLeader U q ∈ (c.node s).tasks := by
    intro U q hmem
    refine becomeLeader_mem_spawn (fun hno => ?_) hmem
    split at hno <;> simp at hno
  rcases Raft.becomeLeader_cases (c.rf s) T with heq | ⟨hcand, rfl, next, heq⟩
  · rw [heq] at htasks ⊢
    exact ⟨p, Or.inl rfl, h.local (v := s) Step.idle (h.server s) (Raft.calm_refl _) rfl htasks
      (List.Sublist.refl _)⟩
  · rw [heq] at htasks ⊢
    obtain ⟨Q, hQ, hvotes⟩ := h.tasks s _ r (List.mem_of_getElem? ht)
    obtain ⟨p', hs, hrel⟩ := (h.server s).lead next h.inv hcand hQ hvotes
      (fun hσ => hd hσ (s, .becomeLeader _ r) (running_run ht) rfl hcand)
    refine ⟨p', Or.inr ⟨s, hs⟩, h.update hs hrel (fun U q hmem => Or.inl (htasks U q hmem)) ?_
      (fun pkt hpkt => Or.inl hpkt) h.ballots_nodup (fun b hb => Or.inl hb)⟩
    -- a leader counts no more votes
    intro hc
    exact absurd hc (by simp [Node.spawn])

/-- **Goroutines.** Every stretch of a goroutine follows the protocol. -/
theorem sim_run {t : Task n} {nd : Node n κ} {ps : List (Packet n κ)} (h : Sim σ c p)
    (hd : σ → Disciplined c (.run s k)) (ht : (c.node s).tasks[k]? = some t)
    (hrun : ({ c.node s with tasks := (c.node s).tasks.eraseIdx k } : Node n κ).runTask t =
      some (nd, ps)) :
    ∃ p', Follows σ p p' ∧ Sim σ ⟨Function.update c.node s nd, c.net ++ ps⟩ p' := by
  -- the stretches that change nothing but the list of tasks
  have hspawn : ∀ ts : List (Task n), (∀ T r, .becomeLeader T r ∉ ts) →
      Sim σ ⟨Function.update c.node s
        (({ c.node s with tasks := (c.node s).tasks.eraseIdx k } : Node n κ).spawn ts),
        c.net ++ []⟩ p := fun ts hts =>
    h.calm (v := s) Step.idle [] (h.server s) (Raft.calm_refl _) rfl
      (fun T r hmem => becomeLeader_mem_spawn (hts T r) hmem) (List.Sublist.refl _) (by simp)
  have hidle : Sim σ ⟨Function.update c.node s
      ({ c.node s with tasks := (c.node s).tasks.eraseIdx k } : Node n κ), c.net ++ []⟩ p := by
    simpa [Node.spawn] using hspawn [] (by simp)
  -- the stretches that send a request of the server's own
  have hsend : ∀ pkt : Packet n κ, PacketRel σ p pkt → pkt.ballot = none →
      Sim σ ⟨Function.update c.node s
        ({ c.node s with tasks := (c.node s).tasks.eraseIdx k } : Node n κ), c.net ++ [pkt]⟩ p :=
    fun pkt hpkt hb =>
      h.calm (v := s) Step.idle [pkt] (h.server s) (Raft.calm_refl _) rfl
        (fun T r hmem => List.eraseIdx_subset hmem) (List.Sublist.refl _)
        (fun q hq => by rw [List.mem_singleton.1 hq]; exact ⟨hpkt, hb⟩)
  have hship : t.isSender = true → Shipped σ p (c.rf s).currTerm (c.rf s).fullLog := fun hsender =>
    (h.server s).shipped h.inv (fun hσ => (hd hσ).leaderSends (s, t) (running_run ht) hsender)
  cases runTask_stretch hrun with
  | startElection hse => exact sim_startElection h hse
  | @becomeLeader T r =>
      rw [List.append_nil]
      exact sim_becomeLeader h (fun hσ => (hd hσ).freshMatch) ht
  | @checkReplyTerm r =>
      obtain ⟨p', hs, hrel⟩ := (h.server s).seeTerm h.inv r
      exact ⟨p', Or.inr ⟨s, hs⟩, h.calm hs [] hrel (Raft.calm_seeTerm _ _) rfl
        (fun T r hmem => List.eraseIdx_subset hmem) (List.Sublist.refl _) (by simp)⟩
  | retired => exact ⟨p, Or.inl rfl, hidle⟩
  | fannedOut _ hmore =>
      refine ⟨p, Or.inl rfl, hspawn _ fun T r hmem => ?_⟩
      rcases List.mem_append.1 hmem with hpeer | hmem
      · simp at hpeer
      · exact absurd (hmore _ hmem) (by simp)
  | lagging => exact ⟨p, Or.inl rfl, hspawn _ (by simp)⟩
  | appendEntries hnext hargs =>
      obtain ⟨hT, hlc, hprev, hent, hlt⟩ :=
        Raft.appendEntriesArgs_spec (h.server s).raft.wf hnext hargs
      refine ⟨p, Or.inl rfl, hsend _ ⟨_, hT ▸ hship rfl, hprev, hlt, hent, fun hσ => ?_⟩ rfl⟩
      rw [hlc, hT]
      exact ((h.server s).safe hσ).committed
  | installSnapshot =>
      have hwf := (h.server s).raft.wf
      have hcov : (c.rf s).covers <+: (c.rf s).fullLog := List.prefix_append _ _
      refine ⟨p, Or.inl rfl, hsend _ ⟨(hship rfl).of_isPrefix hcov, hwf.covers_length,
        hwf.covers_term, fun hσ => ?_⟩ rfl⟩
      obtain ⟨P, hP, hlen, hc⟩ := ((h.server s).safe hσ).committed
      refine hc.of_isPrefix (List.prefix_of_prefix_length_le hcov hP ?_)
      rw [hlen]
      exact hwf.covers_length.le.trans
        (((h.server s).safe hσ).included_le.trans ((h.server s).safe hσ).applied_le)

end Run

/-! ## Packets that arrive -/

section Deliver

variable {c c' : Cluster n κ} {p : Hist n κ} {k : ℕ} {pkt : Packet n κ}

/-- Taking a packet off the network takes its ballot off, and only that. -/
theorem ballots_perm {net : List (Packet n κ)} (hk : net[k]? = some pkt) :
    (ballots net).Perm (ballots (pkt :: net.eraseIdx k)) := by
  obtain ⟨hlt, rfl⟩ := List.getElem?_eq_some_iff.1 hk
  exact ((List.getElem_cons_eraseIdx_perm hlt).filterMap _).symm

/-- A vote that arrives while its election is on is one more vote. -/
theorem Sim.count_vote {src dst : Fin n} {ep : ℕ} {args : RequestVoteArgs n}
    {reply : RequestVoteReply} (h : Sim σ c p)
    (hk : c.net[k]? = some (.requestVoteReply src dst ep args reply))
    (hcand : (c.rf src).state = Role.candidate) (hterm : (c.rf src).currTerm = args.term)
    (hg : reply.voteGranted = true) :
    ∃ V : Finset (Fin n), V.card = (c.node src).votes args.term + 1 ∧ ∀ w ∈ V,
      p.voted w args.term = some src ∧ (src, args.term, w) ∉ ballots (c.net.eraseIdx k) := by
  obtain ⟨V, hcard, hV⟩ := h.tally src hcand
  rw [show (c.node src).rf.currTerm = args.term from hterm] at hcard hV
  have hperm := ballots_perm hk
  have hcons : ballots (.requestVoteReply src dst ep args reply :: c.net.eraseIdx k) =
      (src, args.term, dst) :: ballots (c.net.eraseIdx k) := rfl
  rw [hcons] at hperm
  have hnodup := List.nodup_cons.1 (hperm.nodup_iff.1 h.ballots_nodup)
  -- the ballot was under way until now, so this vote was not counted before
  have hnew : dst ∉ V := fun hmem =>
    (hV dst hmem).2 (hperm.mem_iff.2 (List.mem_cons_self))
  refine ⟨insert dst V, by rw [Finset.card_insert_of_notMem hnew, hcard], fun w hw => ?_⟩
  rcases Finset.mem_insert.1 hw with rfl | hw
  · exact ⟨(h.packets _ (List.mem_of_getElem? hk)).2 hg, hnodup.1⟩
  · exact ⟨(hV w hw).1, fun hb => (hV w hw).2 (hperm.mem_iff.2 (List.mem_cons_of_mem _ hb))⟩

theorem sim_requestVote {src dst : Fin n} {ep : ℕ} {args : RequestVoteArgs n}
    {reply : RequestVoteReply} {rf : Raft n κ} (h : Sim σ c p)
    (hk : c.net[k]? = some (.requestVote src dst ep args))
    (hrv : (c.rf dst).requestVote args = some (rf, reply)) :
    ∃ p', Follows σ p p' ∧ Sim σ ⟨Function.update c.node dst { c.node dst with rf := rf },
      c.net.eraseIdx k ++ [.requestVoteReply src dst ep args reply]⟩ p' := by
  obtain ⟨rfl, _, C, hC, hidx, hlt⟩ := h.packets _ (List.mem_of_getElem? hk)
  obtain ⟨p', hs, hrel, hvote⟩ := (h.server dst).requestVote h.inv hC hidx hlt hrv
  have g := hs.grows h.inv
  -- the reply carries on the ballot of the request
  have hperm : (ballots (c.net.eraseIdx k ++
      [.requestVoteReply args.candidateId dst ep args reply])).Perm (ballots c.net) := by
    refine List.Perm.trans ?_ (ballots_perm hk).symm
    change (ballots _).Perm (ballots
      ([.requestVoteReply args.candidateId dst ep args reply] ++ c.net.eraseIdx k))
    exact List.perm_append_comm.filterMap Packet.ballot
  refine ⟨p', Or.inr ⟨dst, hs⟩, h.update hs hrel (fun T r ht => Or.inl ht) ?_ ?_
    (hperm.nodup_iff.2 h.ballots_nodup) (fun b hb => Or.inl (hperm.mem_iff.1 hb))⟩
  · exact (h.tally dst).calm g (Raft.calm_requestVote (h.server dst).raft.wf hrv) rfl
      (fun b hb _ => hperm.mem_iff.1 hb)
  · intro q hq
    rcases List.mem_append.1 hq with hq | hq
    · exact Or.inl (List.eraseIdx_subset hq)
    · rw [List.mem_singleton.1 hq]
      refine Or.inr ⟨?_, hvote⟩
      rw [g.candLog _ _ _ hC]
      rfl

theorem sim_requestVoteReply {src dst : Fin n} {ep : ℕ} {args : RequestVoteArgs n}
    {reply : RequestVoteReply} (h : Sim σ c p)
    (hk : c.net[k]? = some (.requestVoteReply src dst ep args reply)) :
    ∃ p', Follows σ p p' ∧ Sim σ ⟨Function.update c.node src
      (({ c.node src with
          rf := ((c.rf src).requestVoteReply ((c.node src).votes args.term) args.term reply).1
          votes := Function.update (c.node src).votes args.term
            ((c.rf src).requestVoteReply ((c.node src).votes args.term) args.term reply).2.1 } :
        Node n κ).spawn
        (if ((c.rf src).requestVoteReply ((c.node src).votes args.term) args.term reply).2.2 then
          [.becomeLeader args.term reply.term] else [])), c.net.eraseIdx k⟩ p' := by
  have hsub : (c.net.eraseIdx k).Sublist c.net := List.eraseIdx_sublist _ _
  have hballots : (ballots (c.net.eraseIdx k)).Sublist (ballots c.net) := hsub.filterMap _
  rcases Raft.requestVoteReply_cases (c.rf src) ((c.node src).votes args.term) args.term reply with
    ⟨_, heq⟩ | ⟨hcand, hterm, hg, hmaj, heq⟩ | ⟨hcand, hterm, heq⟩
  · rw [heq]
    refine ⟨p, Or.inl rfl, h.local (v := src) Step.idle (h.server src) (Raft.calm_refl _) ?_ ?_
      hsub⟩
    · exact Function.update_eq_self _ _
    · simp [Node.spawn]
  · -- the vote that wins
    rw [heq]
    obtain ⟨V, hcard, hV⟩ := h.count_vote hk hcand hterm hg
    refine ⟨p, Or.inl rfl, h.update (v := src) Step.idle (h.server src) ?_ ?_
      (fun q hq => Or.inl (hsub.subset hq)) (h.ballots_nodup.sublist hballots)
      (fun b hb => Or.inl (hballots.subset hb))⟩
    · intro T r hmem
      rcases List.mem_append.1 hmem with hold | hnew
      · exact Or.inl hold
      · obtain ⟨rfl, _⟩ : T = args.term ∧ r = reply.term := by simpa using hnew
        refine Or.inr ⟨V, ?_, fun w hw => (hV w hw).1⟩
        rw [Majority, hcard, Fintype.card_fin]
        omega
    · intro _
      refine ⟨V, ?_, ?_⟩
      · change V.card = Function.update (c.node src).votes args.term _ (c.rf src).currTerm
        rw [hterm, Function.update_self, hcard]
      · change ∀ w ∈ V, p.voted w (c.rf src).currTerm = _ ∧ (src, (c.rf src).currTerm, w) ∉ _
        rw [hterm]
        exact hV
  · rw [heq]
    obtain ⟨p', hs, hrel⟩ := (h.server src).seeTerm h.inv reply.term
    have g := hs.grows h.inv
    refine ⟨p', Or.inr ⟨src, hs⟩, h.update hs hrel ?_ ?_ (fun q hq => Or.inl (hsub.subset hq))
      (h.ballots_nodup.sublist hballots) (fun b hb => Or.inl (hballots.subset hb))⟩
    · intro T r hmem
      exact Or.inl (by simpa [Node.spawn] using hmem)
    · -- still a candidate, so the reply's term was not higher
      intro hc
      have hsame : ((c.rf src).seeTerm reply.term).currTerm = args.term :=
        ((Raft.calm_seeTerm _ _).candidate hc).2.trans hterm
      change ∃ V : Finset (Fin n), V.card = Function.update (c.node src).votes args.term
        (if reply.voteGranted then _ else _) ((c.rf src).seeTerm reply.term).currTerm ∧
        ∀ w ∈ V, p'.voted w ((c.rf src).seeTerm reply.term).currTerm = some src ∧
          (src, ((c.rf src).seeTerm reply.term).currTerm, w) ∉ ballots (c.net.eraseIdx k)
      rw [hsame, Function.update_self]
      by_cases hg : reply.voteGranted = true
      · rw [if_pos hg]
        obtain ⟨V, hcard, hV⟩ := h.count_vote hk hcand hterm hg
        exact ⟨V, hcard, fun w hw => ⟨g.voted _ _ _ (hV w hw).1, (hV w hw).2⟩⟩
      · rw [if_neg hg]
        obtain ⟨V, hcard, hV⟩ := h.tally src hcand
        rw [show (c.node src).rf.currTerm = args.term from hterm] at hcard hV
        exact ⟨V, hcard, fun w hw => ⟨g.voted _ _ _ (hV w hw).1,
          fun hb => (hV w hw).2 (hballots.subset hb)⟩⟩

/-- A request whose effect on its receiver follows the protocol, and its reply. -/
theorem Sim.handled {v : Fin n} {nd : Node n κ} {p' : Hist n κ} {reply : Packet n κ}
    (h : Sim σ c p) (hs : Step LogEntry.term σ v p p') (hrel : ServerRel σ p' v nd.rf)
    (hcalm : Raft.Calm (c.rf v) nd.rf) (hvotes : nd.votes = (c.node v).votes)
    (htasks : nd.tasks = (c.node v).tasks) (hreply : PacketRel σ p' reply)
    (hb : reply.ballot = none) :
    Sim σ ⟨Function.update c.node v nd, c.net.eraseIdx k ++ [reply]⟩ p' :=
  h.calm hs [reply] hrel hcalm hvotes (fun T r hmem => htasks ▸ hmem) (List.eraseIdx_sublist _ _)
    (fun q hq => by rw [List.mem_singleton.1 hq]; exact ⟨hreply, hb⟩)

/-- A reply whose effect on the caller follows the protocol. -/
theorem Sim.replied {v : Fin n} {rf : Raft n κ} {p' : Hist n κ} {ts : List (Task n)}
    (h : Sim σ c p) (hs : Step LogEntry.term σ v p p') (hrel : ServerRel σ p' v rf)
    (hcalm : Raft.Calm (c.rf v) rf) (hts : ∀ T r, .becomeLeader T r ∉ ts) :
    Sim σ ⟨Function.update c.node v (({ c.node v with rf := rf } : Node n κ).spawn ts),
      c.net.eraseIdx k⟩ p' := by
  refine h.local hs hrel hcalm rfl (fun T r hmem => ?_) (List.eraseIdx_sublist _ _)
  exact (List.mem_append.1 hmem).resolve_right (hts T r)

/-- **Packets.** Whatever a packet does when it arrives follows the protocol. -/
theorem sim_deliver (h : Sim σ c p) (hk : c.net[k]? = some pkt)
    (hh : ({ c with net := c.net.eraseIdx k } : Cluster n κ).handle pkt = some c') :
    ∃ p', Follows σ p p' ∧ Sim σ c' p' := by
  have hpkt := h.packets _ (List.mem_of_getElem? hk)
  -- a reply to an earlier object is just gone
  have hgone : ∀ s, Sim σ ⟨Function.update c.node s (c.node s), c.net.eraseIdx k⟩ p := fun s =>
    h.local (v := s) Step.idle (h.server s) (Raft.calm_refl _) rfl (fun _ _ hmem => hmem)
      (List.eraseIdx_sublist _ _)
  cases pkt with
  | requestVote src dst ep args =>
      simp only [Cluster.handle] at hh
      split at hh
      · exact absurd hh (by simp)
      · next rf reply hrv =>
          obtain rfl := Option.some.inj hh
          exact sim_requestVote h hk hrv
  | requestVoteReply src dst ep args reply =>
      simp only [Cluster.handle, Node.onReply] at hh
      split at hh
      · obtain rfl := Option.some.inj hh
        exact sim_requestVoteReply h hk
      · obtain rfl := Option.some.inj hh
        exact ⟨p, Or.inl rfl, hgone src⟩
  | appendEntries src dst ep args =>
      simp only [Cluster.handle] at hh
      split at hh
      · exact absurd hh (by simp)
      · next rf reply hae =>
          obtain rfl := Option.some.inj hh
          obtain ⟨M, hM, hprev, hlt, hent, hcommit⟩ := hpkt
          obtain ⟨p', hs, hrel, hack⟩ :=
            (h.server dst).appendEntries h.inv h.kept hM hprev hlt hent hcommit hae
          exact ⟨p', Or.inr ⟨dst, hs⟩, h.handled hs hrel
            (Raft.calm_appendEntries (h.server dst).raft.wf hae) rfl rfl (fun _ => hack) rfl⟩
  | appendEntriesReply src dst ep args reply =>
      simp only [Cluster.handle, Node.onReply] at hh
      split at hh
      · split at hh
        · exact absurd hh (by simp)
        · next rf lagging hr =>
            obtain rfl := Option.some.inj hh
            obtain ⟨p', hs, hrel⟩ := (h.server src).appendEntriesReply h.inv h.kept hpkt hr
            refine ⟨p', Or.inr ⟨src, hs⟩, h.replied hs hrel (Raft.calm_appendEntriesReply hr) ?_⟩
            intro T r hmem
            split at hmem <;> simp at hmem
      · obtain rfl := Option.some.inj hh
        exact ⟨p, Or.inl rfl, hgone src⟩
  | installSnapshot src dst ep args =>
      simp only [Cluster.handle] at hh
      obtain rfl := Option.some.inj hh
      obtain ⟨hM, hlen, hlt, hcommit⟩ := hpkt
      obtain ⟨p', hs, hrel, hack⟩ :=
        (h.server dst).installSnapshot h.inv h.kept hM hlen hlt hcommit
      exact ⟨p', Or.inr ⟨dst, hs⟩, h.handled hs hrel (Raft.calm_installSnapshot _ _) rfl rfl
        hack rfl⟩
  | installSnapshotReply src dst ep args reply =>
      simp only [Cluster.handle, Node.onReply] at hh
      split at hh
      · obtain rfl := Option.some.inj hh
        obtain ⟨p', hs, hrel⟩ := (h.server src).installSnapshotReply h.inv hpkt
        exact ⟨p', Or.inr ⟨src, hs⟩, h.local hs hrel (Raft.calm_installSnapshotReply _ _ _ _) rfl
          (fun _ _ hmem => hmem) (List.eraseIdx_sublist _ _)⟩
      · obtain rfl := Option.some.inj hh
        exact ⟨p, Or.inl rfl, hgone src⟩

end Deliver

/-! ## Steps and runs -/

section Steps

variable {c c' : Cluster n κ} {p : Hist n κ} {a : Action n κ}

theorem Sim.restart {s : Fin n} {rf : Raft n κ} {p' : Hist n κ} {ep : ℕ}
    {net' : List (Packet n κ)} (h : Sim σ c p) (hs : Step LogEntry.term σ s p p')
    (hrel : ServerRel σ p' s rf) (hmir : rf.Mirrored) (hme : rf.me = s)
    (hsub : net'.Sublist c.net) :
    Sim σ ⟨Function.update c.node s (Node.boot s rf.persister ep), net'⟩ p' := by
  have hmake := Raft.make_of_mirrored hmir
  rw [hme] at hmake
  have hfollower : (Raft.make s rf.persister).state = Role.follower := by rw [hmake]
  refine h.update hs hrel.restart (fun T r hmem => absurd hmem (by simp [Node.boot])) ?_
    (fun q hq => Or.inl (hsub.subset hq)) (h.ballots_nodup.sublist (hsub.filterMap _))
    (fun b hb => Or.inl ((hsub.filterMap _).subset hb))
  intro hc
  exact absurd (hc.symm.trans hfollower) (by simp)

/-- **Step theorem.** Every step of the cluster follows the protocol; with `σ`, every disciplined
    one. -/
theorem sim_step (h : Sim σ c p) (hd : σ → Disciplined c a) (hstep : c.step a = some c') :
    ∃ p', Follows σ p p' ∧ Sim σ c' p' := by
  cases a with
  | tick s =>
      simp only [Cluster.step] at hstep
      split at hstep
      · obtain rfl := Option.some.inj hstep
        refine ⟨p, Or.inl rfl, h.local (v := s) Step.idle (h.server s) (Raft.calm_refl _) rfl
          (fun T r hmem => ?_) (List.Sublist.refl _)⟩
        simpa [Node.spawn] using hmem
      · exact absurd hstep (by simp)
  | run s k =>
      simp only [Cluster.step] at hstep
      split at hstep
      · exact absurd hstep (by simp)
      · next t ht =>
          split at hstep
          · exact absurd hstep (by simp)
          · next nd ps hrun =>
              obtain rfl := Option.some.inj hstep
              exact sim_run h hd ht hrun
  | deliver k =>
      simp only [Cluster.step] at hstep
      split at hstep
      · exact absurd hstep (by simp)
      · next pkt hk => exact sim_deliver h hk hstep
  | drop k =>
      obtain rfl := Option.some.inj hstep
      have hsub : (c.net.eraseIdx k).Sublist c.net := List.eraseIdx_sublist _ _
      refine ⟨p, Or.inl rfl, { h with
        tally := fun s => ?_
        packets := fun pkt hpkt => h.packets pkt (hsub.subset hpkt)
        ballots_nodup := h.ballots_nodup.sublist (hsub.filterMap _) }⟩
      exact (h.tally s).calm (Grows.refl p) (Raft.calm_refl _) rfl
        (fun b hb _ => (hsub.filterMap _).subset hb)
  | start s command =>
      obtain rfl := Option.some.inj hstep
      obtain ⟨p', hs, hrel⟩ := (h.server s).start h.inv command
      refine ⟨p', Or.inr ⟨s, hs⟩, h.local hs hrel (Raft.calm_start _ _) rfl (fun T r hmem => ?_)
        (List.Sublist.refl _)⟩
      refine (List.mem_append.1 hmem).resolve_right (fun hnew => ?_)
      split at hnew <;> simp at hnew
  | snapshot s index data =>
      obtain ⟨rf, hsnap, rfl⟩ := Option.map_eq_some_iff.1 hstep
      have hrel := (h.server s).snapshot (fun hσ => (hd hσ).compactsApplied (s, index) rfl) hsnap
      exact ⟨p, Or.inl rfl, h.local (v := s) Step.idle hrel
        (Raft.calm_snapshot (h.server s).raft.wf hsnap) rfl (fun _ _ hmem => hmem)
        (List.Sublist.refl _)⟩
  | apply s =>
      simp only [Cluster.step] at hstep
      split at hstep
      · exact absurd hstep (by simp)
      · split at hstep
        · exact absurd hstep (by simp)
        · next rf msg hmsg =>
            obtain rfl := Option.some.inj hstep
            obtain ⟨hlt, rfl, _⟩ := Raft.sendApplyMsg_spec hmsg
            have hrel : ServerRel σ p s { c.rf s with lastApplied := (c.rf s).lastApplied + 1 } :=
              { raft := (h.server s).raft.withIndices _ _ _ _
                safe := fun hσ =>
                  { committed := ((h.server s).safe hσ).committed
                    included_le := ((h.server s).safe hσ).included_le.trans (Nat.le_succ _)
                    applied_le := hlt
                    matched := ((h.server s).safe hσ).matched } }
            exact ⟨p, Or.inl rfl, h.local (v := s) Step.idle hrel (Or.inr ⟨rfl, rfl⟩) rfl
              (fun _ _ hmem => hmem) (List.Sublist.refl _)⟩
  | receive s k =>
      obtain rfl := Option.some.inj hstep
      exact ⟨p, Or.inl rfl, h.local (v := s) Step.idle (h.server s) (Raft.calm_refl _) rfl
        (fun _ _ hmem => hmem) (List.Sublist.refl _)⟩
  | crash s =>
      obtain rfl := Option.some.inj hstep
      exact ⟨p, Or.inl rfl, h.restart Step.idle (h.server s) (h.server s).raft.mirrored
        (h.server s).raft.me (List.Sublist.refl _)⟩
  | crashMid k =>
      simp only [Cluster.step] at hstep
      split at hstep
      · exact absurd hstep (by simp)
      · next dst T _ =>
          split at hstep
          · next hT =>
              obtain rfl := Option.some.inj hstep
              obtain ⟨p', hs, hrel⟩ := (h.server dst).seeTerm h.inv T
              rw [Raft.seeTerm_of_lt hT] at hrel
              exact ⟨p', Or.inr ⟨dst, hs⟩, h.restart hs hrel hrel.raft.mirrored hrel.raft.me
                (List.eraseIdx_sublist _ _)⟩
          · exact absurd hstep (by simp)

theorem Follows.grows {p' : Hist n κ} (hinv : p.Inv LogEntry.term) (h : Follows σ p p') :
    Grows p p' := by
  rcases h with rfl | ⟨v, hs⟩
  · exact Grows.refl _
  · exact hs.grows hinv

/-- **Run theorem.** A run follows the protocol, and what has happened before it stays in the
    history; with `σ`, every run of disciplined steps. -/
theorem sim_exec {as : List (Action n κ)} (h : Sim σ c p)
    (hd : Machine.Along Cluster.step (fun c a => σ → Disciplined c a) c as)
    (hrun : Machine.exec Cluster.step c as = some c') : ∃ p', Grows p p' ∧ Sim σ c' p' := by
  refine Machine.simulation_exec Grows.refl Grows.trans ?_ as c c' p h hd hrun
  intro c a c' p h hd hstep
  obtain ⟨p', hfollows, hsim⟩ := sim_step h hd hstep
  exact ⟨p', hfollows.grows h.inv, hsim⟩

/-- Every reachable state, without any condition on the run. -/
theorem sim_reachable {as : List (Action n κ)} (hrun : Cluster.exec as = some c) :
    ∃ p, Sim False c p := by
  obtain ⟨p, _, hsim⟩ := sim_exec (sim_init False)
    (Machine.along_of_forall (fun _ _ hno => hno.elim) as _) hrun
  exact ⟨p, hsim⟩

end Steps

end AiFS
