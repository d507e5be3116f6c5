import AiFS.Raft.AllRuns
import AiFS.Raft.Delivery

set_option autoImplicit false

/-! # What holds in disciplined runs: committed entries are final

State machine safety, leader completeness and the meaning of a commit. They need the discipline of
`Simulation.lean`, and the source does not keep it: `becomeLeader` leaves `matchIndex` as an earlier
leadership of the same object left it, and the goroutines of `makeAppendEntry` and
`sendInstallSnapshotToPeers` do not look at `state` again when they get the lock. `staleSenderRun`
and `staleMatchRun` are runs in which the second and the first of these breaks the property. -/

namespace AiFS

open TermLog

variable {n : ℕ} {κ : Type} {as bs : List (Action n κ)} {a : Action n κ} {c c' : Cluster n κ}

/-! ## State machine safety -/

/-- The state after a disciplined run, with its history. -/
theorem sim_disciplined (hd : Machine.Along Cluster.step Disciplined (Cluster.init n κ) as)
    (h : Cluster.exec as = some c) : ∃ p, Sim True c p := by
  obtain ⟨p, _, hsim⟩ :=
    sim_exec (sim_init True) (Machine.along_mono (fun _ _ hd _ => hd) hd) h
  exact ⟨p, hsim⟩

/-- What is at or below `commitIndex` is an entry of a committed prefix. -/
theorem Sim.committed_entry {p : Hist n κ} (h : Sim True c p) {s : Fin n} {i : ℕ} (hpos : 0 < i)
    (hi : i ≤ (c.rf s).commitIndex) :
    ∃ P T e, CommittedBy LogEntry.term p T P ∧ P[i - 1]? = some e ∧
      (c.rf s).fullLog[i - 1]? = some e := by
  obtain ⟨P, hP, hlen, hc⟩ := ((h.server s).safe trivial).committed
  have he : P[i - 1]? = some P[i - 1] := List.getElem?_eq_getElem (by omega)
  exact ⟨P, _, _, hc, he, getElem?_of_isPrefix hP he⟩

/-- **State machine safety.** In a disciplined run, two servers that ever have an index at or below
    their `commitIndex` hold (or have compacted) the same entry there, and what is handed to the
    service at that index is this entry's command. -/
theorem state_machine_safety
    (hd : Machine.Along Cluster.step Disciplined (Cluster.init n κ) (as ++ bs))
    (h : Cluster.exec as = some c) (h' : Machine.exec Cluster.step c bs = some c')
    {s s' : Fin n} {i : ℕ} (hpos : 0 < i) (hi : i ≤ (c.rf s).commitIndex)
    (hi' : i ≤ (c'.rf s').commitIndex) :
    ∃ e, (c.rf s).fullLog[i - 1]? = some e ∧ (c'.rf s').fullLog[i - 1]? = some e ∧
      ∀ rf command, (c'.rf s').sendApplyMsg = some (rf, .command i command) →
        command = e.command := by
  obtain ⟨p, hsim⟩ := sim_disciplined (Machine.along_left hd) h
  obtain ⟨p', g, hsim'⟩ :=
    sim_exec hsim (Machine.along_mono (fun _ _ hd _ => hd) (Machine.along_append hd h)) h'
  obtain ⟨P, T, e, hc, hPe, he⟩ := hsim.committed_entry hpos hi
  obtain ⟨P', T', e', hc', hPe', he'⟩ := hsim'.committed_entry hpos hi'
  -- both prefixes are committed in the later history, so one extends the other
  have hsame : e = e' := by
    rcases (hc.mono g le_rfl).comparable hsim'.inv (hsim'.kept trivial) hc' with hpre | hpre
    · exact Option.some.inj ((getElem?_of_isPrefix hpre hPe).symm.trans hPe')
    · exact Option.some.inj (hPe.symm.trans (getElem?_of_isPrefix hpre hPe'))
  subst hsame
  refine ⟨e, he, he', fun rf command hmsg => ?_⟩
  obtain ⟨_, _, x, hx, hcmd⟩ := Raft.sendApplyMsg_spec hmsg
  obtain ⟨rfl, rfl⟩ := ApplyMsg.command.inj hcmd
  have hli := ((hsim'.server s').safe trivial).included_le
  rw [(hsim'.server s').raft.wf.entryAt_of_lt (by omega), he'] at hx
  rw [Option.some.inj hx]

/-- The leader of `electRun` replicates a command to server `1`, whose reply is under way. -/
def ackRun : List (Action 3 ℕ) :=
  electRun ++ ([.start 0 (some 7), .run 0 2, .run 0 2, .deliver 1] : List (Action 3 ℕ))

/-- The reply arrives, and the leader commits. -/
def commitRun : List (Action 3 ℕ) :=
  ackRun ++ [.deliver 1]

/-- The next heartbeat to server `1`. -/
def heartbeat : List (Action 3 ℕ) :=
  [.run 0 0, .run 0 2, .deliver 1]

theorem state_machine_safety_commitRun : ∃ c c', Cluster.exec commitRun = some c ∧
    Machine.exec Cluster.step c heartbeat = some c' ∧
    ∃ e, (c.rf 0).fullLog[0]? = some e ∧ (c'.rf 1).fullLog[0]? = some e := by
  have hrun : (Cluster.exec commitRun).map (fun c => (c.rf 0).commitIndex) = some 1 := by decide
  have hrun' : (Cluster.exec (commitRun ++ heartbeat)).map (fun c => (c.rf 1).commitIndex) =
      some 1 := by decide
  obtain ⟨c, hc, hone⟩ := Option.map_eq_some_iff.1 hrun
  obtain ⟨c', hc', hone'⟩ := Option.map_eq_some_iff.1 hrun'
  rw [Cluster.exec, Machine.exec_append, show Machine.exec _ _ _ = _ from hc] at hc'
  obtain ⟨e, he, he', _⟩ := state_machine_safety (by decide) hc hc' Nat.one_pos hone.ge hone'.ge
  exact ⟨c, c', hc, hc', e, he, he'⟩

/-- **Leader completeness.** In a disciplined run, what a server has committed in its term is in the
    log of every leader of this term or a higher one, from then on. -/
theorem committed_at_leaders
    (hd : Machine.Along Cluster.step Disciplined (Cluster.init n κ) (as ++ bs))
    (h : Cluster.exec as = some c) (h' : Machine.exec Cluster.step c bs = some c')
    {s l : Fin n} {i : ℕ} (hpos : 0 < i) (hi : i ≤ (c.rf s).commitIndex)
    (hlead : (c'.rf l).state = Role.leader) (hterm : (c.rf s).currTerm ≤ (c'.rf l).currTerm) :
    ∃ e, (c.rf s).fullLog[i - 1]? = some e ∧ (c'.rf l).fullLog[i - 1]? = some e := by
  obtain ⟨p, hsim⟩ := sim_disciplined (Machine.along_left hd) h
  obtain ⟨p', g, hsim'⟩ :=
    sim_exec hsim (Machine.along_mono (fun _ _ hd _ => hd) (Machine.along_append hd h)) h'
  obtain ⟨P, hP, hlen, hc⟩ := ((hsim.server s).safe trivial).committed
  obtain ⟨hleader, hlog⟩ := (hsim'.server l).raft.lead hlead
  have hpre : P <+: (c'.rf l).fullLog := by
    rw [← hlog]
    exact (hc.mono g hterm).prefix_leaderLog hsim'.inv (hsim'.kept trivial) (by rw [hleader]; rfl)
  have he : P[i - 1]? = some P[i - 1] := List.getElem?_eq_getElem (by omega)
  exact ⟨_, getElem?_of_isPrefix hP he, getElem?_of_isPrefix hpre he⟩

/-- Server `1` wins term `2` with the vote of server `2`, which has nothing in its log. -/
def takeOver : List (Action 3 ℕ) :=
  [.tick 1, .run 1 0, .deliver 2, .deliver 2, .run 1 0]

theorem committed_at_leaders_takeOver : ∃ c c', Cluster.exec commitRun = some c ∧
    Machine.exec Cluster.step c takeOver = some c' ∧ (c'.rf 1).currTerm = 2 ∧
    ∃ e, (c.rf 0).fullLog[0]? = some e ∧ (c'.rf 1).fullLog[0]? = some e := by
  have hrun : (Cluster.exec commitRun).map
      (fun c => ((c.rf 0).commitIndex, (c.rf 0).currTerm)) = some (1, 1) := by decide
  have hrun' : (Cluster.exec (commitRun ++ takeOver)).map
      (fun c => ((c.rf 1).state, (c.rf 1).currTerm)) = some (Role.leader, 2) := by decide
  obtain ⟨c, hc, hval⟩ := Option.map_eq_some_iff.1 hrun
  obtain ⟨hone, hterm⟩ := Prod.mk.inj hval
  obtain ⟨c', hc', hval'⟩ := Option.map_eq_some_iff.1 hrun'
  obtain ⟨hlead, hterm'⟩ := Prod.mk.inj hval'
  rw [Cluster.exec, Machine.exec_append, show Machine.exec _ _ _ = _ from hc] at hc'
  exact ⟨c, c', hc, hc', hterm', committed_at_leaders (by decide) hc hc' Nat.one_pos hone.ge hlead
    (by omega)⟩

/-- Leader `0` of term `1` has checked its role and started its senders when server `2` stands for
    term `2`, which makes `0` a follower, wins and commits its own entry at index `1`. A sender of
    `0` that gets the lock now builds a request with term `2` and the log of term `1`. -/
def staleSenderRun : List (Action 3 ℕ) :=
  electRun ++ ([.start 0 (some 7), .run 0 2, .deliver 0, .tick 2, .run 2 0, .deliver 1, .deliver 1,
    .deliver 2, .run 2 0, .start 2 (some 8), .run 2 2, .run 2 3, .deliver 2, .deliver 2] :
    List (Action 3 ℕ))

/-- After `staleSenderRun`, server `2` has committed its entry of term `2` at index `1`; two steps
    later its log holds another entry there, below the same `commitIndex`. -/
theorem committed_entry_replaced :
    (Cluster.exec staleSenderRun).map (fun c => ((c.rf 2).commitIndex, (c.rf 2).fullLog[0]?)) =
      some (1, some ⟨2, some 8⟩) ∧
    (Cluster.exec (staleSenderRun ++ [.run 0 3, .deliver 2])).map
        (fun c => ((c.rf 2).commitIndex, (c.rf 2).fullLog[0]?)) =
      some (1, some ⟨1, some 7⟩) := by
  decide

/-! ## Commit quorums -/

/-- Some reply to `AppendEntries` under way takes server `v` to `rf`. -/
def ByReply (c : Cluster n κ) (v : Fin n) (rf : Raft n κ) : Prop :=
  ∃ (k : ℕ) (peer : Fin n) (ep : ℕ) (args : AppendEntriesArgs n κ) (reply : AppendEntriesReply)
    (lagging : Bool), c.net[k]? = some (.appendEntriesReply v peer ep args reply) ∧
      (c.rf v).appendEntriesReply peer args reply = some (rf, lagging)

/-- The `commitIndex` of a leader only moves when a reply to `AppendEntries` is counted. -/
theorem Move.commitIndex_of_leader {v : Fin n} {nd : Node n κ} (hwf : (c.rf v).WF)
    (hm : Move c a v nd) (hlead : nd.rf.state = Role.leader) :
    nd.rf.commitIndex = (c.rf v).commitIndex ∨ ByReply c v nd.rf := by
  cases hm with
  | tick h => exact Or.inl rfl
  | run ht h =>
      exact Or.inl (runTask_view h).2
  | requestVote hk h =>
      rcases Raft.requestVote_spec hwf h with ⟨rfl, _⟩ | ⟨_, _, _, rfl⟩
      · exact Or.inl (Raft.seeTerm_commitIndex _ _)
      · exact Or.inl (Raft.seeTerm_commitIndex _ _)
  | @requestVoteReply k src dst ep args reply rf votes won hk h =>
      rcases Raft.requestVoteReply_cases (c.rf v) ((c.node v).votes args.term) args.term reply with
        ⟨_, heq⟩ | ⟨_, _, _, _, heq⟩ | ⟨_, _, heq⟩
      · obtain rfl : c.rf v = rf := (Prod.mk.inj (heq.symm.trans h)).1
        exact Or.inl rfl
      · obtain rfl : c.rf v = rf := (Prod.mk.inj (heq.symm.trans h)).1
        exact Or.inl rfl
      · obtain rfl : (c.rf v).seeTerm reply.term = rf := (Prod.mk.inj (heq.symm.trans h)).1
        exact Or.inl (Raft.seeTerm_commitIndex _ _)
  | appendEntries hk h =>
      rcases Raft.appendEntries_cases hwf h with
        ⟨_, rfl, _⟩ | ⟨_, rfl, _⟩ | ⟨_, _, _, _, _, _, _, rfl, _⟩
      · exact Or.inl rfl
      · exact Or.inl (Raft.follow_commitIndex _ _)
      · exact absurd (hlead.symm.trans (Raft.follow_state _ _)) (by simp)
  | appendEntriesReply hk hep h => exact Or.inr ⟨_, _, _, _, _, _, hk, h⟩
  | @installSnapshot k src dst ep args hk =>
      by_cases hstale : (c.rf v).currTerm > args.term
      · exact Or.inl (by simp [Raft.installSnapshot, hstale])
      · refine absurd hlead ?_
        by_cases hblock : args.lastIncludedIndex ≤ (c.rf v).lastIncludedIndex
        · simp [Raft.installSnapshot, hstale, hblock]
        · simp [Raft.installSnapshot, hstale, hblock]
  | @installSnapshotReply k src dst ep args reply hk hep =>
      rcases Raft.installSnapshotReply_cases (c.rf v) dst args reply with
        ⟨_, heq⟩ | heq | ⟨_, _, _, next, heq⟩
      · exact Or.inl (by simp [heq, Raft.stepDown, Raft.persist])
      · exact Or.inl (by simp [heq])
      · exact Or.inl (by simp [heq])
  | staleReply => exact Or.inl rfl
  | start => exact Or.inl (by simp only [Node.spawn, Raft.start]; split <;> rfl)
  | snapshot h =>
      rcases Raft.snapshot_spec hwf h with rfl | ⟨_, _, _, _, _, _, _, _, _, rfl⟩
      · exact Or.inl rfl
      · exact Or.inl rfl
  | apply hidle h =>
      obtain ⟨_, rfl, _⟩ := Raft.sendApplyMsg_spec h
      exact Or.inl rfl
  | receive => exact Or.inl rfl
  | crash => exact absurd (hlead.symm.trans (Raft.make_state _ _)) (by simp)
  | crashMid hk h => exact absurd (hlead.symm.trans (Raft.make_state _ _)) (by simp)

/-- Every prefix that a server has acknowledged in a term was in its log at some moment of the run
    when it was in that term. -/
theorem acked_history (hd : Machine.Along Cluster.step Disciplined (Cluster.init n κ) as)
    (h : Cluster.exec as = some c) : ∃ p, Sim True c p ∧ ∀ v t P, P ≠ [] →
      P <+: p.leaderLog t → P.length ≤ p.acked v t →
      ∃ d ∈ Machine.trace Cluster.step (Cluster.init n κ) as,
        (d.rf v).currTerm = t ∧ P <+: (d.rf v).fullLog := by
  induction as using List.reverseRecOn generalizing c with
  | nil =>
      obtain rfl := Option.some.inj h
      refine ⟨_, sim_init True, fun v t P hne hP _ => absurd (List.prefix_nil.1 hP) hne⟩
  | append_singleton as a ih =>
      obtain ⟨c₀, h₀, hstep⟩ := Machine.exec_concat h
      obtain ⟨p, hsim, hist⟩ := ih (Machine.along_left hd) h₀
      obtain ⟨p', hfollows, hsim'⟩ := sim_step hsim (fun _ => Machine.along_last hd h₀) hstep
      have htrace := Machine.trace_concat h₀ hstep
      refine ⟨p', hsim', fun v t P hne hP hlen => ?_⟩
      have hold : P <+: p.leaderLog t → P.length ≤ p.acked v t →
          ∃ d ∈ Machine.trace Cluster.step (Cluster.init n κ) (as ++ [a]),
            (d.rf v).currTerm = t ∧ P <+: (d.rf v).fullLog := fun hP hlen => by
        obtain ⟨d, hd, hrest⟩ := hist v t P hne hP hlen
        exact ⟨d, by rw [htrace]; exact List.mem_append_left _ hd, hrest⟩
      rcases hfollows with rfl | ⟨w, hs⟩
      · exact hold hP hlen
      · rcases hs.acked_fresh trivial (hsim.kept trivial) hne hP hlen with
          ⟨hP', hlen'⟩ | ⟨hterm, hlog⟩
        · exact hold hP' hlen'
        · have hr := (hsim'.server v).raft
          exact ⟨c, Machine.mem_trace_last h, hr.term.symm.trans hterm, hr.log ▸ hlog⟩

/-- **Commit quorum.** When a leader moves its `commitIndex` in a disciplined run, the servers it
    counts are a majority, and each of them had, at some moment while it was in the leader's term,
    the leader's entry at the new `commitIndex` in its log. -/
theorem commit_quorum
    (hd : Machine.Along Cluster.step Disciplined (Cluster.init n κ) (as ++ [a]))
    (h : Cluster.exec as = some c) (hstep : c.step a = some c') {s : Fin n}
    (hlead : (c'.rf s).state = Role.leader)
    (hne : (c'.rf s).commitIndex ≠ (c.rf s).commitIndex) :
    ∃ e, (c'.rf s).fullLog[(c'.rf s).commitIndex - 1]? = some e ∧
      Majority (counted (c'.rf s) (c'.rf s).commitIndex) ∧
      ∀ v ∈ counted (c'.rf s) (c'.rf s).commitIndex,
        ∃ d ∈ Machine.trace Cluster.step (Cluster.init n κ) (as ++ [a]),
          (d.rf v).currTerm = (c'.rf s).currTerm ∧
          (d.rf v).fullLog[(c'.rf s).commitIndex - 1]? = some e := by
  obtain ⟨p, hsim, hist⟩ := acked_history (Machine.along_left hd) h
  have hrel := hsim.server s
  have hsafe := hrel.safe trivial
  -- the step is the one that counts a reply
  obtain ⟨k, peer, ep, args, reply, lagging, hk, hreply⟩ : ByReply c s (c'.rf s) := by
    rcases step_node hstep s with hsame | hm
    · exact absurd (by rw [Cluster.rf, hsame]; rfl) hne
    · exact (hm.commitIndex_of_leader hrel.raft.wf hlead).resolve_left hne
  rcases Raft.appendEntriesReply_spec hreply with
    ⟨_, _, heq, _⟩ | ⟨next, heq, _⟩ | ⟨hlead₀, hterm, hsucc, _, next, ci, heq, hci⟩
  · exact absurd (by rw [heq]; rfl) hne
  · exact absurd (by rw [heq]) hne
  · have hci' : (c'.rf s).commitIndex = ci := by rw [heq]
    rcases hci with rfl | ⟨e, hlt, he, _, hcount⟩
    · exact absurd hci' hne
    · have hack := hsim.packets _ (List.mem_of_getElem? hk) trivial hsucc
      have hmatched := hsafe.matched_update peer hlead₀
        (k := args.prevLogIndex + args.entries.length) (by rw [hterm]; exact hack)
      have hli : (c.rf s).lastIncludedIndex < ci :=
        (hsafe.included_le.trans hsafe.applied_le).trans_lt hlt
      rw [hrel.raft.wf.entryAt_of_lt hli] at he
      have hN : ci ≤ (c.rf s).fullLog.length := by
        have := (List.getElem?_eq_some_iff.1 he).1
        omega
      obtain ⟨hl, hlog⟩ := hrel.raft.lead hlead₀
      have hfull : (c'.rf s).fullLog = (c.rf s).fullLog := by rw [heq]; rfl
      have hcurr : (c'.rf s).currTerm = (c.rf s).currTerm := by rw [heq]
      obtain ⟨hmaj, hacked⟩ := majority_acked (c'.rf s) (hsim.kept trivial)
        (by rw [heq]; exact hrel.raft.me) hl (by rw [hlog]; exact hN) hlt
        (by rw [heq]; exact hmatched) hcount
      rw [hci', hfull, hcurr]
      refine ⟨e, he, hmaj, fun v hv => ?_⟩
      -- what is counted was acknowledged, and what was acknowledged was in the log
      obtain ⟨d, hd, hdt, hdlog⟩ := hist v (c.rf s).currTerm ((c.rf s).fullLog.take ci)
        (List.ne_nil_of_length_pos (by rw [List.length_take_of_le hN]; omega))
        (by rw [hlog]; exact List.take_prefix _ _)
        (by rw [List.length_take_of_le hN]; exact hacked v hv)
      refine ⟨d, ?_, hdt, getElem?_of_isPrefix hdlog ?_⟩
      · rw [Machine.trace_concat h hstep]
        exact List.mem_append_left _ hd
      · rw [List.getElem?_take, if_pos (by omega)]
        exact he

theorem commit_quorum_ackRun : ∃ c c', Cluster.exec ackRun = some c ∧
    c.step (.deliver 1) = some c' ∧ Majority (counted (c'.rf 0) (c'.rf 0).commitIndex) := by
  have hrun : (Cluster.exec ackRun).map (fun c => (c.rf 0).commitIndex) = some 0 := by decide
  have hrun' : (Cluster.exec (ackRun ++ [.deliver 1])).map
      (fun c => ((c.rf 0).state, (c.rf 0).commitIndex)) = some (Role.leader, 1) := by decide
  obtain ⟨c, hc, hzero⟩ := Option.map_eq_some_iff.1 hrun
  obtain ⟨c', hc', hval⟩ := Option.map_eq_some_iff.1 hrun'
  obtain ⟨hlead, hone⟩ := Prod.mk.inj hval
  obtain ⟨c₀, hc₀, hstep⟩ := Machine.exec_concat hc'
  obtain rfl : c₀ = c := Option.some.inj (hc₀.symm.trans hc)
  obtain ⟨_, _, hmaj, _⟩ := commit_quorum (by decide) hc hstep hlead (by omega)
  exact ⟨c₀, c', hc, hstep, hmaj⟩

/-- Leader `0` of term `1` has its two entries acknowledged by server `1` only. Server `3` wins term
    `2` and overwrites the log of `0` with its own entry. Then `0` wins term `3`, with what
    `matchIndex` says of server `1` since term `1`, and replicates an entry to server `3` only. -/
def staleMatchRun : List (Action 5 ℕ) :=
  [.tick 0, .run 0 0, .deliver 0, .deliver 0, .deliver 2, .deliver 2, .run 0 0,
    .start 0 (some 1), .start 0 (some 2), .run 0 2, .run 0 3, .deliver 2, .deliver 2, .deliver 0,
    .deliver 0, .drop 0, .drop 0,
    .tick 3, .run 3 0, .deliver 2, .deliver 2, .deliver 2, .deliver 2, .run 3 0,
    .start 3 (some 3), .run 3 2, .run 3 2, .deliver 2, .drop 0, .drop 0, .drop 0,
    .tick 0, .run 0 6, .deliver 1, .deliver 2, .deliver 2, .deliver 2, .run 0 6,
    .start 0 (some 4), .run 0 8, .run 0 10, .deliver 2]

/-- The reply of server `3` makes leader `0` commit its entry of term `3` at index `2`, which two of
    the five servers have ever held. -/
theorem commit_without_quorum :
    (Cluster.exec staleMatchRun).map (fun c => (c.rf 0).commitIndex) = some 0 ∧
    (Cluster.exec (staleMatchRun ++ [.deliver 2])).map
        (fun c => ((c.rf 0).state, (c.rf 0).currTerm, (c.rf 0).commitIndex, (c.rf 0).fullLog[1]?)) =
      some (Role.leader, 3, 2, some ⟨3, some 4⟩) ∧
    ∀ d ∈ Machine.trace Cluster.step (Cluster.init 5 ℕ) (staleMatchRun ++ [.deliver 2]),
      ∀ v, v ≠ 0 → v ≠ 3 → (d.rf v).fullLog[1]? ≠ some ⟨3, some 4⟩ := by
  decide

end AiFS
