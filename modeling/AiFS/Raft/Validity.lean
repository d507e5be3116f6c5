import AiFS.Lib.Pool
import AiFS.Raft.Promise

set_option autoImplicit false

/-! # Where entries come from

No handler makes up an entry. Every entry of every log, in all runs, has been passed to `Start`, and
this call returned the place at which the entry stands; there is only one such call.

`LogMove` says what a step makes of the log of the server it concerns: nothing new, an entry of
`Start`, or a merge with a log that was sent. The entries of a log that was sent are in the log of
the leader of their term, and that is the log of the leader itself when it was elected or called
`Start`. So the invariant is about the logs of all terms (`Stemming`), also of those whose leader
has long lost its log to another one. -/

namespace AiFS

open TermLog

variable {n : ℕ} {κ : Type} {as bs : List (Action n κ)} {a : Action n κ} {c c' : Cluster n κ}
  {p p' : Hist n κ}

/-! ## What a step does to a log -/

inductive LogMove (c : Cluster n κ) (p : Hist n κ) (v : Fin n) :
    Action n κ → List (LogEntry κ) → Prop
  | same {a : Action n κ} : LogMove c p v a (c.rf v).fullLog
  | started {command : Option κ} {i t : ℕ} (h : ((c.rf v).start command).2 = some (i, t)) :
      LogMove c p v (.start v command) ((c.rf v).fullLog ++ [⟨t, command⟩])
  | merged {a : Action n κ} {M : List (LogEntry κ)} (hM : Backed LogEntry.term p M) :
      LogMove c p v a (merge (c.rf v).fullLog M)

theorem LogMove.of_eq {v : Fin n} {L : List (LogEntry κ)} (h : L = (c.rf v).fullLog) :
    LogMove c p v a L :=
  h ▸ .same

namespace Raft

variable {rf rf' : Raft n κ}

theorem requestVote_fullLog {args : RequestVoteArgs n} {reply : RequestVoteReply} (hwf : rf.WF)
    (h : rf.requestVote args = some (rf', reply)) : rf'.fullLog = rf.fullLog := by
  rcases requestVote_spec hwf h with ⟨rfl, _⟩ | ⟨_, _, _, rfl⟩
  · exact seeTerm_fullLog _ _
  · exact seeTerm_fullLog rf args.term

theorem make_fullLog (h : rf.Mirrored) : (make rf.me rf.persister).fullLog = rf.fullLog := by
  rw [make_of_mirrored h]
  rfl

end Raft

/-- No goroutine's stretch changes the log. -/
theorem runTask_fullLog {nd nd' : Node n κ} {t : Task n} {ps : List (Packet n κ)}
    (h : nd.runTask t = some (nd', ps)) (hwf : nd.rf.WF) : nd'.rf.fullLog = nd.rf.fullLog := by
  cases runTask_stretch h with
  | startElection hse =>
      obtain ⟨rfl, -⟩ := Raft.startElection_spec hwf hse
      rfl
  | @becomeLeader T r =>
      rcases Raft.becomeLeader_cases nd.rf T with heq | ⟨_, _, next, heq⟩
      · simp [heq, Node.spawn]
      · rw [heq]
        rfl
  | checkReplyTerm => exact Raft.seeTerm_fullLog _ _
  | _ => rfl

theorem Move.logMove {v : Fin n} {nd : Node n κ} (hsim : Sim False c p) (hm : Move c a v nd) :
    LogMove c p v a nd.rf.fullLog := by
  have hrel := (hsim.server v).raft
  have hwf := hrel.wf
  have hbacked : Backed LogEntry.term p (c.rf v).fullLog := hrel.log ▸ (hsim.inv.logs v).1
  cases hm with
  | tick h => exact .same
  | run ht h =>
      have hfull := runTask_fullLog h hwf
      exact .of_eq hfull
  | requestVote hk h => exact .of_eq (Raft.requestVote_fullLog hwf h)
  | @requestVoteReply k src dst ep args reply rf votes won hk h =>
      rcases Raft.requestVoteReply_cases (c.rf v) ((c.node v).votes args.term) args.term reply with
        ⟨_, heq⟩ | ⟨_, _, _, _, heq⟩ | ⟨_, _, heq⟩
      · obtain rfl : c.rf v = rf := (Prod.mk.inj (heq.symm.trans h)).1
        exact .same
      · obtain rfl : c.rf v = rf := (Prod.mk.inj (heq.symm.trans h)).1
        exact .same
      · obtain rfl : (c.rf v).seeTerm reply.term = rf := (Prod.mk.inj (heq.symm.trans h)).1
        exact .of_eq (Raft.seeTerm_fullLog _ _)
  | appendEntries hk h =>
      obtain ⟨M, hM, hprev, hterm, hent, _⟩ := hsim.packets _ (List.mem_of_getElem? hk)
      rcases Raft.appendEntries_spec hwf hbacked hM.backed hprev hterm hent h with
        ⟨_, rfl, _⟩ | ⟨_, rfl, _⟩ | ⟨_, hmerged, _⟩
      · exact .same
      · exact .of_eq (Raft.follow_fullLog _ _)
      · rw [hmerged.fullLog]
        exact .merged hM.backed
  | appendEntriesReply hk hep h =>
      rcases Raft.appendEntriesReply_spec h with
        ⟨_, _, rfl, _⟩ | ⟨_, rfl, _⟩ | ⟨_, _, _, _, _, _, rfl, _⟩
      · exact .same
      · exact .same
      · exact .same
  | @installSnapshot k src dst ep args hk =>
      obtain ⟨hM, hlen, hterm, _⟩ := hsim.packets _ (List.mem_of_getElem? hk)
      rcases Raft.installSnapshot_spec hwf hbacked hM.backed hlen hterm with
        ⟨_, heq⟩ | ⟨_, _, heq⟩ | ⟨_, _, rf, heq, hmerged, _⟩
      · exact .of_eq (by rw [heq])
      · exact .of_eq (by rw [heq]; exact Raft.follow_fullLog _ _)
      · rw [heq]
        show LogMove c p v _ rf.fullLog
        rw [hmerged.fullLog]
        exact .merged hM.backed
  | @installSnapshotReply k src dst ep args reply hk hep =>
      rcases Raft.installSnapshotReply_cases (c.rf v) dst args reply with
        ⟨_, heq⟩ | heq | ⟨_, _, _, next, heq⟩
      · exact .of_eq (by rw [heq]; rfl)
      · exact .of_eq (by rw [heq])
      · exact .of_eq (by rw [heq]; rfl)
  | staleReply => exact .same
  | @start s command =>
      by_cases hlead : (c.rf v).state = Role.leader
      · have hfull := Raft.start_fullLog hwf hlead command
        have hplace : ((c.rf v).start command).2 =
            some ((c.rf v).lastLogicalIndex + 1, (c.rf v).currTerm) := by
          simp [Raft.start, hlead]
        show LogMove c p v _ ((c.rf v).start command).1.fullLog
        rw [hfull]
        exact .started hplace
      · exact .of_eq (by simp [Node.spawn, Raft.start, hlead])
  | snapshot h =>
      rcases Raft.snapshot_spec hwf h with rfl | ⟨_, _, _, _, hfull, _⟩
      · exact .same
      · exact .of_eq hfull
  | apply hidle h =>
      obtain ⟨_, rfl, _⟩ := Raft.sendApplyMsg_spec h
      exact .same
  | receive => exact .same
  | crash =>
      have hmake := Raft.make_fullLog hrel.mirrored
      rw [hrel.me] at hmake
      exact .of_eq hmake
  | @crashMid k dst term hk h =>
      have hmake := Raft.make_fullLog (Or.inl rfl : ((c.rf v).stepDown term).Mirrored)
      rw [show ((c.rf v).stepDown term).me = v from hrel.me] at hmake
      exact .of_eq hmake

/-! ## Calls of `Start` -/

/-- The `k`-th step of a run is a call of `Start` that returns the place `(i, t)`. -/
def Proposal (as : List (Action n κ)) (k : ℕ) (command : Option κ) (i t : ℕ) : Prop :=
  ∃ s d, as[k]? = some (.start s command) ∧ Cluster.exec (as.take k) = some d ∧
    ((d.rf s).start command).2 = some (i, t)

theorem Proposal.append {k : ℕ} {command : Option κ} {i t : ℕ} (h : Proposal as k command i t)
    (bs : List (Action n κ)) : Proposal (as ++ bs) k command i t := by
  obtain ⟨s, d, hk, hd, hplace⟩ := h
  have hlt : k < as.length := (List.getElem?_eq_some_iff.1 hk).1
  refine ⟨s, d, ?_, ?_, hplace⟩
  · rw [List.getElem?_append_left hlt]
    exact hk
  · rw [List.take_append_of_le_length hlt.le]
    exact hd

theorem Proposal.lt_length {k : ℕ} {command : Option κ} {i t : ℕ}
    (h : Proposal as k command i t) : k < as.length := by
  obtain ⟨s, d, hk, -⟩ := h
  exact (List.getElem?_eq_some_iff.1 hk).1

/-- The run up to a later step has the same call. -/
theorem Proposal.take {k m : ℕ} {command : Option κ} {i t : ℕ} (h : Proposal as k command i t)
    (hlt : k < m) : Proposal (as.take m) k command i t := by
  obtain ⟨s, d, hk, hd, hplace⟩ := h
  refine ⟨s, d, ?_, ?_, hplace⟩
  · rw [List.getElem?_take, if_pos hlt]
    exact hk
  · rw [List.take_take, min_eq_left hlt.le]
    exact hd

/-- The run from the call on. -/
theorem Proposal.rest {k : ℕ} {command : Option κ} {i t : ℕ} (h : Proposal as k command i t)
    (hrun : Cluster.exec as = some c) : ∃ s d, Cluster.exec (as.take k) = some d ∧
      ((d.rf s).start command).2 = some (i, t) ∧
      Machine.exec Cluster.step d (.start s command :: as.drop (k + 1)) = some c := by
  obtain ⟨s, d, hk, hd, hplace⟩ := h
  refine ⟨s, d, hd, hplace, ?_⟩
  obtain ⟨hlt, hget⟩ := List.getElem?_eq_some_iff.1 hk
  have hbefore : Machine.exec Cluster.step (Cluster.init n κ) (as.take k) = some d := hd
  rw [Cluster.exec, ← List.take_append_drop k as, Machine.exec_append, hbefore,
    List.drop_eq_getElem_cons hlt, hget] at hrun
  exact hrun

/-- A call of the run with one more step is one of the run, or the last step. -/
theorem Proposal.of_concat {k : ℕ} {command : Option κ} {i t : ℕ}
    (h : Proposal (as ++ [a]) k command i t) (hrun : Cluster.exec as = some c) :
    Proposal as k command i t ∨
      k = as.length ∧ ∃ s, a = .start s command ∧ ((c.rf s).start command).2 = some (i, t) := by
  obtain ⟨s, d, hk, hd, hplace⟩ := h
  rcases Pool.getElem?_concat_cases hk with hold | ⟨rfl, ha⟩
  · refine Or.inl ⟨s, d, hold, ?_, hplace⟩
    rwa [List.take_append_of_le_length (List.getElem?_eq_some_iff.1 hold).1.le] at hd
  · rw [List.take_left] at hd
    obtain rfl : c = d := Option.some.inj (hrun.symm.trans hd)
    exact Or.inr ⟨rfl, s, ha.symm, hplace⟩

/-- Whoever leads the term of a place has the command there. -/
theorem Proposal.at_leader {k : ℕ} {command : Option κ} {i t : ℕ} (h : Proposal as k command i t)
    (hrun : Cluster.exec as = some c) {l : Fin n} (hlead : (c.rf l).state = Role.leader)
    (hterm : (c.rf l).currTerm = t) : 0 < i ∧ (c.rf l).fullLog[i - 1]? = some ⟨t, command⟩ := by
  obtain ⟨s, d, hd, hplace, hrest⟩ := h.rest hrun
  exact place_at_leader hd hplace hrest hlead hterm

/-- A place is not given away twice. -/
theorem Proposal.le {k k' : ℕ} {command command' : Option κ} {i t : ℕ}
    (h : Proposal as k command i t) (h' : Proposal as k' command' i t) : k' ≤ k := by
  by_contra hnot
  obtain ⟨s', d', hk', hd', hplace'⟩ := h'
  obtain ⟨p, hsim⟩ := sim_reachable hd'
  obtain ⟨hlead, hterm, hi⟩ := Raft.start_returns (hsim.server s').raft.wf hplace'
  -- the leader that gives it away the second time has the first command there
  obtain ⟨_, hat⟩ := (h.take (not_le.1 hnot)).at_leader hd' hlead hterm
  have hlt := (List.getElem?_eq_some_iff.1 hat).1
  omega

theorem Proposal.unique {k k' : ℕ} {command command' : Option κ} {i t : ℕ}
    (h : Proposal as k command i t) (h' : Proposal as k' command' i t) : k = k' :=
  le_antisymm (h'.le h) (h.le h')

/-- In a log that has entries of their terms at two places, the places are in the order of the calls
    that returned them. -/
theorem Proposal.lt_of_lt {k k' : ℕ} {command command' : Option κ} {i t i' t' : ℕ}
    (h : Proposal as k command i t) (h' : Proposal as k' command' i' t')
    (hrun : Cluster.exec as = some c) {r : Fin n} {e e' : LogEntry κ}
    (he : (c.rf r).fullLog[i - 1]? = some e) (hterm : e.term = t)
    (he' : (c.rf r).fullLog[i' - 1]? = some e') (hterm' : e'.term = t') (hlt : i < i') :
    k < k' := by
  by_contra hnot
  rcases (not_lt.1 hnot).eq_or_lt with rfl | hback
  · -- one call returns one place
    obtain ⟨s, d, hk, hd, hplace⟩ := h
    obtain ⟨s', d', hk', hd', hplace'⟩ := h'
    obtain rfl : d = d' := Option.some.inj (hd.symm.trans hd')
    obtain ⟨rfl, rfl⟩ := Action.start.inj (Option.some.inj (hk.symm.trans hk'))
    have hsame := (Prod.mk.inj (Option.some.inj (hplace.symm.trans hplace'))).1
    omega
  · obtain ⟨s, d, hd, hplace, hrest⟩ := h.rest hrun
    obtain ⟨s', d', hd', hplace', hrest'⟩ := (h'.take hback).rest hd
    have hother := place_lt_place hd' hplace' hrest' hplace hrest he' hterm' he hterm
    omega

/-! ## The origin of entries -/

/-- Every entry of the log of a term stems from a call of `Start`. -/
def Stemming (as : List (Action n κ)) (p : Hist n κ) : Prop :=
  ∀ T j e, (p.leaderLog T)[j]? = some e → ∃ k, Proposal as k e.command (j + 1) e.term

theorem Stemming.backed {L : List (LogEntry κ)} {j : ℕ} {e : LogEntry κ} (h : Stemming as p)
    (hL : Backed LogEntry.term p L) (he : L[j]? = some e) :
    ∃ k, Proposal as k e.command (j + 1) e.term := by
  refine h e.term j e (getElem?_of_isPrefix (hL.take_prefix he).2 ?_)
  rw [List.getElem?_take, if_pos j.lt_succ_self]
  exact he

theorem Stemming.logMove {v : Fin n} {L : List (LogEntry κ)} {j : ℕ} {e : LogEntry κ}
    (hrun : Cluster.exec as = some c) (hsim : Sim False c p) (h : Stemming as p)
    (hm : LogMove c p v a L) (he : L[j]? = some e) :
    ∃ k, Proposal (as ++ [a]) k e.command (j + 1) e.term := by
  have hbacked : Backed LogEntry.term p (c.rf v).fullLog :=
    (hsim.server v).raft.log ▸ (hsim.inv.logs v).1
  have hold : ∀ {M : List (LogEntry κ)}, Backed LogEntry.term p M → M[j]? = some e →
      ∃ k, Proposal (as ++ [a]) k e.command (j + 1) e.term := by
    intro M hM hj
    obtain ⟨k, hk⟩ := h.backed hM hj
    exact ⟨k, hk.append [a]⟩
  cases hm with
  | same => exact hold hbacked he
  | merged hM => exact hold (hbacked.merge hM) he
  | @started command i t hplace =>
      rcases Pool.getElem?_concat_cases he with hj | ⟨rfl, rfl⟩
      · exact hold hbacked hj
      · obtain ⟨_, _, rfl⟩ := Raft.start_returns (hsim.server v).raft.wf hplace
        refine ⟨as.length, v, c, ?_, ?_, hplace⟩
        · simp
        · simpa using hrun

/-- A run keeps a history whose logs stem from its calls of `Start`. -/
theorem exists_stemming (h : Cluster.exec as = some c) : ∃ p, Sim False c p ∧ Stemming as p := by
  induction as using List.reverseRecOn generalizing c with
  | nil =>
      obtain rfl := Option.some.inj h
      exact ⟨_, sim_init False, fun T j e he => by simp [Proto.init] at he⟩
  | append_singleton as a ih =>
      obtain ⟨d, hd, hstep⟩ := Machine.exec_concat h
      obtain ⟨p, hsim, hstem⟩ := ih hd
      obtain ⟨p', hfollows, hsim'⟩ := sim_step hsim (fun hno => hno.elim) hstep
      have hold : ∀ T j e, (p.leaderLog T)[j]? = some e →
          ∃ k, Proposal (as ++ [a]) k e.command (j + 1) e.term := by
        intro T j e he
        obtain ⟨k, hk⟩ := hstem T j e he
        exact ⟨k, hk.append [a]⟩
      refine ⟨p', hsim', fun T j e he => ?_⟩
      rcases hfollows with rfl | ⟨v, hs⟩
      · exact hold T j e he
      · rcases hs.leaderLog_cases T with heq | heq
        · exact hold T j e (heq ▸ he)
        · rw [heq, (hsim'.server v).raft.log] at he
          rcases step_node hstep v with hsame | hm
          · exact hstem.logMove hd hsim (.of_eq (a := a) (by rw [Cluster.rf, hsame]; rfl)) he
          · exact hstem.logMove hd hsim (hm.logMove hsim) he

theorem exists_proposal (h : Cluster.exec as = some c) {s : Fin n} {j : ℕ} {e : LogEntry κ}
    (he : (c.rf s).fullLog[j]? = some e) : ∃ k, Proposal as k e.command (j + 1) e.term := by
  obtain ⟨p, hsim, hstem⟩ := exists_stemming h
  exact hstem.backed ((hsim.server s).raft.log ▸ (hsim.inv.logs s).1) he

/-- **Validity.** Whatever a server has in its log, compacted or not, was passed to exactly one call
    of `Start`, which returned the index and the term of the entry. -/
theorem entry_proposed_once (h : Cluster.exec as = some c) {s : Fin n} {j : ℕ} {e : LogEntry κ}
    (he : (c.rf s).fullLog[j]? = some e) : ∃! k, Proposal as k e.command (j + 1) e.term := by
  obtain ⟨k, hk⟩ := exists_proposal h he
  exact ⟨k, hk, fun _ hk' => hk'.unique hk⟩

/-- Server `1` has the command of leader `0`, and has taken over from it. -/
def handedOver : List (Action 3 ℕ) :=
  electRun ++ .start 0 (some 7) :: handOver

theorem entry_proposed_once_handedOver : ∃ c : Cluster 3 ℕ, Cluster.exec handedOver = some c ∧
    (c.rf 1).fullLog[0]? = some ⟨1, some 7⟩ ∧ ∃! k, Proposal handedOver k (some 7) 1 1 := by
  have hrun : (Cluster.exec handedOver).map
      (fun c => ((c.rf 1).fullLog[0]?).map fun e => (e.term, e.command)) =
      some (some (1, some 7)) := by decide
  obtain ⟨c, hc, hval⟩ := Option.map_eq_some_iff.1 hrun
  obtain ⟨e, he, hentry⟩ := Option.map_eq_some_iff.1 hval
  obtain ⟨hterm, hcommand⟩ := Prod.mk.inj hentry
  obtain rfl : e = ⟨1, some 7⟩ := by rw [← hterm, ← hcommand]
  exact ⟨c, hc, he, entry_proposed_once hc he⟩

end AiFS
