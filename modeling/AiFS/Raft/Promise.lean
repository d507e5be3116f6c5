import AiFS.Raft.AllRuns

set_option autoImplicit false

/-! # What `Start` promises

`Start` on a leader returns the place its command was given: an index and a term. The KV server
keeps that pair while it waits, and goes by `GetState`: as long as the term it reads is still the
one `Start` returned, and its server is still leader, the place is taken to be its own.

Both halves of this hold in all runs. The log of a term is written by the one leader of the term,
and it only grows (`Grows.leaderLog`); so a place in it is given away once, and a server that reads
`(t, true)` has the log of term `t`, whatever it has lost and won in between.

It also gives the order of places in time (`start_order`): a log that holds two commands at the
places `Start` returned for them holds them in the order of the two calls, on whatever servers and
in whatever terms these were. -/

namespace AiFS

open TermLog

variable {n : ℕ} {κ : Type} {as bs : List (Action n κ)} {c c' : Cluster n κ}

namespace Raft

/-- `GetState`: the term, and whether the server believes it is the leader. -/
def getState (rf : Raft n κ) : ℕ × Bool :=
  (rf.currTerm, rf.state = Role.leader)

theorem getState_eq_true {rf : Raft n κ} {t : ℕ} (h : rf.getState = (t, true)) :
    rf.state = Role.leader ∧ rf.currTerm = t := by
  obtain ⟨hterm, hlead⟩ := Prod.mk.inj h
  exact ⟨of_decide_eq_true hlead, hterm⟩

/-- The place `Start` returns is the next one of its server's log. -/
theorem start_returns {rf : Raft n κ} {command : Option κ} {i t : ℕ} (hwf : rf.WF)
    (h : (rf.start command).2 = some (i, t)) :
    rf.state = Role.leader ∧ rf.currTerm = t ∧ i = rf.fullLog.length + 1 := by
  by_cases hlead : rf.state = Role.leader
  · simp only [start, hlead, ne_eq, not_true_eq_false, if_false, Option.some.injEq,
      Prod.mk.injEq] at h
    refine ⟨hlead, h.2, ?_⟩
    rw [← hwf.lastLogicalIndex_eq]
    exact h.1.symm
  · simp [start, hlead] at h

end Raft

/-- After `Start`, the log of the term ends with the command, at the place returned. -/
theorem Sim.started {p p' : Hist n κ} {s : Fin n} {command : Option κ} {i t : ℕ}
    (hsim : Sim False c p) (hsim' : Sim False c' p')
    (hstep : c.step (.start s command) = some c')
    (h : ((c.rf s).start command).2 = some (i, t)) :
    p'.leader t = some s ∧ (p'.leaderLog t).length = i ∧
      (p'.leaderLog t)[i - 1]? = some ⟨t, command⟩ := by
  have hwf := (hsim.server s).raft.wf
  obtain ⟨hlead, hterm, hi⟩ := Raft.start_returns hwf h
  have hrf : c'.rf s = ((c.rf s).start command).1 := by
    simp only [Cluster.step, Option.some.injEq] at hstep
    rw [← hstep]
    simp [Cluster.rf, Cluster.setNode, Node.spawn]
  have hlead' : (c'.rf s).state = Role.leader ∧ (c'.rf s).currTerm = t := by
    rw [hrf]
    simp [Raft.start, hlead, hterm, Raft.persist]
  obtain ⟨hleader, hlog⟩ := (hsim'.server s).raft.lead hlead'.1
  rw [hlead'.2] at hleader
  rw [hlead'.2, hrf, Raft.start_fullLog hwf hlead, hterm] at hlog
  refine ⟨hleader, ?_⟩
  rw [hlog, hi]
  simp

/-- Whoever leads the term of a place that `Start` has returned has the command there. -/
theorem place_at_leader (h : Cluster.exec as = some c) {s : Fin n} {command : Option κ} {i t : ℕ}
    (hstart : ((c.rf s).start command).2 = some (i, t))
    (h' : Machine.exec Cluster.step c (.start s command :: bs) = some c') {l : Fin n}
    (hlead : (c'.rf l).state = Role.leader) (hterm : (c'.rf l).currTerm = t) :
    0 < i ∧ (c'.rf l).fullLog[i - 1]? = some ⟨t, command⟩ := by
  obtain ⟨p, hsim⟩ := sim_reachable h
  obtain ⟨d, hstep, hrest⟩ := Machine.exec_cons h'
  obtain ⟨q, -, hsim₁⟩ := sim_step hsim (fun hno => hno.elim) hstep
  obtain ⟨hleader, hlen, hat⟩ := hsim.started hsim₁ hstep hstart
  obtain ⟨p', g, hsim'⟩ :=
    sim_exec hsim₁ (Machine.along_of_forall (fun _ _ hno => hno.elim) bs d) hrest
  -- its log extends the one of then
  have hext : q.leaderLog t <+: (c'.rf l).fullLog := by
    have hlog := ((hsim'.server l).raft.lead hlead).2
    rw [hterm] at hlog
    rw [← hlog]
    exact g.leaderLog t (by rw [hleader]; rfl)
  have hpos := (List.getElem?_eq_some_iff.1 hat).1
  exact ⟨by omega, getElem?_of_isPrefix hext hat⟩

/-- **The promise of `Start`.** Once `Start` has returned a place, no `Start` on any server returns
    it again; and whenever `GetState` on its server returns the term of the place, with `true`,
    the command is at its index, unless the log has been compacted past it. -/
theorem start_promise (h : Cluster.exec as = some c) {s : Fin n} {command : Option κ} {i t : ℕ}
    (hstart : ((c.rf s).start command).2 = some (i, t))
    (h' : Machine.exec Cluster.step c (.start s command :: bs) = some c') :
    (∀ s' command', ((c'.rf s').start command').2 ≠ some (i, t)) ∧
    ((c'.rf s).getState = (t, true) →
      i ≤ (c'.rf s).lastIncludedIndex ∨ (c'.rf s).entryAt i = some ⟨t, command⟩) := by
  have hrun : Cluster.exec (as ++ .start s command :: bs) = some c' := Machine.exec_trans h h'
  obtain ⟨p', hsim'⟩ := sim_reachable hrun
  constructor
  · intro s' command' hagain
    obtain ⟨hlead, hterm, hi⟩ := Raft.start_returns (hsim'.server s').raft.wf hagain
    obtain ⟨_, hat⟩ := place_at_leader h hstart h' hlead hterm
    have hlt := (List.getElem?_eq_some_iff.1 hat).1
    omega
  · intro hget
    obtain ⟨hlead, hterm⟩ := Raft.getState_eq_true hget
    rcases Nat.lt_or_ge (c'.rf s).lastIncludedIndex i with hlt | hge
    · refine Or.inr ?_
      rw [(hsim'.server s).raft.wf.entryAt_of_lt hlt]
      exact (place_at_leader h hstart h' hlead hterm).2
    · exact Or.inl hge

theorem start_promise_electRun : ∃ c d : Cluster 3 ℕ, Cluster.exec electRun = some c ∧
    Machine.exec Cluster.step c [.start 0 (some 7), .start 0 (some 8)] = some d ∧
    ((c.rf 0).start (some 7)).2 = some (1, 1) ∧ (d.rf 0).entryAt 1 = some ⟨1, some 7⟩ := by
  have hrun : (Cluster.exec (electRun : List (Action 3 ℕ))).map
      (fun c => (((c.rf 0).start (some 7)).2,
        (Machine.exec Cluster.step c [.start 0 (some 7), .start 0 (some 8)]).map
          (fun d => ((d.rf 0).getState, (d.rf 0).lastIncludedIndex)))) =
      some (some (1, 1), some ((1, true), 0)) := by decide
  obtain ⟨c, hc, hval⟩ := Option.map_eq_some_iff.1 hrun
  obtain ⟨hplace, hrest⟩ := Prod.mk.inj hval
  obtain ⟨d, hd, hend⟩ := Option.map_eq_some_iff.1 hrest
  obtain ⟨hget, hidx⟩ := Prod.mk.inj hend
  refine ⟨c, d, hc, hd, hplace, ?_⟩
  rcases (start_promise hc hplace hd).2 hget with hle | hat
  · omega
  · exact hat

/-! ## Places in time -/

/-- The log up to a place that `Start` has returned is the log of its term at that moment, in every
    log that has an entry of the term there. -/
theorem take_place {p q : Hist n κ} {j : ℕ} {L : List (LogEntry κ)} {e : LogEntry κ}
    (g : Grows q p) (hlead : (q.leader e.term).isSome)
    (hlen : (q.leaderLog e.term).length = j + 1) (hL : Backed LogEntry.term p L)
    (he : L[j]? = some e) : L.take (j + 1) = q.leaderLog e.term := by
  have hlength : (L.take (j + 1)).length = (q.leaderLog e.term).length := by
    have hlt := (List.getElem?_eq_some_iff.1 he).1
    rw [List.length_take_of_le hlt, hlen]
  exact (List.prefix_of_prefix_length_le (hL.take_prefix he).2 (g.leaderLog _ hlead)
    hlength.le).eq_of_length hlength

/-- A log that has an entry of the term of a place there has the command that the place was given
    to. -/
theorem command_of_place (h : Cluster.exec as = some c) {s : Fin n} {command : Option κ} {i t : ℕ}
    (hstart : ((c.rf s).start command).2 = some (i, t))
    (h' : Machine.exec Cluster.step c (.start s command :: bs) = some c') {r : Fin n}
    {e : LogEntry κ} (he : (c'.rf r).fullLog[i - 1]? = some e) (hterm : e.term = t) :
    e.command = command := by
  subst hterm
  obtain ⟨p, hsim⟩ := sim_reachable h
  obtain ⟨d, hstep, hrest⟩ := Machine.exec_cons h'
  obtain ⟨q, -, hsim₁⟩ := sim_step hsim (fun hno => hno.elim) hstep
  obtain ⟨hleader, hlen, hat⟩ := hsim.started hsim₁ hstep hstart
  obtain ⟨p', g, hsim'⟩ :=
    sim_exec hsim₁ (Machine.along_of_forall (fun _ _ hno => hno.elim) bs d) hrest
  obtain ⟨_, _, hi⟩ := Raft.start_returns (hsim.server s).raft.wf hstart
  obtain ⟨j, rfl⟩ : ∃ j, i = j + 1 := ⟨_, hi⟩
  rw [Nat.add_sub_cancel] at he hat
  have htake := take_place g (by rw [hleader]; rfl) hlen
    ((hsim'.server r).raft.log ▸ (hsim'.inv.logs r).1) he
  have hget : (c'.rf r).fullLog[j]? = some ⟨e.term, command⟩ := by
    rw [← hat, ← htake, List.getElem?_take, if_pos (by omega)]
  exact congrArg LogEntry.command (Option.some.inj (he.symm.trans hget))

/-- A log that has entries of the terms of two places has the place that was given away first
    before the other. -/
theorem place_lt_place {cs : List (Action n κ)} {d : Cluster n κ} (h : Cluster.exec as = some c)
    {s s' : Fin n} {command command' : Option κ} {i t i' t' : ℕ}
    (hstart : ((c.rf s).start command).2 = some (i, t))
    (h₁ : Machine.exec Cluster.step c (.start s command :: bs) = some c')
    (hstart' : ((c'.rf s').start command').2 = some (i', t'))
    (h₂ : Machine.exec Cluster.step c' (.start s' command' :: cs) = some d) {r : Fin n}
    {e e' : LogEntry κ} (he : (d.rf r).fullLog[i - 1]? = some e) (hterm : e.term = t)
    (he' : (d.rf r).fullLog[i' - 1]? = some e') (hterm' : e'.term = t') : i < i' := by
  subst hterm hterm'
  obtain ⟨p, hsim⟩ := sim_reachable h
  obtain ⟨c₁, hstep, hrest⟩ := Machine.exec_cons h₁
  obtain ⟨q, -, hsim₁⟩ := sim_step hsim (fun hno => hno.elim) hstep
  obtain ⟨hleader, hlen, -⟩ := hsim.started hsim₁ hstep hstart
  obtain ⟨p', g', hsim'⟩ :=
    sim_exec hsim₁ (Machine.along_of_forall (fun _ _ hno => hno.elim) bs c₁) hrest
  obtain ⟨p'', g'', hsim''⟩ :=
    sim_exec hsim' (Machine.along_of_forall (fun _ _ hno => hno.elim) _ c') h₂
  -- both calls returned the next place of a log
  obtain ⟨_, _, hi⟩ := Raft.start_returns (hsim.server s).raft.wf hstart
  obtain ⟨hlead', hnow', hi'⟩ := Raft.start_returns (hsim'.server s').raft.wf hstart'
  obtain ⟨j, rfl⟩ : ∃ j, i = j + 1 := ⟨_, hi⟩
  obtain ⟨j', rfl⟩ : ∃ j', i' = j' + 1 := ⟨_, hi'⟩
  rw [Nat.add_sub_cancel] at he he'
  have htake := take_place (g'.trans g'') (by rw [hleader]; rfl) hlen
    ((hsim''.server r).raft.log ▸ (hsim''.inv.logs r).1) he
  -- otherwise the second place was taken in its term's log when the first one was given away
  by_contra hle
  have hin : (q.leaderLog e.term)[j']? = some e' := by
    rw [← htake, List.getElem?_take, if_pos (by omega)]
    exact he'
  obtain ⟨hsome, hpre⟩ := (hsim₁.inv.leaders _ s hleader).backed.take_prefix hin
  have hbefore := (hpre.trans (g'.leaderLog _ hsome)).length_le
  have hnow := ((hsim'.server s').raft.lead hlead').2
  rw [hnow'] at hnow
  rw [hnow, List.length_take] at hbefore
  omega

/-- **Places in time.** If `Start` returns a place and a later `Start` another one, then a log that
    has entries of the two terms at the two places has the two commands there, the earlier one
    first. -/
theorem start_order {cs : List (Action n κ)} {d : Cluster n κ} (h : Cluster.exec as = some c)
    {s s' : Fin n} {command command' : Option κ} {i t i' t' : ℕ}
    (hstart : ((c.rf s).start command).2 = some (i, t))
    (h₁ : Machine.exec Cluster.step c (.start s command :: bs) = some c')
    (hstart' : ((c'.rf s').start command').2 = some (i', t'))
    (h₂ : Machine.exec Cluster.step c' (.start s' command' :: cs) = some d) {r : Fin n}
    {e e' : LogEntry κ} (he : (d.rf r).fullLog[i - 1]? = some e) (hterm : e.term = t)
    (he' : (d.rf r).fullLog[i' - 1]? = some e') (hterm' : e'.term = t') :
    i < i' ∧ e.command = command ∧ e'.command = command' := by
  have hbetween : Cluster.exec (as ++ .start s command :: bs) = some c' := Machine.exec_trans h h₁
  have hwhole : Machine.exec Cluster.step c
      (.start s command :: (bs ++ .start s' command' :: cs)) = some d := Machine.exec_trans h₁ h₂
  exact ⟨place_lt_place h hstart h₁ hstart' h₂ he hterm he' hterm',
    command_of_place h hstart hwhole he hterm, command_of_place hbetween hstart' h₂ he' hterm'⟩

/-- The command of leader `0` reaches server `1`, which then wins term `2`. -/
def handOver : List (Action 3 ℕ) :=
  [.run 0 2, .run 0 2, .deliver 1, .tick 1, .run 1 0, .deliver 3, .deliver 3, .run 1 0]

theorem start_order_handOver : ∃ c c' d : Cluster 3 ℕ, Cluster.exec electRun = some c ∧
    Machine.exec Cluster.step c (.start 0 (some 7) :: handOver) = some c' ∧
    Machine.exec Cluster.step c' [.start 1 (some 8)] = some d ∧
    ((c.rf 0).start (some 7)).2 = some (1, 1) ∧ ((c'.rf 1).start (some 8)).2 = some (2, 2) ∧
    ((d.rf 1).fullLog[0]?).map LogEntry.command = some (some 7) := by
  have hrun : (Cluster.exec (electRun : List (Action 3 ℕ))).map
      (fun c => (((c.rf 0).start (some 7)).2,
        (Machine.exec Cluster.step c (.start 0 (some 7) :: handOver)).map
          (fun c' => (((c'.rf 1).start (some 8)).2,
            (Machine.exec Cluster.step c' [.start 1 (some 8)]).map
              (fun d => ((d.rf 1).fullLog.map LogEntry.term)))))) =
      some (some (1, 1), some (some (2, 2), some [1, 2])) := by decide
  obtain ⟨c, hc, hval⟩ := Option.map_eq_some_iff.1 hrun
  obtain ⟨hplace, hrest⟩ := Prod.mk.inj hval
  obtain ⟨c', hc', hval'⟩ := Option.map_eq_some_iff.1 hrest
  obtain ⟨hplace', hrest'⟩ := Prod.mk.inj hval'
  obtain ⟨d, hd, hterms⟩ := Option.map_eq_some_iff.1 hrest'
  obtain ⟨e, L, hlog, he, hL⟩ := List.map_eq_cons_iff.1 hterms
  obtain ⟨e', L', rfl, he', _⟩ := List.map_eq_cons_iff.1 hL
  have hfirst : (d.rf 1).fullLog[0]? = some e := by rw [hlog]; rfl
  have hsecond : (d.rf 1).fullLog[1]? = some e' := by rw [hlog]; rfl
  refine ⟨c, c', d, hc, hc', hd, hplace, hplace', ?_⟩
  rw [hfirst, Option.map_some, (start_order hc hplace hc' hplace' hd hfirst he hsecond he').2.1]

end AiFS
