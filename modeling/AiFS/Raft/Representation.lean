import AiFS.Raft.Durability

set_option autoImplicit false

/-! # The representation of the log

`logs` starts with an entry that stands for everything compacted: its term is `lastIncludedTerm`,
and index `i` of the log is at position `i - lastIncludedIndex`. Every index computation of the
source, and the search for the first entry of a conflicting term, rest on what `Represented` says
of a server. It holds whatever the servers do to each other: the order of the terms comes from the
protocol (every log is backed by logs of leaders), the order of the indices from the few stretches
that move them (`Delivery`). -/

namespace AiFS

open TermLog

variable {n : ℕ} {κ : Type} {as bs : List (Action n κ)} {a : Action n κ} {c c' : Cluster n κ}

structure Raft.Represented (rf : Raft n κ) : Prop where
  nonempty : rf.logs ≠ []
  head : (rf.logs.head?).map LogEntry.term = some rf.lastIncludedTerm
  sorted : rf.logs.Pairwise (fun e e' => e.term ≤ e'.term)
  term_le : ∀ e ∈ rf.logs, e.term ≤ rf.currTerm
  included_le : rf.lastIncludedIndex ≤ rf.lastApplied

/-- What never decreases while a server runs. -/
structure Raft.Advanced (rf rf' : Raft n κ) : Prop where
  currTerm : rf.currTerm ≤ rf'.currTerm
  lastIncludedIndex : rf.lastIncludedIndex ≤ rf'.lastIncludedIndex
  lastApplied : rf.lastApplied ≤ rf'.lastApplied

/-! ## Terms -/

section Terms

variable {rf : Raft n κ} {p : Hist n κ} {s : Fin n}

/-- The entry at the head of `logs` is not newer than any entry behind it. -/
theorem RaftRel.included_term_le (hinv : p.Inv LogEntry.term) (h : RaftRel p s rf) :
    ∀ e ∈ rf.logs.tail, rf.lastIncludedTerm ≤ e.term := by
  intro e he
  have hbacked : Backed LogEntry.term p rf.fullLog := h.log ▸ (hinv.logs s).1
  have hsorted := hinv.sorted_of_backed hbacked
  rw [h.wf.covers_term]
  rcases List.eq_nil_or_concat' rf.covers with hnil | ⟨P, x, hcovers⟩
  · rw [hnil, lastTerm_nil]
    exact Nat.zero_le _
  · rw [hcovers, lastTerm_concat]
    exact (List.pairwise_append.1 hsorted).2.2 x (by simp [hcovers]) e he

theorem RaftRel.included_term_le_currTerm (hinv : p.Inv LogEntry.term) (h : RaftRel p s rf) :
    rf.lastIncludedTerm ≤ rf.currTerm := by
  rw [h.wf.covers_term]
  rcases List.eq_nil_or_concat' rf.covers with hnil | ⟨P, x, hcovers⟩
  · rw [hnil, lastTerm_nil]
    exact Nat.zero_le _
  · rw [hcovers, lastTerm_concat, ← h.term]
    refine (hinv.logs s).2 x ?_
    rw [h.log, Raft.fullLog, hcovers]
    simp

/-- The terms of a log, its head entry included, are in order and not above the server's. -/
theorem RaftRel.sorted_logs (hinv : p.Inv LogEntry.term) (h : RaftRel p s rf) :
    rf.logs.Pairwise (fun e e' => e.term ≤ e'.term) ∧ ∀ e ∈ rf.logs, e.term ≤ rf.currTerm := by
  obtain ⟨head, hlogs, hhead⟩ := h.wf.logs_eq
  have hbacked : Backed LogEntry.term p rf.fullLog := h.log ▸ (hinv.logs s).1
  rw [hlogs]
  constructor
  · refine List.pairwise_cons.2 ⟨fun e he => ?_, ?_⟩
    · rw [hhead]
      exact h.included_term_le hinv e he
    · exact (List.pairwise_append.1 (hinv.sorted_of_backed hbacked)).2.1
  · intro e he
    rcases List.mem_cons.1 he with rfl | htail
    · rw [hhead]
      exact h.included_term_le_currTerm hinv
    · rw [← h.term]
      refine (hinv.logs s).2 e ?_
      rw [h.log]
      exact List.mem_append_right _ htail

end Terms

/-! ## Indices -/

section Indices

variable {v : Fin n} {nd : Node n κ}

theorem Delivery.included_le (hd : Delivery c a v nd)
    (h : (c.rf v).lastIncludedIndex ≤ (c.rf v).lastApplied) :
    nd.rf.lastIncludedIndex ≤ nd.rf.lastApplied := by
  show nd.view.lastIncludedIndex ≤ nd.view.lastApplied
  cases hd with
  | quiet _ _ hview =>
      rw [hview]
      exact h
  | installed _ _ _ hview =>
      rw [hview]
      exact le_max_left _ _
  | compacted _ _ _ hview =>
      rw [hview]
      exact le_max_left _ _
  | applied _ _ _ _ hview =>
      rw [hview]
      exact h.trans (Nat.le_succ _)
  | received _ hview =>
      rw [hview]
      exact h
  | restarted _ hview =>
      rw [hview]
      exact le_rfl

theorem Delivery.advance (hd : Delivery c a v nd) (hup : c.restarts a ≠ some v) :
    (c.rf v).lastIncludedIndex ≤ nd.rf.lastIncludedIndex ∧
      (c.rf v).lastApplied ≤ nd.rf.lastApplied := by
  show _ ≤ nd.view.lastIncludedIndex ∧ _ ≤ nd.view.lastApplied
  cases hd with
  | quiet _ _ hview =>
      rw [hview]
      exact ⟨le_rfl, le_rfl⟩
  | installed _ _ hlt hview =>
      rw [hview]
      exact ⟨hlt.le, le_max_right _ _⟩
  | compacted _ hlt _ hview =>
      rw [hview]
      exact ⟨hlt.le, le_max_right _ _⟩
  | applied _ _ _ _ hview =>
      rw [hview]
      exact ⟨le_rfl, Nat.le_succ _⟩
  | received _ hview =>
      rw [hview]
      exact ⟨le_rfl, le_rfl⟩
  | restarted hs _ => exact absurd hs hup

end Indices

/-! ## Runs -/

/-- **Run lemma.** No server has compacted more than it has handed to its service. -/
theorem included_le_exec (h : Cluster.exec as = some c) (s : Fin n) :
    (c.rf s).lastIncludedIndex ≤ (c.rf s).lastApplied := by
  induction as using List.reverseRecOn generalizing c with
  | nil =>
      obtain rfl := Option.some.inj h
      exact le_rfl
  | append_singleton as a ih =>
      obtain ⟨d, hd, hstep⟩ := Machine.exec_concat h
      obtain ⟨p, hsim⟩ := sim_reachable hd
      rcases step_delivery hsim hstep s with ⟨hsame, _⟩ | hdel
      · rw [Cluster.rf, hsame]
        exact ih hd
      · exact hdel.included_le (ih hd)

/-- **Step lemma.** Only a restart takes something back. -/
theorem advanced_step {p : Hist n κ} (hsim : Sim False c p) (hstep : c.step a = some c')
    {s : Fin n} (hup : c.restarts a ≠ some s) : Raft.Advanced (c.rf s) (c'.rf s) := by
  have hterm : (c.rf s).currTerm ≤ (c'.rf s).currTerm := by
    obtain ⟨p', hfollows, hsim'⟩ := sim_step hsim (fun hno => hno.elim) hstep
    rw [← (hsim.server s).raft.term, ← (hsim'.server s).raft.term]
    exact (hfollows.grows hsim.inv).term s
  rcases step_delivery hsim hstep s with ⟨hsame, _⟩ | hdel
  · rw [Cluster.rf, Cluster.rf, hsame]
    exact ⟨le_rfl, le_rfl, le_rfl⟩
  · obtain ⟨hidx, happ⟩ := hdel.advance hup
    exact ⟨hterm, hidx, happ⟩

/-- **Run lemma.** -/
theorem advanced_exec {p : Hist n κ} {s : Fin n} (hsim : Sim False c p)
    (hup : Machine.Along Cluster.step (fun c a => c.restarts a ≠ some s) c bs)
    (h : Machine.exec Cluster.step c bs = some c') : Raft.Advanced (c.rf s) (c'.rf s) := by
  have hinv : (∃ p, Sim False c' p) ∧ Raft.Advanced (c.rf s) (c'.rf s) := by
    refine Machine.invariant_exec
      (I := fun d => (∃ p, Sim False d p) ∧ Raft.Advanced (c.rf s) (d.rf s)) ?_ bs c c'
      ⟨⟨p, hsim⟩, le_rfl, le_rfl, le_rfl⟩ hup h
    rintro d a d' ⟨⟨q, hq⟩, hadv⟩ hno hstep
    obtain ⟨q', _, hq'⟩ := sim_step hq (fun hfalse => hfalse.elim) hstep
    have hone := advanced_step hq hstep hno
    exact ⟨⟨q', hq'⟩, hadv.currTerm.trans hone.currTerm,
      hadv.lastIncludedIndex.trans hone.lastIncludedIndex,
      hadv.lastApplied.trans hone.lastApplied⟩
  exact hinv.2

/-- **Representation of the log.** In every reachable state the log of every server is
    well-formed, and while the server runs its term and its two indices never decrease. -/
theorem log_represented (h : Cluster.exec as = some c) (s : Fin n) :
    (c.rf s).Represented ∧
      ∀ bs c', Machine.exec Cluster.step c bs = some c' →
        Machine.Along Cluster.step (fun c a => c.restarts a ≠ some s) c bs →
        Raft.Advanced (c.rf s) (c'.rf s) := by
  obtain ⟨p, hsim⟩ := sim_reachable h
  have hrel := (hsim.server s).raft
  obtain ⟨head, hlogs, _⟩ := hrel.wf.logs_eq
  obtain ⟨hsorted, hterm⟩ := hrel.sorted_logs hsim.inv
  refine ⟨?_, fun bs c' hrun hup => advanced_exec hsim hup hrun⟩
  exact
    { nonempty := hlogs ▸ List.cons_ne_nil _ _
      head := hrel.wf.head_term
      sorted := hsorted
      term_le := hterm
      included_le := included_le_exec h s }

/-- After `replicateRun` the leader has compacted an entry that nobody has committed. -/
theorem log_represented_replicateRun : ∃ c, Cluster.exec replicateRun = some c ∧
    (c.rf 0).lastIncludedIndex = 1 ∧ (c.rf 0).commitIndex = 0 ∧ 1 ≤ (c.rf 0).lastApplied := by
  have hrun : (Cluster.exec replicateRun).map
      (fun c => ((c.rf 0).lastIncludedIndex, (c.rf 0).commitIndex)) = some (1, 0) := by decide
  obtain ⟨c, hc, hval⟩ := Option.map_eq_some_iff.1 hrun
  obtain ⟨hidx, hcommit⟩ := Prod.mk.inj hval
  refine ⟨c, hc, hidx, hcommit, ?_⟩
  rw [← hidx]
  exact (log_represented hc 0).1.included_le

end AiFS
