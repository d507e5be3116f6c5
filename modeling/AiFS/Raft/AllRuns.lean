import AiFS.Raft.Simulation

set_option autoImplicit false

/-! # What holds in all runs: one leader a term, and log matching

Both properties are read off the simulation without any discipline: goroutines may send after
their server has stepped down, `matchIndex` may be stale, and the service may compact whatever it
likes. They only rest on votes being persisted and on entries entering a term's log through
`Start` on its leader. -/

namespace AiFS

open TermLog

variable {n : ℕ} {κ : Type} {as bs : List (Action n κ)} {c c' : Cluster n κ}

/-! ## Elections -/

/-- **Election safety.** Two servers that are leader of one term, at the same time or at different
    times of a run, are the same server. -/
theorem election_safety (h : Cluster.exec as = some c)
    (h' : Machine.exec Cluster.step c bs = some c') {s s' : Fin n}
    (hs : (c.rf s).state = Role.leader) (hs' : (c'.rf s').state = Role.leader)
    (hterm : (c.rf s).currTerm = (c'.rf s').currTerm) : s = s' := by
  obtain ⟨p, hsim⟩ := sim_reachable h
  obtain ⟨p', g, hsim'⟩ :=
    sim_exec hsim (Machine.along_of_forall (fun _ _ hno => hno.elim) bs c) h'
  have hlead := g.leader _ _ ((hsim.server s).raft.lead hs).1
  have hlead' := ((hsim'.server s').raft.lead hs').1
  rw [hterm] at hlead
  exact Option.some.inj (hlead.symm.trans hlead')

-- numerals name the servers of a cluster of three
instance threeServers : NeZero 3 :=
  ⟨Nat.succ_ne_zero 2⟩

/-- Server `0` of three stands for election, gets the vote of server `1` and wins term `1`. -/
def electRun : List (Action 3 κ) :=
  [.tick 0, .run 0 0, .deliver 0, .deliver 1, .run 0 0]

theorem election_safety_electRun : ∃ c : Cluster 3 ℕ, Cluster.exec electRun = some c ∧
    ∀ s, (c.rf s).state = Role.leader → (c.rf s).currTerm = 1 → s = 0 := by
  have hrun : (Cluster.exec (electRun : List (Action 3 ℕ))).map
      (fun c => ((c.rf 0).state, (c.rf 0).currTerm)) = some (Role.leader, 1) := by decide
  obtain ⟨c, hc, hval⟩ := Option.map_eq_some_iff.1 hrun
  obtain ⟨hlead, hone⟩ := Prod.mk.inj hval
  exact ⟨c, hc, fun s hs hterm =>
    election_safety hc (show Machine.exec Cluster.step c [] = some c from rfl) hs hlead
      (hterm.trans hone.symm)⟩

/-! ## Logs -/

/-- Two servers that hold entries of one term at one index have the same whole log up to it. -/
theorem take_eq_of_term_eq (h : Cluster.exec as = some c) {s s' : Fin n} {i : ℕ}
    {e e' : LogEntry κ} (hi : (c.rf s).lastIncludedIndex < i)
    (hi' : (c.rf s').lastIncludedIndex < i) (he : (c.rf s).entryAt i = some e)
    (he' : (c.rf s').entryAt i = some e') (hterm : e.term = e'.term) :
    i ≤ (c.rf s).fullLog.length ∧ i ≤ (c.rf s').fullLog.length ∧
      (c.rf s).fullLog.take i = (c.rf s').fullLog.take i := by
  obtain ⟨p, hsim⟩ := sim_reachable h
  -- an entry is the last one of the log up to its index
  have hend : ∀ {r : Fin n} {x : LogEntry κ}, (c.rf r).lastIncludedIndex < i →
      (c.rf r).entryAt i = some x → i ≤ (c.rf r).fullLog.length ∧
        lastTerm LogEntry.term ((c.rf r).fullLog.take i) = x.term := by
    intro r x hr hx
    have hwf := (hsim.server r).raft.wf
    have hle : i ≤ (c.rf r).fullLog.length := by
      rw [hwf.entryAt_of_lt hr] at hx
      have := (List.getElem?_eq_some_iff.1 hx).1
      omega
    obtain ⟨y, hy, hyt⟩ := hwf.entryAt_term hr.le hle
    obtain rfl : x = y := Option.some.inj (hx.symm.trans hy)
    exact ⟨hle, hyt.symm⟩
  have hbacked : ∀ r, Backed LogEntry.term p (c.rf r).fullLog := fun r =>
    (hsim.server r).raft.log ▸ (hsim.inv.logs r).1
  obtain ⟨hle, ht⟩ := hend hi he
  obtain ⟨hle', ht'⟩ := hend hi' he'
  exact ⟨hle, hle', (hbacked s).take_eq (hbacked s') hle hle'
    (ht.trans (hterm.trans ht'.symm))⟩

/-- The term at the end of one server's snapshot is the term another server reads there, if their
    whole logs agree beyond it. -/
theorem lastIncludedTerm_eq (h : Cluster.exec as = some c) {s s' : Fin n} {i : ℕ}
    (hlt : (c.rf s').lastIncludedIndex < (c.rf s).lastIncludedIndex)
    (hi : (c.rf s).lastIncludedIndex < i) (hle : i ≤ (c.rf s').fullLog.length)
    (htake : (c.rf s).fullLog.take i = (c.rf s').fullLog.take i) :
    ((c.rf s').entryAt (c.rf s).lastIncludedIndex).map LogEntry.term =
      some (c.rf s).lastIncludedTerm := by
  obtain ⟨p, hsim⟩ := sim_reachable h
  have hwf := (hsim.server s).raft.wf
  have hwf' := (hsim.server s').raft.wf
  obtain ⟨x, hx, hxt⟩ := hwf'.entryAt_term hlt.le (hi.le.trans hle)
  have hshort : ((c.rf s).fullLog.take (c.rf s).lastIncludedIndex) =
      (c.rf s').fullLog.take (c.rf s).lastIncludedIndex := by
    rw [← min_eq_left hi.le, ← List.take_take, htake, List.take_take]
  rw [hx, Option.map_some, hxt, ← hshort, ← hwf.covers_eq_take, hwf.covers_term]

/-- **Log matching.** Where two servers hold entries of one term, they hold the same entry, the same
    entries below it as far as neither has compacted them, and the term at the end of one server's
    snapshot is the other's term there. -/
theorem log_matching (h : Cluster.exec as = some c) {s s' : Fin n} {i : ℕ} {e e' : LogEntry κ}
    (hi : (c.rf s).lastIncludedIndex < i) (hi' : (c.rf s').lastIncludedIndex < i)
    (he : (c.rf s).entryAt i = some e) (he' : (c.rf s').entryAt i = some e')
    (hterm : e.term = e'.term) :
    e.command = e'.command ∧
    (∀ j, j ≤ i → (c.rf s).lastIncludedIndex < j → (c.rf s').lastIncludedIndex < j →
      ∃ x, (c.rf s).entryAt j = some x ∧ (c.rf s').entryAt j = some x) ∧
    ((c.rf s').lastIncludedIndex < (c.rf s).lastIncludedIndex →
      ((c.rf s').entryAt (c.rf s).lastIncludedIndex).map LogEntry.term =
        some (c.rf s).lastIncludedTerm) ∧
    ((c.rf s).lastIncludedIndex < (c.rf s').lastIncludedIndex →
      ((c.rf s).entryAt (c.rf s').lastIncludedIndex).map LogEntry.term =
        some (c.rf s').lastIncludedTerm) := by
  obtain ⟨hle, hle', htake⟩ := take_eq_of_term_eq h hi hi' he he' hterm
  obtain ⟨p, hsim⟩ := sim_reachable h
  have hsame : ∀ j, j ≤ i → (c.rf s).lastIncludedIndex < j → (c.rf s').lastIncludedIndex < j →
      ∃ x, (c.rf s).entryAt j = some x ∧ (c.rf s').entryAt j = some x := by
    intro j hj hjs hjs'
    have hlt : j - 1 < (c.rf s).fullLog.length := by omega
    refine ⟨(c.rf s).fullLog[j - 1], ?_, ?_⟩
    · rw [(hsim.server s).raft.wf.entryAt_of_lt hjs, List.getElem?_eq_getElem hlt]
    · have hget := congrArg (fun L => L[j - 1]?) htake
      simp only [List.getElem?_take, if_pos (show j - 1 < i by omega)] at hget
      rw [(hsim.server s').raft.wf.entryAt_of_lt hjs', ← hget, List.getElem?_eq_getElem hlt]
  refine ⟨?_, hsame, fun hlt => lastIncludedTerm_eq h hlt hi hle' htake,
    fun hlt => lastIncludedTerm_eq h hlt hi' hle htake.symm⟩
  obtain ⟨x, hx, hx'⟩ := hsame i le_rfl hi hi'
  obtain rfl : e = x := Option.some.inj (he.symm.trans hx)
  obtain rfl : e' = e := Option.some.inj (he'.symm.trans hx')
  rfl

/-- The leader of `electRun` replicates two commands to server `1` and compacts the first. -/
def replicateRun : List (Action 3 ℕ) :=
  electRun ++ ([.start 0 (some 7), .start 0 (some 8), .run 0 2, .run 0 3, .deliver 1,
    .snapshot 0 1 []] : List (Action 3 ℕ))

theorem log_matching_replicateRun : ∃ c, Cluster.exec replicateRun = some c ∧
    (c.rf 1).lastIncludedIndex < (c.rf 0).lastIncludedIndex ∧
    ((c.rf 1).entryAt (c.rf 0).lastIncludedIndex).map LogEntry.term =
      some (c.rf 0).lastIncludedTerm := by
  have hrun : (Cluster.exec replicateRun).map (fun c => (((c.rf 0).lastIncludedIndex,
      (c.rf 1).lastIncludedIndex), ((c.rf 0).entryAt 2, (c.rf 1).entryAt 2))) =
      some ((1, 0), (some ⟨1, some 8⟩, some ⟨1, some 8⟩)) := by decide
  obtain ⟨c, hc, hval⟩ := Option.map_eq_some_iff.1 hrun
  obtain ⟨hidx, hent⟩ := Prod.mk.inj hval
  obtain ⟨h0, h1⟩ := Prod.mk.inj hidx
  obtain ⟨he0, he1⟩ := Prod.mk.inj hent
  have hlt : (c.rf 1).lastIncludedIndex < (c.rf 0).lastIncludedIndex := by omega
  exact ⟨c, hc, hlt, (log_matching hc (by omega) (by omega) he0 he1 rfl).2.2.1 hlt⟩

end AiFS
