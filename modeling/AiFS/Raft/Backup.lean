import AiFS.Raft.Exchange

set_option autoImplicit false

/-! # Fast back-up

A leader that starts too far up finds the place where a follower's log still agrees by a sequence of
rejected requests. A rejection names the follower's term at the place, and the leader goes down to
behind its own last entry of that term, or to the follower's first one. It may also go up: a
follower that has compacted past the place sends the leader to behind its snapshot.

`BackingUp` collects what holds of the logs of a leader and a follower in a cluster. With it every
rejection lowers `nextIndex`, but for the one on account of the follower's snapshot, and behind that
one the next request is accepted (`exchange_cases`); so the back-up comes to an end. -/

namespace AiFS

namespace Raft

variable {n : ℕ} {κ : Type} {lead foll lead' foll' : Raft n κ} {peer : Fin n}

/-! ## Exchanges -/

/-- How an exchange ends: with a success, with `sendInstallSnapshotToPeers`, or with a rejection
    that moved `nextIndex`. -/
inductive Exchange (n : ℕ) (κ : Type)
  | accepted (foll : Raft n κ)
  | handedOver
  | again (lead foll : Raft n κ)

/-- A goroutine of `makeAppendEntry`, with nothing else happening until it has its reply. -/
def exchange (peer : Fin n) (lead foll : Raft n κ) : Option (Exchange n κ) :=
  if lead.nextIndex peer ≤ lead.lastIncludedIndex then some .handedOver
  else
    match lead.appendEntriesArgs peer with
    | none => none
    | some args =>
        match foll.appendEntries args with
        | none => none
        | some (foll, reply) =>
            if reply.success then some (.accepted foll)
            else
              match lead.appendEntriesReply peer args reply with
              | none => none
              | some (_, true) => some .handedOver
              | some (lead, false) => some (.again lead foll)

/-- At most `k` exchanges, until one is not rejected. -/
def exchanges (peer : Fin n) : ℕ → Raft n κ → Raft n κ → Option (Exchange n κ)
  | 0, lead, foll => some (.again lead foll)
  | k + 1, lead, foll =>
      match exchange peer lead foll with
      | some (.again lead foll) => exchanges peer k lead foll
      | done => done

theorem exchanges_succ (k : ℕ) (h : exchange peer lead foll = some (.again lead' foll')) :
    exchanges peer (k + 1) lead foll = exchanges peer k lead' foll' := by
  simp only [exchanges, h]

/-! ## The two searches -/

theorem conflictSearch_le (rf : Raft n κ) (t i c : ℕ) : rf.conflictSearch t i c ≤ max i c := by
  induction i generalizing c with
  | zero => exact le_max_right _ _
  | succ i ih =>
      rw [conflictSearch]
      split
      · have := ih (i + 1)
        omega
      · exact le_max_right _ _

theorem lt_conflictSearch (rf : Raft n κ) (t i c : ℕ) (h : rf.lastIncludedIndex < c) :
    rf.lastIncludedIndex < rf.conflictSearch t i c := by
  induction i generalizing c with
  | zero => exact h
  | succ i ih =>
      rw [conflictSearch]
      split
      · next hcond => exact ih (i + 1) hcond.1
      · exact h

/-- The follower's first entry of the term lies above its snapshot and not above the place where
    the search starts. -/
theorem conflictSearch_bounds {rf : Raft n κ} {t i : ℕ} (hi : rf.lastIncludedIndex < i)
    (ht : rf.termAt i = some t) :
    rf.lastIncludedIndex < rf.conflictSearch t i 0 ∧ rf.conflictSearch t i 0 ≤ i := by
  refine ⟨?_, by simpa using conflictSearch_le rf t i 0⟩
  cases i with
  | zero => exact absurd hi (by simp)
  | succ i =>
      rw [conflictSearch, if_pos ⟨hi, ht⟩]
      exact lt_conflictSearch rf t i (i + 1) hi

/-- What the leader's search finds is an entry of the term. -/
theorem lastOfTerm_termAt {rf : Raft n κ} {t k next : ℕ} (h : rf.lastOfTerm t k = some next) :
    rf.lastIncludedIndex < next ∧ rf.termAt (next - 1) = some t := by
  induction k with
  | zero => exact absurd h (by simp [lastOfTerm])
  | succ k ih =>
      rw [lastOfTerm] at h
      split at h
      · next hterm =>
          obtain rfl := Option.some.inj h
          refine ⟨by omega, ?_⟩
          rw [termAt, entryAt_of_le (by omega), show k + rf.lastIncludedIndex + 1 - 1 -
            rf.lastIncludedIndex = k by omega]
          obtain ⟨e, he, het⟩ := Option.map_eq_some_iff.1 hterm
          rw [he, Option.map_some]
          exact congrArg some (Int.ofNat_inj.1 het)
      · exact ih h

/-! ## Replies -/

section Replies

variable {args : AppendEntriesArgs n κ} {reply : AppendEntriesReply}

/-- A rejection without a term sends the leader to the index it names. -/
theorem appendEntriesReply_index (hlead : lead.state = Role.leader)
    (hterm : args.term = lead.currTerm) (hreply : reply.term ≤ lead.currTerm)
    (hfail : reply.success = false) (hnone : reply.conflictTerm = -1) :
    lead.appendEntriesReply peer args reply =
      some (lead.setNextIndex peer (max reply.conflictIndex 1), false) := by
  simp [appendEntriesReply, hlead, hterm, not_lt.2 hreply, hfail, hnone]

/-- A rejection with a term hands over to the snapshot, or sends the leader to behind an entry of
    that term, or to the index. -/
theorem appendEntriesReply_term (peer : Fin n) (reply : AppendEntriesReply) {t : ℕ}
    (hlead : lead.state = Role.leader)
    (hterm : args.term = lead.currTerm) (hreply : reply.term ≤ lead.currTerm)
    (hfail : reply.success = false) (hsome : reply.conflictTerm = t) :
    lead.appendEntriesReply peer args reply = some (lead, true) ∨
    ∃ next, lead.appendEntriesReply peer args reply =
        some (lead.setNextIndex peer (max next 1), false) ∧
      (next = reply.conflictIndex ∨
        lead.lastIncludedIndex < next ∧ lead.termAt (next - 1) = some t) := by
  have hne : ¬ ((t : ℤ) = -1) := by omega
  by_cases hlow : reply.conflictIndex < lead.lastIncludedIndex
  · left
    simp [appendEntriesReply, hlead, hterm, not_lt.2 hreply, hfail, hsome, hne, hlow]
  · right
    cases hfound : lead.lastOfTerm t lead.logs.length with
    | none =>
        refine ⟨reply.conflictIndex, ?_, Or.inl rfl⟩
        simp [appendEntriesReply, hlead, hterm, not_lt.2 hreply, hfail, hsome, hne, hlow, hfound]
    | some next =>
        refine ⟨next, ?_, Or.inr (lastOfTerm_termAt hfound)⟩
        simp [appendEntriesReply, hlead, hterm, not_lt.2 hreply, hfail, hsome, hne, hlow, hfound]

end Replies

/-! ## One exchange -/

/-- A leader and a server that follows it, and what holds of their logs in a cluster: log matching;
    the leader has the entries of a term from the follower's first one on, as far as it still holds
    them; the follower's snapshot is of the leader's log. -/
structure BackingUp (peer : Fin n) (lead foll : Raft n κ) : Prop where
  leads : lead.state = Role.leader
  term_le : foll.currTerm ≤ lead.currTerm
  lead_logs : lead.logs ≠ []
  foll_logs : foll.logs ≠ []
  matching : LogsMatch lead foll
  runs : ∀ i j t, lead.lastIncludedIndex ≤ i → i < j → foll.termAt i = some t →
    lead.termAt j = some t → lead.termAt i = some t
  snapshot : lead.lastIncludedIndex ≤ foll.lastIncludedIndex →
    lead.termAt foll.lastIncludedIndex = foll.termAt foll.lastIncludedIndex
  included_le : foll.lastIncludedIndex ≤ lead.lastLogicalIndex
  next_pos : 1 ≤ lead.nextIndex peer
  next_le : lead.nextIndex peer ≤ lead.lastLogicalIndex + 1

/-- A rejection changes nothing but `nextIndex` and the follower's term. -/
theorem BackingUp.again (h : BackingUp peer lead foll) {next : ℕ} (hpos : 1 ≤ next)
    (hle : next ≤ lead.lastLogicalIndex + 1) :
    BackingUp peer (lead.setNextIndex peer next) (foll.follow lead.currTerm) where
  leads := h.leads
  term_le := by
    rw [follow_currTerm]
    exact max_le h.term_le le_rfl
  lead_logs := h.lead_logs
  foll_logs := by
    rw [follow_logs]
    exact h.foll_logs
  matching := h.matching.follow lead.currTerm
  runs i j t hi hij hfoll := by
    rw [follow_termAt] at hfoll
    exact h.runs i j t hi hij hfoll
  snapshot hle := by
    rw [follow_lastIncludedIndex] at hle ⊢
    rw [follow_termAt]
    exact h.snapshot hle
  included_le := by
    rw [follow_lastIncludedIndex]
    exact h.included_le
  next_pos := by
    show 1 ≤ Function.update lead.nextIndex peer next peer
    rwa [Function.update_self]
  next_le := by
    show Function.update lead.nextIndex peer next peer ≤ _
    rwa [Function.update_self]

section Conflicts

variable {prev : ℕ} {t : ℕ} {e : LogEntry κ}

/-- A conflict sends the leader to below the place of the conflict: an entry of the follower's term
    at or behind that place would mean that the leader has that term there itself. -/
theorem BackingUp.next_le_of_conflict (h : BackingUp peer lead foll) {next : ℕ}
    (hprev : lead.lastIncludedIndex ≤ prev) (ht : lead.termAt prev = some t)
    (he : foll.entryAt prev = some e) (hne : t ≠ e.term)
    (hnext : lead.termAt (next - 1) = some e.term) : next ≤ prev := by
  have hfoll : foll.termAt prev = some e.term := by
    rw [termAt, he]
    rfl
  by_contra hgt
  rcases (show prev ≤ next - 1 by omega).eq_or_lt with heq | hlt
  · rw [← heq, ht] at hnext
    exact hne (Option.some.inj hnext)
  · have hrun := h.runs prev (next - 1) e.term hprev hlt hfoll hnext
    rw [ht] at hrun
    exact hne (Option.some.inj hrun)

/-- The logs agree at the follower's snapshot, so a conflict lies above it. -/
theorem BackingUp.included_lt_of_conflict (h : BackingUp peer lead foll)
    (hprev : lead.lastIncludedIndex ≤ prev) (ht : lead.termAt prev = some t)
    (he : foll.entryAt prev = some e) (hne : t ≠ e.term) : foll.lastIncludedIndex < prev := by
  have hlow : foll.lastIncludedIndex ≤ prev := by
    by_contra hlt
    rw [entryAt, if_pos (not_le.1 hlt)] at he
    exact absurd he (by simp)
  rcases hlow.eq_or_lt with heq | hlt
  · have hsnap := h.snapshot (heq ▸ hprev)
    rw [heq, ht, termAt, he] at hsnap
    exact absurd (Option.some.inj hsnap) hne
  · exact hlt

end Conflicts

/-- **One exchange.** It is handed over; it is accepted, and the logs agree; or it is rejected, and
    `nextIndex` gets lower, or is set to behind the follower's snapshot when it was not above it. -/
theorem BackingUp.exchange_cases (h : BackingUp peer lead foll) :
    exchange peer lead foll = some .handedOver ∨
    (∃ foll', exchange peer lead foll = some (.accepted foll') ∧
      foll'.lastIncludedIndex = foll.lastIncludedIndex ∧
      Agree lead foll' lead.lastLogicalIndex) ∨
    ∃ next, exchange peer lead foll =
        some (.again (lead.setNextIndex peer next) (foll.follow lead.currTerm)) ∧
      1 ≤ next ∧ next ≤ lead.lastLogicalIndex + 1 ∧
      (foll.lastIncludedIndex + 1 < lead.nextIndex peer ∧ next < lead.nextIndex peer ∨
        lead.nextIndex peer ≤ foll.lastIncludedIndex ∧ next = foll.lastIncludedIndex + 1) := by
  by_cases hsnap : lead.nextIndex peer ≤ lead.lastIncludedIndex
  · exact Or.inl (if_pos hsnap)
  obtain ⟨args, hargs, hbuilt⟩ := exists_built h.lead_logs (not_le.1 hsnap) h.next_le
  obtain ⟨foll', reply, hreply⟩ := exists_appendEntries h.foll_logs args
  have hnext := hbuilt.next
  have hhigh := hbuilt.high
  have hincluded := h.included_le
  have hlast := lastLogicalIndex_succ h.foll_logs
  have hpos := List.length_pos_iff.2 h.foll_logs
  have haccepted : reply.success = true →
      exchange peer lead foll = some (.accepted foll') := by
    intro hs
    simp [exchange, hsnap, hargs, hreply, hs]
  have hover : reply.success = false →
      lead.appendEntriesReply peer args reply = some (lead, true) →
      exchange peer lead foll = some .handedOver := by
    intro hfail hover
    simp [exchange, hsnap, hargs, hreply, hfail, hover]
  have hagain : ∀ {next : ℕ}, reply.success = false → foll' = foll.follow args.term → 1 ≤ next →
      lead.appendEntriesReply peer args reply =
        some (lead.setNextIndex peer (max next 1), false) →
      exchange peer lead foll =
        some (.again (lead.setNextIndex peer next) (foll.follow lead.currTerm)) := by
    intro next hfail hfoll hpos hmoved
    rw [max_eq_left hpos] at hmoved
    rw [hbuilt.term] at hfoll
    simp [exchange, hsnap, hargs, hreply, hfail, hmoved, hfoll]
  cases appendEntries_reaction hreply with
  | stale hlt => exact absurd hlt (not_lt.2 (h.term_le.trans hbuilt.term.ge))
  | short _ hshort =>
      have hmoved := hagain rfl rfl (Nat.le_add_left 1 _)
        (appendEntriesReply_index h.leads hbuilt.term (Nat.zero_le _) rfl rfl)
      exact Or.inr (Or.inr ⟨_, hmoved, by omega, by omega, Or.inl ⟨by omega, by omega⟩⟩)
  | compacted _ hlow =>
      have hmoved := hagain rfl rfl (Nat.le_add_left 1 _)
        (appendEntriesReply_index h.leads hbuilt.term hbuilt.term.le rfl rfl)
      exact Or.inr (Or.inr ⟨_, hmoved, by omega, by omega, Or.inr ⟨by omega, rfl⟩⟩)
  | @conflict e _ he hne =>
      have hlt := h.included_lt_of_conflict hbuilt.low hbuilt.prev he hne
      have hterm : (foll.follow args.term).termAt args.prevLogIndex = some e.term := by
        rw [follow_termAt, termAt, he]
        rfl
      obtain ⟨hlow, hle⟩ :=
        conflictSearch_bounds (by rwa [follow_lastIncludedIndex]) hterm
      rcases appendEntriesReply_term peer
          { success := false, conflictTerm := e.term
            conflictIndex := (foll.follow args.term).conflictSearch e.term args.prevLogIndex 0 }
          h.leads hbuilt.term (Nat.zero_le _) rfl rfl with
        hsnapshot | ⟨next, hgoes, hfound⟩
      · exact Or.inl (hover rfl hsnapshot)
      · have hbounds : 1 ≤ next ∧ next ≤ args.prevLogIndex := by
          rcases hfound with rfl | ⟨hpos, hat⟩
          · exact ⟨Nat.one_le_of_lt hlow, hle⟩
          · exact ⟨Nat.one_le_of_lt hpos,
              h.next_le_of_conflict hbuilt.low hbuilt.prev he hne hat⟩
        have hmoved := hagain rfl rfl hbounds.1 hgoes
        exact Or.inr (Or.inr ⟨_, hmoved, hbounds.1, by omega, Or.inl ⟨by omega, by omega⟩⟩)
  | @merged e logs _ hlow hhigh' he heq hloop =>
      obtain ⟨_, hagree⟩ :=
        hbuilt.merged_agree h.lead_logs h.foll_logs h.matching hlow hhigh' he heq hloop
      exact Or.inr (Or.inl ⟨_, haccepted rfl, follow_lastIncludedIndex _ _, hagree⟩)

/-! ## The back-up -/

/-- The rejected states of a back-up are again a leader and a follower that can be backed up. -/
theorem BackingUp.exchanges (h : BackingUp peer lead foll) (k : ℕ)
    (hk : exchanges peer k lead foll = some (.again lead' foll')) :
    BackingUp peer lead' foll' ∧ foll'.lastIncludedIndex = foll.lastIncludedIndex := by
  induction k generalizing lead foll with
  | zero =>
      obtain ⟨rfl, rfl⟩ := Exchange.again.inj (Option.some.inj hk)
      exact ⟨h, rfl⟩
  | succ k ih =>
      rcases h.exchange_cases with hdone | ⟨x, hdone, _⟩ | ⟨next, hagain, hpos, hle, _⟩
      · simp [Raft.exchanges, hdone] at hk
      · simp [Raft.exchanges, hdone] at hk
      · rw [exchanges_succ k hagain] at hk
        obtain ⟨hback, hidx⟩ := ih (h.again hpos hle) hk
        exact ⟨hback, hidx.trans (follow_lastIncludedIndex _ _)⟩

/-- The back-up has come to its end: it is handed over, or the logs agree. -/
def BackedUp (peer : Fin n) (lead foll : Raft n κ) (k : ℕ) : Prop :=
  Raft.exchanges peer k lead foll = some .handedOver ∨
  ∃ foll', Raft.exchanges peer k lead foll = some (.accepted foll') ∧
    foll'.lastIncludedIndex = foll.lastIncludedIndex ∧ Agree lead foll' lead.lastLogicalIndex

theorem BackedUp.succ {next k : ℕ}
    (hagain : exchange peer lead foll =
      some (.again (lead.setNextIndex peer next) (foll.follow lead.currTerm)))
    (h : BackedUp peer (lead.setNextIndex peer next) (foll.follow lead.currTerm) k) :
    BackedUp peer lead foll (k + 1) := by
  unfold BackedUp at h ⊢
  rw [exchanges_succ k hagain]
  refine h.imp_right fun ⟨x, hx, hidx, hagree⟩ => ⟨x, hx, ?_, hagree⟩
  exact hidx.trans (follow_lastIncludedIndex _ _)

/-- An exchange that is not rejected ends the back-up. -/
theorem BackedUp.of_exchange (k : ℕ)
    (h : exchange peer lead foll = some .handedOver ∨
      ∃ foll', exchange peer lead foll = some (.accepted foll') ∧
        foll'.lastIncludedIndex = foll.lastIncludedIndex ∧
        Agree lead foll' lead.lastLogicalIndex) : BackedUp peer lead foll (k + 1) := by
  rcases h with hdone | ⟨x, hx, hspec⟩
  · exact Or.inl (by simp only [Raft.exchanges, hdone])
  · exact Or.inr ⟨x, by simp only [Raft.exchanges, hx], hspec⟩

/-- From behind the follower's snapshot it takes one exchange. -/
theorem BackingUp.backedUp_of_next_eq (h : BackingUp peer lead foll)
    (hnext : lead.nextIndex peer = foll.lastIncludedIndex + 1) : BackedUp peer lead foll 1 := by
  refine BackedUp.of_exchange 0 ?_
  rcases h.exchange_cases with hover | haccepted | ⟨next, _, _, _, hmoved⟩
  · exact Or.inl hover
  · exact Or.inr haccepted
  · omega

theorem setNextIndex_self (lead : Raft n κ) (peer : Fin n) (next : ℕ) :
    (lead.setNextIndex peer next).nextIndex peer = next :=
  Function.update_self _ _ _

/-- Every rejection lowers `nextIndex`, until at most one raises it. -/
theorem BackingUp.backedUp (h : BackingUp peer lead foll) :
    ∃ k ≤ lead.nextIndex peer + 1, BackedUp peer lead foll k := by
  -- induction on `nextIndex`
  induction hN : lead.nextIndex peer using Nat.strong_induction_on generalizing lead foll with
  | _ N ih =>
      rcases h.exchange_cases with hover | haccepted | ⟨next, hagain, hpos, hle, hmoved⟩
      · exact ⟨1, by omega, BackedUp.of_exchange 0 (Or.inl hover)⟩
      · exact ⟨1, by omega, BackedUp.of_exchange 0 (Or.inr haccepted)⟩
      · have hback := h.again hpos hle
        have hself := setNextIndex_self lead peer next
        rcases hmoved with ⟨_, hlt⟩ | ⟨_, heq⟩
        · obtain ⟨k, hk, hdone⟩ := ih next (hN ▸ hlt) hback hself
          exact ⟨k + 1, by omega, hdone.succ hagain⟩
        · have hdone := hback.backedUp_of_next_eq (by rw [hself, heq, follow_lastIncludedIndex])
          have hpos := h.next_pos
          exact ⟨2, by omega, hdone.succ hagain⟩

/-- **Fast back-up converges.** After finitely many exchanges a request is accepted, and the
    follower's log agrees with the leader's, or the leader hands over to its snapshot; and every
    rejection that is not on account of the follower's snapshot lowers `nextIndex`. -/
theorem backup_converges (h : BackingUp peer lead foll) :
    (∃ k, Raft.exchanges peer k lead foll = some .handedOver ∨
      ∃ foll', Raft.exchanges peer k lead foll = some (.accepted foll') ∧
        ∀ i ≤ lead.lastLogicalIndex, lead.lastIncludedIndex < i → foll.lastIncludedIndex < i →
          ∃ e, lead.entryAt i = some e ∧ foll'.entryAt i = some e) ∧
    ∀ k lead₁ foll₁ lead₂ foll₂,
      Raft.exchanges peer k lead foll = some (.again lead₁ foll₁) →
      exchange peer lead₁ foll₁ = some (.again lead₂ foll₂) →
      foll.lastIncludedIndex < lead₁.nextIndex peer →
      lead₂.nextIndex peer < lead₁.nextIndex peer := by
  constructor
  · obtain ⟨k, _, hdone⟩ := h.backedUp
    refine ⟨k, hdone.imp_right fun ⟨x, hx, hidx, hagree⟩ => ⟨x, hx, fun i hi hil hif => ?_⟩⟩
    obtain ⟨e, he⟩ := exists_entryAt h.lead_logs hil.le hi
    exact ⟨e, he, (hagree i hi hil (hidx ▸ hif)).trans he⟩
  · intro k lead₁ foll₁ lead₂ foll₂ hk hagain hlt
    obtain ⟨hback, hidx⟩ := h.exchanges k hk
    rcases hback.exchange_cases with hover | ⟨x, hx, _⟩ | ⟨next, hnext, _, _, hmoved⟩
    · exact absurd (hover.symm.trans hagain) (by simp)
    · exact absurd (hx.symm.trans hagain) (by simp)
    · obtain ⟨rfl, _⟩ := Exchange.again.inj (Option.some.inj (hnext.symm.trans hagain))
      rw [setNextIndex_self]
      rw [hidx] at hmoved
      omega

theorem backingUp_forked : BackingUp (Fin.last 0).castSucc (forkedLead 3) forkedFoll where
  leads := rfl
  term_le := by decide
  lead_logs := by decide
  foll_logs := by decide
  matching := logsMatch_forked 3
  runs i j t hi hij hfoll hlead := by
    rcases j with _ | _ | _ | j
    · omega
    · obtain rfl : i = 0 := by omega
      exact absurd (hfoll.trans hlead.symm) (by decide)
    · obtain rfl | rfl : i = 0 ∨ i = 1 := by omega
      · exact absurd (hfoll.trans hlead.symm) (by decide)
      · exact absurd (hfoll.trans hlead.symm) (by decide)
    · exact absurd ((termAt_forkedLead 3 j).symm.trans hlead) (by simp)
  snapshot _ := rfl
  included_le := by decide
  next_pos := by decide
  next_le := by decide

/-- The first request meets the entry of the older term, the second one is accepted. -/
theorem backup_converges_forked :
    (∃ k, exchanges (Fin.last 0).castSucc k (forkedLead 3) forkedFoll = some .handedOver ∨
      ∃ foll', exchanges (Fin.last 0).castSucc k (forkedLead 3) forkedFoll =
          some (.accepted foll') ∧
        ∀ i ≤ 2, 0 < i → 0 < i → ∃ e, (forkedLead 3).entryAt i = some e ∧
          foll'.entryAt i = some e) :=
  (backup_converges backingUp_forked).1

end Raft

end AiFS
