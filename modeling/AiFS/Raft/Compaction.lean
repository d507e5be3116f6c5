import AiFS.Raft.Exchange

set_option autoImplicit false

/-! # Compaction is transparent

`Snapshot` drops the log up to an index and leaves a head entry with the term of the last entry it
has dropped. A server that has done so and one that has not are `Twin`s: the entries above the index
are the same, and at the index the term is. No handler looks below that. The last entry is above the
index or at it, where only its term is read, and a request that starts at the index or above it is
compared with entries above it. So twins give the same answers, and stay twins.

Nothing is asked of the logs, but that the index is inside the log. -/

namespace AiFS

namespace Raft

variable {n : ℕ} {κ : Type} {rf rf' : Raft n κ} {index : ℕ}

/-! ## Twins -/

/-- `rf'` is `rf`, with the log compacted up to `index`. -/
structure Twin (index : ℕ) (rf rf' : Raft n κ) : Prop where
  me : rf'.me = rf.me
  currTerm : rf'.currTerm = rf.currTerm
  votedFor : rf'.votedFor = rf.votedFor
  state : rf'.state = rf.state
  commitIndex : rf'.commitIndex = rf.commitIndex
  nextIndex : rf'.nextIndex = rf.nextIndex
  base : rf'.lastIncludedIndex = index
  logs : ∃ low last head rest, rf.logs = low ++ last :: rest ∧
    rf.lastIncludedIndex + low.length = index ∧ rf'.logs = head :: rest ∧ head.term = last.term

/-- What a service or another server can see of the log above `index`: how far it goes, its last
    term, how much is committed, and its entries. -/
structure SameAbove (index : ℕ) (rf rf' : Raft n κ) : Prop where
  lastLogicalIndex : rf'.lastLogicalIndex = rf.lastLogicalIndex
  lastTerm : rf'.termAt rf'.lastLogicalIndex = rf.termAt rf.lastLogicalIndex
  commitIndex : rf'.commitIndex = rf.commitIndex
  entries : ∀ i, index < i → rf'.entryAt i = rf.entryAt i

theorem snapshot_twin (hlow : rf.lastIncludedIndex < index) (hhigh : index ≤ rf.lastLogicalIndex)
    (data : List UInt8) : ∃ rf', rf.snapshot index data = some rf' ∧ Twin index rf rf' := by
  have hlogs : rf.logs ≠ [] := by
    intro hnil
    rw [lastLogicalIndex, hnil] at hhigh
    simp only [List.length_nil] at hhigh
    omega
  have hlast := lastLogicalIndex_succ hlogs
  obtain ⟨last, hat⟩ := exists_entryAt hlogs hlow.le hhigh
  have hlt : index - rf.lastIncludedIndex < rf.logs.length := by omega
  have hget := hat
  rw [entryAt_of_le hlow.le, List.getElem?_eq_getElem hlt] at hget
  -- the two branches for the new log are one: there is nothing to keep behind the last entry
  have hnew : (if index - rf.lastIncludedIndex + 1 < rf.logs.length then
        (⟨last.term, none⟩ : LogEntry κ) :: rf.logs.drop (index - rf.lastIncludedIndex + 1)
      else [⟨last.term, none⟩]) =
      ⟨last.term, none⟩ :: rf.logs.drop (index - rf.lastIncludedIndex + 1) := by
    split
    · rfl
    · next hend => rw [List.drop_of_length_le (not_lt.1 hend)]
  have hsplit : rf.logs = rf.logs.take (index - rf.lastIncludedIndex) ++
      last :: rf.logs.drop (index - rf.lastIncludedIndex + 1) := by
    rw [← Option.some.inj hget, ← List.drop_eq_getElem_cons hlt, List.take_append_drop]
  have hbase : rf.lastIncludedIndex + (rf.logs.take (index - rf.lastIncludedIndex)).length =
      index := by
    rw [List.length_take, min_eq_left hlt.le]
    omega
  simp only [snapshot, if_neg (not_le.2 hlow), hat, hnew]
  exact ⟨_, rfl, rfl, rfl, rfl, rfl, rfl, rfl, rfl, _, last, _, _, hsplit, hbase, rfl, rfl⟩

namespace Twin

variable (h : Twin index rf rf')
include h

theorem lastLogicalIndex_eq : rf'.lastLogicalIndex = rf.lastLogicalIndex := by
  obtain ⟨low, last, head, rest, hlogs, hbase, hlogs', -⟩ := h.logs
  simp only [lastLogicalIndex, hlogs, hlogs', h.base, List.length_append, List.length_cons]
  omega

theorem base_le : rf.lastIncludedIndex ≤ index := by
  obtain ⟨low, last, head, rest, -, hbase, -⟩ := h.logs
  omega

theorem le_lastLogicalIndex : index ≤ rf.lastLogicalIndex := by
  obtain ⟨low, last, head, rest, hlogs, hbase, -⟩ := h.logs
  simp only [lastLogicalIndex, hlogs, List.length_append, List.length_cons]
  omega

theorem logs_ne : rf.logs ≠ [] := by
  obtain ⟨low, last, head, rest, hlogs, -⟩ := h.logs
  simp [hlogs]

theorem entryAt_eq {i : ℕ} (hi : index < i) : rf'.entryAt i = rf.entryAt i := by
  obtain ⟨low, last, head, rest, hlogs, hbase, hlogs', -⟩ := h.logs
  have hphys : i - rf.lastIncludedIndex = low.length + (i - index - 1 + 1) := by omega
  have hphys' : i - index = i - index - 1 + 1 := by omega
  have hlow : rf.lastIncludedIndex ≤ i := by omega
  have hlow' : rf'.lastIncludedIndex ≤ i := h.base.le.trans hi.le
  rw [entryAt_of_le hlow, entryAt_of_le hlow', h.base, hlogs, hlogs', hphys, hphys',
    List.getElem?_append_right (Nat.le_add_right _ _), Nat.add_sub_cancel_left]
  rfl

theorem termAt_eq {i : ℕ} (hi : index ≤ i) : rf'.termAt i = rf.termAt i := by
  rcases Nat.lt_or_eq_of_le hi with hlt | heq
  · rw [termAt, termAt, h.entryAt_eq hlt]
  · obtain ⟨low, last, head, rest, hlogs, hbase, hlogs', hterm⟩ := h.logs
    have hphys : i - rf.lastIncludedIndex = low.length := by omega
    have hlow : rf.lastIncludedIndex ≤ i := by omega
    have hlow' : rf'.lastIncludedIndex ≤ i := h.base.le.trans hi
    rw [termAt, termAt, entryAt_of_le hlow, entryAt_of_le hlow', h.base, hlogs, hlogs', hphys,
      List.getElem?_append_right le_rfl, heq, Nat.sub_self, Nat.sub_self]
    exact congrArg some hterm

/-- Both have an entry from the index to the end of the log, of the same term. -/
theorem exists_entryAt {i : ℕ} (hi : index ≤ i) (hle : i ≤ rf.lastLogicalIndex) :
    ∃ e e', rf.entryAt i = some e ∧ rf'.entryAt i = some e' ∧ e'.term = e.term := by
  obtain ⟨e, he⟩ := Raft.exists_entryAt h.logs_ne (h.base_le.trans hi) hle
  have hterm := h.termAt_eq hi
  rw [termAt, termAt, he, Option.map_some] at hterm
  obtain ⟨e', he', heq⟩ := Option.map_eq_some_iff.1 hterm
  exact ⟨e, e', he, he', heq⟩

theorem sameAbove : SameAbove index rf rf' where
  lastLogicalIndex := h.lastLogicalIndex_eq
  lastTerm := by
    rw [h.lastLogicalIndex_eq]
    exact h.termAt_eq h.le_lastLogicalIndex
  commitIndex := h.commitIndex
  entries := fun _ => h.entryAt_eq

/-! ## Handlers -/

theorem seeTerm (T : ℕ) : Twin index (rf.seeTerm T) (rf'.seeTerm T) := by
  unfold Raft.seeTerm
  rw [h.currTerm]
  split
  · exact ⟨h.me, rfl, rfl, rfl, h.commitIndex, h.nextIndex, h.base, h.logs⟩
  · exact h

theorem follow (T : ℕ) : Twin index (rf.follow T) (rf'.follow T) := by
  have hfollow : Twin index { rf with state := Role.follower }
      { rf' with state := Role.follower } :=
    ⟨h.me, h.currTerm, h.votedFor, rfl, h.commitIndex, h.nextIndex, h.base, h.logs⟩
  exact hfollow.seeTerm T

theorem requestVote (args : RequestVoteArgs n) : ∃ r r' reply,
    rf.requestVote args = some (r, reply) ∧ rf'.requestVote args = some (r', reply) ∧
      Twin index r r' := by
  have hs := h.seeTerm args.term
  obtain ⟨e, e', he, he', hterm⟩ := hs.exists_entryAt hs.le_lastLogicalIndex le_rfl
  have hlast := hs.lastLogicalIndex_eq
  by_cases hstale : args.term < (rf.seeTerm args.term).currTerm
  · simp only [Raft.requestVote, hs.currTerm, if_pos hstale]
    exact ⟨_, _, _, rfl, rfl, hs⟩
  by_cases hvote : (rf.seeTerm args.term).votedFor = none ∨
      (rf.seeTerm args.term).votedFor = some args.candidateId
  · by_cases hup : args.lastLogTerm > e.term ∨
        (args.lastLogTerm = e.term ∧ args.lastLogIndex ≥ (rf.seeTerm args.term).lastLogicalIndex)
    · simp only [Raft.requestVote, hs.currTerm, if_neg hstale, hs.votedFor, if_pos hvote, hlast, he,
        he', hterm, if_pos hup, persist]
      exact ⟨_, _, _, rfl, rfl, hs.me, rfl, rfl, rfl, hs.commitIndex, hs.nextIndex, hs.base,
        hs.logs⟩
    · simp only [Raft.requestVote, hs.currTerm, if_neg hstale, hs.votedFor, if_pos hvote, hlast, he,
        he', hterm, if_neg hup]
      exact ⟨_, _, _, rfl, rfl, hs⟩
  · simp only [Raft.requestVote, hs.currTerm, if_neg hstale, hs.votedFor, if_neg hvote]
    exact ⟨_, _, _, rfl, rfl, hs⟩

theorem start (command : Option κ) : (rf'.start command).2 = (rf.start command).2 ∧
    Twin index (rf.start command).1 (rf'.start command).1 := by
  unfold Raft.start
  rw [h.state]
  split
  · exact ⟨rfl, h⟩
  · obtain ⟨low, last, head, rest, hlogs, hbase, hlogs', hterm⟩ := h.logs
    refine ⟨by simp only [h.lastLogicalIndex_eq, h.currTerm], h.me, h.currTerm, h.votedFor, rfl,
      h.commitIndex, h.nextIndex, h.base, low, last, head,
      rest ++ [⟨rf.currTerm, command⟩], ?_, hbase, ?_, hterm⟩
    · simp [persist, hlogs]
    · simp [persist, hlogs', h.currTerm]

omit h in
/-- The loop of `AppendEntries` above the index does the same to both logs. -/
theorem appendLoop_eq {low rest : List (LogEntry κ)} {last head : LogEntry κ}
    (h : Twin index rf rf') (hlogs : rf.logs = low ++ last :: rest)
    (hbase : rf.lastIncludedIndex + low.length = index) (hlogs' : rf'.logs = head :: rest)
    (entries : List (LogEntry κ)) : ∀ k, index < k → ∃ rest',
      rf.appendLoop k entries = some (low ++ last :: rest') ∧
        rf'.appendLoop k entries = some (head :: rest') := by
  induction entries with
  | nil => exact fun k _ => ⟨rest, congrArg some hlogs, congrArg some hlogs'⟩
  | cons entry entries ih =>
      intro k hk
      by_cases hle : k ≤ rf.lastLogicalIndex
      · obtain ⟨old, hold⟩ := Raft.exists_entryAt h.logs_ne (h.base_le.trans hk.le) hle
        by_cases hterm : old.term ≠ entry.term
        · -- both are cut at the same entry
          refine ⟨rest.take (k - index - 1) ++ entry :: entries, ?_, ?_⟩
          · have hcut : k - rf.lastIncludedIndex = low.length + (k - index - 1 + 1) := by omega
            simp only [appendLoop, if_pos hle, hold, if_pos hterm, hlogs, hcut,
              List.take_length_add_append, List.take_succ_cons, List.append_assoc, List.cons_append]
          · have hcut : k - index = k - index - 1 + 1 := by omega
            simp only [appendLoop, h.lastLogicalIndex_eq, if_pos hle, h.entryAt_eq hk, hold,
              if_pos hterm, hlogs', h.base]
            rw [hcut, List.take_succ_cons]
            rfl
        · obtain ⟨rest', hloop, hloop'⟩ := ih (k + 1) (Nat.lt_succ_of_lt hk)
          refine ⟨rest', ?_, ?_⟩
          · simpa only [appendLoop, if_pos hle, hold, if_neg hterm] using hloop
          · simpa only [appendLoop, h.lastLogicalIndex_eq, if_pos hle, h.entryAt_eq hk, hold,
              if_neg hterm] using hloop'
      · refine ⟨rest ++ entry :: entries, ?_, ?_⟩
        · simp only [appendLoop, if_neg hle, hlogs, List.append_assoc, List.cons_append]
        · simp only [appendLoop, h.lastLogicalIndex_eq, if_neg hle, hlogs', List.cons_append]

theorem appendEntries (args : AppendEntriesArgs n κ) (hprev : index ≤ args.prevLogIndex) :
    ∃ r r' reply reply', rf.appendEntries args = some (r, reply) ∧
      rf'.appendEntries args = some (r', reply') ∧ reply'.success = reply.success ∧
        Twin index r r' := by
  have hf := h.follow args.term
  have hlast := hf.lastLogicalIndex_eq
  by_cases hstale : args.term < rf.currTerm
  · simp only [Raft.appendEntries, h.currTerm, if_pos hstale]
    exact ⟨_, _, _, _, rfl, rfl, rfl, h⟩
  by_cases hshort : args.prevLogIndex > (rf.follow args.term).lastLogicalIndex
  · simp only [Raft.appendEntries, h.currTerm, if_neg hstale, hlast, if_pos hshort]
    exact ⟨_, _, _, _, rfl, rfl, rfl, hf⟩
  have hlow : ¬ args.prevLogIndex < (rf.follow args.term).lastIncludedIndex :=
    not_lt.2 (hf.base_le.trans hprev)
  have hlow' : ¬ args.prevLogIndex < (rf'.follow args.term).lastIncludedIndex := by
    rw [hf.base]
    exact not_lt.2 hprev
  obtain ⟨e, e', he, he', hterm⟩ := hf.exists_entryAt hprev (not_lt.1 hshort)
  by_cases hconflict : args.prevLogTerm ≠ e.term
  · simp only [Raft.appendEntries, h.currTerm, if_neg hstale, hlast, if_neg hshort, if_neg hlow,
      if_neg hlow', he, he', hterm, if_pos hconflict]
    exact ⟨_, _, _, _, rfl, rfl, rfl, hf⟩
  obtain ⟨low, last, head, rest, hlogs, hbase, hlogs', hhead⟩ := hf.logs
  obtain ⟨rest', hloop, hloop'⟩ := hf.appendLoop_eq hlogs hbase hlogs' args.entries
    (args.prevLogIndex + 1) (Nat.lt_succ_of_le hprev)
  have hmerged : Twin index
      ({ rf.follow args.term with logs := low ++ last :: rest' } : Raft n κ).persist
      ({ rf'.follow args.term with logs := head :: rest' } : Raft n κ).persist :=
    ⟨hf.me, hf.currTerm, hf.votedFor, hf.state, hf.commitIndex, hf.nextIndex, hf.base,
      low, last, head, rest', rfl, hbase, rfl, hhead⟩
  simp only [Raft.appendEntries, h.currTerm, if_neg hstale, hlast, if_neg hshort, if_neg hlow,
    if_neg hlow', he, he', hterm, if_neg hconflict, hloop, hloop', hmerged.commitIndex,
    hmerged.lastLogicalIndex_eq]
  refine ⟨_, _, _, _, rfl, rfl, rfl, ?_⟩
  split
  · exact { hmerged with commitIndex := rfl }
  · exact hmerged

theorem appendEntriesArgs {peer : Fin n} (hnext : index < rf.nextIndex peer) :
    rf'.appendEntriesArgs peer = rf.appendEntriesArgs peer := by
  obtain ⟨low, last, head, rest, hlogs, hbase, hlogs', hhead⟩ := h.logs
  obtain ⟨k, hk⟩ : ∃ k, rf.nextIndex peer = index + (k + 1) :=
    ⟨rf.nextIndex peer - index - 1, by omega⟩
  have hphys : rf.nextIndex peer - rf.lastIncludedIndex = low.length + (k + 1) := by omega
  have hphys' : rf.nextIndex peer - index = k + 1 := by omega
  have hlen : rf.logs.length < low.length + (k + 1) ↔ rf'.logs.length < k + 1 := by
    rw [hlogs, hlogs', List.length_append, List.length_cons, List.length_cons]
    omega
  have hprev : rf.logs[low.length + (k + 1) - 1]?.map LogEntry.term =
      rf'.logs[k + 1 - 1]?.map LogEntry.term := by
    rw [hlogs, hlogs', Nat.add_sub_cancel, ← Nat.add_assoc, Nat.add_sub_cancel,
      List.getElem?_append_right (Nat.le_add_right _ _), Nat.add_sub_cancel_left]
    cases k with
    | zero => exact congrArg some hhead.symm
    | succ k => rfl
  have hdrop : rf.logs.drop (low.length + (k + 1)) = rf'.logs.drop (k + 1) := by
    rw [hlogs, hlogs', List.drop_length_add_append, List.drop_succ_cons, List.drop_succ_cons]
  unfold Raft.appendEntriesArgs
  simp only [h.nextIndex, h.base, hphys, hphys', hlen, hdrop, h.currTerm, h.me, h.commitIndex]
  split
  · rfl
  · cases hget : rf.logs[low.length + (k + 1) - 1]? with
    | none =>
        rw [hget] at hprev
        rw [Option.map_eq_none_iff.1 hprev.symm]
    | some e =>
        rw [hget] at hprev
        obtain ⟨e', he', heq⟩ := Option.map_eq_some_iff.1 hprev.symm
        rw [he']
        simp only [heq]

end Twin

/-- **Compaction is transparent.** For every state and every index that is in its log, above the
    snapshot: `Snapshot` first and then any `RequestVote`, any `Start` or any `AppendEntries` that
    starts at the index or above gives the same answer as without it, and leaves the same log above
    the index. And `makeAppendEntry` builds the same request for every `nextIndex` above the
    index. -/
theorem compaction_transparent (rf : Raft n κ) {index : ℕ} (data : List UInt8)
    (hlow : rf.lastIncludedIndex < index) (hhigh : index ≤ rf.lastLogicalIndex) :
    ∃ rf', rf.snapshot index data = some rf' ∧
      (∀ args, ∃ r r' reply, rf.requestVote args = some (r, reply) ∧
        rf'.requestVote args = some (r', reply) ∧ SameAbove index r r') ∧
      (∀ command, (rf'.start command).2 = (rf.start command).2 ∧
        SameAbove index (rf.start command).1 (rf'.start command).1) ∧
      (∀ args, index ≤ args.prevLogIndex → ∃ r r' reply reply',
        rf.appendEntries args = some (r, reply) ∧ rf'.appendEntries args = some (r', reply') ∧
          reply'.success = reply.success ∧ SameAbove index r r') ∧
      ∀ peer, index < rf.nextIndex peer → rf'.lastIncludedIndex < rf'.nextIndex peer ∧
        rf'.appendEntriesArgs peer = rf.appendEntriesArgs peer := by
  obtain ⟨rf', hsnap, h⟩ := snapshot_twin hlow hhigh data
  refine ⟨rf', hsnap, fun args => ?_, fun command => ?_, fun args hprev => ?_, fun peer hnext => ?_⟩
  · obtain ⟨r, r', reply, hr, hr', htwin⟩ := h.requestVote args
    exact ⟨r, r', reply, hr, hr', htwin.sameAbove⟩
  · exact ⟨(h.start command).1, (h.start command).2.sameAbove⟩
  · obtain ⟨r, r', reply, reply', hr, hr', hsuccess, htwin⟩ := h.appendEntries args hprev
    exact ⟨r, r', reply, reply', hr, hr', hsuccess, htwin.sameAbove⟩
  · refine ⟨?_, h.appendEntriesArgs hnext⟩
    rw [h.base, h.nextIndex]
    exact hnext

/-- The log of `forkedLead`, compacted up to its first entry. -/
theorem compaction_transparent_forked : ∃ rf', (forkedLead 2).snapshot 1 [0] = some rf' ∧
    rf'.lastIncludedIndex = 1 ∧ (rf'.start (some 5)).2 = some (3, 2) ∧
    (rf'.start (some 5)).1.lastLogicalIndex = 3 := by
  obtain ⟨rf', hsnap, -, hstart, -⟩ :=
    compaction_transparent (forkedLead 2) [0] (by decide : 0 < 1) (by decide)
  refine ⟨rf', hsnap, ?_, (hstart (some 5)).1, (hstart (some 5)).2.lastLogicalIndex⟩
  rw [← Option.some.inj hsnap]

end Raft

end AiFS
