import AiFS.Raft.LogShape

set_option autoImplicit false

/-! # What the handlers do to the whole log

The functions that rewrite `logs` (`AppendEntries`, `InstallSnapshot`, `Snapshot`) described by
their effect on `fullLog`, and for every other function one lemma that says which states it can
lead to. The log that a request carries is given as the whole log `M` of its sender; that both logs
are backed by leader logs is what makes the source's comparison of terms a comparison of entries.

The proofs about the cluster use these lemmas only, never the bodies of the handlers. -/

namespace AiFS

open TermLog

namespace Raft

variable {n : ℕ} {κ : Type} {rf rf' : Raft n κ}

/-! ## AppendEntries -/

/-- What `AppendEntries` makes of a request, and what it replies: the request is stale, starts
    behind the end of the log, starts below the snapshot, disagrees at `PrevLogIndex`, or is taken
    over. -/
inductive Reaction (foll : Raft n κ) (args : AppendEntriesArgs n κ) :
    Raft n κ → AppendEntriesReply → Prop
  | stale (h : args.term < foll.currTerm) :
      Reaction foll args foll { success := false, term := foll.currTerm }
  | short (hterm : foll.currTerm ≤ args.term) (h : foll.lastLogicalIndex < args.prevLogIndex) :
      Reaction foll args (foll.follow args.term)
        { success := false, conflictTerm := -1, conflictIndex := foll.lastLogicalIndex + 1 }
  | compacted (hterm : foll.currTerm ≤ args.term)
      (h : args.prevLogIndex < foll.lastIncludedIndex) :
      Reaction foll args (foll.follow args.term)
        { success := false, term := args.term, conflictTerm := -1
          conflictIndex := foll.lastIncludedIndex + 1 }
  | conflict {e : LogEntry κ} (hterm : foll.currTerm ≤ args.term)
      (he : foll.entryAt args.prevLogIndex = some e) (hne : args.prevLogTerm ≠ e.term) :
      Reaction foll args (foll.follow args.term)
        { success := false, conflictTerm := e.term
          conflictIndex := (foll.follow args.term).conflictSearch e.term args.prevLogIndex 0 }
  | merged {e : LogEntry κ} {logs : List (LogEntry κ)} (hterm : foll.currTerm ≤ args.term)
      (hlow : foll.lastIncludedIndex ≤ args.prevLogIndex)
      (hhigh : args.prevLogIndex ≤ foll.lastLogicalIndex)
      (he : foll.entryAt args.prevLogIndex = some e) (heq : args.prevLogTerm = e.term)
      (hloop : (foll.follow args.term).appendLoop (args.prevLogIndex + 1) args.entries =
        some logs) :
      Reaction foll args
        { ({ foll.follow args.term with logs := logs } : Raft n κ).persist with
          commitIndex := if foll.commitIndex < args.leaderCommit then
            min args.leaderCommit (foll.lastIncludedIndex + logs.length - 1)
          else foll.commitIndex }
        { success := true }

/-- **Inversion of the handler.** -/
theorem appendEntries_reaction {foll foll' : Raft n κ} {args : AppendEntriesArgs n κ}
    {reply : AppendEntriesReply} (h : foll.appendEntries args = some (foll', reply)) :
    Reaction foll args foll' reply := by
  unfold appendEntries at h
  dsimp only at h
  split at h
  · next hlt =>
      obtain ⟨rfl, rfl⟩ := Prod.mk.inj (Option.some.inj h)
      exact .stale hlt
  · next hge =>
      have hge := not_lt.1 hge
      split at h
      · next hshort =>
          obtain ⟨hfoll, hreply⟩ := Prod.mk.inj (Option.some.inj h)
          rw [follow_lastLogicalIndex] at hshort hreply
          rw [← hfoll, ← hreply]
          exact .short hge hshort
      · next hlong =>
          split at h
          · next hlow =>
              obtain ⟨hfoll, hreply⟩ := Prod.mk.inj (Option.some.inj h)
              rw [follow_currTerm, max_eq_right hge, follow_lastIncludedIndex] at hreply
              rw [follow_lastIncludedIndex] at hlow
              rw [← hfoll, ← hreply]
              exact .compacted hge hlow
          · next hlow =>
              split at h
              · exact absurd h (by simp)
              · next e he =>
                  rw [follow_entryAt] at he
                  split at h
                  · next hne =>
                      obtain ⟨rfl, rfl⟩ := Prod.mk.inj (Option.some.inj h)
                      exact .conflict hge he hne
                  · next heq =>
                      split at h
                      · exact absurd h (by simp)
                      · next logs hloop =>
                          obtain ⟨hfoll, rfl⟩ := Prod.mk.inj (Option.some.inj h)
                          have hmerged := Reaction.merged hge (by simpa using hlow)
                            (by simpa using hlong) he (not_not.1 heq) hloop
                          convert hmerged using 1
                          rw [← hfoll]
                          by_cases hc : foll.commitIndex < args.leaderCommit
                          · simp [hc, persist, lastLogicalIndex]
                          · simp [hc, persist]

/-- The loop of `AppendEntries` merges the sender's log `M` into the server's, if the two agree up
    to the index `k` it starts behind. -/
theorem appendLoop_spec {p : Proto (Fin n) (LogEntry κ)} {M : List (LogEntry κ)} (hwf : rf.WF)
    (hL : Backed LogEntry.term p rf.fullLog) (hM : Backed LogEntry.term p M)
    (entries : List (LogEntry κ)) : ∀ k, entries = M.drop k → rf.lastIncludedIndex ≤ k →
      k ≤ rf.fullLog.length → k ≤ M.length → rf.fullLog.take k = M.take k →
      ∃ logs, rf.appendLoop (k + 1) entries = some logs ∧ logs.head? = rf.logs.head? ∧
        rf.covers ++ logs.tail = merge rf.fullLog M := by
  obtain ⟨head, hlogs, _⟩ := hwf.logs_eq
  -- the whole log after the log has been cut behind index `k` and `X` appended
  have hcut : ∀ k X, rf.lastIncludedIndex ≤ k →
      rf.covers ++ (rf.logs.take (k + 1 - rf.lastIncludedIndex) ++ X).tail =
        rf.fullLog.take k ++ X := by
    intro k X hk
    have hsub : k + 1 - rf.lastIncludedIndex = (k - rf.lastIncludedIndex) + 1 := by omega
    have hcov : rf.covers.take k = rf.covers :=
      List.take_of_length_le (by rw [hwf.covers_length]; exact hk)
    rw [hlogs, hsub, List.take_succ_cons, List.cons_append, List.tail_cons, fullLog,
      List.take_append, hcov, hwf.covers_length, List.append_assoc]
  induction entries with
  | nil =>
      intro k hdrop hk hkL hkM htake
      have hkM' : k = M.length := by
        have := List.drop_eq_nil_iff.1 hdrop.symm
        omega
      refine ⟨rf.logs, rfl, rfl, ?_⟩
      have hpre : M <+: rf.fullLog := by
        rw [hkM', List.take_length] at htake
        rw [← htake]
        exact List.take_prefix _ _
      rw [merge_of_isPrefix hpre]
      rfl
  | cons entry rest ih =>
      intro k hdrop hk hkL hkM htake
      have hkM' : k < M.length := by
        by_contra hge
        rw [List.drop_of_length_le (by omega)] at hdrop
        exact absurd hdrop (by simp)
      obtain ⟨hentry, hrest⟩ : entry = M[k] ∧ rest = M.drop (k + 1) := by
        rw [List.drop_eq_getElem_cons hkM'] at hdrop
        exact ⟨(List.cons.inj hdrop).1, (List.cons.inj hdrop).2⟩
      -- cutting here leaves the sender's log
      have hall : rf.fullLog.take k ++ (entry :: rest) = M := by
        rw [hdrop, htake, List.take_append_drop]
      by_cases hle : k + 1 ≤ rf.lastLogicalIndex
      · have hlt : k < rf.fullLog.length := by
          rw [hwf.lastLogicalIndex_eq] at hle
          omega
        have hold : rf.entryAt (k + 1) = some rf.fullLog[k] := by
          rw [hwf.entryAt_of_lt (by omega), Nat.add_sub_cancel, List.getElem?_eq_getElem hlt]
        by_cases hterm : rf.fullLog[k].term = entry.term
        · -- the entry is there already
          have hnext : rf.fullLog.take (k + 1) = M.take (k + 1) := by
            refine hL.take_eq hM hlt hkM' ?_
            rw [List.take_succ_eq_append_getElem hlt, List.take_succ_eq_append_getElem hkM',
              lastTerm_concat, lastTerm_concat, hterm, hentry]
          obtain ⟨logs, hloop, hrest'⟩ := ih (k + 1) hrest (by omega) hlt hkM' hnext
          refine ⟨logs, ?_, hrest'⟩
          simp only [appendLoop, hle, if_true, hold, hterm, ne_eq, not_true_eq_false, if_false]
          exact hloop
        · -- a conflict: the rest of the server's log is dropped
          refine ⟨rf.logs.take (k + 1 - rf.lastIncludedIndex) ++ (entry :: rest), ?_, ?_, ?_⟩
          · simp only [appendLoop, hle, if_true, hold, ne_eq, hterm, not_false_eq_true]
          · have hsub : k + 1 - rf.lastIncludedIndex = (k - rf.lastIncludedIndex) + 1 := by omega
            rw [hlogs, hsub]
            rfl
          · have hno : ¬ M <+: rf.fullLog := by
              intro hpre
              have hget : M[k] = rf.fullLog[k] := hpre.getElem hkM'
              exact hterm (by rw [hentry, hget])
            rw [hcut k _ hk, hall, merge_of_not_isPrefix hno]
      · -- the server's log ends here
        have hkeq : k = rf.fullLog.length := by
          rw [hwf.lastLogicalIndex_eq] at hle
          omega
        refine ⟨rf.logs ++ (entry :: rest), ?_, ?_, ?_⟩
        · simp only [appendLoop, hle, if_false]
        · rw [hlogs]
          rfl
        · have hno : ¬ M <+: rf.fullLog := fun hpre => by
            have := hpre.length_le
            omega
          have hfull : rf.covers ++ (rf.logs ++ (entry :: rest)).tail =
              rf.fullLog ++ (entry :: rest) := by
            rw [fullLog, List.append_assoc, hlogs]
            rfl
          rw [hfull, merge_of_not_isPrefix hno, ← hall, hkeq, List.take_length]

/-- Server `rf` has followed the term `T` and merged the log `M` into its own. -/
structure Merged (rf rf' : Raft n κ) (T : ℕ) (M : List (LogEntry κ)) : Prop where
  me : rf'.me = rf.me
  wf : rf'.WF
  mirrored : rf'.Mirrored
  currTerm : rf'.currTerm = T
  votedFor : rf'.votedFor = (rf.follow T).votedFor
  state : rf'.state = Role.follower
  fullLog : rf'.fullLog = merge rf.fullLog M

/-- The outcomes of `AppendEntries`: stale, rejected, or `logs` are what the loop returns. -/
theorem appendEntries_cases {args : AppendEntriesArgs n κ} {reply : AppendEntriesReply}
    (hwf : rf.WF) (h : rf.appendEntries args = some (rf', reply)) :
    (args.term < rf.currTerm ∧ rf' = rf ∧ reply.success = false) ∨
    (rf.currTerm ≤ args.term ∧ rf' = rf.follow args.term ∧ reply.success = false) ∨
    (rf.currTerm ≤ args.term ∧ rf.lastIncludedIndex ≤ args.prevLogIndex ∧
      args.prevLogIndex ≤ rf.fullLog.length ∧
      args.prevLogTerm = lastTerm LogEntry.term (rf.fullLog.take args.prevLogIndex) ∧
      ∃ logs commitIndex,
        (rf.follow args.term).appendLoop (args.prevLogIndex + 1) args.entries = some logs ∧
        rf' = { ({ rf.follow args.term with logs := logs } : Raft n κ).persist with
                commitIndex := commitIndex } ∧
        commitIndex = if rf.commitIndex < args.leaderCommit then
          min args.leaderCommit (rf.lastIncludedIndex + logs.length - 1) else rf.commitIndex) := by
  cases appendEntries_reaction h with
  | stale hlt => exact Or.inl ⟨hlt, rfl, rfl⟩
  | short hge _ => exact Or.inr (Or.inl ⟨hge, rfl, rfl⟩)
  | compacted hge _ => exact Or.inr (Or.inl ⟨hge, rfl, rfl⟩)
  | conflict hge _ _ => exact Or.inr (Or.inl ⟨hge, rfl, rfl⟩)
  | @merged e logs hge hlow hhigh he heq hloop =>
      rw [hwf.lastLogicalIndex_eq] at hhigh
      obtain ⟨x, hx, hterm⟩ := hwf.entryAt_term hlow hhigh
      obtain rfl : e = x := Option.some.inj (he.symm.trans hx)
      exact Or.inr (Or.inr ⟨hge, hlow, hhigh, heq.trans hterm, logs, _, hloop, rfl, rfl⟩)

/-- **AppendEntries.** A request that carries the log `M` of its sender is stale, leaves the server
    as a follower in its term, or merges `M` into the server's log. -/
theorem appendEntries_spec {p : Proto (Fin n) (LogEntry κ)} {M : List (LogEntry κ)}
    {args : AppendEntriesArgs n κ} {reply : AppendEntriesReply} (hwf : rf.WF)
    (hL : Backed LogEntry.term p rf.fullLog) (hM : Backed LogEntry.term p M)
    (hprev : args.prevLogIndex ≤ M.length)
    (hterm : args.prevLogTerm = lastTerm LogEntry.term (M.take args.prevLogIndex))
    (hent : args.entries = M.drop args.prevLogIndex)
    (h : rf.appendEntries args = some (rf', reply)) :
    (args.term < rf.currTerm ∧ rf' = rf ∧ reply.success = false) ∨
    (rf.currTerm ≤ args.term ∧ rf' = rf.follow args.term ∧ reply.success = false) ∨
    (rf.currTerm ≤ args.term ∧ Merged rf rf' args.term M ∧
      rf'.lastIncludedIndex = rf.lastIncludedIndex ∧ rf'.lastApplied = rf.lastApplied ∧
      rf'.commitIndex = if rf.commitIndex < args.leaderCommit then
        min args.leaderCommit rf'.fullLog.length else rf.commitIndex) := by
  refine (appendEntries_cases hwf h).imp_right (Or.imp_right ?_)
  rintro ⟨hge, hlow, hhigh, hprevTerm, logs, ci, hloop, rfl, hci⟩
  have hwf1 := hwf.follow args.term
  have htake : rf.fullLog.take args.prevLogIndex = M.take args.prevLogIndex :=
    hL.take_eq hM hhigh hprev (hprevTerm.symm.trans hterm)
  obtain ⟨logs', hloop', hhead, hfull⟩ :=
    appendLoop_spec hwf1 (by simpa using hL) hM args.entries args.prevLogIndex hent
      (by simpa using hlow) (by simpa using hhigh) hprev (by simpa using htake)
  obtain rfl : logs = logs' := Option.some.inj (hloop.symm.trans hloop')
  rw [follow_covers, follow_fullLog] at hfull
  have hwf' : ({ ({ rf.follow args.term with logs := logs } : Raft n κ).persist with
      commitIndex := ci } : Raft n κ).WF :=
    { head_term := (congrArg (Option.map LogEntry.term) hhead).trans hwf1.head_term
      covers_length := hwf1.covers_length
      covers_term := hwf1.covers_term }
  have hfull' : ({ ({ rf.follow args.term with logs := logs } : Raft n κ).persist with
      commitIndex := ci } : Raft n κ).fullLog = merge rf.fullLog M := by
    rw [← hfull, ← follow_covers rf args.term]
    rfl
  refine ⟨hge, ⟨follow_me _ _, hwf', Or.inl rfl, ?_, rfl, follow_state _ _, hfull'⟩, ?_, ?_, ?_⟩
  · exact (follow_currTerm _ _).trans (max_eq_right hge)
  · exact follow_lastIncludedIndex _ _
  · exact follow_lastApplied _ _
  · have hlen := hwf'.lastLogicalIndex_eq
    rw [← hlen]
    change ci = _
    rw [hci]
    simp [lastLogicalIndex, persist]

/-! ## InstallSnapshot and Snapshot -/

/-- The search for the snapshot's last entry finds it at its own position or not at all. -/
theorem splitIdx_eq {index term : ℕ} (hi : rf.lastIncludedIndex ≤ index) :
    rf.splitIdx index term =
      if (rf.entryAt index).map LogEntry.term = some term then
        some (index - rf.lastIncludedIndex)
      else none := by
  have hrange : ∀ N, (List.range N).foldl
      (fun found i => if i + rf.lastIncludedIndex = index ∧
        (rf.logs[i]?).map LogEntry.term = some term then some i else found) none =
      if index - rf.lastIncludedIndex < N ∧
          (rf.logs[index - rf.lastIncludedIndex]?).map LogEntry.term = some term then
        some (index - rf.lastIncludedIndex)
      else none := by
    intro N
    induction N with
    | zero => simp
    | succ N ih =>
        rw [List.range_succ, List.foldl_append, ih, List.foldl_cons, List.foldl_nil]
        by_cases hN : N + rf.lastIncludedIndex = index
        · have hN' : index - rf.lastIncludedIndex = N := by omega
          simp [hN, hN']
        · have hiff : index - rf.lastIncludedIndex < N + 1 ↔
              index - rf.lastIncludedIndex < N := by omega
          simp only [hN, false_and, if_false, hiff]
  have hentry : rf.entryAt index = rf.logs[index - rf.lastIncludedIndex]? := if_neg (by omega)
  -- an entry that is there is within the bounds
  have hbound : (rf.logs[index - rf.lastIncludedIndex]?).map LogEntry.term = some term →
      index - rf.lastIncludedIndex < rf.logs.length := by
    intro h
    obtain ⟨e, he, _⟩ := Option.map_eq_some_iff.1 h
    exact (List.getElem?_eq_some_iff.1 he).1
  simp only [splitIdx, hrange, hentry, and_iff_right_of_imp hbound]

/-- **InstallSnapshot.** A request whose snapshot stands for the log `M` is stale, leaves the server
    as a follower in its term, or merges `M` into the server's log. -/
theorem installSnapshot_spec {p : Proto (Fin n) (LogEntry κ)} {args : InstallSnapshotArgs n κ}
    (hwf : rf.WF) (hL : Backed LogEntry.term p rf.fullLog)
    (hM : Backed LogEntry.term p args.data.covers)
    (hlen : args.data.covers.length = args.lastIncludedIndex)
    (hterm : args.lastIncludedTerm = lastTerm LogEntry.term args.data.covers) :
    (args.term < rf.currTerm ∧ rf.installSnapshot args = (rf, { term := rf.currTerm }, [])) ∨
    (rf.currTerm ≤ args.term ∧ args.lastIncludedIndex ≤ rf.lastIncludedIndex ∧
      rf.installSnapshot args = (rf.follow args.term, { term := args.term }, [])) ∨
    (rf.currTerm ≤ args.term ∧ rf.lastIncludedIndex < args.lastIncludedIndex ∧
      ∃ rf', rf.installSnapshot args =
          (rf', { term := args.term },
            [.snapshot args.lastIncludedIndex args.lastIncludedTerm args.data]) ∧
        Merged rf rf' args.term args.data.covers ∧
        rf'.lastIncludedIndex = args.lastIncludedIndex ∧
        rf'.commitIndex = max args.lastIncludedIndex rf.commitIndex ∧
        rf'.lastApplied = max args.lastIncludedIndex rf.lastApplied) := by
  by_cases hstale : rf.currTerm > args.term
  · exact Or.inl ⟨hstale, by simp [installSnapshot, hstale]⟩
  right
  have hge : rf.currTerm ≤ args.term := not_lt.1 hstale
  by_cases hblock : args.lastIncludedIndex ≤ rf.lastIncludedIndex
  · exact Or.inl ⟨hge, hblock, by simp [installSnapshot, hstale, hblock, hge]⟩
  right
  have hlt : rf.lastIncludedIndex < args.lastIncludedIndex := not_le.1 hblock
  refine ⟨hge, hlt, _, by simp only [installSnapshot, if_neg hstale, follow_lastIncludedIndex,
    ge_iff_le, if_neg hblock]; rfl, ?_, rfl, by simp, by simp⟩
  have hwf1 := hwf.follow args.term
  refine ⟨follow_me _ _, ?_, Or.inl rfl, rfl, rfl, follow_state _ _, ?_⟩
  · refine ⟨?_, hlen, hterm⟩
    dsimp only
    split <;> rfl
  · rw [splitIdx_eq (by simpa using hlt.le)]
    -- the whole log after `logs` has been cut behind the snapshot's index
    have hcov : ∀ X : List (LogEntry κ), ∀ head : LogEntry κ, ∀ rf' : Raft n κ,
        rf'.persister.snapshot = args.data → rf'.logs = head :: X →
        rf'.fullLog = args.data.covers ++ X := by
      intro X head rf' hs hl
      rw [fullLog, covers, hs, hl, List.tail_cons]
    by_cases hpre : args.data.covers <+: rf.fullLog
    · -- the last entry is found, so the log behind it is kept
      have hle : args.lastIncludedIndex ≤ rf.fullLog.length := hlen ▸ hpre.length_le
      have htake : rf.fullLog.take args.lastIncludedIndex = args.data.covers := by
        rw [← hlen]
        exact (List.prefix_iff_eq_take.1 hpre).symm
      obtain ⟨e, he, het⟩ := hwf1.entryAt_term (by simpa using hlt.le) (by simpa using hle)
      have hfound : ((rf.follow args.term).entryAt args.lastIncludedIndex).map LogEntry.term =
          some args.lastIncludedTerm := by
        rw [he, Option.map_some, het, follow_fullLog, htake, hterm]
      rw [if_pos hfound, merge_of_isPrefix hpre]
      rw [hcov _ _ _ rfl rfl]
      have hdrop := hwf1.drop_logs (i := args.lastIncludedIndex + 1) (by simp; omega)
      have hsub : args.lastIncludedIndex - (rf.follow args.term).lastIncludedIndex + 1 =
          args.lastIncludedIndex + 1 - (rf.follow args.term).lastIncludedIndex := by
        rw [follow_lastIncludedIndex]
        omega
      rw [hsub, hdrop, Nat.add_sub_cancel, follow_fullLog, ← htake, List.take_append_drop]
    · -- the last entry is missing or of another term: only the snapshot is left
      have hmiss : ¬ ((rf.follow args.term).entryAt args.lastIncludedIndex).map LogEntry.term =
          some args.lastIncludedTerm := by
        intro hfound
        obtain ⟨e, he, het⟩ := Option.map_eq_some_iff.1 hfound
        rw [hwf1.entryAt_of_lt (by simpa using hlt), follow_fullLog] at he
        have hle : args.lastIncludedIndex ≤ rf.fullLog.length := by
          have := (List.getElem?_eq_some_iff.1 he).1
          omega
        obtain ⟨e', he', het'⟩ := hwf1.entryAt_term (by simpa using hlt.le) (by simpa using hle)
        rw [he', Option.map_some, Option.some.injEq, het', follow_fullLog, hterm] at hfound
        have htake := hL.take_eq hM hle hlen.ge (by
          rw [hfound, ← hlen, List.take_length])
        rw [← hlen, List.take_length] at htake
        exact hpre (htake ▸ List.take_prefix _ _)
      rw [if_neg hmiss, merge_of_not_isPrefix hpre, hcov [] _ _ rfl rfl, List.append_nil]

/-- **Snapshot.** Compacting changes what is held where, not the whole log. -/
theorem snapshot_spec {index : ℕ} {data : List UInt8} (hwf : rf.WF)
    (h : rf.snapshot index data = some rf') :
    rf' = rf ∨ (rf.lastIncludedIndex < index ∧ index ≤ rf.fullLog.length ∧ rf'.WF ∧
      rf'.Mirrored ∧ rf'.fullLog = rf.fullLog ∧ ∃ ps logs lit, ps.snapshot.data = data ∧
        rf' = { rf with
                persister := ps, logs := logs, lastIncludedIndex := index
                lastIncludedTerm := lit, lastApplied := max index rf.lastApplied }) := by
  unfold snapshot at h
  split at h
  · exact Or.inl (Option.some.inj h).symm
  · next hlt =>
      right
      have hlt : rf.lastIncludedIndex < index := not_le.1 hlt
      split at h
      · exact absurd h (by simp)
      · next last hlast =>
          have hle : index ≤ rf.fullLog.length := by
            rw [hwf.entryAt_of_lt hlt] at hlast
            have := (List.getElem?_eq_some_iff.1 hlast).1
            omega
          obtain ⟨e, he, het⟩ := hwf.entryAt_term hlt.le hle
          obtain rfl : last = e := Option.some.inj (hlast.symm.trans he)
          -- both branches of the copy leave the entries above the index
          have hlogs : (if index - rf.lastIncludedIndex + 1 < rf.logs.length then
                ({ term := last.term, command := none } : LogEntry κ) ::
                  rf.logs.drop (index - rf.lastIncludedIndex + 1)
              else [{ term := last.term, command := none }]) =
              { term := last.term, command := none } :: rf.fullLog.drop index := by
            have hdrop := hwf.drop_logs (i := index + 1) (by omega)
            rw [Nat.sub_add_comm hlt.le, Nat.add_sub_cancel] at hdrop
            split
            · rw [hdrop]
            · next hshort => rw [← hdrop, List.drop_of_length_le (not_lt.1 hshort)]
          simp only [Option.some.injEq, hlogs] at h
          subst h
          refine ⟨hlt, hle, ⟨rfl, ?_, het⟩, Or.inl rfl, ?_, _, _, _, rfl, rfl⟩
          · exact List.length_take_of_le hle
          · exact List.take_append_drop index rf.fullLog

/-! ## Restarts -/

/-- **Restart.** `Make` on the persister of a server restores what it had, as a follower whose
    `commitIndex` and `lastApplied` are those of the snapshot. -/
theorem make_of_mirrored (h : rf.Mirrored) :
    make rf.me rf.persister =
      { rf with
        state := Role.follower
        commitIndex := rf.lastIncludedIndex
        lastApplied := rf.lastIncludedIndex
        nextIndex := fun _ => 0
        matchIndex := fun _ => 0 } := by
  rcases h with hsome | ⟨hnone, hfresh⟩
  · by_cases hpos : 0 < rf.lastIncludedIndex
    · simp [make, readPersist, hsome, raftState, hpos]
    · have hzero : rf.lastIncludedIndex = 0 := by omega
      simp [make, readPersist, hsome, raftState, hzero]
  · obtain ⟨h1, h2, h3, h4, h5⟩ := RaftState.mk.inj hfresh
    simp [make, readPersist, hnone, h1, h2, h3, h4, h5]

theorem make_state (me : Fin n) (persister : Persister n κ) :
    (make me persister).state = Role.follower := by
  unfold make readPersist
  dsimp only
  split <;> split <;> rfl

/-! ## Votes and elections -/

/-- **RequestVote.** Apart from its reaction to the term, a server changes only if it gives its
    vote, which is free and which the candidate's log deserves. -/
theorem requestVote_spec {args : RequestVoteArgs n} {reply : RequestVoteReply} (hwf : rf.WF)
    (h : rf.requestVote args = some (rf', reply)) :
    (rf' = rf.seeTerm args.term ∧ reply.voteGranted = false) ∨
    (rf.currTerm ≤ args.term ∧
      ((rf.seeTerm args.term).votedFor = none ∨
        (rf.seeTerm args.term).votedFor = some args.candidateId) ∧
      (lastTerm LogEntry.term rf.fullLog < args.lastLogTerm ∨
        lastTerm LogEntry.term rf.fullLog = args.lastLogTerm ∧
          rf.fullLog.length ≤ args.lastLogIndex) ∧
      rf' = { ({ rf.seeTerm args.term with votedFor := some args.candidateId } :
                Raft n κ).persist with state := Role.follower }) := by
  obtain ⟨e, he, het⟩ := (hwf.seeTerm args.term).lastEntry
  rw [seeTerm_fullLog] at het
  unfold requestVote at h
  dsimp only at h
  split at h
  · simp only [Option.some.injEq, Prod.mk.injEq] at h
    exact Or.inl ⟨h.1.symm, by rw [← h.2]⟩
  · next hge =>
      split at h
      · next hfree =>
          rw [he] at h
          dsimp only at h
          split at h
          · next hup =>
              simp only [Option.some.injEq, Prod.mk.injEq] at h
              refine Or.inr ⟨by simpa using hge, hfree, ?_, h.1.symm⟩
              rw [(hwf.seeTerm args.term).lastLogicalIndex_eq, seeTerm_fullLog, het] at hup
              exact hup.imp id (fun hh => ⟨hh.1.symm, hh.2⟩)
          · simp only [Option.some.injEq, Prod.mk.injEq] at h
            exact Or.inl ⟨h.1.symm, by rw [← h.2]⟩
      · simp only [Option.some.injEq, Prod.mk.injEq] at h
        exact Or.inl ⟨h.1.symm, by rw [← h.2]⟩

theorem startElection_spec {args : RequestVoteArgs n} (hwf : rf.WF)
    (h : rf.startElection = some (rf', args)) :
    rf' = ({ rf with
              currTerm := rf.currTerm + 1, votedFor := some rf.me, state := Role.candidate } :
            Raft n κ).persist ∧
    args = { term := rf.currTerm + 1, candidateId := rf.me, lastLogIndex := rf.fullLog.length,
             lastLogTerm := lastTerm LogEntry.term rf.fullLog } := by
  obtain ⟨e, he, het⟩ := hwf.lastEntry
  -- raising the term and voting for itself leaves the candidate's last entry as it is
  have he' : ∀ rf₁ : Raft n κ, rf₁ = ({ rf with
      currTerm := rf.currTerm + 1, votedFor := some rf.me, state := Role.candidate } :
      Raft n κ).persist → rf₁.entryAt rf₁.lastLogicalIndex = some e := by
    rintro _ rfl
    exact he
  unfold startElection at h
  simp only [he' _ rfl, Option.some.injEq, Prod.mk.injEq] at h
  refine ⟨h.1.symm, ?_⟩
  rw [← h.2, het, ← hwf.lastLogicalIndex_eq]
  rfl

/-- A vote goroutine counts only while its election is on, and only a granted vote. -/
theorem requestVoteReply_cases (rf : Raft n κ) (votes startTerm : ℕ) (reply : RequestVoteReply) :
    (¬ (rf.state = Role.candidate ∧ rf.currTerm = startTerm) ∧
      rf.requestVoteReply votes startTerm reply = (rf, votes, false)) ∨
    (rf.state = Role.candidate ∧ rf.currTerm = startTerm ∧ reply.voteGranted = true ∧
      n / 2 < votes + 1 ∧ rf.requestVoteReply votes startTerm reply = (rf, votes + 1, true)) ∨
    (rf.state = Role.candidate ∧ rf.currTerm = startTerm ∧
      rf.requestVoteReply votes startTerm reply =
        (rf.seeTerm reply.term, if reply.voteGranted then votes + 1 else votes, false)) := by
  by_cases hon : rf.state = Role.candidate ∧ rf.currTerm = startTerm
  · right
    have hoff : ¬ (rf.state ≠ Role.candidate ∨ rf.currTerm ≠ startTerm) := by
      rintro (hs | ht)
      · exact hs hon.1
      · exact ht hon.2
    by_cases hg : reply.voteGranted = true
    · by_cases hmaj : n / 2 < votes + 1
      · exact Or.inl ⟨hon.1, hon.2, hg, hmaj, by simp [requestVoteReply, hoff, hg, hmaj]⟩
      · exact Or.inr ⟨hon.1, hon.2, by simp [requestVoteReply, hoff, hg, hmaj]⟩
    · exact Or.inr ⟨hon.1, hon.2, by simp [requestVoteReply, hoff, hg]⟩
  · refine Or.inl ⟨hon, ?_⟩
    have hoff : rf.state ≠ Role.candidate ∨ rf.currTerm ≠ startTerm := by
      by_cases hs : rf.state = Role.candidate
      · exact Or.inr (fun ht => hon ⟨hs, ht⟩)
      · exact Or.inl hs
    simp [requestVoteReply, hoff]

theorem becomeLeader_cases (rf : Raft n κ) (electionTerm : ℕ) :
    rf.becomeLeader electionTerm = (rf, false) ∨
    (rf.state = Role.candidate ∧ electionTerm = rf.currTerm ∧ ∃ next,
      rf.becomeLeader electionTerm =
        ({ rf with state := Role.leader, nextIndex := next }, true)) := by
  unfold becomeLeader
  split
  · exact Or.inl rfl
  · next hon =>
      rw [not_or, not_not, not_not] at hon
      exact Or.inr ⟨hon.1, hon.2, _, rfl⟩

/-! ## Start -/

theorem start_of_leader {rf : Raft n κ} (hlead : rf.state = Role.leader) (command : Option κ) :
    (rf.start command).1 =
      ({ rf with logs := rf.logs ++ [⟨rf.currTerm, command⟩] } : Raft n κ).persist := by
  simp only [start, hlead, ne_eq, not_true_eq_false, if_false]

theorem start_fullLog {rf : Raft n κ} (hwf : rf.WF) (hlead : rf.state = Role.leader)
    (command : Option κ) :
    (rf.start command).1.fullLog = rf.fullLog ++ [⟨rf.currTerm, command⟩] := by
  obtain ⟨head, hlogs, _⟩ := hwf.logs_eq
  rw [start_of_leader hlead]
  show rf.covers ++ (rf.logs ++ [_]).tail = (rf.covers ++ rf.logs.tail) ++ [_]
  rw [hlogs, List.append_assoc]
  rfl

theorem WF.start {rf : Raft n κ} (hwf : rf.WF) (hlead : rf.state = Role.leader)
    (command : Option κ) : (rf.start command).1.WF := by
  obtain ⟨head, hlogs, _⟩ := hwf.logs_eq
  rw [start_of_leader hlead]
  refine ⟨?_, hwf.covers_length, hwf.covers_term⟩
  have hhead := hwf.head_term
  rw [hlogs] at hhead
  show ((rf.logs ++ [_]).head?).map LogEntry.term = _
  rw [hlogs]
  exact hhead

/-! ## Replication -/

/-- The request a sender builds carries its own log behind `prevLogIndex`. -/
theorem appendEntriesArgs_spec {peer : Fin n} {args : AppendEntriesArgs n κ} (hwf : rf.WF)
    (hnext : rf.lastIncludedIndex < rf.nextIndex peer)
    (h : rf.appendEntriesArgs peer = some args) :
    args.term = rf.currTerm ∧ args.leaderCommit = rf.commitIndex ∧
      args.prevLogIndex ≤ rf.fullLog.length ∧
      args.entries = rf.fullLog.drop args.prevLogIndex ∧
      args.prevLogTerm = lastTerm LogEntry.term (rf.fullLog.take args.prevLogIndex) := by
  unfold appendEntriesArgs at h
  dsimp only at h
  split at h
  · exact absurd h (by simp)
  · next hlen =>
      split at h
      · exact absurd h (by simp)
      · next prev hprev =>
          simp only [Option.some.injEq] at h
          subst h
          have hle : rf.nextIndex peer - 1 ≤ rf.fullLog.length := by
            have := hwf.lastLogicalIndex_eq
            rw [lastLogicalIndex] at this
            omega
          obtain ⟨e, he, het⟩ := hwf.entryAt_term (i := rf.nextIndex peer - 1) (by omega) hle
          have hprev' : rf.entryAt (rf.nextIndex peer - 1) = some prev := by
            rw [entryAt, if_neg (by omega), ← hprev]
            congr 1
            omega
          obtain rfl : prev = e := Option.some.inj (hprev'.symm.trans he)
          exact ⟨rfl, rfl, hle, hwf.drop_logs hnext, het⟩

/-- `commitIndexUpdate` leaves `commitIndex` or sets it to an index of the current term that enough
    servers hold by `matchIndex`. -/
theorem commitIndexUpdateFrom_spec (N : ℕ) (h : rf.commitIndexUpdateFrom N = some rf') :
    rf' = rf ∨ ∃ i e, i ≤ N ∧ rf.commitIndex < i ∧ rf.entryAt i = some e ∧
      e.term = rf.currTerm ∧ n / 2 < rf.matchCount i ∧ rf' = { rf with commitIndex := i } := by
  induction N with
  | zero => exact Or.inl (Option.some.inj h).symm
  | succ N ih =>
      -- below this index the loop does the same
      have hdown : rf.commitIndexUpdateFrom N = some rf' → rf' = rf ∨ ∃ i e, i ≤ N + 1 ∧
          rf.commitIndex < i ∧ rf.entryAt i = some e ∧ e.term = rf.currTerm ∧
          n / 2 < rf.matchCount i ∧ rf' = { rf with commitIndex := i } := fun hrest =>
        (ih hrest).imp_right (fun ⟨i, e, hi, hrest'⟩ => ⟨i, e, hi.trans (Nat.le_succ N), hrest'⟩)
      unfold commitIndexUpdateFrom at h
      split at h
      · next hlt =>
          split at h
          · exact absurd h (by simp)
          · next e he =>
              split at h
              · exact hdown h
              · next het =>
                  split at h
                  · next hcount =>
                      exact Or.inr ⟨N + 1, e, le_rfl, hlt, he, not_not.1 het, hcount,
                        (Option.some.inj h).symm⟩
                  · exact hdown h
      · exact Or.inl (Option.some.inj h).symm

/-- What the sender makes of a reply to `AppendEntries`, one case for each way through the
    goroutine. -/
inductive Digest (rf : Raft n κ) (peer : Fin n) (args : AppendEntriesArgs n κ)
    (reply : AppendEntriesReply) : Raft n κ → Bool → Prop
  | ignored (hno : rf.currTerm ≠ args.term ∨ rf.state ≠ Role.leader) :
      Digest rf peer args reply rf false
  | deposed (hterm : rf.currTerm = args.term) (hlt : rf.currTerm < reply.term) :
      Digest rf peer args reply (rf.stepDown reply.term) false
  | counted {rf' : Raft n κ} {matched commitIndex : ℕ} (hterm : rf.currTerm = args.term)
      (hlead : rf.state = Role.leader) (hsucc : reply.success = true)
      (hmatched : matched = max (args.prevLogIndex + args.entries.length) (rf.matchIndex peer))
      (heq : rf' = { rf with
        nextIndex := Function.update rf.nextIndex peer (matched + 1)
        matchIndex := Function.update rf.matchIndex peer matched
        commitIndex := commitIndex })
      (hcommit : commitIndex = rf.commitIndex ∨ ∃ e, rf.commitIndex < commitIndex ∧
        rf.entryAt commitIndex = some e ∧ e.term = rf.currTerm ∧
        n / 2 < rf'.matchCount commitIndex) :
      Digest rf peer args reply rf' false
  | lagging (hterm : rf.currTerm = args.term) (hlead : rf.state = Role.leader) :
      Digest rf peer args reply rf true
  | found {next : ℕ} (hterm : rf.currTerm = args.term) (hlead : rf.state = Role.leader)
      (hfound : rf.lastOfTerm reply.conflictTerm rf.logs.length = some next) :
      Digest rf peer args reply (rf.setNextIndex peer (max next 1)) false
  | named (hterm : rf.currTerm = args.term) (hlead : rf.state = Role.leader) :
      Digest rf peer args reply (rf.setNextIndex peer (max reply.conflictIndex 1)) false

section Reply

variable {peer : Fin n} {args : AppendEntriesArgs n κ} {reply : AppendEntriesReply}
  {lagging : Bool}

/-- A reply that reports success is counted. -/
theorem digest_counted {matched : ℕ} (hterm : rf.currTerm = args.term)
    (hlead : rf.state = Role.leader) (hsucc : reply.success = true)
    (hmatched : matched = max (args.prevLogIndex + args.entries.length) (rf.matchIndex peer))
    (h : (({ rf with matchIndex := Function.update rf.matchIndex peer matched } :
      Raft n κ).setNextIndex peer (matched + 1)).commitIndexUpdate = some rf') :
    Digest rf peer args reply (rf'.setNextIndex peer (max (rf'.nextIndex peer) 1)) false := by
  -- counting has set `nextIndex` above zero already
  have hnext : rf'.nextIndex peer = matched + 1 := by
    rcases commitIndexUpdateFrom_spec _ h with rfl | ⟨i, e, _, _, _, _, _, rfl⟩
    · exact Function.update_self _ _ _
    · exact Function.update_self _ _ _
  have hself : rf'.setNextIndex peer (max (rf'.nextIndex peer) 1) = rf' := by
    rw [Nat.max_eq_left (by omega), setNextIndex, Function.update_eq_self]
  rw [hself]
  rcases commitIndexUpdateFrom_spec _ h with rfl | ⟨i, e, _, hi, he, het, hcount, rfl⟩
  · exact .counted hterm hlead hsucc hmatched rfl (Or.inl rfl)
  · exact .counted hterm hlead hsucc hmatched rfl (Or.inr ⟨e, hi, he, het, hcount⟩)

/-- **Inversion of the reply.** -/
theorem appendEntriesReply_digest
    (h : rf.appendEntriesReply peer args reply = some (rf', lagging)) :
    Digest rf peer args reply rf' lagging := by
  unfold appendEntriesReply at h
  split at h
  · next hterm =>
      obtain ⟨rfl, rfl⟩ := Prod.mk.inj (Option.some.inj h)
      exact .ignored (Or.inl hterm)
  · next hterm =>
      have hterm : rf.currTerm = args.term := not_not.1 hterm
      split at h
      · next hlt =>
          obtain ⟨rfl, rfl⟩ := Prod.mk.inj (Option.some.inj h)
          exact .deposed hterm hlt
      · split at h
        · next hstate =>
            obtain ⟨rfl, rfl⟩ := Prod.mk.inj (Option.some.inj h)
            exact .ignored (Or.inr hstate)
        · next hstate =>
            have hlead : rf.state = Role.leader := not_not.1 hstate
            split at h
            · next hsucc =>
                dsimp only at h
                split at h
                · exact absurd h (by simp)
                · next rf₁ hupd =>
                    obtain ⟨rfl, rfl⟩ := Prod.mk.inj (Option.some.inj h)
                    exact digest_counted hterm hlead hsucc rfl hupd
            · split at h
              · obtain ⟨rfl, rfl⟩ := Prod.mk.inj (Option.some.inj h)
                exact .named hterm hlead
              · split at h
                · obtain ⟨rfl, rfl⟩ := Prod.mk.inj (Option.some.inj h)
                  exact .lagging hterm hlead
                · split at h
                  · next next hfound =>
                      obtain ⟨rfl, rfl⟩ := Prod.mk.inj (Option.some.inj h)
                      exact .found hterm hlead hfound
                  · obtain ⟨rfl, rfl⟩ := Prod.mk.inj (Option.some.inj h)
                    exact .named hterm hlead

/-- **Reply to AppendEntries.** The sender steps down, moves `nextIndex`, or counts the
    acknowledgement and perhaps commits. -/
theorem appendEntriesReply_spec
    (h : rf.appendEntriesReply peer args reply = some (rf', lagging)) :
    (rf.currTerm = args.term ∧ rf.currTerm < reply.term ∧ rf' = rf.stepDown reply.term ∧
      lagging = false) ∨
    (∃ next, rf' = { rf with nextIndex := next } ∧ (lagging = true → rf.state = Role.leader)) ∨
    (rf.state = Role.leader ∧ rf.currTerm = args.term ∧ reply.success = true ∧ lagging = false ∧
      ∃ next commitIndex, rf' = { rf with
          nextIndex := next
          matchIndex := Function.update rf.matchIndex peer
            (max (args.prevLogIndex + args.entries.length) (rf.matchIndex peer))
          commitIndex := commitIndex } ∧
        (commitIndex = rf.commitIndex ∨ ∃ e, rf.commitIndex < commitIndex ∧
          rf.entryAt commitIndex = some e ∧ e.term = rf.currTerm ∧
          n / 2 < rf'.matchCount commitIndex)) := by
  cases appendEntriesReply_digest h with
  | ignored => exact Or.inr (Or.inl ⟨rf.nextIndex, rfl, by simp⟩)
  | deposed hterm hlt => exact Or.inl ⟨hterm, hlt, rfl, rfl⟩
  | counted hterm hlead hsucc hmatched heq hcommit =>
      subst hmatched
      exact Or.inr (Or.inr ⟨hlead, hterm, hsucc, rfl, _, _, heq, hcommit⟩)
  | lagging _ hlead => exact Or.inr (Or.inl ⟨rf.nextIndex, rfl, fun _ => hlead⟩)
  | found _ hlead _ => exact Or.inr (Or.inl ⟨_, rfl, fun _ => hlead⟩)
  | named _ hlead => exact Or.inr (Or.inl ⟨_, rfl, fun _ => hlead⟩)

end Reply

theorem installSnapshotReply_cases (rf : Raft n κ) (peer : Fin n) (args : InstallSnapshotArgs n κ)
    (reply : InstallSnapshotReply) :
    (rf.currTerm < reply.term ∧
      rf.installSnapshotReply peer args reply = rf.stepDown reply.term) ∨
    rf.installSnapshotReply peer args reply = rf ∨
    (rf.state = Role.leader ∧ rf.currTerm = args.term ∧ reply.term ≤ rf.currTerm ∧ ∃ next,
      rf.installSnapshotReply peer args reply =
        { rf with
          nextIndex := next
          matchIndex := Function.update rf.matchIndex peer
            (max args.lastIncludedIndex (rf.matchIndex peer)) }) := by
  unfold installSnapshotReply
  split
  · next hhigh => exact Or.inl ⟨hhigh, rfl⟩
  · next hlow =>
      right
      split
      · exact Or.inl rfl
      · next hon =>
          rw [not_or, not_not, not_not] at hon
          exact Or.inr ⟨hon.1, hon.2, not_lt.1 hlow, _, rfl⟩

/-- What `sendApplyMsg` hands over is the next committed entry. -/
theorem sendApplyMsg_spec {msg : ApplyMsg κ} (h : rf.sendApplyMsg = some (rf', msg)) :
    rf.lastApplied < rf.commitIndex ∧ rf' = { rf with lastApplied := rf.lastApplied + 1 } ∧
      ∃ e, rf.entryAt (rf.lastApplied + 1) = some e ∧
        msg = .command (rf.lastApplied + 1) e.command := by
  unfold sendApplyMsg at h
  split at h
  · next hon =>
      split at h
      · exact absurd h (by simp)
      · next e he =>
          simp only [Option.some.injEq, Prod.mk.injEq] at h
          exact ⟨hon.1, h.1.symm, e, he, h.2.symm⟩
  · exact absurd h (by simp)

/-! ## Roles

Only `startElection` makes a candidate and only `becomeLeader` a leader: whatever else happens
leaves role and term, or makes a follower. -/

/-- `rf'` has the role of `rf` in the same term, or is a follower. -/
def Calm (rf rf' : Raft n κ) : Prop :=
  rf'.state = Role.follower ∨ (rf'.state = rf.state ∧ rf'.currTerm = rf.currTerm)

theorem Calm.candidate (h : Calm rf rf') (hc : rf'.state = Role.candidate) :
    rf.state = Role.candidate ∧ rf'.currTerm = rf.currTerm := by
  rcases h with hf | ⟨hs, ht⟩
  · exact absurd (hc.symm.trans hf) (by simp)
  · exact ⟨hs.symm.trans hc, ht⟩

theorem calm_refl (rf : Raft n κ) : Calm rf rf := Or.inr ⟨rfl, rfl⟩

theorem calm_stepDown (rf : Raft n κ) (T : ℕ) : Calm rf (rf.stepDown T) := Or.inl rfl

theorem calm_seeTerm (rf : Raft n κ) (T : ℕ) : Calm rf (rf.seeTerm T) := by
  unfold seeTerm
  split
  · exact calm_stepDown rf T
  · exact calm_refl rf

theorem calm_requestVote {args : RequestVoteArgs n} {reply : RequestVoteReply} (hwf : rf.WF)
    (h : rf.requestVote args = some (rf', reply)) : Calm rf rf' := by
  rcases requestVote_spec hwf h with ⟨rfl, _⟩ | ⟨_, _, _, rfl⟩
  · exact calm_seeTerm rf _
  · exact Or.inl rfl

theorem calm_appendEntries {args : AppendEntriesArgs n κ} {reply : AppendEntriesReply}
    (hwf : rf.WF) (h : rf.appendEntries args = some (rf', reply)) : Calm rf rf' := by
  rcases appendEntries_cases hwf h with ⟨_, rfl, _⟩ | ⟨_, rfl, _⟩ | ⟨_, _, _, _, _, _, _, rfl, _⟩
  · exact calm_refl _
  · exact Or.inl (follow_state _ _)
  · exact Or.inl (follow_state _ _)

theorem calm_installSnapshot (rf : Raft n κ) (args : InstallSnapshotArgs n κ) :
    Calm rf (rf.installSnapshot args).1 := by
  unfold installSnapshot
  split
  · exact calm_refl rf
  · dsimp only
    split
    · exact Or.inl (follow_state _ _)
    · exact Or.inl (follow_state _ _)

theorem calm_appendEntriesReply {peer : Fin n} {args : AppendEntriesArgs n κ}
    {reply : AppendEntriesReply} {lagging : Bool}
    (h : rf.appendEntriesReply peer args reply = some (rf', lagging)) : Calm rf rf' := by
  rcases appendEntriesReply_spec h with
    ⟨_, _, rfl, _⟩ | ⟨_, rfl, _⟩ | ⟨_, _, _, _, _, _, rfl, _⟩
  · exact calm_stepDown rf _
  · exact Or.inr ⟨rfl, rfl⟩
  · exact Or.inr ⟨rfl, rfl⟩

theorem calm_installSnapshotReply (rf : Raft n κ) (peer : Fin n) (args : InstallSnapshotArgs n κ)
    (reply : InstallSnapshotReply) : Calm rf (rf.installSnapshotReply peer args reply) := by
  rcases installSnapshotReply_cases rf peer args reply with
    ⟨_, heq⟩ | heq | ⟨_, _, _, _, heq⟩
  · rw [heq]
    exact calm_stepDown rf _
  · rw [heq]
    exact calm_refl rf
  · rw [heq]
    exact Or.inr ⟨rfl, rfl⟩

theorem calm_start (rf : Raft n κ) (command : Option κ) : Calm rf (rf.start command).1 := by
  unfold start
  split
  · exact calm_refl rf
  · exact Or.inr ⟨rfl, rfl⟩

theorem calm_snapshot {index : ℕ} {data : List UInt8} (hwf : rf.WF)
    (h : rf.snapshot index data = some rf') : Calm rf rf' := by
  rcases snapshot_spec hwf h with rfl | ⟨_, _, _, _, _, _, _, _, _, rfl⟩
  · exact calm_refl _
  · exact Or.inr ⟨rfl, rfl⟩

end Raft

end AiFS
