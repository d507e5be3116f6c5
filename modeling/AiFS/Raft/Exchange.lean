import AiFS.Raft.HandlerSpec

set_option autoImplicit false

/-! # One leader and one follower

What an exchange of `AppendEntries` does to the two logs, taken by itself: the request that
`makeAppendEntry` builds, the handler, and what the sender makes of the reply. The two servers are
arbitrary here, only their logs fit together: `LogsMatch` is log matching for two logs, each of
which may have been compacted.

The sender always ships everything from `nextIndex` on. So after a success the follower has the
sender's log, as far as that goes (`appendLoop_agree`), and the handler may clamp `LeaderCommit` to
its own last index: `commit_vouched`. -/

namespace AiFS

namespace Raft

variable {n : ℕ} {κ : Type} {lead foll foll' : Raft n κ} {peer : Fin n}

/-! ## Two logs -/

/-- The term of the entry at a logical index; at `lastIncludedIndex` that of the head entry. -/
def termAt (rf : Raft n κ) (i : ℕ) : Option ℕ :=
  (rf.entryAt i).map LogEntry.term

/-- Above both snapshots the logs are the same, up to an index. -/
def Agree (lead foll : Raft n κ) (i : ℕ) : Prop :=
  ∀ j ≤ i, lead.lastIncludedIndex < j → foll.lastIncludedIndex < j →
    foll.entryAt j = lead.entryAt j

/-- Log matching: where the logs have the same term, they are the same up to there. -/
def LogsMatch (lead foll : Raft n κ) : Prop :=
  ∀ i t, lead.termAt i = some t → foll.termAt i = some t → Agree lead foll i

theorem entryAt_of_le {rf : Raft n κ} {i : ℕ} (h : rf.lastIncludedIndex ≤ i) :
    rf.entryAt i = rf.logs[i - rf.lastIncludedIndex]? :=
  if_neg (not_lt.2 h)

/-- The index behind a log with its head entry. -/
theorem lastLogicalIndex_succ {rf : Raft n κ} (hlogs : rf.logs ≠ []) :
    rf.lastLogicalIndex + 1 = rf.lastIncludedIndex + rf.logs.length := by
  have hpos := List.length_pos_iff.2 hlogs
  unfold lastLogicalIndex
  omega

/-- A log with its head entry has an entry at every index from the snapshot to its end. -/
theorem exists_entryAt {rf : Raft n κ} {i : ℕ} (hlogs : rf.logs ≠ [])
    (hlow : rf.lastIncludedIndex ≤ i) (hhigh : i ≤ rf.lastLogicalIndex) :
    ∃ e, rf.entryAt i = some e := by
  have hlast := lastLogicalIndex_succ hlogs
  rw [entryAt_of_le hlow]
  exact ⟨_, List.getElem?_eq_getElem (by omega)⟩

@[simp] theorem follow_termAt (rf : Raft n κ) (T i : ℕ) :
    (rf.follow T).termAt i = rf.termAt i := by
  simp [termAt]

theorem LogsMatch.follow (h : LogsMatch lead foll) (T : ℕ) : LogsMatch lead (foll.follow T) := by
  intro i t hlead hfoll j hj hl hf
  rw [follow_entryAt]
  rw [follow_termAt] at hfoll
  rw [follow_lastIncludedIndex] at hf
  exact h i t hlead hfoll j hj hl hf

/-! ## The handler -/

theorem appendLoop_isSome (hlogs : foll.logs ≠ []) (entries : List (LogEntry κ)) (i : ℕ)
    (hi : foll.lastIncludedIndex ≤ i) : (foll.appendLoop i entries).isSome = true := by
  induction entries generalizing i with
  | nil => rfl
  | cons entry rest ih =>
      by_cases hle : i ≤ foll.lastLogicalIndex
      · obtain ⟨old, hold⟩ := exists_entryAt hlogs hi hle
        by_cases hterm : old.term = entry.term
        · simpa [appendLoop, hle, hold, hterm] using ih (i + 1) (hi.trans (Nat.le_succ i))
        · simp [appendLoop, hle, hold, hterm]
      · simp [appendLoop, hle]

/-- The handler answers every request: a log with its head entry is never accessed out of range. -/
theorem exists_appendEntries (hlogs : foll.logs ≠ []) (args : AppendEntriesArgs n κ) :
    ∃ foll' reply, foll.appendEntries args = some (foll', reply) := by
  suffices hsome : (foll.appendEntries args).isSome = true by
    obtain ⟨⟨foll', reply⟩, h⟩ := Option.isSome_iff_exists.1 hsome
    exact ⟨foll', reply, h⟩
  by_cases hlt : args.term < foll.currTerm
  · simp [appendEntries, hlt]
  by_cases hshort : args.prevLogIndex > foll.lastLogicalIndex
  · simp [appendEntries, hlt, hshort]
  by_cases hlow : args.prevLogIndex < foll.lastIncludedIndex
  · simp [appendEntries, hlt, hshort, hlow]
  obtain ⟨e, he⟩ := exists_entryAt hlogs (not_lt.1 hlow) (not_lt.1 hshort)
  by_cases heq : args.prevLogTerm = e.term
  · have hlogs' : (foll.follow args.term).logs ≠ [] := by rwa [follow_logs]
    obtain ⟨logs, hloop⟩ := Option.isSome_iff_exists.1
      (appendLoop_isSome hlogs' args.entries (args.prevLogIndex + 1)
        (by rw [follow_lastIncludedIndex]; omega))
    simp [appendEntries, hlt, hshort, hlow, he, heq, hloop]
  · simp [appendEntries, hlt, hshort, hlow, he, heq]

/-! ## The request -/

/-- The request `args` is built from the sender's state for `peer`: it carries everything from
    `nextIndex` on, and the term before it. -/
structure Built (lead : Raft n κ) (peer : Fin n) (args : AppendEntriesArgs n κ) : Prop where
  term : args.term = lead.currTerm
  next : args.prevLogIndex + 1 = lead.nextIndex peer
  low : lead.lastIncludedIndex ≤ args.prevLogIndex
  high : args.prevLogIndex ≤ lead.lastLogicalIndex
  prev : lead.termAt args.prevLogIndex = some args.prevLogTerm
  entries : args.entries = lead.logs.drop (args.prevLogIndex + 1 - lead.lastIncludedIndex)
  commit : args.leaderCommit = lead.commitIndex

/-- `makeAppendEntry` builds its request without a panic when `nextIndex` is in range. -/
theorem exists_built (hlogs : lead.logs ≠ [])
    (hlow : lead.lastIncludedIndex < lead.nextIndex peer)
    (hhigh : lead.nextIndex peer ≤ lead.lastLogicalIndex + 1) :
    ∃ args, lead.appendEntriesArgs peer = some args ∧ Built lead peer args := by
  have hlast := lastLogicalIndex_succ hlogs
  have hprev : lead.lastIncludedIndex ≤ lead.nextIndex peer - 1 := Nat.le_sub_one_of_lt hlow
  obtain ⟨e, he⟩ := exists_entryAt hlogs hprev (Nat.sub_le_of_le_add hhigh)
  have hnext : lead.nextIndex peer - 1 + 1 = lead.nextIndex peer := by omega
  have hlen : ¬ lead.logs.length < lead.nextIndex peer - lead.lastIncludedIndex := by omega
  have hidx : lead.nextIndex peer - lead.lastIncludedIndex - 1 =
      lead.nextIndex peer - 1 - lead.lastIncludedIndex := by omega
  have hget := he
  rw [entryAt_of_le hprev] at hget
  refine ⟨_, by simp only [appendEntriesArgs, if_neg hlen, hidx, hget]; rfl, ?_⟩
  exact
    { term := rfl
      next := hnext
      low := hprev
      high := Nat.sub_le_of_le_add hhigh
      prev := by rw [termAt, he]; rfl
      entries := by rw [hnext]
      commit := rfl }

/-! ## The loop of the handler -/

/-- Agreement, as the list of the follower has it. -/
theorem Agree.getElem? {k : ℕ} (h : Agree lead foll k) : ∀ j ≤ k, lead.lastIncludedIndex < j →
    foll.lastIncludedIndex < j → foll.logs[j - foll.lastIncludedIndex]? = lead.entryAt j := by
  intro j hj hjl hjf
  rw [← entryAt_of_le hjf.le]
  exact h j hj hjl hjf

/-- A log that is kept up to `k` and continued with the sender's entries is the sender's. -/
theorem agree_append {k : ℕ} {kept : List (LogEntry κ)} (hl : lead.lastIncludedIndex ≤ k)
    (hf : foll.lastIncludedIndex ≤ k) (hkept : kept.length = k + 1 - foll.lastIncludedIndex)
    (hold : ∀ j ≤ k, lead.lastIncludedIndex < j → foll.lastIncludedIndex < j →
      kept[j - foll.lastIncludedIndex]? = lead.entryAt j) (i : ℕ) :
    Agree lead
      { foll with logs := kept ++ lead.logs.drop (k + 1 - lead.lastIncludedIndex) } i := by
  intro j _ hjl hjf
  change foll.lastIncludedIndex < j at hjf
  rw [entryAt, if_neg (not_lt.2 hjf.le)]
  show (kept ++ _)[j - foll.lastIncludedIndex]? = _
  rcases Nat.lt_or_ge k j with hkj | hjk
  · rw [List.getElem?_append_right (by omega), List.getElem?_drop, entryAt_of_le hjl.le, hkept]
    congr 1
    omega
  · rw [List.getElem?_append_left (by omega)]
    exact hold j hjk hjl hjf

/-- **The loop over the entries.** If the logs agree up to `k` and the request carries everything
    behind it, the follower ends up with the sender's log, or more. -/
theorem appendLoop_agree (hlead : lead.logs ≠ []) (hfoll : foll.logs ≠ [])
    (hmatch : LogsMatch lead foll) (entries : List (LogEntry κ)) (k : ℕ)
    (hent : entries = lead.logs.drop (k + 1 - lead.lastIncludedIndex))
    (hl : lead.lastIncludedIndex ≤ k) (hf : foll.lastIncludedIndex ≤ k)
    (hkl : k ≤ lead.lastLogicalIndex) (hkf : k ≤ foll.lastLogicalIndex)
    (hagree : Agree lead foll k) :
    ∃ logs, foll.appendLoop (k + 1) entries = some logs ∧ logs ≠ [] ∧
      lead.lastLogicalIndex ≤ foll.lastIncludedIndex + logs.length - 1 ∧
      Agree lead { foll with logs := logs } lead.lastLogicalIndex := by
  have hlastl := lastLogicalIndex_succ hlead
  have hlastf := lastLogicalIndex_succ hfoll
  induction entries generalizing k with
  | nil =>
      have hend := List.drop_eq_nil_iff.1 hent.symm
      refine ⟨foll.logs, rfl, hfoll, by omega, ?_⟩
      intro j hj hjl hjf
      exact hagree j (by omega) hjl hjf
  | cons entry rest ih =>
      have hlt : k + 1 - lead.lastIncludedIndex < lead.logs.length := by
        by_contra hge
        rw [List.drop_of_length_le (not_lt.1 hge)] at hent
        exact absurd hent (by simp)
      obtain ⟨hentry, hrest⟩ := List.cons.inj (hent.trans (List.drop_eq_getElem_cons hlt))
      have hlen : (entry :: rest).length = lead.logs.length - (k + 1 - lead.lastIncludedIndex) := by
        rw [hent, List.length_drop]
      by_cases hle : k + 1 ≤ foll.lastLogicalIndex
      · obtain ⟨old, hat⟩ := exists_entryAt hfoll (by omega) hle
        by_cases hterm : old.term = entry.term
        · -- the entry is there already
          have hleadAt : lead.entryAt (k + 1) = some entry := by
            rw [entryAt_of_le (by omega), List.getElem?_eq_getElem hlt, hentry]
          have hnext : Agree lead foll (k + 1) := hmatch (k + 1) entry.term
            (by rw [termAt, hleadAt]; rfl) (by rw [termAt, hat, Option.map_some, hterm])
          obtain ⟨logs, hloop, hspec⟩ := ih (k + 1)
            (by rw [hrest, ← Nat.sub_add_comm (by omega)]) (by omega) (by omega) (by omega)
            (by omega) hnext
          refine ⟨logs, ?_, hspec⟩
          rw [appendLoop, if_pos hle, hat]
          simpa [hterm] using hloop
        · -- a conflict: what is there is cut off
          refine ⟨foll.logs.take (k + 1 - foll.lastIncludedIndex) ++ (entry :: rest), ?_, by simp,
            ?_, ?_⟩
          · rw [appendLoop, if_pos hle, hat]
            simp [hterm]
          · rw [List.length_append, List.length_take, hlen]
            omega
          · rw [hent]
            refine agree_append hl hf (by rw [List.length_take]; omega) (fun j hj hjl hjf => ?_) _
            rw [List.getElem?_take_of_lt (by omega)]
            exact hagree.getElem? j hj hjl hjf
      · -- the follower's log ends here
        refine ⟨foll.logs ++ (entry :: rest), ?_, by simp, ?_, ?_⟩
        · rw [appendLoop, if_neg hle]
        · rw [List.length_append, hlen]
          omega
        · rw [hent]
          exact agree_append hl hf (by omega) hagree.getElem? _

/-! ## Commits -/

/-- **A success makes the logs agree.** The handler has taken over a request of the sender: the
    follower then has the sender's log, up to its end. -/
theorem Built.merged_agree {args : AppendEntriesArgs n κ} {e : LogEntry κ}
    {logs : List (LogEntry κ)} (h : Built lead peer args) (hlead : lead.logs ≠ [])
    (hfoll : foll.logs ≠ []) (hmatch : LogsMatch lead foll)
    (hlow : foll.lastIncludedIndex ≤ args.prevLogIndex)
    (hhigh : args.prevLogIndex ≤ foll.lastLogicalIndex)
    (he : foll.entryAt args.prevLogIndex = some e) (heq : args.prevLogTerm = e.term) {T : ℕ}
    (hloop : (foll.follow T).appendLoop (args.prevLogIndex + 1) args.entries = some logs) :
    lead.lastLogicalIndex ≤ foll.lastIncludedIndex + logs.length - 1 ∧
      Agree lead { foll.follow T with logs := logs } lead.lastLogicalIndex := by
  have hagree : Agree lead (foll.follow T) args.prevLogIndex :=
    hmatch.follow T args.prevLogIndex args.prevLogTerm h.prev
      (by rw [follow_termAt, termAt, he, heq]; rfl)
  obtain ⟨logs', hloop', _, hlen, hspec⟩ := appendLoop_agree hlead
    (by rwa [follow_logs]) (hmatch.follow T) args.entries args.prevLogIndex h.entries
    h.low (by rwa [follow_lastIncludedIndex]) h.high (by rwa [follow_lastLogicalIndex]) hagree
  obtain rfl : logs' = logs := Option.some.inj (hloop'.symm.trans hloop)
  rw [follow_lastIncludedIndex] at hlen
  exact ⟨hlen, hspec⟩

/-- **A follower commits only what the request vouches for.** The request that a sender builds moves
    the follower's `commitIndex` up to the sender's at most, and over entries that are the
    sender's. -/
theorem commit_vouched (hlead : lead.logs ≠ []) (hfoll : foll.logs ≠ [])
    (hmatch : LogsMatch lead foll) (hcommit : lead.commitIndex ≤ lead.lastLogicalIndex)
    (hlow : lead.lastIncludedIndex < lead.nextIndex peer)
    (hhigh : lead.nextIndex peer ≤ lead.lastLogicalIndex + 1) :
    ∃ args foll' reply, lead.appendEntriesArgs peer = some args ∧
      foll.appendEntries args = some (foll', reply) ∧
      foll.commitIndex ≤ foll'.commitIndex ∧
      foll'.commitIndex ≤ max foll.commitIndex lead.commitIndex ∧
      (∀ i, foll.commitIndex < i → i ≤ foll'.commitIndex → lead.lastIncludedIndex < i →
        foll.lastIncludedIndex < i →
        ∃ e, lead.entryAt i = some e ∧ foll'.entryAt i = some e) ∧
      (reply.success = false → foll'.commitIndex = foll.commitIndex) := by
  obtain ⟨args, hargs, hbuilt⟩ := exists_built hlead hlow hhigh
  obtain ⟨foll', reply, hreply⟩ := exists_appendEntries hfoll args
  refine ⟨args, foll', reply, hargs, hreply, ?_⟩
  -- without a higher `LeaderCommit` or a success there is nothing to show
  have hsame : foll'.commitIndex = foll.commitIndex →
      foll.commitIndex ≤ foll'.commitIndex ∧
      foll'.commitIndex ≤ max foll.commitIndex lead.commitIndex ∧
      (∀ i, foll.commitIndex < i → i ≤ foll'.commitIndex → lead.lastIncludedIndex < i →
        foll.lastIncludedIndex < i →
        ∃ e, lead.entryAt i = some e ∧ foll'.entryAt i = some e) ∧
      (reply.success = false → foll'.commitIndex = foll.commitIndex) := by
    intro heq
    refine ⟨heq.ge, heq.le.trans (le_max_left _ _), fun i hi hi' => ?_, fun _ => heq⟩
    omega
  cases appendEntries_reaction hreply with
  | stale => exact hsame rfl
  | short => exact hsame (follow_commitIndex _ _)
  | compacted => exact hsame (follow_commitIndex _ _)
  | conflict => exact hsame (follow_commitIndex _ _)
  | @merged e logs _ hlow' hhigh' he heq hloop =>
      obtain ⟨hlen, hagree⟩ :=
        hbuilt.merged_agree hlead hfoll hmatch hlow' hhigh' he heq hloop
      rw [hbuilt.commit]
      by_cases hc : foll.commitIndex < lead.commitIndex
      · -- the follower's log now reaches as far as the sender's, so the clamp does nothing
        have hmin : min lead.commitIndex (foll.lastIncludedIndex + logs.length - 1) =
            lead.commitIndex := min_eq_left (hcommit.trans hlen)
        rw [if_pos hc, hmin]
        refine ⟨hc.le, le_max_right _ _, fun i hi hi' hil hif => ?_, by simp⟩
        obtain ⟨x, hx⟩ := exists_entryAt hlead hil.le (hi'.trans hcommit)
        refine ⟨x, hx, ?_⟩
        rw [← hx]
        exact hagree i (hi'.trans hcommit) hil (by rwa [← follow_lastIncludedIndex foll] at hif)
      · rw [if_neg hc]
        rw [hbuilt.commit, if_neg hc] at hsame
        exact hsame rfl

/-- Two logs that part at index `2`, where the follower has an entry of an older term. -/
def forkedLead (next : ℕ) : Raft 2 ℕ :=
  { make (Fin.last 1) Persister.makePersister with
    currTerm := 2
    state := Role.leader
    logs := [⟨0, none⟩, ⟨1, some 7⟩, ⟨2, some 8⟩]
    commitIndex := 2
    nextIndex := fun _ => next }

def forkedFoll : Raft 2 ℕ :=
  { make (Fin.last 0).castSucc Persister.makePersister with
    currTerm := 1
    logs := [⟨0, none⟩, ⟨1, some 7⟩, ⟨1, some 9⟩] }

theorem termAt_forkedLead (next i : ℕ) : (forkedLead next).termAt (i + 3) = none := rfl

theorem logsMatch_forked (next : ℕ) : LogsMatch (forkedLead next) forkedFoll := by
  intro i t hlead hfoll j hj _ hjf
  change 0 < j at hjf
  rcases i with _ | _ | _ | i
  · omega
  · obtain rfl : j = 1 := by omega
    rfl
  · have heq : some 2 = some 1 := hlead.trans hfoll.symm
    exact absurd heq (by simp)
  · exact absurd ((termAt_forkedLead next i).symm.trans hlead) (by simp)

theorem commit_vouched_forked : ∃ args foll' reply,
    (forkedLead 2).appendEntriesArgs (Fin.last 0).castSucc = some args ∧
    forkedFoll.appendEntries args = some (foll', reply) ∧ foll'.commitIndex ≤ 2 ∧
    (2 ≤ foll'.commitIndex → ∃ e, (forkedLead 2).entryAt 2 = some e ∧
      foll'.entryAt 2 = some e) := by
  have hnext : (forkedLead 2).lastIncludedIndex <
      (forkedLead 2).nextIndex (Fin.last 0).castSucc := by decide
  obtain ⟨args, foll', reply, hargs, hreply, _, hle, hsame, _⟩ :=
    commit_vouched (by decide) (by decide) (logsMatch_forked 2) (by decide) hnext (by decide)
  exact ⟨args, foll', reply, hargs, hreply, hle,
    fun h => hsame 2 (by decide) h (by decide) (by decide)⟩

end Raft

end AiFS
