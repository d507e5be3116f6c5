import AiFS.Lib.TermLog
import AiFS.Raft.Handlers

set_option autoImplicit false

/-! # The shape of one server's log

`Raft.WF` says how `logs`, `lastIncludedIndex`, `lastIncludedTerm` and the snapshot of one server
fit together, and `Raft.Mirrored` that the persister holds what is in memory. Under `WF` the
physical index arithmetic disappears: `lastLogicalIndex` is the length of `fullLog`, an access by
logical index is one into `fullLog`, and the term a server reads at an index (the head entry's
included) is the last term of `fullLog` up to there. -/

namespace AiFS

open TermLog

namespace Raft

variable {n : ℕ} {κ : Type}

/-! ## Fields the term handling leaves alone -/

section SeeTerm

variable (rf : Raft n κ) (T : ℕ)

@[simp] theorem seeTerm_me : (rf.seeTerm T).me = rf.me := by
  unfold seeTerm; split <;> rfl
@[simp] theorem seeTerm_logs : (rf.seeTerm T).logs = rf.logs := by
  unfold seeTerm; split <;> rfl
@[simp] theorem seeTerm_snapshot :
    (rf.seeTerm T).persister.snapshot = rf.persister.snapshot := by
  unfold seeTerm; split <;> rfl
@[simp] theorem seeTerm_covers : (rf.seeTerm T).covers = rf.covers :=
  congrArg Snapshot.covers (seeTerm_snapshot rf T)
@[simp] theorem seeTerm_lastIncludedIndex :
    (rf.seeTerm T).lastIncludedIndex = rf.lastIncludedIndex := by
  unfold seeTerm; split <;> rfl
@[simp] theorem seeTerm_lastIncludedTerm :
    (rf.seeTerm T).lastIncludedTerm = rf.lastIncludedTerm := by
  unfold seeTerm; split <;> rfl
@[simp] theorem seeTerm_commitIndex : (rf.seeTerm T).commitIndex = rf.commitIndex := by
  unfold seeTerm; split <;> rfl
@[simp] theorem seeTerm_lastApplied : (rf.seeTerm T).lastApplied = rf.lastApplied := by
  unfold seeTerm; split <;> rfl

@[simp] theorem seeTerm_currTerm : (rf.seeTerm T).currTerm = max rf.currTerm T := by
  unfold seeTerm
  split
  · next h => exact (max_eq_right h.le).symm
  · next h => exact (max_eq_left (not_lt.1 h)).symm

@[simp] theorem seeTerm_fullLog : (rf.seeTerm T).fullLog = rf.fullLog := by
  simp [fullLog]

theorem seeTerm_of_lt {rf : Raft n κ} {T : ℕ} (h : rf.currTerm < T) :
    rf.seeTerm T = rf.stepDown T := if_pos h

theorem seeTerm_of_le {rf : Raft n κ} {T : ℕ} (h : T ≤ rf.currTerm) : rf.seeTerm T = rf :=
  if_neg (not_lt.2 h)

@[simp] theorem follow_me : (rf.follow T).me = rf.me := seeTerm_me _ _
@[simp] theorem follow_logs : (rf.follow T).logs = rf.logs := seeTerm_logs _ _
@[simp] theorem follow_snapshot :
    (rf.follow T).persister.snapshot = rf.persister.snapshot := seeTerm_snapshot _ _
@[simp] theorem follow_covers : (rf.follow T).covers = rf.covers := seeTerm_covers _ _
@[simp] theorem follow_lastIncludedIndex :
    (rf.follow T).lastIncludedIndex = rf.lastIncludedIndex := seeTerm_lastIncludedIndex _ _
@[simp] theorem follow_lastIncludedTerm :
    (rf.follow T).lastIncludedTerm = rf.lastIncludedTerm := seeTerm_lastIncludedTerm _ _
@[simp] theorem follow_commitIndex : (rf.follow T).commitIndex = rf.commitIndex :=
  seeTerm_commitIndex _ _
@[simp] theorem follow_lastApplied : (rf.follow T).lastApplied = rf.lastApplied :=
  seeTerm_lastApplied _ _
@[simp] theorem follow_currTerm : (rf.follow T).currTerm = max rf.currTerm T :=
  seeTerm_currTerm _ _
@[simp] theorem follow_fullLog : (rf.follow T).fullLog = rf.fullLog := seeTerm_fullLog _ _
@[simp] theorem follow_entryAt (i : ℕ) : (rf.follow T).entryAt i = rf.entryAt i := by
  simp [entryAt]
@[simp] theorem follow_lastLogicalIndex :
    (rf.follow T).lastLogicalIndex = rf.lastLogicalIndex := by
  simp [lastLogicalIndex]

@[simp] theorem follow_state : (rf.follow T).state = Role.follower := by
  unfold follow seeTerm; split <;> rfl

/-- The vote of a server that has followed a term: gone if the term is new, else as it was. -/
theorem follow_votedFor :
    (rf.follow T).votedFor = if rf.currTerm < T then none else rf.votedFor := by
  unfold follow seeTerm; split <;> rfl

end SeeTerm

/-! ## Well-formed logs -/

/-- How the log of a server and its snapshot fit together. -/
structure WF (rf : Raft n κ) : Prop where
  head_term : rf.logs.head?.map LogEntry.term = some rf.lastIncludedTerm
  covers_length : rf.covers.length = rf.lastIncludedIndex
  covers_term : rf.lastIncludedTerm = lastTerm LogEntry.term rf.covers

/-- What a server without any persisted state starts with. -/
def freshState : RaftState n κ where
  currTerm := 0
  votedFor := none
  logs := [{ term := 0, command := none }]
  lastIncludedIndex := 0
  lastIncludedTerm := 0

/-- The persister holds the state in memory, or nothing while that is the initial one. -/
def Mirrored (rf : Raft n κ) : Prop :=
  rf.persister.raftstate = some rf.raftState ∨
    rf.persister.raftstate = none ∧ rf.raftState = freshState

/-- `logs` is its head entry and what is above the snapshot. -/
theorem WF.logs_eq {rf : Raft n κ} (h : rf.WF) :
    ∃ head, rf.logs = head :: rf.logs.tail ∧ head.term = rf.lastIncludedTerm := by
  have hh := h.head_term
  cases hl : rf.logs with
  | nil => simp [hl] at hh
  | cons head tail => exact ⟨head, rfl, by simpa [hl] using hh⟩

/-- Well-formedness depends on the log's fields only. -/
theorem WF.congr {rf rf' : Raft n κ} (h : rf.WF) (hlogs : rf'.logs = rf.logs)
    (hi : rf'.lastIncludedIndex = rf.lastIncludedIndex)
    (ht : rf'.lastIncludedTerm = rf.lastIncludedTerm) (hc : rf'.covers = rf.covers) : rf'.WF :=
  ⟨by rw [hlogs, ht]; exact h.head_term, by rw [hc, hi]; exact h.covers_length,
    by rw [hc, ht]; exact h.covers_term⟩

theorem WF.seeTerm {rf : Raft n κ} (h : rf.WF) (T : ℕ) : (rf.seeTerm T).WF :=
  h.congr (by simp) (by simp) (by simp) (by simp)

theorem WF.follow {rf : Raft n κ} (h : rf.WF) (T : ℕ) : (rf.follow T).WF :=
  h.congr (by simp) (by simp) (by simp) (by simp)

theorem Mirrored.seeTerm {rf : Raft n κ} (h : rf.Mirrored) (T : ℕ) : (rf.seeTerm T).Mirrored := by
  by_cases hT : rf.currTerm < T
  · rw [seeTerm_of_lt hT]
    exact Or.inl rfl
  · rwa [seeTerm_of_le (not_lt.1 hT)]

theorem Mirrored.follow {rf : Raft n κ} (h : rf.Mirrored) (T : ℕ) : (rf.follow T).Mirrored := by
  have h' : ({ rf with state := Role.follower } : Raft n κ).Mirrored := h
  exact h'.seeTerm T

section WF

variable {rf : Raft n κ} (h : rf.WF)
include h

theorem WF.lastIncludedIndex_le : rf.lastIncludedIndex ≤ rf.fullLog.length := by
  rw [← h.covers_length, fullLog, List.length_append]
  omega

theorem WF.lastLogicalIndex_eq : rf.lastLogicalIndex = rf.fullLog.length := by
  obtain ⟨head, hl, _⟩ := h.logs_eq
  have hlen : rf.logs.length = rf.logs.tail.length + 1 := by
    rw [hl]
    simp
  rw [lastLogicalIndex, fullLog, List.length_append, h.covers_length]
  omega

theorem WF.covers_eq_take : rf.covers = rf.fullLog.take rf.lastIncludedIndex := by
  rw [fullLog, ← h.covers_length, List.take_left]

/-- Above the snapshot an access is one into the whole log. -/
theorem WF.entryAt_of_lt {i : ℕ} (hi : rf.lastIncludedIndex < i) :
    rf.entryAt i = rf.fullLog[i - 1]? := by
  obtain ⟨head, hl, _⟩ := h.logs_eq
  have hlen := h.covers_length
  rw [entryAt, if_neg (by omega), fullLog, List.getElem?_append_right (by omega), hl, hlen]
  have hk : i - rf.lastIncludedIndex = (i - 1 - rf.lastIncludedIndex) + 1 := by omega
  rw [hk, List.getElem?_cons_succ, List.tail_cons]

/-- The physical log from an index above the snapshot on is the whole log from there on. -/
theorem WF.drop_logs {i : ℕ} (hi : rf.lastIncludedIndex < i) :
    rf.logs.drop (i - rf.lastIncludedIndex) = rf.fullLog.drop (i - 1) := by
  obtain ⟨head, hl, _⟩ := h.logs_eq
  have hlen := h.covers_length
  have hk : i - rf.lastIncludedIndex = (i - 1 - rf.lastIncludedIndex) + 1 := by omega
  have hk' : i - 1 = rf.covers.length + (i - 1 - rf.lastIncludedIndex) := by omega
  rw [fullLog, hk', List.drop_length_add_append, hl, hk, List.drop_succ_cons, List.tail_cons]

/-- The term a server reads at an index, the head entry's included. -/
theorem WF.entryAt_term {i : ℕ} (hi : rf.lastIncludedIndex ≤ i) (hle : i ≤ rf.fullLog.length) :
    ∃ e, rf.entryAt i = some e ∧ e.term = lastTerm LogEntry.term (rf.fullLog.take i) := by
  rcases Nat.lt_or_eq_of_le hi with hlt | heq
  · have hi' : i - 1 < rf.fullLog.length := by omega
    refine ⟨rf.fullLog[i - 1], ?_, ?_⟩
    · rw [h.entryAt_of_lt hlt, List.getElem?_eq_getElem hi']
    · have htake : rf.fullLog.take i = rf.fullLog.take (i - 1) ++ [rf.fullLog[i - 1]] := by
        rw [← List.take_succ_eq_append_getElem hi', Nat.sub_add_cancel (by omega)]
      rw [htake, lastTerm_concat]
  · obtain ⟨head, hl, ht⟩ := h.logs_eq
    refine ⟨head, ?_, ?_⟩
    · rw [entryAt, if_neg (by omega), ← heq, Nat.sub_self, hl]
      rfl
    · rw [← heq, ← h.covers_eq_take, ht, h.covers_term]

/-- The term of the last entry (of the head entry, when the log is all compacted). -/
theorem WF.lastEntry : ∃ e, rf.entryAt rf.lastLogicalIndex = some e ∧
    e.term = lastTerm LogEntry.term rf.fullLog := by
  obtain ⟨e, he, ht⟩ := h.entryAt_term h.lastIncludedIndex_le le_rfl
  rw [List.take_length] at ht
  exact ⟨e, by rw [h.lastLogicalIndex_eq]; exact he, ht⟩

end WF

end Raft

end AiFS
