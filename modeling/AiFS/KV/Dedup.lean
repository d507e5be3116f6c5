import AiFS.KV.Basic

set_option autoImplicit false

/-! # How often an operation is executed

The applier runs `applyToStateMachine` for an operation if the client's last record is older, and
rewrites the record with the operation's number in any case, also with a smaller one. So it is the
filter of `LastSeen`: over arbitrary sequences it does not prevent a second execution
(`executed_twice`), and `at_most_once` says exactly for which sequences it does. For clients whose
numbers never fall, which is what a client that waits for each reply produces, the replicated store
is that of a plain map machine fed with every operation once (`exactly_once`). -/

namespace AiFS

namespace KV

open LastSeen

/-! ## At most once -/

/-- The pairs of client and number for which `applyToStateMachine` is run, in order. -/
def executions (ops : List Op) : List (ℤ × ℤ) :=
  (State.executedFrom State.empty ops).map Op.id

/-- The executions are what the filter lets pass. -/
theorem executions_eq_passed (ops : List Op) : executions ops = passed (ops.map Op.id) := by
  have hrun : ∀ before, (State.executedFrom (State.replay before) ops).map Op.id =
      passedFrom (before.map Op.id) (ops.map Op.id) := by
    induction ops with
    | nil => exact fun _ => rfl
    | cons op ops ih =>
        intro before
        have hrest := ih (before ++ [op])
        rw [State.replay_concat, List.map_append, List.map_singleton] at hrest
        simp only [State.executedFrom, List.map_cons, passedFrom, State.seen_replay]
        split
        · rw [List.map_cons, hrest]
        · exact hrest
  exact hrun []

/-- **At most once, exactly when.** No pair of client and number is executed twice if and only if no
    client reaches a number twice by a rise, as its first one or right after a smaller one. -/
theorem at_most_once (ops : List Op) :
    (executions ops).Nodup ↔ ∀ c, (rises (numbers c (ops.map Op.id))).Nodup := by
  rw [executions_eq_passed, passed_nodup_iff]

/-- A client's operations `1` and `2`, and then late duplicates of both. -/
def lateDuplicates : List Op :=
  [⟨.append, "k", "a", 1, 7⟩, ⟨.append, "k", "b", 2, 7⟩, ⟨.append, "k", "a", 1, 7⟩,
    ⟨.append, "k", "b", 2, 7⟩]

/-- The duplicate of `1` resets the record, and the duplicate of `2` is executed again. -/
theorem executed_twice : executions lateDuplicates = [(7, 1), (7, 2), (7, 2)] ∧
    (State.replay lateDuplicates).kvStore "k" = some "abb" := by
  decide

/-! ## Exactly once

The reference: a map machine that knows nothing of clients and numbers, and the sequence in which
every operation stands once. -/

/-- One operation of a plain map. -/
def Plain.step (m : Store) (op : Op) : Store × OpReply :=
  match op.type with
  | .get =>
      (m, match m op.key with
        | some v => { err := Err.ok, value := v }
        | none => { err := Err.errNoKey })
  | .put => (fun k => if k = op.key then some op.value else m k, { err := Err.ok })
  | .append =>
      (fun k => if k = op.key then some ((m k).getD "" ++ op.value) else m k, { err := Err.ok })
  | .delete => (fun k => if k = op.key then none else m k, { err := Err.ok })
  | .other _ => (m, {})

/-- The map after a sequence of operations, and the replies it gave to them. -/
def Plain.run (ops : List Op) : Store × List ((ℤ × ℤ) × OpReply) :=
  ops.foldl (fun r op => ((Plain.step r.1 op).1, r.2 ++ [(op.id, (Plain.step r.1 op).2)]))
    (fun _ => none, [])

/-- The first occurrence of every pair of client and number. -/
def firsts (ops : List Op) : List Op :=
  ops.foldl (fun kept op => if op.id ∈ kept.map Op.id then kept else kept ++ [op]) []

theorem applyToStateMachine_eq_step (m : Store) (op : Op) :
    applyToStateMachine m op = Plain.step m op := by
  unfold applyToStateMachine Plain.step
  cases op.type with
  | get =>
      cases hm : m op.key with
      | none => simp [getHandler, hm]
      | some v => simp [getHandler, hm]
  | put =>
      simp only [putHandler, Prod.mk.injEq, and_true]
      funext k
      simp [Function.update_apply]
  | append =>
      simp only [appendHandler, Prod.mk.injEq, and_true]
      funext k
      by_cases hk : k = op.key
      · subst hk
        simp
      · simp [hk]
  | delete =>
      simp only [deleteHandler, Prod.mk.injEq, and_true]
      funext k
      simp [Function.update_apply]
  | other name => rfl

theorem Plain.run_concat (ops : List Op) (op : Op) :
    Plain.run (ops ++ [op]) = ((Plain.step (Plain.run ops).1 op).1,
      (Plain.run ops).2 ++ [(op.id, (Plain.step (Plain.run ops).1 op).2)]) := by
  simp [Plain.run]

theorem Plain.keys_run (ops : List Op) : (Plain.run ops).2.map Prod.fst = ops.map Op.id := by
  induction ops using List.reverseRecOn with
  | nil => rfl
  | append_singleton ops op ih => simp [Plain.run_concat, ih]

theorem firsts_concat (ops : List Op) (op : Op) :
    firsts (ops ++ [op]) =
      if op.id ∈ (firsts ops).map Op.id then firsts ops else firsts ops ++ [op] := by
  simp [firsts]

/-- Nothing is left out but repetitions. -/
theorem mem_firsts_ids (ops : List Op) (x : ℤ × ℤ) :
    x ∈ (firsts ops).map Op.id ↔ x ∈ ops.map Op.id := by
  induction ops using List.reverseRecOn with
  | nil => exact Iff.rfl
  | append_singleton ops op ih =>
      rw [firsts_concat, List.map_append, List.map_singleton, List.mem_append, ← ih,
        List.mem_singleton]
      split
      · next hmem => exact ⟨Or.inl, fun h => h.elim id (fun heq => heq ▸ hmem)⟩
      · rw [List.map_append, List.map_singleton, List.mem_append, List.mem_singleton]

/-- What connects the applier to the reference: the same store, and the record of a client holds
    what the reference answered to its last operation. -/
structure Tracks (ops : List Op) : Prop where
  store : (State.replay ops).kvStore = (Plain.run (firsts ops)).1
  record : ∀ c record, (State.replay ops).recordMap c = some record →
    (Plain.run (firsts ops)).2.lookup (c, record.lastSeqId) = some record.lastReply
  replies : ∀ (i : ℕ) (op : Op), ops[i]? = some op → ∃ reply,
    (State.repliesFrom State.empty ops)[i]? = some reply ∧
      (Plain.run (firsts ops)).2.lookup op.id = some reply

/-- How the reply to one more operation enters `Tracks`. -/
theorem Tracks.concat {ops : List Op} {op : Op} (h : Tracks ops) (reply : OpReply)
    (hstore : (State.replay (ops ++ [op])).kvStore = (Plain.run (firsts (ops ++ [op]))).1)
    (hreply : ((State.replay ops).execute op).2 = reply)
    (hnew : (Plain.run (firsts (ops ++ [op]))).2.lookup op.id = some reply)
    (hold : ∀ x r, (Plain.run (firsts ops)).2.lookup x = some r →
      (Plain.run (firsts (ops ++ [op]))).2.lookup x = some r) : Tracks (ops ++ [op]) where
  store := hstore
  record c record hrec := by
    rw [State.replay_concat] at hrec
    by_cases hc : c = op.clientId
    · subst hc
      rw [State.recordMap_apply_self, Option.some.injEq] at hrec
      subst hrec
      rw [hreply]
      exact hnew
    · rw [State.recordMap_apply_of_ne _ hc] at hrec
      exact hold _ _ (h.record c record hrec)
  replies i x hx := by
    have hlen := State.length_repliesFrom State.empty ops
    rw [State.repliesFrom_append]
    rcases Nat.lt_trichotomy i ops.length with hlt | heq | hgt
    · rw [List.getElem?_append_left hlt] at hx
      obtain ⟨r, hr, hlook⟩ := h.replies i x hx
      exact ⟨r, by rw [List.getElem?_append_left (by omega)]; exact hr, hold _ _ hlook⟩
    · subst heq
      obtain rfl : op = x := by simpa using hx
      refine ⟨reply, ?_, hnew⟩
      rw [List.getElem?_append_right (by omega), hlen, Nat.sub_self, ← hreply]
      rfl
    · rw [List.getElem?_eq_none (by simp; omega)] at hx
      exact absurd hx (by simp)

/-- Clients whose numbers never fall are followed by the reference. -/
theorem tracks_of_sorted (ops : List Op) (h : Sorted (ops.map Op.id)) : Tracks ops := by
  induction ops using List.reverseRecOn with
  | nil =>
      exact
        { store := rfl
          record := fun c record hrec => absurd hrec (by simp [State.empty])
          replies := fun i op hop => absurd hop (by simp) }
  | append_singleton ops op ih =>
      rw [List.map_append, List.map_singleton] at h
      have hfol := ih h.left
      obtain ⟨hpass, hlast⟩ := Sorted.passes_iff (c := op.clientId) (q := op.seqId) h
      have hseen : ((State.replay ops).seen op).isNone = true ↔ op.id ∉ ops.map Op.id := by
        rw [State.seen_replay]
        exact hpass
      by_cases hmem : op.id ∈ ops.map Op.id
      · -- a retry: its client's last operation is the same
        have hmem' : op.id ∈ (firsts ops).map Op.id := (mem_firsts_ids ops _).2 hmem
        have hfirsts : firsts (ops ++ [op]) = firsts ops := by rw [firsts_concat, if_pos hmem']
        obtain ⟨record, hrec, hseq⟩ : ∃ record,
            (State.replay ops).recordMap op.clientId = some record ∧
              record.lastSeqId = op.seqId := by
          have := State.lastSeqId_replay ops op.clientId
          rw [hlast hmem] at this
          exact Option.map_eq_some_iff.1 this
        have hexec : (State.replay ops).execute op =
            ((State.replay ops).kvStore, record.lastReply) := by
          simp [State.execute, State.seen, hrec, hseq]
        refine hfol.concat record.lastReply ?_ (by rw [hexec]) ?_ ?_
        · rw [hfirsts, ← hfol.store, State.replay_concat]
          exact congrArg Prod.fst hexec
        · rw [hfirsts, Op.id, ← hseq]
          exact hfol.record _ _ hrec
        · rw [hfirsts]
          exact fun _ _ hlook => hlook
      · -- a new operation: both machines execute it on the same store
        have hmem' : op.id ∉ (firsts ops).map Op.id := fun hin =>
          hmem ((mem_firsts_ids ops _).1 hin)
        have hfirsts : firsts (ops ++ [op]) = firsts ops ++ [op] := by
          rw [firsts_concat, if_neg hmem']
        have hexec : (State.replay ops).execute op = Plain.step (Plain.run (firsts ops)).1 op := by
          have hnone : (State.replay ops).seen op = none := Option.isNone_iff_eq_none.1
            (hseen.2 hmem)
          simp only [State.execute, hnone]
          rw [applyToStateMachine_eq_step, hfol.store]
        have hfree : (Plain.run (firsts ops)).2.lookup op.id = none := by
          rw [List.lookup_eq_none_iff]
          intro x hx
          have hx' : x.1 ∈ (firsts ops).map Op.id := by
            rw [← Plain.keys_run]
            exact List.mem_map_of_mem hx
          have hne : op.id ≠ x.1 := fun heq => hmem' (heq ▸ hx')
          simpa using hne
        refine hfol.concat (Plain.step (Plain.run (firsts ops)).1 op).2 ?_ (by rw [hexec]) ?_ ?_
        · rw [hfirsts, Plain.run_concat, State.replay_concat]
          exact congrArg Prod.fst hexec
        · rw [hfirsts, Plain.run_concat, List.lookup_append, hfree]
          simp
        · intro x r hlook
          rw [hfirsts, Plain.run_concat, List.lookup_append, hlook]
          rfl

/-- **Exactly once.** For clients whose numbers never fall, the store is that of the plain machine
    fed with first occurrences only, and the reply at every position is the plain machine's reply to
    the first occurrence of its operation. -/
theorem exactly_once (ops : List Op) (h : Sorted (ops.map Op.id)) :
    (State.replay ops).kvStore = (Plain.run (firsts ops)).1 ∧
    ∀ (i : ℕ) (op : Op), ops[i]? = some op → ∃ reply,
      (State.repliesFrom State.empty ops)[i]? = some reply ∧
        (Plain.run (firsts ops)).2.lookup op.id = some reply :=
  ⟨(tracks_of_sorted ops h).store, (tracks_of_sorted ops h).replies⟩

/-- A client reads what another has written, and retries after it was overwritten. -/
def staleRetry : List Op :=
  [⟨.put, "k", "a", 1, 7⟩, ⟨.get, "k", "", 1, 8⟩, ⟨.put, "k", "b", 2, 7⟩, ⟨.get, "k", "", 1, 8⟩]

theorem exactly_once_staleRetry : Sorted (staleRetry.map Op.id) ∧ ∃ reply,
    (State.repliesFrom State.empty staleRetry)[3]? = some reply ∧
      (Plain.run (firsts staleRetry)).2.lookup (8, 1) = some reply :=
  ⟨by decide, (exactly_once staleRetry (by decide)).2 3 ⟨.get, "k", "", 1, 8⟩ rfl⟩

end KV

end AiFS
