import Mathlib
import AiFS.Lib.LastSeen

set_option autoImplicit false

/-! # The key/value state machine

The replicated part of `kvraft/server.go`: the operations, the store, the record of the last
operation of every client, and what the applier does with a committed operation. Maps are functions
to `Option`; `delete` of an absent key and `+=` on one are Go's.

`Op.Type` is a string in the source; `other` is a string that no case of `applyToStateMachine`
names. `SeqId` and `ClientId` are unbounded integers here, nothing is computed with them but
comparisons. The log line of the applier is left out. -/

namespace AiFS

namespace KV

/-! ## Operations and replies -/

inductive OpType
  | get
  | put
  | append
  | delete
  | other (name : String)
deriving DecidableEq, Repr

structure Op where
  type : OpType
  key : String
  value : String
  seqId : ℤ
  clientId : ℤ
deriving DecidableEq, Repr

/-- `Err`; `empty` is the zero value. -/
inductive Err
  | empty
  | ok
  | errNoKey
  | errWrongLeader
  | errTimeOut
  | errBadRequest
deriving DecidableEq, Repr

structure OpReply where
  err : Err := Err.empty
  value : String := ""
deriving DecidableEq, Repr

structure LastOpRecord where
  lastSeqId : ℤ
  lastReply : OpReply
deriving DecidableEq, Repr

/-- The pair a client and one of its numbers, which the records go by. -/
def Op.id (op : Op) : ℤ × ℤ :=
  (op.clientId, op.seqId)

/-! ## The store -/

abbrev Store := String → Option String

def getHandler (kvStore : Store) (cmd : Op) : OpReply :=
  match kvStore cmd.key with
  | some val => { value := val, err := Err.ok }
  | none => { err := Err.errNoKey }

def putHandler (kvStore : Store) (cmd : Op) : Store × OpReply :=
  (Function.update kvStore cmd.key (some cmd.value), { err := Err.ok })

def deleteHandler (kvStore : Store) (cmd : Op) : Store × OpReply :=
  (Function.update kvStore cmd.key none, { err := Err.ok })

def appendHandler (kvStore : Store) (cmd : Op) : Store × OpReply :=
  (Function.update kvStore cmd.key (some ((kvStore cmd.key).getD "" ++ cmd.value)),
    { err := Err.ok })

def applyToStateMachine (kvStore : Store) (cmd : Op) : Store × OpReply :=
  match cmd.type with
  | .get => (kvStore, getHandler kvStore cmd)
  | .put => putHandler kvStore cmd
  | .append => appendHandler kvStore cmd
  | .delete => deleteHandler kvStore cmd
  | .other _ => (kvStore, {})

/-! ## The applier -/

/-- What the applier keeps, and what a snapshot holds. -/
structure State where
  kvStore : Store
  recordMap : ℤ → Option LastOpRecord

def State.empty : State where
  kvStore := fun _ => none
  recordMap := fun _ => none

namespace State

/-- The dedup test: the last record of the client is not older than the operation. -/
def seen (st : State) (cmd : Op) : Option OpReply :=
  match st.recordMap cmd.clientId with
  | some record => if record.lastSeqId ≥ cmd.seqId then some record.lastReply else none
  | none => none

/-- The store after a committed operation, and the reply the applier computes for it. -/
def execute (st : State) (cmd : Op) : Store × OpReply :=
  match st.seen cmd with
  | some reply => (st.kvStore, reply)
  | none => applyToStateMachine st.kvStore cmd

/-- What the applier does with a committed operation. The record is rewritten in any case. -/
def apply (st : State) (cmd : Op) : State where
  kvStore := (st.execute cmd).1
  recordMap := Function.update st.recordMap cmd.clientId
    (some { lastSeqId := cmd.seqId, lastReply := (st.execute cmd).2 })

/-- The state after committed operations. -/
def replay (ops : List Op) : State :=
  ops.foldl apply empty

/-- The replies the applier computes, one after the other. -/
def repliesFrom (st : State) : List Op → List OpReply
  | [] => []
  | op :: ops => (st.execute op).2 :: repliesFrom (st.apply op) ops

/-- The reply the applier computes for an operation at a position of a sequence. -/
def replyAt (ops : List Op) (p : ℕ) (op : Op) : OpReply :=
  ((replay (ops.take p)).execute op).2

/-- The operations for which `applyToStateMachine` is run. -/
def executedFrom (st : State) : List Op → List Op
  | [] => []
  | op :: ops =>
      if (st.seen op).isNone then op :: executedFrom (st.apply op) ops
      else executedFrom (st.apply op) ops

@[simp] theorem replay_nil : replay [] = empty := rfl

@[simp] theorem replay_concat (ops : List Op) (op : Op) :
    replay (ops ++ [op]) = (replay ops).apply op := by
  simp [replay]

theorem repliesFrom_append (st : State) (ops ops' : List Op) :
    repliesFrom st (ops ++ ops') =
      repliesFrom st ops ++ repliesFrom (ops.foldl apply st) ops' := by
  induction ops generalizing st with
  | nil => rfl
  | cons op ops ih => simp only [List.cons_append, repliesFrom, ih, List.foldl_cons]

theorem length_repliesFrom (st : State) (ops : List Op) :
    (repliesFrom st ops).length = ops.length := by
  induction ops generalizing st with
  | nil => rfl
  | cons op ops ih => simp [repliesFrom, ih]

@[simp] theorem recordMap_apply_self (st : State) (cmd : Op) :
    (st.apply cmd).recordMap cmd.clientId =
      some { lastSeqId := cmd.seqId, lastReply := (st.execute cmd).2 } := by
  simp [apply]

theorem recordMap_apply_of_ne (st : State) {cmd : Op} {c : ℤ} (h : c ≠ cmd.clientId) :
    (st.apply cmd).recordMap c = st.recordMap c := by
  simp [apply, h]

/-- An operation that is committed twice in a row gets the same reply and changes nothing the second
    time. -/
theorem execute_apply (st : State) (cmd : Op) :
    (st.apply cmd).execute cmd = ((st.apply cmd).kvStore, (st.execute cmd).2) := by
  have hseen : (st.apply cmd).seen cmd = some (st.execute cmd).2 := by
    simp [seen]
  simp only [execute, hseen]

theorem apply_apply (st : State) (cmd : Op) : (st.apply cmd).apply cmd = st.apply cmd := by
  rw [apply, execute_apply]
  simp [apply]

theorem take_succ_of_getElem? {ops : List Op} {i : ℕ} {op : Op} (h : ops[i]? = some op) :
    ops.take (i + 1) = ops.take i ++ [op] := by
  rw [List.take_add_one, h]
  rfl

theorem replyAt_again {ops : List Op} {i : ℕ} {op : Op} (h : ops[i]? = some op) :
    ((replay (ops.take (i + 1))).execute op).2 = replyAt ops i op := by
  rw [take_succ_of_getElem? h, replay_concat, execute_apply, replyAt]

/-! ## Records and the last number seen -/

open LastSeen in
/-- The record of a client holds the number of its last operation. -/
theorem lastSeqId_replay (ops : List Op) (c : ℤ) :
    ((replay ops).recordMap c).map LastOpRecord.lastSeqId = lastOf c (ops.map Op.id) := by
  induction ops using List.reverseRecOn with
  | nil => rfl
  | append_singleton ops op ih =>
      rw [replay_concat, List.map_append, List.map_singleton]
      by_cases hc : op.clientId = c
      · subst hc
        rw [recordMap_apply_self, Op.id, lastOf_concat_self, Option.map_some]
      · rw [recordMap_apply_of_ne _ (Ne.symm hc), Op.id, lastOf_concat_of_ne hc, ih]

theorem replyAt_append {ops : List Op} {p : ℕ} (hp : p ≤ ops.length) (rest : List Op) (op : Op) :
    replyAt (ops ++ rest) p op = replyAt ops p op := by
  rw [replyAt, replyAt, List.take_append_of_le_length hp]

/-- It also holds the reply that this operation got. -/
theorem lastReply_replay (ops : List Op) {c : ℤ} {record : LastOpRecord}
    (h : (replay ops).recordMap c = some record) :
    ∃ (p : ℕ) (op : Op), ops[p]? = some op ∧ op.id = (c, record.lastSeqId) ∧
      record.lastReply = replyAt ops p op := by
  induction ops using List.reverseRecOn with
  | nil => exact absurd h (by simp [empty])
  | append_singleton ops op ih =>
      rw [replay_concat] at h
      by_cases hc : c = op.clientId
      · subst hc
        rw [recordMap_apply_self, Option.some.injEq] at h
        subst h
        refine ⟨ops.length, op, by simp, rfl, ?_⟩
        rw [replyAt_append le_rfl, replyAt, List.take_length]
      · rw [recordMap_apply_of_ne _ hc] at h
        obtain ⟨p, x, hx, hid, hreply⟩ := ih h
        have hlt := (List.getElem?_eq_some_iff.1 hx).1
        refine ⟨p, x, by rwa [List.getElem?_append_left hlt], hid, ?_⟩
        rw [replyAt_append hlt.le, hreply]

open LastSeen in
/-- `applyToStateMachine` is run for the operations the filter lets pass. -/
theorem seen_replay (ops : List Op) (cmd : Op) :
    ((replay ops).seen cmd).isNone = passes (ops.map Op.id) cmd.id := by
  have hlast := lastSeqId_replay ops cmd.clientId
  rw [passes, Op.id, ← hlast, seen]
  cases (replay ops).recordMap cmd.clientId with
  | none => rfl
  | some record =>
      by_cases hle : cmd.seqId ≤ record.lastSeqId
      · simp [rising, hle]
      · simp [rising, hle, not_le.1 hle]

end State

end KV

end AiFS
