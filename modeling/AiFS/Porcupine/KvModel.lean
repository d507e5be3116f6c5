import AiFS.Lib.Linearize
import AiFS.Porcupine.Checker

set_option autoImplicit false

/-! # The model of a key/value store

`models/kv.go`: what a key/value store does to one key, and a partition of a history by key. The
store itself is `storeStep`, one value for each key; `partition_linearizable` says that looking at
the keys one by one loses nothing. -/

namespace AiFS

namespace Porcupine

variable {S ι ο : Type}

/-! ## The model -/

/-- `op` is 0 for get, 1 for put, and anything else is taken for append. -/
structure KvInput where
  op : UInt8
  key : String
  value : String
deriving DecidableEq, Repr, Inhabited

structure KvOutput where
  value : String
deriving DecidableEq, Repr, Inhabited

abbrev KvOperation := Operation KvInput KvOutput

/-- `m[key] = append(m[key], v)`, with the keys in the order in which they came. -/
def insertByKey : List (String × List KvOperation) → KvOperation → List (String × List KvOperation)
  | [], v => [(v.input.key, [v])]
  | (k, ops) :: m, v =>
      if k = v.input.key then (k, ops ++ [v]) :: m else (k, ops) :: insertByKey m v

/-- The order in which a map is walked does not matter, because the keys are sorted. -/
def kvPartition (history : List KvOperation) : List (List KvOperation) :=
  let m := history.foldl insertByKey []
  ((m.map Prod.fst).mergeSort fun a b => a ≤ b).map fun k => (m.lookup k).getD []

def kvStep (state : String) (input : KvInput) (output : KvOutput) : Bool × String :=
  if input.op = 0 then (output.value = state, state)
  else if input.op = 1 then (true, input.value)
  else (true, state ++ input.value)

def kvModel : Model String KvInput KvOutput where
  partition := some kvPartition
  init := ""
  step := kvStep

/-! ## What the model says of a history -/

/-- What the model says of an operation. -/
def FilledModel.opStep (model : FilledModel S ι ο) (s : S) (op : Operation ι ο) : Option S :=
  if (model.step s op.input op.output).1 then some (model.step s op.input op.output).2 else none

/-- Which operation returned before which other one was called. -/
def Operation.Before (a b : Operation ι ο) : Prop :=
  a.ret < b.call

instance (a b : Operation ι ο) : Decidable (a.Before b) :=
  inferInstanceAs (Decidable (a.ret < b.call))

/-- A history of operations is linearizable: some order of them, in which none comes before one that
    returned before it was called, is a run of the model. -/
def FilledModel.Linearizable (model : FilledModel S ι ο) (history : List (Operation ι ο)) : Prop :=
  Linearize.Linearizable model.opStep Operation.Before model.init history

/-- The whole store. -/
def storeStep (store : String → String) (op : KvOperation) : Option (String → String) :=
  Linearize.together (fun op : KvOperation => op.input.key) (fillDefault kvModel).opStep store op

/-- A history of the store is linearizable. -/
def StoreLinearizable (history : List KvOperation) : Prop :=
  Linearize.Linearizable storeStep Operation.Before (fun _ => "") history

/-! ## The partition -/

theorem lookup_insertByKey (m : List (String × List KvOperation)) (v : KvOperation) (k : String) :
    (insertByKey m v).lookup k =
      if k = v.input.key then some ((m.lookup k).getD [] ++ [v]) else m.lookup k := by
  induction m with
  | nil =>
      by_cases hk : k = v.input.key
      · simp [insertByKey, hk]
      · simp [insertByKey, List.lookup_cons, beq_false_of_ne hk, hk]
  | cons head m ih =>
      obtain ⟨k', ops⟩ := head
      rw [insertByKey]
      by_cases hk : k = k'
      · subst hk
        by_cases hkey : k = v.input.key
        · simp [hkey]
        · simp [hkey]
      · have hne := beq_false_of_ne hk
        by_cases hk' : k' = v.input.key
        · rw [if_pos hk']
          simp [List.lookup_cons, hne, ← hk', hk]
        · rw [if_neg hk']
          simp [List.lookup_cons, hne, ih]

theorem map_fst_insertByKey (m : List (String × List KvOperation)) (v : KvOperation) :
    (insertByKey m v).map Prod.fst =
      if v.input.key ∈ m.map Prod.fst then m.map Prod.fst else m.map Prod.fst ++ [v.input.key] := by
  induction m with
  | nil => simp [insertByKey]
  | cons head m ih =>
      obtain ⟨k', ops⟩ := head
      rw [insertByKey]
      by_cases hk' : k' = v.input.key
      · simp [hk']
      · rw [if_neg hk', List.map_cons, ih]
        have hne : v.input.key ≠ k' := Ne.symm hk'
        by_cases hmem : v.input.key ∈ m.map Prod.fst
        · rw [if_pos hmem, if_pos (by simp [hmem])]
          rfl
        · rw [if_neg hmem, if_neg (by simp [hmem, hne])]
          rfl

/-- What the loop over the history builds. -/
structure Grouped (m : List (String × List KvOperation)) (history : List KvOperation) : Prop where
  nodup : (m.map Prod.fst).Nodup
  keys : ∀ k, k ∈ m.map Prod.fst ↔ k ∈ history.map (·.input.key)
  lookup : ∀ k, (m.lookup k).getD [] = history.filter (·.input.key = k)

theorem grouped_foldl (history : List KvOperation) :
    Grouped (history.foldl insertByKey []) history := by
  induction history using List.reverseRecOn with
  | nil => exact ⟨List.nodup_nil, fun k => by simp, fun k => by simp⟩
  | append_singleton history v ih =>
      rw [List.foldl_append, List.foldl_cons, List.foldl_nil]
      refine ⟨?_, fun k => ?_, fun k => ?_⟩
      · rw [map_fst_insertByKey]
        split
        · exact ih.nodup
        · next hnew =>
            refine List.nodup_append.2 ⟨ih.nodup, List.nodup_singleton _, fun a ha b hb => ?_⟩
            rintro rfl
            exact hnew (List.mem_singleton.1 hb ▸ ha)
      · rw [map_fst_insertByKey]
        split
        · next hold =>
            rw [ih.keys] at hold ⊢
            simp only [List.map_append, List.map_cons, List.map_nil, List.mem_append,
              List.mem_singleton]
            refine ⟨Or.inl, ?_⟩
            rintro (hk | rfl)
            · exact hk
            · exact hold
        · simp [ih.keys k]
      · rw [lookup_insertByKey, List.filter_append]
        by_cases hk : k = v.input.key
        · simp [hk, ih.lookup]
        · simp [hk, Ne.symm hk, ih.lookup]

/-- **Partition.** One part for each key of the history, with the operations of that key in order.
    -/
theorem kvPartition_eq (history : List KvOperation) : ∃ keys : List String, keys.Nodup ∧
    (∀ k, k ∈ keys ↔ k ∈ history.map (·.input.key)) ∧
    kvPartition history =
      keys.map fun k => Linearize.ofPart (fun op : KvOperation => op.input.key) k history := by
  have hgrouped := grouped_foldl history
  have hperm := List.mergeSort_perm ((history.foldl insertByKey []).map Prod.fst) fun a b => a ≤ b
  refine ⟨_, hperm.nodup_iff.2 hgrouped.nodup, fun k => ?_, ?_⟩
  · rw [hperm.mem_iff, hgrouped.keys]
  · simp only [kvPartition, hgrouped.lookup]
    rfl

theorem kvPartition_eq_nil_iff {history : List KvOperation} :
    kvPartition history = [] ↔ history = [] := by
  obtain ⟨keys, _, hkeys, hparts⟩ := kvPartition_eq history
  rw [hparts, List.map_eq_nil_iff]
  simp only [List.eq_nil_iff_forall_not_mem, hkeys, List.mem_map, not_exists, not_and]
  exact ⟨fun h op hop => h _ op hop rfl, fun h k op hop _ => h op hop⟩

/-- The keys can be looked at one by one. -/
theorem partition_linearizable {history : List KvOperation}
    (hspan : ∀ op ∈ history, op.call ≤ op.ret) :
    StoreLinearizable history ↔
      ∀ part ∈ kvPartition history, (fillDefault kvModel).Linearizable part := by
  obtain ⟨keys, _, hkeys, hparts⟩ := kvPartition_eq history
  refine (Linearize.linearizable_parts hspan).trans ?_
  rw [hparts, List.forall_mem_map]
  constructor
  · intro h k _
    exact h k
  · intro h k
    by_cases hk : k ∈ keys
    · exact h k hk
    · -- a key without operations
      have hnil : Linearize.ofPart (fun op : KvOperation => op.input.key) k history = [] := by
        rw [hkeys] at hk
        refine List.filter_eq_nil_iff.2 fun op hop hkey => hk ?_
        exact List.mem_map.2 ⟨op, hop, of_decide_eq_true hkey⟩
      rw [hnil]
      exact Linearize.linearizable_nil

end Porcupine

end AiFS
