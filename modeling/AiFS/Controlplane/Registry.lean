import AiFS.Controlplane.Keys

set_option autoImplicit false

/-! # The index of workers

What the steps of the controller do to its memory and to the index in the KV store, and what this
means for a restart. A new controller takes the index over with its first listing; but if a worker
registers or sends a heartbeat before, the index is overwritten by that worker alone and every other
worker is gone (`restart_forgets`). As long as this does not happen no worker is lost
(`restart_keeps_workers`). -/

namespace AiFS

namespace Controlplane

open Machine

variable {υ : Type} {s s' : State υ} {a : Action υ}

/-! ## The KV store -/

namespace Store

variable {kv : Store υ}

theorem put_of_ne {key key' : String} (h : key' ≠ key) (text : Text υ) (r : PutResult) :
    kv.put key text r key' = kv key' := by
  cases r with
  | lost => rfl
  | ok => exact Function.update_of_ne h _ _
  | unacked => exact Function.update_of_ne h _ _

theorem put_self (key : String) (text : Text υ) {r : PutResult} (h : r ≠ PutResult.lost) :
    kv.put key text r key = some text := by
  cases r with
  | lost => exact absurd rfl h
  | ok => exact Function.update_self _ _ _
  | unacked => exact Function.update_self _ _ _

theorem indexed_putRecord (id : String) (text : Text υ) (r : PutResult) :
    (kv.put (recordKey id) text r).indexed = kv.indexed := by
  unfold indexed
  rw [put_of_ne (recordKey_ne_index id).symm]

theorem getWorker_congr {kv' : Store υ} {id : String}
    (h : kv' (recordKey id) = kv (recordKey id)) :
    getWorker (some kv') id = getWorker (some kv) id := by
  simp only [getWorker, h]

/-- The record under `id`, if there is one, is of the worker `id`. -/
def KeptFor (kv : Store υ) (id : String) : Prop :=
  ∀ w, getWorker (some kv) id = some w → w.id = id

end Store

namespace Controller

variable {c : Controller} {kv : Store υ}

theorem indexed_saveIndexLocked {r : PutResult} (h : r ≠ PutResult.lost) :
    (c.saveIndexLocked kv r).indexed = c.seen := by
  unfold Store.indexed saveIndexLocked
  rw [Store.put_self _ _ h]
  rfl

theorem saveIndexLocked_lost : c.saveIndexLocked kv PutResult.lost = kv := rfl

theorem getWorker_saveIndexLocked (r : PutResult) (id : String) :
    getWorker (some (c.saveIndexLocked kv r)) id = getWorker (some kv) id :=
  Store.getWorker_congr (Store.put_of_ne (recordKey_ne_index id) _ _)

/-! ## The memory -/

theorem mem_mark_seen {id id' : String} {now : ℤ} :
    id' ∈ (c.mark id now).seen ↔ id' = id ∨ id' ∈ c.seen :=
  List.mem_insert_iff

theorem mark_seen_ne_nil (c : Controller) (id : String) (now : ℤ) : (c.mark id now).seen ≠ [] :=
  List.ne_nil_of_mem (mem_mark_seen.2 (Or.inl rfl))

theorem mem_expire_seen {id : String} {clock : String → ℤ} {timeout : ℤ} :
    id ∈ (c.expire clock timeout).seen ↔ id ∈ c.seen ∧ id ∉ c.expired clock timeout := by
  simp only [expire, List.mem_filter, decide_eq_true_eq]

theorem mem_expire_lastseen {id : String} {t : ℤ} {clock : String → ℤ} {timeout : ℤ} :
    (id, t) ∈ (c.expire clock timeout).lastseen ↔
      (id, t) ∈ c.lastseen ∧ id ∉ c.expired clock timeout := by
  simp only [expire, List.mem_filter, decide_eq_true_eq]

/-- A worker that is left has been heard of within the timeout. -/
theorem le_of_not_expired {id : String} {t : ℤ} {clock : String → ℤ} {timeout : ℤ}
    (hmem : (id, t) ∈ c.lastseen) (h : id ∉ c.expired clock timeout) : clock id - timeout ≤ t := by
  by_contra hlt
  refine h (List.mem_map.2 ⟨(id, t), List.mem_filter.2 ⟨hmem, ?_⟩, rfl⟩)
  simp only [decide_eq_true_eq]
  omega

end Controller

/-! ## Steps -/

/-- A call whose KV operations are all acknowledged. -/
def Action.Succeeds : Action υ → Prop
  | .registerPut _ r => r = PutResult.ok
  | .registerMark _ _ r => r = PutResult.ok
  | .heartbeat _ _ r => r = PutResult.ok
  | .loadIndex ok => ok = true
  | .tick _ _ _ => False
  | .restart => False

namespace State

/-- What `loadIndex` finds: the ids in memory, and if there are none those of the index, which it
    takes over; or nothing, with an error. -/
theorem loadIndex_cases (s : State υ) (ok : Bool) :
    (s.ctl.seen ≠ [] ∧ s.loadIndex ok = (s, some s.ctl.seen)) ∨
      (s.ctl.seen = [] ∧ s.loadIndex ok =
        ({ s with ctl := { s.ctl with seen := s.kv.indexed.dedup } }, some s.kv.indexed)) ∨
      (s.ctl.seen = [] ∧ s.loadIndex ok = (s, none) ∧ (ok = true → s.kv.indexed = [])) := by
  unfold loadIndex
  split
  · next hne => exact Or.inl ⟨hne, rfl⟩
  · next hnil =>
      have hnil := not_not.1 hnil
      split
      · next hok => exact Or.inr (Or.inr ⟨hnil, rfl, fun h => absurd h (by simp [hok])⟩)
      · split
        · next htext =>
            refine Or.inr (Or.inl ⟨hnil, ?_⟩)
            have hindex : s.kv.indexed = [] := by simp only [Store.indexed, htext]
            rw [hindex, List.dedup_nil, ← hnil]
        · next ids htext =>
            refine Or.inr (Or.inl ⟨hnil, ?_⟩)
            have hindex : s.kv.indexed = ids := by simp only [Store.indexed, htext]
            rw [hindex]
        · next text hids htext =>
            refine Or.inr (Or.inr ⟨hnil, rfl, fun _ => ?_⟩)
            unfold Store.indexed
            rw [htext]
            split
            · next ids heq => exact absurd (Option.some.inj heq) (hids ids)
            · rfl

theorem loadIndex_kv (s : State υ) (ok : Bool) : (s.loadIndex ok).1.kv = s.kv := by
  rcases s.loadIndex_cases ok with ⟨-, h⟩ | ⟨-, h⟩ | ⟨-, h, -⟩ <;> rw [h]

/-- Nothing is loaded but what is in memory or, when that is empty, in the index. -/
theorem mem_of_loadIndex {ok : Bool} {ids : List String} {id : String}
    (h : (s.loadIndex ok).2 = some ids) (hid : id ∈ ids) :
    id ∈ s.ctl.seen ∨ (s.ctl.seen = [] ∧ id ∈ s.kv.indexed) := by
  rcases s.loadIndex_cases ok with ⟨-, hload⟩ | ⟨hnil, hload⟩ | ⟨-, hload, -⟩
  · rw [hload] at h
    exact Or.inl (Option.some.inj h ▸ hid)
  · rw [hload] at h
    exact Or.inr ⟨hnil, Option.some.inj h ▸ hid⟩
  · rw [hload] at h
    cases h

theorem mem_loadIndex_seen {ok : Bool} {id : String} (h : id ∈ (s.loadIndex ok).1.ctl.seen) :
    id ∈ s.ctl.seen ∨ (s.ctl.seen = [] ∧ id ∈ s.kv.indexed) := by
  rcases s.loadIndex_cases ok with ⟨-, hload⟩ | ⟨hnil, hload⟩ | ⟨-, hload, -⟩
  · rw [hload] at h
    exact Or.inl h
  · rw [hload] at h
    exact Or.inr ⟨hnil, List.mem_dedup.1 h⟩
  · rw [hload] at h
    exact Or.inl h

theorem listWorkers_state (s : State υ) (ok : Bool) (reads : String → Option (Store υ)) :
    (s.listWorkers ok reads).1 = (s.loadIndex ok).1 := rfl

theorem pickBestWorker_state [LinearOrder υ] [Zero υ] [OfNat υ 1000] (s : State υ) (ok : Bool)
    (reads : String → Option (Store υ)) : (s.pickBestWorker ok reads).1 = (s.loadIndex ok).1 := by
  unfold pickBestWorker
  split
  · next heq => rw [← listWorkers_state s ok reads, heq]
  · next heq =>
      rw [← listWorkers_state s ok reads, heq]
      split
      · rfl
      · split <;> rfl

/-- What a listing returns has been read under an id that it has loaded. -/
theorem mem_listWorkers {ok : Bool} {reads : String → Option (Store υ)}
    {workers : List (WorkerInfo υ)} {w : WorkerInfo υ}
    (h : (s.listWorkers ok reads).2 = some workers) (hw : w ∈ workers) :
    ∃ ids id, (s.loadIndex ok).2 = some ids ∧ id ∈ ids ∧ getWorker (reads id) id = some w := by
  obtain ⟨ids, hids, rfl⟩ := Option.map_eq_some_iff.1 h
  obtain ⟨id, hid, hget⟩ := List.mem_filterMap.1 hw
  exact ⟨ids, id, hids, hid, hget⟩

/-- The steps, with those that hear of a worker taken together. -/
inductive Move (s : State υ) : Action υ → State υ → Prop
  | record (info : WorkerInfo υ) (r : PutResult) :
      Move s (.registerPut info r) (s.registerPut info r)
  | mark (a : Action υ) (id : String) (now : ℤ) (r : PutResult) (rest : List (WorkerInfo υ)) :
      s.hears a = some (id, now) → (r = PutResult.ok ∨ ¬ a.Succeeds) →
      Move s a { s.markLocked id now r with registering := rest }
  | tick (clock : String → ℤ) (timeout : ℤ) (r : PutResult) :
      Move s (.tick clock timeout r) (s.tick clock timeout r)
  | load (ok : Bool) : Move s (.loadIndex ok) (s.loadIndex ok).1
  | restart : Move s .restart (.new s.kv)

theorem step_move (h : s.step a = some s') : s.Move a s' := by
  cases a with
  | registerPut info r => exact Option.some.inj h ▸ .record info r
  | registerMark k now r =>
      simp only [step, registerMark] at h
      split at h
      · cases h
      · next info hinfo =>
          rw [← Option.some.inj h]
          refine .mark _ info.id now r _ (by simp only [hears, hinfo, Option.map_some]) ?_
          exact Decidable.em (r = PutResult.ok)
  | heartbeat info now r =>
      rw [← Option.some.inj h]
      exact .mark _ info.id now r s.registering rfl (Decidable.em (r = PutResult.ok))
  | tick clock timeout r => exact Option.some.inj h ▸ .tick clock timeout r
  | loadIndex ok => exact Option.some.inj h ▸ .load ok
  | restart => exact Option.some.inj h ▸ .restart

/-- A step leaves the record of `id` alone or replaces it by another one of the same worker. -/
theorem getWorker_step (h : s.step a = some s') (id : String) :
    getWorker (some s'.kv) id = getWorker (some s.kv) id ∨
      ∃ w, getWorker (some s'.kv) id = some w ∧ w.id = id := by
  cases step_move h with
  | record info r =>
      have hkey := info.workerKey_ensureID
      by_cases hid : id = info.ensureID.id
      · by_cases hlost : r = PutResult.lost
        · subst hlost
          exact Or.inl rfl
        · refine Or.inr ⟨info.ensureID, ?_, hid.symm⟩
          simp only [getWorker, registerPut, hkey, hid, Store.put_self _ _ hlost]
      · refine Or.inl (Store.getWorker_congr (Store.put_of_ne ?_ _ _))
        rw [hkey]
        exact fun heq => hid (recordKey_inj.1 heq)
  | mark => exact Or.inl (Controller.getWorker_saveIndexLocked _ id)
  | tick clock timeout r =>
      left
      simp only [tick]
      split
      · rfl
      · exact Controller.getWorker_saveIndexLocked r id
  | load ok => exact Or.inl (by rw [loadIndex_kv])
  | restart => exact Or.inl rfl

theorem keptFor_step {id : String} (h : s.kv.KeptFor id) (hstep : s.step a = some s') :
    s'.kv.KeptFor id := by
  intro w hw
  rcases getWorker_step hstep id with heq | ⟨w', hw', hid⟩
  · exact h w (heq ▸ hw)
  · exact Option.some.inj (hw'.symm.trans hw) ▸ hid

/-- Whatever happens, a record stays one of its own worker. -/
theorem keptFor_exec {id : String} {as : List (Action υ)} (h : s.kv.KeptFor id)
    (hrun : exec State.step s as = some s') : s'.kv.KeptFor id :=
  invariant_exec (P := fun _ _ => True) (I := fun s => s.kv.KeptFor id)
    (fun _ _ _ hI _ hstep => keptFor_step hI hstep) as s s' h
    (along_of_forall (fun _ _ => trivial) as s) hrun

/-! ## A restart -/

/-- A registration or a heartbeat that finds the memory empty comes from the only worker that the
    index names. -/
def OnlyKnown (s : State υ) (a : Action υ) : Prop :=
  s.ctl.seen = [] → ∀ id ∈ s.kv.indexed, ∀ heard ∈ s.hears a, heard.1 = id

instance (s : State υ) (a : Action υ) : Decidable (s.OnlyKnown a) := by
  unfold OnlyKnown
  infer_instance

/-- The worker `id` is in the index, it is in memory once anything is, and it has a record. -/
structure Listed (s : State υ) (id : String) : Prop where
  index : id ∈ s.kv.indexed
  memory : s.ctl.seen ≠ [] → id ∈ s.ctl.seen
  record : ∃ w, getWorker (some s.kv) id = some w

theorem Listed.step {id : String} (h : s.Listed id) (hcall : a.Succeeds) (hknown : s.OnlyKnown a)
    (hstep : s.step a = some s') : s'.Listed id := by
  have hrecord : ∃ w, getWorker (some s'.kv) id = some w := by
    rcases getWorker_step hstep id with heq | ⟨w, hw, -⟩
    · rw [heq]
      exact h.record
    · exact ⟨w, hw⟩
  cases step_move hstep with
  | record info r =>
      refine ⟨?_, h.memory, hrecord⟩
      simp only [registerPut, info.workerKey_ensureID, Store.indexed_putRecord]
      exact h.index
  | mark _ id' now r rest hhears hok =>
      have hok : r = PutResult.ok := hok.resolve_right (not_not.2 hcall)
      have hseen : id ∈ (s.ctl.mark id' now).seen := by
        rw [Controller.mem_mark_seen]
        by_cases hnil : s.ctl.seen = []
        · exact Or.inl (hknown hnil id h.index (id', now) hhears).symm
        · exact Or.inr (h.memory hnil)
      refine ⟨?_, fun _ => hseen, hrecord⟩
      simp only [markLocked]
      rw [Controller.indexed_saveIndexLocked (by simp [hok])]
      exact hseen
  | tick => exact hcall.elim
  | load ok =>
      refine ⟨?_, fun hne => ?_, hrecord⟩
      · rw [loadIndex_kv]
        exact h.index
      · rcases s.loadIndex_cases ok with ⟨hne, hload⟩ | ⟨-, hload⟩ | ⟨-, hload, -⟩
        · rw [hload]
          exact h.memory hne
        · rw [hload]
          exact List.mem_dedup.2 h.index
        · rw [hload] at hne ⊢
          exact h.memory hne
  | restart => exact hcall.elim

/-- A worker that is listed is returned by every listing whose reads succeed. -/
theorem Listed.mem_listWorkers {id : String} (h : s.Listed id) :
    ∃ workers, (s.listWorkers true (fun _ => some s.kv)).2 = some workers ∧
      ∃ w ∈ workers, getWorker (some s.kv) id = some w := by
  have hload : ∃ ids, (s.loadIndex true).2 = some ids ∧ id ∈ ids := by
    rcases s.loadIndex_cases true with ⟨hne, hload⟩ | ⟨-, hload⟩ | ⟨-, -, hempty⟩
    · exact ⟨s.ctl.seen, by rw [hload], h.memory hne⟩
    · exact ⟨s.kv.indexed, by rw [hload], h.index⟩
    · have hindex := h.index
      rw [hempty rfl] at hindex
      cases hindex
  obtain ⟨ids, hids, hid⟩ := hload
  obtain ⟨w, hw⟩ := h.record
  exact ⟨_, by simp only [listWorkers, hids, Option.map_some], w,
    List.mem_filterMap.2 ⟨id, hid, hw⟩, hw⟩

end State

open State

/-- **A restart loses no worker that the index names.** A new controller on any contents of the KV
    store, and any calls after it whose KV operations succeed: a worker that the index names, with a
    record, stays in the index, and a listing returns the record of it that is then stored, as long
    as a registration or a heartbeat that finds the memory empty comes from the only worker of the
    index. -/
theorem restart_keeps_workers {kv : Store υ} {calls : List (Action υ)} {s : State υ} {id : String}
    {info : WorkerInfo υ} (hcalls : ∀ a ∈ calls, a.Succeeds)
    (hknown : Along State.step OnlyKnown (.new kv) calls)
    (hrun : exec State.step (.new kv) calls = some s)
    (hindex : id ∈ kv.indexed) (hrecord : getWorker (some kv) id = some info) :
    id ∈ s.kv.indexed ∧ ∃ workers, (s.listWorkers true (fun _ => some s.kv)).2 = some workers ∧
      ∃ w ∈ workers, getWorker (some s.kv) id = some w ∧ (info.id = id → w.id = id) := by
  have hnew : (State.new kv).Listed id := ⟨hindex, fun h => absurd rfl h, info, hrecord⟩
  have hlisted : s.Listed id :=
    invariant_exec (I := fun s => s.Listed id)
      (fun _ _ _ h hP hstep => h.step hP.2 hP.1 hstep) calls _ s hnew
      (along_and hknown (along_of_mem hcalls)) hrun
  obtain ⟨workers, hlist, w, hw, hget⟩ := hlisted.mem_listWorkers
  refine ⟨hlisted.index, workers, hlist, w, hw, hget, fun hinfo => ?_⟩
  have hkept : (State.new kv).kv.KeptFor id :=
    fun w hw => Option.some.inj (hrecord.symm.trans hw) ▸ hinfo
  exact keptFor_exec hkept hrun w hget

/-- Two workers, in the index and with their records. -/
def twoWorkers : Store ℕ := fun key =>
  if key = workersIndexKey then some (.ids ["a", "b"])
  else if key = recordKey "a" then some (.worker ⟨"a", "10.0.0.1", 9001, [], .idle⟩)
  else if key = recordKey "b" then some (.worker ⟨"b", "10.0.0.2", 9001, [], .idle⟩)
  else none

/-- A listing is the first call after the restart. -/
def listFirst : List (Action ℕ) :=
  [.loadIndex true, .heartbeat ⟨"b", "10.0.0.2", 9001, [], .idle⟩ 5 .ok]

theorem restart_keeps_workers_listFirst :
    ∃ s, exec State.step (.new twoWorkers) listFirst = some s ∧ "a" ∈ s.kv.indexed ∧
      ∃ workers, (s.listWorkers true (fun _ => some s.kv)).2 = some workers ∧
        ∃ w ∈ workers, w.id = "a" := by
  have hcalls : ∀ a ∈ listFirst, a.Succeeds := by simp [listFirst, Action.Succeeds]
  have hknown : Along State.step OnlyKnown (.new twoWorkers) listFirst := by decide
  have hrecord : getWorker (some twoWorkers) "a" =
      some ⟨"a", "10.0.0.1", 9001, [], .idle⟩ := by decide
  obtain ⟨hindex, workers, hlist, w, hw, -, hid⟩ :=
    restart_keeps_workers hcalls hknown rfl (by decide) hrecord
  exact ⟨_, rfl, hindex, workers, hlist, w, hw, hid rfl⟩

/-- **The first heartbeat after a restart overwrites the index.** The other worker is gone from it,
    and from the next listing. -/
theorem restart_forgets :
    "a" ∈ twoWorkers.indexed ∧ (getWorker (some twoWorkers) "a").isSome = true ∧
    ∃ s, exec State.step (.new twoWorkers)
        [.heartbeat ⟨"b", "10.0.0.2", 9001, [], .idle⟩ 5 .ok] = some s ∧
      s.kv.indexed = ["b"] ∧
      (s.listWorkers true (fun _ => some s.kv)).2.map (List.map WorkerInfo.id) = some ["b"] :=
  ⟨by decide, by decide, _, rfl, by decide, by decide⟩

end Controlplane

end AiFS
