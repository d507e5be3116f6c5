import AiFS.Controlplane.Registry

set_option autoImplicit false

/-! # Expiry

The checker takes a worker out of the memory of the controller when it has been silent for longer
than the timeout. It goes through `lastseen`, and what a listing adopts from the index has no entry
there, so a worker that is adopted and never heard of stays for good (`adopted_stays`). Where a
controller only knows of workers from themselves, each has been heard of within the timeout
(`seen_heard_recently`).

Nor is an eviction final. The checker does not look at the result of its write to the index, and
when it has evicted the last worker and the write was lost, the next listing adopts the old index
(`evicted_returns`). If no such write is lost an evicted worker stays away until it is heard of
again (`evicted_stays_away`): another worker in memory, or an empty index, keep it out. -/

namespace AiFS

namespace Controlplane

open Machine

variable {υ : Type} {s s' : State υ} {a : Action υ}

/-- The step is one of a single controller process. -/
def Action.SameProcess : Action υ → Prop
  | .restart => False
  | _ => True

namespace State

/-! ## Workers that are heard of -/

/-- In the run `as` from `s`, the controller hears of the worker `id` at the time `t`. -/
def Heard (s : State υ) (as : List (Action υ)) (id : String) (t : ℤ) : Prop :=
  ∃ before a after d, as = before ++ a :: after ∧ exec State.step s before = some d ∧
    d.hears a = some (id, t)

/-- The step is a listing that finds no worker in memory, and some in the index. -/
def Adopts (s : State υ) : Action υ → Prop
  | .loadIndex ok => ok = true ∧ s.ctl.seen = [] ∧ s.kv.indexed ≠ []
  | _ => False

instance (s : State υ) (a : Action υ) : Decidable (s.Adopts a) := by
  cases a <;> unfold Adopts <;> infer_instance

/-- Every worker in memory has a time, and each time is one at which the worker was heard of. -/
structure Tracked (c : Controller) (heard : String → ℤ → Prop) : Prop where
  timed : ∀ id ∈ c.seen, ∃ t, (id, t) ∈ c.lastseen
  heard : ∀ id t, (id, t) ∈ c.lastseen → heard id t

theorem Tracked.mono {c : Controller} {heard heard' : String → ℤ → Prop} (h : Tracked c heard)
    (himp : ∀ id t, heard id t → heard' id t) : Tracked c heard' :=
  ⟨h.timed, fun id t hmem => himp id t (h.heard id t hmem)⟩

theorem Tracked.mark {c : Controller} {heard : String → ℤ → Prop} {id : String} {now : ℤ}
    (h : Tracked c heard) (hnow : heard id now) : Tracked (c.mark id now) heard := by
  refine ⟨fun j hj => ?_, fun j t hmem => ?_⟩
  · by_cases hid : j = id
    · exact ⟨now, by rw [hid]; exact List.mem_cons_self⟩
    · obtain ⟨t, ht⟩ := h.timed j ((Controller.mem_mark_seen.1 hj).resolve_left hid)
      exact ⟨t, List.mem_cons_of_mem _ (List.mem_filter.2 ⟨ht, by simpa using hid⟩)⟩
  · rcases List.mem_cons.1 hmem with heq | hold
    · obtain ⟨rfl, rfl⟩ := Prod.mk.inj heq
      exact hnow
    · exact h.heard j t (List.mem_filter.1 hold).1

theorem Tracked.expire {c : Controller} {heard : String → ℤ → Prop} (h : Tracked c heard)
    (clock : String → ℤ) (timeout : ℤ) : Tracked (c.expire clock timeout) heard := by
  refine ⟨fun id hid => ?_, fun id t hmem => ?_⟩
  · obtain ⟨hseen, hleft⟩ := Controller.mem_expire_seen.1 hid
    obtain ⟨t, ht⟩ := h.timed id hseen
    exact ⟨t, Controller.mem_expire_lastseen.2 ⟨ht, hleft⟩⟩
  · exact h.heard id t (Controller.mem_expire_lastseen.1 hmem).1

/-- Steps of one process that adopt nothing keep the two maps together. -/
theorem Tracked.step {heard : String → ℤ → Prop} (h : Tracked s.ctl heard)
    (hproc : a.SameProcess) (hfresh : ¬ s.Adopts a) (hstep : s.step a = some s')
    (hheard : ∀ id t, s.hears a = some (id, t) → heard id t) : Tracked s'.ctl heard := by
  cases step_move hstep with
  | record => exact h
  | mark _ id now _ _ hhears => exact h.mark (hheard id now hhears)
  | tick clock timeout => exact h.expire clock timeout
  | load ok =>
      have hsame : (s.loadIndex ok).1 = s ∨
          (s.loadIndex ok).1.ctl = { s.ctl with seen := [] } := by
        rcases s.loadIndex_cases ok with ⟨-, hload⟩ | ⟨hnil, hload⟩ | ⟨-, hload, -⟩
        · exact Or.inl (by rw [hload])
        · right
          rw [hload]
          by_cases hindex : s.kv.indexed = []
          · rw [hindex, List.dedup_nil]
          · cases ok with
            | true => exact absurd ⟨rfl, hnil, hindex⟩ hfresh
            | false => simp [loadIndex, hnil] at hload
        · exact Or.inl (by rw [hload])
      rcases hsame with heq | heq
      · rw [heq]
        exact h
      · rw [heq]
        exact ⟨fun id hid => absurd hid List.not_mem_nil, h.heard⟩
  | restart => exact hproc.elim

theorem tracked_exec {kv : Store υ} {as : List (Action υ)}
    (hproc : ∀ a ∈ as, a.SameProcess)
    (hfresh : Along State.step (fun s a => ¬ s.Adopts a) (.new kv) as)
    (hrun : exec State.step (.new kv) as = some s) : Tracked s.ctl (Heard (.new kv) as) := by
  induction as using List.reverseRecOn generalizing s with
  | nil =>
      rw [← Option.some.inj hrun]
      exact ⟨fun _ hid => absurd hid List.not_mem_nil, fun _ _ hmem => absurd hmem List.not_mem_nil⟩
  | append_singleton as a ih =>
      obtain ⟨d, hd, hlast⟩ := exec_concat hrun
      have hbefore := ih (fun b hb => hproc b (List.mem_append_left _ hb)) (along_left hfresh) hd
      -- what was heard of earlier in the run has still been heard of
      have hold : Tracked d.ctl (Heard (.new kv) (as ++ [a])) := by
        refine hbefore.mono ?_
        rintro id t ⟨before, b, after, e, rfl, he, hhears⟩
        exact ⟨before, b, after ++ [a], e, by simp, he, hhears⟩
      exact hold.step (hproc a (by simp)) (along_last hfresh hd) hlast
        (fun id t hhears => ⟨as, a, [], d, rfl, hd, hhears⟩)

end State

open State

/-- **Who is left after a round of the checker has been heard of within the timeout.** The
    controller starts with an empty memory on any contents of the KV store, and no listing adopts
    workers from the index. The round begins at the time `T`, and takes `clock id ≥ T` for the
    present when it looks at `id`. -/
theorem seen_heard_recently {kv : Store υ} {as : List (Action υ)} {s s' : State υ}
    {clock : String → ℤ} {timeout T : ℤ} {r : PutResult}
    (hproc : ∀ a ∈ as, a.SameProcess)
    (hfresh : Along State.step (fun s a => ¬ s.Adopts a) (.new kv) as)
    (hrun : exec State.step (.new kv) as = some s) (hclock : ∀ id, T ≤ clock id)
    (htick : s.step (.tick clock timeout r) = some s') :
    ∀ id ∈ s'.ctl.seen, ∃ t, (id, t) ∈ s'.ctl.lastseen ∧ T - timeout ≤ t ∧
      Heard (.new kv) as id t := by
  intro id hid
  have htracked := tracked_exec hproc hfresh hrun
  rw [← Option.some.inj htick] at hid ⊢
  obtain ⟨hseen, hleft⟩ := Controller.mem_expire_seen.1 hid
  obtain ⟨t, ht⟩ := htracked.timed id hseen
  have hrecent := Controller.le_of_not_expired ht hleft
  have hnow := hclock id
  exact ⟨t, Controller.mem_expire_lastseen.2 ⟨ht, hleft⟩, by omega, htracked.heard id t ht⟩

/-- Two heartbeats, one of them old at the time of the round. -/
def oldAndNew : List (Action ℕ) :=
  [.heartbeat ⟨"a", "10.0.0.1", 9001, [], .idle⟩ 1 .ok,
    .heartbeat ⟨"b", "10.0.0.2", 9001, [], .idle⟩ 5 .ok, .loadIndex true]

theorem seen_heard_recently_oldAndNew :
    ∃ s, exec State.step (.new twoWorkers) oldAndNew = some s ∧
      (s.tick (fun _ => 9) 6 .ok).ctl.seen = ["b"] ∧
      ∃ t, ("b", t) ∈ (s.tick (fun _ => 9) 6 .ok).ctl.lastseen ∧ 9 - 6 ≤ t ∧
        Heard (.new twoWorkers) oldAndNew "b" t := by
  have hproc : ∀ a ∈ oldAndNew, a.SameProcess := by simp [oldAndNew, Action.SameProcess]
  have hfresh : Along State.step (fun s a => ¬ s.Adopts a) (.new twoWorkers) oldAndNew := by decide
  exact ⟨_, rfl, by decide,
    seen_heard_recently hproc hfresh rfl (fun _ => le_refl 9) rfl "b" (by decide)⟩

/-- **An adopted worker never expires.** The controller takes the worker over from the index, never
    hears of it, and still has it after a round of the checker a thousand seconds later. -/
theorem adopted_stays :
    ∃ s, exec State.step (.new twoWorkers)
        [.loadIndex true, .tick (fun _ => 1000) 6 .ok] = some s ∧
      "a" ∈ s.ctl.seen ∧ s.ctl.lastseen = [] ∧
      ∀ t, ¬ Heard (.new twoWorkers) [.loadIndex true] "a" t := by
  refine ⟨_, rfl, by decide, by decide, ?_⟩
  rintro t ⟨before, a, after, d, hsplit, -, hhears⟩
  cases before with
  | nil =>
      rw [← (List.cons.inj hsplit).1] at hhears
      cases hhears
  | cons b before => simp at hsplit

/-! ## Workers that are evicted -/

namespace State

/-- When a round of the checker finds every worker in memory silent for longer than the timeout, its
    write to the index is not lost. -/
def LastEvictionSaved (s : State υ) : Action υ → Prop
  | .tick clock timeout r => s.ctl.seen ≠ [] →
      (∀ id ∈ s.ctl.seen, ∃ e ∈ s.ctl.lastseen, e.1 = id ∧ timeout < clock id - e.2) →
      r ≠ PutResult.lost
  | _ => True

instance (s : State υ) (a : Action υ) : Decidable (s.LastEvictionSaved a) := by
  cases a <;> unfold LastEvictionSaved <;> infer_instance

/-- No listing can return the worker `id`: it is not in memory, and not in the index either when
    that is what a listing would look at. -/
structure Away (s : State υ) (id : String) : Prop where
  memory : id ∉ s.ctl.seen
  index : s.ctl.seen = [] → id ∉ s.kv.indexed

/-- A round that leaves nobody in memory, and its write is not lost, leaves an empty index. -/
theorem tick_indexed {clock : String → ℤ} {timeout : ℤ} {r : PutResult}
    (hsaved : s.LastEvictionSaved (.tick clock timeout r)) (hne : s.ctl.seen ≠ [])
    (hnil : (s.tick clock timeout r).ctl.seen = []) : (s.tick clock timeout r).kv.indexed = [] := by
  have hall : ∀ id ∈ s.ctl.seen, id ∈ s.ctl.expired clock timeout := by
    intro id hid
    by_contra hleft
    have hmem : id ∈ (s.tick clock timeout r).ctl.seen :=
      Controller.mem_expire_seen.2 ⟨hid, hleft⟩
    rw [hnil] at hmem
    cases hmem
  have hlost : r ≠ PutResult.lost := by
    refine hsaved hne (fun id hid => ?_)
    obtain ⟨e, he, rfl⟩ := List.mem_map.1 (hall id hid)
    obtain ⟨hmem, hsilent⟩ := List.mem_filter.1 he
    exact ⟨e, hmem, rfl, of_decide_eq_true hsilent⟩
  have hchange : s.ctl.expired clock timeout ≠ [] := by
    obtain ⟨id, hid⟩ := List.exists_mem_of_ne_nil _ hne
    exact List.ne_nil_of_mem (hall id hid)
  simp only [tick, if_neg hchange] at hnil ⊢
  rw [Controller.indexed_saveIndexLocked hlost, hnil]

theorem Away.step {id : String} (h : s.Away id) (hproc : a.SameProcess)
    (hquiet : ∀ t, s.hears a ≠ some (id, t)) (hsaved : s.LastEvictionSaved a)
    (hstep : s.step a = some s') : s'.Away id := by
  cases step_move hstep with
  | record info r =>
      refine ⟨h.memory, fun hnil => ?_⟩
      simp only [registerPut, info.workerKey_ensureID, Store.indexed_putRecord]
      exact h.index hnil
  | mark _ id' now r rest hhears =>
      refine ⟨fun hmem => ?_, fun hnil => absurd hnil (s.ctl.mark_seen_ne_nil id' now)⟩
      rcases Controller.mem_mark_seen.1 hmem with rfl | hold
      · exact hquiet now hhears
      · exact h.memory hold
  | tick clock timeout r =>
      refine ⟨fun hmem => h.memory (Controller.mem_expire_seen.1 hmem).1, fun hnil => ?_⟩
      by_cases hne : s.ctl.seen = []
      · -- nobody was in memory before: a write can only have emptied the index
        simp only [tick]
        split
        · exact h.index hne
        · by_cases hlost : r = PutResult.lost
          · rw [hlost, Controller.saveIndexLocked_lost]
            exact h.index hne
          · rw [Controller.indexed_saveIndexLocked hlost]
            exact fun hmem => h.memory (Controller.mem_expire_seen.1 hmem).1
      · rw [tick_indexed hsaved hne hnil]
        exact List.not_mem_nil
  | load ok =>
      refine ⟨fun hmem => ?_, fun hnil => ?_⟩
      · rcases mem_loadIndex_seen hmem with hold | ⟨hnil, hindex⟩
        · exact h.memory hold
        · exact h.index hnil hindex
      · rw [loadIndex_kv]
        refine h.index ?_
        rcases s.loadIndex_cases ok with ⟨-, hload⟩ | ⟨hnil', -⟩ | ⟨hnil', -, -⟩
        · rwa [hload] at hnil
        · exact hnil'
        · exact hnil'
  | restart => exact hproc.elim

/-- The controller process goes on, and it does not hear of the worker `id`. -/
def Silent (id : String) (s : State υ) (a : Action υ) : Prop :=
  a.SameProcess ∧ ∀ t, s.hears a ≠ some (id, t)

theorem Away.exec {id : String} {as : List (Action υ)} (h : s.Away id)
    (hquiet : Along State.step (Silent id) s as) (hsaved : Along State.step LastEvictionSaved s as)
    (hrun : exec State.step s as = some s') : s'.Away id :=
  invariant_exec (I := fun s => s.Away id)
    (fun _ _ _ hI hP hstep => hI.step hP.1.1 hP.1.2 hP.2 hstep) as s s' h
    (along_and hquiet hsaved) hrun

end State

/-- **An evicted worker stays away.** From any state on, when a round of the checker has removed the
    worker `id`, no listing of the same process returns it before it is heard of again, as long as a
    write to the index is not lost when it follows the eviction of the last worker. The listing
    begins in the state `s'`, and reads the records later, each from contents of the KV store where
    the record is of its own worker (`keptFor_exec`). -/
theorem evicted_stays_away {s s' : State υ} {clock : String → ℤ} {timeout : ℤ} {r : PutResult}
    {id : String} {as : List (Action υ)} {ok : Bool} {reads : String → Option (Store υ)}
    {workers : List (WorkerInfo υ)}
    (hin : id ∈ s.ctl.seen) (hout : id ∉ (s.tick clock timeout r).ctl.seen)
    (hsaved : Along State.step LastEvictionSaved s (.tick clock timeout r :: as))
    (hquiet : Along State.step (Silent id) (s.tick clock timeout r) as)
    (hrun : exec State.step (s.tick clock timeout r) as = some s')
    (hreads : ∀ j kv, reads j = some kv → kv.KeptFor j)
    (hlist : (s'.listWorkers ok reads).2 = some workers) : ∀ w ∈ workers, w.id ≠ id := by
  have hevicted : (s.tick clock timeout r).Away id := by
    refine ⟨hout, fun hnil => ?_⟩
    rw [tick_indexed hsaved.1 (List.ne_nil_of_mem hin) hnil]
    exact List.not_mem_nil
  have haway : s'.Away id := hevicted.exec hquiet (hsaved.2 _ rfl) hrun
  intro w hw hwid
  obtain ⟨ids, j, hload, hj, hget⟩ := mem_listWorkers hlist hw
  have hne : j ≠ id := by
    rintro rfl
    rcases mem_of_loadIndex hload hj with hmem | ⟨hnil, hindex⟩
    · exact haway.memory hmem
    · exact haway.index hnil hindex
  cases hread : reads j with
  | none =>
      rw [hread] at hget
      cases hget
  | some kv =>
      rw [hread] at hget
      exact hne ((hreads j kv hread w hget).symm.trans hwid)

theorem twoWorkers_keptFor (id : String) : twoWorkers.KeptFor id := by
  intro w hw
  by_cases ha : id = "a"
  · subst ha
    exact Option.some.inj hw ▸ rfl
  by_cases hb : id = "b"
  · subst hb
    exact Option.some.inj hw ▸ rfl
  · -- every other record key is free
    have hnone : twoWorkers (recordKey id) = none := by
      have hka : recordKey id ≠ recordKey "a" := fun h => ha (recordKey_inj.1 h)
      have hkb : recordKey id ≠ recordKey "b" := fun h => hb (recordKey_inj.1 h)
      unfold twoWorkers
      rw [if_neg (recordKey_ne_index id), if_neg hka, if_neg hkb]
    simp [getWorker, hnone] at hw

/-- A controller that knows two workers, one of which has been silent since the time `1`. -/
def oneSilent : State ℕ := ⟨twoWorkers, ⟨["a", "b"], [("a", 1), ("b", 5)]⟩, []⟩

/-- The write to the index is lost, but the other worker is left in memory. -/
theorem evicted_stays_away_oneSilent :
    "a" ∈ twoWorkers.indexed ∧
    ∃ workers, ((oneSilent.tick (fun _ => 9) 6 .lost).listWorkers true
        (fun _ => some twoWorkers)).2 = some workers ∧
      workers.map WorkerInfo.id = ["b"] ∧ ∀ w ∈ workers, w.id ≠ "a" := by
  have hsaved : Along State.step LastEvictionSaved oneSilent
      ([.tick (fun _ => 9) 6 .lost] : List (Action ℕ)) := by decide
  have hlist : ((oneSilent.tick (fun _ => 9) 6 .lost).listWorkers true
      (fun _ => some twoWorkers)).2 =
        some [⟨"b", "10.0.0.2", 9001, [], .idle⟩] := by decide
  refine ⟨by decide, _, hlist, by decide, ?_⟩
  exact evicted_stays_away (by decide) (by decide) hsaved trivial rfl
    (fun j kv hkv => Option.some.inj hkv ▸ twoWorkers_keptFor j) hlist

/-- **An evicted worker returns.** A worker registers and falls silent; it is the only one, the
    checker evicts it and its write to the index is lost; the next listing returns the worker. -/
theorem evicted_returns :
    ∃ s, exec State.step (.new fun _ => none)
        ([.registerPut ⟨"a", "10.0.0.1", 9001, [], .idle⟩ .ok, .registerMark 0 1 .ok] :
          List (Action ℕ)) = some s ∧
      "a" ∈ s.ctl.seen ∧ "a" ∉ (s.tick (fun _ => 9) 6 .lost).ctl.seen ∧
      ((s.tick (fun _ => 9) 6 .lost).listWorkers true
        (fun _ => some (s.tick (fun _ => 9) 6 .lost).kv)).2.map (List.map WorkerInfo.id) =
          some ["a"] :=
  ⟨_, rfl, by decide, by decide, by decide⟩

end Controlplane

end AiFS
