import AiFS.Controlplane.Registry
import AiFS.Controlplane.Scheduling

set_option autoImplicit false

/-! # Whole calls

`RegisterWorker` and `Heartbeat` one after the other, each from its first line to its last. Both
mark the worker as seen and save the index, but only a registration writes the worker's record:
what a heartbeat reports is never stored, and `PickBestWorker` goes on with what was registered
(`heartbeat_not_stored`).

A registration that fails may leave something behind, too. Its second write, of the index, comes
after the worker has been marked: if that fails the caller is told so, and the worker is listed
nevertheless (`failed_registration_listed`). -/

namespace AiFS

namespace Controlplane

open Machine

variable {υ : Type} {s : State υ}

namespace State

/-- The first write of `RegisterWorker`. -/
def putRecord (s : State υ) (info : WorkerInfo υ) (r : PutResult) : State υ :=
  { s with kv := s.kv.put info.ensureID.workerKey (.worker info.ensureID) r }

/-- `RegisterWorker` by how its two writes end, and whether it succeeds. -/
def registerWorker (s : State υ) (info : WorkerInfo υ) (now : ℤ) (record index : PutResult) :
    State υ × Bool :=
  if record ≠ PutResult.ok then (s.putRecord info record, false)
  else ((s.putRecord info record).markLocked info.ensureID.id now index, index = PutResult.ok)

/-- A whole registration is its two steps, with nothing in between. -/
theorem registerWorker_steps (s : State υ) (info : WorkerInfo υ) (now : ℤ) (index : PutResult) :
    exec State.step s [.registerPut info .ok, .registerMark s.registering.length now index] =
      some (s.registerWorker info now .ok index).1 := by
  have hput : s.step (.registerPut info .ok) = some (s.registerPut info .ok) := rfl
  have hlast : (s.registerPut info .ok).registering[s.registering.length]? =
      some info.ensureID := List.getElem?_concat_length
  have hrest : (s.registerPut info .ok).registering.eraseIdx s.registering.length =
      s.registering := by
    simp [registerPut, List.eraseIdx_append_of_length_le]
  rw [exec_cons_of_some _ hput]
  simp only [exec, step, registerMark, hlast, hrest]
  rfl

/-- A registration whose first write fails is that step only. -/
theorem registerWorker_failed_step (s : State υ) (info : WorkerInfo υ) (now : ℤ)
    {record : PutResult} (index : PutResult) (h : record ≠ PutResult.ok) :
    s.step (.registerPut info record) = some (s.registerWorker info now record index).1 := by
  simp only [step, registerPut, registerWorker, putRecord, if_neg h, if_pos h]

theorem getWorker_markLocked (s : State υ) (id : String) (now : ℤ) (r : PutResult) (key : String) :
    getWorker (some (s.markLocked id now r).kv) key = getWorker (some s.kv) key :=
  Controller.getWorker_saveIndexLocked r key

theorem getWorker_putRecord (s : State υ) (info : WorkerInfo υ) {r : PutResult}
    (h : r ≠ PutResult.lost) (key : String) :
    getWorker (some (s.putRecord info r).kv) key =
      if info.ensureID.id = key then some info.ensureID else getWorker (some s.kv) key := by
  unfold putRecord
  rw [info.workerKey_ensureID]
  split
  · next hid => simp only [getWorker, ← hid, Store.put_self _ _ h]
  · next hid =>
      exact Store.getWorker_congr (Store.put_of_ne (fun heq => hid (recordKey_inj.1 heq).symm) _ _)

/-! ## What a listing shows -/

/-- `id` is in memory or, when nothing is, in the index. -/
def Known (s : State υ) (id : String) : Prop :=
  id ∈ s.ctl.seen ∨ (s.ctl.seen = [] ∧ id ∈ s.kv.indexed)

/-- A listing whose reads succeed returns a worker with this id. -/
def Shows (s : State υ) (id : String) : Prop :=
  ∃ workers, (s.listWorkers true (fun _ => some s.kv)).2 = some workers ∧ ∃ w ∈ workers, w.id = id

/-- A worker that is known is loaded, and what its record holds is listed. -/
theorem Known.listed {id : String} {w : WorkerInfo υ} (h : s.Known id)
    (hrecord : getWorker (some s.kv) id = some w) :
    ∃ workers, (s.listWorkers true (fun _ => some s.kv)).2 = some workers ∧ w ∈ workers := by
  have hload : ∃ ids, (s.loadIndex true).2 = some ids ∧ id ∈ ids := by
    rcases s.loadIndex_cases true with ⟨hne, hload⟩ | ⟨hnil, hload⟩ | ⟨hnil, -, hempty⟩
    · exact ⟨s.ctl.seen, by rw [hload], h.resolve_right (fun h => hne h.1)⟩
    · refine ⟨s.kv.indexed, by rw [hload], ?_⟩
      rcases h with h | h
      · exact absurd (hnil ▸ h) List.not_mem_nil
      · exact h.2
    · rcases h with h | h
      · exact absurd (hnil ▸ h) List.not_mem_nil
      · exact absurd (hempty rfl ▸ h.2) List.not_mem_nil
  obtain ⟨ids, hids, hid⟩ := hload
  exact ⟨_, by simp only [listWorkers, hids, Option.map_some],
    List.mem_filterMap.2 ⟨id, hid, hrecord⟩⟩

theorem shows_iff {id : String} :
    s.Shows id ↔ ∃ key, s.Known key ∧ ∃ w, getWorker (some s.kv) key = some w ∧ w.id = id := by
  constructor
  · rintro ⟨workers, hlist, w, hw, hid⟩
    obtain ⟨ids, key, hload, hkey, hget⟩ := mem_listWorkers hlist hw
    exact ⟨key, mem_of_loadIndex hload hkey, w, hget, hid⟩
  · rintro ⟨key, hknown, w, hget, hid⟩
    obtain ⟨workers, hlist, hw⟩ := hknown.listed hget
    exact ⟨workers, hlist, w, hw, hid⟩

end State

open State

/-! ## A registration that fails -/

section Failed

variable {info : WorkerInfo υ} {now : ℤ} {record index : PutResult}

theorem known_putRecord {key : String} : (s.putRecord info record).Known key ↔ s.Known key := by
  simp only [Known, putRecord, info.workerKey_ensureID, Store.indexed_putRecord]

/-- Once its record is written, a worker whose id is known is listed. -/
theorem shows_putRecord (hknown : s.Known info.ensureID.id) (h : record ≠ PutResult.lost) :
    (s.putRecord info record).Shows info.ensureID.id :=
  shows_iff.2 ⟨info.ensureID.id, known_putRecord.2 hknown, info.ensureID,
    by rw [getWorker_putRecord s info h, if_pos rfl], rfl⟩

/-- A registration that gets to its second write makes the worker known, whatever comes of it. -/
theorem registerWorker_shows :
    (s.registerWorker info now PutResult.ok index).1.Shows info.ensureID.id := by
  refine shows_iff.2 ⟨info.ensureID.id, Or.inl ?_, info.ensureID, ?_, rfl⟩
  · exact Controller.mem_mark_seen.2 (Or.inl rfl)
  · refine (getWorker_markLocked (s.putRecord info .ok) _ now index _).trans ?_
    rw [getWorker_putRecord s info (by decide), if_pos rfl]

/-- A record that is written for an id which is not known is not listed. -/
theorem shows_putRecord_of_not_known (h : ¬ s.Known info.ensureID.id)
    (hput : record ≠ PutResult.lost) (id : String) :
    (s.putRecord info record).Shows id ↔ s.Shows id := by
  have hget : ∀ key, s.Known key →
      getWorker (some (s.putRecord info record).kv) key = getWorker (some s.kv) key := by
    intro key hkey
    have hne : info.ensureID.id ≠ key := fun heq => h (heq ▸ hkey)
    rw [getWorker_putRecord s info hput, if_neg hne]
  rw [shows_iff, shows_iff]
  constructor
  · rintro ⟨key, hkey, w, hw, hid⟩
    have hkey := known_putRecord.1 hkey
    exact ⟨key, hkey, w, (hget key hkey).symm.trans hw, hid⟩
  · rintro ⟨key, hkey, w, hw, hid⟩
    exact ⟨key, known_putRecord.2 hkey, w, (hget key hkey).trans hw, hid⟩

/-- **When a failed registration leaves no trace.** For every state and every worker that is not
    listed, if `RegisterWorker` returns an error: the ids in memory, their times and the ids that a
    listing returns are what they were before the call, exactly if it is the write of the record
    that failed, and this was not carried out or the worker's id is in none of the controller's
    lists. -/
theorem failed_registration_traceless_iff (s : State υ) (info : WorkerInfo υ) (now : ℤ)
    (record index : PutResult) (hnew : ¬ s.Shows info.ensureID.id)
    (herror : (s.registerWorker info now record index).2 = false) :
    ((∀ id, id ∈ (s.registerWorker info now record index).1.ctl.seen ↔ id ∈ s.ctl.seen) ∧
      (∀ e, e ∈ (s.registerWorker info now record index).1.ctl.lastseen ↔ e ∈ s.ctl.lastseen) ∧
      ∀ id, (s.registerWorker info now record index).1.Shows id ↔ s.Shows id) ↔
    record = PutResult.lost ∨ record = PutResult.unacked ∧ ¬ s.Known info.ensureID.id := by
  cases record with
  | lost =>
      refine ⟨fun _ => Or.inl rfl, fun _ => ?_⟩
      exact ⟨fun _ => Iff.rfl, fun _ => Iff.rfl, fun _ => Iff.rfl⟩
  | ok =>
      constructor
      · rintro ⟨-, -, hshows⟩
        exact absurd ((hshows _).1 registerWorker_shows) hnew
      · rintro (h | ⟨h, -⟩) <;> cases h
  | unacked =>
      constructor
      · rintro ⟨-, -, hshows⟩
        refine Or.inr ⟨rfl, fun hknown => hnew ((hshows _).1 ?_)⟩
        exact shows_putRecord hknown (by decide)
      · rintro (h | ⟨-, hknown⟩)
        · cases h
        · refine ⟨fun _ => Iff.rfl, fun _ => Iff.rfl, fun id => ?_⟩
          exact shows_putRecord_of_not_known hknown (by decide) id

end Failed

def firstWorker : WorkerInfo ℕ := ⟨"a", "10.0.0.1", 9001, [], .idle⟩

/-- A controller that knows two other workers. -/
def twoOthers : State ℕ :=
  let b : WorkerInfo ℕ := ⟨"b", "10.0.0.2", 9001, [], .busy⟩
  let c : WorkerInfo ℕ := ⟨"c", "10.0.0.3", 9001, [], .idle⟩
  (((State.new (fun _ => none)).registerWorker b 1 .ok .ok).1.registerWorker c 2 .ok .ok).1

/-- The answer to the first write is lost: the others are listed as before, and nobody else. -/
theorem failed_registration_traceless_unacked :
    (twoOthers.registerWorker firstWorker 5 .unacked .ok).2 = false ∧
      ∀ id, (twoOthers.registerWorker firstWorker 5 .unacked .ok).1.Shows id ↔
        id = "b" ∨ id = "c" := by
  have hlisted : ∃ b c, (twoOthers.listWorkers true (fun _ => some twoOthers.kv)).2 = some [c, b] ∧
      c.id = "c" ∧ b.id = "b" := ⟨_, _, rfl, rfl, rfl⟩
  obtain ⟨b, c, hlist, hc, hb⟩ := hlisted
  have hshows : ∀ id, twoOthers.Shows id ↔ id = "b" ∨ id = "c" := by
    intro id
    simp only [Shows, hlist, Option.some.injEq, exists_eq_left', List.mem_cons, List.not_mem_nil,
      or_false, exists_eq_or_imp, exists_eq_left, hb, hc]
    rw [or_comm, eq_comm, @eq_comm _ "c" id]
  have hknown : ¬ twoOthers.Known firstWorker.ensureID.id := by
    rintro (h | ⟨h, -⟩)
    · exact absurd h (by decide)
    · exact absurd h (by decide)
  have hsame := ((failed_registration_traceless_iff twoOthers firstWorker 5 .unacked .ok
    (fun h => absurd ((hshows _).1 h) (by decide)) rfl).2 (Or.inr ⟨rfl, hknown⟩)).2.2
  exact ⟨rfl, fun id => (hsame id).trans (hshows id)⟩

/-- **A registration whose second write fails is listed.** -/
theorem failed_registration_listed :
    ((State.new (fun _ => none) : State ℕ).listWorkers true (fun _ => some fun _ => none)).2 =
      some [] ∧
    ∃ s, (State.new (fun _ => none)).registerWorker firstWorker 5 .ok .lost = (s, false) ∧
      s.ctl.seen = ["a"] ∧ s.ctl.lastseen = [("a", 5)] ∧
      (s.listWorkers true (fun _ => some s.kv)).2 = some [firstWorker] :=
  ⟨by decide, _, rfl, by decide, by decide, by decide⟩

/-! ## Reports -/

/-- A call that succeeds, with the time at which it takes the lock. -/
inductive Call (υ : Type)
  | registerWorker (info : WorkerInfo υ) (now : ℤ)
  | heartbeat (info : WorkerInfo υ) (now : ℤ)
deriving DecidableEq, Repr

namespace Call

/-- What a call says of its worker, under the id by which the controller knows it. -/
def report : Call υ → WorkerInfo υ
  | .registerWorker info _ => info.ensureID
  | .heartbeat info _ => info

def isRegistration : Call υ → Bool
  | .registerWorker .. => true
  | .heartbeat .. => false

end Call

/-- The state after a call all of whose KV operations succeed. -/
def State.call (s : State υ) : Call υ → State υ
  | .registerWorker info now => (s.registerWorker info now .ok .ok).1
  | .heartbeat info now => s.heartbeat info now .ok

def State.calls (s : State υ) (cs : List (Call υ)) : State υ :=
  cs.foldl State.call s

/-- What the most recent of the calls for `id` says. -/
def lastReport (cs : List (Call υ)) (id : String) : Option (WorkerInfo υ) :=
  ((cs.map Call.report).filter (fun w => w.id = id)).getLast?

/-- What the most recent registration of `id` says. -/
def lastRegistered (cs : List (Call υ)) (id : String) : Option (WorkerInfo υ) :=
  lastReport (cs.filter Call.isRegistration) id

theorem lastReport_concat (cs : List (Call υ)) (c : Call υ) (id : String) :
    lastReport (cs ++ [c]) id = if c.report.id = id then some c.report else lastReport cs id := by
  unfold lastReport
  rw [List.map_append, List.filter_append]
  by_cases h : c.report.id = id <;> simp [h]

theorem lastRegistered_concat (cs : List (Call υ)) (c : Call υ) (id : String) :
    lastRegistered (cs ++ [c]) id =
      if c.isRegistration = true ∧ c.report.id = id then some c.report
      else lastRegistered cs id := by
  unfold lastRegistered
  rw [List.filter_append]
  by_cases h : c.isRegistration = true
  · rw [List.filter_cons_of_pos h, List.filter_nil, lastReport_concat]
    simp only [h, true_and]
  · rw [List.filter_cons_of_neg h, List.filter_nil, List.append_nil, if_neg (fun hc => h hc.1)]

theorem exists_lastRegistered {cs : List (Call υ)} {id : String}
    (h : ∃ c ∈ cs, c.isRegistration = true ∧ c.report.id = id) :
    ∃ w, lastRegistered cs id = some w := by
  induction cs using List.reverseRecOn with
  | nil =>
      obtain ⟨c, hc, -⟩ := h
      cases hc
  | append_singleton cs c ih =>
      rw [lastRegistered_concat]
      split
      · exact ⟨_, rfl⟩
      · next hlast =>
          obtain ⟨d, hd, hreg⟩ := h
          rcases List.mem_append.1 hd with hd | hd
          · exact ih ⟨d, hd, hreg⟩
          · exact absurd (List.mem_singleton.1 hd ▸ hreg) hlast

namespace State

theorem getWorker_call (s : State υ) (c : Call υ) (id : String) :
    getWorker (some (s.call c).kv) id =
      if c.isRegistration = true ∧ c.report.id = id then some c.report
      else getWorker (some s.kv) id := by
  cases c with
  | heartbeat info now =>
      rw [if_neg (fun h => absurd h.1 (by simp [Call.isRegistration]))]
      exact getWorker_markLocked s info.id now .ok id
  | registerWorker info now =>
      refine (getWorker_markLocked (s.putRecord info .ok) _ now .ok id).trans ?_
      rw [getWorker_putRecord s info (by decide)]
      simp only [Call.isRegistration, Call.report, true_and]

/-- The record of a worker is what it has last been registered with. -/
theorem getWorker_calls (s : State υ) (cs : List (Call υ)) (id : String) :
    getWorker (some (s.calls cs).kv) id =
      (lastRegistered cs id).or (getWorker (some s.kv) id) := by
  induction cs using List.reverseRecOn with
  | nil => rfl
  | append_singleton cs c ih =>
      have hstep : s.calls (cs ++ [c]) = (s.calls cs).call c := List.foldl_concat _ _ _ _
      rw [hstep, getWorker_call, lastRegistered_concat, ih]
      split
      · rfl
      · rfl

theorem mem_call_seen (s : State υ) (c : Call υ) (id : String) :
    id ∈ (s.call c).ctl.seen ↔ id = c.report.id ∨ id ∈ s.ctl.seen := by
  cases c with
  | heartbeat info now => exact Controller.mem_mark_seen
  | registerWorker info now => exact Controller.mem_mark_seen

theorem mem_calls_seen {s : State υ} {cs : List (Call υ)} {c : Call υ} (h : c ∈ cs) :
    c.report.id ∈ (s.calls cs).ctl.seen := by
  induction cs using List.reverseRecOn with
  | nil => cases h
  | append_singleton cs d ih =>
      have hstep : s.calls (cs ++ [d]) = (s.calls cs).call d := List.foldl_concat _ _ _ _
      rw [hstep, mem_call_seen]
      rcases List.mem_append.1 h with h | h
      · exact Or.inr (ih h)
      · exact Or.inl (by rw [List.mem_singleton.1 h])

end State

/-- **When a worker's record is its latest report.** For every sequence of successful registrations
    and heartbeats, from any state, and every worker that has registered in it: `GetWorker` returns
    what the most recent call for the worker said, and the listing that `PickBestWorker` ranks holds
    it, exactly if the most recent registration said the same. -/
theorem getWorker_latest_iff (s : State υ) (cs : List (Call υ)) (id : String)
    (hregistered : ∃ c ∈ cs, c.isRegistration = true ∧ c.report.id = id) :
    (∃ w, lastReport cs id = some w ∧ getWorker (some (s.calls cs).kv) id = some w ∧
      ∃ workers, ((s.calls cs).listWorkers true (fun _ => some (s.calls cs).kv)).2 = some workers ∧
        w ∈ workers) ↔
    lastReport cs id = lastRegistered cs id := by
  obtain ⟨w, hw⟩ := exists_lastRegistered hregistered
  have hget : getWorker (some (s.calls cs).kv) id = some w := by
    rw [getWorker_calls, hw]
    rfl
  obtain ⟨c, hc, -, rfl⟩ := hregistered
  constructor
  · rintro ⟨v, hv, hgetv, -⟩
    rw [hv, hw, ← hgetv, hget]
  · intro heq
    exact ⟨w, heq.trans hw, hget, Known.listed (Or.inl (mem_calls_seen hc)) hget⟩

/-- Two workers register. -/
def twoRegister : List (Call ℕ) :=
  [.registerWorker ⟨"a", "10.0.0.1", 9001, [], .idle⟩ 1,
    .registerWorker ⟨"b", "10.0.0.2", 9001, [⟨0, "", 0, 50⟩], .idle⟩ 2]

/-- One of them then says that it is busy, registers so when it starts again, and goes on to say
    it. -/
def busyAgain : List (Call ℕ) :=
  twoRegister ++ [.heartbeat ⟨"b", "10.0.0.2", 9001, [], .busy⟩ 3,
    .registerWorker ⟨"b", "10.0.0.2", 9001, [], .busy⟩ 4,
    .heartbeat ⟨"a", "10.0.0.1", 9001, [], .busy⟩ 5,
    .heartbeat ⟨"b", "10.0.0.2", 9001, [], .busy⟩ 6]

theorem getWorker_latest_busyAgain :
    ∃ w, w.status = WorkerStatus.busy ∧ lastReport busyAgain "b" = some w ∧
      getWorker (some ((State.new (fun _ => none)).calls busyAgain).kv) "b" = some w := by
  obtain ⟨w, hlast, hget, -⟩ :=
    (getWorker_latest_iff (State.new (fun _ => none)) busyAgain "b" (by decide)).2 (by decide)
  have hbusy : (lastReport busyAgain "b").map WorkerInfo.status = some .busy := by decide
  rw [hlast] at hbusy
  exact ⟨w, Option.some.inj hbusy, hlast, hget⟩

/-- **What a heartbeat reports is not stored.** The worker says that it is busy now; its record says
    that it is idle, and it is picked before the one that has been idle all the time. -/
theorem heartbeat_not_stored :
    ∃ s, (State.new (fun _ => none)).calls
        (twoRegister ++ [.heartbeat ⟨"a", "10.0.0.1", 9001, [], .busy⟩ 3]) = s ∧
      (getWorker (some s.kv) "a").map WorkerInfo.status = some WorkerStatus.idle ∧
      ∃ best, (s.pickBestWorker true (fun _ => some s.kv)).2 = .ok best ∧ best.id = "a" :=
  ⟨_, rfl, by decide, _, rfl, by decide⟩

end Controlplane

end AiFS
