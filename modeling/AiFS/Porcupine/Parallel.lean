import AiFS.Porcupine.CheckSingle

set_option autoImplicit false

/-! # Checking the parts of a history in parallel

`checkParallel` starts a goroutine for each part and collects their results, until one of them is
negative, all are there, or the time is over. `Par.step` is one step of one of them: a round of a
search, a result that is sent or received, or the timer. The order of the steps is arbitrary, so
what holds of all runs holds however the goroutines are scheduled and whenever the timer goes off.
-/

namespace AiFS

namespace Porcupine

variable {S ι ο : Type}

inductive CheckResult
  | unknown
  | ok
  | illegal
deriving DecidableEq, Repr

/-- A goroutine: it checks, it has set `longest[i]` and is about to send, or it has sent. -/
inductive Worker (S : Type)
  | checking (s : Search S)
  | sending (v : Verdict)
  | finished (v : Verdict)

/-- The caller: in its loop, in the loop that waits for the other goroutines, or back. -/
inductive Collector
  | selecting (count : ℕ) (ok : Bool)
  | draining (count : ℕ) (ok timedOut : Bool)
  | returned (result : CheckResult) (info : Option (List (Finset (List ℕ))))

structure Par (S : Type) where
  workers : List (Worker S)
  /-- The channel, which has room for all results. -/
  results : List Bool
  kill : Bool
  main : Collector

inductive Turn
  | round (i : ℕ)
  | send (i : ℕ)
  | receive
  | timeout
deriving DecidableEq, Repr

/-- `longest[i]`, nil until it is set. -/
def Worker.longest : Worker S → List (Option (List ℕ))
  | .checking _ => []
  | .sending v => v.2
  | .finished v => v.2

/-- What a goroutine has sent. -/
def Worker.sent : Worker S → Option Bool
  | .finished v => some v.1
  | _ => none

/-- The unique sequences of each part; the source lists them in no particular order. -/
def partialLinearizations (workers : List (Worker S)) : List (Finset (List ℕ)) :=
  workers.map fun w => (w.longest.filterMap id).toFinset

def resultOf (ok timedOut : Bool) : CheckResult :=
  if !ok then .illegal else if timedOut then .unknown else .ok

theorem resultOf_eq_ok_iff {ok timedOut : Bool} :
    resultOf ok timedOut = .ok ↔ ok = true ∧ timedOut = false := by
  cases ok <;> cases timedOut <;> decide

theorem resultOf_eq_illegal_iff {ok timedOut : Bool} :
    resultOf ok timedOut = .illegal ↔ ok = false := by
  cases ok <;> cases timedOut <;> decide

theorem resultOf_eq_unknown_iff {ok timedOut : Bool} :
    resultOf ok timedOut = .unknown ↔ ok = true ∧ timedOut = true := by
  cases ok <;> cases timedOut <;> decide

section Machine

variable (model : FilledModel S ι ο) (histories : List (List (Entry ι ο)))
  (computeInfo timed : Bool)

/-- What follows the loop, or a result that is received after it. -/
def Par.settle (p : Par S) (count : ℕ) (ok timedOut : Bool) : Par S :=
  { p with
    main :=
      if computeInfo then
        if count < histories.length then .draining count ok timedOut
        else .returned (resultOf ok timedOut) (some (partialLinearizations p.workers))
      else .returned (resultOf ok timedOut) none }

/-- A result that is received. -/
def Par.receive (p : Par S) (result : Bool) : Option (Par S) :=
  match p.main with
  | .selecting count ok =>
      let count := count + 1
      let ok := ok && result
      if !ok && !computeInfo then
        some (Par.settle histories computeInfo { p with kill := true } count ok false)
      else if histories.length ≤ count then
        some (Par.settle histories computeInfo p count ok false)
      else some { p with main := .selecting count ok }
  | .draining count ok timedOut =>
      some (Par.settle histories computeInfo p (count + 1) ok timedOut)
  | .returned _ _ => none

/-- One step. A round that would crash is no step. -/
def Par.step (p : Par S) : Turn → Option (Par S)
  | .round i =>
      match histories[i]?, p.workers[i]? with
      | some history, some (.checking s) =>
          match round model (makeLinkedEntries history) computeInfo p.kill s with
          | none => none
          | some (.inl s') => some { p with workers := p.workers.set i (.checking s') }
          | some (.inr v) => some { p with workers := p.workers.set i (.sending v) }
      | _, _ => none
  | .send i =>
      match p.workers[i]? with
      | some (.sending v) =>
          some { p with workers := p.workers.set i (.finished v), results := p.results ++ [v.1] }
      | _ => none
  | .receive =>
      match p.results with
      | [] => none
      | result :: results => Par.receive histories computeInfo { p with results := results } result
  | .timeout =>
      match timed, p.main with
      | true, .selecting count ok =>
          some (Par.settle histories computeInfo { p with kill := true } count ok true)
      | _, _ => none

def Par.start : Par S where
  workers := histories.map fun history => .checking (Search.start model (makeLinkedEntries history))
  results := []
  kill := false
  main := .selecting 0 true

end Machine

/-! ## The invariant -/

/-- A part of a history that is complete. -/
structure Part (ι ο : Type) where
  entries : List (Entry ι ο)
  n : ℕ
  layout : Layout entries n

section Invariant

variable (model : FilledModel S ι ο) (parts : List (Part ι ο)) (computeInfo timed : Bool)

/-- A goroutine is on its way to the right verdict, with at most `m` steps to go. -/
def WorkerOk (killed : Bool) (part : Part ι ο) (m : ℕ) : Worker S → Prop
  | .checking s => ∃ st, part.layout.Run model computeInfo s st ∧
      Layout.roundsLeft part.entries part.n st + 2 ≤ m
  | .sending v => part.layout.Right model computeInfo killed v ∧ 1 ≤ m
  | .finished v => part.layout.Right model computeInfo killed v

/-- What `ok` and `timedOut` stand for after the loop. -/
structure Decided (ok timedOut : Bool) : Prop where
  linearizable : ok = true → timedOut = false → ∀ part ∈ parts, part.layout.Linearizable model
  illegal : ok = false → ∃ part ∈ parts, ¬ part.layout.Linearizable model
  timer : timedOut = true → timed = true

/-- The sequences that are returned for a part. -/
structure Informed (timedOut : Bool) (part : Part ι ο) (seqs : Finset (List ℕ)) : Prop where
  sound : ∀ seq ∈ seqs, ∃ t, part.layout.Begun model seq t
  longest : timedOut = false → ∀ order t, part.layout.Begun model order t → ∀ id ∈ order,
    ∃ seq ∈ seqs, id ∈ seq ∧ order.length ≤ seq.length

/-- Where the caller is. -/
def CollectorOk (p : Par S) : Collector → Prop
  | .selecting count ok => p.kill = false ∧ (parts = [] ∨ count < parts.length) ∧
      ∃ received, (received ++ p.results).Perm (p.workers.filterMap Worker.sent) ∧
        count = received.length ∧ ok = received.all id
  | .draining count ok timedOut => computeInfo = true ∧ count < parts.length ∧
      (timedOut = false → p.kill = false) ∧ Decided model parts timed ok timedOut ∧
      count + p.results.length = (p.workers.filterMap Worker.sent).length
  | .returned result info => ∃ ok timedOut, result = resultOf ok timedOut ∧
      Decided model parts timed ok timedOut ∧ (computeInfo = true → ∃ seqs, info = some seqs ∧
        List.Forall₂ (Informed model timedOut) parts seqs)

/-- Each part has a goroutine, and `m` bounds the steps each has to go. -/
structure Team (m : ℕ → ℕ) (p : Par S) : Prop where
  length : p.workers.length = parts.length
  workers : ∀ i part w, parts[i]? = some part → p.workers[i]? = some w →
    WorkerOk model computeInfo p.kill part (m i) w

structure ParInv (m : ℕ → ℕ) (p : Par S) : Prop where
  team : Team model parts computeInfo m p
  main : CollectorOk model parts computeInfo timed p p.main

/-- A bound on the steps of the caller. -/
def Collector.left (n : ℕ) : Collector → ℕ
  | .selecting count _ => n - count + 2
  | .draining count _ _ => n - count + 1
  | .returned _ _ => 0

/-- A bound on the steps of all. -/
def stepsLeft (m : ℕ → ℕ) (p : Par S) : ℕ :=
  ∑ i ∈ Finset.range parts.length, m i + p.main.left parts.length

end Invariant

/-! ## Steps -/

theorem filterMap_set {α β : Type} (f : α → Option β) {l : List α} {i : ℕ} {a a' : α}
    (h : l[i]? = some a) (heq : f a' = f a) : (l.set i a').filterMap f = l.filterMap f := by
  obtain ⟨hi, rfl⟩ := List.getElem?_eq_some_iff.1 h
  conv_rhs => rw [← List.take_append_drop i l, List.drop_eq_getElem_cons hi]
  rw [List.set_eq_take_append_cons_drop, if_pos hi]
  simp only [List.filterMap_append, List.filterMap_cons, heq]

theorem filterMap_set_perm {α β : Type} (f : α → Option β) {l : List α} {i : ℕ} {a a' : α} {b : β}
    (h : l[i]? = some a) (hnone : f a = none) (hsome : f a' = some b) :
    (l.filterMap f ++ [b]).Perm ((l.set i a').filterMap f) := by
  obtain ⟨hi, rfl⟩ := List.getElem?_eq_some_iff.1 h
  conv_lhs => rw [← List.take_append_drop i l, List.drop_eq_getElem_cons hi]
  rw [List.set_eq_take_append_cons_drop, if_pos hi]
  simp only [List.filterMap_append, List.filterMap_cons, hnone, hsome, List.append_assoc]
  exact List.Perm.append_left _ List.perm_append_comm

variable {model : FilledModel S ι ο} {parts : List (Part ι ο)} {computeInfo timed : Bool}
  {m : ℕ → ℕ} {p : Par S}

theorem WorkerOk.kill {killed : Bool} {part : Part ι ο} {k : ℕ} {w : Worker S}
    (h : WorkerOk model computeInfo killed part k w) :
    WorkerOk model computeInfo true part k w := by
  cases w with
  | checking s => exact h
  | sending v => exact ⟨h.1.kill, h.2⟩
  | finished v => exact Layout.Right.kill h

namespace Team

/-- Every part has its goroutine. -/
theorem exists_worker (h : Team model parts computeInfo m p) {part : Part ι ο}
    (hpart : part ∈ parts) :
    ∃ (i : ℕ) (w : Worker S), parts[i]? = some part ∧ p.workers[i]? = some w := by
  obtain ⟨i, hi, rfl⟩ := List.getElem_of_mem hpart
  have hi' : i < p.workers.length := by
    rw [h.length]
    exact hi
  exact ⟨i, p.workers[i], List.getElem?_eq_getElem hi, List.getElem?_eq_getElem hi'⟩

theorem exists_part (h : Team model parts computeInfo m p) {i : ℕ} {w : Worker S}
    (hw : p.workers[i]? = some w) : ∃ part, parts[i]? = some part ∧ i < parts.length := by
  have hi : i < parts.length := by
    rw [← h.length]
    exact (List.getElem?_eq_some_iff.1 hw).1
  exact ⟨parts[i], List.getElem?_eq_getElem hi, hi⟩

/-- When there are as many results as goroutines, all have sent theirs. -/
theorem all_finished (h : Team model parts computeInfo m p)
    (hall : parts.length ≤ (p.workers.filterMap Worker.sent).length) {w : Worker S}
    (hw : w ∈ p.workers) : ∃ v, w = .finished v := by
  have hsome : (Worker.sent w).isSome = true := by
    rw [← h.length, List.length_filterMap_eq_countP] at hall
    exact List.countP_eq_length.1 (le_antisymm List.countP_le_length hall) w hw
  cases w with
  | checking s => simp [Worker.sent] at hsome
  | sending v => simp [Worker.sent] at hsome
  | finished v => exact ⟨v, rfl⟩

/-- A negative result that nobody was killed for. -/
theorem illegal (h : Team model parts computeInfo m p) (hkill : p.kill = false)
    (hsent : false ∈ p.workers.filterMap Worker.sent) :
    ∃ part ∈ parts, ¬ part.layout.Linearizable model := by
  obtain ⟨w, hw, hfalse⟩ := List.mem_filterMap.1 hsent
  obtain ⟨i, hi, rfl⟩ := List.getElem_of_mem hw
  have hget := List.getElem?_eq_getElem hi
  obtain ⟨part, hpart, _⟩ := h.exists_part hget
  have hok := h.workers i part _ hpart hget
  refine ⟨part, List.mem_of_getElem? hpart, ?_⟩
  cases hwi : p.workers[i] with
  | checking s => simp [hwi, Worker.sent] at hfalse
  | sending v => simp [hwi, Worker.sent] at hfalse
  | finished v =>
      rw [hwi] at hok hfalse
      exact Layout.Right.illegal hok hkill (Option.some.inj hfalse)

/-- All results are there, and all are positive. -/
theorem linearizable (h : Team model parts computeInfo m p)
    (hall : parts.length ≤ (p.workers.filterMap Worker.sent).length)
    (hsent : ∀ b ∈ p.workers.filterMap Worker.sent, b = true) {part : Part ι ο}
    (hpart : part ∈ parts) : part.layout.Linearizable model := by
  obtain ⟨i, w, hi, hw⟩ := h.exists_worker hpart
  obtain ⟨v, rfl⟩ := h.all_finished hall (List.mem_of_getElem? hw)
  have hright : part.layout.Right model computeInfo p.kill v := h.workers i part _ hi hw
  exact hright.ok (hsent v.1 (List.mem_filterMap.2 ⟨_, List.mem_of_getElem? hw, rfl⟩))

/-- What the caller knows while it collects. -/
theorem decided (h : Team model parts computeInfo m p) (hkill : p.kill = false)
    {received : List Bool} (hperm : (received ++ p.results).Perm (p.workers.filterMap Worker.sent))
    (timedOut : Bool) (htimed : timedOut = true → timed = true)
    (hall : timedOut = false → received.all id = true → parts.length ≤ received.length) :
    Decided model parts timed (received.all id) timedOut := by
  refine ⟨fun hok hnot part hpart => ?_, fun hok => ?_, htimed⟩
  · have hlen := hperm.length_eq
    rw [List.length_append] at hlen
    have hle := hall hnot hok
    have hbound : (p.workers.filterMap Worker.sent).length ≤ parts.length := by
      rw [← h.length]
      exact List.length_filterMap_le _ _
    have hnil : p.results = [] := List.length_eq_zero_iff.1 (by omega)
    rw [hnil, List.append_nil] at hperm
    refine h.linearizable (by omega) (fun b hb => ?_) hpart
    exact List.all_eq_true.1 hok b (hperm.mem_iff.2 hb)
  · obtain ⟨b, hb, hfalse⟩ : ∃ b ∈ received, b = false := by
      simpa using hok
    subst hfalse
    exact h.illegal hkill (hperm.mem_iff.1 (List.mem_append_left _ hb))

/-- The sequences that are returned when all goroutines have sent. -/
theorem informed (h : Team model parts computeInfo m p) (hinfo : computeInfo = true)
    (hall : parts.length ≤ (p.workers.filterMap Worker.sent).length) {timedOut : Bool}
    (hkill : timedOut = false → p.kill = false) :
    List.Forall₂ (Informed model timedOut) parts (partialLinearizations p.workers) := by
  rw [partialLinearizations, List.forall₂_map_right_iff, List.forall₂_iff_get]
  refine ⟨h.length.symm, fun i hi hi' => ?_⟩
  have hget := List.getElem?_eq_getElem hi
  have hget' := List.getElem?_eq_getElem hi'
  obtain ⟨v, hv⟩ := h.all_finished hall (List.getElem_mem hi')
  have hright : parts[i].layout.Right model computeInfo p.kill v := by
    have hok := h.workers i _ _ hget hget'
    rwa [hv] at hok
  simp only [List.get_eq_getElem, hv, Worker.longest]
  refine ⟨fun seq hseq => ?_, fun hnot order t horder id hid => ?_⟩
  · obtain ⟨old, hold, rfl⟩ := List.mem_filterMap.1 (List.mem_toFinset.1 hseq)
    obtain ⟨id, hid, hid'⟩ := List.getElem_of_mem hold
    exact (hright.sound id seq (by rw [List.getElem?_eq_getElem hid, hid'])).2
  · obtain ⟨seq, hseq, hle⟩ := hright.longest (hkill hnot) hinfo order t horder id hid
    refine ⟨seq, ?_, (hright.sound id seq hseq).1, hle⟩
    exact List.mem_toFinset.2 (List.mem_filterMap.2 ⟨some seq, List.mem_of_getElem? hseq, rfl⟩)

/-- A goroutine makes a step. -/
theorem set (h : Team model parts computeInfo m p) {i k : ℕ} {w' : Worker S}
    (hw' : ∀ part, parts[i]? = some part → WorkerOk model computeInfo p.kill part k w') :
    Team model parts computeInfo (Function.update m i k)
      { p with workers := p.workers.set i w' } := by
  refine ⟨by simpa using h.length, fun j part w hpart hw => ?_⟩
  by_cases hij : j = i
  · subst hij
    have hj : j < p.workers.length := by
      rw [h.length]
      exact (List.getElem?_eq_some_iff.1 hpart).1
    dsimp only at hw
    rw [List.getElem?_set_self hj] at hw
    obtain rfl := Option.some.inj hw
    rw [Function.update_self]
    exact hw' part hpart
  · dsimp only at hw
    rw [List.getElem?_set_ne (Ne.symm hij)] at hw
    rw [Function.update_of_ne hij]
    exact h.workers j part w hpart hw

/-- Everybody is told to stop. -/
theorem kill (h : Team model parts computeInfo m p) :
    Team model parts computeInfo m { p with kill := true } :=
  ⟨h.length, fun i part w hpart hw => (h.workers i part w hpart hw).kill⟩

/-- The caller leaves its loop. -/
theorem settle (h : Team model parts computeInfo m p) {count : ℕ} {ok timedOut : Bool}
    (hdecided : Decided model parts timed ok timedOut)
    (hkill : computeInfo = true → timedOut = false → p.kill = false)
    (hcount : count + p.results.length = (p.workers.filterMap Worker.sent).length) :
    ParInv model parts computeInfo timed m
      (Par.settle (parts.map Part.entries) computeInfo p count ok timedOut) := by
  refine ⟨⟨h.length, h.workers⟩, ?_⟩
  unfold Par.settle
  cases computeInfo with
  | false => exact ⟨ok, timedOut, rfl, hdecided, by simp⟩
  | true =>
      simp only [if_true, List.length_map]
      split
      · next hlt => exact ⟨rfl, hlt, hkill rfl, hdecided, hcount⟩
      · next hge =>
          exact ⟨ok, timedOut, rfl, hdecided, fun _ => ⟨_, rfl,
            h.informed rfl (by omega) (hkill rfl)⟩⟩

end Team

theorem CollectorOk.congr {p' : Par S} {c : Collector}
    (h : CollectorOk model parts computeInfo timed p c) (hkill : p'.kill = p.kill)
    (hresults : p'.results = p.results)
    (hsent : p'.workers.filterMap Worker.sent = p.workers.filterMap Worker.sent) :
    CollectorOk model parts computeInfo timed p' c := by
  cases c with
  | selecting count ok =>
      simp only [CollectorOk, hkill, hresults, hsent] at h ⊢
      exact h
  | draining count ok timedOut =>
      simp only [CollectorOk, hkill, hresults, hsent] at h ⊢
      exact h
  | returned result info => exact h

/-- A result is on its way. -/
theorem CollectorOk.send {p' : Par S} {c : Collector} {b : Bool}
    (h : CollectorOk model parts computeInfo timed p c) (hkill : p'.kill = p.kill)
    (hresults : p'.results = p.results ++ [b])
    (hsent : (p.workers.filterMap Worker.sent ++ [b]).Perm (p'.workers.filterMap Worker.sent)) :
    CollectorOk model parts computeInfo timed p' c := by
  cases c with
  | selecting count ok =>
      obtain ⟨hk, hcount, received, hperm, hlen, hok⟩ := h
      refine ⟨hkill.trans hk, hcount, received, ?_, hlen, hok⟩
      rw [hresults, ← List.append_assoc]
      exact (hperm.append_right _).trans hsent
  | draining count ok timedOut =>
      obtain ⟨hinfo, hlt, hk, hdecided, hlen⟩ := h
      refine ⟨hinfo, hlt, fun hnot => hkill.trans (hk hnot), hdecided, ?_⟩
      rw [hresults, ← hsent.length_eq, List.length_append, List.length_append, ← hlen,
        Nat.add_assoc]
  | returned result info => exact h

theorem sum_update_lt {n i k : ℕ} (hi : i < n) (hk : k < m i) :
    ∑ j ∈ Finset.range n, Function.update m i k j < ∑ j ∈ Finset.range n, m j := by
  refine Finset.sum_lt_sum (fun j _ => ?_) ⟨i, Finset.mem_range.2 hi, by simpa using hk⟩
  by_cases hij : j = i
  · subst hij
    simpa using hk.le
  · rw [Function.update_of_ne hij]

/-! ## Every step -/

/-- A round of a search. -/
theorem ParInv.round (h : ParInv model parts computeInfo timed m p)
    (hequal : Layout.Congruent model) {i : ℕ} {part : Part ι ο} {s : Search S}
    (hpart : parts[i]? = some part) (hw : p.workers[i]? = some (.checking s)) :
    ∃ p' m', Par.step model (parts.map Part.entries) computeInfo timed p (.round i) = some p' ∧
      ParInv model parts computeInfo timed m' p' ∧ stepsLeft parts m' p' < stepsLeft parts m p := by
  have hi : i < parts.length := (List.getElem?_eq_some_iff.1 hpart).1
  have hhistory : (parts.map Part.entries)[i]? = some part.entries := by simp [hpart]
  obtain ⟨st, hrun, hle⟩ := h.team.workers i part _ hpart hw
  -- whatever the round does, nothing has been sent
  have hgo : ∀ w', Worker.sent w' = none → WorkerOk model computeInfo p.kill part (m i - 1) w' →
      ParInv model parts computeInfo timed (Function.update m i (m i - 1))
        { p with workers := p.workers.set i w' } ∧
      stepsLeft parts (Function.update m i (m i - 1)) { p with workers := p.workers.set i w' } <
        stepsLeft parts m p := by
    intro w' hsent hok
    refine ⟨⟨h.team.set fun part' hpart' => ?_, ?_⟩, ?_⟩
    · obtain rfl := Option.some.inj (hpart.symm.trans hpart')
      exact hok
    · exact h.main.congr rfl rfl (filterMap_set _ hw (hsent.trans rfl))
    · exact Nat.add_lt_add_right (sum_update_lt hi (by omega)) _
  have hverdict : ∀ v, Porcupine.round model (makeLinkedEntries part.entries) computeInfo p.kill s =
      some (.inr v) → part.layout.Right model computeInfo p.kill v →
      ∃ p' m', Par.step model (parts.map Part.entries) computeInfo timed p (.round i) = some p' ∧
        ParInv model parts computeInfo timed m' p' ∧
        stepsLeft parts m' p' < stepsLeft parts m p := by
    intro v hround hright
    obtain ⟨hinv, hlt⟩ := hgo (.sending v) rfl ⟨hright, by omega⟩
    exact ⟨_, _, by simp [Par.step, hhistory, hw, hround], hinv, hlt⟩
  cases hkill : p.kill with
  | true =>
      rw [hkill] at hverdict
      obtain ⟨v, hround, hright⟩ := hrun.killed
      exact hverdict v hround hright
  | false =>
      rw [hkill] at hverdict
      cases hstep : (part.layout.problem model).step st with
      | inl st' =>
          obtain ⟨s', hround, hrun', hlt'⟩ := hrun.round hequal hstep
          obtain ⟨hinv, hlt⟩ := hgo (.checking s') rfl ⟨st', hrun', by omega⟩
          rw [← hkill] at hround
          exact ⟨_, _, by simp [Par.step, hhistory, hw, hround], hinv, hlt⟩
      | inr ok => exact hverdict _ (hrun.sim.answer hstep) (hrun.right hequal hstep)

/-- A result is sent. -/
theorem ParInv.send (h : ParInv model parts computeInfo timed m p) {i : ℕ} {part : Part ι ο}
    {v : Verdict} (hpart : parts[i]? = some part) (hw : p.workers[i]? = some (.sending v)) :
    ∃ p' m', Par.step model (parts.map Part.entries) computeInfo timed p (.send i) = some p' ∧
      ParInv model parts computeInfo timed m' p' ∧ stepsLeft parts m' p' < stepsLeft parts m p := by
  have hi : i < parts.length := (List.getElem?_eq_some_iff.1 hpart).1
  obtain ⟨hright, hle⟩ := h.team.workers i part _ hpart hw
  have hteam : Team model parts computeInfo (Function.update m i (m i - 1))
      { p with workers := p.workers.set i (.finished v) } := h.team.set fun part' hpart' => by
    obtain rfl := Option.some.inj (hpart.symm.trans hpart')
    exact hright
  refine ⟨{ p with workers := p.workers.set i (.finished v), results := p.results ++ [v.1] },
    Function.update m i (m i - 1), by simp only [Par.step, hw],
    ⟨⟨hteam.length, hteam.workers⟩, ?_⟩, ?_⟩
  · exact h.main.send rfl rfl (filterMap_set_perm _ hw rfl rfl)
  · exact Nat.add_lt_add_right (sum_update_lt hi (by omega)) _

theorem stepsLeft_settle_lt {q : Par S} {count : ℕ} (ok timedOut : Bool)
    (hlt : parts.length - count + 1 < q.main.left parts.length) :
    stepsLeft parts m (Par.settle (parts.map Part.entries) computeInfo p count ok timedOut) <
      stepsLeft parts m q := by
  refine Nat.add_lt_add_left (lt_of_le_of_lt ?_ hlt) _
  unfold Par.settle
  dsimp only
  split
  · split
    · exact le_rfl
    · exact Nat.zero_le _
  · exact Nat.zero_le _

/-- A result is received in the loop. -/
theorem ParInv.receive_selecting (h : ParInv model parts computeInfo timed m p) {result : Bool}
    {results : List Bool} (hresults : p.results = result :: results) {count : ℕ} {ok : Bool}
    (hp : p.main = .selecting count ok) :
    ∃ p', Par.receive (parts.map Part.entries) computeInfo { p with results := results } result =
        some p' ∧
      ParInv model parts computeInfo timed m p' ∧ stepsLeft parts m p' < stepsLeft parts m p := by
  have hteam : Team model parts computeInfo m { p with results := results } :=
    ⟨h.team.length, h.team.workers⟩
  have hcollector := h.main
  rw [hp] at hcollector
  obtain ⟨hkill, hcount, received, hperm, rfl, rfl⟩ := hcollector
  have hall : (received ++ [result]).all id = (received.all id && result) := by
    simp
  have hperm' : ((received ++ [result]) ++ results).Perm (p.workers.filterMap Worker.sent) := by
    rw [hresults] at hperm
    simpa using hperm
  have hlen : received.length + 1 + results.length = (p.workers.filterMap Worker.sent).length := by
    rw [← hperm'.length_eq]
    simp only [List.length_append, List.length_singleton]
  have hless : parts.length - (received.length + 1) + 1 < p.main.left parts.length := by
    rw [hp]
    simp only [Collector.left]
    omega
  simp only [Par.receive, hp, List.length_map]
  split
  · -- a negative result, and nobody wants to know more
    next hneg =>
      rw [← hall] at hneg
      simp only [Bool.and_eq_true, Bool.not_eq_true'] at hneg
      refine ⟨_, rfl, hteam.kill.settle ?_ (fun hinfo => ?_) hlen, stepsLeft_settle_lt _ _ hless⟩
      · rw [← hall]
        refine hteam.decided hkill hperm' false (by simp) fun _ htrue => ?_
        rw [hneg.1] at htrue
        exact absurd htrue (by simp)
      · rw [hneg.2] at hinfo
        exact absurd hinfo (by simp)
  · split
    · -- the last result
      next hlast =>
        refine ⟨_, rfl, hteam.settle ?_ (fun _ _ => hkill) hlen, stepsLeft_settle_lt _ _ hless⟩
        rw [← hall]
        refine hteam.decided hkill hperm' false (by simp) fun _ _ => ?_
        simpa using hlast
    · next hmore =>
        refine ⟨_, rfl, ⟨⟨h.team.length, h.team.workers⟩, hkill, Or.inr (not_le.1 hmore),
          received ++ [result], hperm', by simp, hall.symm⟩, ?_⟩
        simp only [stepsLeft, hp, Collector.left]
        omega

/-- A result is received. -/
theorem ParInv.receive (h : ParInv model parts computeInfo timed m p) {result : Bool}
    {results : List Bool} (hresults : p.results = result :: results)
    (hmain : ∀ r info, p.main ≠ .returned r info) :
    ∃ p', Par.step model (parts.map Part.entries) computeInfo timed p .receive = some p' ∧
      ParInv model parts computeInfo timed m p' ∧ stepsLeft parts m p' < stepsLeft parts m p := by
  have hstep : Par.step model (parts.map Part.entries) computeInfo timed p .receive =
      Par.receive (parts.map Part.entries) computeInfo { p with results := results } result := by
    simp only [Par.step, hresults]
  rw [hstep]
  cases hp : p.main with
  | returned r info => exact absurd hp (hmain r info)
  | selecting count ok =>
      rw [← hp]
      exact h.receive_selecting hresults hp
  | draining count ok timedOut =>
      have hteam : Team model parts computeInfo m { p with results := results } :=
        ⟨h.team.length, h.team.workers⟩
      have hcollector := h.main
      rw [hp] at hcollector
      obtain ⟨hinfo, hlt, hkill, hdecided, hlen⟩ := hcollector
      rw [hresults, List.length_cons] at hlen
      have hlen' : count + 1 + results.length = (p.workers.filterMap Worker.sent).length := by
        omega
      refine ⟨_, by simp only [Par.receive, hp], hteam.settle hdecided (fun _ => hkill) hlen',
        stepsLeft_settle_lt _ _ ?_⟩
      rw [hp]
      simp only [Collector.left]
      omega

/-- The timer goes off. -/
theorem ParInv.timeout (h : ParInv model parts computeInfo timed m p) (htimed : timed = true)
    {count : ℕ} {ok : Bool} (hp : p.main = .selecting count ok) :
    ∃ p', Par.step model (parts.map Part.entries) computeInfo timed p .timeout = some p' ∧
      ParInv model parts computeInfo timed m p' ∧ stepsLeft parts m p' < stepsLeft parts m p := by
  have hcollector := h.main
  rw [hp] at hcollector
  obtain ⟨hkill, hcount, received, hperm, rfl, rfl⟩ := hcollector
  have hlen : received.length + p.results.length = (p.workers.filterMap Worker.sent).length := by
    rw [← hperm.length_eq, List.length_append]
  subst htimed
  refine ⟨_, by simp only [Par.step, hp]; rfl,
    h.team.kill.settle ?_ (fun _ hnot => absurd hnot (by simp)) hlen, stepsLeft_settle_lt _ _ ?_⟩
  · exact h.team.decided hkill hperm true (fun _ => rfl) fun hnot => absurd hnot (by simp)
  · rw [hp]
    simp only [Collector.left]
    omega

/-- **Step lemma.** Every step keeps the invariant, and there is less left. -/
theorem ParInv.step (h : ParInv model parts computeInfo timed m p) (hequal : Layout.Congruent model)
    {t : Turn} {p' : Par S}
    (hstep : Par.step model (parts.map Part.entries) computeInfo timed p t = some p') :
    ∃ m', ParInv model parts computeInfo timed m' p' ∧
      stepsLeft parts m' p' < stepsLeft parts m p := by
  cases t with
  | round i =>
      cases hw : p.workers[i]? with
      | none => simp [Par.step, hw] at hstep
      | some w =>
          obtain ⟨part, hpart, _⟩ := h.team.exists_part hw
          cases w with
          | checking s =>
              obtain ⟨q, m', hq, hinv, hlt⟩ := h.round hequal hpart hw
              obtain rfl := Option.some.inj (hstep.symm.trans hq)
              exact ⟨m', hinv, hlt⟩
          | sending v => simp [Par.step, hw] at hstep
          | finished v => simp [Par.step, hw] at hstep
  | send i =>
      cases hw : p.workers[i]? with
      | none => simp [Par.step, hw] at hstep
      | some w =>
          obtain ⟨part, hpart, _⟩ := h.team.exists_part hw
          cases w with
          | checking s => simp [Par.step, hw] at hstep
          | sending v =>
              obtain ⟨q, m', hq, hinv, hlt⟩ := h.send hpart hw
              obtain rfl := Option.some.inj (hstep.symm.trans hq)
              exact ⟨m', hinv, hlt⟩
          | finished v => simp [Par.step, hw] at hstep
  | receive =>
      cases hresults : p.results with
      | nil => simp [Par.step, hresults] at hstep
      | cons result results =>
          have hmain : ∀ r info, p.main ≠ .returned r info := by
            intro r info hp
            simp [Par.step, hresults, Par.receive, hp] at hstep
          obtain ⟨q, hq, hinv, hlt⟩ := h.receive hresults hmain
          obtain rfl := Option.some.inj (hstep.symm.trans hq)
          exact ⟨m, hinv, hlt⟩
  | timeout =>
      cases htimed : timed with
      | false => simp [Par.step, htimed] at hstep
      | true =>
          cases hp : p.main with
          | selecting count ok =>
              obtain ⟨q, hq, hinv, hlt⟩ := h.timeout htimed hp
              obtain rfl := Option.some.inj (hstep.symm.trans hq)
              rw [htimed] at hinv
              exact ⟨m, hinv, hlt⟩
          | draining count ok timedOut => simp [Par.step, htimed, hp] at hstep
          | returned r info => simp [Par.step, htimed, hp] at hstep

/-- **Progress.** Until the caller is back, somebody can make a step; without parts this takes a
    timer. -/
theorem ParInv.progress (h : ParInv model parts computeInfo timed m p)
    (hequal : Layout.Congruent model) (hmain : ∀ r info, p.main ≠ .returned r info)
    (hsome : parts ≠ [] ∨ timed = true) :
    ∃ t p', Par.step model (parts.map Part.entries) computeInfo timed p t = some p' := by
  by_cases hall : ∀ w ∈ p.workers, (Worker.sent w).isSome = true
  · -- all goroutines have sent
    have hlen : (p.workers.filterMap Worker.sent).length = parts.length := by
      rw [List.length_filterMap_eq_countP, List.countP_eq_length.2 hall, h.team.length]
    have hcollector := h.main
    have hreceive : p.results ≠ [] →
        ∃ t p', Par.step model (parts.map Part.entries) computeInfo timed p t = some p' := by
      intro hne
      obtain ⟨result, results, hresults⟩ := List.exists_cons_of_ne_nil hne
      obtain ⟨p', hp', _⟩ := h.receive hresults hmain
      exact ⟨.receive, p', hp'⟩
    cases hp : p.main with
    | returned r info => exact absurd hp (hmain r info)
    | draining count ok timedOut =>
        rw [hp] at hcollector
        obtain ⟨_, hlt, _, _, hcount⟩ := hcollector
        refine hreceive fun hnil => ?_
        rw [hnil, List.length_nil] at hcount
        omega
    | selecting count ok =>
        have hcollector' := hcollector
        rw [hp] at hcollector'
        obtain ⟨_, hcount, received, hperm, rfl, _⟩ := hcollector'
        rcases hcount with hnil | hlt
        · obtain ⟨p', hp', _⟩ := h.timeout (hsome.resolve_left (not_not.2 hnil)) hp
          exact ⟨.timeout, p', hp'⟩
        · refine hreceive fun hnil => ?_
          have hcount := hperm.length_eq
          rw [hnil, List.append_nil] at hcount
          omega
  · push Not at hall
    obtain ⟨w, hw, hsent⟩ := hall
    obtain ⟨i, hi, rfl⟩ := List.getElem_of_mem hw
    have hget := List.getElem?_eq_getElem hi
    obtain ⟨part, hpart, _⟩ := h.team.exists_part hget
    cases hwi : p.workers[i] with
    | checking s =>
        rw [hwi] at hget
        obtain ⟨p', _, hp', _⟩ := h.round hequal hpart hget
        exact ⟨.round i, p', hp'⟩
    | sending v =>
        rw [hwi] at hget
        obtain ⟨p', _, hp', _⟩ := h.send hpart hget
        exact ⟨.send i, p', hp'⟩
    | finished v => simp [hwi, Worker.sent] at hsent

/-- What the result says when the caller is back. -/
theorem ParInv.returned (h : ParInv model parts computeInfo timed m p) {result : CheckResult}
    {info : Option (List (Finset (List ℕ)))} (hp : p.main = .returned result info) :
    (result = .ok → ∀ part ∈ parts, part.layout.Linearizable model) ∧
      (result = .illegal → ∃ part ∈ parts, ¬ part.layout.Linearizable model) ∧
      (result = .unknown → timed = true) := by
  have hmain := h.main
  rw [hp] at hmain
  obtain ⟨ok, timedOut, rfl, hdecided, _⟩ := hmain
  refine ⟨fun hresult => ?_, fun hresult => ?_, fun hresult => ?_⟩
  · obtain ⟨hok, hnot⟩ := resultOf_eq_ok_iff.1 hresult
    exact hdecided.linearizable hok hnot
  · exact hdecided.illegal (resultOf_eq_illegal_iff.1 hresult)
  · exact hdecided.timer (resultOf_eq_unknown_iff.1 hresult).2

/-! ## Runs -/

theorem parInv_start (model : FilledModel S ι ο) (parts : List (Part ι ο))
    (computeInfo timed : Bool) : ParInv model parts computeInfo timed
      (fun i => (parts[i]?).elim 0 fun part => Layout.rounds part.n + 2)
      (Par.start model (parts.map Part.entries)) := by
  refine ⟨⟨by simp [Par.start], fun i part w hpart hw => ?_⟩, rfl, ?_, [], ?_, rfl, rfl⟩
  · simp only [Par.start, List.map_map, List.getElem?_map, hpart, Option.map_some] at hw
    obtain rfl := Option.some.inj hw
    rw [hpart]
    exact ⟨_, part.layout.run_start, Nat.add_le_add_right part.layout.roundsLeft_start 2⟩
  · rcases parts.eq_nil_or_concat with hnil | ⟨_, _, hsome⟩
    · exact Or.inl hnil
    · exact Or.inr (by simp [hsome])
  · simp only [Par.start, List.nil_append, List.map_map, List.filterMap_map]
    have hnone : ∀ l : List (Part ι ο), l.filterMap (Worker.sent ∘ (fun history =>
        Worker.checking (Search.start model (makeLinkedEntries history))) ∘ Part.entries) = [] := by
      intro l
      exact List.filterMap_eq_nil_iff.2 fun _ _ => rfl
    rw [hnone]

theorem sum_range_getElem? {α : Type} (f : α → ℕ) (l : List α) :
    ∑ i ∈ Finset.range l.length, (l[i]?).elim 0 f = (l.map f).sum := by
  induction l with
  | nil => rfl
  | cons a l ih =>
      rw [List.length_cons, Finset.sum_range_succ', List.map_cons, List.sum_cons, ← ih]
      simp only [List.getElem?_cons_succ, List.getElem?_cons_zero, Option.elim_some]
      exact Nat.add_comm _ _

theorem stepsLeft_start (model : FilledModel S ι ο) (parts : List (Part ι ο)) :
    stepsLeft parts (fun i => (parts[i]?).elim 0 fun part => Layout.rounds part.n + 2)
        (Par.start model (parts.map Part.entries)) =
      (parts.map fun part => Layout.rounds part.n + 2).sum + parts.length + 2 := by
  rw [stepsLeft, sum_range_getElem?]
  rfl

/-- **Run lemma.** -/
theorem ParInv.exec (h : ParInv model parts computeInfo timed m p) (hequal : Layout.Congruent model)
    {turns : List Turn} {p' : Par S}
    (hrun : Machine.exec (Par.step model (parts.map Part.entries) computeInfo timed) p turns =
      some p') :
    ∃ m', ParInv model parts computeInfo timed m' p' ∧
      turns.length + stepsLeft parts m' p' ≤ stepsLeft parts m p := by
  induction turns generalizing m p with
  | nil =>
      obtain rfl := Option.some.inj hrun
      exact ⟨m, h, by simp⟩
  | cons t turns ih =>
      cases hstep : Par.step model (parts.map Part.entries) computeInfo timed p t with
      | none => simp [Machine.exec, hstep] at hrun
      | some q =>
          rw [Machine.exec_cons_of_some _ hstep] at hrun
          obtain ⟨m₁, hinv, hlt⟩ := h.step hequal hstep
          obtain ⟨m', hinv', hle⟩ := ih hinv hrun
          refine ⟨m', hinv', ?_⟩
          rw [List.length_cons]
          omega

/-- From everywhere the caller can come back. -/
theorem ParInv.returns (h : ParInv model parts computeInfo timed m p)
    (hequal : Layout.Congruent model) (hsome : parts ≠ [] ∨ timed = true) :
    ∃ turns p' result info,
      Machine.exec (Par.step model (parts.map Part.entries) computeInfo timed) p turns = some p' ∧
      p'.main = .returned result info := by
  induction hk : stepsLeft parts m p using Nat.strong_induction_on generalizing m p with
  | _ k ih =>
      by_cases hmain : ∀ r info, p.main ≠ .returned r info
      · obtain ⟨t, q, hstep⟩ := h.progress hequal hmain hsome
        obtain ⟨m', hinv, hlt⟩ := h.step hequal hstep
        obtain ⟨turns, p', result, info, hrun, hp'⟩ := ih _ (hk ▸ hlt) hinv rfl
        refine ⟨t :: turns, p', result, info, ?_, hp'⟩
        rw [Machine.exec_cons_of_some _ hstep]
        exact hrun
      · push Not at hmain
        obtain ⟨r, info, hp⟩ := hmain
        exact ⟨[], p, r, info, rfl, hp⟩

end Porcupine

end AiFS
