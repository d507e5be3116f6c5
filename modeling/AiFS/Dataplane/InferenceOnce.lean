import AiFS.Dataplane.InferencePool

set_option autoImplicit false

/-! # Every task is run once

The account of a call of `Submit` (`Account`): how often its task is in the queue, and which
consumers hold it, follow from what the call's history says. A task in the queue has been taken by
nobody, a task that has been taken and not answered is held by the one consumer that took it, and
once there is a result nobody holds the task any more. Each step keeps every account, so no task is
run twice, no result is written twice, and the channel of a task that is still held is empty. -/

namespace AiFS

open Machine Pool
open Dataplane (ChatResponse)

namespace Worker

variable {n : ℕ} {p p' : Pool n} {a : Action n}

/-- The result is in the channel of the call, or the call has returned it. -/
def Submission.Shows (c : Submission n) (result : TaskResult) : Prop :=
  c.buffer = some result ∨ c.phase = .returned result

/-- The steps that a consumer has left with its task. -/
def Consumer.load : Consumer → ℕ
  | .idle => 0
  | .generating _ => 2
  | .answering .. => 1

namespace Pool

/-! ## Accounts -/

/-- The consumer `i` holds the task of the call `k`. -/
def Holds (p : Pool n) (i : Fin n) (k : ℕ) : Prop :=
  ∃ t, (p.gpus i).task = some t ∧ t.done = k

def inQueue (p : Pool n) (k : ℕ) : ℕ := (p.queue.map Task.done).count k

/-- The consumer `i` has run the backend on the prompt of the call `k`, and this has become
    `result`. -/
def Ran (p : Pool n) (k : ℕ) (i : Fin n) (result : TaskResult) : Prop :=
  ∃ g ∈ p.generated, g.gpuID = i ∧ g.done = k ∧
    p.submissions[k]?.map Submission.prompt = some g.prompt ∧
    result = ⟨p.finish i g.response, g.err⟩

/-- The task carries the prompt of its own call. -/
def Own (p : Pool n) (t : Task) : Prop :=
  p.submissions[t.done]?.map Submission.prompt = some t.prompt

structure Account (p : Pool n) (k : ℕ) (c : Submission n) : Prop where
  inQueue : p.inQueue k = if c.queued = true ∧ c.takenBy = [] then 1 else 0
  held : ∀ i, p.Holds i k ↔ c.takenBy = [i] ∧ c.sent = []
  offered : c.queued = false → c.takenBy = []
  taken : c.takenBy = [] ∨ ∃ i, c.takenBy = [i]
  sent : c.sent = [] ∨ ∃ i result, c.takenBy = [i] ∧ c.sent = [result] ∧ p.Ran k i result
  shown : ∀ result, c.Shows result → result ∈ c.sent

structure Inv (p : Pool n) : Prop where
  account : ∀ k c, p.submissions[k]? = some c → p.Account k c
  queued : ∀ t ∈ p.queue, p.Own t
  held : ∀ i t, (p.gpus i).task = some t → p.Own t
  answering : ∀ i t result, p.gpus i = .answering t result → p.Ran t.done i result

/-! ## Steps -/

/-- The steps, without the conditions that only decide when they are taken. `caller` is a step of a
    call, or of its context, that leaves the queue and the consumers alone. -/
inductive Move (p : Pool n) : Pool n → Prop
  | submit (prompt : String) : Move p (p.submit prompt)
  | caller (k : ℕ) (c c' : Submission n) : p.submissions[k]? = some c → c'.prompt = c.prompt →
      c'.queued = c.queued → c'.takenBy = c.takenBy → c'.sent = c.sent →
      (∀ result, c'.Shows result → c.Shows result) →
      Move p { p with submissions := p.submissions.set k c' }
  | enqueue (k : ℕ) (c : Submission n) : p.submissions[k]? = some c → c.phase = .offering →
      Move p { p with
        submissions := p.submissions.set k { c with phase := .waiting }
        queue := p.queue ++ [p.task k c] }
  | take (i : Fin n) (t : Task) (rest : List Task) : p.gpus i = .idle → p.queue = t :: rest →
      Move p { p.setGpu i (.generating t) with
        queue := rest
        submissions := p.submissions.modify t.done
          (fun c => { c with takenBy := c.takenBy ++ [i] }) }
  | generate (i : Fin n) (t : Task) (response : ChatResponse) (err : Option String) :
      p.gpus i = .generating t →
      Move p { p.setGpu i (.answering t ⟨p.finish i response, err⟩) with
        generated := p.generated ++ [⟨i, t.done, t.prompt, response, err⟩] }
  | answer (i : Fin n) (t : Task) (result : TaskResult) (c : Submission n) :
      p.gpus i = .answering t result → p.submissions[t.done]? = some c → c.buffer = none →
      Move p { p.setGpu i .idle with
        submissions := p.submissions.set t.done
          { c with buffer := some result, sent := c.sent ++ [result] } }

/-- A call that goes on without a result shows what its channel holds. -/
theorem shows_of_phase {c : Submission n} {phase : Phase} (h : ∀ r, phase ≠ .returned r)
    (result : TaskResult) (hshow : ({ c with phase := phase } : Submission n).Shows result) :
    c.Shows result :=
  Or.inl (hshow.resolve_right (h result))

theorem step_move (hstep : p.step a = some p') : p.Move p' := by
  cases a with
  | submit prompt => exact Option.some.inj hstep ▸ .submit prompt
  | cancel k err =>
      simp only [step, cancel] at hstep
      split at hstep
      · next c hc =>
          split at hstep
          · rw [← Option.some.inj hstep]
            exact .caller k c { c with ctxErr := some err } hc rfl rfl rfl rfl (fun _ h => h)
          · cases hstep
      · cases hstep
  | enqueue k =>
      simp only [step, enqueue] at hstep
      split at hstep
      · next c hc =>
          split at hstep
          · next hphase => exact Option.some.inj hstep ▸ .enqueue k c hc hphase.1
          · cases hstep
      · cases hstep
  | timeout k =>
      simp only [step, timeout] at hstep
      split at hstep
      · next c hc =>
          split at hstep
          · next hphase =>
              rw [← Option.some.inj hstep]
              refine .caller k c { c with phase := .queueFull } hc rfl ?_ rfl rfl
                (shows_of_phase (fun r h => by cases h))
              simp only [Submission.queued, hphase]
          · cases hstep
      · cases hstep
  | abort k =>
      simp only [step, abort] at hstep
      split at hstep
      · next c hc =>
          split at hstep
          · cases hstep
          · next err _ =>
              split at hstep
              · rw [← Option.some.inj hstep]
                exact .caller k c { c with phase := .cancelled c.queued err } hc rfl rfl rfl rfl
                  (shows_of_phase (fun r h => by cases h))
              · cases hstep
      · cases hstep
  | receive k =>
      simp only [step, receive] at hstep
      split at hstep
      · next c hc =>
          split at hstep
          · cases hstep
          · next result hbuf =>
              split at hstep
              · next hphase =>
                  rw [← Option.some.inj hstep]
                  refine .caller k c { c with phase := .returned result, buffer := none } hc rfl
                    ?_ rfl rfl (fun result' hshow => ?_)
                  · simp only [Submission.queued, hphase]
                  · -- what the call returns was in its channel
                    rcases hshow with h | h
                    · cases h
                    · exact Or.inl (hbuf.trans (congrArg some (Phase.returned.inj h)))
              · cases hstep
      · cases hstep
  | take i =>
      simp only [step, take] at hstep
      split at hstep
      · next t rest hidle hqueue => exact Option.some.inj hstep ▸ .take i t rest hidle hqueue
      · cases hstep
  | generate i response err =>
      simp only [step, generate] at hstep
      split at hstep
      · next t ht => exact Option.some.inj hstep ▸ .generate i t response err ht
      · cases hstep
  | answer i =>
      simp only [step, answer] at hstep
      split at hstep
      · next t result ht =>
          split at hstep
          · next c hc =>
              split at hstep
              · cases hstep
              · next hbuf =>
                  rw [← Option.some.inj hstep]
                  exact .answer i t result c ht hc (Option.not_isSome_iff_eq_none.1 hbuf)
          · cases hstep
      · cases hstep

/-! ## What stays -/

theorem getElem?_modify_of_some {calls : List (Submission n)} {k : ℕ} {c : Submission n}
    (h : calls[k]? = some c) (f : Submission n → Submission n) :
    calls.modify k f = calls.set k (f c) := by
  rw [List.modify_eq_set_getElem?, h]
  rfl

theorem Move.workerID (h : p.Move p') : p'.workerID = p.workerID := by
  cases h <;> rfl

/-- A call keeps its prompt, and what has been written to its channel. -/
theorem Move.submission (h : p.Move p') {j : ℕ} {x : Submission n}
    (hj : p.submissions[j]? = some x) : ∃ x', p'.submissions[j]? = some x' ∧
      x'.prompt = x.prompt ∧ ∀ result ∈ x.sent, result ∈ x'.sent := by
  -- a call that is replaced
  have hset : ∀ (k : ℕ) (c c' : Submission n), p.submissions[k]? = some c →
      c'.prompt = c.prompt → (∀ result ∈ c.sent, result ∈ c'.sent) →
      ∃ x', (p.submissions.set k c')[j]? = some x' ∧ x'.prompt = x.prompt ∧
        ∀ result ∈ x.sent, result ∈ x'.sent := by
    intro k c c' hc hprompt hsent
    rw [getElem?_set_of_some hc]
    by_cases hjk : j = k
    · subst hjk
      obtain rfl := Option.some.inj (hc.symm.trans hj)
      exact ⟨c', if_pos rfl, hprompt, hsent⟩
    · exact ⟨x, (if_neg hjk).trans hj, rfl, fun _ h => h⟩
  cases h with
  | submit new =>
      have hlt := (List.getElem?_eq_some_iff.1 hj).1
      exact ⟨x, (List.getElem?_append_left hlt).trans hj, rfl, fun _ h => h⟩
  | caller k c c' hc hprompt _ _ hsent => exact hset k c c' hc hprompt (fun _ h => hsent ▸ h)
  | enqueue k c hc => exact hset k c _ hc rfl (fun _ h => h)
  | take i t rest =>
      simp only [List.getElem?_modify, hj, Option.map_eq_map, Option.map_some]
      split
      · exact ⟨_, rfl, rfl, fun _ h => h⟩
      · exact ⟨_, rfl, rfl, fun _ h => h⟩
  | generate => exact ⟨x, hj, rfl, fun _ h => h⟩
  | answer i t result c _ hc =>
      exact hset t.done c _ hc rfl (fun _ h => List.mem_append_left _ h)

/-- The prompt of a call does not change. -/
theorem Move.promptOf (h : p.Move p') (j : ℕ) (prompt : String)
    (hj : p.submissions[j]?.map Submission.prompt = some prompt) :
    p'.submissions[j]?.map Submission.prompt = some prompt := by
  obtain ⟨x, hx, rfl⟩ := Option.map_eq_some_iff.1 hj
  obtain ⟨x', hx', hprompt, -⟩ := h.submission hx
  rw [hx', Option.map_some, hprompt]

theorem Own.move {t : Task} (h : p.Own t) (hmove : p.Move p') : p'.Own t :=
  hmove.promptOf _ _ h

theorem Ran.move {k : ℕ} {i : Fin n} {result : TaskResult} (h : p.Ran k i result)
    (hmove : p.Move p') : p'.Ran k i result := by
  obtain ⟨g, hg, hgpu, hdone, hprompt, hresult⟩ := h
  have hprompt := hmove.promptOf k g.prompt hprompt
  cases hmove with
  | generate => exact ⟨g, List.mem_append_left _ hg, hgpu, hdone, hprompt, hresult⟩
  | _ => exact ⟨g, hg, hgpu, hdone, hprompt, hresult⟩

theorem Inv.queued_move (h : p.Inv) (hmove : p.Move p') : ∀ t ∈ p'.queue, p'.Own t := by
  have hkept : ∀ t ∈ p.queue, p'.Own t := fun t ht => (h.queued t ht).move hmove
  have hprompt := hmove.promptOf
  cases hmove with
  | enqueue k c hc =>
      intro t ht
      rcases List.mem_append.1 ht with ht | ht
      · exact hkept t ht
      · rw [List.mem_singleton.1 ht]
        exact hprompt k c.prompt (by rw [hc]; rfl)
  | take i t rest _ hqueue => exact fun t ht => hkept t (hqueue ▸ List.mem_cons_of_mem _ ht)
  | _ => exact hkept

theorem Inv.held_move (h : p.Inv) (hmove : p.Move p') :
    ∀ i t, (p'.gpus i).task = some t → p'.Own t := by
  have hkept : ∀ i t, (p.gpus i).task = some t → p'.Own t :=
    fun i t ht => (h.held i t ht).move hmove
  have hqueue : ∀ t ∈ p.queue, p'.Own t := fun t ht => (h.queued t ht).move hmove
  -- the consumer `i` goes to the state `w`
  have hset : ∀ i w, (∀ t, w.task = some t → p'.Own t) →
      ∀ j t, (Function.update p.gpus i w j).task = some t → p'.Own t := by
    intro i w hw j t ht
    by_cases hj : j = i
    · rw [hj, Function.update_self] at ht
      exact hw t ht
    · rw [Function.update_of_ne hj] at ht
      exact hkept j t ht
  cases hmove with
  | take i t rest _ heq =>
      refine hset i (.generating t) (fun t' ht' => ?_)
      exact Option.some.inj ht' ▸ hqueue t (heq ▸ List.mem_cons_self)
  | generate i t _ _ ht =>
      exact hset i _ (fun t' ht' => hkept i t' (by rw [ht]; exact ht'))
  | answer i t => exact hset i .idle (fun t' ht' => by cases ht')
  | _ => exact hkept

theorem Inv.answering_move (h : p.Inv) (hmove : p.Move p') :
    ∀ i t result, p'.gpus i = .answering t result → p'.Ran t.done i result := by
  have hkept : ∀ i t result, p.gpus i = .answering t result → p'.Ran t.done i result :=
    fun i t result ht => (h.answering i t result ht).move hmove
  have hset : ∀ i w, (∀ t result, w = .answering t result → p'.Ran t.done i result) →
      ∀ j t result, Function.update p.gpus i w j = .answering t result →
        p'.Ran t.done j result := by
    intro i w hw j t result ht
    by_cases hj : j = i
    · rw [hj, Function.update_self] at ht
      exact hj ▸ hw t result ht
    · rw [Function.update_of_ne hj] at ht
      exact hkept j t result ht
  cases hmove with
  | take i t => exact hset i (.generating t) (fun _ _ hw => by cases hw)
  | generate i t response err ht =>
      refine hset i _ (fun t' result hw => ?_)
      obtain ⟨rfl, rfl⟩ := Consumer.answering.inj hw
      have hown : p.Own t := h.held i t (by rw [ht]; rfl)
      exact ⟨_, List.mem_append_right _ List.mem_cons_self, rfl, rfl, hown, rfl⟩
  | answer i t => exact hset i .idle (fun _ _ hw => by cases hw)
  | _ => exact hkept

/-! ## Accounts after a step -/

/-- An account is not touched by what happens to the tasks of other calls. -/
theorem Account.frame {k : ℕ} {c : Submission n} (h : p.Account k c) (hmove : p.Move p')
    (hqueue : p'.inQueue k = p.inQueue k) (hheld : ∀ i, p'.Holds i k ↔ p.Holds i k) :
    p'.Account k c where
  inQueue := hqueue.trans h.inQueue
  held := fun i => (hheld i).trans (h.held i)
  offered := h.offered
  taken := h.taken
  sent := h.sent.imp_right fun ⟨i, result, htaken, hsent, hran⟩ =>
    ⟨i, result, htaken, hsent, hran.move hmove⟩
  shown := h.shown

/-- Who holds the task of `k` when the consumer `i` has gone to the state `w`. -/
theorem holds_setGpu {i j : Fin n} {w : Consumer} {k : ℕ} :
    (p.setGpu i w).Holds j k ↔
      if j = i then ∃ t, w.task = some t ∧ t.done = k else p.Holds j k := by
  simp only [Holds, setGpu]
  split
  · next hj => rw [hj, Function.update_self]
  · next hj => rw [Function.update_of_ne hj]

theorem inQueue_pos_of_mem {t : Task} (h : t ∈ p.queue) : 0 < p.inQueue t.done :=
  List.count_pos_iff.2 (List.mem_map_of_mem h)

/-- A task in the queue is there once, and nobody has taken it. -/
theorem Account.of_mem_queue {t : Task} {c : Submission n} (h : p.Account t.done c)
    (ht : t ∈ p.queue) :
    c.queued = true ∧ c.takenBy = [] ∧ c.sent = [] ∧ p.inQueue t.done = 1 := by
  have hpos := inQueue_pos_of_mem ht
  have hcount := h.inQueue
  split at hcount
  · next hq =>
      refine ⟨hq.1, hq.2, ?_, hcount⟩
      rcases h.sent with hsent | ⟨i, result, htaken, -⟩
      · exact hsent
      · rw [hq.2] at htaken
        cases htaken
  · omega

theorem Account.submit {k : ℕ} {c : Submission n} (h : p.Inv) (prompt : String)
    (hc : (p.submit prompt).submissions[k]? = some c) : (p.submit prompt).Account k c := by
  rcases getElem?_concat_eq_or p.submissions ⟨prompt, none, .offering, none, [], []⟩ k with
    heq | ⟨hnone, heq⟩
  · exact (h.account k c (heq ▸ hc)).frame (.submit prompt) rfl (fun _ => Iff.rfl)
  · -- no task is on its way for a call that is not there yet
    have hfree : ∀ t : Task, p.Own t → t.done ≠ k := by
      intro t hown hk
      rw [Own, hk, hnone] at hown
      cases hown
    have hqueue : p.inQueue k = 0 := by
      refine List.count_eq_zero.2 (fun hmem => ?_)
      obtain ⟨t, ht, hk⟩ := List.mem_map.1 hmem
      exact hfree t (h.queued t ht) hk
    rw [← Option.some.inj (heq.symm.trans hc)]
    refine ⟨hqueue, fun i => ?_, fun _ => rfl, Or.inl rfl, Or.inl rfl, fun result hshow => ?_⟩
    · constructor
      · rintro ⟨t, ht, hk⟩
        exact absurd hk (hfree t (h.held i t ht))
      · rintro ⟨htaken, -⟩
        cases htaken
    · rcases hshow with hbuf | hphase
      · cases hbuf
      · cases hphase

/-- A step that changes the call `k` and the tasks of the call `k` only. -/
theorem account_set {k j : ℕ} {c c' d : Submission n} (h : p.Inv) (hmove : p.Move p')
    (hc : p.submissions[k]? = some c) (hset : p'.submissions = p.submissions.set k c')
    (hqueue : ∀ j, j ≠ k → p'.inQueue j = p.inQueue j)
    (hheld : ∀ j, j ≠ k → ∀ i, p'.Holds i j ↔ p.Holds i j) (hown : p'.Account k c')
    (hd : p'.submissions[j]? = some d) : p'.Account j d := by
  rw [hset, getElem?_set_of_some hc] at hd
  split at hd
  · next hj =>
      subst hj
      rw [← Option.some.inj hd]
      exact hown
  · next hj => exact (h.account j d hd).frame hmove (hqueue j hj) (hheld j hj)

theorem Account.caller {k : ℕ} {c c' : Submission n} (h : p.Account k c)
    (hqueued : c'.queued = c.queued) (htaken : c'.takenBy = c.takenBy) (hsent : c'.sent = c.sent)
    (hshow : ∀ result, c'.Shows result → c.Shows result)
    (hran : ∀ i result, p.Ran k i result → p'.Ran k i result)
    (hqueue : p'.inQueue k = p.inQueue k) (hheld : ∀ i, p'.Holds i k ↔ p.Holds i k) :
    p'.Account k c' := by
  refine ⟨?_, fun i => ?_, ?_, ?_, ?_, fun result hres => ?_⟩
  · rw [hqueue, h.inQueue, hqueued, htaken]
  · rw [hheld, h.held, htaken, hsent]
  · rw [hqueued, htaken]
    exact h.offered
  · rw [htaken]
    exact h.taken
  · rw [htaken, hsent]
    exact h.sent.imp_right fun ⟨i, result, ht, hs, hr⟩ => ⟨i, result, ht, hs, hran i result hr⟩
  · rw [hsent]
    exact h.shown result (hshow result hres)

theorem Account.enqueue {k : ℕ} {c : Submission n} (h : p.Account k c)
    (hphase : c.phase = .offering) (hqueue : p'.inQueue k = p.inQueue k + 1)
    (hheld : ∀ i, p'.Holds i k ↔ p.Holds i k) :
    p'.Account k { c with phase := .waiting } := by
  have hoffered : c.queued = false := by simp only [Submission.queued, hphase]
  have htaken := h.offered hoffered
  have hempty : p.inQueue k = 0 := by rw [h.inQueue, if_neg (fun hq => by simp [hoffered] at hq)]
  have hsent : c.sent = [] := by
    rcases h.sent with hsent | ⟨i, result, ht, -⟩
    · exact hsent
    · rw [htaken] at ht
      cases ht
  refine ⟨?_, fun i => (hheld i).trans (h.held i), fun _ => htaken, h.taken, Or.inl hsent,
    fun result hshow => h.shown result (Or.inl (hshow.resolve_right (fun hr => by cases hr)))⟩
  rw [hqueue, hempty, if_pos ⟨rfl, htaken⟩]

theorem Account.take {i : Fin n} {k : ℕ} {c : Submission n} (h : p.Account k c)
    (hqueued : c.queued = true) (htaken : c.takenBy = []) (hsent : c.sent = [])
    (hqueue : p'.inQueue k = 0) (hheld : ∀ j, p'.Holds j k ↔ j = i ∨ p.Holds j k) :
    p'.Account k { c with takenBy := c.takenBy ++ [i] } := by
  refine ⟨?_, fun j => ?_, fun hq => ?_, Or.inr ⟨i, by simp [htaken]⟩, Or.inl hsent, h.shown⟩
  · rw [hqueue, if_neg (fun hq => by simp at hq)]
  · rw [hheld, h.held, htaken]
    simp [hsent, eq_comm]
  · simp [Submission.queued] at hq hqueued
    simp [hqueued] at hq

theorem Account.answer {i : Fin n} {k : ℕ} {c : Submission n} {result : TaskResult}
    (h : p.Account k c) (htaken : c.takenBy = [i]) (hsent : c.sent = [])
    (hran : p'.Ran k i result) (hqueue : p'.inQueue k = p.inQueue k)
    (hheld : ∀ j, ¬ p'.Holds j k) :
    p'.Account k { c with buffer := some result, sent := c.sent ++ [result] } := by
  refine ⟨hqueue.trans h.inQueue, fun j => ?_, h.offered, h.taken,
    Or.inr ⟨i, result, htaken, by simp [hsent], hran⟩, fun result' hshow => ?_⟩
  · simp [hheld j]
  · rcases hshow with hbuf | hphase
    · exact List.mem_append_right _ (List.mem_singleton.2 (Option.some.inj hbuf).symm)
    · exact List.mem_append_left _ (h.shown result' (Or.inr hphase))

theorem Inv.account_take (h : p.Inv) {i : Fin n} {t : Task} {rest : List Task}
    (hidle : p.gpus i = .idle) (hqueue : p.queue = t :: rest) (hmove : p.Move p')
    (hp' : p' = { p.setGpu i (.generating t) with
      queue := rest
      submissions := p.submissions.modify t.done
        (fun c => { c with takenBy := c.takenBy ++ [i] }) }) :
    ∀ k c, p'.submissions[k]? = some c → p'.Account k c := by
  intro k d hd
  subst hp'
  have ht : t ∈ p.queue := by rw [hqueue]; exact List.mem_cons_self
  obtain ⟨c, hc, -⟩ := Option.map_eq_some_iff.1 (h.queued t ht)
  have hacc := h.account t.done c hc
  obtain ⟨hqueued, htaken, hsent, hcount⟩ := hacc.of_mem_queue ht
  have hrest : ∀ k, (rest.map Task.done).count k + (if t.done = k then 1 else 0) =
      p.inQueue k := by
    intro k
    rw [inQueue, hqueue, List.map_cons, List.count_cons]
    simp only [beq_iff_eq]
  -- the consumer, which held nothing, holds the task now
  have hheld : ∀ j k, (p.setGpu i (.generating t)).Holds j k ↔
      (j = i ∧ t.done = k) ∨ p.Holds j k := by
    intro j k
    rw [holds_setGpu]
    split
    · next hj => simp [hj, Holds, hidle, Consumer.task]
    · next hj => simp [hj]
  refine account_set h hmove hc (getElem?_modify_of_some hc _) (fun k hk => ?_)
    (fun k hk j => ?_) ?_ hd
  · show (rest.map Task.done).count k = p.inQueue k
    rw [← hrest k, if_neg (Ne.symm hk), Nat.add_zero]
  · exact (hheld j k).trans (or_iff_right (fun hj => hk hj.2.symm))
  · refine hacc.take hqueued htaken hsent ?_ (fun j => (hheld j t.done).trans (by simp))
    show (rest.map Task.done).count t.done = 0
    have hlast := hrest t.done
    rw [if_pos rfl, hcount] at hlast
    omega

theorem Inv.account_answer (h : p.Inv) {i : Fin n} {t : Task} {result : TaskResult}
    {c : Submission n} (ht : p.gpus i = .answering t result)
    (hc : p.submissions[t.done]? = some c) (hmove : p.Move p')
    (hp' : p' = { p.setGpu i .idle with
      submissions := p.submissions.set t.done
        { c with buffer := some result, sent := c.sent ++ [result] } }) :
    ∀ k c, p'.submissions[k]? = some c → p'.Account k c := by
  intro k d hd
  subst hp'
  have hacc := h.account t.done c hc
  obtain ⟨htaken, hsent⟩ := (hacc.held i).1 ⟨t, by rw [ht]; rfl, rfl⟩
  have hheld : ∀ j k, (p.setGpu i .idle).Holds j k ↔ j ≠ i ∧ p.Holds j k := by
    intro j k
    rw [holds_setGpu]
    split
    · next hj => simp [hj, Consumer.task]
    · next hj => simp [hj]
  refine account_set h hmove hc rfl (fun _ _ => rfl) (fun k hk j => ?_) ?_ hd
  · refine (hheld j k).trans (and_iff_right_of_imp ?_)
    rintro ⟨t', ht', hk'⟩ rfl
    rw [ht] at ht'
    exact hk (hk'.symm.trans (congrArg Task.done (Option.some.inj ht').symm))
  · refine hacc.answer htaken hsent ((h.answering i t result ht).move hmove) rfl (fun j hj => ?_)
    -- only `i` held the task, and it has let go of it
    obtain ⟨hne, hj⟩ := (hheld j t.done).1 hj
    have htaken' := ((hacc.held j).1 hj).1
    rw [htaken] at htaken'
    exact hne (List.cons.inj htaken').1.symm

theorem Inv.account_move (h : p.Inv) (hmove : p.Move p') :
    ∀ k c, p'.submissions[k]? = some c → p'.Account k c := by
  have hmove' := hmove
  cases hmove with
  | submit prompt => exact fun k c hc => Account.submit h prompt hc
  | caller k c c' hc _ hqueued htaken hsent hshow =>
      intro j d hd
      refine account_set h hmove' hc rfl (fun _ _ => rfl) (fun _ _ _ => Iff.rfl) ?_ hd
      exact (h.account k c hc).caller hqueued htaken hsent hshow
        (fun i result hran => hran.move hmove') rfl (fun _ => Iff.rfl)
  | enqueue k c hc hphase =>
      intro j d hd
      refine account_set h hmove' hc rfl (fun j hj => ?_) (fun _ _ _ => Iff.rfl) ?_ hd
      · simp [inQueue, task, List.count_append, Ne.symm hj]
      · refine (h.account k c hc).enqueue hphase ?_ (fun _ => Iff.rfl)
        simp [inQueue, task, List.count_append]
  | take i t rest hidle hqueue => exact h.account_take hidle hqueue hmove' rfl
  | generate i t response err ht =>
      intro j d hd
      refine (h.account j d hd).frame hmove' rfl (fun i' => holds_setGpu.trans ?_)
      split
      · next hi => simp [Holds, hi, ht, Consumer.task]
      · rfl
  | answer i t result c ht hc hbuf => exact h.account_answer ht hc hmove' rfl

theorem Inv.step (h : p.Inv) (hstep : p.step a = some p') : p'.Inv :=
  have hmove := step_move hstep
  ⟨h.account_move hmove, h.queued_move hmove, h.held_move hmove, h.answering_move hmove⟩

theorem inv_new (workerID : String) : (⟨workerID, [], [], fun _ => .idle, []⟩ : Pool n).Inv where
  account k c h := by cases h
  queued t ht := by cases ht
  held i t ht := by cases ht
  answering i t result ht := by cases ht

theorem inv_exec {workerID : String} {gpuCount : ℤ} {as : List (Action (gpuConsumers gpuCount))}
    {p : Pool (gpuConsumers gpuCount)}
    (hrun : exec Pool.step (newPool workerID gpuCount) as = some p) : p.Inv :=
  invariant_exec (P := fun _ _ => True) (I := Inv) (fun _ _ _ hI _ hstep => hI.step hstep)
    as _ p (inv_new workerID) (along_of_forall (fun _ _ => trivial) as _) hrun

/-! ## The consumers -/

/-- The channel of a task that is held is empty. -/
theorem Inv.room (h : p.Inv) {i : Fin n} {t : Task} (ht : (p.gpus i).task = some t) :
    ∃ c, p.submissions[t.done]? = some c ∧ c.buffer = none := by
  obtain ⟨c, hc, -⟩ := Option.map_eq_some_iff.1 (h.held i t ht)
  have hacc := h.account t.done c hc
  have hsent := ((hacc.held i).1 ⟨t, ht, rfl⟩).2
  refine ⟨c, hc, ?_⟩
  cases hbuf : c.buffer with
  | none => rfl
  | some result =>
      have hmem := hacc.shown result (Or.inl hbuf)
      rw [hsent] at hmem
      cases hmem

theorem Inv.answer_isSome (h : p.Inv) {i : Fin n} {t : Task} {result : TaskResult}
    (ht : p.gpus i = .answering t result) : (p.step (.answer i)).isSome = true := by
  obtain ⟨c, hc, hbuf⟩ := h.room (t := t) (by rw [ht]; rfl)
  simp [Pool.step, answer, ht, hc, hbuf]

/-- How many steps of `gpuLoop` it takes to answer all tasks that are in the queue or held. -/
def work (p : Pool n) : ℕ := 3 * p.queue.length + ∑ i, (p.gpus i).load

theorem sum_load_setGpu (p : Pool n) (i : Fin n) (w : Consumer) :
    ∑ j, ((p.setGpu i w).gpus j).load + (p.gpus i).load = ∑ j, (p.gpus j).load + w.load := by
  have hothers : ∑ j ∈ Finset.univ.erase i, ((p.setGpu i w).gpus j).load =
      ∑ j ∈ Finset.univ.erase i, (p.gpus j).load := by
    refine Finset.sum_congr rfl (fun j hj => ?_)
    show (Function.update p.gpus i w j).load = _
    rw [Function.update_of_ne (Finset.ne_of_mem_erase hj)]
  have hself : (p.setGpu i w).gpus i = w := Function.update_self _ _ _
  rw [← Finset.add_sum_erase _ _ (Finset.mem_univ i), hself, hothers,
    ← Finset.add_sum_erase _ (fun j => (p.gpus j).load) (Finset.mem_univ i)]
  omega

theorem work_step (hgpu : a.ofGpu = true) (hstep : p.step a = some p') :
    p'.work + 1 = p.work := by
  cases a with
  | take i =>
      simp only [step, take] at hstep
      split at hstep
      · next t rest hidle hqueue =>
          have hsum : ∑ j, ((p.setGpu i (.generating t)).gpus j).load + 0 =
              ∑ j, (p.gpus j).load + 2 := by
            have hmove := p.sum_load_setGpu i (.generating t)
            rwa [hidle] at hmove
          rw [← Option.some.inj hstep]
          simp only [work, hqueue, List.length_cons]
          omega
      · cases hstep
  | generate i response err =>
      simp only [step, generate] at hstep
      split at hstep
      · next t ht =>
          have hsum :
              ∑ j, ((p.setGpu i (.answering t ⟨p.finish i response, err⟩)).gpus j).load + 2 =
                ∑ j, (p.gpus j).load + 1 := by
            have hmove := p.sum_load_setGpu i (.answering t ⟨p.finish i response, err⟩)
            rwa [ht] at hmove
          rw [← Option.some.inj hstep]
          show 3 * p.queue.length + ∑ j, ((p.setGpu i _).gpus j).load + 1 = p.work
          simp only [work]
          omega
      · cases hstep
  | answer i =>
      simp only [step, answer] at hstep
      split at hstep
      · next t result ht =>
          split at hstep
          · next c hc =>
              split at hstep
              · cases hstep
              · have hsum : ∑ j, ((p.setGpu i .idle).gpus j).load + 1 =
                    ∑ j, (p.gpus j).load + 0 := by
                  have hmove := p.sum_load_setGpu i .idle
                  rwa [ht] at hmove
                rw [← Option.some.inj hstep]
                show 3 * p.queue.length + ∑ j, ((p.setGpu i _).gpus j).load + 1 = p.work
                simp only [work]
                omega
          · cases hstep
      · cases hstep
  | _ => cases hgpu

/-- Consumers that run on their own come to an end. -/
theorem work_exec {bs : List (Action n)} (hgpu : ∀ b ∈ bs, b.ofGpu = true)
    (hrun : exec Pool.step p bs = some p') : bs.length + p'.work = p.work := by
  induction bs using List.reverseRecOn generalizing p' with
  | nil =>
      rw [← Option.some.inj hrun]
      exact Nat.zero_add _
  | append_singleton bs b ih =>
      obtain ⟨q, hq, hlast⟩ := exec_concat hrun
      have hwork := ih (fun b hb => hgpu b (List.mem_append_left _ hb)) hq
      have hstep := work_step (hgpu b (List.mem_append_right _ List.mem_cons_self)) hlast
      rw [List.length_append, List.length_singleton]
      omega

/-- Where the consumers cannot go on, there is nothing left to do. -/
theorem Inv.stuck (h : p.Inv) (hpos : 0 < n)
    (hstuck : ∀ b : Action n, b.ofGpu = true → p.step b = none) :
    p.queue = [] ∧ ∀ i, p.gpus i = .idle := by
  have hidle : ∀ i, p.gpus i = .idle := by
    intro i
    cases hi : p.gpus i with
    | idle => rfl
    | generating t =>
        have hnone := hstuck (.generate i ⟨"", "", 0⟩ none) rfl
        simp [Pool.step, generate, hi] at hnone
    | answering t result =>
        have hsome := h.answer_isSome hi
        rw [hstuck (.answer i) rfl] at hsome
        cases hsome
  refine ⟨?_, hidle⟩
  cases hqueue : p.queue with
  | nil => rfl
  | cons t rest =>
      have hnone := hstuck (.take ⟨0, hpos⟩) rfl
      simp [Pool.step, take, hidle, hqueue] at hnone

/-! ## Tasks -/

/-- Where the task of a call is, with the history that belongs to it. -/
inductive Located (p : Pool n) (k : ℕ) (c : Submission n) : Prop
  | waiting : p.inQueue k = 1 → (∀ j, ¬ p.Holds j k) → c.takenBy = [] → c.sent = [] → Located p k c
  | running (i : Fin n) : p.inQueue k = 0 → (∀ j, p.Holds j k ↔ j = i) → c.takenBy = [i] →
      c.sent = [] → Located p k c
  | answered (i : Fin n) (result : TaskResult) : p.inQueue k = 0 → (∀ j, ¬ p.Holds j k) →
      c.takenBy = [i] → c.sent = [result] → p.Ran k i result → Located p k c

theorem Account.located {k : ℕ} {c : Submission n} (h : p.Account k c) (hqueued : c.queued = true) :
    p.Located k c := by
  rcases h.taken with htaken | ⟨i, htaken⟩
  · have hsent : c.sent = [] := by
      rcases h.sent with hsent | ⟨i, result, ht, -⟩
      · exact hsent
      · rw [htaken] at ht
        cases ht
    refine .waiting ?_ (fun j hj => ?_) htaken hsent
    · rw [h.inQueue, if_pos ⟨hqueued, htaken⟩]
    · have ht := ((h.held j).1 hj).1
      rw [htaken] at ht
      cases ht
  · have hqueue : p.inQueue k = 0 := by
      rw [h.inQueue, if_neg (fun hq => by simp [htaken] at hq)]
    rcases h.sent with hsent | ⟨i', result, ht, hsent, hran⟩
    · refine .running i hqueue (fun j => (h.held j).trans ?_) htaken hsent
      simp [htaken, hsent, eq_comm]
    · refine .answered i' result hqueue (fun j hj => ?_) ht hsent hran
      have hnil := ((h.held j).1 hj).2
      rw [hsent] at hnil
      cases hnil

end Pool

open Pool

theorem gpuConsumers_pos (gpuCount : ℤ) : 0 < gpuConsumers gpuCount := by
  unfold gpuConsumers
  split <;> omega

/-- **Each task is run once, and its result goes to its own caller.** At each moment of each run,
    with any number of consumers: a task that has been put into the queue is there once, or it is
    held by the one consumer that has taken it, or this consumer has written one result for it. The
    write never waits. A `Submit` that returns through its channel returns what the backend made of
    its own prompt, with the number of the consumer that ran it. And consumers that run on their own
    stop only when every task has its result, which is after a bounded number of steps. -/
theorem tasks_run_once {workerID : String} {gpuCount : ℤ}
    {as : List (Action (gpuConsumers gpuCount))} {p : Pool (gpuConsumers gpuCount)}
    (hrun : exec Pool.step (newPool workerID gpuCount) as = some p) :
    (∀ (k : ℕ) (c : Submission _), p.submissions[k]? = some c → c.queued = true →
      p.Located k c) ∧
    (∀ i t result, p.gpus i = .answering t result → (p.step (.answer i)).isSome = true) ∧
    (∀ (k : ℕ) (c : Submission _) (result : TaskResult), p.submissions[k]? = some c →
      c.phase = .returned result → c.phase.result = some (result.response, result.err) ∧
        ∃ i, c.takenBy = [i] ∧ c.sent = [result] ∧ p.Ran k i result ∧
          result.response.gpuID = i.val) ∧
    (∀ bs p', (∀ b ∈ bs, b.ofGpu = true) → exec Pool.step p bs = some p' →
      bs.length ≤ p.work ∧ ((∀ b, b.ofGpu = true → p'.step b = none) →
        ∀ (k : ℕ) (c : Submission _), p'.submissions[k]? = some c → c.queued = true →
          ∃ i result, c.takenBy = [i] ∧ c.sent = [result] ∧ p'.Ran k i result)) := by
  have hinv := inv_exec hrun
  refine ⟨fun k c hc hqueued => (hinv.account k c hc).located hqueued,
    fun i t result => hinv.answer_isSome, fun k c result hc hphase => ?_,
    fun bs p' hgpu hbs => ⟨(work_exec hgpu hbs).le.trans' (Nat.le_add_right _ _),
      fun hstuck k c hc hqueued => ?_⟩⟩
  · have hacc := hinv.account k c hc
    have hmem := hacc.shown result (Or.inr hphase)
    rcases hacc.sent with hsent | ⟨i, result', htaken, hsent, hran⟩
    · rw [hsent] at hmem
      cases hmem
    · rw [hsent] at hmem
      obtain rfl := List.mem_singleton.1 hmem
      refine ⟨by rw [hphase]; rfl, i, htaken, hsent, hran, ?_⟩
      obtain ⟨g, -, -, -, -, heq⟩ := hran
      rw [heq]
      rfl
  · have hboth : exec Pool.step (newPool workerID gpuCount) (as ++ bs) = some p' := by
      rw [exec_append, hrun]
      exact hbs
    have hinv' := inv_exec hboth
    obtain ⟨hqueue, hidle⟩ := hinv'.stuck (gpuConsumers_pos gpuCount) hstuck
    cases (hinv'.account k c hc).located hqueued with
    | waiting hone =>
        rw [inQueue, hqueue] at hone
        cases hone
    | running i _ hheld =>
        obtain ⟨t, ht, -⟩ := (hheld i).2 rfl
        rw [hidle i] at ht
        cases ht
    | answered i result _ _ htaken hsent hran => exact ⟨i, result, htaken, hsent, hran⟩

/-- A `Submit` that gives up while a consumer runs its task. -/
def giveUpRun : List (Action (gpuConsumers 2)) :=
  [.submit "hello", .enqueue 0, .take ⟨1, by decide⟩, .cancel 0 "context canceled", .abort 0,
    .generate ⟨1, by decide⟩ ⟨"hi", "", 0⟩ none, .answer ⟨1, by decide⟩]

theorem tasks_run_once_giveUp : ∃ p, exec Pool.step (newPool "w" 2) giveUpRun = some p ∧
    ∃ c, p.submissions[0]? = some c ∧ p.Located 0 c := by
  have hrun : ((exec Pool.step (newPool "w" 2) giveUpRun).bind (fun p => p.submissions[0]?)).map
      Submission.queued = some true := by decide
  obtain ⟨c, hc, hqueued⟩ := Option.map_eq_some_iff.1 hrun
  obtain ⟨p, hp, hget⟩ := Option.bind_eq_some_iff.1 hc
  exact ⟨p, hp, c, hget, (tasks_run_once hp).1 0 c hget hqueued⟩

end Worker

end AiFS
