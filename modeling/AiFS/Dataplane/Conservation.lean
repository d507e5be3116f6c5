import AiFS.Dataplane.Gateway

set_option autoImplicit false

/-! # Every job is answered once

The jobs of the pipeline are counted as tokens, a channel with a prompt: `held` are the tokens in
the two queues and with the two pools. A step adds the token of a job that is accepted, removes the
token of a job whose result is written, or moves tokens from one place to the next (`Flow`). So a
job that has been accepted has one token or one result, never both and never two. -/

namespace AiFS

namespace Dataplane

open Machine Controlplane Pool

variable {n m : ℕ} {υ : Type} {g g' : Gateway n m υ} {a : Action n m υ}

/-! ## Tokens -/

/-- A job on its way: the channel for its result, and its prompt. -/
abbrev Token := ℕ × String

def ClientJob.token (job : ClientJob) : Token := (job.resultCh, job.prompt)

def DispatchJob.token (job : DispatchJob υ) : Token := (job.resultCh, job.prompt)

def ConnWorker.token (w : ConnWorker υ) : Option Token := w.job.map ClientJob.token

def DispatchWorker.token (w : DispatchWorker υ) : Option Token := w.job.map DispatchJob.token

/-- The result `res` is in the channel of the call, or the user has got it. -/
def Call.Shows (c : Call) (res : JobResult) : Prop :=
  c.buffer = some res ∨ c.phase = .responded res

theorem ConnWorker.any_token (w : ConnWorker υ) (k : ℕ) :
    w.token.any (fun t => t.1 = k) = w.job.any (fun job => job.resultCh = k) := by
  cases w <;> rfl

theorem DispatchWorker.any_token (w : DispatchWorker υ) (k : ℕ) :
    w.token.any (fun t => t.1 = k) = w.job.any (fun job => job.resultCh = k) := by
  cases w <;> rfl

namespace Gateway

def held (g : Gateway n m υ) : Multiset Token :=
  (g.connJobs.map ClientJob.token : List Token) + Pool.contents ConnWorker.token g.conn +
    ((g.dispatchJobs.map DispatchJob.token : List Token) +
      Pool.contents DispatchWorker.token g.dispatch)

def accepted (g : Gateway n m υ) (k : ℕ) : Bool := g.calls[k]?.any Call.accepted

def promptOf (g : Gateway n m υ) (k : ℕ) : Option String := g.calls[k]?.map Call.prompt

/-- `forwardToWorker` was called for the job `k`, with the prompt of the job, and returned
    `resp`. -/
def Obtained (g : Gateway n m υ) (k : ℕ) (resp : ChatResponse) : Prop :=
  ∃ f ∈ g.forwards, f.resultCh = k ∧ g.promptOf k = some f.prompt ∧
    forwardToWorker f.worker f.reply = .ok resp

/-- The places of a job are its tokens and its results. -/
theorem length_places (g : Gateway n m υ) (k : ℕ) :
    (g.places k).length = g.held.countP (fun t => t.1 = k) + (g.sent k).length := by
  have hconn := Pool.length_holders ConnWorker.token (fun t => t.1 = k) g.conn
  have hdispatch := Pool.length_holders DispatchWorker.token (fun t => t.1 = k) g.dispatch
  have hqueue : ((g.connJobs.map ClientJob.token : List Token) : Multiset Token).countP
      (fun t => t.1 = k) = (g.connJobs.filter (fun job => job.resultCh = k)).length := by
    rw [Multiset.coe_countP, List.countP_map, List.countP_eq_length_filter]
    rfl
  have hdqueue : ((g.dispatchJobs.map DispatchJob.token : List Token) : Multiset Token).countP
      (fun t => t.1 = k) = (g.dispatchJobs.filter (fun job => job.resultCh = k)).length := by
    rw [Multiset.coe_countP, List.countP_map, List.countP_eq_length_filter]
    rfl
  simp only [ConnWorker.any_token, DispatchWorker.any_token] at hconn hdispatch
  simp only [places, held, List.length_append, List.length_map, Multiset.countP_add, hqueue,
    hdqueue, ← hconn, ← hdispatch]
  omega

theorem held_setConn {i : Fin n} {w : ConnWorker υ} (h : w.token = (g.conn i).token) :
    (g.setConn i w).held = g.held := by
  simp only [held, setConn, Pool.contents_update_of_eq h]

theorem held_setDispatch {j : Fin m} {w : DispatchWorker υ}
    (h : w.token = (g.dispatch j).token) : (g.setDispatch j w).held = g.held := by
  simp only [held, setDispatch, Pool.contents_update_of_eq h]

/-- A worker that lets go of its job. -/
theorem held_setConn_idle {i : Fin n} {t : Token} (h : (g.conn i).token = some t) :
    (g.setConn i .idle).held + {t} = g.held := by
  have hmove := Pool.contents_update_of_none (a := ConnWorker.idle) h rfl
  simp only [held, setConn, ← hmove]
  abel

theorem held_setDispatch_idle {j : Fin m} {t : Token} (h : (g.dispatch j).token = some t) :
    (g.setDispatch j .idle).held + {t} = g.held := by
  have hmove := Pool.contents_update_of_none (a := DispatchWorker.idle) h rfl
  simp only [held, setDispatch, ← hmove]
  abel

theorem held_enqueue {job : ClientJob} :
    ({ g with connJobs := g.connJobs ++ [job] } : Gateway n m υ).held = g.held + {job.token} := by
  simp only [held, List.map_append, List.map_cons, List.map_nil, ← Multiset.coe_add,
    Multiset.coe_singleton]
  abel

theorem held_dispatchEnqueue {job : DispatchJob υ} :
    ({ g with dispatchJobs := g.dispatchJobs ++ [job] } : Gateway n m υ).held =
      g.held + {job.token} := by
  simp only [held, List.map_append, List.map_cons, List.map_nil, ← Multiset.coe_add,
    Multiset.coe_singleton]
  abel

theorem held_connTake {i : Fin n} {job : ClientJob} {rest : List ClientJob}
    (hidle : (g.conn i).token = none) (hjobs : g.connJobs = job :: rest) :
    ({ g.setConn i (.picking job) with connJobs := rest } : Gateway n m υ).held = g.held := by
  have hmove := Pool.contents_update_of_some (a := ConnWorker.picking job) hidle rfl
  simp only [held, setConn, hmove, hjobs, List.map_cons, ← Multiset.cons_coe,
    ← Multiset.singleton_add]
  abel

theorem held_dispatchTake {j : Fin m} {job : DispatchJob υ} {rest : List (DispatchJob υ)}
    (hidle : (g.dispatch j).token = none) (hjobs : g.dispatchJobs = job :: rest) :
    ({ g.setDispatch j (.forwarding job) with dispatchJobs := rest } : Gateway n m υ).held =
      g.held := by
  have hmove := Pool.contents_update_of_some (a := DispatchWorker.forwarding job) hidle rfl
  simp only [held, setDispatch, hmove, hjobs, List.map_cons, ← Multiset.cons_coe,
    ← Multiset.singleton_add]
  abel

/-! ## Steps -/

/-- The steps, without the conditions that only decide when they are taken. `user` is a step of
    `HandleChat` that leaves the pipeline alone, `connKeep` one of a `connWorker` with its job. -/
inductive Move (g : Gateway n m υ) : Gateway n m υ → Prop
  | refuse : Move g g
  | arrive (prompt : String) :
      Move g { g with calls := g.calls ++ [⟨prompt, .offering, none, []⟩] }
  | enqueue (k : ℕ) (c : Call) : g.calls[k]? = some c → c.accepted = false →
      Move g { g with
        calls := g.calls.set k { c with phase := .waiting }
        connJobs := g.connJobs ++ [⟨c.prompt, k⟩] }
  | user (k : ℕ) (c c' : Call) : g.calls[k]? = some c → c'.prompt = c.prompt →
      c'.accepted = c.accepted → c'.sent = c.sent → (∀ res, c'.Shows res → c.Shows res) →
      Move g { g with calls := g.calls.set k c' }
  | connTake (i : Fin n) (job : ClientJob) (rest : List ClientJob) :
      g.conn i = .idle → g.connJobs = job :: rest →
      Move g { g.setConn i (.picking job) with connJobs := rest }
  | connKeep (i : Fin n) (w : ConnWorker υ) : w.token = (g.conn i).token →
      (∀ job resp, w ≠ .answering job (.ok resp)) → Move g (g.setConn i w)
  | connOffer (i : Fin n) (job : ClientJob) (winfo : WorkerInfo υ) :
      g.conn i = .offering job winfo →
      Move g { g.setConn i .idle with
        dispatchJobs := g.dispatchJobs ++ [⟨job.prompt, winfo, job.resultCh⟩] }
  | connAnswer (i : Fin n) (job : ClientJob) (res : JobResult) (c : Call) :
      g.conn i = .answering job res → g.calls[job.resultCh]? = some c → c.buffer = none →
      Move g { g.setConn i .idle with
        calls := g.calls.set job.resultCh { c with buffer := some res, sent := c.sent ++ [res] } }
  | dispatchTake (j : Fin m) (job : DispatchJob υ) (rest : List (DispatchJob υ)) :
      g.dispatch j = .idle → g.dispatchJobs = job :: rest →
      Move g { g.setDispatch j (.forwarding job) with dispatchJobs := rest }
  | dispatchForward (j : Fin m) (job : DispatchJob υ) (reply : HTTPResult ChatResponse) :
      g.dispatch j = .forwarding job →
      Move g { g.setDispatch j (.answering job (forwardToWorker job.worker reply)) with
        forwards := g.forwards ++ [⟨job.resultCh, job.worker, job.prompt, reply⟩] }
  | dispatchAnswer (j : Fin m) (job : DispatchJob υ) (res : JobResult) (c : Call) :
      g.dispatch j = .answering job res → g.calls[job.resultCh]? = some c → c.buffer = none →
      Move g { g.setDispatch j .idle with
        calls := g.calls.set job.resultCh { c with buffer := some res, sent := c.sent ++ [res] } }

/-- A write that does not wait has found the buffer empty, and touches nothing but its call. -/
theorem write_eq_some {k : ℕ} {res : JobResult} (h : g.write k res = some g') :
    ∃ c, g.calls[k]? = some c ∧ c.buffer = none ∧ g' = { g with
      calls := g.calls.set k { c with buffer := some res, sent := c.sent ++ [res] } } := by
  unfold write at h
  split at h
  · cases h
  · next c hc =>
      split at h
      · cases h
      · next hbuf =>
          exact ⟨c, hc, Option.not_isSome_iff_eq_none.1 hbuf, (Option.some.inj h).symm⟩

theorem step_move (hstep : g.step a = some g') : g.Move g' := by
  cases a with
  | handleChat post body =>
      rw [← Option.some.inj hstep]
      unfold handleChat
      split
      · exact .refuse
      · exact .arrive _
  | enqueue k =>
      simp only [step, enqueue] at hstep
      split at hstep
      · next prompt buffer sent hc =>
          split at hstep
          · exact Option.some.inj hstep ▸ .enqueue k _ hc rfl
          · cases hstep
      · cases hstep
  | overload k =>
      simp only [step, overload] at hstep
      split at hstep
      · next prompt buffer sent hc =>
          rw [← Option.some.inj hstep]
          refine .user k _ ⟨prompt, .overloaded, buffer, sent⟩ hc rfl rfl rfl (fun res hres => ?_)
          exact Or.inl (hres.resolve_right (fun h => by cases h))
      · cases hstep
  | receive k =>
      simp only [step, receive] at hstep
      split at hstep
      · next prompt res sent hc =>
          rw [← Option.some.inj hstep]
          refine .user k _ ⟨prompt, .responded res, none, sent⟩ hc rfl rfl rfl (fun res' hres => ?_)
          rcases hres with hbuf | hphase
          · cases hbuf
          · exact Or.inl (congrArg some (Phase.responded.inj hphase))
      · cases hstep
  | connTake i =>
      simp only [step, connTake] at hstep
      split at hstep
      · next job rest hidle hjobs => exact Option.some.inj hstep ▸ .connTake i job rest hidle hjobs
      · cases hstep
  | connPick i reply =>
      simp only [step, connPick] at hstep
      split at hstep
      · next job hjob =>
          split at hstep
          · rw [← Option.some.inj hstep]
            exact .connKeep i _ (by rw [hjob]; rfl) (fun _ _ h => by cases h)
          · rw [← Option.some.inj hstep]
            exact .connKeep i _ (by rw [hjob]; rfl) (fun _ _ h => by cases h)
      · cases hstep
  | connOffer i =>
      simp only [step, connOffer] at hstep
      split at hstep
      · next job winfo hjob =>
          split at hstep
          · exact Option.some.inj hstep ▸ .connOffer i job winfo hjob
          · cases hstep
      · cases hstep
  | connTimeout i =>
      simp only [step, connTimeout] at hstep
      split at hstep
      · next job winfo hjob =>
          rw [← Option.some.inj hstep]
          exact .connKeep i _ (by rw [hjob]; rfl) (fun _ _ h => by cases h)
      · cases hstep
  | connAnswer i =>
      simp only [step, connAnswer] at hstep
      split at hstep
      · next job res hjob =>
          obtain ⟨g₁, hwrite, rfl⟩ := Option.map_eq_some_iff.1 hstep
          obtain ⟨c, hc, hbuf, rfl⟩ := write_eq_some hwrite
          exact .connAnswer i job res c hjob hc hbuf
      · cases hstep
  | dispatchTake j =>
      simp only [step, dispatchTake] at hstep
      split at hstep
      · next job rest hidle hjobs =>
          exact Option.some.inj hstep ▸ .dispatchTake j job rest hidle hjobs
      · cases hstep
  | dispatchForward j reply =>
      simp only [step, dispatchForward] at hstep
      split at hstep
      · next job hjob => exact Option.some.inj hstep ▸ .dispatchForward j job reply hjob
      · cases hstep
  | dispatchAnswer j =>
      simp only [step, dispatchAnswer] at hstep
      split at hstep
      · next job res hjob =>
          obtain ⟨g₁, hwrite, rfl⟩ := Option.map_eq_some_iff.1 hstep
          obtain ⟨c, hc, hbuf, rfl⟩ := write_eq_some hwrite
          exact .dispatchAnswer j job res c hjob hc hbuf
      · cases hstep

/-! ## What a step does to the tokens -/

/-- The result of the job `t` is about to be written. -/
inductive Answers (g : Gateway n m υ) : Token → JobResult → Prop
  | conn (i : Fin n) (job : ClientJob) (res : JobResult) :
      g.conn i = .answering job res → Answers g job.token res
  | dispatch (j : Fin m) (job : DispatchJob υ) (res : JobResult) :
      g.dispatch j = .answering job res → Answers g job.token res

/-- What a step does to the calls and to the tokens. -/
inductive Flow (g g' : Gateway n m υ) : Prop
  | arrive (prompt : String) : g'.calls = g.calls ++ [⟨prompt, .offering, none, []⟩] →
      g'.held = g.held → Flow g g'
  | accept (k : ℕ) (c : Call) : g.calls[k]? = some c → c.accepted = false →
      g'.calls = g.calls.set k { c with phase := .waiting } →
      g'.held = g.held + {(k, c.prompt)} → Flow g g'
  | user (k : ℕ) (c c' : Call) : g.calls[k]? = some c → c'.prompt = c.prompt →
      c'.accepted = c.accepted → c'.sent = c.sent → (∀ res, c'.Shows res → c.Shows res) →
      g'.calls = g.calls.set k c' → g'.held = g.held → Flow g g'
  | inside : g'.calls = g.calls → g'.held = g.held → Flow g g'
  | answer (t : Token) (c : Call) (res : JobResult) : g.calls[t.1]? = some c → c.buffer = none →
      g'.calls = g.calls.set t.1 { c with buffer := some res, sent := c.sent ++ [res] } →
      g.held = g'.held + {t} → g.Answers t res → Flow g g'

theorem Move.flow (h : g.Move g') : Flow g g' := by
  cases h with
  | refuse => exact .inside rfl rfl
  | arrive prompt => exact .arrive prompt rfl rfl
  | enqueue k c hc hacc => exact .accept k c hc hacc rfl held_enqueue
  | user k c c' hc hprompt hacc hsent hbuf =>
      exact .user k c c' hc hprompt hacc hsent hbuf rfl rfl
  | connTake i job rest hidle hjobs =>
      exact .inside rfl (held_connTake (by rw [hidle]; rfl) hjobs)
  | connKeep i w htoken _ => exact .inside rfl (held_setConn htoken)
  | connOffer i job winfo hjob =>
      -- out of the hands of the worker and into the queue
      have hidle : (g.setConn i .idle).held + {job.token} = g.held :=
        held_setConn_idle (by rw [hjob]; rfl)
      refine .inside rfl ?_
      rw [← hidle]
      exact held_dispatchEnqueue
  | connAnswer i job res c hjob hc hbuf =>
      exact .answer job.token c res hc hbuf rfl (held_setConn_idle (by rw [hjob]; rfl)).symm
        (.conn i job res hjob)
  | dispatchTake j job rest hidle hjobs =>
      exact .inside rfl (held_dispatchTake (by rw [hidle]; rfl) hjobs)
  | dispatchForward j job reply hjob =>
      have hkeep : (g.setDispatch j (.answering job (forwardToWorker job.worker reply))).held =
          g.held := held_setDispatch (by rw [hjob]; rfl)
      exact .inside rfl hkeep
  | dispatchAnswer j job res c hjob hc hbuf =>
      exact .answer job.token c res hc hbuf rfl (held_setDispatch_idle (by rw [hjob]; rfl)).symm
        (.dispatch j job res hjob)

/-! ## The calls after a step -/

theorem countP_add_singleton (s : Multiset Token) (t : Token) (k : ℕ) :
    (s + {t}).countP (fun t => t.1 = k) =
      s.countP (fun t => t.1 = k) + if t.1 = k then 1 else 0 := by
  rw [add_comm, Multiset.singleton_add, Multiset.countP_cons]

/-- The prompt of a call does not change. -/
theorem Flow.promptOf (hflow : Flow g g') {k : ℕ} {prompt : String}
    (h : g.promptOf k = some prompt) : g'.promptOf k = some prompt := by
  -- a call that is replaced keeps its prompt
  have hset : ∀ (j : ℕ) (c c' : Call), g.calls[j]? = some c → g'.calls = g.calls.set j c' →
      c'.prompt = c.prompt → g'.promptOf k = some prompt := by
    intro j c c' hc hcalls hprompt
    unfold Gateway.promptOf at h ⊢
    rw [hcalls, getElem?_set_of_some hc]
    by_cases hk : k = j
    · subst hk
      rw [hc] at h
      rw [if_pos rfl, Option.map_some, hprompt]
      exact h
    · rw [if_neg hk]
      exact h
  cases hflow with
  | arrive new hcalls _ =>
      unfold Gateway.promptOf at h ⊢
      rw [hcalls]
      rcases getElem?_concat_eq_or g.calls ⟨new, .offering, none, []⟩ k with heq | ⟨hnone, -⟩
      · rw [heq]
        exact h
      · rw [hnone] at h
        cases h
  | accept j c hc _ hcalls _ => exact hset j c _ hc hcalls rfl
  | user j c c' hc hprompt _ _ _ hcalls _ => exact hset j c c' hc hcalls hprompt
  | inside hcalls _ =>
      unfold Gateway.promptOf at h ⊢
      rw [hcalls]
      exact h
  | answer t c _ hc _ hcalls _ _ => exact hset t.1 c _ hc hcalls rfl

/-- A job that is accepted has one token or one result; any other has neither. -/
def Once (g : Gateway n m υ) : Prop :=
  ∀ k, g.held.countP (fun t => t.1 = k) + (g.sent k).length = (g.accepted k).toNat

theorem Once.flow (h : g.Once) (hflow : Flow g g') : g'.Once := by
  intro k
  have hk := h k
  unfold sent accepted at hk ⊢
  cases hflow with
  | arrive new hcalls hheld =>
      rw [hcalls, hheld]
      rcases getElem?_concat_eq_or g.calls ⟨new, .offering, none, []⟩ k with heq | ⟨hnone, heq⟩
      · rw [heq]
        exact hk
      · rw [hnone] at hk
        rw [heq]
        exact hk
  | accept j c hc hacc hcalls hheld =>
      rw [hcalls, hheld, getElem?_set_of_some hc, countP_add_singleton]
      by_cases hkj : k = j
      · -- the job enters the pipeline: nothing was in its name before
        subst hkj
        simp only [hc, Option.elim_some, Option.any_some, hacc, Bool.toNat_false] at hk
        simp only [if_true, Option.elim_some, Option.any_some, Call.accepted, Bool.toNat_true]
        omega
      · rw [if_neg hkj, if_neg (Ne.symm hkj)]
        exact hk
  | user j c c' hc _ hacc hsent _ hcalls hheld =>
      rw [hcalls, hheld, getElem?_set_of_some hc]
      by_cases hkj : k = j
      · subst hkj
        simp only [hc, Option.elim_some, Option.any_some] at hk
        simp only [if_true, Option.elim_some, Option.any_some, hacc, hsent]
        exact hk
      · rw [if_neg hkj]
        exact hk
  | inside hcalls hheld =>
      rw [hcalls, hheld]
      exact hk
  | answer t c res hc _ hcalls hheld _ =>
      rw [hheld, countP_add_singleton] at hk
      rw [hcalls, getElem?_set_of_some hc]
      by_cases hkt : k = t.1
      · -- the token of the job becomes its result
        subst hkt
        simp only [hc, Option.elim_some, Option.any_some, if_true] at hk
        simp only [if_true, Option.elim_some, Option.any_some, List.length_append,
          List.length_singleton]
        have hacc : Call.accepted { c with buffer := some res, sent := c.sent ++ [res] } =
            c.accepted := rfl
        rw [hacc]
        omega
      · rw [if_neg hkt]
        rw [if_neg (Ne.symm hkt)] at hk
        exact hk

/-! ## Responses -/

/-- What is known of the results to come: those of a `connWorker` are errors, and a response that a
    `dispatchWorker` is about to write has been obtained. -/
structure Earned (g : Gateway n m υ) : Prop where
  conn : ∀ i job resp, g.conn i ≠ .answering job (.ok resp)
  dispatch : ∀ j job resp, g.dispatch j = .answering job (.ok resp) →
    g.Obtained job.resultCh resp

theorem Earned.answers {t : Token} {resp : ChatResponse} (h : g.Earned)
    (ht : g.Answers t (.ok resp)) : g.Obtained t.1 resp := by
  cases ht with
  | conn i job _ hjob => exact absurd hjob (h.conn i job resp)
  | dispatch j job _ hjob => exact h.dispatch j job resp hjob

theorem Move.forwards (h : g.Move g') : ∀ f ∈ g.forwards, f ∈ g'.forwards := by
  intro f hf
  cases h with
  | dispatchForward => exact List.mem_append_left _ hf
  | _ => exact hf

theorem Obtained.move {k : ℕ} {resp : ChatResponse} (h : g.Obtained k resp) (hmove : g.Move g') :
    g'.Obtained k resp := by
  obtain ⟨f, hf, hk, hprompt, hok⟩ := h
  exact ⟨f, hmove.forwards f hf, hk, hmove.flow.promptOf hprompt, hok⟩

/-- A `connWorker` that goes to the state `w`, which is not one of writing a response. -/
theorem Earned.conn_update (h : g.Earned) {i : Fin n} {w : ConnWorker υ}
    (hw : ∀ job resp, w ≠ .answering job (.ok resp)) (i' : Fin n) (job : ClientJob)
    (resp : ChatResponse) : Function.update g.conn i w i' ≠ .answering job (.ok resp) := by
  by_cases hi : i' = i
  · subst hi
    rw [Function.update_self]
    exact hw job resp
  · rw [Function.update_of_ne hi]
    exact h.conn i' job resp

theorem Earned.dispatch_update {j : Fin m} {w : DispatchWorker υ}
    {obtained : ℕ → ChatResponse → Prop}
    (h : ∀ j job resp, g.dispatch j = .answering job (.ok resp) → obtained job.resultCh resp)
    (hw : ∀ job resp, w = .answering job (.ok resp) → obtained job.resultCh resp) (j' : Fin m)
    (job : DispatchJob υ) (resp : ChatResponse)
    (hj' : Function.update g.dispatch j w j' = .answering job (.ok resp)) :
    obtained job.resultCh resp := by
  by_cases hj : j' = j
  · subst hj
    rw [Function.update_self] at hj'
    exact hw job resp hj'
  · rw [Function.update_of_ne hj] at hj'
    exact h j' job resp hj'

theorem Earned.move (h : g.Earned) (hown : ∀ t ∈ g.held, g.promptOf t.1 = some t.2)
    (hmove : g.Move g') : g'.Earned := by
  have hkept : ∀ j job resp, g.dispatch j = .answering job (.ok resp) →
      g'.Obtained job.resultCh resp :=
    fun j job resp hj => (h.dispatch j job resp hj).move hmove
  cases hmove with
  | refuse => exact h
  | arrive => exact ⟨h.conn, hkept⟩
  | enqueue => exact ⟨h.conn, hkept⟩
  | user => exact ⟨h.conn, hkept⟩
  | connTake => exact ⟨h.conn_update (fun _ _ hw => by cases hw), hkept⟩
  | connKeep i w _ hw => exact ⟨h.conn_update hw, hkept⟩
  | connOffer => exact ⟨h.conn_update (fun _ _ hw => by cases hw), hkept⟩
  | connAnswer => exact ⟨h.conn_update (fun _ _ hw => by cases hw), hkept⟩
  | dispatchTake => exact ⟨h.conn, Earned.dispatch_update hkept (fun _ _ hw => by cases hw)⟩
  | dispatchForward j job reply hjob =>
      refine ⟨h.conn, Earned.dispatch_update hkept (fun job' resp hw => ?_)⟩
      obtain ⟨rfl, hok⟩ := DispatchWorker.answering.inj hw
      -- the job that was forwarded carries the prompt of its own call
      have htoken : job.token ∈ g.held := by
        refine Multiset.mem_add.2 (Or.inr (Multiset.mem_add.2 (Or.inr ?_)))
        exact Pool.mem_contents.2 ⟨j, by rw [hjob]; rfl⟩
      exact ⟨_, List.mem_append_right _ List.mem_cons_self, rfl, hown _ htoken, hok⟩
  | dispatchAnswer => exact ⟨h.conn, Earned.dispatch_update hkept (fun _ _ hw => by cases hw)⟩

/-! ## The invariant -/

/-- What is in a channel, or has come out of it, has been written to it. -/
def Genuine (g : Gateway n m υ) : Prop :=
  ∀ (k : ℕ) (c : Call) (res : JobResult), g.calls[k]? = some c → c.Shows res → res ∈ c.sent

structure Inv (g : Gateway n m υ) : Prop where
  once : g.Once
  own : ∀ t ∈ g.held, g.promptOf t.1 = some t.2
  earned : g.Earned
  obtained : ∀ k resp, .ok resp ∈ g.sent k → g.Obtained k resp
  genuine : g.Genuine

theorem held_new : (Gateway.new n m υ).held = 0 := by
  refine Multiset.eq_zero_of_forall_notMem (fun t ht => ?_)
  simp [held, Gateway.new, Pool.mem_contents, ConnWorker.token, DispatchWorker.token,
    ConnWorker.job, DispatchWorker.job] at ht

theorem inv_new : (Gateway.new n m υ).Inv where
  once k := by
    rw [held_new]
    rfl
  own t ht := by
    rw [held_new] at ht
    cases ht
  earned := ⟨fun _ _ _ h => (by cases h), fun _ _ _ h => (by cases h)⟩
  obtained k resp h := by cases h
  genuine k c res h := by cases h

theorem Flow.own (hflow : Flow g g') (h : ∀ t ∈ g.held, g.promptOf t.1 = some t.2) :
    ∀ t ∈ g'.held, g'.promptOf t.1 = some t.2 := by
  intro t ht
  have hold : t ∈ g.held → g'.promptOf t.1 = some t.2 := fun hmem => hflow.promptOf (h t hmem)
  cases hflow with
  | arrive _ _ hheld => exact hold (hheld ▸ ht)
  | accept k c hc _ hcalls hheld =>
      rw [hheld] at ht
      rcases Multiset.mem_add.1 ht with hmem | hnew
      · exact hold hmem
      · rw [Multiset.mem_singleton.1 hnew]
        unfold Gateway.promptOf
        rw [hcalls, getElem?_set_of_some hc, if_pos rfl]
        rfl
  | user _ _ _ _ _ _ _ _ _ hheld => exact hold (hheld ▸ ht)
  | inside _ hheld => exact hold (hheld ▸ ht)
  | answer _ _ _ _ _ _ hheld _ =>
      rw [hheld] at hold
      exact hold (Multiset.mem_add.2 (Or.inl ht))

/-- A result that has been written was written before, or is written by this step. -/
theorem Flow.sent (hflow : Flow g g') {k : ℕ} {res : JobResult} (h : res ∈ g'.sent k) :
    res ∈ g.sent k ∨ ∃ t, t.1 = k ∧ g.Answers t res := by
  unfold Gateway.sent at h ⊢
  cases hflow with
  | arrive new hcalls _ =>
      rw [hcalls] at h
      rcases getElem?_concat_eq_or g.calls ⟨new, .offering, none, []⟩ k with heq | ⟨-, heq⟩
      · rw [heq] at h
        exact Or.inl h
      · rw [heq] at h
        cases h
  | accept j c hc _ hcalls _ =>
      rw [hcalls, getElem?_set_of_some hc] at h
      split at h
      · next hk => exact Or.inl (by rw [hk, hc]; exact h)
      · exact Or.inl h
  | user j c c' hc _ _ hsent _ hcalls _ =>
      rw [hcalls, getElem?_set_of_some hc] at h
      split at h
      · next hk =>
          rw [Option.elim_some, hsent] at h
          exact Or.inl (by rw [hk, hc]; exact h)
      · exact Or.inl h
  | inside hcalls _ =>
      rw [hcalls] at h
      exact Or.inl h
  | answer t c res' hc _ hcalls _ hanswers =>
      rw [hcalls, getElem?_set_of_some hc] at h
      split at h
      · next hk =>
          rcases List.mem_append.1 h with hold | hnew
          · exact Or.inl (by rw [hk, hc]; exact hold)
          · exact Or.inr ⟨t, hk.symm, List.mem_singleton.1 hnew ▸ hanswers⟩
      · exact Or.inl h

theorem Genuine.flow (h : g.Genuine) (hflow : Flow g g') : g'.Genuine := by
  intro k c res hc hres
  cases hflow with
  | arrive new hcalls _ =>
      rw [hcalls] at hc
      rcases getElem?_concat_eq_or g.calls ⟨new, .offering, none, []⟩ k with heq | ⟨-, heq⟩
      · rw [heq] at hc
        exact h k c res hc hres
      · rw [heq] at hc
        rw [← Option.some.inj hc] at hres
        rcases hres with hbuf | hphase
        · cases hbuf
        · cases hphase
  | accept j c₀ hc₀ _ hcalls _ =>
      rw [hcalls, getElem?_set_of_some hc₀] at hc
      split at hc
      · rw [← Option.some.inj hc] at hres ⊢
        exact h j c₀ res hc₀ (Or.inl (hres.resolve_right (fun hphase => by cases hphase)))
      · exact h k c res hc hres
  | user j c₀ c' hc₀ _ _ hsent hshows hcalls _ =>
      rw [hcalls, getElem?_set_of_some hc₀] at hc
      split at hc
      · rw [← Option.some.inj hc] at hres ⊢
        rw [hsent]
        exact h j c₀ res hc₀ (hshows res hres)
      · exact h k c res hc hres
  | inside hcalls _ =>
      rw [hcalls] at hc
      exact h k c res hc hres
  | answer t c₀ res' hc₀ _ hcalls _ _ =>
      rw [hcalls, getElem?_set_of_some hc₀] at hc
      split at hc
      · rw [← Option.some.inj hc] at hres ⊢
        rcases hres with hbuf | hphase
        · exact List.mem_append_right _ (List.mem_singleton.2 (Option.some.inj hbuf).symm)
        · exact List.mem_append_left _ (h t.1 c₀ res hc₀ (Or.inr hphase))
      · exact h k c res hc hres

theorem Inv.step (h : g.Inv) (hstep : g.step a = some g') : g'.Inv := by
  have hmove := step_move hstep
  have hflow := hmove.flow
  refine ⟨h.once.flow hflow, hflow.own h.own, h.earned.move h.own hmove, fun k resp hsent => ?_,
    h.genuine.flow hflow⟩
  rcases hflow.sent hsent with hold | ⟨t, rfl, hanswers⟩
  · exact (h.obtained k resp hold).move hmove
  · exact (h.earned.answers hanswers).move hmove

theorem inv_exec {as : List (Action n m υ)}
    (hrun : exec Gateway.step (Gateway.new n m υ) as = some g) : g.Inv :=
  invariant_exec (P := fun _ _ => True) (I := Inv) (fun _ _ _ hI _ hstep => hI.step hstep)
    as _ g inv_new (along_of_forall (fun _ _ => trivial) as _) hrun

/-! ## Answers -/

/-- The channel of a job on its way is empty, and nothing has been written to it. -/
theorem Inv.room (h : g.Inv) {t : Token} (ht : t ∈ g.held) :
    ∃ c, g.calls[t.1]? = some c ∧ c.buffer = none := by
  obtain ⟨c, hc, -⟩ := Option.map_eq_some_iff.1 (h.own t ht)
  refine ⟨c, hc, ?_⟩
  have honce := h.once t.1
  have hpos : 0 < g.held.countP (fun u => u.1 = t.1) := Multiset.countP_pos.2 ⟨t, ht, rfl⟩
  have hle : (g.accepted t.1).toNat ≤ 1 := Bool.toNat_le _
  have hsent : c.sent = [] := by
    refine List.length_eq_zero_iff.1 ?_
    simp only [Gateway.sent, hc, Option.elim_some] at honce
    omega
  cases hbuf : c.buffer with
  | none => rfl
  | some res =>
      have hmem := h.genuine t.1 c res hc (Or.inl hbuf)
      rw [hsent] at hmem
      cases hmem

theorem write_isSome {k : ℕ} {c : Call} {res : JobResult} (hc : g.calls[k]? = some c)
    (hbuf : c.buffer = none) : (g.write k res).isSome = true := by
  simp [write, hc, hbuf]

theorem Inv.connAnswer_isSome (h : g.Inv) {i : Fin n} {job : ClientJob} {res : JobResult}
    (hi : g.conn i = .answering job res) : (g.step (.connAnswer i)).isSome = true := by
  have hmem : job.token ∈ g.held :=
    Multiset.mem_add.2 (Or.inl (Multiset.mem_add.2 (Or.inr
      (Pool.mem_contents.2 ⟨i, by rw [hi]; rfl⟩))))
  obtain ⟨c, hc, hbuf⟩ := h.room hmem
  simp only [Gateway.step, connAnswer, hi, Option.isSome_map]
  exact write_isSome hc hbuf

theorem Inv.dispatchAnswer_isSome (h : g.Inv) {j : Fin m} {job : DispatchJob υ} {res : JobResult}
    (hj : g.dispatch j = .answering job res) : (g.step (.dispatchAnswer j)).isSome = true := by
  have hmem : job.token ∈ g.held :=
    Multiset.mem_add.2 (Or.inr (Multiset.mem_add.2 (Or.inr
      (Pool.mem_contents.2 ⟨j, by rw [hj]; rfl⟩))))
  obtain ⟨c, hc, hbuf⟩ := h.room hmem
  simp only [Gateway.step, dispatchAnswer, hj, Option.isSome_map]
  exact write_isSome hc hbuf

theorem answered_mem_places {k : ℕ} : Place.answered ∈ g.places k ↔ g.sent k ≠ [] := by
  simp [places]

theorem Inv.places_eq (h : g.Inv) {k : ℕ} (hacc : g.accepted k = true) :
    ∃ place, g.places k = [place] := by
  refine List.length_eq_one_iff.1 ?_
  rw [length_places, h.once k, hacc]
  rfl

/-- A call of `HandleChat` that responds with `200` responds with what `forwardToWorker` has
    returned for the prompt of this call. -/
theorem Inv.response_obtained (h : g.Inv) {k : ℕ} {c : Call} {resp : ChatResponse}
    (hc : g.calls[k]? = some c) (hresp : c.phase.response = some (200, .ok resp)) :
    g.Obtained k resp := by
  have hphase : c.phase = .responded (.ok resp) := by
    cases hp : c.phase with
    | offering => rw [hp] at hresp; cases hresp
    | overloaded => rw [hp] at hresp; cases hresp
    | waiting => rw [hp] at hresp; cases hresp
    | responded res =>
        rw [hp] at hresp
        cases res with
        | error err => cases hresp
        | ok resp' => cases hresp; rfl
  refine h.obtained k resp ?_
  simp only [Gateway.sent, hc, Option.elim_some]
  exact h.genuine k c _ hc (Or.inr hphase)

end Gateway

open Gateway

/-- **The pipeline conserves jobs.** At each moment of each run, with pools of any size, a job that
    has been accepted is in exactly one place. It is answered when one result has been written to
    its channel, and a response in it is one that `forwardToWorker` has returned for the prompt of
    that job; no write to a channel ever waits. -/
theorem jobs_conserved {as : List (Action n m υ)} {g : Gateway n m υ}
    (hrun : exec Gateway.step (.new n m υ) as = some g) :
    (∀ (k : ℕ) (c : Call), g.calls[k]? = some c → c.accepted = true →
      ∃ place, g.places k = [place] ∧ (place ≠ .answered → c.sent = []) ∧
        (place = .answered → ∃ res, c.sent = [res] ∧
          ∀ resp, res = .ok resp → g.Obtained k resp)) ∧
    (∀ i job res, g.conn i = .answering job res → (g.step (.connAnswer i)).isSome = true) ∧
    (∀ j job res, g.dispatch j = .answering job res →
      (g.step (.dispatchAnswer j)).isSome = true) := by
  have hinv := inv_exec hrun
  refine ⟨fun k c hc hacc => ?_, fun i job res => hinv.connAnswer_isSome,
    fun j job res => hinv.dispatchAnswer_isSome⟩
  have hsent : g.sent k = c.sent := by simp only [Gateway.sent, hc, Option.elim_some]
  have haccepted : g.accepted k = true := by
    simp only [Gateway.accepted, hc, Option.any_some, hacc]
  obtain ⟨place, hplace⟩ := hinv.places_eq haccepted
  refine ⟨place, hplace, fun hne => ?_, fun heq => ?_⟩
  · by_contra hsome
    have hmem := answered_mem_places.2 (hsent ▸ hsome : g.sent k ≠ [])
    rw [hplace] at hmem
    exact hne (List.mem_singleton.1 hmem).symm
  · have hne : g.sent k ≠ [] :=
      answered_mem_places.1 (by rw [hplace, heq]; exact List.mem_singleton.2 rfl)
    have hlen := length_places g k
    have hpos := List.length_pos_iff.2 hne
    rw [hplace, List.length_singleton] at hlen
    obtain ⟨res, hres⟩ := List.length_eq_one_iff.1 (show (g.sent k).length = 1 by omega)
    refine ⟨res, hsent ▸ hres, ?_⟩
    rintro resp rfl
    exact hinv.obtained k resp (by rw [hres]; exact List.mem_singleton.2 rfl)

/-- Two requests at once, through pools of two goroutines each. The first overtakes the second,
    whose worker has not answered yet. -/
def chatRun : List (Action 2 2 ℕ) :=
  let a : Fin 2 := ⟨0, Nat.two_pos⟩
  let b : Fin 2 := Fin.last 1
  [.handleChat true (.ok (some ⟨"hello", []⟩)), .handleChat true (.ok (some ⟨"bye", []⟩)),
    .enqueue 1, .enqueue 0, .connTake a, .connTake b,
    .connPick a (.reply 200 "200 OK" "" (.ok ⟨"w", "10.0.0.1", 9001, [], .idle⟩)), .connOffer a,
    .connPick b (.reply 200 "200 OK" "" (.ok ⟨"v", "10.0.0.2", 9001, [], .idle⟩)), .connOffer b,
    .dispatchTake a, .dispatchTake b,
    .dispatchForward b (.reply 200 "200 OK" "" (.ok ⟨"hi", "v", 0⟩)), .dispatchAnswer b]

theorem jobs_conserved_chatRun :
    ∃ g c d, exec Gateway.step (.new 2 2 ℕ) chatRun = some g ∧ g.calls = [c, d] ∧
      g.places 0 = [.answered] ∧ g.Obtained 0 ⟨"hi", "v", 0⟩ ∧
      g.places 1 = [.dispatchWorker ⟨0, Nat.two_pos⟩] ∧ d.sent = [] := by
  have hrun : ∃ g c d, exec Gateway.step (.new 2 2 ℕ) chatRun = some g ∧ g.calls = [c, d] ∧
      c.accepted = true ∧ g.places 0 = [.answered] ∧ c.sent = [.ok ⟨"hi", "v", 0⟩] ∧
      d.accepted = true ∧ g.places 1 = [.dispatchWorker ⟨0, Nat.two_pos⟩] :=
    ⟨_, _, _, rfl, rfl, rfl, rfl, rfl, rfl, rfl⟩
  obtain ⟨g, c, d, hg, hcalls, hacc, hplaces, hsent, hdacc, hdplaces⟩ := hrun
  have hjobs := (jobs_conserved hg).1
  obtain ⟨place, hplace, -, hanswered⟩ := hjobs 0 c (by rw [hcalls]; rfl) hacc
  have heq : place = .answered := List.singleton_inj.1 (hplace.symm.trans hplaces)
  obtain ⟨res, hres, hobtained⟩ := hanswered heq
  have hok : res = .ok ⟨"hi", "v", 0⟩ := List.singleton_inj.1 (hres.symm.trans hsent)
  obtain ⟨place', hplace', hon, -⟩ := hjobs 1 d (by rw [hcalls]; rfl) hdacc
  have hway : place' = .dispatchWorker ⟨0, Nat.two_pos⟩ :=
    List.singleton_inj.1 (hplace'.symm.trans hdplaces)
  exact ⟨g, c, d, hg, hcalls, hplaces, hobtained _ hok, hdplaces,
    hon (by rw [hway]; exact fun h => by cases h)⟩

end Dataplane

end AiFS
