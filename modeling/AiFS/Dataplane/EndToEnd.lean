import AiFS.Dataplane.Conservation
import AiFS.Dataplane.InferenceOnce

set_option autoImplicit false

/-! # From a user to a GPU and back

The gateway and the workers it forwards prompts to, as one system: `worker/server.go` in front of
the pools, `worker/backend.go` behind them, and the HTTP requests in between. A `dispatchWorker`
that forwards a job posts it to the address of the worker that was picked; the worker decodes the
request and calls `Submit`, and what this returns is the reply. The call of the gateway may also
fail at any time, with the worker still busy with the prompt, and others than the gateway may use
the workers.

A node is a worker process. JSON gives back what it was given. Of a `200` only the decoded body is
read, and of any other status only the text. `raw` of a reply of vLLM is the body without the white
space around it.

A user who gets `200` gets what the backend of one node has made of their own prompt, in one run on
one of its GPUs (`served_once`). -/

namespace AiFS

open Dataplane (ChatMessage ChatRequest ChatResponse HTTPResult promptFromRequest)

namespace Worker

/-! ## The HTTP server of a worker -/

def handleChat (body : Except String (Option ChatRequest)) : Except (ℕ × String) String :=
  match body with
  | .error err => .error (400, err)
  | .ok none => .error (400, "invalid json")
  | .ok (some req) =>
      if promptFromRequest req = "" then .error (400, "prompt required")
      else .ok (promptFromRequest req)

def serveHTTP (post : Bool) (path : String) (body : Except String (Option ChatRequest)) :
    Except (ℕ × String) String :=
  if post ∧ path = "/v1/chat/completions" then handleChat body
  else .error (404, "404 page not found")

/-- `resp.Status` at the client. -/
def status : ℕ → String
  | 200 => "200 OK"
  | 400 => "400 Bad Request"
  | 404 => "404 Not Found"
  | _ => "503 Service Unavailable"

/-- `http.Error` as the client sees it. -/
def httpError (code : ℕ) (text : String) : HTTPResult ChatResponse :=
  .reply code (status code) (text ++ "\n") (.error "")

/-- What `handleChat` makes of what `Submit` returns. -/
def chatReply : ChatResponse × Option String → HTTPResult ChatResponse
  | (resp, none) => .reply 200 (status 200) "" (.ok resp)
  | (_, some err) => httpError 503 err

/-! ## Backends -/

structure VLLMRequest where
  model : String
  messages : List ChatMessage
  maxTokens : ℤ
deriving DecidableEq, Repr

/-- `choices` are the messages of the choices. -/
structure VLLMResponse where
  model : String
  choices : List ChatMessage
deriving DecidableEq, Repr

inductive Backend
  | mock (workerID : String)
  | vllm (workerID model : String) (maxTokens : ℤ)
deriving DecidableEq, Repr

def vllmRequest (model : String) (maxTokens : ℤ) (prompt : String) : VLLMRequest where
  model := model
  messages := [⟨"user", prompt⟩]
  maxTokens := if maxTokens ≤ 0 then 256 else maxTokens

/-- What `Generate` makes of the answer of vLLM. -/
def vllmReply (workerID : String) : HTTPResult VLLMResponse → ChatResponse × Option String
  | .failed err => (⟨"", "", 0⟩, some err)
  | .reply statusCode status raw decoded =>
      if statusCode ≠ 200 then (⟨"", "", 0⟩, some ("vllm: " ++ status ++ " " ++ raw))
      else
        match decoded with
        | .error err => (⟨"", "", 0⟩, some err)
        | .ok out =>
            match out.choices with
            | [] => (⟨"", "", 0⟩, some "vllm response has no choices")
            | msg :: _ => (⟨msg.content, workerID, 0⟩, none)

/-- What ends a call of `Generate`: the delay of the mock is over, the context is cancelled, or vLLM
    answers requests in this way. -/
inductive Outcome
  | elapsed
  | ctxDone
  | answered (answer : VLLMRequest → HTTPResult VLLMResponse)

def Backend.generate (ctxErr : Option String) (prompt : String) :
    Backend → Outcome → Option (ChatResponse × Option String)
  | .mock workerID, .elapsed => some (⟨"[mock] reply to: " ++ prompt, workerID, 0⟩, none)
  | .mock _, .ctxDone => ctxErr.map fun err => (⟨"", "", 0⟩, some err)
  | .vllm workerID model maxTokens, .answered answer =>
      some (vllmReply workerID (answer (vllmRequest model maxTokens prompt)))
  | _, _ => none

/-- A worker process. -/
structure Node where
  id : String
  ip : String
  port : ℤ
  gpuCount : ℤ
  backend : Backend

def Action.isGenerate {n : ℕ} : Action n → Bool
  | .generate .. => true
  | _ => false

end Worker

namespace Dataplane

open Machine Pool
open Worker (Node Outcome Backend gpuConsumers newPool)

variable {n m w : ℕ} {υ : Type}

def Action.isForward : Action n m υ → Bool
  | .dispatchForward .. => true
  | _ => false

/-! ## The system -/

/-- The gateway, the pools of the workers, and for each `dispatchWorker` the worker that its request
    has reached, with the call of `Submit` there. -/
structure System (n m : ℕ) (υ : Type) (nodes : Fin w → Node) where
  gateway : Gateway n m υ
  pool : (i : Fin w) → Worker.Pool (gpuConsumers (nodes i).gpuCount)
  posts : Fin m → Option (Fin w × ℕ)

/-- What can happen next: something in the gateway, a request reaches a worker, a request fails, a
    worker answers, something in a worker, or a backend returns. -/
inductive SystemAction (n m : ℕ) (υ : Type) (nodes : Fin w → Node)
  | gateway (a : Action n m υ)
  | post (j : Fin m) (i : Fin w)
  | fail (j : Fin m) (err : String)
  | respond (j : Fin m)
  | worker (i : Fin w) (a : Worker.Action (gpuConsumers (nodes i).gpuCount))
  | generate (i : Fin w) (gpu : Fin (gpuConsumers (nodes i).gpuCount)) (outcome : Outcome)

namespace System

variable {nodes : Fin w → Node}

def start (n m : ℕ) (υ : Type) (nodes : Fin w → Node) : System n m υ nodes where
  gateway := Gateway.new n m υ
  pool := fun i => newPool (nodes i).id (nodes i).gpuCount
  posts := fun _ => none

def setPool (s : System n m υ nodes) (i : Fin w)
    (p : Worker.Pool (gpuConsumers (nodes i).gpuCount)) : System n m υ nodes :=
  { s with pool := Function.update s.pool i p }

/-- The HTTP call of a `dispatchWorker` comes back. -/
def forwarded (s : System n m υ nodes) (j : Fin m) (reply : HTTPResult ChatResponse) :
    Option (System n m υ nodes) :=
  (s.gateway.dispatchForward j reply).map fun g =>
    { s with gateway := g, posts := Function.update s.posts j none }

/-- A request of the `dispatchWorker` `j` reaches the worker `i`. -/
def post (s : System n m υ nodes) (j : Fin m) (i : Fin w) : Option (System n m υ nodes) :=
  match s.gateway.dispatch j, s.posts j with
  | .forwarding job, none =>
      if job.worker.ip = (nodes i).ip ∧ job.worker.port = (nodes i).port then
        match Worker.serveHTTP true "/v1/chat/completions" (.ok (some ⟨job.prompt, []⟩)) with
        | .error (code, text) => s.forwarded j (Worker.httpError code text)
        | .ok prompt =>
            some { s.setPool i ((s.pool i).submit prompt) with
              posts := Function.update s.posts j (some (i, (s.pool i).submissions.length)) }
      else none
  | _, _ => none

/-- `Submit` has returned, and the worker answers. -/
def respond (s : System n m υ nodes) (j : Fin m) : Option (System n m υ nodes) :=
  match s.posts j with
  | none => none
  | some (i, k) =>
      match ((s.pool i).submissions[k]?).bind fun c => c.phase.result with
      | none => none
      | some result => s.forwarded j (Worker.chatReply result)

/-- `Generate` returns, on a GPU of the worker `i`. -/
def generate (s : System n m υ nodes) (i : Fin w)
    (gpu : Fin (gpuConsumers (nodes i).gpuCount)) (outcome : Outcome) :
    Option (System n m υ nodes) :=
  match (s.pool i).gpus gpu with
  | .generating task =>
      match (nodes i).backend.generate
          (((s.pool i).submissions[task.done]?).bind Worker.Submission.ctxErr) task.prompt
          outcome with
      | none => none
      | some (response, err) => ((s.pool i).generate gpu response err).map (s.setPool i)
  | _ => none

def step (s : System n m υ nodes) : SystemAction n m υ nodes → Option (System n m υ nodes)
  | .gateway a =>
      if a.isForward then none else (s.gateway.step a).map fun g => { s with gateway := g }
  | .post j i => s.post j i
  | .fail j err => s.forwarded j (.failed err)
  | .respond j => s.respond j
  | .worker i a =>
      if a.isGenerate then none else ((s.pool i).step a).map (s.setPool i)
  | .generate i gpu outcome => s.generate i gpu outcome

/-! ## The gateway and the pools, step by step -/

/-- Only a reply of a worker ends a call of `forwardToWorker`. -/
theorem gateway_keeps {g g' : Gateway n m υ} {a : Action n m υ} (hstep : g.step a = some g')
    (ha : a.isForward = false) : g'.forwards = g.forwards ∧
      ∀ j job, g.dispatch j = .forwarding job → g'.dispatch j = .forwarding job := by
  have hupdate : ∀ (i : Fin m) (d : DispatchWorker υ), (∀ job, g.dispatch i ≠ .forwarding job) →
      ∀ j job, g.dispatch j = .forwarding job →
        Function.update g.dispatch i d j = .forwarding job := by
    intro i d hi j job hj
    have hne : j ≠ i := by
      rintro rfl
      exact hi job hj
    exact (Function.update_of_ne hne _ _).trans hj
  cases a with
  | handleChat post body =>
      obtain rfl := Option.some.inj hstep
      unfold Gateway.handleChat
      split <;> exact ⟨rfl, fun _ _ h => h⟩
  | connAnswer i =>
      simp only [Gateway.step, Gateway.connAnswer] at hstep
      split at hstep
      · obtain ⟨g₁, hwrite, rfl⟩ := Option.map_eq_some_iff.1 hstep
        obtain ⟨c, -, -, rfl⟩ := Gateway.write_eq_some hwrite
        exact ⟨rfl, fun _ _ h => h⟩
      · cases hstep
  | dispatchTake i =>
      simp only [Gateway.step, Gateway.dispatchTake] at hstep
      split at hstep
      · next job rest hidle _ =>
          obtain rfl := Option.some.inj hstep
          exact ⟨rfl, hupdate i _ (fun _ h => by rw [hidle] at h; cases h)⟩
      · cases hstep
  | dispatchForward j reply => cases ha
  | dispatchAnswer i =>
      simp only [Gateway.step, Gateway.dispatchAnswer] at hstep
      split at hstep
      · next job res hanswering =>
          obtain ⟨g₁, hwrite, rfl⟩ := Option.map_eq_some_iff.1 hstep
          obtain ⟨c, -, -, rfl⟩ := Gateway.write_eq_some hwrite
          exact ⟨rfl, hupdate i _ (fun _ h => by rw [hanswering] at h; cases h)⟩
      · cases hstep
  | _ =>
      -- the others touch neither
      simp only [Gateway.step, Gateway.enqueue, Gateway.overload, Gateway.receive,
        Gateway.connTake, Gateway.connPick, Gateway.connOffer, Gateway.connTimeout] at hstep
      repeat' split at hstep
      all_goals first
        | (obtain rfl := Option.some.inj hstep; exact ⟨rfl, fun _ _ h => h⟩)
        | cases hstep

/-- Only a call of the backend that returns is a new generation. -/
theorem pool_generated {g : ℕ} {p p' : Worker.Pool g} {a : Worker.Action g}
    (hstep : p.step a = some p') (ha : a.isGenerate = false) : p'.generated = p.generated := by
  cases a with
  | submit prompt =>
      obtain rfl := Option.some.inj hstep
      rfl
  | generate => cases ha
  | _ =>
      simp only [Worker.Pool.step, Worker.Pool.cancel, Worker.Pool.enqueue, Worker.Pool.timeout,
        Worker.Pool.abort, Worker.Pool.receive, Worker.Pool.take, Worker.Pool.answer] at hstep
      repeat' split at hstep
      all_goals first
        | (obtain rfl := Option.some.inj hstep; rfl)
        | cases hstep

/-! ## The invariant -/

/-- The call `k` of `Submit` at node `i` was for the prompt, and the response has been written to
    its channel. -/
def Answered (s : System n m υ nodes) (i : Fin w) (k : ℕ) (prompt : String)
    (resp : ChatResponse) : Prop :=
  ∃ x, (s.pool i).submissions[k]? = some x ∧ x.prompt = prompt ∧ ⟨resp, none⟩ ∈ x.sent

/-- The worker has the address of node `i`. -/
def Leads (nodes : Fin w → Node) (worker : Controlplane.WorkerInfo υ) (i : Fin w) : Prop :=
  worker.ip = (nodes i).ip ∧ worker.port = (nodes i).port

structure Inv (s : System n m υ nodes) : Prop where
  gateway : s.gateway.Inv
  pools : ∀ i, (s.pool i).Inv
  workerID : ∀ i, (s.pool i).workerID = (nodes i).id
  generated : ∀ i, ∀ g ∈ (s.pool i).generated, ∃ ctxErr outcome,
    (nodes i).backend.generate ctxErr g.prompt outcome = some (g.response, g.err)
  posted : ∀ j i k, s.posts j = some (i, k) → ∃ job, s.gateway.dispatch j = .forwarding job ∧
    Leads nodes job.worker i ∧
    (s.pool i).submissions[k]?.map Worker.Submission.prompt = some job.prompt
  forwards : ∀ f ∈ s.gateway.forwards, ∀ resp, forwardToWorker f.worker f.reply = .ok resp →
    ∃ i k, Leads nodes f.worker i ∧ s.Answered i k f.prompt resp

variable {s s' : System n m υ nodes}

theorem inv_start : (start n m υ nodes).Inv where
  gateway := Gateway.inv_new
  pools i := Worker.Pool.inv_new _
  workerID i := rfl
  generated i g hg := by cases hg
  posted j i k h := by cases h
  forwards f hf := by cases hf

theorem Inv.gateway_step (h : s.Inv) {a : Action n m υ} {g : Gateway n m υ}
    (ha : a.isForward = false) (hstep : s.gateway.step a = some g) :
    ({ s with gateway := g } : System n m υ nodes).Inv := by
  obtain ⟨hforwards, hforwarding⟩ := gateway_keeps hstep ha
  refine ⟨h.gateway.step hstep, h.pools, h.workerID, h.generated, ?_, ?_⟩
  · intro j i k hpost
    obtain ⟨job, hjob, hrest⟩ := h.posted j i k hpost
    exact ⟨job, hforwarding j job hjob, hrest⟩
  · intro f hf
    exact h.forwards f (hforwards ▸ hf)

/-- A reply of a worker, if it is a response, has to be the one to the prompt of the job. -/
theorem Inv.forwarded (h : s.Inv) {j : Fin m} {reply : HTTPResult ChatResponse}
    (hstep : s.forwarded j reply = some s')
    (hreply : ∀ job resp, s.gateway.dispatch j = .forwarding job →
      forwardToWorker job.worker reply = .ok resp →
      ∃ i k, Leads nodes job.worker i ∧ s.Answered i k job.prompt resp) : s'.Inv := by
  obtain ⟨g, hg, rfl⟩ := Option.map_eq_some_iff.1 hstep
  have hinv : g.Inv := h.gateway.step (a := .dispatchForward j reply) hg
  unfold Gateway.dispatchForward at hg
  split at hg
  · next job hjob =>
      obtain rfl := Option.some.inj hg
      refine ⟨hinv, h.pools, h.workerID, h.generated, ?_, ?_⟩
      · intro j' i k hpost
        replace hpost : Function.update s.posts j none j' = some (i, k) := hpost
        by_cases hj : j' = j
        · subst hj
          rw [Function.update_self] at hpost
          cases hpost
        · rw [Function.update_of_ne hj] at hpost
          obtain ⟨job', hjob', hrest⟩ := h.posted j' i k hpost
          exact ⟨job', (Function.update_of_ne hj _ _).trans hjob', hrest⟩
      · intro f hf resp hok
        rcases List.mem_append.1 hf with hold | hnew
        · exact h.forwards f hold resp hok
        · obtain rfl := List.mem_singleton.1 hnew
          exact hreply job resp hjob hok
  · cases hg

/-- What holds of the pool that takes a step and of all others holds of all. -/
theorem forall_setPool {i : Fin w} {p : Worker.Pool (gpuConsumers (nodes i).gpuCount)}
    {P : ∀ i, Worker.Pool (gpuConsumers (nodes i).gpuCount) → Prop} (hp : P i p)
    (hold : ∀ i', i' ≠ i → P i' (s.pool i')) (i' : Fin w) : P i' ((s.setPool i p).pool i') := by
  by_cases hi : i' = i
  · subst hi
    simp only [System.setPool, Function.update_self]
    exact hp
  · simp only [System.setPool, Function.update_of_ne hi]
    exact hold i' hi

/-- Whatever a pool does, the calls keep their prompts and what was written to their channels. -/
theorem submission_setPool {i : Fin w} {p : Worker.Pool (gpuConsumers (nodes i).gpuCount)}
    (hmove : (s.pool i).Move p) {i' : Fin w} {k : ℕ}
    {x : Worker.Submission (gpuConsumers (nodes i').gpuCount)}
    (hx : (s.pool i').submissions[k]? = some x) :
    ∃ x', ((s.setPool i p).pool i').submissions[k]? = some x' ∧ x'.prompt = x.prompt ∧
      ∀ result ∈ x.sent, result ∈ x'.sent := by
  by_cases hi : i' = i
  · subst hi
    simp only [System.setPool, Function.update_self]
    exact hmove.submission hx
  · simp only [System.setPool, Function.update_of_ne hi]
    exact ⟨x, hx, rfl, fun _ hr => hr⟩

theorem Inv.setPool (h : s.Inv) {i : Fin w} {a : Worker.Action (gpuConsumers (nodes i).gpuCount)}
    {p : Worker.Pool (gpuConsumers (nodes i).gpuCount)} (hstep : (s.pool i).step a = some p)
    (hgen : ∀ g ∈ p.generated, ∃ ctxErr outcome,
      (nodes i).backend.generate ctxErr g.prompt outcome = some (g.response, g.err)) :
    (s.setPool i p).Inv := by
  have hmove := Worker.Pool.step_move hstep
  refine
    { gateway := h.gateway
      pools := forall_setPool (P := fun _ p => p.Inv) ((h.pools i).step hstep)
        fun i' _ => h.pools i'
      workerID := forall_setPool (P := fun i p => p.workerID = (nodes i).id)
        (hmove.workerID.trans (h.workerID i)) fun i' _ => h.workerID i'
      generated := forall_setPool (P := fun i p => ∀ g ∈ p.generated, ∃ ctxErr outcome,
        (nodes i).backend.generate ctxErr g.prompt outcome = some (g.response, g.err)) hgen
        fun i' _ => h.generated i'
      posted := ?_
      forwards := ?_ }
  · intro j i' k hpost
    obtain ⟨job, hjob, hleads, hprompt⟩ := h.posted j i' k hpost
    obtain ⟨x, hx, hxprompt⟩ := Option.map_eq_some_iff.1 hprompt
    obtain ⟨x', hx', hprompt', -⟩ := submission_setPool hmove hx
    refine ⟨job, hjob, hleads, ?_⟩
    rw [hx', Option.map_some, hprompt', hxprompt]
  · intro f hf resp hok
    obtain ⟨i', k, hleads, x, hx, hprompt, hsent⟩ := h.forwards f hf resp hok
    obtain ⟨x', hx', hprompt', hsent'⟩ := submission_setPool hmove hx
    exact ⟨i', k, hleads, x', hx', hprompt'.trans hprompt, hsent' _ hsent⟩

/-- An error of a worker is not a response. -/
theorem forwardToWorker_httpError (worker : Controlplane.WorkerInfo υ) (code : ℕ) (text : String)
    (resp : ChatResponse) :
    forwardToWorker worker (Worker.httpError code text) ≠ .ok resp := by
  simp only [Worker.httpError, forwardToWorker]
  split
  · exact fun h => by cases h
  · exact fun h => by cases h

/-- A worker reads the prompt that the gateway has sent. -/
theorem serveHTTP_prompt {prompt prompt' : String}
    (h : Worker.serveHTTP true "/v1/chat/completions" (.ok (some ⟨prompt, []⟩)) = .ok prompt') :
    prompt' = prompt := by
  have hread : promptFromRequest ⟨prompt, []⟩ = prompt := by
    unfold promptFromRequest
    split
    · rfl
    · next hempty => exact (not_not.1 hempty).symm
  simp only [Worker.serveHTTP, Worker.handleChat, hread, and_self, if_true] at h
  split at h
  · cases h
  · exact (Except.ok.inj h).symm

theorem Inv.post (h : s.Inv) {j : Fin m} {i : Fin w} (hstep : s.post j i = some s') : s'.Inv := by
  unfold System.post at hstep
  split at hstep
  · next job hjob _ =>
      split at hstep
      · next hleads =>
          split at hstep
          · next code text _ =>
              exact h.forwarded hstep fun job resp _ hok =>
                absurd hok (forwardToWorker_httpError _ code text resp)
          · next prompt hserve =>
              obtain rfl := Option.some.inj hstep
              have hinv := h.setPool (i := i) (a := .submit prompt) rfl (h.generated i)
              refine ⟨hinv.gateway, hinv.pools, hinv.workerID, hinv.generated,
                fun j' i' k hpost => ?_, hinv.forwards⟩
              replace hpost : Function.update s.posts j
                (some (i, (s.pool i).submissions.length)) j' = some (i', k) := hpost
              by_cases hj : j' = j
              · -- the call of `Submit` that has just been made
                subst hj
                rw [Function.update_self] at hpost
                obtain ⟨rfl, rfl⟩ := Prod.mk.inj (Option.some.inj hpost)
                refine ⟨job, hjob, hleads, ?_⟩
                simp [System.setPool, Worker.Pool.submit, serveHTTP_prompt hserve]
              · rw [Function.update_of_ne hj] at hpost
                exact hinv.posted j' i' k hpost
      · cases hstep
  · cases hstep

/-- What `Submit` has returned without an error has come through the channel of the call. -/
theorem Inv.answered (h : s.Inv) {i : Fin w} {k : ℕ} {result : ChatResponse × Option String}
    {prompt : String} {worker : Controlplane.WorkerInfo υ} {resp : ChatResponse}
    (hresult : ((s.pool i).submissions[k]?).bind (fun c => c.phase.result) = some result)
    (hprompt : (s.pool i).submissions[k]?.map Worker.Submission.prompt = some prompt)
    (hok : forwardToWorker worker (Worker.chatReply result) = .ok resp) :
    s.Answered i k prompt resp := by
  obtain ⟨x, hx, hphase⟩ := Option.bind_eq_some_iff.1 hresult
  rw [hx] at hprompt
  refine ⟨x, hx, Option.some.inj hprompt, ?_⟩
  obtain ⟨reply, err⟩ := result
  cases err with
  | some err => exact absurd hok (forwardToWorker_httpError worker 503 err resp)
  | none =>
      obtain rfl : reply = resp := Except.ok.inj hok
      refine ((h.pools i).account k x hx).shown _ (Or.inr ?_)
      cases hp : x.phase with
      | returned result =>
          rw [hp] at hphase
          obtain ⟨hreply, herr⟩ := Prod.mk.inj (Option.some.inj hphase)
          rw [← hreply, ← herr]
      | _ =>
          -- the other ways to return are errors
          rw [hp] at hphase
          cases hphase

theorem Inv.respond (h : s.Inv) {j : Fin m} (hstep : s.respond j = some s') : s'.Inv := by
  unfold System.respond at hstep
  split at hstep
  · cases hstep
  · next i k hpost =>
      split at hstep
      · cases hstep
      · next result hresult =>
          refine h.forwarded hstep fun job resp hjob hok => ?_
          obtain ⟨job', hjob', hleads, hprompt⟩ := h.posted j i k hpost
          obtain rfl := DispatchWorker.forwarding.inj (hjob'.symm.trans hjob)
          exact ⟨i, k, hleads, h.answered hresult hprompt hok⟩

theorem Inv.generate (h : s.Inv) {i : Fin w} {gpu : Fin (gpuConsumers (nodes i).gpuCount)}
    {outcome : Outcome} (hstep : s.generate i gpu outcome = some s') : s'.Inv := by
  unfold System.generate at hstep
  split at hstep
  · next task htask =>
      split at hstep
      · cases hstep
      · next response err hbackend =>
          obtain ⟨p, hp, rfl⟩ := Option.map_eq_some_iff.1 hstep
          refine h.setPool (a := .generate gpu response err) hp fun g hg => ?_
          simp only [Worker.Pool.generate, htask] at hp
          rw [← Option.some.inj hp] at hg
          rcases List.mem_append.1 hg with hold | hnew
          · exact h.generated i g hold
          · obtain rfl := List.mem_singleton.1 hnew
            exact ⟨_, outcome, hbackend⟩
  · cases hstep

theorem Inv.step (h : s.Inv) {a : SystemAction n m υ nodes} (hstep : s.step a = some s') :
    s'.Inv := by
  cases a with
  | gateway a =>
      simp only [System.step] at hstep
      split at hstep
      · cases hstep
      · next ha =>
          obtain ⟨g, hg, rfl⟩ := Option.map_eq_some_iff.1 hstep
          exact h.gateway_step (Bool.not_eq_true _ ▸ ha) hg
  | post j i => exact h.post hstep
  | fail j err => exact h.forwarded hstep fun _ _ _ hok => by cases hok
  | respond j => exact h.respond hstep
  | worker i a =>
      simp only [System.step] at hstep
      split at hstep
      · cases hstep
      · next ha =>
          obtain ⟨p, hp, rfl⟩ := Option.map_eq_some_iff.1 hstep
          refine h.setPool hp fun g hg => h.generated i g ?_
          rw [← pool_generated hp (Bool.not_eq_true _ ▸ ha)]
          exact hg
  | generate i gpu outcome => exact h.generate hstep

theorem inv_exec {as : List (SystemAction n m υ nodes)}
    (hrun : exec System.step (start n m υ nodes) as = some s) : s.Inv :=
  invariant_exec (P := fun _ _ => True) (I := Inv) (fun _ _ _ hI _ hstep => hI.step hstep)
    as _ s inv_start (along_of_forall (fun _ _ => trivial) as _) hrun

/-! ## Users and GPUs -/

/-- The backend of a node has returned for the prompt without an error, and this is the response:
    the prompt was forwarded to the address of the node, where one GPU has taken the task of the
    call of `Submit`, once, and no other has. The response carries the number of the GPU, and the
    name of the node unless the backend has given one. -/
def Served (s : System n m υ nodes) (k : ℕ) (prompt : String) (resp : ChatResponse) : Prop :=
  ∃ f ∈ s.gateway.forwards, f.resultCh = k ∧ f.prompt = prompt ∧
    ∃ i x gpu, Leads nodes f.worker i ∧ ∃ g ∈ (s.pool i).generated,
      (s.pool i).submissions[g.done]? = some x ∧ x.prompt = prompt ∧ x.takenBy = [gpu] ∧
      g.gpuID = gpu ∧ g.prompt = prompt ∧
      (∃ ctxErr outcome,
        (nodes i).backend.generate ctxErr prompt outcome = some (g.response, none)) ∧
      resp = ⟨g.response.reply,
        if g.response.workerID = "" then (nodes i).id else g.response.workerID, gpu.val⟩

/-- **A `200` is one run of one backend.** In each run of a gateway and its workers, whatever they
    and others do, a user who gets a response gets what the backend of a node has made of the prompt
    of their own request. -/
theorem served_once {as : List (SystemAction n m υ nodes)} {s : System n m υ nodes} {k : ℕ}
    {c : Call} {resp : ChatResponse} (hrun : exec System.step (start n m υ nodes) as = some s)
    (hc : s.gateway.calls[k]? = some c) (hresp : c.phase.response = some (200, .ok resp)) :
    s.Served k c.prompt resp := by
  have hinv := inv_exec hrun
  obtain ⟨f, hf, hk, hprompt, hok⟩ := hinv.gateway.response_obtained hc hresp
  have hprompt : f.prompt = c.prompt := by
    simp only [Gateway.promptOf, hc, Option.map_some, Option.some.injEq] at hprompt
    exact hprompt.symm
  obtain ⟨i, k', hleads, x, hx, hxprompt, hsent⟩ := hinv.forwards f hf resp hok
  have haccount := (hinv.pools i).account k' x hx
  rcases haccount.sent with hnone | ⟨gpu, result, htaken, hone, g, hg, hgpu, rfl, hgprompt, hresult⟩
  · rw [hnone] at hsent
    cases hsent
  · rw [hone] at hsent
    obtain ⟨hres, herr⟩ := Worker.TaskResult.mk.inj ((List.mem_singleton.1 hsent).trans hresult)
    have hgc : g.prompt = c.prompt := by
      rw [hx, Option.map_some, Option.some.injEq] at hgprompt
      exact hgprompt.symm.trans (hxprompt.trans hprompt)
    obtain ⟨ctxErr, outcome, hbackend⟩ := hinv.generated i g hg
    rw [hgc, ← herr] at hbackend
    refine ⟨f, hf, hk, hprompt, i, x, gpu, hleads, g, hg, hx, hxprompt.trans hprompt, htaken, hgpu,
      hgc, ⟨ctxErr, outcome, hbackend⟩, ?_⟩
    rw [hres, Worker.Pool.finish, hinv.workerID i]

def twoNodes (i : Fin 2) : Node where
  id := if i.val = 0 then "a" else "b"
  ip := if i.val = 0 then "10.0.0.1" else "10.0.0.2"
  port := 9001
  gpuCount := 2
  backend := .mock ""

/-- Two users at once, at two nodes; the second user's prompt is forwarded first. -/
def twoUsers : List (SystemAction 2 2 ℕ twoNodes) :=
  let a : Fin 2 := ⟨0, Nat.two_pos⟩
  let b : Fin 2 := Fin.last 1
  [.gateway (.handleChat true (.ok (some ⟨"hello", []⟩))),
    .gateway (.handleChat true (.ok (some ⟨"", [⟨"user", "bye"⟩]⟩))),
    .gateway (.enqueue 0), .gateway (.enqueue 1), .gateway (.connTake a), .gateway (.connTake b),
    .gateway (.connPick a (.reply 200 "200 OK" "" (.ok ⟨"b", "10.0.0.2", 9001, [], .idle⟩))),
    .gateway (.connPick b (.reply 200 "200 OK" "" (.ok ⟨"a", "10.0.0.1", 9001, [], .idle⟩))),
    .gateway (.connOffer b), .gateway (.connOffer a),
    .gateway (.dispatchTake a), .gateway (.dispatchTake b),
    .post b b, .post a a, .worker b (.enqueue 0), .worker a (.enqueue 0),
    .worker b (.take (Fin.last 1)), .worker a (.take (Fin.last 1)),
    .generate a (Fin.last 1) .elapsed, .generate b (Fin.last 1) .elapsed,
    .worker a (.answer (Fin.last 1)), .worker b (.answer (Fin.last 1)),
    .worker a (.receive 0), .worker b (.receive 0), .respond a, .respond b,
    .gateway (.dispatchAnswer a), .gateway (.dispatchAnswer b),
    .gateway (.receive 0), .gateway (.receive 1)]

theorem served_once_twoUsers : ∃ s, exec System.step (start 2 2 ℕ twoNodes) twoUsers = some s ∧
    s.Served 0 "hello" ⟨"[mock] reply to: hello", "b", 1⟩ ∧
    s.Served 1 "bye" ⟨"[mock] reply to: bye", "a", 1⟩ := by
  have hrun : ∃ s c d, exec System.step (start 2 2 ℕ twoNodes) twoUsers = some s ∧
      s.gateway.calls = [c, d] ∧ c.prompt = "hello" ∧ d.prompt = "bye" ∧
      c.phase.response = some (200, .ok ⟨"[mock] reply to: hello", "b", 1⟩) ∧
      d.phase.response = some (200, .ok ⟨"[mock] reply to: bye", "a", 1⟩) :=
    ⟨_, _, _, rfl, rfl, rfl, rfl, rfl, rfl⟩
  obtain ⟨s, c, d, hs, hcalls, hc, hd, hcresp, hdresp⟩ := hrun
  exact ⟨s, hs, hc ▸ served_once hs (by rw [hcalls]; rfl) hcresp,
    hd ▸ served_once hs (by rw [hcalls]; rfl) hdresp⟩

end System

end Dataplane

end AiFS
