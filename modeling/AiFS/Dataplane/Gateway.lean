import AiFS.Controlplane.Controller
import AiFS.Lib.Pool

set_option autoImplicit false

/-! # The pipeline of the gateway

`gateway/gateway.go`: a request of a user becomes a job in `connJobs`; one of `n` goroutines
`connWorker` takes it, asks the controller for a worker and puts it into `dispatchJobs`; one of `m`
goroutines `dispatchWorker` takes it from there and forwards the prompt. Whoever is done with the
job writes one result into the channel that the job carries, where `HandleChat` waits for it.

A goroutine makes a step where it can be held up or another one can come in between: at a channel,
at a timer, and while it waits for an HTTP answer. A channel has the capacity that the code gives
it, and a write to a full one waits. The call `k` of `HandleChat` makes the channel `k`. A timer can
go off at any time, also while there is room in the queue, as Go's `select` has it.

What the controller and the workers answer is part of the action. `sent` and `forwards` are history:
the results written to a channel so far, and the calls of `forwardToWorker` that have returned. -/

namespace AiFS

namespace Dataplane

open Controlplane (WorkerInfo)

variable {n m : ℕ} {υ : Type}

/-! ## Requests and answers -/

structure ChatMessage where
  role : String
  content : String
deriving DecidableEq, Repr

structure ChatRequest where
  prompt : String
  messages : List ChatMessage
deriving DecidableEq, Repr

structure ChatResponse where
  reply : String
  workerID : String
  gpuID : ℤ
deriving DecidableEq, Repr

/-- The last message of the user that is not empty stands in for a missing prompt. -/
def promptFromRequest (req : ChatRequest) : String :=
  if req.prompt ≠ "" then req.prompt
  else
    match req.messages.reverse.find? (fun msg => msg.role = "user" ∧ msg.content ≠ "") with
    | some msg => msg.content
    | none => ""

/-- `HandleChat` up to the point where it makes a job: the prompt, or the status and the text of its
    refusal. The body cannot be read (`error`), is not JSON (`none`), or is a request. -/
def readPrompt (post : Bool) (body : Except String (Option ChatRequest)) :
    Except (ℕ × String) String :=
  if post = false then .error (405, "method not allowed")
  else
    match body with
    | .error err => .error (400, err)
    | .ok none => .error (400, "invalid json")
    | .ok (some req) =>
        if promptFromRequest req = "" then .error (400, "prompt required")
        else .ok (promptFromRequest req)

/-- What an HTTP call comes back with: an error, or a reply with its body as text and decoded. -/
inductive HTTPResult (α : Type)
  | failed (err : String)
  | reply (statusCode : ℕ) (status raw : String) (decoded : Except String α)

/-- What `pickWorker` makes of the answer of the controller. -/
def pickWorker : HTTPResult (WorkerInfo υ) → Except String (WorkerInfo υ)
  | .failed err => .error err
  | .reply statusCode status _ decoded =>
      if statusCode ≠ 200 then .error ("controller: " ++ status) else decoded

/-- What `forwardToWorker` makes of the answer of the worker. -/
def forwardToWorker (w : WorkerInfo υ) : HTTPResult ChatResponse → Except String ChatResponse
  | .failed err => .error err
  | .reply statusCode status raw decoded =>
      if statusCode ≠ 200 then
        .error ("worker " ++ w.id ++ ": " ++ status ++ " (" ++ raw ++ ")")
      else decoded

/-! ## Jobs -/

abbrev JobResult := Except String ChatResponse

structure ClientJob where
  prompt : String
  resultCh : ℕ
deriving DecidableEq, Repr

structure DispatchJob (υ : Type) where
  prompt : String
  worker : WorkerInfo υ
  resultCh : ℕ

/-- Where a call of `HandleChat` is, from the point where it has its job. -/
inductive Phase
  | offering
  | overloaded
  | waiting
  | responded (res : JobResult)

/-- The status and the body that the user gets. -/
def Phase.response : Phase → Option (ℕ × Except String ChatResponse)
  | .offering => none
  | .waiting => none
  | .overloaded => some (503, .error "gateway overloaded")
  | .responded (.error err) => some (502, .error err)
  | .responded (.ok resp) => some (200, .ok resp)

/-- A call of `HandleChat` with its channel, which has room for one result. -/
structure Call where
  prompt : String
  phase : Phase
  buffer : Option JobResult
  sent : List JobResult

/-- The job of the call has been put into `connJobs`. -/
def Call.accepted (c : Call) : Bool :=
  match c.phase with
  | .offering => false
  | .overloaded => false
  | .waiting => true
  | .responded _ => true

/-- Where a goroutine `connWorker` is in its loop, and the job it holds. -/
inductive ConnWorker (υ : Type)
  | idle
  | picking (job : ClientJob)
  | offering (job : ClientJob) (winfo : WorkerInfo υ)
  | answering (job : ClientJob) (res : JobResult)

def ConnWorker.job : ConnWorker υ → Option ClientJob
  | .idle => none
  | .picking job => some job
  | .offering job _ => some job
  | .answering job _ => some job

/-- The same for a goroutine `dispatchWorker`. -/
inductive DispatchWorker (υ : Type)
  | idle
  | forwarding (job : DispatchJob υ)
  | answering (job : DispatchJob υ) (res : JobResult)

def DispatchWorker.job : DispatchWorker υ → Option (DispatchJob υ)
  | .idle => none
  | .forwarding job => some job
  | .answering job _ => some job

/-- A call of `forwardToWorker` that has returned: for which job, with which arguments, and what the
    worker has answered. -/
structure Forward (υ : Type) where
  resultCh : ℕ
  worker : WorkerInfo υ
  prompt : String
  reply : HTTPResult ChatResponse

/-! ## The gateway -/

structure Gateway (n m : ℕ) (υ : Type) where
  calls : List Call
  connJobs : List ClientJob
  conn : Fin n → ConnWorker υ
  dispatchJobs : List (DispatchJob υ)
  dispatch : Fin m → DispatchWorker υ
  forwards : List (Forward υ)

def connCapacity : ℕ := 256

def dispatchCapacity : ℕ := 1024

/-- A gateway that has just been started, with pools of `n` and `m` goroutines. -/
def Gateway.new (n m : ℕ) (υ : Type) : Gateway n m υ :=
  ⟨[], [], fun _ => .idle, [], fun _ => .idle, []⟩

/-- What can happen next. Each but the first is a step of the goroutine it names. -/
inductive Action (n m : ℕ) (υ : Type)
  | handleChat (post : Bool) (body : Except String (Option ChatRequest))
  | enqueue (k : ℕ)
  | overload (k : ℕ)
  | receive (k : ℕ)
  | connTake (i : Fin n)
  | connPick (i : Fin n) (reply : HTTPResult (WorkerInfo υ))
  | connOffer (i : Fin n)
  | connTimeout (i : Fin n)
  | connAnswer (i : Fin n)
  | dispatchTake (j : Fin m)
  | dispatchForward (j : Fin m) (reply : HTTPResult ChatResponse)
  | dispatchAnswer (j : Fin m)

namespace Gateway

/-- A write to the channel `k`; `none` when it has to wait. -/
def write (g : Gateway n m υ) (k : ℕ) (res : JobResult) : Option (Gateway n m υ) :=
  match g.calls[k]? with
  | none => none
  | some c =>
      if c.buffer.isSome then none
      else some { g with
        calls := g.calls.set k { c with buffer := some res, sent := c.sent ++ [res] } }

def setConn (g : Gateway n m υ) (i : Fin n) (w : ConnWorker υ) : Gateway n m υ :=
  { g with conn := Function.update g.conn i w }

def setDispatch (g : Gateway n m υ) (j : Fin m) (w : DispatchWorker υ) : Gateway n m υ :=
  { g with dispatch := Function.update g.dispatch j w }

/-- A new call of `HandleChat`, which is refused at once or makes a job and its channel. -/
def handleChat (g : Gateway n m υ) (post : Bool) (body : Except String (Option ChatRequest)) :
    Gateway n m υ :=
  match readPrompt post body with
  | .error _ => g
  | .ok prompt => { g with calls := g.calls ++ [⟨prompt, .offering, none, []⟩] }

/-- `g.connJobs <- job` in `HandleChat`. -/
def enqueue (g : Gateway n m υ) (k : ℕ) : Option (Gateway n m υ) :=
  match g.calls[k]? with
  | some ⟨prompt, .offering, buffer, sent⟩ =>
      if g.connJobs.length < connCapacity then
        some { g with
          calls := g.calls.set k ⟨prompt, .waiting, buffer, sent⟩
          connJobs := g.connJobs ++ [⟨prompt, k⟩] }
      else none
  | _ => none

/-- The timer of `HandleChat`. -/
def overload (g : Gateway n m υ) (k : ℕ) : Option (Gateway n m υ) :=
  match g.calls[k]? with
  | some ⟨prompt, .offering, buffer, sent⟩ =>
      some { g with calls := g.calls.set k ⟨prompt, .overloaded, buffer, sent⟩ }
  | _ => none

/-- `res := <-job.resultCh` in `HandleChat`, and the response to the user. -/
def receive (g : Gateway n m υ) (k : ℕ) : Option (Gateway n m υ) :=
  match g.calls[k]? with
  | some ⟨prompt, .waiting, some res, sent⟩ =>
      some { g with calls := g.calls.set k ⟨prompt, .responded res, none, sent⟩ }
  | _ => none

def connTake (g : Gateway n m υ) (i : Fin n) : Option (Gateway n m υ) :=
  match g.conn i, g.connJobs with
  | .idle, job :: rest => some { g.setConn i (.picking job) with connJobs := rest }
  | _, _ => none

/-- `pickWorker` returns. -/
def connPick (g : Gateway n m υ) (i : Fin n) (reply : HTTPResult (WorkerInfo υ)) :
    Option (Gateway n m υ) :=
  match g.conn i with
  | .picking job =>
      match pickWorker reply with
      | .error err => some (g.setConn i (.answering job (.error err)))
      | .ok winfo => some (g.setConn i (.offering job winfo))
  | _ => none

/-- `g.dispatchJobs <- djob` in `connWorker`. -/
def connOffer (g : Gateway n m υ) (i : Fin n) : Option (Gateway n m υ) :=
  match g.conn i with
  | .offering job winfo =>
      if g.dispatchJobs.length < dispatchCapacity then
        some { g.setConn i .idle with
          dispatchJobs := g.dispatchJobs ++ [⟨job.prompt, winfo, job.resultCh⟩] }
      else none
  | _ => none

/-- The timer of `connWorker`. -/
def connTimeout (g : Gateway n m υ) (i : Fin n) : Option (Gateway n m υ) :=
  match g.conn i with
  | .offering job _ => some (g.setConn i (.answering job (.error "dispatch queue full")))
  | _ => none

def connAnswer (g : Gateway n m υ) (i : Fin n) : Option (Gateway n m υ) :=
  match g.conn i with
  | .answering job res => (g.write job.resultCh res).map (fun g' => g'.setConn i .idle)
  | _ => none

def dispatchTake (g : Gateway n m υ) (j : Fin m) : Option (Gateway n m υ) :=
  match g.dispatch j, g.dispatchJobs with
  | .idle, job :: rest => some { g.setDispatch j (.forwarding job) with dispatchJobs := rest }
  | _, _ => none

/-- `forwardToWorker` returns. -/
def dispatchForward (g : Gateway n m υ) (j : Fin m) (reply : HTTPResult ChatResponse) :
    Option (Gateway n m υ) :=
  match g.dispatch j with
  | .forwarding job =>
      some { g.setDispatch j (.answering job (forwardToWorker job.worker reply)) with
        forwards := g.forwards ++ [⟨job.resultCh, job.worker, job.prompt, reply⟩] }
  | _ => none

def dispatchAnswer (g : Gateway n m υ) (j : Fin m) : Option (Gateway n m υ) :=
  match g.dispatch j with
  | .answering job res => (g.write job.resultCh res).map (fun g' => g'.setDispatch j .idle)
  | _ => none

def step (g : Gateway n m υ) : Action n m υ → Option (Gateway n m υ)
  | .handleChat post body => some (g.handleChat post body)
  | .enqueue k => g.enqueue k
  | .overload k => g.overload k
  | .receive k => g.receive k
  | .connTake i => g.connTake i
  | .connPick i reply => g.connPick i reply
  | .connOffer i => g.connOffer i
  | .connTimeout i => g.connTimeout i
  | .connAnswer i => g.connAnswer i
  | .dispatchTake j => g.dispatchTake j
  | .dispatchForward j reply => g.dispatchForward j reply
  | .dispatchAnswer j => g.dispatchAnswer j

end Gateway

/-! ## Places -/

/-- Where a job can be. -/
inductive Place (n m : ℕ)
  | connJobs
  | connWorker (i : Fin n)
  | dispatchJobs
  | dispatchWorker (j : Fin m)
  | answered
deriving DecidableEq, Repr

/-- The results that have been written to the channel `k`. -/
def Gateway.sent (g : Gateway n m υ) (k : ℕ) : List JobResult := g.calls[k]?.elim [] Call.sent

/-- All places where the job of the call `k` is, each as often as it is there: a job that is twice
    in a queue, or has had two results written, has that place twice. -/
def Gateway.places (g : Gateway n m υ) (k : ℕ) : List (Place n m) :=
  (g.connJobs.filter (fun job => job.resultCh = k)).map (fun _ => .connJobs) ++
  (Pool.holders (fun w : ConnWorker υ => w.job.any (fun job => job.resultCh = k)) g.conn).map
    .connWorker ++
  (g.dispatchJobs.filter (fun job => job.resultCh = k)).map (fun _ => .dispatchJobs) ++
  (Pool.holders (fun w : DispatchWorker υ => w.job.any (fun job => job.resultCh = k))
    g.dispatch).map .dispatchWorker ++
  (g.sent k).map (fun _ => .answered)

end Dataplane

end AiFS
