import AiFS.Dataplane.Gateway

set_option autoImplicit false

/-! # The inference pool of a worker

`worker/pool.go`: a call of `Submit` puts a task into the queue and waits at the channel `Done` that
the task carries; one of the goroutines `gpuLoop` takes the task, runs the backend on its prompt and
writes the result to the channel.

As in the gateway, a goroutine makes a step where it can be held up or another one can come in
between, and the call `k` of `Submit` makes the channel `k`. Its context can be cancelled at any
time, before the task is in the queue or after (`cancel`); a nil context, for which `Submit` takes
one that is never cancelled, is one for which this step is not taken. What the backend returns is
part of the action, and may depend on the prompt, on the context and on anything else.

`takenBy`, `sent` and `generated` are history: who has taken the task of a call from the queue, what
has been written to its channel, and the calls of the backend that have returned. -/

namespace AiFS

namespace Worker

open Dataplane (ChatResponse)

variable {n : ℕ}

/-! ## Tasks -/

structure Task where
  id : String
  prompt : String
  done : ℕ
deriving DecidableEq, Repr

structure TaskResult where
  response : ChatResponse
  err : Option String
deriving DecidableEq, Repr

/-- Where a call of `Submit` is. `queued` tells whether the task was in the queue when the context
    was cancelled. -/
inductive Phase
  | offering
  | queueFull
  | waiting
  | cancelled (queued : Bool) (err : String)
  | returned (result : TaskResult)
deriving DecidableEq, Repr

/-- What `Submit` returns. -/
def Phase.result : Phase → Option (ChatResponse × Option String)
  | .offering => none
  | .waiting => none
  | .queueFull => some (⟨"", "", 0⟩, some "queue full, enqueue timeout")
  | .cancelled _ err => some (⟨"", "", 0⟩, some err)
  | .returned result => some (result.response, result.err)

/-- A call of `Submit` with its channel, which has room for one result. -/
structure Submission (n : ℕ) where
  prompt : String
  ctxErr : Option String
  phase : Phase
  buffer : Option TaskResult
  takenBy : List (Fin n)
  sent : List TaskResult

/-- The task of the call has been put into the queue. -/
def Submission.queued (c : Submission n) : Bool :=
  match c.phase with
  | .offering => false
  | .queueFull => false
  | .waiting => true
  | .cancelled queued _ => queued
  | .returned _ => true

/-- Where a goroutine `gpuLoop` is in its loop, and the task it holds. -/
inductive Consumer
  | idle
  | generating (task : Task)
  | answering (task : Task) (result : TaskResult)

def Consumer.task : Consumer → Option Task
  | .idle => none
  | .generating task => some task
  | .answering task _ => some task

/-- A call of the backend that has returned. -/
structure Generation (n : ℕ) where
  gpuID : Fin n
  done : ℕ
  prompt : String
  response : ChatResponse
  err : Option String

/-! ## The pool -/

structure Pool (n : ℕ) where
  workerID : String
  submissions : List (Submission n)
  queue : List Task
  gpus : Fin n → Consumer
  generated : List (Generation n)

def defaultQueueCap : ℕ := 1024

/-- The number of consumers that `NewPool` starts. -/
def gpuConsumers (gpuCount : ℤ) : ℕ := if gpuCount < 1 then 1 else gpuCount.toNat

def newPool (workerID : String) (gpuCount : ℤ) : Pool (gpuConsumers gpuCount) :=
  ⟨workerID, [], [], fun _ => .idle, []⟩

/-- What can happen next. Each but the first two is a step of the goroutine it names. -/
inductive Action (n : ℕ)
  | submit (prompt : String)
  | cancel (k : ℕ) (err : String)
  | enqueue (k : ℕ)
  | timeout (k : ℕ)
  | abort (k : ℕ)
  | receive (k : ℕ)
  | take (gpuID : Fin n)
  | generate (gpuID : Fin n) (response : ChatResponse) (err : Option String)
  | answer (gpuID : Fin n)

/-- The steps of `gpuLoop`. -/
def Action.ofGpu : Action n → Bool
  | .take _ => true
  | .generate .. => true
  | .answer _ => true
  | _ => false

namespace Pool

def submit (p : Pool n) (prompt : String) : Pool n :=
  { p with submissions := p.submissions ++ [⟨prompt, none, .offering, none, [], []⟩] }

/-- The task of the call `k`, whose number is `k + 1`. -/
def task (p : Pool n) (k : ℕ) (c : Submission n) : Task :=
  ⟨p.workerID ++ "-" ++ toString (k + 1), c.prompt, k⟩

/-- The context of the call `k` is cancelled, with the error that `ctx.Err()` returns from then
    on. -/
def cancel (p : Pool n) (k : ℕ) (err : String) : Option (Pool n) :=
  match p.submissions[k]? with
  | some c =>
      if c.ctxErr = none then
        some { p with submissions := p.submissions.set k { c with ctxErr := some err } }
      else none
  | none => none

/-- `p.queue <- task` in `Submit`. -/
def enqueue (p : Pool n) (k : ℕ) : Option (Pool n) :=
  match p.submissions[k]? with
  | some c =>
      if c.phase = .offering ∧ p.queue.length < defaultQueueCap then
        some { p with
          submissions := p.submissions.set k { c with phase := .waiting }
          queue := p.queue ++ [p.task k c] }
      else none
  | none => none

/-- The timer of `Submit`. -/
def timeout (p : Pool n) (k : ℕ) : Option (Pool n) :=
  match p.submissions[k]? with
  | some c =>
      if c.phase = .offering then
        some { p with submissions := p.submissions.set k { c with phase := .queueFull } }
      else none
  | none => none

/-- `<-ctx.Done()` in either of the two selects of `Submit`. -/
def abort (p : Pool n) (k : ℕ) : Option (Pool n) :=
  match p.submissions[k]? with
  | some c =>
      match c.ctxErr with
      | none => none
      | some err =>
          if c.phase = .offering ∨ c.phase = .waiting then
            some { p with
              submissions := p.submissions.set k { c with phase := .cancelled c.queued err } }
          else none
  | none => none

/-- `result := <-task.Done` in `Submit`. -/
def receive (p : Pool n) (k : ℕ) : Option (Pool n) :=
  match p.submissions[k]? with
  | some c =>
      match c.buffer with
      | none => none
      | some result =>
          if c.phase = .waiting then
            some { p with
              submissions := p.submissions.set k
                { c with phase := .returned result, buffer := none } }
          else none
  | none => none

def setGpu (p : Pool n) (gpuID : Fin n) (w : Consumer) : Pool n :=
  { p with gpus := Function.update p.gpus gpuID w }

/-- `task := range p.queue` in `gpuLoop`. -/
def take (p : Pool n) (gpuID : Fin n) : Option (Pool n) :=
  match p.gpus gpuID, p.queue with
  | .idle, task :: rest =>
      some { p.setGpu gpuID (.generating task) with
        queue := rest
        submissions := p.submissions.modify task.done
          (fun c => { c with takenBy := c.takenBy ++ [gpuID] }) }
  | _, _ => none

/-- What `gpuLoop` makes of the response of the backend. -/
def finish (p : Pool n) (gpuID : Fin n) (response : ChatResponse) : ChatResponse :=
  { response with
    workerID := if response.workerID = "" then p.workerID else response.workerID
    gpuID := gpuID.val }

/-- `p.backend.Generate(task.Ctx, task.Prompt)` returns. -/
def generate (p : Pool n) (gpuID : Fin n) (response : ChatResponse) (err : Option String) :
    Option (Pool n) :=
  match p.gpus gpuID with
  | .generating task =>
      some { p.setGpu gpuID (.answering task ⟨p.finish gpuID response, err⟩) with
        generated := p.generated ++ [⟨gpuID, task.done, task.prompt, response, err⟩] }
  | _ => none

/-- `task.Done <- taskResult{...}`; `none` when it has to wait. -/
def answer (p : Pool n) (gpuID : Fin n) : Option (Pool n) :=
  match p.gpus gpuID with
  | .answering task result =>
      match p.submissions[task.done]? with
      | some c =>
          if c.buffer.isSome then none
          else some { p.setGpu gpuID .idle with
            submissions := p.submissions.set task.done
              { c with buffer := some result, sent := c.sent ++ [result] } }
      | none => none
  | _ => none

def step (p : Pool n) : Action n → Option (Pool n)
  | .submit prompt => some (p.submit prompt)
  | .cancel k err => p.cancel k err
  | .enqueue k => p.enqueue k
  | .timeout k => p.timeout k
  | .abort k => p.abort k
  | .receive k => p.receive k
  | .take gpuID => p.take gpuID
  | .generate gpuID response err => p.generate gpuID response err
  | .answer gpuID => p.answer gpuID

end Pool

end Worker

end AiFS
