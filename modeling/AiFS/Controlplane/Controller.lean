import AiFS.Lib.Machine

set_option autoImplicit false

/-! # The controller

`controlplane/controller/controller.go` and `models/worker.go`. The controller keeps the ids of its
workers in memory, in `seen`, with the time at which it last heard of each in `lastseen`. The KV
store holds one record for each worker, and all ids of `seen` once more under `workers/index`, which
is written as a whole by every registration, every heartbeat and every round of the checker that
expires a worker. It is read only when `seen` is empty.

The steps of a run are what happens between one lock and the next, so that calls interleave as
goroutines do. A `Put` that fails may have been carried out or not (a request can be lost on its way
to the KV servers, or the answer on its way back); a `Put` or `Get` is otherwise done at once. What
the KV servers really promise to the controller's client is the subject of `AiFS.KV`.

A text in the KV store stands for what JSON makes of it, and the empty text for a missing key (`Get`
does not tell them apart). Utilizations are values of any linear order with `0` and `1000`. Go's
maps are lists here, whose order nothing depends on. `addToIndex` is never called and left out, as
are the HTTP handlers and the log. -/

namespace AiFS

namespace Controlplane

variable {υ : Type}

/-! ## Workers -/

inductive WorkerStatus
  | busy
  | idle
  | offline
  | other (text : String)
deriving DecidableEq, Repr

structure GPUInfo (υ : Type) where
  id : ℤ
  model : String
  memoryMB : ℤ
  utilization : υ
deriving DecidableEq, Repr

structure WorkerInfo (υ : Type) where
  id : String
  ip : String
  port : ℤ
  gpus : List (GPUInfo υ)
  status : WorkerStatus
deriving DecidableEq, Repr

/-- The key of the record of the worker `id`. -/
def recordKey (id : String) : String := "worker/" ++ id

def address (ip : String) (port : ℤ) : String := ip ++ ":" ++ toString port

namespace WorkerInfo

def workerKey (w : WorkerInfo υ) : String :=
  if w.id ≠ "" then recordKey w.id else recordKey (address w.ip w.port)

def ensureID (w : WorkerInfo υ) : WorkerInfo υ :=
  if w.id = "" then { w with id := address w.ip w.port } else w

end WorkerInfo

/-! ## The KV store -/

/-- A text that is not empty, by what it decodes to. -/
inductive Text (υ : Type)
  | ids (ids : List String)
  | worker (info : WorkerInfo υ)
  | other (text : String)
deriving DecidableEq, Repr

abbrev Store (υ : Type) := String → Option (Text υ)

/-- How a `Put` ends: it is acknowledged, or it fails and has not been, or has been carried out. -/
inductive PutResult
  | ok
  | lost
  | unacked
deriving DecidableEq, Repr

def Store.put (kv : Store υ) (key : String) (text : Text υ) : PutResult → Store υ
  | .lost => kv
  | .ok => Function.update kv key (some text)
  | .unacked => Function.update kv key (some text)

def workersIndexKey : String := "workers/index"

/-- The ids that the index names. -/
def Store.indexed (kv : Store υ) : List String :=
  match kv workersIndexKey with
  | some (.ids ids) => ids
  | _ => []

/-- `GetWorker` with the contents that its `Get` finds; `none` when that fails. -/
def getWorker (kv : Option (Store υ)) (id : String) : Option (WorkerInfo υ) :=
  match kv with
  | none => none
  | some kv =>
      match kv (recordKey id) with
      | some (.worker info) => some info
      | _ => none

/-! ## The memory of the controller -/

structure Controller where
  seen : List String
  lastseen : List (String × ℤ)
deriving DecidableEq, Repr

namespace Controller

def new : Controller := ⟨[], []⟩

def idsLocked (c : Controller) : List String := c.seen

def saveIndexLocked (c : Controller) (kv : Store υ) (r : PutResult) : Store υ :=
  kv.put workersIndexKey (.ids c.idsLocked) r

/-- `c.seen[id] = struct{}{}` and `c.lastseen[id] = now`. -/
def mark (c : Controller) (id : String) (now : ℤ) : Controller where
  seen := c.seen.insert id
  lastseen := (id, now) :: c.lastseen.filter (fun e => e.1 ≠ id)

/-- The workers that the checker finds silent for longer than the timeout. `clock id` is the time
    at which it looks at `id`. -/
def expired (c : Controller) (clock : String → ℤ) (timeout : ℤ) : List String :=
  (c.lastseen.filter (fun e => timeout < clock e.1 - e.2)).map Prod.fst

def expire (c : Controller) (clock : String → ℤ) (timeout : ℤ) : Controller where
  seen := c.seen.filter (fun id => id ∉ c.expired clock timeout)
  lastseen := c.lastseen.filter (fun e => e.1 ∉ c.expired clock timeout)

end Controller

/-! ## Scheduling -/

section Scheduling

variable [LinearOrder υ] [Zero υ] [OfNat υ 1000]

def workerLoadScore (w : WorkerInfo υ) : υ :=
  if w.status = WorkerStatus.busy then 1000
  else w.gpus.foldl (fun maxUtil g => if maxUtil < g.utilization then g.utilization else maxUtil) 0

/-- One round of the loop of `pickLowestLoadWorker`: the best worker so far and its score. -/
def pickLowestLoadStep (seen : List String) (requireSeen : Bool) (best : Option (WorkerInfo υ × υ))
    (w : WorkerInfo υ) : Option (WorkerInfo υ × υ) :=
  if requireSeen ∧ w.id ∉ seen then best
  else if w.status = WorkerStatus.offline then best
  else
    match best with
    | none => some (w, workerLoadScore w)
    | some (b, bestScore) =>
        if workerLoadScore w < bestScore then some (w, workerLoadScore w) else some (b, bestScore)

def pickLowestLoadWorker (workers : List (WorkerInfo υ)) (seen : List String)
    (requireSeen : Bool) : Option (WorkerInfo υ) :=
  (workers.foldl (pickLowestLoadStep seen requireSeen) none).map Prod.fst

end Scheduling

/-! ## Steps -/

/-- Why `PickBestWorker` fails: with the error of `ListWorkers`, or with one of its own. -/
inductive PickError
  | listing
  | noAvailableWorker
deriving DecidableEq, Repr

/-- The KV store, the controller, and the calls of `RegisterWorker` that have written the record of
    their worker and wait for the lock. -/
structure State (υ : Type) where
  kv : Store υ
  ctl : Controller
  registering : List (WorkerInfo υ)

namespace State

/-- A controller that has just been started, on the contents `kv`. -/
def new (kv : Store υ) : State υ := ⟨kv, .new, []⟩

/-- `RegisterWorker` up to its lock. -/
def registerPut (s : State υ) (info : WorkerInfo υ) (r : PutResult) : State υ :=
  { s with
    kv := s.kv.put info.ensureID.workerKey (.worker info.ensureID) r
    registering := if r = PutResult.ok then s.registering ++ [info.ensureID] else s.registering }

/-- What `RegisterWorker` and `Heartbeat` do under the lock. -/
def markLocked (s : State υ) (id : String) (now : ℤ) (r : PutResult) : State υ :=
  { s with
    ctl := s.ctl.mark id now
    kv := (s.ctl.mark id now).saveIndexLocked s.kv r }

/-- `RegisterWorker` from its lock on, for the call `k` of those that wait. -/
def registerMark (s : State υ) (k : ℕ) (now : ℤ) (r : PutResult) : Option (State υ) :=
  match s.registering[k]? with
  | none => none
  | some info => some { s.markLocked info.id now r with registering := s.registering.eraseIdx k }

def heartbeat (s : State υ) (info : WorkerInfo υ) (now : ℤ) (r : PutResult) : State υ :=
  s.markLocked info.id now r

/-- One round of `startHeartbeatChecker`. The result of the `Put` is not looked at. -/
def tick (s : State υ) (clock : String → ℤ) (timeout : ℤ) (r : PutResult) : State υ :=
  let ctl := s.ctl.expire clock timeout
  { s with
    ctl := ctl
    kv := if s.ctl.expired clock timeout = [] then s.kv else ctl.saveIndexLocked s.kv r }

/-- `loadIndex`; `ok` is whether its `Get` succeeds. The result is `none` for an error. -/
def loadIndex (s : State υ) (ok : Bool) : State υ × Option (List String) :=
  if s.ctl.seen ≠ [] then (s, some s.ctl.idsLocked)
  else if ok = false then (s, none)
  else
    match s.kv workersIndexKey with
    | none => (s, some [])
    | some (.ids ids) => ({ s with ctl := { s.ctl with seen := ids.dedup } }, some ids)
    | some _ => (s, none)

/-- `ListWorkers`. The records are read one after the other, outside of the lock: `reads id` are the
    contents of the KV store that the `Get` for `id` finds, `none` when it fails. -/
def listWorkers (s : State υ) (ok : Bool) (reads : String → Option (Store υ)) :
    State υ × Option (List (WorkerInfo υ)) :=
  ((s.loadIndex ok).1,
    (s.loadIndex ok).2.map (fun ids => ids.filterMap (fun id => getWorker (reads id) id)))

/-- `PickBestWorker`, when nothing else happens between its two locks. -/
def pickBestWorker [LinearOrder υ] [Zero υ] [OfNat υ 1000] (s : State υ) (ok : Bool)
    (reads : String → Option (Store υ)) : State υ × Except PickError (WorkerInfo υ) :=
  match s.listWorkers ok reads with
  | (s', none) => (s', .error .listing)
  | (s', some workers) =>
      match pickLowestLoadWorker workers s'.ctl.seen true with
      | some best => (s', .ok best)
      | none =>
          match pickLowestLoadWorker workers [] false with
          | some best => (s', .ok best)
          | none => (s', .error .noAvailableWorker)

end State

/-- What can happen next. `loadIndex` stands for `ListWorkers` and for `PickBestWorker`, which do
    nothing else to the state (`listWorkers_state`, `pickBestWorker_state`). -/
inductive Action (υ : Type)
  | registerPut (info : WorkerInfo υ) (r : PutResult)
  | registerMark (k : ℕ) (now : ℤ) (r : PutResult)
  | heartbeat (info : WorkerInfo υ) (now : ℤ) (r : PutResult)
  | tick (clock : String → ℤ) (timeout : ℤ) (r : PutResult)
  | loadIndex (ok : Bool)
  | restart

def State.step (s : State υ) : Action υ → Option (State υ)
  | .registerPut info r => some (s.registerPut info r)
  | .registerMark k now r => s.registerMark k now r
  | .heartbeat info now r => some (s.heartbeat info now r)
  | .tick clock timeout r => some (s.tick clock timeout r)
  | .loadIndex ok => some (s.loadIndex ok).1
  | .restart => some (.new s.kv)

/-- The worker that a step hears of, and when: the locked part of a registration or a heartbeat. -/
def State.hears (s : State υ) : Action υ → Option (String × ℤ)
  | .registerMark k now _ => s.registering[k]?.map (fun info => (info.id, now))
  | .heartbeat info now _ => some (info.id, now)
  | _ => none

end Controlplane

end AiFS
