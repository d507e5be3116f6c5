import AiFS.KV.ServersLedger
import AiFS.Porcupine.KvModel

set_option autoImplicit false

/-! # Clerks

`kvraft/client.go`: any number of clerks on top of the servers, and the history that `Get`, `Put`
and `Append` of `kvraft/test_test.go` write down for the checker. A method of a clerk takes a number
under the lock and then calls one server after the other until one of them answers with `OK`, or
with `ErrNoKey` to a `Get`. Only `ErrWrongLeader`, `ErrTimeOut` and a lost call make it go on to the
next server; with any other error, the empty one of a killed server among them, it calls the same
server again.

A call of `labrpc` brings its request to the server at most once, and it may fail at any time, also
while the handler is running. Nobody but the clerks uses the servers. Times are numbers of steps,
and `begun` and `ended`, how far the furthest server has got in the log when a method is called and
when it returns, are history that nothing reads. -/

namespace AiFS

namespace KV

open Porcupine (KvInput KvOperation)

variable {n : ℕ}

/-! ## The clerk -/

structure Clerk (n : ℕ) where
  servers : List (Fin n)
  currLeader : ℕ
  clientId : ℤ
  seqId : ℤ

namespace Clerk

/-- `clientId` is what `nrand` returned. -/
def makeClerk (servers : List (Fin n)) (clientId : ℤ) : Clerk n where
  servers := servers
  currLeader := 0
  clientId := clientId
  seqId := 0

def rotate (ck : Clerk n) : Clerk n :=
  { ck with currLeader := (ck.currLeader + 1) % ck.servers.length }

end Clerk

/-- The methods of a clerk; `Put` and `Append` are `PutAppend` with the name of the operation. -/
inductive Method
  | get (key : String)
  | putAppend (key value : String) (append : Bool)
deriving DecidableEq, Repr

/-- What the loop of a method does next: it returns, it goes on with the next server, or it calls
    the same one again. -/
inductive Next
  | done (value : String)
  | rotate
  | again
deriving DecidableEq, Repr

namespace Method

/-- The operation that a server starts for a method with this number. -/
def op (clientId unum : ℤ) : Method → Op
  | .get key => { type := .get, key := key, value := "", seqId := unum, clientId := clientId }
  | .putAppend key value append =>
      { type := if append then .append else .put, key := key, value := value, seqId := unum,
        clientId := clientId }

/-- The `switch` on the error of a reply. -/
def next (value : String) : Method → Err → Next
  | _, .errWrongLeader => .rotate
  | _, .errTimeOut => .rotate
  | .get _, .errNoKey => .done ""
  | .get _, .ok => .done value
  | .putAppend .., .ok => .done ""
  | _, _ => .again

/-- What the test writes down as the input of the method. -/
def input : Method → KvInput
  | .get key => { op := 0, key := key, value := "" }
  | .putAppend key value append => { op := if append then 2 else 1, key := key, value := value }

end Method

/-! ## Calls -/

/-- A call of `labrpc`: under way to a server, or served by a handler. -/
inductive Rpc (n : ℕ)
  | sent (server : Fin n)
  | serving (h : ℕ)
deriving DecidableEq, Repr

structure Returned where
  value : String
  time : ℕ
  ended : ℕ
deriving DecidableEq, Repr

/-- A call of a method: the call of `labrpc` it waits for, and what it has returned. -/
structure ClerkCall (n : ℕ) where
  clerk : ℕ
  clientId : ℤ
  method : Method
  unum : ℤ
  called : ℕ
  begun : ℕ
  rpc : Option (Rpc n)
  returned : Option Returned
deriving DecidableEq, Repr

namespace ClerkCall

def op (call : ClerkCall n) : Op :=
  call.method.op call.clientId call.unum

/-- What the test writes down for a call that returned a value at a time. -/
def operation (call : ClerkCall n) (value : String) (time : ℕ) : KvOperation where
  clientId := call.clerk
  input := call.method.input
  call := call.called
  output := ⟨value⟩
  ret := time

end ClerkCall

/-! ## The clerks and the servers -/

structure Clerks (n : ℕ) where
  service : Servers n
  clerks : List (Clerk n)
  calls : List (ClerkCall n)
  clock : ℕ

/-- What can happen next: a method of a clerk is called, a method calls a server, its request
    arrives, it gets the reply or none, or something happens at the servers. -/
inductive ClerkAct (n : ℕ)
  | invoke (c : ℕ) (method : Method)
  | send (k : ℕ)
  | arrive (k : ℕ)
  | reply (k : ℕ)
  | fail (k : ℕ)
  | service (ev : Event n)

namespace Clerks

variable (codec : Codec)

def init (clerks : List (List (Fin n) × ℤ)) : Clerks n where
  service := Servers.init codec n
  clerks := clerks.map fun ck => Clerk.makeClerk ck.1 ck.2
  calls := []
  clock := 0

def setCall (w : Clerks n) (k : ℕ) (f : ClerkCall n → ClerkCall n) : Clerks n :=
  { w with calls := w.calls.modify k f }

/-- A method waits for a call of `labrpc`, or for none. -/
def setRpc (w : Clerks n) (k : ℕ) (rpc : Option (Rpc n)) : Clerks n :=
  w.setCall k fun call => { call with rpc := rpc }

/-- A method goes on with the next server. -/
def rotate (w : Clerks n) (k c : ℕ) : Clerks n :=
  { w.setRpc k none with clerks := w.clerks.modify c Clerk.rotate }

/-- A method returns. -/
def finish (w : Clerks n) (k : ℕ) (value : String) : Clerks n :=
  w.setCall k fun call =>
    { call with
      rpc := none
      returned := some { value := value, time := w.clock, ended := w.service.applied } }

def invoke (w : Clerks n) (c : ℕ) (ck : Clerk n) (method : Method) : Clerks n :=
  { w with
    clerks := w.clerks.modify c fun ck => { ck with seqId := ck.seqId + 1 }
    calls := w.calls ++
      [{ clerk := c, clientId := ck.clientId, method := method, unum := ck.seqId,
         called := w.clock, begun := w.service.applied, rpc := none, returned := none }] }

/-- A request reaches its server, and a handler takes it. -/
def arrive (w : Clerks n) (k : ℕ) (s : Fin n) (op : Op) : Clerks n :=
  { w.setRpc k (some (.serving w.service.waiters.handlers.length)) with
    service := w.service.call s op false }

/-- What a method does with a reply. -/
def receive (w : Clerks n) (k : ℕ) (call : ClerkCall n) (reply : OpReply) : Clerks n :=
  match call.method.next reply.value reply.err with
  | .done value => w.finish k value
  | .rotate => w.rotate k call.clerk
  | .again => w.setRpc k none

/-- What a handler has left in its reply. -/
def answer (w : Clerks n) (h : ℕ) : Option OpReply :=
  match w.service.waiters.handlers[h]? with
  | some ⟨_, _, _, _, _, .answered reply⟩ => some reply
  | _ => none

/-- Nobody else calls a handler. -/
def admits : Event n → Bool
  | .post .. => false
  | .rpc .. => false
  | _ => true

def act (w : Clerks n) : ClerkAct n → Option (Clerks n)
  | .invoke c method =>
      match w.clerks[c]? with
      | none => none
      | some ck => some (w.invoke c ck method)
  | .send k =>
      match w.calls[k]? with
      | none => none
      | some call =>
          if call.returned = none ∧ call.rpc = none then
            match w.clerks[call.clerk]? with
            | none => none
            | some ck =>
                match ck.servers[ck.currLeader]? with
                | none => none
                | some server => some (w.setRpc k (some (.sent server)))
          else none
  | .arrive k =>
      match w.calls[k]? with
      | none => none
      | some call =>
          match call.rpc with
          | some (.sent s) => some (w.arrive k s call.op)
          | _ => none
  | .reply k =>
      match w.calls[k]? with
      | none => none
      | some call =>
          match call.rpc with
          | some (.serving h) =>
              match w.answer h with
              | none => none
              | some reply => some (w.receive k call reply)
          | _ => none
  | .fail k =>
      match w.calls[k]? with
      | none => none
      | some call =>
          match call.rpc with
          | some _ => some (w.rotate k call.clerk)
          | none => none
  | .service ev =>
      if admits ev then
        match w.service.step codec ev with
        | none => none
        | some v => some { w with service := v }
      else none

def step (w : Clerks n) (a : ClerkAct n) : Option (Clerks n) :=
  (w.act codec a).map fun w => { w with clock := w.clock + 1 }

/-! ## Histories -/

/-- What the test has written down: the calls that have returned. -/
def history (w : Clerks n) : List KvOperation :=
  w.calls.filterMap fun call => call.returned.map fun r => call.operation r.value r.time

/-- The calls that have not returned but take effect, with the value they are to return. -/
def pending (w : Clerks n) (value : ClerkCall n → Option String) : List KvOperation :=
  w.calls.filterMap fun call =>
    if call.returned = none then (value call).map fun v => call.operation v w.clock else none

/-- How the clerks are to be used: one call at a time, and no handler calls `Start` when its call
    has returned. (`labrpc` gives up on a handler that is running only when its server was deleted,
    whose `Start` reaches nobody any more, or when the clerk was disconnected from it.) -/
def Proper (w : Clerks n) : ClerkAct n → Prop
  | .invoke c _ => ∀ call ∈ w.calls, call.clerk = c → call.returned ≠ none
  | .service (.happens (.enter h)) => ∀ x ∈ w.service.waiters.handlers[h]?,
      (w.service.state x.server).seen x.op = none →
      ∃ call ∈ w.calls, call.op = x.op ∧ call.returned = none
  | _ => True

instance (w : Clerks n) : ∀ a, Decidable (w.Proper a)
  | .invoke c _ =>
      inferInstanceAs (Decidable (∀ call ∈ w.calls, call.clerk = c → call.returned ≠ none))
  | .service (.happens (.enter h)) =>
      inferInstanceAs (Decidable (∀ x ∈ w.service.waiters.handlers[h]?,
        (w.service.state x.server).seen x.op = none →
        ∃ call ∈ w.calls, call.op = x.op ∧ call.returned = none))
  | .send _ | .arrive _ | .reply _ | .fail _ | .service (.post ..) | .service (.rpc ..)
  | .service (.refuse _) | .service (.kill _) | .service (.happens (.replicas _))
  | .service (.happens (.call ..)) | .service (.happens (.refuse _))
  | .service (.happens (.register _)) | .service (.happens (.wake _))
  | .service (.happens (.timeout _)) | .service (.happens (.getState _))
  | .service (.happens (.finish _)) | .service (.happens (.notify _)) => isTrue trivial

/-- The conditions on the servers. -/
def Lawful (w : Clerks n) : ClerkAct n → Prop
  | .service ev => w.service.Lawful codec ev
  | _ => True

end Clerks

end KV

end AiFS
