import AiFS.Lib.Components

set_option autoImplicit false

/-! # The network

`labrpc/labrpc.go`: the simulated network that carries every call between clerks, servers and their
peers. A `Call` is sent to the goroutine of `MakeNetwork`, which starts a goroutine for it
(`processReq`); this one looks up where the end of the caller leads, starts another goroutine for
the handler of the server, and waits for it, while it looks every 100 ms whether the server has been
deleted or the end disabled. The handler runs on even if nobody waits for it any more.

Everything that happens to one call between two points at which another goroutine can get in between
is an `Event`, and `Network.advance` is what it makes of the call. Sleeps and timers may take any
time: the delays that `LongDelays` and `LongReordering` ask for are among them. `rand` decides with
the flag `drop` whether an unreliable network loses a message.

A server is known by its address, since `isServerDead` compares pointers: a server that was deleted
and added again under its name is another one. A handler may return any reply, or never return.
`none` stands for the end of the whole program, by `log.Fatalf` or by a panic. -/

namespace AiFS

namespace LabRpc

/-! ## Servers and services -/

/-- What `MakeService` looks at in a method of its receiver. -/
structure Method where
  name : List Char
  exported : Bool
  numIn : ℕ
  replyIsPtr : Bool
  numOut : ℕ
deriving DecidableEq, Repr

/-- The method looks like a handler. -/
def Method.suitable (m : Method) : Bool :=
  m.exported && m.numIn == 3 && m.replyIsPtr && m.numOut == 0

structure Service where
  name : List Char
  methods : List (List Char)
deriving DecidableEq, Repr

def makeService (name : List Char) (methods : List Method) : Service where
  name := name
  methods := (methods.filter Method.suitable).map Method.name

structure Server where
  services : List Char → Option Service
  count : ℕ

/-- Service and method of `svcMeth`, which are separated by its last dot. Without a dot the slice
    expression panics. -/
def splitMeth : List Char → Option (List Char × List Char)
  | [] => none
  | c :: cs =>
      match splitMeth cs with
      | some (service, meth) => some (c :: service, meth)
      | none => if c = '.' then some ([], cs) else none

namespace Server

def makeServer : Server where
  services := fun _ => none
  count := 0

def addService (rs : Server) (svc : Service) : Server :=
  { rs with services := Function.update rs.services svc.name (some svc) }

/-- Up to the call of the method. -/
def dispatch (rs : Server) (svcMeth : List Char) : Option Server :=
  match splitMeth svcMeth with
  | none => none
  | some (serviceName, methodName) =>
      match rs.services serviceName with
      | none => none
      | some svc =>
          if methodName ∈ svc.methods then some { rs with count := rs.count + 1 } else none

end Server

/-! ## Calls -/

/-- What `readEndnameInfo` returned: a server's name, its address, and `reliable`. -/
structure Info (ν : Type) where
  servername : ν
  server : ℕ
  reliable : Bool
deriving DecidableEq, Repr

/-- How far a call has got. `leaving` is behind the loop of `processReq`, with the reply if there is
    one; a call that is `answering` is bound to get its reply, or none, on `replyCh`. -/
inductive Stage (ν : Type)
  | sending
  | accepted
  | delayed (info : Info ν)
  | serving (info : Info ν)
  | leaving (info : Info ν) (reply : Option (List UInt8))
  | answering (reply : Option (List UInt8))
  | returned (reply : Option (List UInt8))
deriving DecidableEq, Repr

/-- The goroutine that calls the handler: it ends when somebody has taken its reply off `ech`. -/
inductive Progress
  | spawned
  | running
  | finished (reply : List UInt8)
  | ended
deriving DecidableEq, Repr

structure Handler where
  server : ℕ
  progress : Progress
deriving DecidableEq, Repr

structure Call (ε ν : Type) where
  endname : ε
  svcMeth : List Char
  args : List UInt8
  stage : Stage ν
  handler : Option Handler
deriving DecidableEq, Repr

def Call.new {ε ν : Type} (endname : ε) (svcMeth : List Char) (args : List UInt8) : Call ε ν where
  endname := endname
  svcMeth := svcMeth
  args := args
  stage := .sending
  handler := none

/-- What can happen to a call: it returns since the network is gone, its request is received,
    `readEndnameInfo`, the request gets through or not, its handler is called and returns, the reply
    is taken off `ech`, the timer goes off, a reply that nobody waits for is taken, the last
    `isServerDead`, and the reply arrives. -/
inductive Event
  | refuse
  | accept
  | read
  | pass (drop : Bool)
  | dispatch
  | finish (reply : List UInt8)
  | take
  | poll
  | drain
  | leave (drop : Bool)
  | answer
deriving DecidableEq, Repr

/-! ## The network -/

structure Network (ε ν : Type) where
  reliable : Bool
  ends : ε → Bool
  enabled : ε → Bool
  servers : ν → Option ℕ
  connections : ε → Option ν
  done : Bool
  listening : Bool
  count : ℕ
  bytes : ℕ
  heap : List Server
  calls : List (Call ε ν)

inductive Action (ε ν : Type)
  | makeServer
  | addService (server : ℕ) (svc : Service)
  | makeEnd (endname : ε)
  | addServer (servername : ν) (server : ℕ)
  | deleteServer (servername : ν)
  | connect (endname : ε) (servername : ν)
  | enable (endname : ε) (enabled : Bool)
  | setReliable (yes : Bool)
  | cleanup
  | stop
  | call (endname : ε) (svcMeth : List Char) (args : List UInt8)
  | own (k : ℕ) (ev : Event)
deriving DecidableEq, Repr

/-- The event of call `k` that an action is. -/
def Action.mine {ε ν : Type} (k : ℕ) : Action ε ν → Option Event
  | .own j ev => if k = j then some ev else none
  | _ => none

namespace Network

def makeNetwork (ε ν : Type) : Network ε ν where
  reliable := true
  ends := fun _ => false
  enabled := fun _ => false
  servers := fun _ => none
  connections := fun _ => none
  done := false
  listening := true
  count := 0
  bytes := 0
  heap := []
  calls := []

variable {ε ν : Type} [DecidableEq ν]

/-- `none` if the end is disabled, not connected, or connected to a server that is not there. -/
def readEndnameInfo (rn : Network ε ν) (endname : ε) : Option (Info ν) :=
  if rn.enabled endname then
    match rn.connections endname with
    | none => none
    | some servername =>
        (rn.servers servername).map fun server => ⟨servername, server, rn.reliable⟩
  else none

def isServerDead (rn : Network ε ν) (endname : ε) (servername : ν) (server : ℕ) : Bool :=
  !rn.enabled endname || rn.servers servername != some server

/-- What an event makes of a call. -/
def advance (call : Call ε ν) : Network ε ν × Event → Option (Call ε ν)
  | (rn, .refuse) =>
      if call.stage = .sending ∧ rn.done then some { call with stage := .returned none } else none
  | (rn, .accept) =>
      if call.stage = .sending ∧ rn.listening then some { call with stage := .accepted } else none
  | (rn, .read) =>
      if call.stage = .accepted then
        match rn.readEndnameInfo call.endname with
        | none => some { call with stage := .answering none }
        | some info => some { call with stage := .delayed info }
      else none
  | (_, .pass drop) =>
      match call.stage with
      | .delayed info =>
          if drop then
            if info.reliable then none else some { call with stage := .answering none }
          else
            some { call with
              stage := .serving info, handler := some ⟨info.server, .spawned⟩ }
      | _ => none
  | (_, .dispatch) =>
      match call.handler with
      | some ⟨server, .spawned⟩ => some { call with handler := some ⟨server, .running⟩ }
      | _ => none
  | (_, .finish reply) =>
      match call.handler with
      | some ⟨server, .running⟩ => some { call with handler := some ⟨server, .finished reply⟩ }
      | _ => none
  | (_, .take) =>
      match call.stage, call.handler with
      | .serving info, some ⟨server, .finished reply⟩ =>
          some { call with stage := .leaving info (some reply), handler := some ⟨server, .ended⟩ }
      | _, _ => none
  | (rn, .poll) =>
      match call.stage with
      | .serving info =>
          if rn.isServerDead call.endname info.servername info.server then
            some { call with stage := .leaving info none }
          else some call
      | _ => none
  | (_, .drain) =>
      match call.stage, call.handler with
      | .serving _, _ => none
      | _, some ⟨server, .finished _⟩ => some { call with handler := some ⟨server, .ended⟩ }
      | _, _ => none
  | (rn, .leave drop) =>
      match call.stage with
      | .leaving info reply =>
          if reply = none ∨ rn.isServerDead call.endname info.servername info.server then
            some { call with stage := .answering none }
          else if drop then
            if info.reliable then none else some { call with stage := .answering none }
          else some { call with stage := .answering reply }
      | _ => none
  | (_, .answer) =>
      match call.stage with
      | .answering reply => some { call with stage := .returned reply }
      | _ => none

/-- What an event of a call does to the rest: the statistics of the network, and the count of the
    server whose handler is called. -/
def account (rn : Network ε ν) (call : Call ε ν) : Event → Option (Network ε ν)
  | .accept => some { rn with count := rn.count + 1, bytes := rn.bytes + call.args.length }
  | .dispatch =>
      match call.handler with
      | none => none
      | some h =>
          match rn.heap[h.server]? with
          | none => none
          | some rs =>
              (rs.dispatch call.svcMeth).map fun rs => { rn with heap := rn.heap.set h.server rs }
  | .answer =>
      match call.stage with
      | .answering (some reply) => some { rn with bytes := rn.bytes + reply.length }
      | _ => some rn
  | _ => some rn

def own (rn : Network ε ν) (k : ℕ) (ev : Event) : Option (Network ε ν) :=
  match rn.calls[k]? with
  | none => none
  | some call =>
      match advance call (rn, ev) with
      | none => none
      | some call' =>
          (rn.account call ev).map fun rn' => { rn' with calls := rn.calls.set k call' }

variable [DecidableEq ε]

def step (rn : Network ε ν) : Action ε ν → Option (Network ε ν)
  | .makeServer => some { rn with heap := rn.heap ++ [Server.makeServer] }
  | .addService server svc =>
      match rn.heap[server]? with
      | none => none
      | some rs => some { rn with heap := rn.heap.set server (rs.addService svc) }
  | .makeEnd endname =>
      if rn.ends endname then none
      else
        some { rn with
          ends := Function.update rn.ends endname true
          enabled := Function.update rn.enabled endname false
          connections := Function.update rn.connections endname none }
  | .addServer servername server =>
      if server < rn.heap.length then
        some { rn with servers := Function.update rn.servers servername (some server) }
      else none
  | .deleteServer servername =>
      some { rn with servers := Function.update rn.servers servername none }
  | .connect endname servername =>
      some { rn with connections := Function.update rn.connections endname (some servername) }
  | .enable endname enabled =>
      some { rn with enabled := Function.update rn.enabled endname enabled }
  | .setReliable yes => some { rn with reliable := yes }
  | .cleanup => if rn.done then none else some { rn with done := true }
  | .stop => if rn.done ∧ rn.listening then some { rn with listening := false } else none
  | .call endname svcMeth args =>
      if rn.ends endname then
        some { rn with calls := rn.calls ++ [Call.new endname svcMeth args] }
      else none
  | .own k ev => rn.own k ev

/-- The network after a run. -/
def exec (as : List (Action ε ν)) : Option (Network ε ν) :=
  Machine.exec step (makeNetwork ε ν) as

/-- The events of call `k` in a run, with the states of the network before them. -/
def events (as : List (Action ε ν)) (k : ℕ) : List (Network ε ν × Event) :=
  Machine.events step Action.mine k (makeNetwork ε ν) as

end Network

end LabRpc

end AiFS
