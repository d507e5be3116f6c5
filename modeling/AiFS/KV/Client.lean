import AiFS.KV.Servers

set_option autoImplicit false

/-! # The control plane's client

`controlplane/kvclient/client.go`: one `Client` that any number of goroutines share, on top of the
servers. `execute` numbers its request under the client's lock and sends it outside of it, to one
server after the other, until a server answers with something else than `ErrWrongLeader` or
`ErrTimeOut`. A call that gives up waiting for a server (`doOnce` fails) leaves its request behind,
which may still arrive.

An address stands for the server it leads to, so `New`'s trimming of the addresses is left out, and
JSON's decoder undoes its encoder. Nobody else uses the client's `clientID` (a time stamp in
nanoseconds). `begun` and `ended` are history: how far the furthest server has got in the log when a
call begins and when it returns. -/

namespace AiFS

namespace KV

variable {n : ℕ}

/-! ## The client -/

structure Client (n : ℕ) where
  addrs : List (Fin n)
  curr : ℕ
  clientID : ℤ
  seqID : ℕ
  curr_lt : addrs ≠ [] → curr < addrs.length
  clientID_ne : clientID ≠ 0

namespace Client

def new (addrs : List (Fin n)) (clientID : ℤ) (h : clientID ≠ 0) : Client n where
  addrs := addrs
  curr := 0
  clientID := clientID
  seqID := 0
  curr_lt := List.length_pos_iff.2
  clientID_ne := h

/-- `none` is the empty address. -/
def nextAddr (c : Client n) : Option (Fin n) × Client n :=
  if h : c.addrs = [] then (none, c)
  else
    (some (c.addrs.get ⟨c.curr, c.curr_lt h⟩),
      { c with
        curr := (c.curr + 1) % c.addrs.length
        curr_lt := fun h => Nat.mod_lt _ (List.length_pos_iff.2 h) })

def prepareRequest (c : Client n) (req : HTTPRequest) : HTTPRequest × Client n :=
  ({ req with clientID := c.clientID, seqID := c.seqID + 1 }, { c with seqID := c.seqID + 1 })

end Client

/-- What `doOnce` makes of a reply: `none` is an error of the decoder. -/
def HTTPReply.decode (reply : HTTPReply) : Option HTTPResponse :=
  match reply.body with
  | .text _ => none
  | .json resp => some resp

/-- The loop of `execute` goes on to the next server. -/
def HTTPResponse.retry (resp : HTTPResponse) : Bool :=
  resp.err == Err.errWrongLeader || resp.err == Err.errTimeOut

def Err.text : Err → String
  | .empty => ""
  | .ok => "OK"
  | .errNoKey => "ErrNoKey"
  | .errWrongLeader => "ErrWrongLeader"
  | .errTimeOut => "ErrTimeOut"
  | .errBadRequest => "ErrBadRequest"

/-- The methods of the client, with their arguments. -/
inductive Query
  | put (key value : String)
  | get (key : String)
  | delete (key : String)
deriving DecidableEq, Repr

/-- The request a method passes to `execute`. -/
def Query.http : Query → HTTPRequest
  | .put key value => { op := "put", key := key, value := value }
  | .get key => { op := "get", key := key }
  | .delete key => { op := "delete", key := key }

/-- What a method without a value makes of the result of `execute`. -/
def ackResult (label : String) : Except String HTTPResponse → Except String Unit
  | .error err => .error err
  | .ok resp => if resp.err ≠ Err.ok then .error (label ++ resp.err.text) else .ok ()

def putResult : Except String HTTPResponse → Except String Unit :=
  ackResult "kv put: "

def deleteResult : Except String HTTPResponse → Except String Unit :=
  ackResult "kv delete: "

def getResult : Except String HTTPResponse → Except String String
  | .error err => .error err
  | .ok resp =>
      match resp.err with
      | .ok => .ok resp.value
      | .errNoKey => .ok ""
      | err => .error ("kv get: " ++ err.text)

/-! ## Calls -/

/-- A call of `execute`: the rounds of its loop that are left, the attempt it waits for, and what it
    has returned. -/
structure Call where
  query : Query
  req : HTTPRequest
  tries : ℕ
  current : Option ℕ
  result : Option (Except String HTTPResponse)
  begun : ℕ
  ended : ℕ

/-- A request on its way, with the handler that serves it, or answered by `ServeHTTP` itself. -/
inductive Progress
  | sent
  | serving (k : ℕ)
  | replied (reply : HTTPReply)
deriving DecidableEq, Repr

structure Attempt (n : ℕ) where
  call : ℕ
  server : Fin n
  progress : Progress
deriving DecidableEq, Repr

structure World (n : ℕ) where
  service : Servers n
  client : Client n
  calls : List Call
  attempts : List (Attempt n)

/-- What can happen next: a method is called, a call sends its request to the next server or gives
    up, a request arrives, a call gets a response or an error, or something happens in the service,
    which others may use too. -/
inductive Act (n : ℕ)
  | invoke (query : Query)
  | send (c : ℕ)
  | arrive (a : ℕ)
  | respond (a : ℕ)
  | fail (a : ℕ)
  | service (ev : Event n)

namespace World

variable (codec : Codec)

def init (client : Client n) : World n where
  service := Servers.init codec n
  client := client
  calls := []
  attempts := []

def setCall (w : World n) (c : ℕ) (f : Call → Call) : World n :=
  { w with calls := w.calls.modify c f }

/-- A call returns. -/
def finish (w : World n) (c : ℕ) (result : Except String HTTPResponse) : World n :=
  w.setCall c fun call =>
    { call with current := none, result := some result, ended := w.service.applied }

/-- The call that waits for an attempt. -/
def waiter (w : World n) (a : ℕ) : Option ℕ :=
  match w.attempts[a]? with
  | none => none
  | some attempt =>
      match w.calls[attempt.call]? with
      | none => none
      | some call => if call.current = some a then some attempt.call else none

/-- The answer to an attempt. -/
def reply (w : World n) (a : ℕ) : Option HTTPReply :=
  match (w.attempts[a]?).map Attempt.progress with
  | some (.replied reply) => some reply
  | some (.serving k) => w.service.answer k
  | _ => none

/-- Who else uses the service does so under another identity. -/
def foreign (w : World n) : Event n → Bool
  | .post s incoming =>
      match serveHTTP (w.service.httpSeq s + 1) incoming with
      | .inl _ => true
      | .inr op => op.clientId != w.client.clientID
  | .rpc _ op => op.clientId != w.client.clientID
  | _ => true

def invoke (w : World n) (query : Query) : World n :=
  if w.client.addrs = [] then
    { w with
      calls := w.calls ++
        [{ query := query, req := query.http, tries := 0, current := none,
           result := some (.error "no kv server addresses configured"),
           begun := w.service.applied, ended := w.service.applied }] }
  else
    { w with
      client := (w.client.prepareRequest query.http).2
      calls := w.calls ++
        [{ query := query, req := (w.client.prepareRequest query.http).1,
           tries := w.client.addrs.length, current := none, result := none,
           begun := w.service.applied, ended := w.service.applied }] }

/-- The head of the loop of `execute`. -/
def send (w : World n) (c : ℕ) (call : Call) : Option (World n) :=
  match call.tries with
  | 0 => some (w.finish c (.error "no available kv leader"))
  | tries + 1 =>
      match w.client.nextAddr with
      | (none, _) => none
      | (some server, client) =>
          some
            { w.setCall c fun call =>
                { call with tries := tries, current := some w.attempts.length } with
              client := client
              attempts := w.attempts ++ [⟨c, server, .sent⟩] }

/-- A request arrives at its server. -/
def arrive (w : World n) (a : ℕ) (attempt : Attempt n) (req : HTTPRequest) : World n :=
  let progress : Progress :=
    match serveHTTP (w.service.httpSeq attempt.server + 1) (.request req) with
    | .inl reply => .replied reply
    | .inr _ => .serving w.service.waiters.handlers.length
  { w with
    service := w.service.post attempt.server (.request req)
    attempts := w.attempts.modify a fun attempt => { attempt with progress := progress } }

/-- A call goes on with what `doOnce` has returned. -/
def receive (w : World n) (c : ℕ) (resp : Option HTTPResponse) : World n :=
  match resp with
  | none => w.setCall c fun call => { call with current := none }
  | some resp =>
      if resp.retry then w.setCall c fun call => { call with current := none }
      else w.finish c (.ok resp)

def step (w : World n) : Act n → Option (World n)
  | .invoke query => some (w.invoke query)
  | .send c =>
      match w.calls[c]? with
      | none => none
      | some call => if call.result = none ∧ call.current = none then w.send c call else none
  | .arrive a =>
      match w.attempts[a]? with
      | none => none
      | some attempt =>
          match w.calls[attempt.call]? with
          | none => none
          | some call =>
              if attempt.progress = .sent then some (w.arrive a attempt call.req) else none
  | .respond a =>
      match w.waiter a, w.reply a with
      | some c, some reply => some (w.receive c reply.decode)
      | _, _ => none
  | .fail a =>
      match w.waiter a with
      | some c => some (w.receive c none)
      | none => none
  | .service ev =>
      if w.foreign ev then
        match w.service.step codec ev with
        | none => none
        | some service => some { w with service := service }
      else none

end World

end KV

end AiFS
