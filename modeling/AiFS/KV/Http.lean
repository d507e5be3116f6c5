import AiFS.KV.Basic

set_option autoImplicit false

/-! # Requests over HTTP

The front of a server, `kvraft/http.go`: what `ServeHTTP` makes of a request before it calls a
handler, and what it makes of the handler's reply. A request without an identity gets the shared
`httpClientID` and the next number of its server. `LeaderId` is not part of a response and left
out. -/

namespace AiFS

namespace KV

structure HTTPRequest where
  op : String
  key : String
  value : String := ""
  clientID : ℤ := 0
  seqID : ℤ := 0
deriving DecidableEq, Repr

structure HTTPResponse where
  ok : Bool
  value : String
  err : Err
deriving DecidableEq, Repr

/-- What `ServeHTTP` finds: another method than POST, a body that cannot be read or decoded, or a
    request. -/
inductive Incoming
  | wrongMethod
  | badBody
  | invalidJson
  | request (req : HTTPRequest)
deriving DecidableEq, Repr

/-- A body is the text of `http.Error` or a response. -/
inductive Body
  | text (message : String)
  | json (resp : HTTPResponse)
deriving DecidableEq, Repr

structure HTTPReply where
  status : ℕ
  body : Body
deriving DecidableEq, Repr

def httpClientID : ℤ := 0xA1F5

def httpResponseFromErr (err : Err) (value : String) : HTTPResponse where
  ok := err == Err.ok
  value := value
  err := err

/-- The request has to be identified by the server. -/
def HTTPRequest.anonymous (req : HTTPRequest) : Bool :=
  req.clientID == 0 || req.seqID == 0

/-- The operation that `executeHTTPWithClient` runs, `none` for an unknown one. -/
def HTTPRequest.command (req : HTTPRequest) (clientID seq : ℤ) : Option Op :=
  if req.op = "get" then
    some { type := .get, key := req.key, value := "", seqId := seq, clientId := clientID }
  else if req.op = "put" then
    some { type := .put, key := req.key, value := req.value, seqId := seq, clientId := clientID }
  else if req.op = "delete" then
    some { type := .delete, key := req.key, value := "", seqId := seq, clientId := clientID }
  else none

def writeResponse (resp : HTTPResponse) : HTTPReply where
  status :=
    if resp.err = Err.errWrongLeader then 503
    else if !resp.ok && resp.err = Err.errBadRequest then 400
    else 200
  body := .json resp

/-- `ServeHTTP` up to the call of a handler: an answer, or the operation to run. `next` is what
    `nextHTTPSeq` would return. -/
def serveHTTP (next : ℤ) : Incoming → HTTPReply ⊕ Op
  | .wrongMethod => .inl { status := 405, body := .text "method not allowed" }
  | .badBody => .inl { status := 400, body := .text "bad request" }
  | .invalidJson => .inl { status := 400, body := .text "invalid json" }
  | .request req =>
      if req.key = "" then .inl { status := 400, body := .text "missing key" }
      else
        let id := if req.anonymous then (httpClientID, next) else (req.clientID, req.seqID)
        match req.command id.1 id.2 with
        | none => .inl (writeResponse { ok := false, value := "", err := Err.errBadRequest })
        | some op => .inr op

/-- Whether `ServeHTTP` calls `nextHTTPSeq`. -/
def Incoming.takesSeq : Incoming → Bool
  | .request req => req.key != "" && req.anonymous
  | _ => false

/-- The response to a handler's reply: only `Get` hands on the value. -/
def respond (op : Op) (reply : OpReply) : HTTPReply :=
  writeResponse (httpResponseFromErr reply.err (if op.type = .get then reply.value else ""))

end KV

end AiFS
