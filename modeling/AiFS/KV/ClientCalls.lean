import AiFS.KV.Client
import AiFS.KV.Honest

set_option autoImplicit false

/-! # The calls of the control plane's client

What the servers know of the calls of one `Client`. Its requests are numbered one by one under an
identity that nobody else uses, so an operation with this identity belongs to one call, and as long
as no running call is passed where it is looked up, the operation of each stays `Honest`. A call
that has returned `OK` or `ErrNoKey` was told the reply that its operation got when it was run,
between the call and its return (`Done`). `Tracked` is the invariant. -/

namespace AiFS

namespace KV

open Pool (getElem?_concat_cases getElem?_modify_cases)

variable {n : ℕ}

/-! ## Operations -/

/-- The operation that a server runs for a call. -/
def Call.op (call : Call) : Op :=
  match call.query with
  | .put key value => ⟨.put, key, value, call.req.seqID, call.req.clientID⟩
  | .get key => ⟨.get, key, "", call.req.seqID, call.req.clientID⟩
  | .delete key => ⟨.delete, key, "", call.req.seqID, call.req.clientID⟩

/-- The request of a method under an identity. -/
def Query.prepared (query : Query) (clientID seqID : ℤ) : HTTPRequest :=
  { query.http with clientID := clientID, seqID := seqID }

theorem serveHTTP_prepared {call : Call} {clientID seqID : ℤ} (next : ℤ) (hid : clientID ≠ 0)
    (hseq : seqID ≠ 0) (hreq : call.req = call.query.prepared clientID seqID) :
    serveHTTP next (.request call.req) = .inr call.op ∨
      serveHTTP next (.request call.req) = .inl { status := 400, body := .text "missing key" } := by
  have hanon : call.req.anonymous = false := by
    rw [hreq]
    simp [HTTPRequest.anonymous, Query.prepared, hid, hseq]
  by_cases hkey : call.req.key = ""
  · exact Or.inr (by simp [serveHTTP, hkey])
  · left
    have hcommand : call.req.command call.req.clientID call.req.seqID = some call.op := by
      rw [Call.op, hreq]
      cases call.query with
      | put key value => simp [HTTPRequest.command, Query.prepared, Query.http]
      | get key => simp [HTTPRequest.command, Query.prepared, Query.http]
      | delete key => simp [HTTPRequest.command, Query.prepared, Query.http]
    simp [serveHTTP, hkey, hanon, hcommand]

theorem Call.op_id (call : Call) : call.op.id = (call.req.clientID, call.req.seqID) := by
  unfold Call.op
  split <;> rfl

/-- The response to what a handler returns of a reply. -/
theorem respond_returns (op : Op) (reply : OpReply) : respond op (op.returns reply) =
    writeResponse (httpResponseFromErr reply.err (if op.type = .get then reply.value else "")) := by
  unfold respond Op.returns
  split <;> rfl

namespace World

variable {codec : Codec} {as as' : List (Action n Op)} {log log' : List (ℕ × Op)}

/-! ## What is taken for granted -/

/-- An operation of a call that has not returned. -/
def running (w : World n) (op : Op) : Prop :=
  ∃ call ∈ w.calls, call.result = none ∧ call.op = op

instance (w : World n) (op : Op) : Decidable (w.running op) :=
  inferInstanceAs (Decidable (∃ call ∈ w.calls, call.result = none ∧ call.op = op))

/-- Where the operation of a call that has not returned is looked up, by its handler or by an
    applier, the client has not come to a larger number. -/
def InTurn (w : World n) : Act n → Prop
  | .service ev => ∀ q ∈ w.service.lookup ev, w.running q.2 → (w.service.state q.1).NotPassed q.2
  | _ => True

instance (w : World n) : ∀ act, Decidable (w.InTurn act)
  | .service ev => inferInstanceAs (Decidable (∀ q ∈ w.service.lookup ev, w.running q.2 →
      (w.service.state q.1).NotPassed q.2))
  | .invoke _ | .send _ | .arrive _ | .respond _ | .fail _ => isTrue trivial

/-- The conditions on the servers. -/
def Lawful (codec : Codec) (w : World n) : Act n → Prop
  | .service ev => w.service.Lawful codec ev
  | _ => True

/-! ## The invariant -/

/-- What a call that has returned a response was told about itself. -/
def Done (log : List (ℕ × Op)) (call : Call) : Prop :=
  ∀ resp, call.result = some (.ok resp) → resp.err = Err.ok ∨ resp.err = Err.errNoKey →
    ∃ p reply, call.begun ≤ p ∧ p < call.ended ∧ call.ended ≤ log.length ∧
      Ran (log.map Prod.snd) p call.op reply ∧
      resp = httpResponseFromErr reply.err (if call.op.type = .get then reply.value else "")

structure Tracked (codec : Codec) (as : List (Action n Op)) (log : List (ℕ × Op)) (w : World n) :
    Prop where
  kept : w.service.Kept codec as log
  numbered : w.client.addrs ≠ [] → w.client.seqID = w.calls.length
  calls : ∀ (c : ℕ) call, w.calls[c]? = some call →
    (w.client.addrs = [] ∧ call.result ≠ none) ∨
      (w.client.addrs ≠ [] ∧ call.req = call.query.prepared w.client.clientID (c + 1))
  waits : ∀ (c : ℕ) call, w.calls[c]? = some call → call.current ≠ none → call.result = none
  attempts : ∀ (a : ℕ) attempt, w.attempts[a]? = some attempt → w.client.addrs ≠ [] ∧
    ∃ call, w.calls[attempt.call]? = some call ∧
      (∀ k, attempt.progress = .serving k → ∃ x, w.service.waiters.handlers[k]? = some x ∧
        x.op = call.op) ∧
      (∀ reply, attempt.progress = .replied reply → reply.decode = none)
  mine : ∀ (k : ℕ) x, w.service.waiters.handlers[k]? = some x →
    x.op.clientId = w.client.clientID →
    w.client.addrs ≠ [] ∧ ∃ (c : ℕ) (call : Call), w.calls[c]? = some call ∧ x.op = call.op
  running : ∀ (c : ℕ) call, w.calls[c]? = some call → call.result = none →
    Honest w.service.waiters log call.begun call.op
  finished : ∀ (c : ℕ) call, w.calls[c]? = some call → Done log call

section Tracked

variable {w : World n}

theorem Tracked.op_id (h : Tracked codec as log w) {c : ℕ} {call : Call}
    (hc : w.calls[c]? = some call) (haddrs : w.client.addrs ≠ []) :
    call.op.id = (w.client.clientID, (c : ℤ) + 1) := by
  rw [Call.op_id]
  rcases h.calls c call hc with ⟨hnil, _⟩ | ⟨_, hreq⟩
  · exact absurd hnil haddrs
  · rw [hreq]
    rfl

/-- No two calls have the same identity. -/
theorem Tracked.eq_of_id (h : Tracked codec as log w) {c c' : ℕ} {call call' : Call}
    (hc : w.calls[c]? = some call) (hc' : w.calls[c']? = some call')
    (haddrs : w.client.addrs ≠ []) (hid : call'.op.id = call.op.id) : call' = call := by
  rw [h.op_id hc haddrs, h.op_id hc' haddrs] at hid
  obtain rfl : c' = c := by
    have := (Prod.mk.inj hid).2
    omega
  exact Option.some.inj (hc'.symm.trans hc)

/-- A running call can be sent. -/
theorem Tracked.addrs_ne (h : Tracked codec as log w) {c : ℕ} {call : Call}
    (hc : w.calls[c]? = some call) (hres : call.result = none) : w.client.addrs ≠ [] := by
  rcases h.calls c call hc with ⟨_, hsome⟩ | ⟨haddrs, _⟩
  · exact absurd hres hsome
  · exact haddrs

theorem Done.mono {call : Call} (hpre : log <+: log') (h : Done log call) : Done log' call := by
  intro resp hres herr
  obtain ⟨p, reply, hlo, hhi, hlen, hran, hresp⟩ := h resp hres herr
  exact ⟨p, reply, hlo, hhi, hlen.trans hpre.length_le, hran.mono (hpre.map _), hresp⟩

/-- A step of the servers in which no running call is passed and nobody takes an identity of the
    client. -/
theorem Tracked.serve (h : Tracked codec as log w) {ev : Event n} {v : Servers n}
    (hl : ∀ call ∈ w.calls, call.result = none → ∀ s, w.service.lookup ev = some (s, call.op) →
      (w.service.state s).NotPassed call.op)
    (hcall : ∀ s x, w.service.happening ev = some (.call s x) → x.clientId = w.client.clientID →
      w.client.addrs ≠ [] ∧ ∃ (c : ℕ) (call : Call), w.calls[c]? = some call ∧ x = call.op)
    (hkept : v.Kept codec as' log') (hm : w.service.Moved as log ev v as' log') :
    Tracked codec as' log' { w with service := v } where
  kept := hkept
  numbered := h.numbered
  calls := h.calls
  waits := h.waits
  attempts a attempt ha := by
    obtain ⟨haddrs, call, hc, hserving, hreplied⟩ := h.attempts a attempt ha
    refine ⟨haddrs, call, hc, fun k hk => ?_, hreplied⟩
    obtain ⟨x, hx, hop⟩ := hserving k hk
    obtain ⟨x', hx', -, hop'⟩ := hm.handler hx
    exact ⟨x', hx', hop'.trans hop⟩
  mine k x' hk hid := by
    rcases hm.handler_cases hk with ⟨x, hx, hop⟩ | hnew
    · rw [hop] at hid ⊢
      exact h.mine k x hx hid
    · exact hcall _ _ hnew hid
  running c call hc hres := by
    refine (h.running c call hc hres).moved h.kept
      (hl call (List.mem_of_getElem? hc) hres) (fun s x hx hid => ?_) hm
    have haddrs := h.addrs_ne hc hres
    have hclient : x.clientId = w.client.clientID :=
      congrArg Prod.fst (hid.trans (h.op_id hc haddrs))
    obtain ⟨_, c', call', hc', rfl⟩ := hcall s x hx hclient
    rw [h.eq_of_id hc hc' haddrs hid]
  finished c call hc := (h.finished c call hc).mono hm.isPrefix

/-- A call goes on or returns. -/
theorem Tracked.setCall (h : Tracked codec as log w) {c : ℕ} {f : Call → Call}
    (haddrs : w.client.addrs ≠ [])
    (hf : ∀ call, w.calls[c]? = some call → (f call).query = call.query ∧
      (f call).req = call.req ∧ (f call).begun = call.begun ∧
      ((f call).result = none → call.result = none) ∧
      ((f call).current ≠ none → (f call).result = none) ∧ Done log (f call)) :
    Tracked codec as log (w.setCall c f) := by
  -- a call of the new state, with the one it was
  have hback : ∀ {c' : ℕ} {call' : Call}, (w.setCall c f).calls[c']? = some call' →
      ∃ call, w.calls[c']? = some call ∧ call'.query = call.query ∧ call'.req = call.req ∧
        call'.begun = call.begun ∧ (call'.result = none → call.result = none) ∧
        (call'.current ≠ none → call'.result = none) ∧ Done log call' := by
    intro c' call' hc'
    rw [World.setCall, List.getElem?_modify] at hc'
    obtain ⟨call, hcall, rfl⟩ := Option.map_eq_some_iff.1 hc'
    refine ⟨call, hcall, ?_⟩
    split
    · next heq => exact hf call (heq ▸ hcall)
    · exact ⟨rfl, rfl, rfl, id, h.waits c' call hcall, h.finished c' call hcall⟩
  have hforward : ∀ {c' : ℕ} {call : Call}, w.calls[c']? = some call →
      ∃ call', (w.setCall c f).calls[c']? = some call' ∧ call'.op = call.op := by
    intro c' call hc'
    have hlt := (List.getElem?_eq_some_iff.1 hc').1
    have hlt' : c' < (w.setCall c f).calls.length := by simpa [World.setCall] using hlt
    have hget := List.getElem?_eq_getElem hlt'
    obtain ⟨call₀, hcall₀, hquery, hreq, _⟩ := hback hget
    obtain rfl : call = call₀ := Option.some.inj (hc'.symm.trans hcall₀)
    exact ⟨_, hget, by rw [Call.op, Call.op, hquery, hreq]⟩
  refine
    { kept := h.kept
      numbered := fun haddrs => ?_
      calls := fun c' call' hc' => ?_
      waits := fun c' call' hc' => ?_
      attempts := fun a attempt ha => ?_
      mine := fun k x hk hid => ?_
      running := fun c' call' hc' hres => ?_
      finished := fun c' call' hc' => ?_ }
  · simpa [World.setCall] using h.numbered haddrs
  · obtain ⟨call, hcall, hquery, hreq, _⟩ := hback hc'
    rcases h.calls c' call hcall with ⟨hnil, _⟩ | ⟨_, hprep⟩
    · exact absurd hnil haddrs
    · exact Or.inr ⟨haddrs, by rw [hreq, hquery]; exact hprep⟩
  · obtain ⟨_, _, _, _, _, _, hwaits, _⟩ := hback hc'
    exact hwaits
  · obtain ⟨_, call, hc, hserving, hreplied⟩ := h.attempts a attempt ha
    obtain ⟨call', hc', hop⟩ := hforward hc
    exact ⟨haddrs, call', hc', fun k hk => hop ▸ hserving k hk, hreplied⟩
  · obtain ⟨_, c', call, hc, hop⟩ := h.mine k x hk hid
    obtain ⟨call', hc', hop'⟩ := hforward hc
    exact ⟨haddrs, c', call', hc', hop.trans hop'.symm⟩
  · obtain ⟨call, hcall, hquery, hreq, hbegun, hnone, _, _⟩ := hback hc'
    have hop : call'.op = call.op := by rw [Call.op, Call.op, hquery, hreq]
    rw [hbegun, hop]
    exact h.running c' call hcall (hnone hres)
  · obtain ⟨_, _, _, _, _, _, _, hdone⟩ := hback hc'
    exact hdone

theorem tracked_init (client : Client n) (h : client.seqID = 0) :
    Tracked codec [] [] (World.init codec client) where
  kept := Servers.kept_init
  numbered _ := h
  calls _ _ hc := absurd hc (by simp [World.init])
  waits _ _ hc := absurd hc (by simp [World.init])
  attempts _ _ ha := absurd ha (by simp [World.init])
  mine _ _ hk := absurd hk (by simp [World.init, Servers.init, Waiters.init])
  running _ _ hc := absurd hc (by simp [World.init])
  finished _ _ hc := absurd hc (by simp [World.init])

/-- Nobody has used the next number of the client. -/
theorem Tracked.honest_new (h : Tracked codec as log w) (haddrs : w.client.addrs ≠ []) {op : Op}
    (hid : op.id = (w.client.clientID, (w.calls.length : ℤ) + 1)) :
    Honest w.service.waiters log w.service.applied op := by
  have hfresh : ∀ (k : ℕ) x, w.service.waiters.handlers[k]? = some x → x.op.id ≠ op.id := by
    intro k x hk heq
    rw [hid] at heq
    obtain ⟨_, c, call, hc, hop⟩ := h.mine k x hk (congrArg Prod.fst heq)
    rw [hop, h.op_id hc haddrs] at heq
    have hlt := (List.getElem?_eq_some_iff.1 hc).1
    have := (Prod.mk.inj heq).2
    omega
  refine
    { begun := h.kept.applied_eq.le
      unique := fun k x hk heq => absurd heq (hfresh k x hk)
      entries := fun p hp => ?_
      answers := fun k x reply hk hop => absurd (congrArg Op.id hop) (hfresh k x hk) }
  rw [List.getElem?_map] at hp
  obtain ⟨⟨g, y⟩, he, rfl⟩ := Option.map_eq_some_iff.1 hp
  obtain ⟨x, hx, hop, -⟩ := h.kept.ledger.owner he
  exact absurd (congrArg Op.id hop) (hfresh g x hx)

/-- A new call, whose number nobody has used yet. -/
theorem Tracked.invoke (h : Tracked codec as log w) (query : Query) :
    Tracked codec as log (w.invoke query) := by
  unfold World.invoke
  split
  · next hnil =>
      refine
        { kept := h.kept
          numbered := fun haddrs => absurd hnil haddrs
          calls := fun c call hc => ?_
          waits := fun c call hc hcur => ?_
          attempts := fun a attempt ha => absurd hnil (h.attempts a attempt ha).1
          mine := fun k x hk hid => absurd hnil (h.mine k x hk hid).1
          running := fun c call hc hres => ?_
          finished := fun c call hc => ?_ }
      · rcases getElem?_concat_cases hc with hold | ⟨_, rfl⟩
        · exact h.calls c call hold
        · exact Or.inl ⟨hnil, by simp⟩
      · rcases getElem?_concat_cases hc with hold | ⟨_, rfl⟩
        · exact h.waits c call hold hcur
        · exact absurd rfl hcur
      · rcases getElem?_concat_cases hc with hold | ⟨_, rfl⟩
        · exact h.running c call hold hres
        · exact absurd hres (by simp)
      · rcases getElem?_concat_cases hc with hold | ⟨_, rfl⟩
        · exact h.finished c call hold
        · exact fun resp hres => absurd hres (by simp)
  · next haddrs =>
      have hnum := h.numbered haddrs
      have hold : ∀ {c : ℕ} {call x : Call}, w.calls[c]? = some call →
          (w.calls ++ [x])[c]? = some call := fun hc => by
        rw [List.getElem?_append_left (List.getElem?_eq_some_iff.1 hc).1]
        exact hc
      refine
        { kept := h.kept
          numbered := fun _ => by simp [Client.prepareRequest, hnum]
          calls := fun c call hc => ?_
          waits := fun c call hc hcur => ?_
          attempts := fun a attempt ha => ?_
          mine := fun k x hk hid => ?_
          running := fun c call hc hres => ?_
          finished := fun c call hc => ?_ }
      · rcases getElem?_concat_cases hc with hc | ⟨rfl, rfl⟩
        · exact h.calls c call hc
        · exact Or.inr ⟨haddrs, by rw [← hnum]; rfl⟩
      · rcases getElem?_concat_cases hc with hc | ⟨_, rfl⟩
        · exact h.waits c call hc hcur
        · rfl
      · obtain ⟨haddrs, call, hc, hrest⟩ := h.attempts a attempt ha
        exact ⟨haddrs, call, hold hc, hrest⟩
      · obtain ⟨haddrs, c, call, hc, hop⟩ := h.mine k x hk hid
        exact ⟨haddrs, c, call, hold hc, hop⟩
      · rcases getElem?_concat_cases hc with hc | ⟨rfl, rfl⟩
        · exact h.running c call hc hres
        · exact h.honest_new haddrs (by rw [Call.op_id, ← hnum]; rfl)
      · rcases getElem?_concat_cases hc with hc | ⟨rfl, rfl⟩
        · exact h.finished c call hc
        · exact fun resp hres => absurd hres (by simp)

/-- A call gives up its attempt, or returns an error. -/
theorem Tracked.goOn (h : Tracked codec as log w) {c : ℕ} (haddrs : w.client.addrs ≠ []) :
    Tracked codec as log (w.setCall c fun call => { call with current := none }) := by
  refine h.setCall haddrs fun call hc => ⟨rfl, rfl, rfl, id, fun hcur => absurd rfl hcur, ?_⟩
  exact fun resp hres => h.finished c call hc resp hres

theorem nextAddr_same (client : Client n) : client.nextAddr.2.addrs = client.addrs ∧
    client.nextAddr.2.clientID = client.clientID ∧ client.nextAddr.2.seqID = client.seqID := by
  unfold Client.nextAddr
  split <;> exact ⟨rfl, rfl, rfl⟩

theorem Tracked.send (h : Tracked codec as log w) {c : ℕ} {call : Call} {w' : World n}
    (hc : w.calls[c]? = some call) (hres : call.result = none)
    (hsend : w.send c call = some w') : Tracked codec as log w' := by
  have haddrs := h.addrs_ne hc hres
  unfold World.send at hsend
  split at hsend
  · obtain rfl := Option.some.inj hsend
    refine h.setCall haddrs fun call hc => ⟨rfl, rfl, rfl, fun hnone => absurd hnone (by simp),
      fun hcur => absurd rfl hcur, fun resp hresp => absurd hresp (by simp)⟩
  · next tries htries =>
      obtain ⟨haddr, hid, hseq⟩ := nextAddr_same w.client
      split at hsend
      · exact absurd hsend (by simp)
      · next server client hnext =>
          rw [hnext] at haddr hid hseq
          obtain rfl := Option.some.inj hsend
          have h' : Tracked codec as log (w.setCall c fun call =>
              { call with tries := tries, current := some w.attempts.length }) := by
            refine h.setCall haddrs fun call' hc' => ⟨rfl, rfl, rfl, id, fun _ => ?_, ?_⟩
            · obtain rfl : call = call' := Option.some.inj (hc.symm.trans hc')
              exact hres
            · exact fun resp hresp => h.finished c call' hc' resp hresp
          dsimp only at haddr hid hseq
          refine
            { kept := h'.kept
              numbered := fun hne => by rw [hseq]; exact h'.numbered (haddr ▸ hne)
              calls := fun c call hc => by rw [haddr, hid]; exact h'.calls c call hc
              waits := h'.waits
              attempts := fun a attempt ha => ?_
              mine := fun k x hk hop => by rw [haddr]; exact h'.mine k x hk (hid ▸ hop)
              running := h'.running
              finished := h'.finished }
          rcases getElem?_concat_cases ha with hold | ⟨_, rfl⟩
          · rw [haddr]
            exact h'.attempts a attempt hold
          · rw [haddr]
            refine ⟨haddrs, { call with tries := tries, current := some w.attempts.length }, ?_,
              fun k hk => absurd hk (by simp), fun reply hk => absurd hk (by simp)⟩
            simp [World.setCall, hc]

/-- A request arrives: it is turned away without a response, or gets a handler of its own. -/
theorem Tracked.arrive (h : Tracked codec as log w) {a : ℕ} {attempt : Attempt n} {call : Call}
    (ha : w.attempts[a]? = some attempt) (hc : w.calls[attempt.call]? = some call) :
    ∃ as', Tracked codec as' log (w.arrive a attempt call.req) := by
  obtain ⟨haddrs, _⟩ := h.attempts a attempt ha
  obtain ⟨_, hreq⟩ := (h.calls _ call hc).resolve_left fun hnil => haddrs hnil.1
  have hserve := serveHTTP_prepared (w.service.httpSeq attempt.server + 1) w.client.clientID_ne
    (by omega) hreq
  have hpost : ∀ s incoming, w.service.step codec (.post s incoming) =
      some (w.service.post s incoming) := fun _ _ => rfl
  obtain ⟨as', log', hkept, hm⟩ := h.kept.step
    (fun a ha => absurd ha (by simp)) (hpost attempt.server (.request call.req))
  obtain rfl := hm.log_eq (by simp)
  have h' : Tracked codec as' log'
      { w with service := w.service.post attempt.server (.request call.req) } := by
    refine h.serve (fun _ _ _ s hs => ?_) (fun s x hx hid => ?_) hkept hm
    · simp only [Servers.lookup, Servers.happening] at hs
      split at hs <;> exact absurd hs (by simp [Waiters.lookup])
    · simp only [Servers.happening] at hx
      rcases hserve with hop | htext
      · rw [hop] at hx
        obtain ⟨rfl, rfl⟩ := Happening.call.inj (Option.some.inj hx)
        exact ⟨haddrs, attempt.call, call, hc, rfl⟩
      · rw [htext] at hx
        exact absurd hx (by simp)
  refine ⟨as', { h' with attempts := fun a' attempt' ha' => ?_ }⟩
  obtain ⟨attempt₀, ha₀, ⟨rfl, rfl⟩ | ⟨_, rfl⟩⟩ := getElem?_modify_cases ha'
  · obtain rfl := Option.some.inj (ha.symm.trans ha₀)
    refine ⟨haddrs, call, hc, fun k hk => ?_, fun reply hk => ?_⟩
    · rcases hserve with hop | htext
      · rw [hop] at hk
        obtain rfl := Progress.serving.inj hk
        refine ⟨⟨attempt.server, call.op, 0, 0, none, .entered⟩, ?_, rfl⟩
        simp only [World.arrive, Servers.post, hop]
        exact List.getElem?_concat_length
      · rw [htext] at hk
        exact absurd hk (by simp)
    · rcases hserve with hop | htext
      · rw [hop] at hk
        exact absurd hk (by simp)
      · rw [htext] at hk
        obtain rfl := Progress.replied.inj hk
        rfl
  · exact h'.attempts a' _ ha₀

theorem waiter_spec {a c : ℕ} (h : w.waiter a = some c) : ∃ attempt call,
    w.attempts[a]? = some attempt ∧ attempt.call = c ∧ w.calls[c]? = some call ∧
      call.current = some a := by
  unfold World.waiter at h
  split at h
  · exact absurd h (by simp)
  · next attempt ha =>
      split at h
      · exact absurd h (by simp)
      · next call hc =>
          split at h
          · next hcur =>
              obtain rfl := Option.some.inj h
              exact ⟨attempt, call, ha, rfl, hc, hcur⟩
          · exact absurd h (by simp)

/-- A response that a call gets is a failure, or tells the reply to its own operation. -/
theorem Tracked.reply_cases (h : Tracked codec as log w) {a c : ℕ} {call : Call}
    {reply : HTTPReply} {resp : HTTPResponse} (hwait : w.waiter a = some c)
    (hc : w.calls[c]? = some call) (hreply : w.reply a = some reply)
    (hdecode : reply.decode = some resp) :
    (resp.err ≠ Err.ok ∧ resp.err ≠ Err.errNoKey) ∨
      ∃ r, Genuine (log.map Prod.snd) call.begun call.op r ∧
        resp = httpResponseFromErr r.err (if call.op.type = .get then r.value else "") := by
  obtain ⟨attempt, call', ha, rfl, hc', hcur⟩ := waiter_spec hwait
  obtain rfl : call = call' := Option.some.inj (hc.symm.trans hc')
  obtain ⟨_, call', hc', hserving, hreplied⟩ := h.attempts a attempt ha
  obtain rfl : call = call' := Option.some.inj (hc.symm.trans hc')
  rw [World.reply, ha, Option.map_some] at hreply
  split at hreply
  · next hprog =>
      obtain rfl := Option.some.inj hreply
      exact absurd ((hreplied _ (Option.some.inj hprog)).symm.trans hdecode) (by simp)
  · next k hprog =>
      obtain ⟨x, hx, hop⟩ := hserving k (Option.some.inj hprog)
      obtain ⟨y, r, hy, hst, rfl⟩ := Servers.answer_eq_some hreply
      obtain rfl := Option.some.inj (hx.symm.trans hy)
      have hrun := h.running _ call hc (h.waits _ call hc (by rw [hcur]; simp))
      rcases hrun.answers k x r hx hop hst with hfail | ⟨q, rfl, hgen⟩
      · obtain rfl := Option.some.inj hdecode
        exact Or.inl hfail
      · rw [hop, respond_returns] at hdecode
        exact Or.inr ⟨q, hgen, (Option.some.inj hdecode).symm⟩
  · exact absurd hreply (by simp)

theorem Tracked.receive (h : Tracked codec as log w) {a c : ℕ} (hwait : w.waiter a = some c)
    {resp : Option HTTPResponse} (hresp : ∀ r, resp = some r →
      ∃ reply, w.reply a = some reply ∧ reply.decode = some r) :
    Tracked codec as log (w.receive c resp) := by
  obtain ⟨attempt, call, ha, rfl, hc, hcur⟩ := waiter_spec hwait
  have haddrs := (h.attempts a attempt ha).1
  unfold World.receive
  split
  · exact h.goOn haddrs
  · next resp =>
      split
      · exact h.goOn haddrs
      · refine h.setCall haddrs fun call' hc' => ⟨rfl, rfl, rfl,
          fun hnone => absurd hnone (by simp), fun hcur => absurd rfl hcur, fun r hr herr => ?_⟩
        obtain rfl : call = call' := Option.some.inj (hc.symm.trans hc')
        obtain rfl : resp = r := Except.ok.inj (Option.some.inj hr)
        obtain ⟨reply, hreply, hdec⟩ := hresp resp rfl
        rcases h.reply_cases hwait hc hreply hdec with ⟨hok, hno⟩ | ⟨r, ⟨p, hlo, hran⟩, hval⟩
        · exact absurd herr (by simp [hok, hno])
        · refine ⟨p, r, hlo, ?_, h.kept.applied_eq.le, hran, hval⟩
          have hlt : p < log.length := by
            simpa using (List.getElem?_eq_some_iff.1 hran.entry).1
          rw [← h.kept.applied_eq] at hlt
          exact hlt

/-- Who else calls a handler does so under another identity. -/
theorem foreign_of_call {ev : Event n} (h : w.foreign ev = true) {s : Fin n} {x : Op}
    (hx : w.service.happening ev = some (.call s x)) {v : Servers n}
    (hstep : w.service.step codec ev = some v) :
    x.clientId ≠ w.client.clientID := by
  cases ev with
  | post v incoming =>
      simp only [Servers.happening] at hx
      simp only [World.foreign] at h
      split at hx
      · exact absurd hx (by simp)
      · next op hop =>
          obtain ⟨rfl, rfl⟩ := Happening.call.inj (Option.some.inj hx)
          rw [hop] at h
          simpa using h
  | rpc v op =>
      obtain ⟨rfl, rfl⟩ := Happening.call.inj (Option.some.inj hx)
      simpa [World.foreign] using h
  | happens hap =>
      obtain rfl := Option.some.inj hx
      exact absurd hstep (by simp [Servers.step])
  | _ => exact absurd hx (by simp [Servers.happening])

/-- **Step lemma**, with what the log gains: an operation that an applier has just taken. -/
theorem tracked_step {w' : World n} {act : Act n} (h : Tracked codec as log w)
    (hlaw : w.Lawful codec act) (hturn : w.InTurn act) (hstep : w.step codec act = some w') :
    ∃ as' log', Tracked codec as' log' w' ∧ (log' = log ∨
      ∃ ev, act = .service ev ∧ w.service.step codec ev = some w'.service ∧
        w.service.Moved as log ev w'.service as' log') := by
  cases act with
  | invoke query =>
      obtain rfl := Option.some.inj hstep
      exact ⟨as, log, h.invoke query, Or.inl rfl⟩
  | send c =>
      simp only [World.step] at hstep
      split at hstep
      · exact absurd hstep (by simp)
      · next call hc =>
          split at hstep
          · next hidle => exact ⟨as, log, h.send hc hidle.1 hstep, Or.inl rfl⟩
          · exact absurd hstep (by simp)
  | arrive a =>
      simp only [World.step] at hstep
      split at hstep
      · exact absurd hstep (by simp)
      · next attempt ha =>
          split at hstep
          · exact absurd hstep (by simp)
          · next call hc =>
              split at hstep
              · obtain rfl := Option.some.inj hstep
                obtain ⟨as', h'⟩ := h.arrive ha hc
                exact ⟨as', log, h', Or.inl rfl⟩
              · exact absurd hstep (by simp)
  | respond a =>
      simp only [World.step] at hstep
      split at hstep
      · next c reply hwait hreply =>
          obtain rfl := Option.some.inj hstep
          exact ⟨as, log, h.receive hwait fun r hr => ⟨reply, hreply, hr⟩, Or.inl rfl⟩
      · exact absurd hstep (by simp)
  | fail a =>
      simp only [World.step] at hstep
      split at hstep
      · next c hwait =>
          obtain rfl := Option.some.inj hstep
          exact ⟨as, log, h.receive hwait fun r hr => absurd hr (by simp), Or.inl rfl⟩
      · exact absurd hstep (by simp)
  | service ev =>
      simp only [World.step] at hstep
      split at hstep
      · next hforeign =>
          split at hstep
          · exact absurd hstep (by simp)
          · next v hv =>
              obtain rfl := Option.some.inj hstep
              obtain ⟨as', log', hkept, hm⟩ := h.kept.step hlaw hv
              refine ⟨as', log', h.serve (fun call hmem hres s hs => ?_) (fun s x hx hid => ?_)
                hkept hm, Or.inr ⟨ev, rfl, hv, hm⟩⟩
              · exact hturn (s, call.op) hs ⟨call, hmem, hres, rfl⟩
              · exact absurd hid (foreign_of_call hforeign hx hv)
      · exact absurd hstep (by simp)

end Tracked

end World

end KV

end AiFS
