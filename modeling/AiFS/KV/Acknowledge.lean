import AiFS.KV.ClientCalls

set_option autoImplicit false

/-! # What an answer of the client says

The client numbers its requests one by one, but they reach the log in any order. A request that is
looked up when a later one has already been applied is taken for a duplicate: it is answered with
the reply to that later request and never run (`answered_for_another`).

`acknowledged` says when this does not happen. The servers have to keep to the conditions of
`Agreement.lean`, and wherever the operation of a call that has not returned is looked up, by its
handler or by an applier, the record of the client must not have a larger number. Then a `Put` or a
`Delete` that returns without an error was run by an applier during the call, and what a `Get`
returns was the value of the key in such a step. -/

namespace AiFS

namespace KV

open Pool (getElem?_concat_cases getElem?_modify_cases)

variable {n : ℕ}

namespace World

variable {codec : Codec} {as : List (Action n Op)} {log log' : List (ℕ × Op)}
  {w w' w'' w₀ : World n} {acts : List (Act n)}

/-! ## How calls go on -/

/-- What becomes of the calls: they keep their beginning, those that have returned do not change,
    and the new ones begin behind everything that has been applied. -/
structure Later (w w' : World n) : Prop where
  applied_le : w.service.applied ≤ w'.service.applied
  old : ∀ (c : ℕ) call, w.calls[c]? = some call → ∃ call', w'.calls[c]? = some call' ∧
    call'.begun = call.begun ∧ (call.result ≠ none → call' = call)
  new : ∀ (c : ℕ) call', w'.calls[c]? = some call' → w.calls[c]? = none →
    w.service.applied ≤ call'.begun

theorem Later.refl (w : World n) : Later w w where
  applied_le := le_rfl
  old _ call hc := ⟨call, hc, rfl, fun _ => rfl⟩
  new _ _ hc hnone := absurd (hc.symm.trans hnone) (by simp)

theorem Later.trans (h : Later w w') (h' : Later w' w'') : Later w w'' where
  applied_le := h.applied_le.trans h'.applied_le
  old c call hc := by
    obtain ⟨call', hc', hbegun, hsame⟩ := h.old c call hc
    obtain ⟨call'', hc'', hbegun', hsame'⟩ := h'.old c call' hc'
    refine ⟨call'', hc'', hbegun'.trans hbegun, fun hres => ?_⟩
    obtain rfl := hsame hres
    exact hsame' hres
  new c call'' hc'' hnone := by
    cases hc' : w'.calls[c]? with
    | none => exact h.applied_le.trans (h'.new c call'' hc'' hc')
    | some call' =>
        obtain ⟨_, hget, hbegun, _⟩ := h'.old c call' hc'
        obtain rfl := Option.some.inj (hc''.symm.trans hget)
        rw [hbegun]
        exact h.new c call' hc' hnone

/-- A step in which the calls stay as they are. -/
theorem Later.of_calls (hcalls : w'.calls = w.calls)
    (happ : w.service.applied ≤ w'.service.applied) : Later w w' where
  applied_le := happ
  old c call hc := ⟨call, by rw [hcalls]; exact hc, rfl, fun _ => rfl⟩
  new c call' hc hnone := absurd (hc.symm.trans (hcalls ▸ hnone)) (by simp)

/-- A running call goes on or returns. -/
theorem Later.of_modify {c : ℕ} {f : Call → Call} {call : Call} (hc : w.calls[c]? = some call)
    (hres : call.result = none) (hf : (f call).begun = call.begun)
    (hcalls : w'.calls = w.calls.modify c f) (happ : w'.service.applied = w.service.applied) :
    Later w w' where
  applied_le := happ.ge
  old d x hx := by
    rw [hcalls, Pool.getElem?_modify_eq, hx]
    refine ⟨_, rfl, ?_, fun hno => ?_⟩
    · split
      · next hd =>
          subst hd
          obtain rfl := Option.some.inj (hc.symm.trans hx)
          exact hf
      · rfl
    · split
      · next hd =>
          subst hd
          obtain rfl := Option.some.inj (hc.symm.trans hx)
          exact absurd hres hno
      · rfl
  new d x hx hnone := by
    rw [hcalls] at hx
    obtain ⟨y, hy, -⟩ := getElem?_modify_cases hx
    exact absurd (hy.symm.trans hnone) (by simp)

theorem Later.invoke (w : World n) (query : Query) : Later w (w.invoke query) := by
  have happend : ∀ {v : World n} {x : Call}, v.calls = w.calls ++ [x] → v.service = w.service →
      x.begun = w.service.applied → Later w v := by
    intro v x hcalls hservice hbegun
    refine ⟨by rw [hservice], fun c call hc => ⟨call, ?_, rfl, fun _ => rfl⟩,
      fun c y hy hnone => ?_⟩
    · rw [hcalls, List.getElem?_append_left (List.getElem?_eq_some_iff.1 hc).1]
      exact hc
    · rw [hcalls] at hy
      rcases getElem?_concat_cases hy with hold | ⟨_, rfl⟩
      · exact absurd (hold.symm.trans hnone) (by simp)
      · exact hbegun.ge
  unfold World.invoke
  split
  · exact happend rfl rfl rfl
  · exact happend rfl rfl rfl

theorem Later.receive (h : Tracked codec as log w) {a c : ℕ} (hwait : w.waiter a = some c)
    (resp : Option HTTPResponse) : Later w (w.receive c resp) := by
  obtain ⟨attempt, call, -, rfl, hc, hcur⟩ := waiter_spec hwait
  have hres := h.waits _ call hc (by rw [hcur]; simp)
  unfold World.receive
  split
  · exact .of_modify hc hres rfl rfl rfl
  · split
    · exact .of_modify hc hres rfl rfl rfl
    · exact .of_modify hc hres rfl rfl rfl

/-- The servers do not fall back. -/
theorem applied_le_step {v v' : Servers n} {ev : Event n} (h : v.step codec ev = some v') :
    v.applied ≤ v'.applied := by
  rcases Servers.step_inv h with ⟨-, -, happ, -⟩ | ⟨hap, -, -, happ, -⟩
  · exact happ.ge
  · rw [happ]
    cases hap with
    | replicas a => exact Replicas.le_mark _ _ _
    | _ => exact le_rfl

theorem later_step {act : Act n} (h : Tracked codec as log w)
    (hstep : w.step codec act = some w') : Later w w' := by
  cases act with
  | invoke query =>
      obtain rfl := Option.some.inj hstep
      exact .invoke w query
  | send c =>
      simp only [World.step] at hstep
      split at hstep
      · exact absurd hstep (by simp)
      · next call hc =>
          split at hstep
          · next hidle =>
              unfold World.send at hstep
              split at hstep
              · obtain rfl := Option.some.inj hstep
                exact .of_modify hc hidle.1 rfl rfl rfl
              · split at hstep
                · exact absurd hstep (by simp)
                · obtain rfl := Option.some.inj hstep
                  exact .of_modify hc hidle.1 rfl rfl rfl
          · exact absurd hstep (by simp)
  | arrive a =>
      simp only [World.step] at hstep
      split at hstep
      · exact absurd hstep (by simp)
      · next attempt ha =>
          split at hstep
          · exact absurd hstep (by simp)
          · next call hc =>
              split at hstep
              · obtain rfl := Option.some.inj hstep
                have hpost : w.service.step codec (.post attempt.server (.request call.req)) =
                    some (w.service.post attempt.server (.request call.req)) := rfl
                exact .of_calls rfl (applied_le_step hpost)
              · exact absurd hstep (by simp)
  | respond a =>
      simp only [World.step] at hstep
      split at hstep
      · next c reply hwait hreply =>
          obtain rfl := Option.some.inj hstep
          exact .receive h hwait _
      · exact absurd hstep (by simp)
  | fail a =>
      simp only [World.step] at hstep
      split at hstep
      · next c hwait =>
          obtain rfl := Option.some.inj hstep
          exact .receive h hwait _
      · exact absurd hstep (by simp)
  | service ev =>
      simp only [World.step] at hstep
      split at hstep
      · split at hstep
        · exact absurd hstep (by simp)
        · next v hv =>
            obtain rfl := Option.some.inj hstep
            exact .of_calls rfl (applied_le_step hv)
      · exact absurd hstep (by simp)

/-! ## When an operation was applied -/

/-- In the step from `w₁` to `w₂`, an applier takes the operation at place `p` of the log, and the
    present world is later. -/
structure Moment (codec : Codec) (log : List (ℕ × Op)) (w : World n) (p : ℕ) (op : Op)
    (w₁ : World n) (act : Act n) (w₂ : World n) : Prop where
  tracked : ∃ as₁ log₁, Tracked codec as₁ log₁ w₁
  applied : w₁.service.applied = p
  later : Later w₂ w
  behind : p < w₂.service.applied
  calls : w₂.calls = w₁.calls
  takes : ∃ ev s, act = .service ev ∧ w₁.service.Takes ev s op ∧
    w₁.service.state s = State.replay ((log.map Prod.snd).take p) ∧
    w₂.service.state s = (w₁.service.state s).apply op

/-- Every operation of the log was applied at some moment of the run. -/
def Journal (codec : Codec) (w₀ : World n) (acts : List (Act n)) (log : List (ℕ × Op))
    (w : World n) : Prop :=
  ∀ (p : ℕ) e, log[p]? = some e →
    Machine.Occurs (step codec) w₀ acts (Moment codec log w p e.2)

theorem Moment.mono {p : ℕ} {op : Op} {w₁ w₂ : World n} {act : Act n}
    (h : Moment codec log w p op w₁ act w₂) (hpre : log <+: log') (hp : p ≤ log.length)
    (hlater : Later w w') : Moment codec log' w' p op w₁ act w₂ where
  tracked := h.tracked
  applied := h.applied
  later := h.later.trans hlater
  behind := h.behind
  calls := h.calls
  takes := by
    obtain ⟨ev, s, hact, htakes, hbefore, hafter⟩ := h.takes
    refine ⟨ev, s, hact, htakes, ?_, hafter⟩
    obtain ⟨rest, rfl⟩ := hpre
    rw [hbefore, List.map_append, List.take_append_of_le_length (by simpa using hp)]

theorem journal_step {act : Act n} (hrun : Machine.exec (step codec) w₀ acts = some w)
    (h : Tracked codec as log w) (hj : Journal codec w₀ acts log w) (hlaw : w.Lawful codec act)
    (hturn : w.InTurn act) (hstep : w.step codec act = some w') :
    ∃ as' log', Tracked codec as' log' w' ∧ Journal codec w₀ (acts ++ [act]) log' w' := by
  obtain ⟨as', log', h', hlog⟩ := tracked_step h hlaw hturn hstep
  have hlater := later_step h hstep
  have hold : ∀ (p : ℕ) e, log <+: log' → log[p]? = some e →
      Machine.Occurs (step codec) w₀ (acts ++ [act]) (Moment codec log' w' p e.2) := by
    intro p e hpre hp
    have hlt := (List.getElem?_eq_some_iff.1 hp).1
    exact ((hj p e hp).append _).imp fun _ _ _ _ hm => hm.mono hpre hlt.le hlater
  refine ⟨as', log', h', fun p e hp => ?_⟩
  rcases hlog with rfl | ⟨ev, rfl, hserve, hm⟩
  · exact hold p e List.prefix_rfl hp
  · rcases h.kept.entry_cases hlaw hserve hm hp with hp | ⟨rfl, s, hadopts⟩
    · exact hold p e hm.isPrefix hp
    · have hcalls : w'.calls = w.calls := by
        simp only [World.step] at hstep
        split at hstep
        · rw [hserve] at hstep
          rw [← Option.some.inj hstep]
        · exact absurd hstep (by simp)
      refine Machine.occurs_last hrun hstep
        ⟨⟨as, log, h⟩, rfl, .refl w', ?_, hcalls, ev, s, rfl, hadopts.takes, ?_,
          hadopts.after⟩
      · rw [h'.kept.applied_eq]
        exact (List.getElem?_eq_some_iff.1 hp).1
      · obtain ⟨rest, rfl⟩ := hm.isPrefix
        rw [hadopts.before, List.map_append,
          List.take_append_of_le_length (by simp [h.kept.applied_eq]),
          List.take_of_length_le (by simp [h.kept.applied_eq])]

/-- **Run lemma.** -/
theorem journal_exec {client : Client n} (hseq : client.seqID = 0)
    (hlaw : Machine.Along (step codec) (Lawful codec) (World.init codec client) acts)
    (hturn : Machine.Along (step codec) InTurn (World.init codec client) acts)
    (h : Machine.exec (step codec) (World.init codec client) acts = some w) :
    ∃ as log, Tracked codec as log w ∧ Journal codec (World.init codec client) acts log w := by
  refine Machine.history_exec
    (I := fun acts w => ∃ as log, Tracked codec as log w ∧ Journal codec _ acts log w)
    ⟨[], [], tracked_init client hseq, fun p e hp => absurd hp (by simp)⟩ ?_ acts w
    (Machine.along_and hlaw hturn) h
  rintro acts w act w' hrun ⟨as, log, ht, hj⟩ ⟨hl, hi⟩ hstep
  exact journal_step hrun ht hj hl hi hstep

/-! ## What the methods return -/

/-- Call `c` has begun and not returned. -/
def pending (w : World n) (c : ℕ) : Prop :=
  ∃ call, w.calls[c]? = some call ∧ call.result = none

/-- During call `c`, an applier is the first to take the operation, finds it new, and its store
    becomes what a handler makes of it. -/
def AppliedBy (codec : Codec) (w₀ : World n) (acts : List (Act n)) (c : ℕ) (op : Op)
    (handler : Store → Op → Store × OpReply) : Prop :=
  Machine.Occurs (step codec) w₀ acts fun w act w' => w.pending c ∧
    ∃ ev s, act = .service ev ∧ w.service.Takes ev s op ∧ (w.service.state s).seen op = none ∧
      (w'.service.state s).kvStore = (handler (w.service.state s).kvStore op).1

/-- During call `c`, an applier is the first to take the operation, and the key has the value in its
    store, or the value is empty and there is no such key. -/
def ReadBy (codec : Codec) (w₀ : World n) (acts : List (Act n)) (c : ℕ) (op : Op)
    (key value : String) : Prop :=
  Machine.Occurs (step codec) w₀ acts fun w act _ => w.pending c ∧
    ∃ ev s, act = .service ev ∧ w.service.Takes ev s op ∧
      value = ((w.service.state s).kvStore key).getD ""

/-- What a call is told about itself is a moment during the call. -/
theorem pending_of_moment {c p : ℕ} {call : Call} {op : Op} {w₁ w₂ : World n} {act : Act n}
    {resp : HTTPResponse} (hm : Moment codec log w p op w₁ act w₂)
    (hc : w.calls[c]? = some call) (hres : call.result = some (.ok resp))
    (herr : resp.err = Err.ok ∨ resp.err = Err.errNoKey) (hlo : call.begun ≤ p)
    (hhi : p < call.ended) : w₁.pending c := by
  cases hc₁ : w₁.calls[c]? with
  | none =>
      have hbegun := hm.later.new c call hc (by rw [hm.calls]; exact hc₁)
      have := hm.behind
      omega
  | some call₁ =>
      refine ⟨call₁, hc₁, ?_⟩
      by_contra hno
      obtain ⟨call', hget, -, hsame⟩ := hm.later.old c call₁ (by rw [hm.calls]; exact hc₁)
      obtain rfl := Option.some.inj (hc.symm.trans hget)
      obtain rfl := hsame hno
      obtain ⟨as₁, log₁, htracked⟩ := hm.tracked
      obtain ⟨-, -, -, -, hlen, -⟩ := htracked.finished c _ hc₁ resp hres herr
      rw [← htracked.kept.applied_eq, hm.applied] at hlen
      omega

theorem ackResult_ok {label : String} {result : Except String HTTPResponse}
    (h : ackResult label result = .ok ()) : ∃ resp, result = .ok resp ∧ resp.err = Err.ok := by
  cases result with
  | error err => exact absurd h (by simp [ackResult])
  | ok resp =>
      by_cases hok : resp.err = Err.ok
      · exact ⟨resp, rfl, hok⟩
      · exact absurd h (by simp [ackResult, hok])

theorem getResult_ok {result : Except String HTTPResponse} {v : String}
    (h : getResult result = .ok v) :
    ∃ resp, result = .ok resp ∧ (resp.err = Err.ok ∨ resp.err = Err.errNoKey) := by
  cases result with
  | error err => exact absurd h (by simp [getResult])
  | ok resp =>
      refine ⟨resp, rfl, ?_⟩
      simp only [getResult] at h
      split at h
      · next herr => exact Or.inl herr
      · next herr => exact Or.inr herr
      · exact absurd h (by simp)

/-- The moment at which the operation of a call got the reply that the call returned. -/
theorem Tracked.moment (h : Tracked codec as log w) (hj : Journal codec w₀ acts log w) {c : ℕ}
    {call : Call} (hc : w.calls[c]? = some call) {resp : HTTPResponse}
    (hres : call.result = some (.ok resp)) (herr : resp.err = Err.ok ∨ resp.err = Err.errNoKey) :
    Machine.Occurs (step codec) w₀ acts fun w₁ act w₂ => w₁.pending c ∧
      ∃ ev s, act = .service ev ∧ w₁.service.Takes ev s call.op ∧
        (w₁.service.state s).seen call.op = none ∧
        w₂.service.state s = (w₁.service.state s).apply call.op ∧
        ∃ reply, reply = (applyToStateMachine (w₁.service.state s).kvStore call.op).2 ∧
          resp = httpResponseFromErr reply.err
            (if call.op.type = .get then reply.value else "") := by
  obtain ⟨p, reply, hlo, hhi, -, hran, hresp⟩ := h.finished c call hc resp hres herr
  have hentry := hran.entry
  rw [List.getElem?_map] at hentry
  obtain ⟨e, he, heop⟩ := Option.map_eq_some_iff.1 hentry
  refine (hj p e he).imp fun w₁ act w₂ _ hm => ?_
  rw [heop] at hm
  refine ⟨pending_of_moment hm hc hres herr hlo hhi, ?_⟩
  obtain ⟨ev, s, hact, htakes, hbefore, hafter⟩ := hm.takes
  refine ⟨ev, s, hact, htakes, ?_, hafter, reply, ?_, hresp⟩
  · rw [hbefore]
    exact hran.fresh
  · rw [hbefore]
    exact hran.reply_eq

theorem Tracked.appliedBy (h : Tracked codec as log w) (hj : Journal codec w₀ acts log w) {c : ℕ}
    {call : Call} (hc : w.calls[c]? = some call) {label : String}
    {result : Except String HTTPResponse} {handler : Store → Op → Store × OpReply}
    (hres : call.result = some result) (hack : ackResult label result = .ok ())
    (hrun : ∀ m, applyToStateMachine m call.op = handler m call.op) :
    AppliedBy codec w₀ acts c call.op handler := by
  obtain ⟨resp, rfl, hok⟩ := ackResult_ok hack
  refine (h.moment hj hc hres (Or.inl hok)).imp fun w₁ act w₂ _ hm => ?_
  obtain ⟨hpending, ev, s, hact, htakes, hfresh, hafter, -⟩ := hm
  refine ⟨hpending, ev, s, hact, htakes, hfresh, ?_⟩
  rw [hafter, State.apply, State.execute, hfresh, hrun]

theorem Tracked.readBy (h : Tracked codec as log w) (hj : Journal codec w₀ acts log w) {c : ℕ}
    {call : Call} (hc : w.calls[c]? = some call) {result : Except String HTTPResponse}
    {key v : String} (hres : call.result = some result) (hget : getResult result = .ok v)
    (hquery : call.query = .get key) : ReadBy codec w₀ acts c call.op key v := by
  have hop : call.op = ⟨.get, key, "", call.req.seqID, call.req.clientID⟩ := by
    rw [Call.op, hquery]
  obtain ⟨resp, rfl, herr⟩ := getResult_ok hget
  refine (h.moment hj hc hres herr).imp fun w₁ act w₂ _ hm => ?_
  obtain ⟨hpending, ev, s, hact, htakes, -, -, reply, hreply, hresp⟩ := hm
  refine ⟨hpending, ev, s, hact, htakes, ?_⟩
  rw [hop] at hreply hresp
  simp only [applyToStateMachine, getHandler] at hreply
  cases hm : (w₁.service.state s).kvStore key with
  | some val =>
      simp only [hm] at hreply
      subst hreply hresp
      simpa [getResult, httpResponseFromErr] using hget.symm
  | none =>
      simp only [hm] at hreply
      subst hreply hresp
      simpa [getResult, httpResponseFromErr] using hget.symm

/-- **Acknowledged means applied.** If no running call is passed, a `Put` or a `Delete` that returns
    without an error was applied during the call, and a `Get` returns a value that the key had
    then. -/
theorem acknowledged {addrs : List (Fin n)} {clientID : ℤ} (hid : clientID ≠ 0)
    (hlaw : Machine.Along (step codec) (Lawful codec)
      (World.init codec (Client.new addrs clientID hid)) acts)
    (hturn : Machine.Along (step codec) InTurn
      (World.init codec (Client.new addrs clientID hid)) acts)
    (h : Machine.exec (step codec) (World.init codec (Client.new addrs clientID hid)) acts = some w)
    {c : ℕ} {call : Call} (hc : w.calls[c]? = some call) {result : Except String HTTPResponse}
    (hres : call.result = some result) :
    (∀ key value, call.query = .put key value → putResult result = .ok () →
      AppliedBy codec (World.init codec (Client.new addrs clientID hid)) acts c call.op
        putHandler) ∧
    (∀ key, call.query = .delete key → deleteResult result = .ok () →
      AppliedBy codec (World.init codec (Client.new addrs clientID hid)) acts c call.op
        deleteHandler) ∧
    (∀ key v, call.query = .get key → getResult result = .ok v →
      ReadBy codec (World.init codec (Client.new addrs clientID hid)) acts c call.op key v) := by
  obtain ⟨as, log, ht, hj⟩ := journal_exec rfl hlaw hturn h
  refine ⟨fun key value hq hput => ?_, fun key hq hdel => ?_, fun key v hq hget => ?_⟩
  · exact ht.appliedBy hj hc hres hput fun m => by simp only [Call.op, hq, applyToStateMachine]
  · exact ht.appliedBy hj hc hres hdel fun m => by simp only [Call.op, hq, applyToStateMachine]
  · exact ht.readBy hj hc hres hget hq

/-! ## Runs -/

/-- What the replicas do. -/
def replicating (as : List (Action 3 Op)) : List (Act 3) :=
  as.map fun a => .service (.happens (.replicas a))

/-- What the handlers and the appliers do. -/
def handling (haps : List (Happening 3)) : List (Act 3) :=
  haps.map fun hap => .service (.happens hap)

/-- The conditions on the servers, in a form that can be evaluated. -/
def Steady (w : World n) : Act n → Prop
  | .service ev => w.service.Steady ev
  | _ => True

instance (w : World n) : ∀ act, Decidable (w.Steady act)
  | .service ev => inferInstanceAs (Decidable (w.service.Steady ev))
  | .invoke _ | .send _ | .arrive _ | .respond _ | .fail _ => isTrue trivial

theorem Steady.lawful (codec : Codec) {act : Act n} (h : w.Steady act) : w.Lawful codec act := by
  cases act with
  | service ev => exact Servers.Steady.lawful codec h
  | _ => trivial

/-- A client of three servers. -/
def sharedClient : Client 3 :=
  Client.new [0, 1, 2] 5 (by decide)

/-- A `Put` and a `Get` at the same time. Server `0` leads; the `Get` is sent to server `1` and to
    server `2`, where it gets lost, and reaches the leader when the `Put` has returned. -/
def putThenGet : List (Act 3) :=
  replicating electRun ++
  [.invoke (.put "a" "1"), .invoke (.get "a"), .send 0, .send 1, .arrive 0, .arrive 1] ++
  handling [.enter 0, .enter 1] ++ [.respond 1] ++ handling [.register 0] ++
  replicating [.run 0 2, .run 0 2, .deliver 1, .deliver 1, .apply 0, .receive 0 0] ++
  handling [.notify 0, .wake 0, .getState 0, .finish 0] ++
  [.respond 0, .send 1, .fail 2, .send 1, .arrive 3] ++ handling [.enter 2, .register 2] ++
  replicating [.run 0 3, .run 0 3, .deliver 1, .deliver 1, .apply 0, .receive 0 0] ++
  handling [.notify 0, .wake 2, .getState 2, .finish 2] ++ [.respond 3]

theorem acknowledged_putThenGet : ∃ w put get,
    Machine.exec (step blankCodec) (World.init blankCodec sharedClient) putThenGet = some w ∧
    w.calls[0]? = some put ∧
    AppliedBy blankCodec (World.init blankCodec sharedClient) putThenGet 0 put.op putHandler ∧
    w.calls[1]? = some get ∧
    ReadBy blankCodec (World.init blankCodec sharedClient) putThenGet 1 get.op "a" "1" := by
  have hrun : (Machine.exec (step blankCodec) (World.init blankCodec sharedClient) putThenGet).map
      (fun w => w.calls.map fun call => (call.query, call.result)) =
      some [(.put "a" "1", some (.ok ⟨true, "", Err.ok⟩)),
        (.get "a", some (.ok ⟨true, "1", Err.ok⟩))] := by decide
  have hsteady : Machine.Along (step blankCodec) Steady (World.init blankCodec sharedClient)
      putThenGet := by decide
  have hturn : Machine.Along (step blankCodec) InTurn (World.init blankCodec sharedClient)
      putThenGet := by decide
  have hlaw := Machine.along_mono (fun _ _ h => Steady.lawful blankCodec h) hsteady
  obtain ⟨w, hw, hcalls⟩ := Option.map_eq_some_iff.1 hrun
  have hcall : ∀ c : ℕ, (w.calls[c]?).map (fun call => (call.query, call.result)) =
      ([(.put "a" "1", some (.ok ⟨true, "", Err.ok⟩)),
        (.get "a", some (.ok ⟨true, "1", Err.ok⟩))] : List _)[c]? := fun c => by
    rw [← hcalls, List.getElem?_map]
  obtain ⟨put, hput, hputs⟩ := Option.map_eq_some_iff.1 (hcall 0)
  obtain ⟨get, hget, hgets⟩ := Option.map_eq_some_iff.1 (hcall 1)
  obtain ⟨hpq, hpr⟩ := Prod.mk.inj hputs
  obtain ⟨hgq, hgr⟩ := Prod.mk.inj hgets
  refine ⟨w, put, get, hw, hput, ?_, hget, ?_⟩
  · exact (acknowledged (by decide) hlaw hturn hw hput hpr).1 _ _ hpq rfl
  · exact (acknowledged (by decide) hlaw hturn hw hget hgr).2.2 _ _ hgq rfl

/-- Two `Put`s at the same time. The first one is sent to the leader, but the second one, which
    finds the leader in its third attempt, overtakes it: it is committed, applied and answered
    before the request of the first one arrives. -/
def overtakenPut : List (Act 3) :=
  replicating electRun ++
  [.invoke (.put "a" "1"), .invoke (.put "b" "2"), .send 0, .send 1, .fail 1, .send 1, .fail 2,
    .send 1, .arrive 3] ++ handling [.enter 0, .register 0] ++
  replicating [.run 0 2, .run 0 2, .deliver 1, .deliver 1, .apply 0, .receive 0 0] ++
  handling [.notify 0, .wake 0, .getState 0, .finish 0] ++ [.respond 3, .arrive 0] ++
  handling [.enter 1] ++ [.respond 0]

/-- Both return without an error, and the first one is in nobody's log and nobody's store, though
    the servers keep to their conditions. -/
theorem answered_for_another :
    (Machine.exec (step blankCodec) (World.init blankCodec sharedClient) overtakenPut).map
        (fun w => w.calls.map fun call => (call.query, call.result.map putResult)) =
      some [(.put "a" "1", some (.ok ())), (.put "b" "2", some (.ok ()))] ∧
    (Machine.exec (step blankCodec) (World.init blankCodec sharedClient) overtakenPut).map
        (fun w => (List.finRange 3).map fun s =>
          ((w.service.waiters.replicas.raft.rf s).fullLog.map LogEntry.command,
            (w.service.state s).kvStore "a")) =
      some [([some ⟨.put, "b", "2", 2, 5⟩], none), ([some ⟨.put, "b", "2", 2, 5⟩], none),
        ([], none)] ∧
    Machine.Along (step blankCodec) Steady (World.init blankCodec sharedClient) overtakenPut := by
  decide

end World

end KV

end AiFS
