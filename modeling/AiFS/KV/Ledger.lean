import AiFS.KV.Applied
import AiFS.KV.Notify

set_option autoImplicit false

/-! # What handlers answer

The handlers of `Waiters.lean` on top of the log of applied operations. A handler knows an index and
a term; the applier of its server puts the reply to whatever stands at that index into its channel,
be it the handler's operation or another one. Between the two is the test in `waitApplied` that the
server still leads the handler's term: behind it the operation is the handler's own
(`Booked.own`), and the reply is the one that the operation gets at its place of the log.

`Ledger` is the invariant of the servers, under the conditions of `Agreement.lean`; what a step adds
to the log and how a handler comes by its answer in it is `Advance`. -/

namespace AiFS

namespace KV

open TermLog

variable {n : ℕ} {codec : Codec} {as as' : List (Action n Op)} {log log' : List (ℕ × Op)}

/-! ## Replies on their way -/

/-- What a handler knows of its operation. -/
def Waiter.place (x : Waiter n) : Place where
  op := x.op
  index := x.index
  term := x.startTerm

def Waiters.places (w : Waiters n) : List Place :=
  w.handlers.map Waiter.place

/-- The reply that a handler has, or can take out of its channel. -/
def Waiter.hand (x : Waiter n) : Option OpReply :=
  match x.progress with
  | .selecting => x.ch
  | .received reply => some reply
  | _ => none

/-- Who is not in its `select` does not look into the channel. -/
theorem Waiter.hand_of_not_selecting {x : Waiter n} (h : x.progress ≠ .selecting)
    (ch : Option OpReply) : ({ x with ch := ch } : Waiter n).hand = x.hand := by
  simp only [Waiter.hand]
  split
  · next hselecting => exact absurd hselecting h
  · rfl
  · rfl

/-- The reply to the operation at an index of the log, by an applier that has got to `m`. -/
def Replied (log : List (ℕ × Op)) (m idx : ℕ) (reply : OpReply) : Prop :=
  0 < idx ∧ idx ≤ m ∧ ∃ e, log[idx - 1]? = some e ∧
    reply = State.replyAt (log.map Prod.snd) (idx - 1) e.2

/-- What a handler that is back from `waitApplied` is going to return: an error, or the reply to its
    own operation. -/
def Waited (log : List (ℕ × Op)) (h : ℕ) (x : Waiter n) (reply : OpReply) (err : Err) : Prop :=
  err = .errWrongLeader ∨ err = .errTimeOut ∨
    err = .ok ∧ (reply = { err := .errWrongLeader } ∨
      log[x.index - 1]? = some (h, x.op) ∧
        reply = State.replyAt (log.map Prod.snd) (x.index - 1) x.op)

/-- What is true of handler `h` at any time. -/
structure Waiter.Sound (reached : Fin n → ℕ) (log : List (ℕ × Op)) (h : ℕ) (x : Waiter n) :
    Prop where
  fresh : x.progress = .entered → x.index = 0
  hand : ∀ reply, x.hand = some reply →
    reply = { err := .errWrongLeader } ∨ Replied log (reached x.server) x.index reply
  returns : ∀ reply err, x.progress = .returning reply err → Waited log h x reply err

theorem replyAt_of_isPrefix (hlog : log <+: log') {p : ℕ} (hp : p ≤ log.length) (op : Op) :
    State.replyAt (log'.map Prod.snd) p op = State.replyAt (log.map Prod.snd) p op := by
  obtain ⟨rest, rfl⟩ := hlog
  rw [List.map_append, State.replyAt_append (by simpa using hp)]

theorem Replied.mono {m m' idx : ℕ} {reply : OpReply} (h : Replied log m idx reply)
    (hlog : log <+: log') (hm : m ≤ m') : Replied log' m' idx reply := by
  obtain ⟨hpos, hle, e, he, hreply⟩ := h
  refine ⟨hpos, hle.trans hm, e, getElem?_of_isPrefix hlog he, ?_⟩
  rw [replyAt_of_isPrefix hlog (List.getElem?_eq_some_iff.1 he).1.le]
  exact hreply

theorem Waited.mono {h : ℕ} {x : Waiter n} {reply : OpReply} {err : Err}
    (hr : Waited log h x reply err) (hlog : log <+: log') : Waited log' h x reply err := by
  rcases hr with hwrong | htime | ⟨hok, hbounced | ⟨hown, hreply⟩⟩
  · exact Or.inl hwrong
  · exact Or.inr (Or.inl htime)
  · exact Or.inr (Or.inr ⟨hok, Or.inl hbounced⟩)
  · refine Or.inr (Or.inr ⟨hok, Or.inr ⟨getElem?_of_isPrefix hlog hown, ?_⟩⟩)
    rw [replyAt_of_isPrefix hlog (List.getElem?_eq_some_iff.1 hown).1.le]
    exact hreply

namespace Waiter.Sound

variable {reached reached' : Fin n → ℕ} {h : ℕ} {x : Waiter n}

theorem mono (hx : x.Sound reached log h) (hlog : log <+: log')
    (hreached : reached x.server ≤ reached' x.server) : x.Sound reached' log' h where
  fresh := hx.fresh
  hand reply hhand := (hx.hand reply hhand).imp_right fun hr => hr.mono hlog hreached
  returns reply err hret := (hx.returns reply err hret).mono hlog

/-- A handler that has no reply in hand and is not about to return one. -/
theorem of_idle (hentered : x.progress ≠ .entered) (hhand : x.hand = none)
    (hret : ∀ reply err, x.progress ≠ .returning reply err) : x.Sound reached log h where
  fresh hno := absurd hno hentered
  hand reply hsome := absurd (hhand.symm.trans hsome) (by simp)
  returns reply err hno := absurd hno (hret reply err)

end Waiter.Sound

/-! ## The ledger -/

structure Ledger (codec : Codec) (as : List (Action n Op)) (w : Waiters n)
    (log : List (ℕ × Op)) : Prop where
  inv : w.Inv
  booked : Booked codec as w.replicas w.places log
  notices : ∀ s idx reply, w.notifying s = some (idx, reply) →
    Replied log (w.replicas.replica s).reached idx reply
  handlers : ∀ (h : ℕ) (x : Waiter n), w.handlers[h]? = some x →
    x.Sound (fun s => (w.replicas.replica s).reached) log h

/-- How a handler comes by its answer: from the record of its client, by an error, or as the owner
    of an operation of the log. -/
inductive Reason (w : Waiters n) (log : List (ℕ × Op)) (ev : Happening n) (h : ℕ)
    (x : Waiter n) : OpReply → Prop
  | looked {lastReply : OpReply} (hev : ev = .enter h)
      (hseen : (w.replicas.replica x.server).kv.state.seen x.op = some lastReply) :
      Reason w log ev h x (x.op.returns lastReply)
  | failed {reply : OpReply} (hok : reply.err ≠ .ok) (hkey : reply.err ≠ .errNoKey) :
      Reason w log ev h x reply
  | own {p : ℕ} (hp : log[p]? = some (h, x.op)) :
      Reason w log ev h x (x.op.returns (State.replyAt (log.map Prod.snd) p x.op))

/-- What a step makes of a handler. -/
structure Continues (w : Waiters n) (log : List (ℕ × Op)) (ev : Happening n) (h : ℕ)
    (x x' : Waiter n) : Prop where
  server : x'.server = x.server
  op : x'.op = x.op
  place : 0 < x.index → x'.place = x.place
  kept : ∀ reply, x.progress = .answered reply → x'.progress = .answered reply
  answered : ∀ reply, x'.progress = .answered reply →
    x.progress = .answered reply ∨ Reason w log ev h x reply

/-- What a step makes of all handlers. -/
structure Handled (w : Waiters n) (log : List (ℕ × Op)) (ev : Happening n) (w' : Waiters n) :
    Prop where
  kept : ∀ (h : ℕ) (x : Waiter n), w.handlers[h]? = some x → ∃ x', w'.handlers[h]? = some x'
  each : ∀ (h : ℕ) (x' : Waiter n), w'.handlers[h]? = some x' →
    (∃ x, w.handlers[h]? = some x ∧ Continues w log ev h x x') ∨
      ∃ s op, ev = .call s op ∧ h = w.handlers.length ∧ x' = ⟨s, op, 0, 0, none, .entered⟩

/-- What a step does to the log, to the calls of `Start` and to the handlers. -/
structure Advance (w : Waiters n) (as : List (Action n Op)) (log : List (ℕ × Op))
    (ev : Happening n) (w' : Waiters n) (as' : List (Action n Op)) (log' : List (ℕ × Op)) :
    Prop where
  length_eq : log'.length = w.mark log.length ev
  grown : log' = log ∨ ∃ a s g x, ev = .replicas a ∧
    w.replicas.taken a = some (s, log.length + 1, x.op) ∧
    (w.replicas.replica s).reached = log.length ∧ w.handlers[g]? = some x ∧
    x.index = log.length + 1 ∧ log' = log ++ [(g, x.op)]
  proposals : ∀ k op i t, Proposal as' k (some op) i t → Proposal as k (some op) i t ∨
    k = as.length ∧ ∃ h x, ev = .enter h ∧ w.handlers[h]? = some x ∧ x.op = op ∧
      (w.replicas.replica x.server).kv.state.seen x.op = none
  handled : Handled w log ev w'

theorem Advance.isPrefix {w w' : Waiters n} {ev : Happening n}
    (h : Advance w as log ev w' as' log') : log <+: log' := by
  rcases h.grown with rfl | ⟨_, _, g, x, _, _, _, _, _, rfl⟩
  · exact List.prefix_rfl
  · exact List.prefix_append _ _

namespace Continues

variable {w : Waiters n} {ev : Happening n} {h : ℕ} {x x' : Waiter n}

theorem refl : Continues w log ev h x x where
  server := rfl
  op := rfl
  place _ := rfl
  kept _ hx := hx
  answered _ hx := Or.inl hx

/-- A handler that stays on its way. -/
theorem of_unanswered (hserver : x'.server = x.server) (hop : x'.op = x.op)
    (hplace : 0 < x.index → x'.place = x.place) (hx : ∀ reply, x.progress ≠ .answered reply)
    (hx' : ∀ reply, x'.progress ≠ .answered reply) :
    Continues w log ev h x x' where
  server := hserver
  op := hop
  place := hplace
  kept reply hno := absurd hno (hx reply)
  answered reply hno := absurd hno (hx' reply)

/-- A handler answers. -/
theorem of_answer {reply : OpReply} (hserver : x'.server = x.server) (hop : x'.op = x.op)
    (hplace : 0 < x.index → x'.place = x.place) (hx : ∀ reply, x.progress ≠ .answered reply)
    (hx' : x'.progress = .answered reply) (ha : Reason w log ev h x reply) :
    Continues w log ev h x x' where
  server := hserver
  op := hop
  place := hplace
  kept reply hno := absurd hno (hx reply)
  answered reply' hreply := by
    obtain rfl := WaitStage.answered.inj (hx'.symm.trans hreply)
    exact Or.inr ha

end Continues

namespace Ledger

variable {w w₁ w' : Waiters n} {s : Fin n} {h : ℕ} {x : Waiter n} {f : Waiter n → Waiter n}
  {ev : Happening n}

theorem place_of (hx : w.handlers[h]? = some x) : w.places[h]? = some x.place := by
  rw [Waiters.places, List.getElem?_map, hx]
  rfl

theorem exists_handler {y : Place} (hy : w.places[h]? = some y) :
    ∃ x, w.handlers[h]? = some x ∧ x.place = y := by
  rw [Waiters.places, List.getElem?_map] at hy
  exact Option.map_eq_some_iff.1 hy

/-- The place of the handler that is modified. -/
theorem places_modify (hx : w.handlers[h]? = some x) :
    (w.modify h f).places = w.places.set h (f x).place := by
  refine List.ext_getElem? fun j => ?_
  rw [Pool.getElem?_set_of_some (place_of hx), Waiters.places, Waiters.places, Waiters.modify,
    List.getElem?_map, List.getElem?_map, Pool.getElem?_modify_eq, Option.map_map]
  by_cases hj : j = h
  · subst hj
    simp [hx]
  · simp [hj, Ne.symm hj, Function.comp_def]

/-- The state of a server is the result of what it has of the log. -/
theorem state_eq (hL : Ledger codec as w log) (s : Fin n) :
    (w.replicas.replica s).kv.state =
      State.replay ((log.map Prod.snd).take (w.replicas.replica s).reached) :=
  hL.booked.state_eq s

theorem reached_le (hL : Ledger codec as w log) (s : Fin n) :
    (w.replicas.replica s).reached ≤ log.length :=
  (hL.booked.within.server s).reached

/-- The owner of an operation of the log. -/
theorem owner (hL : Ledger codec as w log) {p : ℕ} {op : Op} (hp : log[p]? = some (h, op)) :
    ∃ x, w.handlers[h]? = some x ∧ x.op = op ∧ x.index = p + 1 := by
  obtain ⟨t, ht⟩ := hL.booked.tagged hp
  obtain ⟨x, hx, hplace⟩ := exists_handler ht
  exact ⟨x, hx, congrArg Place.op hplace, congrArg Place.index hplace⟩

theorem init : Ledger codec [] (Waiters.init codec n) [] where
  inv := Waiters.inv_init codec
  booked := Booked.init
  notices s idx reply hno := absurd hno (by simp [Waiters.init])
  handlers h x hno := absurd hno (by simp [Waiters.init])

/-! ## Handlers one by one -/

theorem handled_map {F : ℕ → Waiter n → Waiter n}
    (hget : ∀ j, w'.handlers[j]? = (w.handlers[j]?).map (F j))
    (hF : ∀ j y, w.handlers[j]? = some y → Continues w log ev j y (F j y)) :
    Handled w log ev w' where
  kept j y hy := ⟨F j y, by rw [hget, hy]; rfl⟩
  each j y' hy' := by
    rw [hget] at hy'
    obtain ⟨y, hy, rfl⟩ := Option.map_eq_some_iff.1 hy'
    exact Or.inl ⟨y, hy, hF j y hy⟩

/-- No handler's place changes. -/
theorem of_map {F : ℕ → Waiter n → Waiter n} (hinv : w'.Inv)
    (hbooked : Booked codec as' w'.replicas w.places log')
    (hget : ∀ j, w'.handlers[j]? = (w.handlers[j]?).map (F j))
    (hplace : ∀ j y, w.handlers[j]? = some y → (F j y).place = y.place)
    (hsound : ∀ j y, w.handlers[j]? = some y →
      (F j y).Sound (fun s => (w'.replicas.replica s).reached) log' j)
    (hnotices : ∀ s idx reply, w'.notifying s = some (idx, reply) →
      Replied log' (w'.replicas.replica s).reached idx reply) : Ledger codec as' w' log' where
  inv := hinv
  booked := by
    have hplaces : w'.places = w.places := by
      refine List.ext_getElem? fun j => ?_
      rw [Waiters.places, Waiters.places, List.getElem?_map, List.getElem?_map, hget]
      cases hy : w.handlers[j]? with
      | none => rfl
      | some y => exact congrArg some (hplace j y hy)
    rw [hplaces]
    exact hbooked
  notices := hnotices
  handlers j y' hy' := by
    rw [hget] at hy'
    obtain ⟨y, hy, rfl⟩ := Option.map_eq_some_iff.1 hy'
    exact hsound j y hy

/-- A step that neither adds to the log nor calls `Start`. -/
theorem advance_stay (hmark : w.mark log.length ev = log.length) (hw' : Handled w log ev w') :
    Advance w as log ev w' as log where
  length_eq := hmark.symm
  grown := Or.inl rfl
  proposals _ _ _ _ hk := Or.inl hk
  handled := hw'

theorem handled_modify (hw₁ : w₁.handlers = w.handlers) (hx : w.handlers[h]? = some x)
    (hf : Continues w log ev h x (f x)) : Handled w log ev (w₁.modify h f) := by
  refine handled_map (F := fun j y => if h = j then f y else y) (fun j => ?_) fun j y hy => ?_
  · rw [← hw₁]
    exact Pool.getElem?_modify_eq _ _ _ _
  · split
    · next hj =>
        subst hj
        obtain rfl := Option.some.inj (hx.symm.trans hy)
        exact hf
    · exact .refl

/-! ## Stretches of a handler -/

/-- A stretch of handler `h` that leaves its place alone, and at most takes back a notice. -/
theorem stretch (hL : Ledger codec as w log) (hreplicas : w₁.replicas = w.replicas)
    (hhandlers : w₁.handlers = w.handlers)
    (hnotices : ∀ s notice, w₁.notifying s = some notice → w.notifying s = some notice)
    (hinv : (w₁.modify h f).Inv) (hmark : w.mark log.length ev = log.length)
    (hx : w.handlers[h]? = some x) (hplace : (f x).place = x.place)
    (hsound : (f x).Sound (fun s => (w.replicas.replica s).reached) log h)
    (hf : Continues w log ev h x (f x)) :
    Ledger codec as (w₁.modify h f) log ∧ Advance w as log ev (w₁.modify h f) as log := by
  refine ⟨of_map (w := w) (F := fun j y => if h = j then f y else y) hinv ?_ (fun j => ?_)
    (fun j y hy => ?_) (fun j y hy => ?_) (fun s idx reply hpending => ?_),
    advance_stay hmark (handled_modify hhandlers hx hf)⟩
  · show Booked codec as w₁.replicas w.places log
    rw [hreplicas]
    exact hL.booked
  · rw [← hhandlers]
    exact Pool.getElem?_modify_eq _ _ _ _
  · split
    · next hj =>
        subst hj
        obtain rfl := Option.some.inj (hx.symm.trans hy)
        exact hplace
    · rfl
  · show Waiter.Sound (fun s => (w₁.replicas.replica s).reached) log j _
    rw [hreplicas]
    split
    · next hj =>
        subst hj
        obtain rfl := Option.some.inj (hx.symm.trans hy)
        exact hsound
    · exact hL.handlers j y hy
  · show Replied log (w₁.replicas.replica s).reached idx reply
    rw [hreplicas]
    exact hL.notices s idx reply (hnotices s _ hpending)

theorem register (hL : Ledger codec as w log) (hx : w.handlers[h]? = some x)
    (hstarted : x.progress = .started) : Ledger codec as (w.register h x) log ∧
      Advance w as log (.register h) (w.register h x) as log :=
  hL.stretch rfl rfl (fun _ _ hs => hs) (hL.inv.register hx hstarted) rfl hx rfl
    (.of_idle (by simp) (by simp [Waiter.hand]) (by simp))
    (.of_unanswered rfl rfl (fun _ => rfl) (by simp [hstarted]) (by simp))

theorem wake (hL : Ledger codec as w log) {reply : OpReply} (hx : w.handlers[h]? = some x)
    (hselecting : x.progress = .selecting) (hch : x.ch = some reply)
    (hinv : (w.modify h fun x => { x with ch := none, progress := .received reply }).Inv) :
    Ledger codec as (w.modify h fun x => { x with ch := none, progress := .received reply }) log ∧
      Advance w as log (.wake h)
        (w.modify h fun x => { x with ch := none, progress := .received reply }) as log := by
  refine hL.stretch rfl rfl (fun _ _ hs => hs) hinv rfl hx rfl ⟨by simp, ?_, by simp⟩
    (.of_unanswered rfl rfl (fun _ => rfl) (by simp [hselecting]) (by simp))
  rintro reply' ⟨⟩
  exact (hL.handlers h x hx).hand reply (by simp only [Waiter.hand, hselecting, hch])

theorem timeout (hL : Ledger codec as w log) (hx : w.handlers[h]? = some x)
    (hselecting : x.progress = .selecting)
    (hinv : (w.modify h fun x => { x with progress := .returning {} Err.errTimeOut }).Inv) :
    Ledger codec as (w.modify h fun x => { x with progress := .returning {} Err.errTimeOut }) log ∧
      Advance w as log (.timeout h)
        (w.modify h fun x => { x with progress := .returning {} Err.errTimeOut }) as log := by
  refine hL.stretch rfl rfl (fun _ _ hs => hs) hinv rfl hx rfl
    ⟨by simp, by simp [Waiter.hand], ?_⟩
    (.of_unanswered rfl rfl (fun _ => rfl) (by simp [hselecting]) (by simp))
  rintro reply err ⟨⟩
  exact Or.inr (Or.inl rfl)

/-- The test of the term: behind it, the operation at the index is the handler's own. -/
theorem waited_of_checkLeader (hL : Ledger codec as w log) {reply : OpReply}
    (hx : w.handlers[h]? = some x) (hreceived : x.progress = .received reply) :
    Waited log h x reply (w.checkLeader x) := by
  by_cases hlead : (w.replicas.raft.rf x.server).getState = (x.startTerm, true)
  · have hok : w.checkLeader x = Err.ok := by
      simp [Waiters.checkLeader, hlead]
    rw [hok]
    refine Or.inr (Or.inr ⟨rfl, ?_⟩)
    have hhand := (hL.handlers h x hx).hand reply (by simp only [Waiter.hand, hreceived])
    refine hhand.imp_right ?_
    rintro ⟨hpos, hle, e, he, hreply⟩
    have hown : log[x.index - 1]? = some (h, x.op) :=
      hL.booked.own (place_of hx) hpos hle hlead
    obtain rfl := Option.some.inj (he.symm.trans hown)
    exact ⟨hown, hreply⟩
  · refine Or.inl ?_
    cases hstate : (w.replicas.raft.rf x.server).getState with
    | mk term isLeader =>
        simp only [Waiters.checkLeader, hstate]
        rw [if_pos]
        by_contra hno
        simp only [not_or, Bool.not_eq_true, Bool.not_eq_false', ne_eq, not_not] at hno
        exact hlead (by rw [hstate, hno.1, hno.2])

theorem getState (hL : Ledger codec as w log) {reply : OpReply} (hx : w.handlers[h]? = some x)
    (hreceived : x.progress = .received reply)
    (hinv : (w.modify h fun y => { y with progress := .returning reply (w.checkLeader x) }).Inv) :
    Ledger codec as
        (w.modify h fun y => { y with progress := .returning reply (w.checkLeader x) }) log ∧
      Advance w as log (.getState h)
        (w.modify h fun y => { y with progress := .returning reply (w.checkLeader x) }) as log := by
  refine hL.stretch rfl rfl (fun _ _ hs => hs) hinv rfl hx rfl
    ⟨by simp, by simp [Waiter.hand], ?_⟩
    (.of_unanswered rfl rfl (fun _ => rfl) (by simp [hreceived]) (by simp))
  intro reply' err heq
  obtain ⟨rfl, rfl⟩ := WaitStage.returning.inj heq
  have hwaited := hL.waited_of_checkLeader hx hreceived
  exact hwaited

/-- What a handler returns of what `waitApplied` has returned. -/
theorem reason_of_waited {reply : OpReply} {err : Err} (hr : Waited log h x reply err) :
    Reason w log ev h x (if err = Err.ok then x.op.returns reply else { err := err }) := by
  rcases hr with rfl | rfl | ⟨rfl, rfl | ⟨hown, rfl⟩⟩
  · exact .failed (by simp) (by simp)
  · exact .failed (by simp) (by simp)
  · exact .failed (by simp [Op.returns]) (by simp [Op.returns])
  · rw [if_pos rfl]
    exact .own hown

theorem finish (hL : Ledger codec as w log) {reply : OpReply} {err : Err}
    (hx : w.handlers[h]? = some x) (hreturning : x.progress = .returning reply err)
    (hinv : (w.finish h x reply err).Inv) : Ledger codec as (w.finish h x reply err) log ∧
      Advance w as log (.finish h) (w.finish h x reply err) as log :=
  hL.stretch rfl rfl (fun _ _ hs => hs) hinv rfl hx rfl
    (.of_idle (by simp) (by simp [Waiter.hand]) (by simp))
    (.of_answer rfl rfl (fun _ => rfl) (by simp [hreturning]) rfl
      (reason_of_waited ((hL.handlers h x hx).returns reply err hreturning)))

/-- A killed server sends a handler away. -/
theorem refuse (hL : Ledger codec as w log) (hx : w.handlers[h]? = some x)
    (hentered : x.progress = .entered)
    (hinv : (w.modify h fun x => { x with progress := .answered {} }).Inv) :
    Ledger codec as (w.modify h fun x => { x with progress := .answered {} }) log ∧
      Advance w as log (.refuse h) (w.modify h fun x => { x with progress := .answered {} }) as
        log :=
  hL.stretch rfl rfl (fun _ _ hs => hs) hinv rfl hx rfl
    (.of_idle (by simp) (by simp [Waiter.hand]) (by simp))
    (.of_answer rfl rfl (fun _ => rfl) (by simp [hentered]) rfl (.failed (by simp) (by simp)))

/-- The first stretch of a handler whose client is known to have got its answer. -/
theorem enter_seen (hL : Ledger codec as w log) {lastReply : OpReply}
    (hx : w.handlers[h]? = some x) (hentered : x.progress = .entered)
    (hseen : (w.replicas.replica x.server).kv.state.seen x.op = some lastReply)
    (hinv : (w.modify h fun x =>
      { x with progress := .answered (x.op.returns lastReply) }).Inv) :
    Ledger codec as
        (w.modify h fun x => { x with progress := .answered (x.op.returns lastReply) }) log ∧
      Advance w as log (.enter h)
        (w.modify h fun x => { x with progress := .answered (x.op.returns lastReply) }) as log :=
  hL.stretch rfl rfl (fun _ _ hs => hs) hinv rfl hx rfl
    (.of_idle (by simp) (by simp [Waiter.hand]) (by simp))
    (.of_answer rfl rfl (fun _ => rfl) (by simp [hentered]) rfl (.looked rfl hseen))

/-- The first stretch of a handler that calls `Start`: it is sent away, or has a place now. -/
theorem enter_start (hL : Ledger codec as w log) {r : Replicas n} (hx : w.handlers[h]? = some x)
    (hentered : x.progress = .entered)
    (hseen : (w.replicas.replica x.server).kv.state.seen x.op = none)
    (hr : w.replicas.step codec (.start x.server (some x.op)) = some r)
    (hf : (((w.replicas.raft.rf x.server).start (some x.op)).2 = none ∧
        f x = { x with progress := .answered { err := Err.errWrongLeader } }) ∨
      ∃ i t, ((w.replicas.raft.rf x.server).start (some x.op)).2 = some (i, t) ∧
        f x = { x with index := i, startTerm := t, progress := .started })
    (hinv : (({ w with replicas := r } : Waiters n).modify h f).Inv) :
    Ledger codec (as ++ [.start x.server (some x.op)])
        (({ w with replicas := r } : Waiters n).modify h f) log ∧
      Advance w as log (.enter h) (({ w with replicas := r } : Waiters n).modify h f)
        (as ++ [.start x.server (some x.op)]) log := by
  have hzero : x.index = 0 := (hL.handlers h x hx).fresh hentered
  obtain ⟨-, q, hq, hrep⟩ := Replicas.step_inv codec hr
  have hsame : r.replica = w.replicas.replica := by
    rw [hrep, Replicas.service_quiet codec (by simp) rfl hq]
  have hx₁ : ({ w with replicas := r } : Waiters n).handlers[h]? = some x := hx
  have hsound : (f x).Sound (fun s => (w.replicas.replica s).reached) log h := by
    rcases hf with ⟨-, hfx⟩ | ⟨i, t, -, hfx⟩
    · rw [hfx]
      exact .of_idle (by simp) (by simp [Waiter.hand]) (by simp)
    · rw [hfx]
      exact .of_idle (by simp) (by simp [Waiter.hand]) (by simp)
  have hfollows : Continues w log (.enter h) h x (f x) := by
    rcases hf with ⟨-, hfx⟩ | ⟨i, t, -, hfx⟩
    · rw [hfx]
      exact .of_answer rfl rfl (fun _ => rfl) (by simp [hentered]) rfl (.failed (by simp) (by simp))
    · rw [hfx]
      exact .of_unanswered rfl rfl (fun hpos => absurd hpos (by omega)) (by simp [hentered])
        (by simp)
  have hplaces : (({ w with replicas := r } : Waiters n).modify h f).places =
      Place.given w.places h x.op ((w.replicas.raft.rf x.server).start (some x.op)).2 := by
    rcases hf with ⟨hnone, hfx⟩ | ⟨i, t, hsome, hfx⟩
    · rw [hnone, places_modify hx₁, hfx]
      exact List.ext_getElem? fun j => by
        rw [Pool.getElem?_set_of_some (place_of hx₁)]
        split
        · next hj => exact hj ▸ (place_of hx₁).symm
        · rfl
    · rw [hsome, places_modify hx₁, hfx]
      rfl
  refine ⟨⟨hinv, ?_, fun s idx reply hpending => ?_, fun j y hy => ?_⟩,
    rfl, Or.inl rfl, fun k op i t hk => ?_, handled_modify rfl hx hfollows⟩
  · rw [hplaces]
    exact hL.booked.start (place_of hx) hzero hr
  · show Replied log (r.replica s).reached idx reply
    rw [hsame]
    exact hL.notices s idx reply hpending
  · show y.Sound (fun s => (r.replica s).reached) log j
    rw [hsame]
    obtain ⟨z, hz, ⟨rfl, rfl⟩ | ⟨_, rfl⟩⟩ := Pool.getElem?_modify_cases hy
    · obtain rfl := Option.some.inj (hx.symm.trans hz)
      exact hsound
    · exact hL.handlers j y hz
  · rcases hk.of_concat hL.booked.run with hold | ⟨hlast, s, ha, -⟩
    · exact Or.inl hold
    · obtain ⟨-, hop⟩ := Action.start.inj ha
      exact Or.inr ⟨hlast, h, x, rfl, hx, Option.some.inj hop, hseen⟩

theorem call (hL : Ledger codec as w log) (s : Fin n) (op : Op) :
    Ledger codec as { w with handlers := w.handlers ++ [⟨s, op, 0, 0, none, .entered⟩] } log ∧
      Advance w as log (.call s op)
        { w with handlers := w.handlers ++ [⟨s, op, 0, 0, none, .entered⟩] } as log := by
  constructor
  · refine ⟨hL.inv.call _, ?_, hL.notices, fun j y hy => ?_⟩
    · show Booked codec as w.replicas ((w.handlers ++ _).map Waiter.place) log
      rw [List.map_append]
      exact hL.booked.call op
    · rcases Pool.getElem?_concat_cases hy with hold | ⟨-, rfl⟩
      · exact hL.handlers j y hold
      · exact ⟨fun _ => rfl, by simp [Waiter.hand], by simp⟩
  · refine advance_stay rfl ⟨fun j y hy => ?_, fun j y hy => ?_⟩
    · exact ⟨y, (List.getElem?_append_left (List.getElem?_eq_some_iff.1 hy).1).trans hy⟩
    · rcases Pool.getElem?_concat_cases hy with hold | ⟨rfl, rfl⟩
      · exact Or.inl ⟨y, hold, .refl⟩
      · exact Or.inr ⟨s, op, rfl, rfl, rfl⟩

/-- The applier notifies: the reply goes into the channel at the index, whoever's it is. -/
theorem notify (hL : Ledger codec as w log) (hinv : w'.Inv) (hstep : w.notify s = some w') :
    Ledger codec as w' log ∧ Advance w as log (.notify s) w' as log := by
  unfold Waiters.notify at hstep
  split at hstep
  · exact absurd hstep (by simp)
  · next idx reply hpending =>
      have hnotices : ∀ v notice, Function.update w.notifying s none v = some notice →
          w.notifying v = some notice := by
        intro v notice hv
        by_cases hvs : v = s
        · subst hvs
          exact absurd hv (by simp)
        · rwa [Function.update_of_ne hvs] at hv
      dsimp only at hstep
      split at hstep
      · obtain rfl := Option.some.inj hstep
        refine ⟨⟨hinv, hL.booked, fun v idx reply hv => ?_, hL.handlers⟩, advance_stay rfl
          ⟨fun j y hy => ⟨y, hy⟩, fun j y hy => Or.inl ⟨y, hy, .refl⟩⟩⟩
        exact hL.notices v idx reply (hnotices v _ hv)
      · next h hchan =>
          split at hstep
          · obtain rfl := Option.some.inj hstep
            obtain ⟨x, hx, hreg, -⟩ := hL.inv.channel_empty hpending hchan
            have hold := hL.handlers h x hx
            refine hL.stretch rfl rfl hnotices hinv rfl hx rfl
              ⟨hold.fresh, fun reply' hhand => ?_, hold.returns⟩
              ⟨rfl, rfl, fun _ => rfl, fun _ hr => hr, fun _ hr => Or.inl hr⟩
            by_cases hselecting : x.progress = .selecting
            · have hgot : reply = reply' := by
                simp only [Waiter.hand, hselecting] at hhand
                exact Option.some.inj hhand
              subst hgot
              refine Or.inr ?_
              have hreplied := hL.notices s idx reply hpending
              rw [hreg.server, hreg.index]
              exact hreplied
            · refine hold.hand reply' ?_
              rwa [Waiter.hand_of_not_selecting hselecting] at hhand
          · exact absurd hstep (by simp)

/-! ## Steps of the replicas -/

/-- The reply that the applier computes is the one of the log, also if the command comes again. -/
theorem replied_of_taken (hL : Ledger codec as w log) {a : Action n Op} {r : Replicas n}
    (ho : Regular codec w.replicas a) (hr : w.replicas.step codec a = some r) {i : ℕ} {op : Op}
    (ht : w.replicas.taken a = some (s, i, op))
    (hgrown : Booked.Grown w.replicas a w.places log log')
    (hlen : log'.length = w.replicas.mark log.length a) :
    Replied log' (r.replica s).reached i ((w.replicas.replica s).kv.state.execute op).2 := by
  obtain ⟨g, hg⟩ := hL.booked.entry_of_taken ho hr ht hgrown hlen
  obtain ⟨p, L, ops, hag, -⟩ := hL.booked.book
  have htaking := hag.taking ho ht hr
  have hpos := htaking.pos
  refine ⟨hpos, htaking.reached.ge, (g, op), hg, ?_⟩
  have hreached := hL.reached_le s
  have hle := htaking.le
  have hnext := htaking.next
  obtain ⟨rest, rfl⟩ := hgrown.isPrefix
  have htake : ∀ m ≤ log.length,
      ((log ++ rest).map Prod.snd).take m = (log.map Prod.snd).take m := by
    intro m hm
    rw [List.map_append, List.take_append_of_le_length (by simpa using hm)]
  rw [hL.state_eq s]
  rcases hle.eq_or_lt with heq | hlt
  · -- the effect was in the snapshot already
    rw [heq, ← htake i (heq ▸ hreached)]
    have hop : ((log ++ rest).map Prod.snd)[i - 1]? = some op := by
      rw [List.getElem?_map, hg]
      rfl
    have hagain := State.replyAt_again hop
    rwa [Nat.sub_add_cancel hpos] at hagain
  · rw [show (w.replicas.replica s).reached = i - 1 by omega, ← htake (i - 1) (by omega)]
    rfl

/-- A step of the replicas that the handlers do not notice. -/
theorem of_same (hL : Ledger codec as w log) {r : Replicas n} {a : Action n Op}
    {notifying : Fin n → Option (ℕ × OpReply)}
    (hinv : ({ w with replicas := r, notifying := notifying } : Waiters n).Inv)
    (hbooked : Booked codec as' r w.places log') (hpre : log <+: log')
    (hreached : ∀ s, (w.replicas.replica s).reached ≤ (r.replica s).reached)
    (hnotices : ∀ s idx reply, notifying s = some (idx, reply) →
      w.notifying s = some (idx, reply) ∨ Replied log' (r.replica s).reached idx reply) :
    Ledger codec as' { w with replicas := r, notifying := notifying } log' ∧
      Handled w log (.replicas a) { w with replicas := r, notifying := notifying } := by
  refine ⟨of_map (w := w) (F := fun _ y => y) hinv hbooked (fun j => ?_) (fun _ _ _ => rfl)
    (fun j y hy => (hL.handlers j y hy).mono hpre (hreached _)) fun s idx reply hs => ?_,
    handled_map (F := fun _ y => y) (fun j => ?_) fun _ _ _ => .refl⟩
  · exact Option.map_id'.symm
  · rcases hnotices s idx reply hs with hold | hnew
    · exact (hL.notices s idx reply hold).mono hpre (hreached s)
    · exact hnew
  · exact Option.map_id'.symm

/-- A snapshot bounces the handlers with an empty channel. -/
theorem of_bounce (hL : Ledger codec as w log) {r : Replicas n} {a : Action n Op}
    (hinv : ({ w.bounce s with replicas := r } : Waiters n).Inv)
    (hbooked : Booked codec as' r w.places log') (hpre : log <+: log')
    (hreached : ∀ s, (w.replicas.replica s).reached ≤ (r.replica s).reached) :
    Ledger codec as' { w.bounce s with replicas := r } log' ∧
      Handled w log (.replicas a) { w.bounce s with replicas := r } := by
  have hget : ∀ j, ({ w.bounce s with replicas := r } : Waiters n).handlers[j]? =
      (w.handlers[j]?).map fun y => if w.vacant s y.index j then
        { y with ch := some { err := Err.errWrongLeader } } else y := by
    intro j
    exact List.getElem?_mapIdx
  refine ⟨of_map hinv hbooked hget (fun j y hy => ?_) (fun j y hy => ?_)
    fun v idx reply hv => (hL.notices v idx reply hv).mono hpre (hreached v),
    handled_map hget fun j y hy => ?_⟩
  · split <;> rfl
  · have hold : y.Sound (fun s => (r.replica s).reached) log' j :=
      (hL.handlers j y hy).mono hpre (hreached y.server)
    split
    · refine ⟨hold.fresh, fun reply hhand => ?_, hold.returns⟩
      by_cases hselecting : y.progress = .selecting
      · simp only [Waiter.hand, hselecting] at hhand
        exact Or.inl (Option.some.inj hhand).symm
      · rw [Waiter.hand_of_not_selecting hselecting] at hhand
        exact hold.hand reply hhand
    · exact hold
  · split
    · exact ⟨rfl, rfl, fun _ => rfl, fun _ hr => hr, fun _ hr => Or.inl hr⟩
    · exact .refl

/-- A server restarts, and its handlers are gone. -/
theorem of_restart (hL : Ledger codec as w log) {r : Replicas n} {a : Action n Op}
    (hinv : ({ w.restart s with replicas := r } : Waiters n).Inv)
    (hbooked : Booked codec as' r w.places log') (hpre : log <+: log')
    (hreached : ∀ v, v ≠ s → (w.replicas.replica v).reached ≤ (r.replica v).reached) :
    Ledger codec as' { w.restart s with replicas := r } log' ∧
      Handled w log (.replicas a) { w.restart s with replicas := r } := by
  have hget : ∀ j : ℕ, ({ w.restart s with replicas := r } : Waiters n).handlers[j]? =
      (w.handlers[j]?).map fun (y : Waiter n) => if y.server = s ∧ !y.progress.returned then
        { y with progress := .lost } else y := by
    intro j
    exact List.getElem?_map
  refine ⟨of_map hinv hbooked hget (fun j y hy => ?_) (fun j y hy => ?_)
    (fun v idx reply hv => ?_), handled_map hget fun j y hy => ?_⟩
  · split <;> rfl
  · split
    · exact .of_idle (by simp) (by simp [Waiter.hand]) (by simp)
    · next hno =>
        by_cases hs : y.server = s
        · -- it has returned
          have hreturned : y.progress.returned = true := by simpa [hs] using hno
          cases hp : y.progress with
          | answered reply =>
              exact .of_idle (by simp [hp]) (by simp [Waiter.hand, hp]) (by simp [hp])
          | _ => exact absurd hreturned (by simp [hp, WaitStage.returned])
        · exact (hL.handlers j y hy).mono hpre (hreached _ hs)
  · by_cases hs : v = s
    · subst hs
      exact absurd hv (by simp [Waiters.restart])
    · simp only [Waiters.restart, Function.update_of_ne hs] at hv
      exact (hL.notices v idx reply hv).mono hpre (hreached v hs)
  · split
    · next hlost =>
        refine .of_unanswered rfl rfl (fun _ => rfl) (fun reply hr => ?_) (by simp)
        simp [hr, WaitStage.returned] at hlost
    · exact .refl

theorem replicas (hL : Ledger codec as w log) {a : Action n Op} (ho : Regular codec w.replicas a)
    (hinv : w'.Inv) (hstep : w.step codec (.replicas a) = some w') :
    ∃ as' log', Ledger codec as' w' log' ∧ Advance w as log (.replicas a) w' as' log' := by
  have hno : ∀ s command, a ≠ .start s command := by
    rintro s command rfl
    exact absurd hstep (by simp [Waiters.step])
  obtain ⟨r, w₁, hr, hserved, rfl⟩ := Waiters.step_replicas hstep
  obtain ⟨log', hgrown, hlen, hbooked⟩ := hL.booked.step ho hno hr
  obtain ⟨p, L, ops, hag, -⟩ := hL.booked.book
  have hpre := hgrown.isPrefix
  have hup : ∀ s, w.replicas.raft.restarts a ≠ some s →
      (w.replicas.replica s).reached ≤ (r.replica s).reached := fun s hs =>
    hag.reached_le ho hr hs
  -- what the step does to the log and to the calls is the same for all kinds of steps
  suffices hsuff : Ledger codec (as ++ [a]) { w₁ with replicas := r } log' ∧
      Handled w log (.replicas a) { w₁ with replicas := r } by
    refine ⟨as ++ [a], log', hsuff.1, hlen, ?_, fun k op i t hk => ?_, hsuff.2⟩
    · refine hgrown.imp_right ?_
      rintro ⟨s, g, op, t, ht, hreached, hg, hlog⟩
      obtain ⟨x, hx, hplace⟩ := exists_handler hg
      have hop : x.op = op := congrArg Place.op hplace
      exact ⟨a, s, g, x, rfl, hop ▸ ht, hreached, hx, congrArg Place.index hplace, hop ▸ hlog⟩
    · rcases hk.of_concat hag.run with hold | ⟨-, s, ha, -⟩
      · exact Or.inl hold
      · exact absurd ha (hno s _)
  by_cases hreceive : ∃ s k, a = .receive s k
  · obtain ⟨s, k, rfl⟩ := hreceive
    have hall : ∀ v, (w.replicas.replica v).reached ≤ (r.replica v).reached := fun v =>
      hup v (by simp [Cluster.restarts])
    obtain ⟨hidle, ⟨idx, cmd, hk, rfl⟩ | ⟨idx, t, sn, hk, rfl | rfl⟩⟩ :=
      Waiters.served_receive hserved
    · refine hL.of_same hinv hbooked hpre hall fun v i reply hv => ?_
      by_cases hs : v = s
      · subst hs
        simp only [Function.update_self] at hv
        obtain ⟨rfl, rfl⟩ := Prod.mk.inj (Option.some.inj hv)
        have htaken : w.replicas.taken (.receive v k) = some (v, idx, cmd) := by
          simp only [Replicas.taken, hk]
        exact Or.inr (hL.replied_of_taken ho hr htaken hgrown hlen)
      · simp only [Function.update_of_ne hs] at hv
        exact Or.inl hv
    · exact hL.of_same hinv hbooked hpre hall fun _ _ _ hv => Or.inl hv
    · exact hL.of_bounce hinv hbooked hpre hall
  · have ha : ∀ s k, a ≠ .receive s k := fun s k heq => hreceive ⟨s, k, heq⟩
    rcases Waiters.served_other ha hserved with ⟨hnone, rfl⟩ | ⟨s, hsome, rfl⟩
    · exact hL.of_same hinv hbooked hpre (fun v => hup v (by simp [hnone])) fun _ _ _ hv =>
        Or.inl hv
    · exact hL.of_restart hinv hbooked hpre fun v hv =>
        hup v (by rw [hsome]; exact fun heq => hv (Option.some.inj heq).symm)

/-! ## Runs -/

/-- What is taken for granted of a step. -/
def Lawful (codec : Codec) (w : Waiters n) : Happening n → Prop
  | .replicas a => Regular codec w.replicas a
  | _ => True

/-- **Step lemma.** -/
theorem step (hL : Ledger codec as w log) (hl : Lawful codec w ev)
    (hstep : w.step codec ev = some w') :
    ∃ as' log', Ledger codec as' w' log' ∧ Advance w as log ev w' as' log' := by
  have hinv := hL.inv.step hstep
  cases ev with
  | replicas a => exact hL.replicas hl hinv hstep
  | call s op =>
      obtain rfl := Option.some.inj hstep
      exact ⟨as, log, hL.call s op⟩
  | refuse h =>
      simp only [Waiters.step] at hstep
      split at hstep
      · next x hx =>
          split at hstep
          · next hentered =>
              obtain rfl := Option.some.inj hstep
              exact ⟨as, log, hL.refuse hx hentered hinv⟩
          · exact absurd hstep (by simp)
      · exact absurd hstep (by simp)
  | enter h =>
      simp only [Waiters.step] at hstep
      split at hstep
      · next x hx =>
          split at hstep
          · next hentered =>
              unfold Waiters.enter at hstep
              split at hstep
              · next lastReply hseen =>
                  obtain rfl := Option.some.inj hstep
                  exact ⟨as, log, hL.enter_seen hx hentered hseen hinv⟩
              · next hseen =>
                  obtain ⟨r, hr, rfl⟩ := Option.map_eq_some_iff.1 hstep
                  refine ⟨_, log, hL.enter_start hx hentered hseen hr ?_ hinv⟩
                  cases hplace : ((w.replicas.raft.rf x.server).start (some x.op)).2 with
                  | none => exact Or.inl ⟨rfl, rfl⟩
                  | some place => exact Or.inr ⟨place.1, place.2, rfl, rfl⟩
          · exact absurd hstep (by simp)
      · exact absurd hstep (by simp)
  | register h =>
      simp only [Waiters.step] at hstep
      split at hstep
      · next x hx =>
          split at hstep
          · next hstarted =>
              obtain rfl := Option.some.inj hstep
              exact ⟨as, log, hL.register hx hstarted⟩
          · exact absurd hstep (by simp)
      · exact absurd hstep (by simp)
  | wake h =>
      simp only [Waiters.step] at hstep
      split at hstep
      · next hx =>
          obtain rfl := Option.some.inj hstep
          exact ⟨as, log, hL.wake hx rfl rfl hinv⟩
      · exact absurd hstep (by simp)
  | timeout h =>
      simp only [Waiters.step] at hstep
      split at hstep
      · next hx =>
          obtain rfl := Option.some.inj hstep
          exact ⟨as, log, hL.timeout hx rfl hinv⟩
      · exact absurd hstep (by simp)
  | getState h =>
      simp only [Waiters.step] at hstep
      split at hstep
      · next hx =>
          obtain rfl := Option.some.inj hstep
          exact ⟨as, log, hL.getState hx rfl hinv⟩
      · exact absurd hstep (by simp)
  | finish h =>
      simp only [Waiters.step] at hstep
      split at hstep
      · next hx =>
          obtain rfl := Option.some.inj hstep
          exact ⟨as, log, hL.finish hx rfl hinv⟩
      · exact absurd hstep (by simp)
  | notify s => exact ⟨as, log, hL.notify hinv hstep⟩

end Ledger

end KV

end AiFS
