import AiFS.KV.Clerk
import AiFS.KV.Dedup
import AiFS.KV.Honest

set_option autoImplicit false

/-! # Clerks take their turns

Clerks that are used properly take their turns: a clerk has at most one call that has not returned,
and this call has the clerk's largest number. So the numbers of a client never fall in the order of
the calls of `Start`, hence neither in the log (`Inv.sorted_ops`), and no operation of a call that
has not returned has been passed (`Inv.notPassed`). What a call returns is therefore the reply to
its own operation, at a place of the log that was applied during the call (`Told`). -/

namespace AiFS

namespace KV

open Pool (getElem?_concat_cases getElem?_modify_cases getElem?_modify_eq)

variable {n : ℕ}

/-! ## Calls -/

/-- What a method returns for a reply that ends its loop. -/
def Method.result (reply : OpReply) : Method → String
  | .get _ => if reply.err = Err.ok then reply.value else ""
  | .putAppend .. => ""

theorem Method.op_id (method : Method) (clientId unum : ℤ) :
    (method.op clientId unum).id = (clientId, unum) := by
  cases method with
  | get key => rfl
  | putAppend key value append => rfl

/-- The loop ends with `OK` or, for `Get`, with `ErrNoKey`. -/
theorem Method.next_eq_done {method : Method} {err : Err} {value v : String}
    (h : method.next value err = .done v) :
    (err = Err.ok ∨ err = Err.errNoKey) ∧ v = method.result { err := err, value := value } := by
  cases method with
  | get key =>
      cases err with
      | ok => exact ⟨Or.inl rfl, (Next.done.inj h).symm⟩
      | errNoKey => exact ⟨Or.inr rfl, (Next.done.inj h).symm⟩
      | _ => exact absurd h (by simp [Method.next])
  | putAppend key v append =>
      cases err with
      | ok => exact ⟨Or.inl rfl, (Next.done.inj h).symm⟩
      | _ => exact absurd h (by simp [Method.next])

namespace Clerks

variable {codec : Codec} {as as' : List (Action n Op)} {log log' : List (ℕ × Op)}

/-- What a call that has returned was told: the reply to its own operation, at a place of the log
    that was applied during the call. -/
def Told (log : List (ℕ × Op)) (call : ClerkCall n) (r : Returned) : Prop :=
  ∃ p reply, call.begun ≤ p ∧ p < r.ended ∧ Ran (log.map Prod.snd) p call.op reply ∧
    r.value = call.method.result reply

structure CallsOk (log : List (ℕ × Op)) (w : Clerks n) : Prop where
  clients : (w.clerks.map Clerk.clientId).Nodup
  numbered : ∀ (k : ℕ) call, w.calls[k]? = some call → ∃ ck, w.clerks[call.clerk]? = some ck ∧
    ck.clientId = call.clientId ∧ call.unum < ck.seqId
  inTurn : ∀ (j k : ℕ) a b, j < k → w.calls[j]? = some a → w.calls[k]? = some b →
    a.called < b.called ∧ (a.clerk = b.clerk → a.unum < b.unum ∧ a.returned ≠ none)
  waits : ∀ (k : ℕ) call, w.calls[k]? = some call → call.rpc ≠ none → call.returned = none
  begun : ∀ (k : ℕ) call, w.calls[k]? = some call →
    call.called < w.clock ∧ call.begun ≤ log.length
  ended : ∀ (k : ℕ) call r, w.calls[k]? = some call → call.returned = some r →
    call.called ≤ r.time ∧ r.time < w.clock ∧ r.ended ≤ log.length ∧ Told log call r
  realTime : ∀ (j k : ℕ) a b r, w.calls[j]? = some a → w.calls[k]? = some b →
    a.returned = some r → r.time < b.called → r.ended ≤ b.begun

/-- What a step does to a call. -/
inductive Goes (log : List (ℕ × Op)) (w : Clerks n) (call : ClerkCall n) : ClerkCall n → Prop
  | same : Goes log w call call
  | rpc {rpc : Option (Rpc n)} (hrun : call.returned = none) :
      Goes log w call { call with rpc := rpc }
  | finished {value : String} {ended : ℕ} (hrun : call.returned = none)
      (hended : ended = log.length) (htold : Told log call ⟨value, w.clock, ended⟩) :
      Goes log w call { call with rpc := none, returned := some ⟨value, w.clock, ended⟩ }

section Calls

variable {w w' : Clerks n}

theorem Goes.call {call call' : ClerkCall n} (h : Goes log w call call') :
    call'.clerk = call.clerk ∧ call'.clientId = call.clientId ∧ call'.method = call.method ∧
      call'.unum = call.unum ∧ call'.called = call.called ∧ call'.begun = call.begun := by
  cases h <;> exact ⟨rfl, rfl, rfl, rfl, rfl, rfl⟩

theorem Goes.op {call call' : ClerkCall n} (h : Goes log w call call') : call'.op = call.op := by
  cases h <;> rfl

theorem Goes.running {call call' : ClerkCall n} (h : Goes log w call call')
    (hrun : call'.returned = none) : call.returned = none := by
  cases h with
  | same => exact hrun
  | rpc h => exact h
  | finished h _ _ => exact h

theorem Goes.returned {call call' : ClerkCall n} {r : Returned} (h : Goes log w call call')
    (hr : call'.returned = some r) : call.returned = some r ∨ call.returned = none ∧
      r.time = w.clock ∧ r.ended = log.length ∧ Told log call r := by
  cases h with
  | same => exact Or.inl hr
  | rpc _ => exact Or.inl hr
  | finished hrun hended htold =>
      obtain rfl := Option.some.inj hr
      exact Or.inr ⟨hrun, rfl, hended, htold⟩

theorem Told.mono {call : ClerkCall n} {r : Returned} (hpre : log <+: log')
    (h : Told log call r) : Told log' call r := by
  obtain ⟨p, reply, hlo, hhi, hran, hvalue⟩ := h
  exact ⟨p, reply, hlo, hhi, hran.mono (hpre.map _), hvalue⟩

theorem Told.congr {call call' : ClerkCall n} {r : Returned} (hbegun : call'.begun = call.begun)
    (hop : call'.op = call.op) (hmethod : call'.method = call.method)
    (h : Told log call r) : Told log call' r := by
  unfold Told
  rw [hbegun, hop, hmethod]
  exact h

/-- The calls stay in order when each of them goes on by itself and the log grows. -/
theorem CallsOk.next (h : CallsOk log w)
    (hclerks : w'.clerks.map (fun ck => (ck.clientId, ck.seqId)) =
      w.clerks.map (fun ck => (ck.clientId, ck.seqId)))
    (hclock : w'.clock = w.clock + 1) (hpre : log <+: log')
    (hcalls : ∀ (k : ℕ) call', w'.calls[k]? = some call' →
      ∃ call, w.calls[k]? = some call ∧ Goes log w call call') : CallsOk log' w' := by
  have hlen := hpre.length_le
  refine
    { clients := ?_
      numbered := fun k call' hk => ?_
      inTurn := fun j k a' b' hjk hj hk => ?_
      waits := fun k call' hk hrpc => ?_
      begun := fun k call' hk => ?_
      ended := fun k call' r hk hr => ?_
      realTime := fun j k a' b' r hj hk hr hlt => ?_ }
  · have hids := congrArg (List.map Prod.fst) hclerks
    simp only [List.map_map, Function.comp_def] at hids
    rw [hids]
    exact h.clients
  · obtain ⟨call, hcall, hmoved⟩ := hcalls k call' hk
    obtain ⟨ck, hck, hid, hlt⟩ := h.numbered k call hcall
    obtain ⟨hclerk, hclient, -, hunum, -, -⟩ := hmoved.call
    have hget := congrArg (fun l => l[call.clerk]?) hclerks
    simp only [List.getElem?_map, hck, Option.map_some] at hget
    obtain ⟨ck', hck', heq⟩ := Option.map_eq_some_iff.1 hget
    obtain ⟨hid', hseq'⟩ := Prod.mk.inj heq
    rw [hclerk, hclient, hunum]
    exact ⟨ck', hck', hid'.trans hid, hseq' ▸ hlt⟩
  · obtain ⟨a, ha, hma⟩ := hcalls j a' hj
    obtain ⟨b, hb, hmb⟩ := hcalls k b' hk
    obtain ⟨hcalled, hturn⟩ := h.inTurn j k a b hjk ha hb
    rw [hma.call.1, hma.call.2.2.2.1, hma.call.2.2.2.2.1, hmb.call.1, hmb.call.2.2.2.1,
      hmb.call.2.2.2.2.1]
    refine ⟨hcalled, fun hclerk => ⟨(hturn hclerk).1, fun hnone => ?_⟩⟩
    exact (hturn hclerk).2 (hma.running hnone)
  · obtain ⟨call, hcall, hmoved⟩ := hcalls k call' hk
    cases hmoved with
    | same => exact h.waits k call' hcall hrpc
    | rpc hrun => exact hrun
    | finished _ _ _ => exact absurd rfl hrpc
  · obtain ⟨call, hcall, hmoved⟩ := hcalls k call' hk
    obtain ⟨hcalled, hbegun⟩ := h.begun k call hcall
    rw [hmoved.call.2.2.2.2.1, hmoved.call.2.2.2.2.2]
    omega
  · obtain ⟨call, hcall, hmoved⟩ := hcalls k call' hk
    obtain ⟨-, -, hmethod, -, hcalled, hbegun⟩ := hmoved.call
    obtain ⟨hspan, htime, hended, htold⟩ : call.called ≤ r.time ∧ r.time < w'.clock ∧
        r.ended ≤ log.length ∧ Told log call r := by
      rcases hmoved.returned hr with hold | ⟨hrun, htime, hended, htold⟩
      · obtain ⟨h₁, h₂, h₃, h₄⟩ := h.ended k call r hcall hold
        exact ⟨h₁, by omega, h₃, h₄⟩
      · have := (h.begun k call hcall).1
        exact ⟨by omega, by omega, hended.le, htold⟩
    exact ⟨by omega, htime, hended.trans hlen, (htold.congr hbegun hmoved.op hmethod).mono hpre⟩
  · obtain ⟨a, ha, hma⟩ := hcalls j a' hj
    obtain ⟨b, hb, hmb⟩ := hcalls k b' hk
    rw [hmb.call.2.2.2.2.1] at hlt
    rw [hmb.call.2.2.2.2.2]
    rcases hma.returned hr with hold | ⟨_, htime, _, _⟩
    · exact h.realTime j k a b r ha hb hold hlt
    · have := (h.begun k b hb).1
      omega

/-- One call goes on. -/
theorem moved_setCall {k : ℕ} {f : ClerkCall n → ClerkCall n} {call : ClerkCall n}
    (hk : w.calls[k]? = some call) (hf : Goes log w call (f call)) {j : ℕ} {call' : ClerkCall n}
    (hj : (w.setCall k f).calls[j]? = some call') :
    ∃ call, w.calls[j]? = some call ∧ Goes log w call call' := by
  rw [setCall, getElem?_modify_eq] at hj
  obtain ⟨call₀, hcall₀, rfl⟩ := Option.map_eq_some_iff.1 hj
  refine ⟨call₀, hcall₀, ?_⟩
  split
  · next heq =>
      subst heq
      obtain rfl : call = call₀ := Option.some.inj (hk.symm.trans hcall₀)
      exact hf
  · exact .same

/-- A call is one of the clerk that has its client's identity. -/
theorem CallsOk.clerk_eq (h : CallsOk log w) {k c : ℕ} {call : ClerkCall n} {ck : Clerk n}
    (hk : w.calls[k]? = some call) (hc : w.clerks[c]? = some ck)
    (hid : call.clientId = ck.clientId) : call.clerk = c := by
  obtain ⟨ck', hck', hid', _⟩ := h.numbered k call hk
  have hget : (w.clerks.map Clerk.clientId)[call.clerk]? = (w.clerks.map Clerk.clientId)[c]? := by
    rw [List.getElem?_map, List.getElem?_map, hck', hc, Option.map_some, Option.map_some, hid', hid]
  have hlt : call.clerk < (w.clerks.map Clerk.clientId).length := by
    rw [List.length_map]
    exact (List.getElem?_eq_some_iff.1 hck').1
  exact (List.getElem?_inj hlt h.clients).1 hget

theorem CallsOk.same_clerk (h : CallsOk log w) {j k : ℕ} {a b : ClerkCall n}
    (ha : w.calls[j]? = some a) (hb : w.calls[k]? = some b) (hid : a.clientId = b.clientId) :
    a.clerk = b.clerk := by
  obtain ⟨ck, hck, hckid, _⟩ := h.numbered k b hb
  exact h.clerk_eq ha hck (hid.trans hckid.symm)

/-- A call that has not returned has the largest number of its client. -/
theorem CallsOk.unum_le (h : CallsOk log w) {j k : ℕ} {a b : ClerkCall n}
    (ha : w.calls[j]? = some a) (hb : w.calls[k]? = some b) (hrun : b.returned = none)
    (hid : a.clientId = b.clientId) : a.unum ≤ b.unum := by
  have hclerk := h.same_clerk ha hb hid
  rcases Nat.lt_trichotomy j k with hlt | rfl | hgt
  · exact ((h.inTurn j k a b hlt ha hb).2 hclerk).1.le
  · rw [Option.some.inj (ha.symm.trans hb)]
  · exact absurd hrun ((h.inTurn k j b a hgt hb ha).2 hclerk.symm).2

/-- No two calls have one identity. -/
theorem CallsOk.eq_of_id (h : CallsOk log w) {j k : ℕ} {a b : ClerkCall n}
    (ha : w.calls[j]? = some a) (hb : w.calls[k]? = some b) (hid : a.op.id = b.op.id) : j = k := by
  rw [ClerkCall.op, ClerkCall.op, Method.op_id, Method.op_id] at hid
  obtain ⟨hclient, hunum⟩ := Prod.mk.inj hid
  have hclerk := h.same_clerk ha hb hclient
  rcases Nat.lt_trichotomy j k with hlt | heq | hgt
  · exact absurd hunum ((h.inTurn j k a b hlt ha hb).2 hclerk).1.ne
  · exact heq
  · exact absurd hunum ((h.inTurn k j b a hgt hb ha).2 hclerk.symm).1.ne'

/-- A clerk that begins a call only goes on to its next number. -/
theorem clerk_invoke (c : ℕ) (ck : Clerk n) (method : Method) {i : ℕ} {ck' : Clerk n}
    (hi : w.clerks[i]? = some ck') : ∃ ck'', (w.invoke c ck method).clerks[i]? = some ck'' ∧
      ck''.clientId = ck'.clientId ∧ ck'.seqId ≤ ck''.seqId ∧ (i = c → ck'.seqId < ck''.seqId) := by
  simp only [Clerks.invoke, getElem?_modify_eq, hi, Option.map_some]
  by_cases hic : c = i
  · refine ⟨{ ck' with seqId := ck'.seqId + 1 }, by rw [if_pos hic], rfl, ?_, fun _ => ?_⟩
    · show ck'.seqId ≤ ck'.seqId + 1
      omega
    · show ck'.seqId < ck'.seqId + 1
      omega
  · exact ⟨ck', by rw [if_neg hic], rfl, le_rfl, fun heq => absurd heq.symm hic⟩

theorem clientIds_invoke (c : ℕ) (ck : Clerk n) (method : Method) :
    (w.invoke c ck method).clerks.map Clerk.clientId = w.clerks.map Clerk.clientId := by
  refine List.ext_getElem? fun i => ?_
  simp only [Clerks.invoke, List.getElem?_map, getElem?_modify_eq, Option.map_map]
  congr 1
  funext ck'
  simp only [Function.comp_apply]
  split <;> rfl

/-- The calls stay in order when a clerk that has no other one begins a call. -/
theorem CallsOk.invoke (h : CallsOk log w) (happ : w.service.applied = log.length) {c : ℕ}
    {ck : Clerk n} {method : Method} (hc : w.clerks[c]? = some ck)
    (hproper : w.Proper (.invoke c method)) :
    CallsOk log { w.invoke c ck method with clock := w.clock + 1 } := by
  refine
    { clients := ?_
      numbered := fun k call hk => ?_
      inTurn := fun j k a b hjk hj hk => ?_
      waits := fun k call hk hrpc => ?_
      begun := fun k call hk => ?_
      ended := fun k call r hk hr => ?_
      realTime := fun j k a b r hj hk hr hlt => ?_ }
  · rw [clientIds_invoke]
    exact h.clients
  · rcases getElem?_concat_cases hk with hk | ⟨_, rfl⟩
    · obtain ⟨ck', hck', hid, hlt⟩ := h.numbered k call hk
      obtain ⟨ck'', hck'', hid', hle, _⟩ := clerk_invoke c ck method hck'
      exact ⟨ck'', hck'', hid'.trans hid, by omega⟩
    · obtain ⟨ck'', hck'', hid', _, hlt⟩ := clerk_invoke c ck method hc
      exact ⟨ck'', hck'', hid', hlt rfl⟩
  · -- the new call is the last one
    have hj' : w.calls[j]? = some a := by
      rcases getElem?_concat_cases hj with hj | ⟨rfl, _⟩
      · exact hj
      · have := (List.getElem?_eq_some_iff.1 hk).1
        simp only [Clerks.invoke, List.length_append, List.length_singleton] at this
        omega
    rcases getElem?_concat_cases hk with hk | ⟨_, rfl⟩
    · exact h.inTurn j k a b hjk hj' hk
    · refine ⟨(h.begun j a hj').1, fun hclerk' => ⟨?_, ?_⟩⟩
      · obtain ⟨ck', hck', _, hlt⟩ := h.numbered j a hj'
        rw [show a.clerk = c from hclerk', hc] at hck'
        rw [Option.some.inj hck']
        exact hlt
      · exact hproper a (List.mem_of_getElem? hj') hclerk'
  · rcases getElem?_concat_cases hk with hk | ⟨_, rfl⟩
    · exact h.waits k call hk hrpc
    · rfl
  · rcases getElem?_concat_cases hk with hk | ⟨_, rfl⟩
    · exact ⟨(h.begun k call hk).1.trans (Nat.lt_succ_self _), (h.begun k call hk).2⟩
    · exact ⟨Nat.lt_succ_self _, happ.le⟩
  · rcases getElem?_concat_cases hk with hk | ⟨_, rfl⟩
    · obtain ⟨hspan, htime, hended, htold⟩ := h.ended k call r hk hr
      exact ⟨hspan, htime.trans (Nat.lt_succ_self _), hended, htold⟩
    · exact absurd hr (by simp)
  · rcases getElem?_concat_cases hj with hj | ⟨_, rfl⟩
    · rcases getElem?_concat_cases hk with hk | ⟨_, rfl⟩
      · exact h.realTime j k a b r hj hk hr hlt
      · rw [happ]
        exact (h.ended j a r hj hr).2.2.1
    · exact absurd hr (by simp)

end Calls

/-! ## The servers -/

/-- An operation is that of a call. -/
def Called (w : Clerks n) (op : Op) : Prop :=
  ∃ (k : ℕ) (call : ClerkCall n), w.calls[k]? = some call ∧ op = call.op

structure Inv (codec : Codec) (as : List (Action n Op)) (log : List (ℕ × Op)) (w : Clerks n) :
    Prop where
  calls : CallsOk log w
  kept : w.service.Kept codec as log
  rpcs : ∀ (k : ℕ) call h, w.calls[k]? = some call → call.rpc = some (.serving h) →
    ∃ x, w.service.waiters.handlers[h]? = some x ∧ x.op = call.op
  handlers : ∀ (h : ℕ) x, w.service.waiters.handlers[h]? = some x → w.Called x.op
  started : ∀ k op i t, Proposal as k (some op) i t → w.Called op
  sorted : ∀ k k' op op' i i' t t', k < k' → Proposal as k (some op) i t →
    Proposal as k' (some op') i' t' → op.clientId = op'.clientId → op.seqId ≤ op'.seqId
  running : ∀ (k : ℕ) call, w.calls[k]? = some call → call.returned = none →
    Honest w.service.waiters log call.begun call.op

section Inv

variable {w w' : Clerks n}

theorem Called.seqId_le (h : CallsOk log w) {op : Op} (hop : w.Called op) {k : ℕ}
    {call : ClerkCall n} (hk : w.calls[k]? = some call) (hrun : call.returned = none)
    (hid : op.clientId = call.op.clientId) : op.seqId ≤ call.op.seqId := by
  obtain ⟨j, a, ha, rfl⟩ := hop
  obtain ⟨haclient, haseq⟩ := Prod.mk.inj (a.method.op_id a.clientId a.unum)
  obtain ⟨hclient, hseq⟩ := Prod.mk.inj (call.method.op_id call.clientId call.unum)
  have hle := h.unum_le ha hk hrun (haclient.symm.trans (hid.trans hclient))
  rw [← haseq, ← hseq] at hle
  exact hle

/-- The operations of the log are those of calls. -/
theorem Inv.called (h : Inv codec as log w) {op : Op} (hop : op ∈ log.map Prod.snd) :
    w.Called op := by
  obtain ⟨⟨g, y⟩, hmem, rfl⟩ := List.mem_map.1 hop
  obtain ⟨p, hp⟩ := List.mem_iff_getElem?.1 hmem
  obtain ⟨x, hx, rfl, -⟩ := h.kept.ledger.owner hp
  exact h.handlers g x hx

/-- The numbers of a client never fall in the log. -/
theorem Inv.sorted_ops (h : Inv codec as log w) :
    LastSeen.Sorted ((log.map Prod.snd).map Op.id) := by
  rw [LastSeen.Sorted, List.map_map, List.pairwise_map, List.pairwise_iff_getElem]
  intro j j' hj hj' hlt hid
  obtain ⟨k, k', t, t', hk, hp, hp'⟩ := h.kept.order hlt (List.getElem?_eq_getElem hj)
    (List.getElem?_eq_getElem hj')
  exact h.sorted k k' _ _ _ _ t t' hk hp hp' hid

/-- The operation of a call that has not returned has not been passed anywhere. -/
theorem Inv.notPassed (h : Inv codec as log w) {k : ℕ} {call : ClerkCall n}
    (hk : w.calls[k]? = some call) (hrun : call.returned = none) (s : Fin n) :
    (w.service.state s).NotPassed call.op := by
  intro record hrec
  rw [Servers.state, h.kept.ledger.state_eq] at hrec
  obtain ⟨p, x, hx, hid, -⟩ := State.lastReply_replay _ hrec
  obtain ⟨hclient, hseq⟩ := Prod.mk.inj (show (x.clientId, x.seqId) = _ from hid)
  rw [← hseq]
  exact (h.called (List.mem_of_mem_take (List.mem_of_getElem? hx))).seqId_le h.calls hk hrun hclient

theorem Called.moved {op : Op} (h : w.Called op)
    (hcalls : ∀ (k : ℕ) call, w.calls[k]? = some call →
      ∃ call', w'.calls[k]? = some call' ∧ Goes log w call call') : w'.Called op := by
  obtain ⟨k, call, hk, rfl⟩ := h
  obtain ⟨call', hk', hmoved⟩ := hcalls k call hk
  exact ⟨k, call', hk', hmoved.op.symm⟩

theorem setCall_forward {k : ℕ} {f : ClerkCall n → ClerkCall n} {call : ClerkCall n}
    (hk : w.calls[k]? = some call) (hf : Goes log w call (f call)) (j : ℕ) (call₀ : ClerkCall n)
    (hj : w.calls[j]? = some call₀) :
    ∃ call', (w.setCall k f).calls[j]? = some call' ∧ Goes log w call₀ call' := by
  have hj' : (w.setCall k f).calls[j]? = some (if k = j then f call₀ else call₀) := by
    rw [Clerks.setCall, getElem?_modify_eq, hj, Option.map_some]
  refine ⟨_, hj', ?_⟩
  split
  · next heq =>
      subst heq
      obtain rfl : call = call₀ := Option.some.inj (hk.symm.trans hj)
      exact hf
  · exact .same

/-- One call goes on and the servers stay as they are. -/
theorem Inv.setCall (h : Inv codec as log w) {k : ℕ} {f : ClerkCall n → ClerkCall n}
    {call : ClerkCall n} (hk : w.calls[k]? = some call) (hf : Goes log w call (f call))
    (hrpc : ∀ j, (f call).rpc = some (.serving j) → call.rpc = some (.serving j))
    (hw' : w'.service = w.service ∧ w'.clock = w.clock + 1 ∧ w'.calls = (w.setCall k f).calls)
    (hclerks : w'.clerks.map (fun ck => (ck.clientId, ck.seqId)) =
      w.clerks.map (fun ck => (ck.clientId, ck.seqId))) : Inv codec as log w' := by
  obtain ⟨hservice, hclock, hcalls⟩ := hw'
  have hforward : ∀ (j : ℕ) call₀, w.calls[j]? = some call₀ →
      ∃ call', w'.calls[j]? = some call' ∧ Goes log w call₀ call' := by
    rw [hcalls]
    exact setCall_forward hk hf
  have hback : ∀ (j : ℕ) call', w'.calls[j]? = some call' →
      ∃ call₀, w.calls[j]? = some call₀ ∧ Goes log w call₀ call' := by
    rw [hcalls]
    exact fun j call' hj => moved_setCall hk hf hj
  refine
    { calls := h.calls.next hclerks hclock List.prefix_rfl hback
      kept := hservice ▸ h.kept
      rpcs := fun j call' i hj hi => ?_
      handlers := fun i x hi => (h.handlers i x (hservice ▸ hi)).moved hforward
      started := fun j op i t hj => (h.started j op i t hj).moved hforward
      sorted := h.sorted
      running := fun j call' hj hrun => ?_ }
  · rw [hservice]
    rw [hcalls] at hj
    obtain ⟨call₀, hcall₀, ⟨rfl, rfl⟩ | ⟨_, rfl⟩⟩ := getElem?_modify_cases hj
    · obtain rfl : call = call₀ := Option.some.inj (hk.symm.trans hcall₀)
      rw [hf.op]
      exact h.rpcs _ call i hk (hrpc i hi)
    · exact h.rpcs j call' i hcall₀ hi
  · obtain ⟨call₀, hcall₀, hmoved⟩ := hback j call' hj
    rw [hservice, hmoved.op, hmoved.call.2.2.2.2.2]
    exact h.running j call₀ hcall₀ (hmoved.running hrun)

/-- The servers make a step, in which nobody calls `Start` for a call that has returned, and the
    calls stay as they are, but for what they wait for. -/
theorem Inv.serve (h : Inv codec as log w) {ev : Event n}
    (hstarts : ∀ g x, ev = .happens (.enter g) → w.service.waiters.handlers[g]? = some x →
      (w.service.state x.server).seen x.op = none →
      ∃ call ∈ w.calls, call.op = x.op ∧ call.returned = none)
    (hcall : ∀ s x, w.service.happening ev = some (.call s x) → w.Called x)
    (hkept : w'.service.Kept codec as' log') (hm : w.service.Moved as log ev w'.service as' log')
    (hclock : w'.clock = w.clock + 1) (hclerks : w'.clerks = w.clerks)
    (hforward : ∀ (j : ℕ) call, w.calls[j]? = some call →
      ∃ call', w'.calls[j]? = some call' ∧ Goes log w call call')
    (hback : ∀ (j : ℕ) call', w'.calls[j]? = some call' →
      ∃ call, w.calls[j]? = some call ∧ Goes log w call call')
    (hrpcs : ∀ (k : ℕ) call i, w'.calls[k]? = some call → call.rpc = some (.serving i) →
      ∃ x, w'.service.waiters.handlers[i]? = some x ∧ x.op = call.op) :
    Inv codec as' log' w' := by
  -- a new call of `Start` is for a call that has not returned
  have hstart : ∀ {k i t : ℕ} {op : Op}, Proposal as' k (some op) i t →
      Proposal as k (some op) i t ∨ k = as.length ∧ ∃ (j : ℕ) (call : ClerkCall n),
        w.calls[j]? = some call ∧ call.returned = none ∧ op = call.op := by
    intro k i t op hk
    refine (hm.proposals hk).imp_right ?_
    rintro ⟨hlast, g, x, hev, hx, hop, hseen⟩
    refine ⟨hlast, ?_⟩
    obtain ⟨call, hmem, hcallop, hrun⟩ := hstarts g x hev hx hseen
    obtain ⟨j, hj⟩ := List.mem_iff_getElem?.1 hmem
    exact ⟨j, call, hj, hrun, (hcallop.trans hop).symm⟩
  refine
    { calls := h.calls.next (by rw [hclerks]) hclock hm.isPrefix hback
      kept := hkept
      rpcs := hrpcs
      handlers := fun i x' hi => ?_
      started := fun k op i t hk => ?_
      sorted := fun k k' op op' i i' t t' hlt hk hk' hid => ?_
      running := fun k call' hk hrun => ?_ }
  · rcases hm.handler_cases hi with ⟨x, hx, hop⟩ | hnew
    · rw [hop]
      exact (h.handlers i x hx).moved hforward
    · exact (hcall _ _ hnew).moved hforward
  · rcases hstart hk with hold | ⟨-, j, call, hj, -, hop⟩
    · exact (h.started k op i t hold).moved hforward
    · exact Called.moved ⟨j, call, hj, hop⟩ hforward
  · rcases hstart hk' with hold' | ⟨hlast, j, call, hj, hrun, rfl⟩
    · have hlt' := hold'.lt_length
      rcases hstart hk with hold | ⟨hlast, -⟩
      · exact h.sorted k k' op op' i i' t t' hlt hold hold' hid
      · omega
    · rcases hstart hk with hold | ⟨hlast', -⟩
      · exact (h.started k op i t hold).seqId_le h.calls hj hrun hid
      · omega
  · obtain ⟨call, hk₀, hgoes⟩ := hback k call' hk
    rw [hgoes.op, hgoes.call.2.2.2.2.2]
    refine (h.running k call hk₀ (hgoes.running hrun)).moved h.kept
      (fun s _ => h.notPassed hk₀ (hgoes.running hrun) s) (fun s x hx hid => ?_) hm
    obtain ⟨j, a, ha, rfl⟩ := hcall s x hx
    obtain rfl := h.calls.eq_of_id ha hk₀ hid
    rw [Option.some.inj (ha.symm.trans hk₀)]

/-- A request arrives: its handler is new, and so far it has done nothing. -/
theorem Inv.arrive (h : Inv codec as log w) {k : ℕ} {call : ClerkCall n}
    (hk : w.calls[k]? = some call) {s : Fin n} (hrpc : call.rpc = some (.sent s)) :
    ∃ as' log', Inv codec as' log' { w.arrive k s call.op with clock := w.clock + 1 } := by
  have hrun : call.returned = none := h.calls.waits k call hk (by rw [hrpc]; simp)
  have hf : Goes log w call
      { call with rpc := some (.serving w.service.waiters.handlers.length) } := .rpc hrun
  have hcall : w.service.step codec (.rpc s call.op) = some (w.service.call s call.op false) := rfl
  obtain ⟨as', log', hkept, hm⟩ := h.kept.step (fun a ha => absurd ha (by simp)) hcall
  refine ⟨as', log', h.serve (fun g x hev => absurd hev (by simp)) (fun v x hx => ?_) hkept hm rfl
    rfl (setCall_forward
      (f := fun call => { call with rpc := some (.serving w.service.waiters.handlers.length) })
      hk hf)
    (fun j call' hj => moved_setCall hk hf hj) fun j call' i hj hi => ?_⟩
  · obtain ⟨rfl, rfl⟩ := Happening.call.inj (Option.some.inj hx)
    exact ⟨k, call, hk, rfl⟩
  · obtain ⟨call₀, hcall₀, ⟨rfl, rfl⟩ | ⟨_, rfl⟩⟩ := getElem?_modify_cases hj
    · obtain rfl : call = call₀ := Option.some.inj (hk.symm.trans hcall₀)
      obtain rfl : w.service.waiters.handlers.length = i := by simpa using hi
      exact ⟨⟨s, call.op, 0, 0, none, .entered⟩, List.getElem?_concat_length, rfl⟩
    · obtain ⟨x, hx, hop⟩ := h.rpcs j call' i hcall₀ hi
      obtain ⟨x', hx', -, hop'⟩ := hm.handler hx
      exact ⟨x', hx', hop'.trans hop⟩

/-- Something happens at the servers. -/
theorem Inv.served (h : Inv codec as log w) {ev : Event n} {v : Servers n}
    (hadm : admits ev = true) (hproper : w.Proper (.service ev)) (hlaw : w.service.Lawful codec ev)
    (hv : w.service.step codec ev = some v) :
    ∃ as' log', Inv codec as' log' { w with service := v, clock := w.clock + 1 } := by
  obtain ⟨as', log', hkept, hm⟩ := h.kept.step hlaw hv
  refine ⟨as', log', h.serve (fun g x hev hx hseen => ?_) (fun s x hx => ?_) hkept hm rfl rfl
    (fun j call hj => ⟨call, hj, .same⟩) (fun j call hj => ⟨call, hj, .same⟩)
    fun k call i hk hi => ?_⟩
  · subst hev
    exact hproper x hx hseen
  · cases ev with
    | post v incoming => exact absurd hadm (by simp [admits])
    | rpc v op => exact absurd hadm (by simp [admits])
    | happens hap =>
        obtain rfl := Option.some.inj hx
        exact absurd hv (by simp [Servers.step])
    | _ => exact absurd hx (by simp [Servers.happening])
  · obtain ⟨x, hx, hop⟩ := h.rpcs k call i hk hi
    obtain ⟨x', hx', -, hop'⟩ := hm.handler hx
    exact ⟨x', hx', hop'.trans hop⟩

/-- The operation of a new call has an identity of its own. -/
theorem Called.id_ne (h : CallsOk log w) {op : Op} (hop : w.Called op) {c : ℕ} {ck : Clerk n}
    (hc : w.clerks[c]? = some ck) (method : Method) :
    op.id ≠ (method.op ck.clientId ck.seqId).id := by
  obtain ⟨k, call, hk, rfl⟩ := hop
  intro hid
  rw [ClerkCall.op, Method.op_id, Method.op_id] at hid
  obtain ⟨hclient, hunum⟩ := Prod.mk.inj hid
  obtain ⟨ck', hck', hid', hlt⟩ := h.numbered k call hk
  rw [h.clerk_eq hk hc hclient] at hck'
  rw [Option.some.inj (hck'.symm.trans hc)] at hlt
  omega

/-- A call of a method begins, when its clerk has no other one. -/
theorem Inv.invoke (h : Inv codec as log w) {c : ℕ} {ck : Clerk n} {method : Method}
    (hc : w.clerks[c]? = some ck) (hproper : w.Proper (.invoke c method)) :
    Inv codec as log { w.invoke c ck method with clock := w.clock + 1 } := by
  have hforward : ∀ (k : ℕ) call, w.calls[k]? = some call →
      ∃ call', (w.invoke c ck method).calls[k]? = some call' ∧ Goes log w call call' := by
    intro k call hk
    refine ⟨call, ?_, .same⟩
    rw [Clerks.invoke, List.getElem?_append_left (List.getElem?_eq_some_iff.1 hk).1]
    exact hk
  refine
    { calls := h.calls.invoke h.kept.applied_eq hc hproper
      kept := h.kept
      rpcs := fun k call i hk hi => ?_
      handlers := fun i x hi => (h.handlers i x hi).moved hforward
      started := fun j op i t hj => (h.started j op i t hj).moved hforward
      sorted := h.sorted
      running := fun k call hk hrun => ?_ }
  · rcases getElem?_concat_cases hk with hk | ⟨_, rfl⟩
    · exact h.rpcs k call i hk hi
    · exact absurd hi (by simp)
  · rcases getElem?_concat_cases hk with hk | ⟨_, rfl⟩
    · exact h.running k call hk hrun
    · -- nobody has heard of the new operation
      refine
        { begun := h.kept.applied_eq.le
          unique := fun i x hi hid => ?_
          entries := fun p hp => ?_
          answers := fun i x reply hi hop _ => ?_ }
      · exact absurd hid ((h.handlers i x hi).id_ne h.calls hc method)
      · exact absurd rfl ((h.called (List.mem_of_getElem? hp)).id_ne h.calls hc method)
      · exact absurd (congrArg Op.id hop) ((h.handlers i x hi).id_ne h.calls hc method)

theorem inv_init {clerks : List (List (Fin n) × ℤ)} (h : (clerks.map Prod.snd).Nodup) :
    Inv codec [] [] (init codec clerks) where
  calls :=
    { clients := by simpa [init, Clerk.makeClerk, Function.comp_def] using h
      numbered := fun k call hk => absurd hk (by simp [init])
      inTurn := fun j k a b _ hj => absurd hj (by simp [init])
      waits := fun k call hk => absurd hk (by simp [init])
      begun := fun k call hk => absurd hk (by simp [init])
      ended := fun k call r hk => absurd hk (by simp [init])
      realTime := fun j k a b r hj => absurd hj (by simp [init]) }
  kept := Servers.kept_init
  rpcs k call h hk := absurd hk (by simp [init])
  handlers h x hh := absurd hh (by simp [init, Servers.init, Waiters.init])
  started k op i t hk := absurd hk (by simp [Proposal])
  sorted k k' op op' i i' t t' _ hk := absurd hk (by simp [Proposal])
  running k call hk := absurd hk (by simp [init])

theorem answer_eq_some {h : ℕ} {reply : OpReply} (hreply : w.answer h = some reply) :
    ∃ x, w.service.waiters.handlers[h]? = some x ∧ x.progress = .answered reply := by
  unfold answer at hreply
  split at hreply
  · next hx =>
      obtain rfl := Option.some.inj hreply
      exact ⟨_, hx, rfl⟩
  · exact absurd hreply (by simp)

/-- A reply that ends the loop is the reply to the call's own operation. -/
theorem Inv.told (h : Inv codec as log w) {k i : ℕ} {call : ClerkCall n} {reply : OpReply}
    {value : String} (hk : w.calls[k]? = some call) (hrpc : call.rpc = some (.serving i))
    (hreply : w.answer i = some reply)
    (hdone : call.method.next reply.value reply.err = .done value) :
    Told log call ⟨value, w.clock, w.service.applied⟩ := by
  have hrun : call.returned = none := h.calls.waits k call hk (by rw [hrpc]; simp)
  obtain ⟨herr, rfl⟩ := Method.next_eq_done hdone
  obtain ⟨x, hx, hop⟩ := h.rpcs k call i hk hrpc
  obtain ⟨y, hy, hst⟩ := answer_eq_some hreply
  obtain rfl := Option.some.inj (hx.symm.trans hy)
  rcases (h.running k call hk hrun).answers i x reply hx hop hst with
    hfailed | ⟨r, rfl, p, hlo, hran⟩
  · rcases herr with hok | hno
    · exact absurd hok hfailed.1
    · exact absurd hno hfailed.2
  · have hlt : p < log.length := by
      simpa using (List.getElem?_eq_some_iff.1 hran.entry).1
    refine ⟨p, r, hlo, by rw [h.kept.applied_eq]; exact hlt, hran, ?_⟩
    cases hm : call.method with
    | get key => simp [Method.result, Op.returns, ClerkCall.op, Method.op, hm]
    | putAppend key v append => simp [Method.result]

theorem clerks_rotate (clerks : List (Clerk n)) (c : ℕ) :
    (clerks.modify c Clerk.rotate).map (fun ck => (ck.clientId, ck.seqId)) =
      clerks.map (fun ck => (ck.clientId, ck.seqId)) := by
  refine List.ext_getElem? fun i => ?_
  rw [List.getElem?_map, List.getElem?_map, getElem?_modify_eq, Option.map_map]
  congr 1
  funext ck
  simp only [Function.comp_apply]
  split <;> rfl

/-- **Clerks that are used properly take their turns**, whatever happens. -/
theorem Inv.step (h : Inv codec as log w) {a : ClerkAct n} (hlaw : w.Lawful codec a)
    (hproper : w.Proper a) (hstep : w.step codec a = some w') :
    ∃ as' log', Inv codec as' log' w' := by
  obtain ⟨w', hact, rfl⟩ := Option.map_eq_some_iff.1 hstep
  cases a with
  | invoke c method =>
      simp only [act] at hact
      split at hact
      · exact absurd hact (by simp)
      · next ck hc =>
          obtain rfl := Option.some.inj hact
          exact ⟨as, log, h.invoke hc hproper⟩
  | send k =>
      simp only [act] at hact
      split at hact
      · exact absurd hact (by simp)
      · next call hk =>
          split at hact
          · next hfree =>
              split at hact
              · exact absurd hact (by simp)
              · split at hact
                · exact absurd hact (by simp)
                · obtain rfl := Option.some.inj hact
                  exact ⟨as, log, h.setCall hk (.rpc hfree.1) (fun j hj => absurd hj (by simp))
                    ⟨rfl, rfl, rfl⟩ rfl⟩
          · exact absurd hact (by simp)
  | arrive k =>
      simp only [act] at hact
      split at hact
      · exact absurd hact (by simp)
      · next call hk =>
          split at hact
          · next s hrpc =>
              obtain rfl := Option.some.inj hact
              exact h.arrive hk hrpc
          · exact absurd hact (by simp)
  | reply k =>
      simp only [act] at hact
      split at hact
      · exact absurd hact (by simp)
      · next call hk =>
          split at hact
          · next i hrpc =>
              split at hact
              · exact absurd hact (by simp)
              · next reply hreply =>
                  obtain rfl := Option.some.inj hact
                  have hrun : call.returned = none := h.calls.waits k call hk (by rw [hrpc]; simp)
                  unfold receive
                  split
                  · next value hdone =>
                      exact ⟨as, log, h.setCall hk
                        (.finished hrun h.kept.applied_eq (h.told hk hrpc hreply hdone))
                        (fun j hj => absurd hj (by simp)) ⟨rfl, rfl, rfl⟩ rfl⟩
                  · exact ⟨as, log, h.setCall hk (.rpc hrun) (fun j hj => absurd hj (by simp))
                      ⟨rfl, rfl, rfl⟩ (clerks_rotate _ _)⟩
                  · exact ⟨as, log, h.setCall hk (.rpc hrun) (fun j hj => absurd hj (by simp))
                      ⟨rfl, rfl, rfl⟩ rfl⟩
          · exact absurd hact (by simp)
  | fail k =>
      simp only [act] at hact
      split at hact
      · exact absurd hact (by simp)
      · next call hk =>
          split at hact
          · next rpc hrpc =>
              obtain rfl := Option.some.inj hact
              have hrun : call.returned = none := h.calls.waits k call hk (by rw [hrpc]; simp)
              exact ⟨as, log, h.setCall hk (.rpc hrun) (fun j hj => absurd hj (by simp))
                ⟨rfl, rfl, rfl⟩ (clerks_rotate _ _)⟩
          · exact absurd hact (by simp)
  | service ev =>
      simp only [act] at hact
      split at hact
      · next hadm =>
          split at hact
          · exact absurd hact (by simp)
          · next v hv =>
              obtain rfl := Option.some.inj hact
              exact h.served hadm hproper hlaw hv
      · exact absurd hact (by simp)

end Inv

end Clerks

end KV

end AiFS
