import AiFS.KV.Client
import AiFS.Lib.Pool

set_option autoImplicit false

/-! # Whom a failing call has tried

`execute` makes as many tries as the client has addresses, and gets the address for each from a
cursor that all calls on the client share. Alone, a call goes once around. Between its tries other
calls may move the cursor on, and then it comes to some address twice and to another one never
(`failed_call_misses`).

What decides is the order in which the calls come to `nextAddr`, `callers`. The turns of a call are
its places in this order; it has tried every address if no two of them differ by a multiple of the
number of addresses (`failed_call_tried`). -/

namespace AiFS

namespace KV

open Machine Pool

variable {n : ℕ} {codec : Codec} {w w' : World n} {act : Act n}

/-! ## Turns -/

/-- The places of `c` in the order in which calls have come to `nextAddr`. -/
def turnsOf (callers : List ℕ) (c : ℕ) : List ℕ :=
  (List.range callers.length).filter (fun j => callers[j]? = some c)

theorem mem_turnsOf {callers : List ℕ} {c j : ℕ} :
    j ∈ turnsOf callers c ↔ callers[j]? = some c := by
  simp only [turnsOf, List.mem_filter, List.mem_range, decide_eq_true_eq]
  exact and_iff_right_of_imp (fun h => (List.getElem?_eq_some_iff.1 h).1)

theorem turnsOf_concat (callers : List ℕ) (c c' : ℕ) :
    turnsOf (callers ++ [c']) c =
      turnsOf callers c ++ if c' = c then [callers.length] else [] := by
  unfold turnsOf
  rw [List.length_append, List.length_singleton, List.range_succ, List.filter_append]
  congr 1
  · refine List.filter_congr (fun j hj => ?_)
    rw [List.getElem?_append_left (List.mem_range.1 hj)]
  · by_cases h : c' = c <;> simp [h]

/-- As many numbers below `n` as there are: they are different iff none is missing. -/
theorem nodup_iff_complete {l : List ℕ} {n : ℕ} (hlen : l.length = n) (hlt : ∀ i ∈ l, i < n) :
    l.Nodup ↔ ∀ i < n, i ∈ l := by
  constructor
  · intro hnodup i hi
    have hsub : l ⊆ List.range n := fun j hj => List.mem_range.2 (hlt j hj)
    have hperm := (hnodup.subperm hsub).perm_of_length_le (by simp [hlen])
    exact hperm.mem_iff.2 (List.mem_range.2 hi)
  · intro hall
    have hsub : List.range n ⊆ l := fun j hj => hall j (List.mem_range.1 hj)
    have hperm := (List.nodup_range.subperm hsub).perm_of_length_le (by simp [hlen])
    exact hperm.nodup_iff.1 List.nodup_range

/-- The positions of a cursor that has started at `s`, at the given turns. -/
theorem nodup_positions_iff {turns : List ℕ} (s n : ℕ) :
    (turns.map (fun j => (s + j) % n)).Nodup ↔ turns.Pairwise (fun i j => ¬ i ≡ j [MOD n]) := by
  rw [List.Nodup, List.pairwise_map]
  refine List.Pairwise.iff (fun i j => not_congr ?_)
  exact ⟨fun h => Nat.ModEq.add_left_cancel' s h, fun h => Nat.ModEq.add_left s h⟩

theorem map_modify_of_comp {α β : Type} (l : List α) (k : ℕ) {f : α → α} {g : α → β}
    (h : ∀ x, g (f x) = g x) : (l.modify k f).map g = l.map g := by
  refine List.ext_getElem? (fun j => ?_)
  rw [List.getElem?_map, List.getElem?_map, List.getElem?_modify]
  cases l[j]? with
  | none => rfl
  | some x =>
      simp only [Option.map_eq_map, Option.map_some, Option.some.injEq]
      split
      · exact h x
      · rfl

/-! ## Steps -/

namespace World

/-- Who has come to `nextAddr`, and which address it got, in order. -/
def sends (w : World n) : List (ℕ × Fin n) := w.attempts.map (fun a => (a.call, a.server))

/-- The order in which the calls have come to `nextAddr`. -/
def callers (w : World n) : List ℕ := w.attempts.map Attempt.call

def turns (w : World n) (c : ℕ) : List ℕ := turnsOf w.callers c

theorem turns_eq (w : World n) (c : ℕ) : w.turns c = turnsOf (w.sends.map Prod.fst) c := by
  rw [turns, callers, sends, List.map_map]
  rfl

/-- What a step does to the calls and to the cursor. -/
inductive Turn (w w' : World n) : Prop
  | invoke (call : Call) : w'.calls = w.calls ++ [call] →
      call.tries = w.client.addrs.length →
      call.result ≠ some (.error "no available kv leader") → w'.sends = w.sends →
      w'.client.addrs = w.client.addrs → w'.client.curr = w.client.curr → Turn w w'
  | send (c : ℕ) (call call' : Call) (server : Fin n) : w.calls[c]? = some call →
      w'.calls = w.calls.set c call' → call'.tries + 1 = call.tries → call'.result = none →
      w.client.addrs[w.client.curr]? = some server → w'.sends = w.sends ++ [(c, server)] →
      w'.client.addrs = w.client.addrs →
      w'.client.curr = (w.client.curr + 1) % w.client.addrs.length → Turn w w'
  | goOn (c : ℕ) (call call' : Call) : w.calls[c]? = some call → w'.calls = w.calls.set c call' →
      call'.tries = call.tries →
      (call'.result = some (.error "no available kv leader") → call.tries = 0 ∨
        call.result = some (.error "no available kv leader")) →
      w'.sends = w.sends → w'.client = w.client → Turn w w'
  | other : w'.calls = w.calls → w'.sends = w.sends → w'.client = w.client → Turn w w'

theorem nextAddr_some {client client' : Client n} {server : Fin n}
    (h : client.nextAddr = (some server, client')) :
    client.addrs[client.curr]? = some server ∧ client'.addrs = client.addrs ∧
      client'.curr = (client.curr + 1) % client.addrs.length := by
  unfold Client.nextAddr at h
  split at h
  · cases h
  · next hne =>
      obtain ⟨hserver, hclient⟩ := Prod.mk.inj h
      rw [← hclient]
      refine ⟨?_, rfl, rfl⟩
      rw [← hserver, List.get_eq_getElem, List.getElem?_eq_getElem (client.curr_lt hne)]

theorem calls_setCall {c : ℕ} {call : Call} (hc : w.calls[c]? = some call) (f : Call → Call) :
    (w.setCall c f).calls = w.calls.set c (f call) := by
  rw [setCall, List.modify_eq_set_getElem?, hc]
  rfl

/-- A call of `execute` that goes on with what `doOnce` returned makes no further try by that. -/
theorem receive_turn {c : ℕ} {call : Call} (hc : w.calls[c]? = some call)
    (resp : Option HTTPResponse) : Turn w (w.receive c resp) := by
  have hagain : Turn w (w.setCall c fun call => { call with current := none }) :=
    .goOn c call _ hc (calls_setCall hc _) rfl (fun h => Or.inr h) rfl rfl
  unfold receive
  split
  · exact hagain
  · next resp =>
      split
      · exact hagain
      · refine .goOn c call _ hc (calls_setCall hc _) rfl (fun h => ?_) rfl rfl
        cases h

theorem waiter_call {a c : ℕ} (h : w.waiter a = some c) : ∃ call, w.calls[c]? = some call := by
  unfold waiter at h
  split at h
  · cases h
  · split at h
    · cases h
    · next call hcall =>
        split at h
        · exact ⟨call, Option.some.inj h ▸ hcall⟩
        · cases h

theorem step_turn (hstep : w.step codec act = some w') : Turn w w' := by
  cases act with
  | invoke query =>
      rw [← Option.some.inj hstep]
      unfold invoke
      split
      · next hnil =>
          refine .invoke _ rfl (by rw [hnil]; rfl) (fun h => ?_) rfl rfl rfl
          exact absurd (Except.error.inj (Option.some.inj h)) (by decide)
      · exact .invoke _ rfl rfl (fun h => by cases h) rfl rfl rfl
  | send c =>
      simp only [step] at hstep
      split at hstep
      · cases hstep
      · next call hc =>
          split at hstep
          · next hfree =>
              unfold World.send at hstep
              split at hstep
              · next hzero =>
                  rw [← Option.some.inj hstep]
                  exact .goOn c call _ hc (calls_setCall hc _) rfl (fun _ => Or.inl hzero) rfl rfl
              · next tries htries =>
                  split at hstep
                  · cases hstep
                  · next server client hnext =>
                      obtain ⟨hserver, haddrs, hcurr⟩ := nextAddr_some hnext
                      rw [← Option.some.inj hstep]
                      refine .send c call _ server hc (calls_setCall hc _) ?_ hfree.1 hserver ?_
                        haddrs hcurr
                      · exact htries.symm
                      · exact List.map_append
          · cases hstep
  | arrive a =>
      simp only [step] at hstep
      split at hstep
      · cases hstep
      · split at hstep
        · cases hstep
        · split at hstep
          · rw [← Option.some.inj hstep]
            refine .other rfl ?_ rfl
            exact map_modify_of_comp _ _ (fun _ => rfl)
          · cases hstep
  | respond a =>
      simp only [step] at hstep
      split at hstep
      · next c reply hwait _ =>
          obtain ⟨call, hc⟩ := waiter_call hwait
          exact Option.some.inj hstep ▸ receive_turn hc _
      · cases hstep
  | fail a =>
      simp only [step] at hstep
      split at hstep
      · next c hwait =>
          obtain ⟨call, hc⟩ := waiter_call hwait
          exact Option.some.inj hstep ▸ receive_turn hc _
      · cases hstep
  | service ev =>
      simp only [step] at hstep
      split at hstep
      · split at hstep
        · cases hstep
        · exact Option.some.inj hstep ▸ .other rfl rfl rfl
      · cases hstep

/-! ## The cursor -/

/-- The cursor has moved once for each try, and the tries of a call are counted. -/
structure Rota (start : Client n) (w : World n) : Prop where
  addrs : w.client.addrs = start.addrs
  curr : w.client.curr ≡ start.curr + w.sends.length [MOD start.addrs.length]
  server : ∀ (j : ℕ) c server, w.sends[j]? = some (c, server) →
    start.addrs[(start.curr + j) % start.addrs.length]? = some server
  tries : ∀ (c : ℕ) call, w.calls[c]? = some call →
    (w.turns c).length + call.tries = start.addrs.length
  later : ∀ c, w.calls.length ≤ c → w.turns c = []
  failed : ∀ (c : ℕ) call, w.calls[c]? = some call →
    call.result = some (.error "no available kv leader") → call.tries = 0

theorem rota_init (client : Client n) : Rota client (init codec client) where
  addrs := rfl
  curr := rfl
  server j c server h := by cases h
  tries c call h := by cases h
  later c _ := rfl
  failed c call h := by cases h

/-- Where the cursor is, is where the next call is sent. -/
theorem Rota.next {start : Client n} {server : Fin n} (h : Rota start w)
    (hserver : w.client.addrs[w.client.curr]? = some server) :
    start.addrs[(start.curr + w.sends.length) % start.addrs.length]? = some server := by
  have hlt := (List.getElem?_eq_some_iff.1 hserver).1
  rw [h.addrs] at hserver hlt
  rw [← h.curr, Nat.mod_eq_of_lt hlt]
  exact hserver

theorem Rota.send {start : Client n} {c : ℕ} {call call' : Call} {server : Fin n}
    (h : Rota start w) (hc : w.calls[c]? = some call) (hcalls : w'.calls = w.calls.set c call')
    (htries : call'.tries + 1 = call.tries) (hresult : call'.result = none)
    (hserver : w.client.addrs[w.client.curr]? = some server)
    (hsends : w'.sends = w.sends ++ [(c, server)]) (haddrs : w'.client.addrs = w.client.addrs)
    (hcurr : w'.client.curr = (w.client.curr + 1) % w.client.addrs.length) : Rota start w' := by
  have hturns : ∀ d, w'.turns d = w.turns d ++ if c = d then [w.sends.length] else [] := by
    intro d
    rw [turns_eq, turns_eq, hsends, List.map_append, List.map_singleton, turnsOf_concat,
      List.length_map]
  refine ⟨haddrs.trans h.addrs, ?_, fun j d server' hj => ?_, fun d call₁ hd => ?_, fun d hd => ?_,
    fun d call₁ hd hfailed => ?_⟩
  · rw [hcurr, h.addrs, hsends, List.length_append, List.length_singleton, ← Nat.add_assoc]
    exact (Nat.mod_modEq _ _).trans (h.curr.add_right 1)
  · rw [hsends] at hj
    rcases getElem?_concat_eq_or w.sends (c, server) j with heq | ⟨hnone, heq⟩
    · exact h.server j d server' (heq ▸ hj)
    · have hlast : j = w.sends.length := by
        have hlt := (List.getElem?_eq_some_iff.1 heq).1
        have hge := List.getElem?_eq_none_iff.1 hnone
        rw [List.length_append, List.length_singleton] at hlt
        omega
      rw [heq] at hj
      rw [hlast, h.next hserver, (Prod.mk.inj (Option.some.inj hj)).2]
  · rw [hcalls, getElem?_set_of_some hc] at hd
    rw [hturns]
    split at hd
    · next hdc =>
        have hcount := h.tries c call hc
        rw [← Option.some.inj hd, hdc, if_pos rfl, List.length_append, List.length_singleton]
        omega
    · next hdc =>
        rw [if_neg (Ne.symm hdc), List.append_nil]
        exact h.tries d call₁ hd
  · rw [hcalls, List.length_set] at hd
    have hlt := (List.getElem?_eq_some_iff.1 hc).1
    rw [hturns, if_neg (by omega), List.append_nil]
    exact h.later d hd
  · rw [hcalls, getElem?_set_of_some hc] at hd
    split at hd
    · rw [← Option.some.inj hd, hresult] at hfailed
      cases hfailed
    · exact h.failed d call₁ hd hfailed

/-- A step that leaves the cursor and the tries alone. -/
theorem Rota.keep {start : Client n} (h : Rota start w) (hsends : w'.sends = w.sends)
    (haddrs : w'.client.addrs = w.client.addrs) (hcurr : w'.client.curr = w.client.curr)
    (hlen : w.calls.length ≤ w'.calls.length)
    (hcalls : ∀ (c : ℕ) call, w'.calls[c]? = some call →
      (w.turns c).length + call.tries = start.addrs.length ∧
        (call.result = some (.error "no available kv leader") → call.tries = 0)) :
    Rota start w' := by
  have hturns : ∀ c, w'.turns c = w.turns c := by
    intro c
    rw [turns_eq, turns_eq, hsends]
  refine ⟨haddrs.trans h.addrs, ?_, fun j c server hj => ?_, fun c call hc => ?_, fun c hc => ?_,
    fun c call hc => (hcalls c call hc).2⟩
  · rw [hcurr, hsends]
    exact h.curr
  · rw [hsends] at hj
    exact h.server j c server hj
  · rw [hturns]
    exact (hcalls c call hc).1
  · rw [hturns]
    exact h.later c (hlen.trans hc)

theorem Rota.step {start : Client n} (h : Rota start w) (hstep : w.step codec act = some w') :
    Rota start w' := by
  have hold : ∀ (c : ℕ) call, w.calls[c]? = some call →
      (w.turns c).length + call.tries = start.addrs.length ∧
        (call.result = some (.error "no available kv leader") → call.tries = 0) :=
    fun c call hc => ⟨h.tries c call hc, h.failed c call hc⟩
  cases step_turn hstep with
  | invoke call hcalls htries hresult hsends haddrs hcurr =>
      refine h.keep hsends haddrs hcurr (by rw [hcalls]; simp) (fun c call' hc => ?_)
      rw [hcalls] at hc
      rcases getElem?_concat_eq_or w.calls call c with heq | ⟨hnone, heq⟩
      · exact hold c call' (heq ▸ hc)
      · rw [← Option.some.inj (heq.symm.trans hc)]
        refine ⟨?_, fun hfailed => absurd hfailed hresult⟩
        rw [h.later c (List.getElem?_eq_none_iff.1 hnone), htries, h.addrs]
        exact Nat.zero_add _
  | send c call call' server hc hcalls htries hresult hserver hsends haddrs hcurr =>
      exact h.send hc hcalls htries hresult hserver hsends haddrs hcurr
  | goOn c call call' hc hcalls htries hresult hsends hclient =>
      refine h.keep hsends (by rw [hclient]) (by rw [hclient]) (by rw [hcalls]; simp) ?_
      intro d call₁ hd
      rw [hcalls, getElem?_set_of_some hc] at hd
      split at hd
      · next hdc =>
          rw [← Option.some.inj hd, hdc, htries]
          refine ⟨h.tries c call hc, fun hfailed => ?_⟩
          rcases hresult hfailed with hzero | hbefore
          · exact hzero
          · exact h.failed c call hc hbefore
      · exact hold d call₁ hd
  | other hcalls hsends hclient =>
      refine h.keep hsends (by rw [hclient]) (by rw [hclient]) (by rw [hcalls]) ?_
      rw [hcalls]
      exact hold

theorem rota_exec {client : Client n} {as : List (Act n)}
    (hrun : exec (World.step codec) (init codec client) as = some w) : Rota client w :=
  invariant_exec (P := fun _ _ => True) (I := Rota client)
    (fun _ _ _ hI _ hstep => hI.step hstep) as _ w (rota_init client)
    (along_of_forall (fun _ _ => trivial) as _) hrun

/-! ## Addresses -/

/-- The call `c` has sent its request to the address `x`. -/
def Tried (w : World n) (c : ℕ) (x : Fin n) : Prop :=
  ∃ attempt ∈ w.attempts, attempt.call = c ∧ attempt.server = x

instance (w : World n) (c : ℕ) (x : Fin n) : Decidable (w.Tried c x) :=
  inferInstanceAs (Decidable (∃ attempt ∈ w.attempts, attempt.call = c ∧ attempt.server = x))

theorem tried_iff {c : ℕ} {x : Fin n} :
    w.Tried c x ↔ ∃ j ∈ w.turns c, w.sends[j]? = some (c, x) := by
  constructor
  · rintro ⟨attempt, hmem, rfl, rfl⟩
    obtain ⟨j, hj⟩ := List.mem_iff_getElem?.1 hmem
    refine ⟨j, mem_turnsOf.2 ?_, ?_⟩
    · rw [callers, List.getElem?_map, hj]
      rfl
    · rw [sends, List.getElem?_map, hj]
      rfl
  · rintro ⟨j, -, hj⟩
    rw [sends, List.getElem?_map] at hj
    obtain ⟨attempt, hattempt, heq⟩ := Option.map_eq_some_iff.1 hj
    obtain ⟨hcall, hserver⟩ := Prod.mk.inj heq
    exact ⟨attempt, List.mem_of_getElem? hattempt, hcall, hserver⟩

/-- The address that a call gets at one of its turns. -/
theorem Rota.at_turn {start : Client n} (h : Rota start w) {c j : ℕ} (hj : j ∈ w.turns c) :
    ∃ x, w.sends[j]? = some (c, x) ∧
      start.addrs[(start.curr + j) % start.addrs.length]? = some x := by
  have hcaller := mem_turnsOf.1 hj
  rw [callers, List.getElem?_map] at hcaller
  obtain ⟨attempt, hattempt, rfl⟩ := Option.map_eq_some_iff.1 hcaller
  have hsend : w.sends[j]? = some (attempt.call, attempt.server) := by
    rw [sends, List.getElem?_map, hattempt]
    rfl
  exact ⟨attempt.server, hsend, h.server j _ _ hsend⟩

end World

open World

/-- **Which failing calls have tried everyone.** In every run of any number of calls on one client,
    a call that fails with `no available kv leader` has sent its request to every address if no two
    of its turns at the cursor are a multiple of the number of addresses apart; and where the
    addresses are different, only then. -/
theorem failed_call_tried {client : Client n} {as : List (Act n)}
    (hrun : exec (World.step codec) (init codec client) as = some w) {c : ℕ} {call : Call}
    (hc : w.calls[c]? = some call)
    (hfailed : call.result = some (.error "no available kv leader")) :
    ((w.turns c).Pairwise (fun i j => ¬ i ≡ j [MOD client.addrs.length]) →
      ∀ x ∈ client.addrs, w.Tried c x) ∧
    (client.addrs.Nodup → (∀ x ∈ client.addrs, w.Tried c x) →
      (w.turns c).Pairwise (fun i j => ¬ i ≡ j [MOD client.addrs.length])) := by
  have h := rota_exec hrun
  have hlen : ((w.turns c).map (fun j => (client.curr + j) % client.addrs.length)).length =
      client.addrs.length := by
    have hcount := h.tries c call hc
    rw [h.failed c call hc hfailed] at hcount
    rw [List.length_map]
    exact hcount
  have hlt : ∀ i ∈ (w.turns c).map (fun j => (client.curr + j) % client.addrs.length),
      i < client.addrs.length := by
    intro i hi
    obtain ⟨j, hj, rfl⟩ := List.mem_map.1 hi
    obtain ⟨x, -, hx⟩ := h.at_turn hj
    exact (List.getElem?_eq_some_iff.1 hx).1
  rw [← nodup_positions_iff client.curr, nodup_iff_complete hlen hlt]
  constructor
  · intro hall x hx
    obtain ⟨i, hi⟩ := List.mem_iff_getElem?.1 hx
    obtain ⟨j, hj, rfl⟩ := List.mem_map.1 (hall i (List.getElem?_eq_some_iff.1 hi).1)
    obtain ⟨y, hsend, hy⟩ := h.at_turn hj
    have hxy : y = x := Option.some.inj (hy.symm.trans hi)
    exact tried_iff.2 ⟨j, hj, hxy ▸ hsend⟩
  · intro hnodup htried i hi
    obtain ⟨j, hj, hsend⟩ := tried_iff.1 (htried _ (List.getElem_mem hi))
    obtain ⟨y, hsend', hy⟩ := h.at_turn hj
    have hxy := (Prod.mk.inj (Option.some.inj (hsend'.symm.trans hsend))).2
    refine List.mem_map.2 ⟨j, hj, ?_⟩
    have hget : client.addrs[(client.curr + j) % client.addrs.length]? = client.addrs[i]? := by
      rw [hy, hxy, List.getElem?_eq_getElem hi]
    exact (List.getElem?_inj (List.getElem?_eq_some_iff.1 hy).1 hnodup).1 hget

/-- A client of two servers. -/
def pairClient : Client 2 :=
  .new (List.finRange 2) 1 (by decide)

/-- A call that is alone, and finds no server. -/
def aloneRun : List (Act 2) :=
  [.invoke (.get "k"), .send 0, .fail 0, .send 0, .fail 1, .send 0]

theorem failed_call_tried_alone : ∃ w,
    exec (World.step blankCodec) (init blankCodec pairClient) aloneRun = some w ∧
    ∀ x ∈ pairClient.addrs, w.Tried 0 x := by
  have hrun : ∃ w call,
      exec (World.step blankCodec) (init blankCodec pairClient) aloneRun = some w ∧
      w.calls[0]? = some call ∧ call.result = some (.error "no available kv leader") ∧
      w.callers = [0, 0] := ⟨_, _, rfl, rfl, rfl, rfl⟩
  obtain ⟨w, call, hw, hc, hfailed, hcallers⟩ := hrun
  refine ⟨w, hw, (failed_call_tried hw hc hfailed).1 ?_⟩
  rw [turns, hcallers]
  decide

/-- **Two calls take turns.** The first one fails; it has sent its request twice to the same server
    and never to the other. -/
theorem failed_call_misses : ∃ w call, exec (World.step blankCodec) (init blankCodec pairClient)
      [.invoke (.get "k"), .invoke (.get "l"), .send 0, .send 1, .fail 0, .send 0, .fail 2,
        .send 0] = some w ∧
    w.calls[0]? = some call ∧ call.result = some (.error "no available kv leader") ∧
    w.callers = [0, 1, 0] ∧ ∃ x ∈ pairClient.addrs, ¬ w.Tried 0 x :=
  ⟨_, _, rfl, rfl, rfl, rfl, Fin.last 1, by decide, by decide⟩

end KV

end AiFS
