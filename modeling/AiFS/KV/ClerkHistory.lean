import AiFS.KV.ClerkTurns
import AiFS.Porcupine.CheckOperations

set_option autoImplicit false

/-! # What clerks see is a store

Every operation of a clerk is run at one place of the log only. Taken in the order of these places,
the calls are a run of the store (`Points`), and a call that returned before another one began has
the earlier place. So the history of clerks that are used properly is linearizable, if those calls
that have not returned but took effect are counted in, and the checker does not complain about it.
-/

namespace AiFS

namespace KV

open Porcupine (KvOperation StoreLinearizable storeStep)

variable {n : ℕ}

/-! ## Places in the log -/

theorem seen_eq_none_iff {ops : List Op} {p : ℕ} {op : Op}
    (hsorted : LastSeen.Sorted (ops.map Op.id)) (hp : ops[p]? = some op) :
    (State.replay (ops.take p)).seen op = none ↔ op.id ∉ (ops.take p).map Op.id := by
  have hsplit : ops.map Op.id =
      (ops.take p).map Op.id ++ [op.id] ++ (ops.drop (p + 1)).map Op.id := by
    rw [← List.map_singleton, ← List.map_append, ← State.take_succ_of_getElem? hp,
      ← List.map_append, List.take_append_drop]
  rw [hsplit] at hsorted
  rw [← Option.isNone_iff_eq_none, State.seen_replay]
  exact (LastSeen.Sorted.passes_iff hsorted.left).1

/-- An operation is run at one place. -/
theorem Ran.place_unique {ops : List Op} {p p' : ℕ} {op : Op} {reply reply' : OpReply}
    (hsorted : LastSeen.Sorted (ops.map Op.id)) (h : Ran ops p op reply)
    (h' : Ran ops p' op reply') : p = p' := by
  -- at the later one of two places the operation is no longer new
  have hnot : ∀ {q q' : ℕ} {r r' : OpReply}, Ran ops q op r → Ran ops q' op r' → ¬ q < q' := by
    intro q q' r r' hq hq' hlt
    refine (seen_eq_none_iff hsorted hq'.entry).1 hq'.fresh ?_
    refine List.mem_map_of_mem (List.mem_of_getElem? (i := q) ?_)
    rw [List.getElem?_take, if_pos hlt]
    exact hq.entry
  rcases Nat.lt_trichotomy p p' with hlt | heq | hgt
  · exact absurd hlt (hnot h h')
  · exact heq
  · exact absurd hgt (hnot h' h)

namespace Clerks

/-! ## Linearization -/

/-- A place of the log at which the operation of a call is run, with its reply. -/
structure Point (n : ℕ) where
  place : ℕ
  call : ClerkCall n
  reply : OpReply

/-- What is written down for the call, now at the latest. -/
def Point.operation (w : Clerks n) (x : Point n) : KvOperation :=
  x.call.operation (x.call.method.result x.reply) (x.call.returned.elim w.clock Returned.time)

/-- All points below a place, in order: they are a run of the store. -/
structure Points (log : List (ℕ × Op)) (w : Clerks n) (m : ℕ) (xs : List (Point n)) : Prop where
  sorted : xs.Pairwise fun x y => x.place < y.place
  mem : ∀ x, x ∈ xs ↔
    x.place < m ∧ x.call ∈ w.calls ∧ Ran (log.map Prod.snd) x.place x.call.op x.reply
  legal : Machine.exec storeStep (fun _ => "") (xs.map (Point.operation w)) =
    some fun k => ((State.replay ((log.map Prod.snd).take m)).kvStore k).getD ""

/-- One operation of the store of the model. -/
theorem storeStep_eq (store : String → String) (op : KvOperation) :
    storeStep store op =
      if (Porcupine.kvStep (store op.input.key) op.input op.output).1 then
        some (Function.update store op.input.key
          (Porcupine.kvStep (store op.input.key) op.input op.output).2)
      else none := by
  unfold storeStep Linearize.together Porcupine.FilledModel.opStep
  split
  · next h => exact (if_pos h).symm
  · next h => exact (if_neg h).symm

/-- The servers and the model do the same to a key that is not there and to an empty one. -/
theorem getD_update (store : Store) (key value : String) :
    (fun k => (Function.update store key (some value) k).getD "") =
      Function.update (fun k => (store k).getD "") key value := by
  funext k
  by_cases hk : k = key
  · subst hk
    simp
  · simp [hk]

/-- The store of the servers and the store of the model make the same step. -/
theorem storeStep_operation (store : Store) (call : ClerkCall n) (time : ℕ) :
    storeStep (fun k => (store k).getD "")
        (call.operation (call.method.result (applyToStateMachine store call.op).2) time) =
      some fun k => ((applyToStateMachine store call.op).1 k).getD "" := by
  rw [storeStep_eq]
  cases hm : call.method with
  | get key =>
      have hvalue : Method.result (getHandler store call.op) (.get key) = (store key).getD "" := by
        cases hkey : store key with
        | none => simp [Method.result, getHandler, ClerkCall.op, Method.op, hm, hkey]
        | some v => simp [Method.result, getHandler, ClerkCall.op, Method.op, hm, hkey]
      have happly : applyToStateMachine store call.op = (store, getHandler store call.op) := by
        simp [applyToStateMachine, ClerkCall.op, Method.op, hm]
      simp [Porcupine.kvStep, ClerkCall.operation, Method.input, happly, hm, hvalue]
  | putAppend key value append =>
      cases append with
      | false =>
          simp [Porcupine.kvStep, ClerkCall.operation, ClerkCall.op, Method.op, Method.input,
            applyToStateMachine, putHandler, hm, getD_update]
      | true =>
          simp [Porcupine.kvStep, ClerkCall.operation, ClerkCall.op, Method.op, Method.input,
            applyToStateMachine, appendHandler, hm, getD_update]

section Points

variable {codec : Codec} {as : List (Action n Op)} {log : List (ℕ × Op)} {w : Clerks n} {m : ℕ}
  {xs : List (Point n)}

/-- A duplicate is no point, and the store stays as it is. -/
theorem Points.skip (h : Points log w m xs) {op : Op} {reply : OpReply}
    (hop : (log.map Prod.snd)[m]? = some op)
    (hseen : (State.replay ((log.map Prod.snd).take m)).seen op = some reply) :
    Points log w (m + 1) xs := by
  refine ⟨h.sorted, fun x => ?_, ?_⟩
  · rw [h.mem]
    refine ⟨fun hx => ⟨Nat.lt_succ_of_lt hx.1, hx.2⟩, fun hx => ⟨?_, hx.2⟩⟩
    refine lt_of_le_of_ne (Nat.le_of_lt_succ hx.1) fun heq => ?_
    obtain ⟨hentry, hfresh, _⟩ := hx.2.2
    rw [heq, hop] at hentry
    rw [heq, ← Option.some.inj hentry, hseen] at hfresh
    exact absurd hfresh (by simp)
  · rw [h.legal, State.take_succ_of_getElem? hop, State.replay_concat, State.apply, State.execute,
      hseen]

/-- An operation that is run is the next point. -/
theorem Points.concat (hinv : Inv codec as log w) (h : Points log w m xs) {k : ℕ}
    {call : ClerkCall n} {reply : OpReply} (hk : w.calls[k]? = some call)
    (hran : Ran (log.map Prod.snd) m call.op reply) :
    Points log w (m + 1) (xs ++ [⟨m, call, reply⟩]) := by
  refine ⟨?_, fun x => ?_, ?_⟩
  · refine List.pairwise_append.2 ⟨h.sorted, List.pairwise_singleton _ _, fun x hx y hy => ?_⟩
    rw [List.mem_singleton.1 hy]
    exact ((h.mem x).1 hx).1
  · rw [List.mem_append, h.mem, List.mem_singleton]
    constructor
    · rintro (hx | rfl)
      · exact ⟨Nat.lt_succ_of_lt hx.1, hx.2⟩
      · exact ⟨Nat.lt_succ_self m, List.mem_of_getElem? hk, hran⟩
    · rintro ⟨hlt, hin, hx⟩
      rcases Nat.lt_succ_iff_lt_or_eq.1 hlt with hlt | heq
      · exact Or.inl ⟨hlt, hin, hx⟩
      · -- at one place there is one operation, of one call, with one reply
        obtain ⟨place, call', reply'⟩ := x
        obtain rfl : place = m := heq
        obtain ⟨j, hj⟩ := List.mem_iff_getElem?.1 hin
        have hop : call'.op = call.op := Option.some.inj (hx.entry.symm.trans hran.entry)
        obtain rfl := hinv.calls.eq_of_id hj hk (congrArg Op.id hop)
        obtain rfl : call' = call := Option.some.inj (hj.symm.trans hk)
        rw [show reply' = reply from hx.reply_eq.trans hran.reply_eq.symm]
        exact Or.inr rfl
  · rw [List.map_append, Machine.exec_append, h.legal, Option.bind_some]
    have hstep := storeStep_operation (State.replay ((log.map Prod.snd).take m)).kvStore call
      (call.returned.elim w.clock Returned.time)
    rw [← hran.reply_eq] at hstep
    rw [List.map_singleton, Point.operation, Machine.exec_cons_of_some [] hstep, Machine.exec,
      State.take_succ_of_getElem? hran.entry, State.replay_concat, State.apply, State.execute,
      hran.fresh]

theorem Inv.exists_points (h : Inv codec as log w) (hm : m ≤ (log.map Prod.snd).length) :
    ∃ xs, Points log w m xs := by
  induction m with
  | zero => exact ⟨[], List.Pairwise.nil, fun x => by simp, rfl⟩
  | succ m ih =>
      obtain ⟨xs, hxs⟩ := ih (Nat.le_of_succ_le hm)
      have hop : (log.map Prod.snd)[m]? = some (log.map Prod.snd)[m] := List.getElem?_eq_getElem hm
      cases hseen : (State.replay ((log.map Prod.snd).take m)).seen (log.map Prod.snd)[m] with
      | some reply => exact ⟨xs, hxs.skip hop hseen⟩
      | none =>
          obtain ⟨k, call, hk, hcall⟩ := h.called (List.mem_of_getElem? hop)
          rw [hcall] at hop hseen
          exact ⟨_, hxs.concat h hk ⟨hop, hseen, rfl⟩⟩

/-- Every call has one point at most. -/
theorem Points.eq_of_call (hinv : Inv codec as log w) (h : Points log w m xs) {x y : Point n}
    (hx : x ∈ xs) (hy : y ∈ xs) (hcall : x.call = y.call) : x = y := by
  obtain ⟨place, call, reply⟩ := x
  obtain ⟨place', call', reply'⟩ := y
  obtain rfl : call = call' := hcall
  obtain ⟨_, _, hran⟩ := (h.mem _).1 hx
  obtain ⟨_, _, hran'⟩ := (h.mem _).1 hy
  obtain rfl : place = place' := hran.place_unique hinv.sorted_ops hran'
  rw [show reply = reply' from hran.reply_eq.trans hran'.reply_eq.symm]

/-- A point is not before its call. -/
theorem Points.begun_le (hinv : Inv codec as log w) (h : Points log w m xs) {x : Point n}
    (hx : x ∈ xs) : x.call.begun ≤ x.place := by
  obtain ⟨_, hin, hran⟩ := (h.mem x).1 hx
  obtain ⟨k, hk⟩ := List.mem_iff_getElem?.1 hin
  cases hr : x.call.returned with
  | none =>
      obtain ⟨p, hlo, hp⟩ := (hinv.running k x.call hk hr).entries x.place hran.entry
      rw [hran.place_unique hinv.sorted_ops hp]
      exact hlo
  | some r =>
      obtain ⟨p, reply, hlo, _, hp, _⟩ := (hinv.calls.ended k x.call r hk hr).2.2.2
      rw [hran.place_unique hinv.sorted_ops hp]
      exact hlo

/-- It is before the return of its call, which hands on its reply. -/
theorem Points.returned (hinv : Inv codec as log w) (h : Points log w m xs) {x : Point n}
    (hx : x ∈ xs) {r : Returned} (hr : x.call.returned = some r) :
    x.place < r.ended ∧ r.value = x.call.method.result x.reply := by
  obtain ⟨_, hin, hran⟩ := (h.mem x).1 hx
  obtain ⟨k, hk⟩ := List.mem_iff_getElem?.1 hin
  obtain ⟨p, reply, _, hhi, hp, hvalue⟩ := (hinv.calls.ended k x.call r hk hr).2.2.2
  obtain rfl := hran.place_unique hinv.sorted_ops hp
  rw [hran.reply_eq, ← hp.reply_eq]
  exact ⟨hhi, hvalue⟩

/-- The order of the points is that of real time. -/
theorem Points.respects (hinv : Inv codec as log w) (h : Points log w m xs) :
    (xs.map (Point.operation w)).Pairwise fun a b => ¬ b.Before a := by
  rw [List.pairwise_map]
  refine h.sorted.imp_of_mem fun {x y} hx hy hlt hbefore => ?_
  obtain ⟨_, hxin, _⟩ := (h.mem x).1 hx
  obtain ⟨_, hyin, _⟩ := (h.mem y).1 hy
  obtain ⟨j, hj⟩ := List.mem_iff_getElem?.1 hxin
  obtain ⟨k, hk⟩ := List.mem_iff_getElem?.1 hyin
  have hbefore' : y.call.returned.elim w.clock Returned.time < x.call.called := by
    have hcast : ((y.call.returned.elim w.clock Returned.time : ℕ) : ℤ) < (x.call.called : ℤ) :=
      hbefore
    exact_mod_cast hcast
  cases hr : y.call.returned with
  | none =>
      -- nothing begins after the present
      rw [hr] at hbefore'
      have hpresent : w.clock < x.call.called := hbefore'
      have := (hinv.calls.begun j x.call hj).1
      omega
  | some r =>
      rw [hr] at hbefore'
      have hended := hinv.calls.realTime k j y.call x.call r hk hj hr hbefore'
      have hplace := (h.returned hinv hy hr).1
      have hbegun := h.begun_le hinv hx
      omega

theorem CallsOk.eq_of_called (h : CallsOk log w) {a b : ClerkCall n} (ha : a ∈ w.calls)
    (hb : b ∈ w.calls) (hcalled : a.called = b.called) : a = b := by
  obtain ⟨j, hj⟩ := List.mem_iff_getElem?.1 ha
  obtain ⟨k, hk⟩ := List.mem_iff_getElem?.1 hb
  rcases Nat.lt_trichotomy j k with hlt | rfl | hgt
  · exact absurd hcalled (h.inTurn j k a b hlt hj hk).1.ne
  · exact Option.some.inj (hj.symm.trans hk)
  · exact absurd hcalled (h.inTurn k j b a hgt hk hj).1.ne'

theorem CallsOk.pairwise_called (h : CallsOk log w) :
    w.calls.Pairwise fun a b => a.called < b.called := by
  rw [List.pairwise_iff_getElem]
  intro j k hj hk hlt
  exact (h.inTurn j k _ _ hlt (List.getElem?_eq_getElem hj) (List.getElem?_eq_getElem hk)).1

theorem mem_history {a : KvOperation} : a ∈ w.history ↔
    ∃ call ∈ w.calls, ∃ r, call.returned = some r ∧ call.operation r.value r.time = a := by
  simp [history]

theorem mem_pending {value : ClerkCall n → Option String} {a : KvOperation} :
    a ∈ w.pending value ↔ ∃ call ∈ w.calls, call.returned = none ∧ ∃ v, value call = some v ∧
      call.operation v w.clock = a := by
  simp [pending]

theorem called_eq_of_operation {a b : ClerkCall n} {v v' : String} {t t' : ℕ}
    (h : a.operation v t = b.operation v' t') : a.called = b.called := by
  have hcall : (a.called : ℤ) = b.called := congrArg Porcupine.Operation.call h
  exact_mod_cast hcall

/-- No operation is written down twice. -/
theorem CallsOk.nodup_history (h : CallsOk log w) (value : ClerkCall n → Option String) :
    (w.history ++ w.pending value).Nodup := by
  refine List.nodup_append.2 ⟨?_, ?_, fun a ha b hb heq => ?_⟩
  · refine List.Pairwise.filterMap _ (fun a b hlt x hx y hy heq => ?_) h.pairwise_called
    obtain ⟨r, _, rfl⟩ := Option.map_eq_some_iff.1 hx
    obtain ⟨r', _, rfl⟩ := Option.map_eq_some_iff.1 hy
    exact hlt.ne (called_eq_of_operation heq)
  · refine List.Pairwise.filterMap _ (fun a b hlt x hx y hy heq => ?_) h.pairwise_called
    have hop : ∀ {call : ClerkCall n} {z : KvOperation},
        (if call.returned = none then (value call).map fun v => call.operation v w.clock
          else none) = some z → ∃ v, call.operation v w.clock = z := by
      intro call z hz
      split at hz
      · obtain ⟨v, _, hv⟩ := Option.map_eq_some_iff.1 hz
        exact ⟨v, hv⟩
      · exact absurd hz (by simp)
    obtain ⟨v, rfl⟩ := hop hx
    obtain ⟨v', rfl⟩ := hop hy
    exact hlt.ne (called_eq_of_operation heq)
  · obtain ⟨call, hcall, r, hr, rfl⟩ := mem_history.1 ha
    obtain ⟨call', hcall', hrun, v, _, rfl⟩ := mem_pending.1 hb
    rw [h.eq_of_called hcall hcall' (called_eq_of_operation heq), hrun] at hr
    exact absurd hr (by simp)

/-- **The places are a linearization** of the calls that have returned and of those that took
    effect without having returned. -/
theorem Inv.linearizable (h : Inv codec as log w) :
    ∃ value, StoreLinearizable (w.history ++ w.pending value) := by
  obtain ⟨xs, hxs⟩ := h.exists_points (le_refl (log.map Prod.snd).length)
  have hpoint : ∀ call ∈ w.calls, ∀ p reply, Ran (log.map Prod.snd) p call.op reply →
      (⟨p, call, reply⟩ : Point n) ∈ xs := fun call hcall p reply hran =>
    (hxs.mem _).2 ⟨(List.getElem?_eq_some_iff.1 hran.entry).1, hcall, hran⟩
  refine ⟨fun call => (xs.find? fun x => x.call = call).map fun x => call.method.result x.reply,
    xs.map (Point.operation w), ?_, hxs.respects h, by rw [hxs.legal]; rfl⟩
  have hnodup : (xs.map (Point.operation w)).Nodup := by
    refine List.Nodup.map_on (fun x hx y hy heq => ?_) (hxs.sorted.imp fun hlt heq => ?_)
    · refine hxs.eq_of_call h hx hy ?_
      exact h.calls.eq_of_called ((hxs.mem x).1 hx).2.1 ((hxs.mem y).1 hy).2.1
        (called_eq_of_operation heq)
    · rw [heq] at hlt
      exact lt_irrefl _ hlt
  refine (List.perm_ext_iff_of_nodup hnodup (h.calls.nodup_history _)).2 fun a => ?_
  rw [List.mem_append, mem_history, mem_pending, List.mem_map]
  constructor
  · rintro ⟨x, hx, rfl⟩
    obtain ⟨_, hcall, _⟩ := (hxs.mem x).1 hx
    cases hr : x.call.returned with
    | some r =>
        refine Or.inl ⟨x.call, hcall, r, hr, ?_⟩
        rw [(hxs.returned h hx hr).2, Point.operation, hr]
        rfl
    | none =>
        refine Or.inr ⟨x.call, hcall, hr, x.call.method.result x.reply, ?_, ?_⟩
        · have hsome : (xs.find? fun y => y.call = x.call).isSome := by
            rw [List.find?_isSome]
            exact ⟨x, hx, by simp⟩
          obtain ⟨y, hy⟩ := Option.isSome_iff_exists.1 hsome
          have hcall' : y.call = x.call := by simpa using List.find?_some hy
          rw [hy, hxs.eq_of_call h (List.mem_of_find?_eq_some hy) hx hcall']
          rfl
        · rw [Point.operation, hr]
          rfl
  · rintro (⟨call, hcall, r, hr, rfl⟩ | ⟨call, hcall, hr, v, hv, rfl⟩)
    · obtain ⟨k, hk⟩ := List.mem_iff_getElem?.1 hcall
      obtain ⟨p, reply, _, _, hran, hvalue⟩ := (h.calls.ended k call r hk hr).2.2.2
      refine ⟨⟨p, call, reply⟩, hpoint call hcall p reply hran, ?_⟩
      rw [Point.operation, hr, hvalue]
      rfl
    · obtain ⟨y, hy, rfl⟩ := Option.map_eq_some_iff.1 hv
      have hcall' : y.call = call := by simpa using List.find?_some hy
      refine ⟨y, List.mem_of_find?_eq_some hy, ?_⟩
      rw [Point.operation, hcall', hr]
      rfl

end Points

section Runs

variable {codec : Codec} {clerks : List (List (Fin n) × ℤ)} {acts : List (ClerkAct n)}
  {w : Clerks n}

theorem inv_exec (hids : (clerks.map Prod.snd).Nodup)
    (hlaw : Machine.Along (step codec) (Lawful codec) (init codec clerks) acts)
    (hproper : Machine.Along (step codec) Proper (init codec clerks) acts)
    (hrun : Machine.exec (step codec) (init codec clerks) acts = some w) :
    ∃ as log, Inv codec as log w := by
  refine Machine.invariant_exec (I := fun w => ∃ as log, Inv codec as log w) ?_ acts _ w
    ⟨[], [], inv_init hids⟩ (Machine.along_and hlaw hproper) hrun
  rintro w a w' ⟨as, log, hinv⟩ ⟨hl, hp⟩ hstep
  exact hinv.step hl hp hstep

/-- **Clerks see a store.** Whatever happens to servers and messages, as long as the servers keep to
    their conditions: the history of clerks that are used properly is linearizable, together with
    those of the running calls that have taken effect. -/
theorem clerks_linearizable (hids : (clerks.map Prod.snd).Nodup)
    (hlaw : Machine.Along (step codec) (Lawful codec) (init codec clerks) acts)
    (hproper : Machine.Along (step codec) Proper (init codec clerks) acts)
    (hrun : Machine.exec (step codec) (init codec clerks) acts = some w) :
    ∃ value, StoreLinearizable (w.history ++ w.pending value) := by
  obtain ⟨as, log, hinv⟩ := inv_exec hids hlaw hproper hrun
  exact hinv.linearizable

/-- The conditions on the servers, in a form that can be evaluated. -/
def Steady (w : Clerks n) : ClerkAct n → Prop
  | .service ev => w.service.Steady ev
  | _ => True

instance (w : Clerks n) : ∀ a, Decidable (w.Steady a)
  | .service ev => inferInstanceAs (Decidable (w.service.Steady ev))
  | .invoke .. | .send _ | .arrive _ | .reply _ | .fail _ => isTrue trivial

theorem Steady.lawful (codec : Codec) {a : ClerkAct n} (h : w.Steady a) : w.Lawful codec a := by
  cases a with
  | service ev => exact Servers.Steady.lawful codec h
  | _ => trivial

/-- Two clerks, which call the servers in different orders. -/
def twoClerks : List (List (Fin 3) × ℤ) :=
  [([0, 1, 2], 7), ([1, 0, 2], 8)]

/-- What the replicas do. -/
def replicating (as : List (Action 3 Op)) : List (ClerkAct 3) :=
  as.map fun a => .service (.happens (.replicas a))

/-- What the handlers and the appliers do. -/
def handling (haps : List (Happening 3)) : List (ClerkAct 3) :=
  haps.map fun hap => .service (.happens hap)

/-- The first clerk puts a value, which is committed and applied on leader `0`. The second clerk
    reads: server `1` sends it away, and server `0` answers. The put has not returned yet. -/
def readBeforeReturn : List (ClerkAct 3) :=
  replicating electRun ++ [.invoke 0 (.putAppend "k" "v" false), .send 0, .arrive 0] ++
  handling [.enter 0, .register 0] ++
  replicating [.run 0 2, .run 0 2, .deliver 1, .deliver 1, .apply 0, .receive 0 0] ++
  handling [.notify 0, .wake 0, .getState 0, .finish 0] ++
  [.invoke 1 (.get "k"), .send 1, .arrive 1] ++ handling [.enter 1] ++
  [.reply 1, .send 1, .arrive 1] ++ handling [.enter 2, .register 2] ++
  replicating [.run 0 3, .run 0 3, .deliver 1, .deliver 1, .apply 0, .receive 0 0] ++
  handling [.notify 0, .wake 2, .getState 2, .finish 2] ++ [.reply 1]

theorem clerks_linearizable_readBeforeReturn : ∃ w,
    Machine.exec (step blankCodec) (init blankCodec twoClerks) readBeforeReturn = some w ∧
      w.history = [⟨1, ⟨0, "k", ""⟩, 20, ⟨"v"⟩, 39⟩] ∧
      ∃ value, StoreLinearizable (w.history ++ w.pending value) := by
  have hhistory : (Machine.exec (step blankCodec) (init blankCodec twoClerks)
      readBeforeReturn).map history = some [⟨1, ⟨0, "k", ""⟩, 20, ⟨"v"⟩, 39⟩] := by decide
  have hsteady : Machine.Along (step blankCodec) Steady (init blankCodec twoClerks)
      readBeforeReturn := by decide
  have hproper : Machine.Along (step blankCodec) Proper (init blankCodec twoClerks)
      readBeforeReturn := by decide
  have hlaw := Machine.along_mono (fun _ _ h => Steady.lawful blankCodec h) hsteady
  obtain ⟨w, hw, hval⟩ := Option.map_eq_some_iff.1 hhistory
  exact ⟨w, hw, hval, clerks_linearizable (by decide) hlaw hproper hw⟩

/-- The calls that are written down take some time. -/
theorem Inv.span {as : List (Action n Op)} {log : List (ℕ × Op)} (h : Inv codec as log w) :
    ∀ op ∈ w.history, op.call ≤ op.ret := by
  intro op hop
  obtain ⟨call, hcall, r, hr, rfl⟩ := mem_history.1 hop
  obtain ⟨k, hk⟩ := List.mem_iff_getElem?.1 hcall
  have hspan : call.called ≤ r.time := (h.calls.ended k call r hk hr).1
  show (call.called : ℤ) ≤ r.time
  exact_mod_cast hspan

/-- When all calls have returned, the history is linearizable by itself. -/
theorem Inv.linearizable_history {as : List (Action n Op)} {log : List (ℕ × Op)}
    (h : Inv codec as log w) (hdone : ∀ call ∈ w.calls, call.returned ≠ none) :
    StoreLinearizable w.history := by
  obtain ⟨value, hlin⟩ := h.linearizable
  have hnil : w.pending value = [] := by
    rw [List.eq_nil_iff_forall_not_mem]
    intro op hop
    obtain ⟨call, hcall, hrun, _⟩ := mem_pending.1 hop
    exact hdone call hcall hrun
  rwa [hnil, List.append_nil] at hlin

/-- **Clerks pass the check.** When the calls of clerks that are used properly have all returned,
    and the servers have kept to their conditions, `CheckOperations` does not find their history
    illegal, in whatever order it was written down, and without a timeout it finds it
    linearizable. -/
theorem clerks_pass_check (hids : (clerks.map Prod.snd).Nodup)
    (hlaw : Machine.Along (step codec) (Lawful codec) (init codec clerks) acts)
    (hproper : Machine.Along (step codec) Proper (init codec clerks) acts)
    (hrun : Machine.exec (step codec) (init codec clerks) acts = some w)
    (hdone : ∀ call ∈ w.calls, call.returned ≠ none) {log : List KvOperation}
    (hlog : log.Perm w.history) {sorter : Porcupine.Sorter Porcupine.KvInput Porcupine.KvOutput}
    {verbose : Bool} {timeout : ℤ} {turns : List Porcupine.Turn} {p : Porcupine.Par String}
    (hcheck : Porcupine.checkOperations sorter Porcupine.kvModel log verbose timeout turns = some p)
    {result : Porcupine.CheckResult} {info : Option (List (Finset (List ℕ)))}
    (hp : p.main = .returned result info) :
    result ≠ .illegal ∧ (timeout ≤ 0 → result = .ok) := by
  obtain ⟨as, log', hinv⟩ := inv_exec hids hlaw hproper hrun
  have hspan : ∀ op ∈ log, op.call ≤ op.ret := fun op hop => hinv.span op (hlog.subset hop)
  have hlin : StoreLinearizable log := (hinv.linearizable_history hdone).of_perm hlog.symm
  obtain ⟨_, hillegal, hunknown⟩ := Porcupine.checkOperations_decided
    Porcupine.congruent_kvModel (Porcupine.span_kvPartition hspan) hcheck hp
  have hne : result ≠ .illegal := by
    intro hresult
    obtain ⟨ops, hops, hnot⟩ := hillegal hresult
    exact hnot ((Porcupine.partition_linearizable hspan).1 hlin ops hops)
  refine ⟨hne, fun htimeout => ?_⟩
  cases result with
  | ok => rfl
  | illegal => exact absurd rfl hne
  | unknown => exact absurd (hunknown rfl) (not_lt.2 htimeout)

theorem clerks_pass_check_readBeforeReturn : ∃ w turns p info,
    Machine.exec (step blankCodec) (init blankCodec twoClerks) (readBeforeReturn ++ [.reply 0]) =
        some w ∧
      Porcupine.checkOperations Porcupine.mergeSorter Porcupine.kvModel w.history false 0 turns =
        some p ∧ p.main = .returned .ok info := by
  have hruns : (Machine.exec (step blankCodec) (init blankCodec twoClerks)
      (readBeforeReturn ++ [.reply 0])).map
      (fun w => (w.history, w.calls.map fun call => call.returned.isSome)) =
      some ([⟨0, ⟨1, "k", "v"⟩, 5, ⟨""⟩, 40⟩, ⟨1, ⟨0, "k", ""⟩, 20, ⟨"v"⟩, 39⟩], [true, true]) := by
    decide
  have hsteady : Machine.Along (step blankCodec) Steady (init blankCodec twoClerks)
      (readBeforeReturn ++ [.reply 0]) := by decide
  have hproper : Machine.Along (step blankCodec) Proper (init blankCodec twoClerks)
      (readBeforeReturn ++ [.reply 0]) := by decide
  have hlaw := Machine.along_mono (fun _ _ h => Steady.lawful blankCodec h) hsteady
  obtain ⟨w, hw, hval⟩ := Option.map_eq_some_iff.1 hruns
  obtain ⟨hhistory, hreturned⟩ := Prod.mk.inj hval
  have hdone : ∀ call ∈ w.calls, call.returned ≠ none := by
    intro call hcall hnone
    have hmem : call.returned.isSome ∈ [true, true] := hreturned ▸ List.mem_map_of_mem hcall
    rw [hnone] at hmem
    exact absurd hmem (by decide)
  have hspan : ∀ op ∈ w.history, op.call ≤ op.ret := by
    rw [hhistory]
    decide
  have hne : w.history ≠ [] := by
    rw [hhistory]
    decide
  obtain ⟨turns, p, result, info, hcheck, hp⟩ :=
    Porcupine.exists_return_kv Porcupine.mergeSorter hspan hne false 0
  have hok := (clerks_pass_check (by decide) hlaw hproper hw hdone (List.Perm.refl _) hcheck hp).2
    le_rfl
  exact ⟨w, turns, p, info, hw, hcheck, hok ▸ hp⟩

end Runs

end Clerks

end KV

end AiFS
