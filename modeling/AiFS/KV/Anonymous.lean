import AiFS.KV.ServersLedger

set_option autoImplicit false

/-! # Requests without an identity

A request without `client_id` and `seq_id` is run for the one client `httpClientID`, with a number
that the server takes from a counter of its own. The counter is not replicated and starts again with
the server, but the record of that client is replicated: a server whose counter is behind hands out
numbers that the record takes for old ones, and answers such a request with the last reply without
ever running it (`swallowed`).

`anonymous_applied` says when that does not happen: the servers keep to the conditions of
`Agreement.lean`, and wherever such a request is looked up, by its handler or by the first applier
that takes it, the record has a smaller number (`Rising`). -/

namespace AiFS

namespace KV

open TermLog (getElem?_of_isPrefix)

variable {n : ℕ}

/-- The client of an operation has come to a smaller number. -/
def State.Above (st : State) (op : Op) : Prop :=
  ∀ record ∈ st.recordMap op.clientId, record.lastSeqId < op.seqId

instance (st : State) (op : Op) : Decidable (st.Above op) :=
  inferInstanceAs (Decidable (∀ record ∈ st.recordMap op.clientId, record.lastSeqId < op.seqId))

theorem State.Above.seen_eq_none {st : State} {op : Op} (h : st.Above op) : st.seen op = none := by
  unfold State.seen
  split
  · next record hrec =>
      rw [if_neg]
      exact not_le.2 (h record hrec)
  · rfl

/-- The answer of a handler has the error of its reply. -/
theorem respond_err {op : Op} {reply : OpReply} {status : ℕ} {resp : HTTPResponse}
    (h : respond op reply = ⟨status, .json resp⟩) : resp.err = reply.err := by
  obtain ⟨_, hbody⟩ := HTTPReply.mk.inj h
  rw [← Body.json.inj hbody]
  rfl

namespace Servers

/-- A handler whose request came without an identity has this operation at this index. -/
def unnamed (w : Servers n) (index : ℕ) (op : Op) : Prop :=
  ∃ k < w.waiters.handlers.length, w.anonymous k = true ∧
    (w.waiters.handlers[k]?).map (fun x => (x.index, x.op)) = some (index, op)

instance (w : Servers n) (index : ℕ) (op : Op) : Decidable (w.unnamed index op) :=
  inferInstanceAs (Decidable (∃ k < w.waiters.handlers.length, w.anonymous k = true ∧
    (w.waiters.handlers[k]?).map (fun x => (x.index, x.op)) = some (index, op)))

/-- Where a request without an identity is looked up, by its handler or by the first applier that
    takes it, its number is new. -/
def Rising (w : Servers n) : Event n → Prop
  | .happens (.enter k) => ∀ x ∈ w.waiters.handlers[k]?, w.anonymous k = true →
      (w.state x.server).Above x.op
  | .happens (.replicas a) => ∀ q ∈ w.waiters.replicas.taken a, q.2.1 = w.applied + 1 →
      w.unnamed q.2.1 q.2.2 → (w.state q.1).Above q.2.2
  | _ => True

instance (w : Servers n) : ∀ ev, Decidable (w.Rising ev)
  | .happens (.enter k) => inferInstanceAs (Decidable (∀ x ∈ w.waiters.handlers[k]?,
      w.anonymous k = true → (w.state x.server).Above x.op))
  | .happens (.replicas a) => inferInstanceAs (Decidable (∀ q ∈ w.waiters.replicas.taken a,
      q.2.1 = w.applied + 1 → w.unnamed q.2.1 q.2.2 → (w.state q.1).Above q.2.2))
  | .post .. | .rpc .. | .refuse _ | .kill _ | .happens (.call ..) | .happens (.refuse _)
  | .happens (.register _) | .happens (.wake _) | .happens (.timeout _) | .happens (.getState _)
  | .happens (.finish _) | .happens (.notify _) => isTrue trivial

variable {codec : Codec} {as as' : List (Action n Op)} {log log' : List (ℕ × Op)}
  {w w' : Servers n} {ev : Event n} {evs : List (Event n)}

/-! ## The invariant -/

/-- The operations of requests without an identity pass the dedup test, and those that are answered
    with `OK` are in the log, as their own. -/
structure Own (log : List (ℕ × Op)) (w : Servers n) : Prop where
  fresh : ∀ (p k : ℕ) op, log[p]? = some (k, op) → w.anonymous k = true →
    (State.replay ((log.map Prod.snd).take p)).seen op = none
  entry : ∀ (k : ℕ) x reply, w.waiters.handlers[k]? = some x → w.anonymous k = true →
    x.progress = .answered reply → reply.err = Err.ok → ∃ p : ℕ, log[p]? = some (k, x.op)

theorem own_init : Own [] (init codec n) where
  fresh _ _ _ h := absurd h (by simp)
  entry _ _ _ h := absurd h (by simp [init, Waiters.init])

/-- Where the request of a handler came from does not change. -/
theorem anonymous_step (h : w.step codec ev = some w') {k : ℕ}
    (hk : k < w.waiters.handlers.length) : w'.anonymous k = w.anonymous k := by
  rcases step_inv h with ⟨-, -, -, hsame⟩ | ⟨_, -, -, -, hsame⟩
  · rw [hsame]
  · exact hsame k hk

theorem take_of_isPrefix (hpre : log <+: log') {p : ℕ} (hp : p ≤ log.length) :
    (log'.map Prod.snd).take p = (log.map Prod.snd).take p := by
  obtain ⟨rest, rfl⟩ := hpre
  rw [List.map_append, List.take_append_of_le_length (by simpa using hp)]

theorem own_step (hk : w.Kept codec as log) (ho : w.Own log) (hr : w.Rising ev)
    (hstep : w.step codec ev = some w') (hm : w.Moved as log ev w' as' log') : w'.Own log' := by
  have hpre := hm.isPrefix
  cases hm with
  | quiet hev _ hlog hw =>
      subst hlog
      refine ⟨fun p k op hp hanon => ?_, fun k x reply hx hanon hst hok => ?_⟩
      · obtain ⟨x, hx, -⟩ := hk.ledger.owner hp
        rw [anonymous_step hstep (List.getElem?_eq_some_iff.1 hx).1] at hanon
        exact ho.fresh p k op hp hanon
      · rw [hw] at hx
        rw [anonymous_step hstep (List.getElem?_eq_some_iff.1 hx).1] at hanon
        exact ho.entry k x reply hx hanon hst hok
  | advance hap hev hadv =>
      refine ⟨fun p k op hp hanon => ?_, fun k x' reply hx' hanon hst hok => ?_⟩
      · rcases hadv.grown with rfl | ⟨a, s, g, x, rfl, ht, hreached, hg, hindex, rfl⟩
        · obtain ⟨x, hx, -⟩ := hk.ledger.owner hp
          rw [anonymous_step hstep (List.getElem?_eq_some_iff.1 hx).1] at hanon
          exact ho.fresh p k op hp hanon
        · rcases Pool.getElem?_concat_cases hp with hold | ⟨rfl, hnew⟩
          · obtain ⟨x, hx, -⟩ := hk.ledger.owner hold
            rw [anonymous_step hstep (List.getElem?_eq_some_iff.1 hx).1] at hanon
            rw [take_of_isPrefix hpre (List.getElem?_eq_some_iff.1 hold).1.le]
            exact ho.fresh p k op hold hanon
          · -- the first applier to take it finds it new
            obtain ⟨rfl, rfl⟩ := Prod.mk.inj hnew
            have hlt := (List.getElem?_eq_some_iff.1 hg).1
            rw [anonymous_step hstep hlt] at hanon
            rw [take_of_isPrefix hpre le_rfl, List.take_of_length_le (by simp)]
            obtain rfl := eq_of_happening hev (by simp) (by simp)
            have habove := hr _ ht (by rw [hk.applied_eq])
              ⟨k, hlt, hanon, by rw [hg, Option.map_some, hindex]⟩
            rw [state, hk.ledger.state_eq, hreached, List.take_of_length_le (by simp)] at habove
            exact habove.seen_eq_none
      · rcases hadv.handled.each k x' hx' with ⟨x, hx, hcont⟩ | ⟨s, op, -, -, rfl⟩
        · rw [anonymous_step hstep (List.getElem?_eq_some_iff.1 hx).1] at hanon
          have hgrow : ∀ p : ℕ, log[p]? = some (k, x.op) → ∃ p : ℕ, log'[p]? = some (k, x'.op) := by
            intro p hp
            rw [hcont.op]
            exact ⟨p, getElem?_of_isPrefix hpre hp⟩
          rcases hcont.answered reply hst with hold | hreason
          · obtain ⟨p, hp⟩ := ho.entry k x reply hx hanon hold hok
            exact hgrow p hp
          · cases hreason with
            | looked hent hseen =>
                -- the short-cut needs a number that is not new
                subst hent
                obtain rfl := eq_of_happening hev (by simp) (by simp)
                have hnone := (hr x hx hanon).seen_eq_none
                exact absurd (hseen.symm.trans hnone) (by simp)
            | failed hno _ => exact absurd hok hno
            | own hp => exact hgrow _ hp
        · exact absurd hst (by simp)

/-! ## When an operation was applied -/

/-- In the step from `w₁` to `w₂` an applier takes the operation at place `p` of the log, from the
    entry of term `t`. -/
structure Moment (log : List (ℕ × Op)) (p : ℕ) (op : Op) (t : ℕ) (w₁ : Servers n) (ev : Event n)
    (w₂ : Servers n) : Prop where
  applied : w₁.applied = p
  takes : ∃ s, w₁.Takes ev s op ∧ w₁.state s = State.replay ((log.map Prod.snd).take p) ∧
    w₂.state s = (w₁.state s).apply op ∧
    (w₂.waiters.replicas.raft.rf s).fullLog[p]? = some ⟨t, some op⟩

/-- Every operation of the log was applied at some moment of the run, from the entry that the call
    of `Start` by its owner made. -/
def Journal (codec : Codec) (evs : List (Event n)) (log : List (ℕ × Op)) (w : Servers n) : Prop :=
  ∀ (p k : ℕ) op x, log[p]? = some (k, op) → w.waiters.handlers[k]? = some x →
    Machine.Occurs (step codec) (init codec n) evs (Moment log p op x.startTerm)

theorem Moment.mono {p t : ℕ} {op : Op} {w₁ w₂ : Servers n} (h : Moment log p op t w₁ ev w₂)
    (hpre : log <+: log') (hp : p ≤ log.length) : Moment log' p op t w₁ ev w₂ where
  applied := h.applied
  takes := by
    obtain ⟨s, htakes, hbefore, hafter, hentry⟩ := h.takes
    exact ⟨s, htakes, by rw [hbefore, take_of_isPrefix hpre hp], hafter, hentry⟩

theorem journal_step (hrun : exec codec evs = some w) (hk : w.Kept codec as log)
    (hj : Journal codec evs log w) (hl : w.Lawful codec ev) (hstep : w.step codec ev = some w')
    (hk' : w'.Kept codec as' log') (hm : w.Moved as log ev w' as' log') :
    Journal codec (evs ++ [ev]) log' w' := by
  intro p k op x' hp hx'
  have hpre := hm.isPrefix
  rcases hk.entry_cases hl hstep hm hp with hold | ⟨rfl, s, hadopts⟩
  · obtain ⟨x, hx, -, hindex⟩ := hk.ledger.owner hold
    have hterm : x'.startTerm = x.startTerm := hm.startTerm_eq hx hx' (by omega)
    rw [hterm]
    exact ((hj p k op x hold hx).append _).imp fun _ _ _ _ hmoment =>
      hmoment.mono hpre (List.getElem?_eq_some_iff.1 hold).1.le
  · refine Machine.occurs_last hrun hstep ⟨rfl, s, hadopts.takes, ?_, hadopts.after, ?_⟩
    · rw [take_of_isPrefix hpre hk.applied_eq.le, hk.applied_eq,
        List.take_of_length_le (by simp)]
      exact hadopts.before
    · exact hk'.ledger.booked.entry_at hp (Ledger.place_of hx') (by rw [hadopts.reached]; omega)

/-- **Run lemma.** -/
theorem own_exec (hlaw : Machine.Along (step codec) (Lawful codec) (init codec n) evs)
    (hrise : Machine.Along (step codec) Rising (init codec n) evs) (h : exec codec evs = some w) :
    ∃ as log, w.Kept codec as log ∧ w.Own log ∧ Journal codec evs log w := by
  refine Machine.history_exec
    (I := fun evs w => ∃ as log, Kept codec as log w ∧ Own log w ∧ Journal codec evs log w)
    ⟨[], [], kept_init, own_init, fun _ _ _ _ hp => absurd hp (by simp)⟩ ?_ evs w
    (Machine.along_and hlaw hrise) h
  rintro evs w ev w' hrun ⟨as, log, hk, ho, hj⟩ ⟨hl, hr⟩ hstep
  obtain ⟨as', log', hk', hm⟩ := hk.step hl hstep
  exact ⟨as', log', hk', own_step hk ho hr hstep hm, journal_step hrun hk hj hl hstep hk' hm⟩

/-! ## Answers -/

/-- The operation of a handler was applied from its own entry: in some step of the run, an applier
    is the first to take it, at the index and from the entry that `Start` has returned to the
    handler, finds it new, and its store becomes what `applyToStateMachine` makes of it. -/
def AppliedByOwnEntry (codec : Codec) (evs : List (Event n)) (x : Waiter n) : Prop :=
  Machine.Occurs (step codec) (init codec n) evs fun w ev w' => w.applied + 1 = x.index ∧
    ∃ s, w.Takes ev s x.op ∧ (w.state s).seen x.op = none ∧
      (w'.state s).kvStore = (applyToStateMachine (w.state s).kvStore x.op).1 ∧
      (w'.waiters.replicas.raft.rf s).fullLog[x.index - 1]? = some ⟨x.startTerm, some x.op⟩

/-- **Requests without an identity.** If their numbers are new wherever they are looked up, a
    request that is answered with `OK` was applied from an entry of its own, and the state of every
    server is the result of a part of one sequence of operations, with this one at its index. -/
theorem anonymous_applied (hlaw : Machine.Along (step codec) (Lawful codec) (init codec n) evs)
    (hrise : Machine.Along (step codec) Rising (init codec n) evs) (h : exec codec evs = some w)
    {k : ℕ} {x : Waiter n} (hk : w.waiters.handlers[k]? = some x) (hanon : w.anonymous k = true)
    {status : ℕ} {resp : HTTPResponse} (hanswer : w.answer k = some ⟨status, .json resp⟩)
    (hok : resp.err = Err.ok) :
    AppliedByOwnEntry codec evs x ∧
      ∃ ops : List Op, ops[x.index - 1]? = some x.op ∧
        ∀ s, w.state s = State.replay (ops.take (w.waiters.replicas.replica s).reached) := by
  obtain ⟨as, log, hkept, hown, hj⟩ := own_exec hlaw hrise h
  obtain ⟨y, reply, hy, hst, hrespond⟩ := answer_eq_some hanswer
  obtain rfl := Option.some.inj (hk.symm.trans hy)
  obtain ⟨p, hp⟩ := hown.entry k x reply hk hanon hst ((respond_err hrespond.symm).symm.trans hok)
  have hseen := hown.fresh p k x.op hp hanon
  obtain ⟨z, hz, -, hindex⟩ := hkept.ledger.owner hp
  obtain rfl := Option.some.inj (hk.symm.trans hz)
  refine ⟨(hj p k x.op x hp hk).imp fun w₁ ev w₂ _ hm => ?_, log.map Prod.snd, ?_,
    hkept.ledger.state_eq⟩
  · obtain ⟨s, htakes, hbefore, hafter, hentry⟩ := hm.takes
    rw [← hbefore] at hseen
    refine ⟨by rw [hm.applied, hindex], s, htakes, hseen, ?_, by rw [hindex]; exact hentry⟩
    rw [hafter, State.apply, State.execute, hseen]
  · rw [hindex, Nat.add_sub_cancel, List.getElem?_map, hp]
    rfl

/-- What the replicas do. -/
def replicating (as : List (Action 3 Op)) : List (Event 3) :=
  as.map fun a => .happens (.replicas a)

/-- What the handlers and the appliers do. -/
def handling (haps : List (Happening 3)) : List (Event 3) :=
  haps.map .happens

/-- Leader `0` runs a `put` without an identity and answers it, and server `1` applies it too. -/
def firstPut : List (Event 3) :=
  replicating electRun ++ [.post 0 (.request { op := "put", key := "x", value := "1" })] ++
  handling [.enter 0, .register 0] ++
  replicating [.run 0 2, .run 0 2, .deliver 1, .deliver 1, .apply 0, .receive 0 0] ++
  handling [.notify 0, .wake 0, .getState 0, .finish 0] ++
  replicating [.run 0 0, .run 0 2, .deliver 1, .apply 1, .receive 1 0] ++ handling [.notify 1]

theorem anonymous_applied_firstPut :
    AppliedByOwnEntry blankCodec firstPut ⟨0, ⟨.put, "x", "1", 1, httpClientID⟩, 1, 1, none,
      .answered ⟨Err.ok, ""⟩⟩ := by
  have hrun : (exec blankCodec firstPut).map
      (fun w => (w.waiters.handlers[0]?, w.anonymous 0, w.answer 0)) =
      some (some ⟨0, ⟨.put, "x", "1", 1, httpClientID⟩, 1, 1, none, .answered ⟨Err.ok, ""⟩⟩, true,
        some ⟨200, .json ⟨true, "", Err.ok⟩⟩) := by decide
  have hsteady : Machine.Along (step blankCodec) Steady (init blankCodec 3) firstPut := by decide
  have hrise : Machine.Along (step blankCodec) Rising (init blankCodec 3) firstPut := by decide
  have hlaw := Machine.along_mono (fun _ _ h => Steady.lawful blankCodec h) hsteady
  obtain ⟨w, hw, hval⟩ := Option.map_eq_some_iff.1 hrun
  obtain ⟨hk, hrest⟩ := Prod.mk.inj hval
  obtain ⟨hanon, hanswer⟩ := Prod.mk.inj hrest
  exact (anonymous_applied hlaw hrise hw hk hanon hanswer rfl).1

/-- Then server `1` gets such a request. Its counter is still at zero, so the number is `1` once
    more. -/
def secondPut : List (Event 3) :=
  firstPut ++ [.post 1 (.request { op := "put", key := "y", value := "2" })] ++ handling [.enter 1]

/-- It is answered with `OK`, and it is in nobody's log and nobody's store, though the servers keep
    to their conditions. -/
theorem swallowed :
    (exec blankCodec secondPut).map (fun w => (w.anonymous 1, w.answer 1)) =
      some (true, some ⟨200, .json ⟨true, "", Err.ok⟩⟩) ∧
    (exec blankCodec secondPut).map (fun w => (List.finRange 3).map fun s =>
        ((w.waiters.replicas.raft.rf s).fullLog.map LogEntry.command,
          (w.state s).kvStore "y")) =
      some [([some ⟨.put, "x", "1", 1, httpClientID⟩], none),
        ([some ⟨.put, "x", "1", 1, httpClientID⟩], none), ([], none)] ∧
    Machine.Along (step blankCodec) Steady (init blankCodec 3) secondPut := by
  decide

end Servers

end KV

end AiFS
