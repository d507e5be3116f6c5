import AiFS.KV.ServersLedger

set_option autoImplicit false

/-! # One operation at the servers

An operation whose identity nobody else has, and which is never looked up in a state where its
client has come to a larger number, is only ever answered for itself: with a reply that the appliers
computed when they ran it (`Genuine`). `Honest` is the invariant, for one operation, and
`honest_step` keeps it. -/

namespace AiFS

namespace KV

variable {n : ℕ}

/-! ## Replies that an operation has got itself -/

/-- The appliers run the operation at position `p` of the log, with this reply. -/
structure Ran (ops : List Op) (p : ℕ) (op : Op) (reply : OpReply) : Prop where
  entry : ops[p]? = some op
  fresh : (State.replay (ops.take p)).seen op = none
  reply_eq : reply = (applyToStateMachine (State.replay (ops.take p)).kvStore op).2

theorem Ran.mono {ops ops' : List Op} {p : ℕ} {op : Op} {reply : OpReply} (hpre : ops <+: ops')
    (h : Ran ops p op reply) : Ran ops' p op reply := by
  obtain ⟨rest, rfl⟩ := hpre
  have hlt := (List.getElem?_eq_some_iff.1 h.entry).1
  refine ⟨by rw [List.getElem?_append_left hlt]; exact h.entry, ?_, ?_⟩
  · rw [List.take_append_of_le_length hlt.le]
    exact h.fresh
  · rw [List.take_append_of_le_length hlt.le]
    exact h.reply_eq

/-- The reply is one that the operation got when it was run, at position `lo` or later. -/
def Genuine (ops : List Op) (lo : ℕ) (op : Op) (reply : OpReply) : Prop :=
  ∃ p, lo ≤ p ∧ Ran ops p op reply

theorem Genuine.mono {ops ops' : List Op} {lo : ℕ} {op : Op} {reply : OpReply}
    (hpre : ops <+: ops') (h : Genuine ops lo op reply) : Genuine ops' lo op reply := by
  obtain ⟨p, hlo, hran⟩ := h
  exact ⟨p, hlo, hran.mono hpre⟩

/-- The client of an operation has not come to a larger number. -/
def State.NotPassed (st : State) (op : Op) : Prop :=
  ∀ record ∈ st.recordMap op.clientId, record.lastSeqId ≤ op.seqId

instance (st : State) (op : Op) : Decidable (st.NotPassed op) :=
  inferInstanceAs (Decidable (∀ record ∈ st.recordMap op.clientId, record.lastSeqId ≤ op.seqId))

/-- A lookup finds a reply of the operation's own if it has not been passed. -/
theorem State.NotPassed.replyAt_of_seen {ops : List Op} {op : Op} {reply : OpReply}
    (h : (State.replay ops).NotPassed op) (hseen : (State.replay ops).seen op = some reply) :
    ∃ (p : ℕ) (x : Op), ops[p]? = some x ∧ x.id = op.id ∧ reply = State.replyAt ops p x := by
  unfold State.seen at hseen
  split at hseen
  · next record hrec =>
      split at hseen
      · next hge =>
          obtain rfl := Option.some.inj hseen
          obtain ⟨p, x, hx, hid, hreply⟩ := State.lastReply_replay ops hrec
          have heq : record.lastSeqId = op.seqId := le_antisymm (h record hrec) hge
          exact ⟨p, x, hx, by rw [hid, heq]; rfl, hreply⟩
      · exact absurd hseen (by simp)
  · exact absurd hseen (by simp)

/-! ## One operation -/

/-- The answer is neither `OK` nor `ErrNoKey`. -/
def OpReply.Failed (reply : OpReply) : Prop :=
  reply.err ≠ Err.ok ∧ reply.err ≠ Err.errNoKey

/-- An operation of a call that began when `lo` operations were applied: nobody else has its
    identity, and all it gets are replies to itself. -/
structure Honest (w : Waiters n) (log : List (ℕ × Op)) (lo : ℕ) (op : Op) : Prop where
  begun : lo ≤ log.length
  unique : ∀ (k : ℕ) x, w.handlers[k]? = some x → x.op.id = op.id → x.op = op
  entries : ∀ p : ℕ, (log.map Prod.snd)[p]? = some op →
    Genuine (log.map Prod.snd) lo op (State.replyAt (log.map Prod.snd) p op)
  answers : ∀ (k : ℕ) x reply, w.handlers[k]? = some x → x.op = op →
    x.progress = .answered reply → reply.Failed ∨
      ∃ r, reply = op.returns r ∧ Genuine (log.map Prod.snd) lo op r

/-- Where the operation is looked up it has not been passed. -/
def Looked (w : Waiters n) (op : Op) (ev : Happening n) : Prop :=
  ∀ s, w.lookup ev = some (s, op) → (w.replicas.replica s).kv.state.NotPassed op

section Honest

variable {codec : Codec} {as as' : List (Action n Op)} {w w' : Waiters n}
  {log log' : List (ℕ × Op)} {ev : Happening n} {lo : ℕ} {op : Op}

/-- The entries of the log with the identity of the operation are its own. -/
theorem Honest.eq_of_id (h : Honest w log lo op) (hL : Ledger codec as w log) {p : ℕ} {x : Op}
    (hx : (log.map Prod.snd)[p]? = some x) (hid : x.id = op.id) : x = op := by
  rw [List.getElem?_map] at hx
  obtain ⟨⟨k, y⟩, he, rfl⟩ := Option.map_eq_some_iff.1 hx
  obtain ⟨z, hz, rfl, -⟩ := hL.owner he
  exact h.unique k z hz hid

/-- What the operation finds in a prefix of the log is a reply to itself. -/
theorem Honest.genuine_of_seen (h : Honest w log lo op) (hL : Ledger codec as w log) {m : ℕ}
    {reply : OpReply} (hn : (State.replay ((log.map Prod.snd).take m)).NotPassed op)
    (hseen : (State.replay ((log.map Prod.snd).take m)).seen op = some reply) :
    Genuine (log.map Prod.snd) lo op reply := by
  obtain ⟨p, x, hx, hid, rfl⟩ := hn.replyAt_of_seen hseen
  have hlt := (List.getElem?_eq_some_iff.1 hx).1
  have hx' : (log.map Prod.snd)[p]? = some x := by
    rw [List.getElem?_take] at hx
    split at hx
    · exact hx
    · exact absurd hx (by simp)
  obtain rfl := h.eq_of_id hL hx' hid
  have hreply := h.entries p hx'
  rw [← List.take_append_drop m (log.map Prod.snd), State.replyAt_append hlt.le] at hreply
  rwa [List.take_append_drop] at hreply

/-- A command that is new to everyone: it is run at the end of the log, or finds a reply to
    itself. -/
theorem Honest.genuine_of_taken (h : Honest w log lo op) (hL : Ledger codec as w log) {g : ℕ}
    (hn : (State.replay (log.map Prod.snd)).NotPassed op) :
    Genuine ((log ++ [(g, op)]).map Prod.snd) lo op
      (State.replyAt (log.map Prod.snd) log.length op) := by
  have hops : log.map Prod.snd <+: (log ++ [(g, op)]).map Prod.snd :=
    (List.prefix_append _ _).map _
  have hall : (log.map Prod.snd).take log.length = log.map Prod.snd :=
    List.take_of_length_le (by simp)
  have htake : ((log ++ [(g, op)]).map Prod.snd).take log.length = log.map Prod.snd := by
    rw [List.map_append, List.take_append_of_le_length (by simp), hall]
  rw [State.replyAt, hall]
  cases hseen : (State.replay (log.map Prod.snd)).seen op with
  | none =>
      refine ⟨log.length, h.begun, by simp, ?_, ?_⟩
      · rw [htake]
        exact hseen
      · rw [htake, State.execute, hseen]
  | some r =>
      rw [State.execute, hseen]
      rw [← hall] at hn hseen
      exact (h.genuine_of_seen hL hn hseen).mono hops

/-- **An operation stays honest** in a step in which it is not passed and nobody takes its
    identity. -/
theorem honest_step (hL : Ledger codec as w log) (h : Honest w log lo op) (hl : Looked w op ev)
    (hcall : ∀ s x, ev = .call s x → x.id = op.id → x = op)
    (hadv : Advance w as log ev w' as' log') : Honest w' log' lo op := by
  have hpre := hadv.isPrefix
  have hops : log.map Prod.snd <+: log'.map Prod.snd := hpre.map _
  refine
    { begun := h.begun.trans hpre.length_le
      unique := fun k x' hk hid => ?_
      entries := fun p hp => ?_
      answers := fun k x' reply hk hop hst => ?_ }
  · rcases hadv.handled.each k x' hk with ⟨x, hx, hcont⟩ | ⟨s, y, hev, -, rfl⟩
    · rw [hcont.op] at hid ⊢
      exact h.unique k x hx hid
    · exact hcall s y hev hid
  · rcases hadv.grown with rfl | ⟨a, s, g, x, rfl, htaken, hreached, -, -, rfl⟩
    · exact h.entries p hp
    · rw [List.getElem?_map] at hp
      obtain ⟨e, he, heop⟩ := Option.map_eq_some_iff.1 hp
      rcases Pool.getElem?_concat_cases he with hold | ⟨rfl, rfl⟩
      · rw [replyAt_of_isPrefix hpre (List.getElem?_eq_some_iff.1 hold).1.le]
        refine (h.entries p ?_).mono hops
        rw [List.getElem?_map, hold, ← heop]
        rfl
      · obtain rfl : x.op = op := heop
        rw [replyAt_of_isPrefix hpre le_rfl]
        have hn := hl s (by simp only [Waiters.lookup, htaken, Option.map_some])
        rw [hL.state_eq, hreached, List.take_of_length_le (by simp)] at hn
        exact h.genuine_of_taken hL hn
  · rcases hadv.handled.each k x' hk with ⟨x, hx, hcont⟩ | ⟨s, y, -, -, rfl⟩
    · have hop₀ : x.op = op := hcont.op.symm.trans hop
      rcases hcont.answered reply hst with hold | hreason
      · refine (h.answers k x reply hx hop₀ hold).imp_right ?_
        rintro ⟨r, hr, hg⟩
        exact ⟨r, hr, hg.mono hops⟩
      · cases hreason with
        | looked hev hseen =>
            subst hev
            rw [hop₀] at hseen ⊢
            have hn := hl x.server (by simp only [Waiters.lookup, hx, Option.map_some, hop₀])
            rw [hL.state_eq] at hn hseen
            exact Or.inr ⟨_, rfl, (h.genuine_of_seen hL hn hseen).mono hops⟩
        | failed hok hkey => exact Or.inl ⟨hok, hkey⟩
        | @own p hp =>
            rw [hop₀] at hp ⊢
            refine Or.inr ⟨_, rfl, (h.entries p ?_).mono hops⟩
            rw [List.getElem?_map, hp]
            rfl
    · exact absurd hst (by simp)

/-- The same for a step of the servers with their front. -/
theorem Honest.moved {v v' : Servers n} {ev : Event n} (hk : v.Kept codec as log)
    (h : Honest v.waiters log lo op)
    (hl : ∀ s, v.lookup ev = some (s, op) → (v.state s).NotPassed op)
    (hcall : ∀ s x, v.happening ev = some (.call s x) → x.id = op.id → x = op)
    (hm : v.Moved as log ev v' as' log') : Honest v'.waiters log' lo op := by
  cases hm with
  | quiet _ _ hlog hv =>
      rw [hlog, hv]
      exact h
  | advance hap hev hadv =>
      refine honest_step hk.ledger h (fun s hs => hl s ?_) (fun s x hx => hcall s x ?_) hadv
      · rw [Servers.lookup_of_happening hev]
        exact hs
      · rw [hev, hx]

end Honest

end KV

end AiFS
