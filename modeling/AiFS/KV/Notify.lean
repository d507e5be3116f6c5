import AiFS.KV.Waiters
import AiFS.Lib.Pool
import AiFS.Raft.Representation

set_option autoImplicit false

/-! # The applier never waits for a handler

`notifyChan <- reply` runs under `kv.mu`, into a channel with one slot. If the slot were taken the
server would stop for good. It never is: a channel is filled by the command of its index or by a
snapshot, and a snapshot takes it out of the map. So a full channel that is still registered has had
its command; and no index comes twice, whatever `InstallSnapshot` does to `lastApplied` in between,
because `lastApplied` never decreases while an object lives.

`inPlay` are the indices of the commands that are on their way to a handler: blocked on `applyCh`,
or handled and not yet notified of. `Orderly` says that they are pairwise different, not above
`lastApplied`, and none of them has a full channel. -/

namespace AiFS

namespace KV

variable {n : ℕ} {codec : Codec}

/-! ## Commands on their way -/

def commandIndex : ApplyMsg Op → Option ℕ
  | .command idx _ => some idx
  | .snapshot .. => none

def inPlay (outbox : List (ApplyMsg Op)) (pending : Option (ℕ × OpReply)) : List ℕ :=
  outbox.filterMap commandIndex ++ (pending.map Prod.fst).toList

/-- `full` are the indices with a full channel. -/
structure Orderly (view : ServiceView Op) (pending : Option (ℕ × OpReply)) (full : ℕ → Prop) :
    Prop where
  nodup : (inPlay view.outbox pending).Nodup
  le : ∀ i ∈ inPlay view.outbox pending, i ≤ view.lastApplied
  full_le : ∀ i, full i → i ≤ view.lastApplied
  full_notMem : ∀ i, full i → i ∉ inPlay view.outbox pending

namespace Orderly

variable {view view' : ServiceView Op} {pending pending' : Option (ℕ × OpReply)}
  {full full' : ℕ → Prop}

theorem mono (h : Orderly view pending full) (hfull : ∀ i, full' i → full i) :
    Orderly view pending full' where
  nodup := h.nodup
  le := h.le
  full_le i hi := h.full_le i (hfull i hi)
  full_notMem i hi := h.full_notMem i (hfull i hi)

/-- The same commands are on their way, and `lastApplied` has not decreased. -/
theorem of_perm (h : Orderly view pending full)
    (hperm : (inPlay view'.outbox pending').Perm (inPlay view.outbox pending))
    (hle : view.lastApplied ≤ view'.lastApplied) : Orderly view' pending' full where
  nodup := hperm.nodup_iff.2 h.nodup
  le i hi := (h.le i (hperm.mem_iff.1 hi)).trans hle
  full_le i hi := (h.full_le i hi).trans hle
  full_notMem i hi hmem := h.full_notMem i hi (hperm.mem_iff.1 hmem)

/-- `sendApplyMsg` takes the next index, which is above all others. -/
theorem apply (h : Orderly view pending full) (cmd : Option Op)
    (hout : view'.outbox = view.outbox ++ [.command (view.lastApplied + 1) cmd])
    (hla : view'.lastApplied = view.lastApplied + 1) : Orderly view' pending full := by
  have hperm : (inPlay view'.outbox pending).Perm
      ((view.lastApplied + 1) :: inPlay view.outbox pending) := by
    rw [hout, inPlay, inPlay, List.filterMap_append, List.append_assoc]
    exact List.perm_middle
  have hnew : view.lastApplied + 1 ∉ inPlay view.outbox pending := fun hmem => by
    have := h.le _ hmem
    omega
  refine ⟨hperm.nodup_iff.2 (List.nodup_cons.2 ⟨hnew, h.nodup⟩), fun i hi => ?_, fun i hi => ?_,
    fun i hi hmem => ?_⟩
  · rw [hla]
    rcases List.mem_cons.1 (hperm.mem_iff.1 hi) with heq | hold
    · exact heq.le
    · exact (h.le i hold).trans (Nat.le_succ _)
  · rw [hla]
    exact (h.full_le i hi).trans (Nat.le_succ _)
  · rcases List.mem_cons.1 (hperm.mem_iff.1 hmem) with heq | hold
    · have := h.full_le i hi
      omega
    · exact h.full_notMem i hi hold

/-- The applier takes a message off `applyCh`; if it is a command, it is then to be notified of. -/
theorem receive (h : Orderly view none full) {k : ℕ} {msg : ApplyMsg Op}
    (hk : view.outbox[k]? = some msg) (hout : view'.outbox = view.outbox.eraseIdx k)
    (hla : view'.lastApplied = view.lastApplied)
    (hpending : pending'.map Prod.fst = commandIndex msg) : Orderly view' pending' full := by
  refine h.of_perm ?_ hla.ge
  obtain ⟨hlt, rfl⟩ := List.getElem?_eq_some_iff.1 hk
  have hperm := (List.getElem_cons_eraseIdx_perm hlt).filterMap commandIndex
  rw [inPlay, inPlay, hout, hpending]
  refine List.Perm.trans ?_ (hperm.trans (List.Perm.of_eq (List.append_nil _).symm))
  rw [List.filterMap_cons]
  cases commandIndex view.outbox[k] with
  | none => simp
  | some i => exact List.perm_append_singleton _ _

/-- The channel at the index that is notified of is full now, and the index no longer in play. -/
theorem notify {idx : ℕ} {reply : OpReply} (h : Orderly view (some (idx, reply)) full) :
    Orderly view none (fun i => full i ∨ i = idx) := by
  have hplay : inPlay view.outbox (some (idx, reply)) = inPlay view.outbox none ++ [idx] := by
    simp [inPlay]
  have hnodup := h.nodup
  rw [hplay, List.nodup_append] at hnodup
  have hsub : ∀ i ∈ inPlay view.outbox none, i ∈ inPlay view.outbox (some (idx, reply)) := by
    intro i hi
    rw [hplay]
    exact List.mem_append_left _ hi
  have hidx : idx ∈ inPlay view.outbox (some (idx, reply)) := by simp [hplay]
  refine ⟨hnodup.1, fun i hi => h.le i (hsub i hi), ?_, ?_⟩
  · rintro i (hold | rfl)
    · exact h.full_le i hold
    · exact h.le i hidx
  · rintro i (hold | rfl) hmem
    · exact h.full_notMem i hold (hsub i hmem)
    · exact hnodup.2.2 i hmem i (by simp) rfl

/-- **Deliveries.** Whatever Raft does with a server that runs on. -/
theorem delivery {c : Cluster n Op} {a : Action n Op} {v : Fin n} {nd : Node n Op}
    (h : Orderly (c.node v).view pending full) (hd : Delivery c a v nd)
    (ha : ∀ s k, a ≠ .receive s k) (hr : c.restarts a ≠ some v) :
    Orderly nd.view pending full := by
  cases hd with
  | quiet _ _ hview => rwa [hview]
  | installed _ _ _ hview =>
      refine h.of_perm ?_ (by rw [hview]; exact le_max_right _ _)
      rw [hview, inPlay, inPlay, List.filterMap_append]
      exact List.Perm.of_eq (congrArg (· ++ _) (List.append_nil _))
  | compacted _ _ _ hview =>
      refine h.of_perm ?_ (by rw [hview]; exact le_max_right _ _)
      rw [hview]
  | @applied e _ _ _ _ hview => exact h.apply e.command (by rw [hview]; rfl) (by rw [hview]; rfl)
  | received hrec _ => exact absurd hrec (ha _ _)
  | restarted hs _ => exact absurd hs hr

/-- A new object has nothing on its way and no channels. -/
theorem boot {c : Cluster n Op} {a : Action n Op} {v : Fin n} {nd : Node n Op}
    (hd : Delivery c a v nd) (hr : c.restarts a = some v) :
    Orderly nd.view none (fun _ => False) := by
  have hnone : inPlay nd.view.outbox none = [] := by
    cases hd with
    | quiet _ hno _ => exact absurd (hno.symm.trans hr) (by simp)
    | installed hdel _ _ _ => exact absurd hr (by simp [hdel, Cluster.restarts])
    | compacted hsnap _ _ _ => exact absurd hr (by simp [hsnap, Cluster.restarts])
    | applied happ _ _ _ _ => exact absurd hr (by simp [happ, Cluster.restarts])
    | received hrec _ => exact absurd hr (by simp [hrec, Cluster.restarts])
    | restarted _ hview =>
        rw [hview]
        simp only [bootMsgs]
        split
        · rfl
        · rfl
  refine ⟨by rw [hnone]; exact List.nodup_nil, fun i hi => ?_, fun i hi => hi.elim,
    fun i hi => hi.elim⟩
  rw [hnone] at hi
  exact absurd hi (by simp)

end Orderly

/-! ## Channels -/

/-- The channel of the handler may be registered at this index of this server. -/
structure Waiter.Registered (x : Waiter n) (s : Fin n) (index : ℕ) : Prop where
  server : x.server = s
  index : x.index = index
  entered : x.progress ≠ .entered
  started : x.progress ≠ .started

namespace Waiters

variable {w w' : Waiters n} {s : Fin n} {h : ℕ}

/-- A full channel is registered at this index. -/
def Full (w : Waiters n) (s : Fin n) (index : ℕ) : Prop :=
  ∃ h x, w.notifyChans s index = some h ∧ w.handlers[h]? = some x ∧ x.ch ≠ none

def Enrolled (w : Waiters n) : Prop :=
  ∀ s index h, w.notifyChans s index = some h → ∃ x, w.handlers[h]? = some x ∧ x.Registered s index

/-- A stretch that puts nothing into the channel of its handler. -/
theorem full_of_modify {f : Waiter n → Waiter n} {index : ℕ}
    (hf : ∀ x, w.handlers[h]? = some x → (f x).ch ≠ none → x.ch ≠ none)
    (hfull : (w.modify h f).Full s index) : w.Full s index := by
  obtain ⟨j, y, hchan, hy, hne⟩ := hfull
  obtain ⟨x, hx, ⟨rfl, rfl⟩ | ⟨_, rfl⟩⟩ := Pool.getElem?_modify_cases hy
  · exact ⟨j, x, hchan, hx, hf x hx hne⟩
  · exact ⟨j, y, hchan, hx, hne⟩

/-- A stretch that leaves its handler where it is registered. -/
theorem Enrolled.modify {f : Waiter n → Waiter n} (hw : w.Enrolled)
    (hf : ∀ x s index, w.handlers[h]? = some x → x.Registered s index →
      (f x).Registered s index) : (w.modify h f).Enrolled := by
  intro s index j hchan
  obtain ⟨x, hx, hreg⟩ := hw s index j hchan
  by_cases hj : h = j
  · subst hj
    exact ⟨f x, by simp [Waiters.modify, hx], hf x s index hx hreg⟩
  · exact ⟨x, by simp [Waiters.modify, hx, hj], hreg⟩

theorem setChan_some {index i j : ℕ} {v : Fin n} {chan : Option ℕ}
    (hchan : (w.setChan s index chan).notifyChans v i = some j) :
    (v = s ∧ i = index ∧ chan = some j) ∨ w.notifyChans v i = some j := by
  by_cases hv : v = s
  · subst hv
    simp only [setChan, Function.update_self] at hchan
    by_cases hi : i = index
    · subst hi
      rw [Function.update_self] at hchan
      exact Or.inl ⟨rfl, rfl, hchan⟩
    · rw [Function.update_of_ne hi] at hchan
      exact Or.inr hchan
  · simp only [setChan, Function.update_of_ne hv] at hchan
    exact Or.inr hchan

/-- An entry is deleted. -/
theorem full_of_delete {index i : ℕ} {v : Fin n} (hfull : (w.setChan s index none).Full v i) :
    w.Full v i := by
  obtain ⟨j, x, hchan, hx, hne⟩ := hfull
  rcases setChan_some hchan with ⟨_, _, hno⟩ | hold
  · exact absurd hno (by simp)
  · exact ⟨j, x, hold, hx, hne⟩

theorem Enrolled.delete {index : ℕ} (hw : w.Enrolled) : (w.setChan s index none).Enrolled := by
  intro v i j hchan
  rcases setChan_some hchan with ⟨_, _, hno⟩ | hold
  · exact absurd hno (by simp)
  · exact hw v i j hold

/-! ## The invariant -/

structure Inv (w : Waiters n) : Prop where
  sim : ∃ p, Sim False w.replicas.raft p
  enrolled : w.Enrolled
  orderly : ∀ s, Orderly (w.replicas.raft.node s).view (w.notifying s) (w.Full s)

theorem inv_init (codec : Codec) : Inv (init codec n) where
  sim := ⟨_, sim_init False⟩
  enrolled s index h hchan := absurd hchan (by simp [init])
  orderly s := by
    have hnone : ∀ i, ¬ (init codec n).Full s i := by
      rintro i ⟨_, _, hchan, _⟩
      exact absurd hchan (by simp [init])
    refine ⟨List.nodup_nil, fun i hi => ?_, fun i hi => absurd hi (hnone i),
      fun i hi => absurd hi (hnone i)⟩
    exact absurd hi (by simp [inPlay, init, Replicas.init, Cluster.init, Node.boot, Node.view,
      Raft.make, Raft.readPersist, Raft.bootMsg, Persister.makePersister])

/-- A stretch of a handler that fills no channel. -/
theorem Inv.handler (hw : Inv w) (hrep : w'.replicas = w.replicas)
    (hnot : w'.notifying = w.notifying) (henrolled : w'.Enrolled)
    (hfull : ∀ s i, w'.Full s i → w.Full s i) : Inv w' where
  sim := hrep ▸ hw.sim
  enrolled := henrolled
  orderly s := by
    rw [hrep, hnot]
    exact (hw.orderly s).mono (hfull s)

/-- A stretch of a handler that has its channel registered, or none. -/
theorem Inv.modify {f : Waiter n → Waiter n} (hw : Inv w)
    (hreg : ∀ x s index, w.handlers[h]? = some x → x.Registered s index →
      (f x).Registered s index)
    (hch : ∀ x, w.handlers[h]? = some x → (f x).ch ≠ none → x.ch ≠ none) :
    Inv (w.modify h f) :=
  hw.handler rfl rfl (hw.enrolled.modify hreg) (fun _ _ => full_of_modify hch)

theorem Inv.delete (hw : Inv w) (s : Fin n) (index : ℕ) : Inv (w.setChan s index none) :=
  hw.handler rfl rfl hw.enrolled.delete (fun _ _ => full_of_delete)

/-! ## Handlers -/

theorem Inv.call (hw : Inv w) (x : Waiter n) :
    Inv { w with handlers := w.handlers ++ [x] } := by
  refine hw.handler rfl rfl (fun s index h hchan => ?_) ?_
  · obtain ⟨y, hy, hreg⟩ := hw.enrolled s index h hchan
    exact ⟨y, (List.getElem?_append_left (List.getElem?_eq_some_iff.1 hy).1).trans hy, hreg⟩
  · rintro s i ⟨h, y, hchan, hy, hne⟩
    obtain ⟨z, hz, _⟩ := hw.enrolled s i h hchan
    rw [List.getElem?_append_left (List.getElem?_eq_some_iff.1 hz).1] at hy
    exact ⟨h, y, hchan, hy, hne⟩

/-- The fresh channel of a handler is empty and replaces what is there. -/
theorem Inv.register {x : Waiter n} (hw : Inv w) (hx : w.handlers[h]? = some x)
    (hstarted : x.progress = .started) : Inv (w.register h x) := by
  -- the handler has not been registered before
  have hnew : ∀ v i, w.notifyChans v i ≠ some h := by
    intro v i hchan
    obtain ⟨y, hy, hreg⟩ := hw.enrolled v i h hchan
    obtain rfl : x = y := Option.some.inj (hx.symm.trans hy)
    exact hreg.started hstarted
  refine hw.handler rfl rfl (fun v i j hchan => ?_) ?_
  · rcases setChan_some hchan with ⟨rfl, rfl, hj⟩ | hold
    · obtain rfl := Option.some.inj hj
      exact ⟨{ x with ch := none, progress := .selecting },
        by simp [Waiters.register, Waiters.modify, setChan, hx], rfl, rfl, by simp, by simp⟩
    · have hne : h ≠ j := fun heq => hnew v i (heq ▸ hold)
      obtain ⟨y, hy, hreg⟩ := hw.enrolled v i j hold
      exact ⟨y, by simp [Waiters.register, Waiters.modify, setChan, hy, hne], hreg⟩
  · rintro v i ⟨j, y, hchan, hy, hne⟩
    obtain ⟨z, hz, ⟨rfl, rfl⟩ | ⟨hj, rfl⟩⟩ := Pool.getElem?_modify_cases hy
    · exact absurd rfl hne
    · rcases setChan_some hchan with ⟨_, _, heq⟩ | hold
      · exact absurd (Option.some.inj heq).symm hj
      · exact ⟨j, y, hold, hz, hne⟩

/-! ## Steps of the replicas -/

/-- A step of the cluster in which no service takes a message. -/
theorem Inv.raft {r : Replicas n} {a : Action n Op} (hw : Inv w)
    (hstep : w.replicas.raft.step a = some r.raft) (ha : ∀ s k, a ≠ .receive s k)
    (hr : w.replicas.raft.restarts a = none) : Inv { w with replicas := r } := by
  obtain ⟨p, hsim⟩ := hw.sim
  obtain ⟨p', _, hsim'⟩ := sim_step hsim (fun hno => hno.elim) hstep
  refine ⟨⟨p', hsim'⟩, hw.enrolled, fun s => ?_⟩
  rcases step_delivery hsim hstep s with ⟨hsame, _⟩ | hdel
  · show Orderly (r.raft.node s).view _ _
    rw [hsame]
    exact hw.orderly s
  · exact (hw.orderly s).delivery hdel ha (by rw [hr]; simp)

/-- The first stretch of a handler. -/
theorem Inv.enter {x : Waiter n} (hw : Inv w) (hx : w.handlers[h]? = some x)
    (hentered : x.progress = .entered) (hstep : w.enter codec h x = some w') : Inv w' := by
  have hnew : ∀ (f : Waiter n → Waiter n) y s index, w.handlers[h]? = some y →
      y.Registered s index → (f y).Registered s index := by
    intro f y s index hy hreg
    obtain rfl : x = y := Option.some.inj (hx.symm.trans hy)
    exact absurd hentered hreg.entered
  unfold Waiters.enter at hstep
  split at hstep
  · obtain rfl := Option.some.inj hstep
    exact hw.modify (hnew _) (fun y _ hne => hne)
  · obtain ⟨r, hr, rfl⟩ := Option.map_eq_some_iff.1 hstep
    have hraft := hw.raft (Replicas.step_inv codec hr).1 (by simp) rfl
    refine hraft.modify (hnew _) (fun y _ hne => ?_)
    split at hne
    · exact hne
    · exact hne

theorem step_replicas {a : Action n Op} (hstep : w.step codec (.replicas a) = some w') :
    ∃ r w₁, w.replicas.step codec a = some r ∧ w.served a = some w₁ ∧
      w' = { w₁ with replicas := r } := by
  cases a with
  | start s command => exact absurd hstep (by simp [step])
  | _ =>
      simp only [step] at hstep
      split at hstep
      · exact absurd hstep (by simp)
      · next r hr =>
          obtain ⟨w₁, hw₁, rfl⟩ := Option.map_eq_some_iff.1 hstep
          exact ⟨r, w₁, hr, hw₁, rfl⟩

/-- A message that the applier takes. -/
theorem served_receive {k : ℕ} {w₁ : Waiters n} (hserved : w.served (.receive s k) = some w₁) :
    w.notifying s = none ∧
      ((∃ idx cmd, (w.replicas.raft.node s).outbox[k]? = some (.command idx (some cmd)) ∧
          w₁ =
            { w with
              notifying := Function.update w.notifying s
                (some (idx, ((w.replicas.replica s).kv.state.execute cmd).2)) }) ∨
        ∃ idx t sn, (w.replicas.raft.node s).outbox[k]? = some (.snapshot idx t sn) ∧
          (w₁ = w ∨ w₁ = w.bounce s)) := by
  simp only [served] at hserved
  split at hserved
  · exact absurd hserved (by simp)
  · next hidle =>
      refine ⟨hidle, ?_⟩
      split at hserved
      · next idx cmd hk =>
          obtain rfl := Option.some.inj hserved
          exact Or.inl ⟨idx, cmd, hk, rfl⟩
      · next idx t sn hk =>
          refine Or.inr ⟨idx, t, sn, hk, ?_⟩
          obtain rfl := Option.some.inj hserved
          split
          · exact Or.inr rfl
          · exact Or.inl rfl
      · exact absurd hserved (by simp)

/-- Any other step restarts a server, or does not concern the handlers. -/
theorem served_other {a : Action n Op} {w₁ : Waiters n} (ha : ∀ s k, a ≠ .receive s k)
    (hserved : w.served a = some w₁) :
    (w.replicas.raft.restarts a = none ∧ w₁ = w) ∨
      ∃ s, w.replicas.raft.restarts a = some s ∧ w₁ = w.restart s := by
  cases a with
  | receive s k => exact absurd rfl (ha s k)
  | _ =>
      simp only [served] at hserved
      split at hserved
      · next hnone => exact Or.inl ⟨hnone, (Option.some.inj hserved).symm⟩
      · next s hsome => exact Or.inr ⟨s, hsome, (Option.some.inj hserved).symm⟩

/-- A snapshot fills only channels that it takes out of the map. -/
theorem Enrolled.bounce (hw : w.Enrolled) (s : Fin n) :
    (w.bounce s).Enrolled ∧ ∀ v i, (w.bounce s).Full v i → w.Full v i := by
  -- what is still registered was so before, and was not empty
  have hchans : ∀ {v i j}, (w.bounce s).notifyChans v i = some j →
      w.notifyChans v i = some j ∧ ∀ x, w.handlers[j]? = some x → w.vacant s x.index j = false := by
    intro v i j hchan
    have hold : w.notifyChans v i = some j ∧ (v = s → w.vacant s i j = false) := by
      by_cases hv : v = s
      · subst hv
        simp only [Waiters.bounce, Function.update_self] at hchan
        obtain ⟨hold, hfull⟩ := Option.filter_eq_some_iff.1 hchan
        exact ⟨hold, fun _ => by simpa using hfull⟩
      · simp only [Waiters.bounce, Function.update_of_ne hv] at hchan
        exact ⟨hchan, fun heq => absurd heq hv⟩
    refine ⟨hold.1, fun x hx => ?_⟩
    obtain ⟨y, hy, hreg⟩ := hw v i j hold.1
    obtain rfl : x = y := Option.some.inj (hx.symm.trans hy)
    by_cases hv : v = s
    · rw [hreg.index]
      exact hold.2 hv
    · by_contra hvacant
      have hregistered : w.notifyChans s x.index = some j := by
        simp only [vacant, Bool.not_eq_false, Bool.and_eq_true, beq_iff_eq] at hvacant
        exact hvacant.1
      obtain ⟨z, hz, hreg'⟩ := hw s x.index j hregistered
      obtain rfl : x = z := Option.some.inj (hx.symm.trans hz)
      exact hv (hreg.server.symm.trans hreg'.server)
  have hget : ∀ {j x}, w.handlers[j]? = some x → w.vacant s x.index j = false →
      (w.bounce s).handlers[j]? = some x := by
    intro j x hx hvacant
    simp [Waiters.bounce, List.getElem?_mapIdx, hx, hvacant]
  constructor
  · intro v i j hchan
    obtain ⟨hold, hvacant⟩ := hchans hchan
    obtain ⟨x, hx, hreg⟩ := hw v i j hold
    exact ⟨x, hget hx (hvacant x hx), hreg⟩
  · rintro v i ⟨j, y, hchan, hy, hne⟩
    obtain ⟨hold, hvacant⟩ := hchans hchan
    obtain ⟨x, hx, _⟩ := hw v i j hold
    obtain rfl : x = y := Option.some.inj ((hget hx (hvacant x hx)).symm.trans hy)
    exact ⟨j, x, hold, hx, hne⟩

/-- The channels of the other servers survive a restart. -/
theorem Enrolled.restart (hw : w.Enrolled) (s : Fin n) :
    (w.restart s).Enrolled ∧ (∀ v i, (w.restart s).Full v i → v ≠ s ∧ w.Full v i) := by
  have hchans : ∀ {v i j}, (w.restart s).notifyChans v i = some j →
      v ≠ s ∧ w.notifyChans v i = some j := by
    intro v i j hchan
    by_cases hv : v = s
    · subst hv
      exact absurd hchan (by simp [Waiters.restart])
    · simp only [Waiters.restart, Function.update_of_ne hv] at hchan
      exact ⟨hv, hchan⟩
  have hget : ∀ {j : ℕ} {x : Waiter n}, w.handlers[j]? = some x → x.server ≠ s →
      (w.restart s).handlers[j]? = some x := by
    intro j x hx hserver
    simp [Waiters.restart, hx, hserver]
  constructor
  · intro v i j hchan
    obtain ⟨hv, hold⟩ := hchans hchan
    obtain ⟨x, hx, hreg⟩ := hw v i j hold
    exact ⟨x, hget hx (by rw [hreg.server]; exact hv), hreg⟩
  · rintro v i ⟨j, y, hchan, hy, hne⟩
    obtain ⟨hv, hold⟩ := hchans hchan
    obtain ⟨x, hx, hreg⟩ := hw v i j hold
    obtain rfl : x = y :=
      Option.some.inj ((hget hx (by rw [hreg.server]; exact hv)).symm.trans hy)
    exact ⟨hv, j, x, hold, hx, hne⟩

/-- The applier takes a message. -/
theorem Inv.receive {k : ℕ} {r : Replicas n} {w₁ : Waiters n} (hw : Inv w)
    (hstep : w.replicas.raft.step (.receive s k) = some r.raft)
    (hserved : w.served (.receive s k) = some w₁) : Inv { w₁ with replicas := r } := by
  obtain ⟨p, hsim⟩ := hw.sim
  obtain ⟨p', _, hsim'⟩ := sim_step hsim (fun hno => hno.elim) hstep
  obtain ⟨hidle, hcases⟩ := served_receive hserved
  have hnode : r.raft.node = Function.update w.replicas.raft.node s
      { w.replicas.raft.node s with outbox := (w.replicas.raft.node s).outbox.eraseIdx k } := by
    rw [← Option.some.inj hstep]
    rfl
  -- the message leaves `applyCh`, and if it is a command its index is still in play
  have horderly : ∀ (msg : ApplyMsg Op) (pending : Option (ℕ × OpReply)),
      (w.replicas.raft.node s).outbox[k]? = some msg →
      pending.map Prod.fst = commandIndex msg →
      ∀ v, Orderly (r.raft.node v).view (Function.update w.notifying s pending v) (w.Full v) := by
    intro msg pending hk hpending v
    rw [hnode]
    by_cases hv : v = s
    · subst hv
      rw [Function.update_self, Function.update_self]
      have hold := hw.orderly v
      rw [hidle] at hold
      exact hold.receive hk rfl rfl hpending
    · rw [Function.update_of_ne hv, Function.update_of_ne hv]
      exact hw.orderly v
  rcases hcases with ⟨idx, cmd, hk, rfl⟩ | ⟨idx, t, sn, hk, hw₁⟩
  · exact ⟨⟨p', hsim'⟩, hw.enrolled, horderly _ _ hk rfl⟩
  · have hold : ∀ v, Orderly (r.raft.node v).view (w.notifying v) (w.Full v) := by
      intro v
      have hnone := horderly _ none hk rfl v
      rwa [← hidle, Function.update_eq_self] at hnone
    rcases hw₁ with rfl | rfl
    · exact ⟨⟨p', hsim'⟩, hw.enrolled, hold⟩
    · obtain ⟨henrolled, hfull⟩ := hw.enrolled.bounce s
      exact ⟨⟨p', hsim'⟩, henrolled, fun v => (hold v).mono (hfull v)⟩

theorem Inv.restart {a : Action n Op} {r : Replicas n} (hw : Inv w)
    (hstep : w.replicas.raft.step a = some r.raft) (ha : ∀ s k, a ≠ .receive s k)
    (hr : w.replicas.raft.restarts a = some s) : Inv { w.restart s with replicas := r } := by
  obtain ⟨p, hsim⟩ := hw.sim
  obtain ⟨p', _, hsim'⟩ := sim_step hsim (fun hno => hno.elim) hstep
  obtain ⟨henrolled, hfull⟩ := hw.enrolled.restart s
  refine ⟨⟨p', hsim'⟩, henrolled, fun v => ?_⟩
  show Orderly (r.raft.node v).view (Function.update w.notifying s none v) _
  by_cases hv : v = s
  · subst hv
    rw [Function.update_self]
    rcases step_delivery hsim hstep v with ⟨_, hno⟩ | hdel
    · exact absurd hr hno
    · exact (Orderly.boot hdel hr).mono (fun i hi => (hfull v i hi).1 rfl)
  · rw [Function.update_of_ne hv]
    have hno : w.replicas.raft.restarts a ≠ some v := fun heq =>
      hv (Option.some.inj (heq.symm.trans hr))
    refine Orderly.mono ?_ (fun i hi => (hfull v i hi).2)
    rcases step_delivery hsim hstep v with ⟨hsame, _⟩ | hdel
    · rw [hsame]
      exact hw.orderly v
    · exact (hw.orderly v).delivery hdel ha hno

theorem Inv.replicas {a : Action n Op} (hw : Inv w)
    (hstep : w.step codec (.replicas a) = some w') : Inv w' := by
  obtain ⟨r, w₁, hr, hserved, rfl⟩ := step_replicas hstep
  have hraft := (Replicas.step_inv codec hr).1
  by_cases hreceive : ∃ s k, a = .receive s k
  · obtain ⟨s, k, rfl⟩ := hreceive
    exact hw.receive hraft hserved
  · have ha : ∀ s k, a ≠ .receive s k := fun s k heq => hreceive ⟨s, k, heq⟩
    rcases served_other ha hserved with ⟨hnone, rfl⟩ | ⟨s, hsome, rfl⟩
    · exact hw.raft hraft ha hnone
    · exact hw.restart hraft ha hsome

/-! ## Notifying -/

/-- The channel that is notified is empty. -/
theorem Inv.channel_empty {idx : ℕ} {reply : OpReply} (hw : Inv w)
    (hpending : w.notifying s = some (idx, reply)) (hchan : w.notifyChans s idx = some h) :
    ∃ x, w.handlers[h]? = some x ∧ x.Registered s idx ∧ x.ch = none := by
  obtain ⟨x, hx, hreg⟩ := hw.enrolled s idx h hchan
  refine ⟨x, hx, hreg, ?_⟩
  by_contra hne
  refine (hw.orderly s).full_notMem idx ⟨h, x, hchan, hx, hne⟩ ?_
  simp [inPlay, hpending]

theorem Inv.notify (hw : Inv w) (hstep : w.notify s = some w') : Inv w' := by
  unfold Waiters.notify at hstep
  split at hstep
  · exact absurd hstep (by simp)
  · next idx reply hpending =>
      have hdone := hw.orderly s
      rw [hpending] at hdone
      -- `full` may have grown by the index that is notified of
      have hnext : ∀ full : Fin n → ℕ → Prop, (∀ i, full s i → w.Full s i ∨ i = idx) →
          (∀ v, v ≠ s → ∀ i, full v i → w.Full v i) → ∀ v,
          Orderly (w.replicas.raft.node v).view (Function.update w.notifying s none v)
            (full v) := by
        intro full hself hother v
        by_cases hv : v = s
        · subst hv
          rw [Function.update_self]
          exact hdone.notify.mono hself
        · rw [Function.update_of_ne hv]
          exact (hw.orderly v).mono (hother v hv)
      dsimp only at hstep
      split at hstep
      · obtain rfl := Option.some.inj hstep
        exact ⟨hw.sim, hw.enrolled, hnext w.Full (fun _ hi => Or.inl hi) (fun _ _ _ hi => hi)⟩
      · next h hchan =>
          split at hstep
          · obtain rfl := Option.some.inj hstep
            obtain ⟨x, hx, hreg, _⟩ := hw.channel_empty hpending hchan
            -- the channel is registered nowhere else
            have honly : ∀ v i y, w.notifyChans v i = some h → w.handlers[h]? = some y →
                v = s ∧ i = idx := by
              intro v i y hv hy
              obtain ⟨z, hz, hreg'⟩ := hw.enrolled v i h hv
              obtain rfl : x = z := Option.some.inj (hx.symm.trans hz)
              exact ⟨hreg'.server.symm.trans hreg.server, hreg'.index.symm.trans hreg.index⟩
            refine ⟨hw.sim, ?_, hnext _ ?_ ?_⟩
            · have hen : ({ w with notifying := Function.update w.notifying s none } :
                  Waiters n).Enrolled := hw.enrolled
              exact hen.modify (fun y v i _ hy => ⟨hy.server, hy.index, hy.entered, hy.started⟩)
            · rintro i ⟨j, y, hj, hy, hne⟩
              obtain ⟨z, hz, ⟨rfl, rfl⟩ | ⟨_, rfl⟩⟩ := Pool.getElem?_modify_cases hy
              · exact Or.inr (honly s i z hj hz).2
              · exact Or.inl ⟨j, y, hj, hz, hne⟩
            · rintro v hv i ⟨j, y, hj, hy, hne⟩
              obtain ⟨z, hz, ⟨rfl, rfl⟩ | ⟨_, rfl⟩⟩ := Pool.getElem?_modify_cases hy
              · exact absurd (honly v i z hj hz).1 hv
              · exact ⟨j, y, hj, hz, hne⟩
          · exact absurd hstep (by simp)

/-! ## Runs -/

/-- **Step lemma.** -/
theorem Inv.step {ev : Happening n} (hw : Inv w) (hstep : w.step codec ev = some w') : Inv w' := by
  cases ev with
  | replicas a => exact hw.replicas hstep
  | call s op =>
      obtain rfl := Option.some.inj hstep
      exact hw.call _
  | refuse h =>
      simp only [Waiters.step] at hstep
      split at hstep
      · next x hx =>
          split at hstep
          · next hentered =>
              obtain rfl := Option.some.inj hstep
              refine hw.modify (fun y s i hy hreg => ?_) (fun _ _ hne => hne)
              obtain rfl : x = y := Option.some.inj (hx.symm.trans hy)
              exact absurd hentered hreg.entered
          · exact absurd hstep (by simp)
      · exact absurd hstep (by simp)
  | enter h =>
      simp only [Waiters.step] at hstep
      split at hstep
      · next x hx =>
          split at hstep
          · next hentered => exact hw.enter hx hentered hstep
          · exact absurd hstep (by simp)
      · exact absurd hstep (by simp)
  | register h =>
      simp only [Waiters.step] at hstep
      split at hstep
      · next x hx =>
          split at hstep
          · next hstarted =>
              obtain rfl := Option.some.inj hstep
              exact hw.register hx hstarted
          · exact absurd hstep (by simp)
      · exact absurd hstep (by simp)
  | wake h =>
      simp only [Waiters.step] at hstep
      split at hstep
      · obtain rfl := Option.some.inj hstep
        exact hw.modify (fun x s i _ hx => ⟨hx.server, hx.index, by simp, by simp⟩)
          (fun x _ hne => absurd rfl hne)
      · exact absurd hstep (by simp)
  | timeout h =>
      simp only [Waiters.step] at hstep
      split at hstep
      · obtain rfl := Option.some.inj hstep
        exact hw.modify (fun x s i _ hx => ⟨hx.server, hx.index, by simp, by simp⟩)
          (fun x _ hne => hne)
      · exact absurd hstep (by simp)
  | getState h =>
      simp only [Waiters.step] at hstep
      split at hstep
      · obtain rfl := Option.some.inj hstep
        exact hw.modify (fun x s i _ hx => ⟨hx.server, hx.index, by simp, by simp⟩)
          (fun x _ hne => hne)
      · exact absurd hstep (by simp)
  | finish h =>
      simp only [Waiters.step] at hstep
      split at hstep
      · obtain rfl := Option.some.inj hstep
        exact (hw.delete _ _).modify (fun x s i _ hx => ⟨hx.server, hx.index, by simp, by simp⟩)
          (fun x _ hne => hne)
      · exact absurd hstep (by simp)
  | notify s => exact hw.notify hstep

/-- **Run lemma.** -/
theorem inv_exec {evs : List (Happening n)} (hrun : exec codec evs = some w) : Inv w :=
  Machine.invariant_exec (P := fun _ _ => True) (I := Inv)
    (fun _ _ _ hw _ hstep => hw.step hstep) evs _ w (inv_init codec)
    (Machine.along_of_forall (fun _ _ => trivial) evs _) hrun

end Waiters

/-- **The applier never blocks.** Whenever the applier of a server is about to notify, the channel
    at the index of the command is empty if there is one, and it goes on. -/
theorem applier_never_blocks {evs : List (Happening n)} {w : Waiters n}
    (hrun : Waiters.exec codec evs = some w) {s : Fin n} {idx : ℕ} {reply : OpReply}
    (hpending : w.notifying s = some (idx, reply)) :
    (∀ h, w.notifyChans s idx = some h →
      ∃ x, w.handlers[h]? = some x ∧ x.server = s ∧ x.index = idx ∧ x.ch = none) ∧
    ∃ w', w.step codec (.notify s) = some w' := by
  have hinv := Waiters.inv_exec hrun
  refine ⟨fun h hchan => ?_, ?_⟩
  · obtain ⟨x, hx, hreg, hempty⟩ := hinv.channel_empty hpending hchan
    exact ⟨x, hx, hreg.server, hreg.index, hempty⟩
  · simp only [Waiters.step, Waiters.notify, hpending]
    cases hchan : w.notifyChans s idx with
    | none => exact ⟨_, rfl⟩
    | some h =>
        obtain ⟨x, hx, _, hempty⟩ := hinv.channel_empty hpending hchan
        simp only [hx, Option.map_some, hempty]
        exact ⟨_, rfl⟩

/-- A request reaches the leader of `electRun`, waits, and its command is committed and handled. -/
def waitRun : List (Happening 3) :=
  electRun.map .replicas ++
    ([.call 0 ⟨.put, "k", "v", 1, 1⟩, .enter 0, .register 0] : List (Happening 3)) ++
    ([.run 0 2, .run 0 2, .deliver 1, .deliver 1, .apply 0, .receive 0 0] :
      List (Action 3 Op)).map .replicas

theorem applier_never_blocks_waitRun : ∃ w w' : Waiters 3,
    Waiters.exec blankCodec waitRun = some w ∧ w.notifyChans 0 1 = some 0 ∧
    w.step blankCodec (.notify 0) = some w' := by
  have hrun : ∃ (w : Waiters 3) (reply : OpReply), Waiters.exec blankCodec waitRun = some w ∧
      w.notifying 0 = some (1, reply) ∧ w.notifyChans 0 1 = some 0 := ⟨_, _, rfl, rfl, rfl⟩
  obtain ⟨w, reply, hw, hpending, hchan⟩ := hrun
  obtain ⟨w', hnotify⟩ := (applier_never_blocks hw hpending).2
  exact ⟨w, w', hw, hchan, hnotify⟩

end KV

end AiFS
