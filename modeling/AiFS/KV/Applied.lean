import AiFS.KV.Agreement

set_option autoImplicit false

/-! # What has been applied, and for whom

An operation counts as applied when the first applier has taken it. The log of the applied
operations is a prefix of the committed ones, and it is as long as the furthest server has ever got:
no snapshot, wherever it is kept or under way, is of more operations than that (`Within`), because
somebody's applier has made it.

Every committed entry stems from one call of `Start`, and the caller keeps the place that this call
returned. So each operation of the log has an owner, the caller whose place has the index and the
term of the entry (`Logged`). A caller that reads its own term from a leader whose service has got
past its index is the owner of that operation (`Booked.own`), and the operations stand in the log in
the order in which their owners called `Start`. -/

namespace AiFS

namespace KV

open TermLog

variable {n : ℕ} {codec : Codec} {as : List (Action n Op)} {a : Action n Op} {r r' : Replicas n}
  {p : Hist n Op} {L L' : List (LogEntry Op)} {ops ops' : List Op} {s : Fin n}

/-! ## Commands that are taken -/

/-- What the applier of `s` does with the command `op` of index `i`, which is the next one for it,
    or the last one once more. -/
structure Taking (ops : List Op) (r r' : Replicas n) (s : Fin n) (i : ℕ) (op : Op) : Prop where
  pos : 0 < i
  operation : ops[i - 1]? = some op
  le : (r.replica s).reached ≤ i
  next : i ≤ (r.replica s).reached + 1
  committed : i ≤ (r.raft.rf s).commitIndex
  reached : (r'.replica s).reached = i
  state : (r'.replica s).kv.state = (r.replica s).kv.state.apply op

theorem Agreed.taking (h : Agreed codec as r p L ops) (ho : Regular codec r a) {i : ℕ} {op : Op}
    (ht : r.taken a = some (s, i, op)) (hstep : r.step codec a = some r') :
    Taking ops r r' s i op := by
  obtain ⟨k, rfl, hk⟩ := Replicas.taken_eq_some ht
  obtain ⟨-, q, hq, hrep⟩ := Replicas.step_inv codec hstep
  obtain ⟨msg, rep, hmsg, hhandle, hupd⟩ := Replicas.service_receive codec hq
  obtain rfl := Option.some.inj (hk.symm.trans hmsg)
  have hmem : .command i (some op) ∈ (r.raft.node s).view.outbox := List.mem_of_getElem? hk
  obtain ⟨-, hle, hpos, op', hop, hcmd⟩ := (h.serving s).waiting _ hmem
  obtain rfl := Option.some.inj hcmd
  obtain ⟨hlow, hnext⟩ := (h.serving s).command_turn hmem (ho.inOrder s rfl _ hk)
  have hnew : r'.replica s = rep := by rw [hrep, hupd, Function.update_self]
  refine ⟨hpos, hop, hlow, hnext, hle.trans ((h.sim.server s).safe trivial).applied_le, ?_, ?_⟩
  · rw [hnew]
    exact (h.serving s).reached_command hmem hhandle
  · obtain ⟨kv, hkv, rfl⟩ := Option.map_eq_some_iff.1 hhandle
    obtain rfl := Option.some.inj hkv
    rw [hnew]

/-- A service that goes on running does not fall back. -/
theorem Agreed.reached_le (h : Agreed codec as r p L ops) (ho : Regular codec r a)
    (hstep : r.step codec a = some r') (hup : r.raft.restarts a ≠ some s) :
    (r.replica s).reached ≤ (r'.replica s).reached := by
  obtain ⟨-, q, hq, hrep⟩ := Replicas.step_inv codec hstep
  rw [hrep]
  by_cases ha : ∃ v k, a = .receive v k
  · obtain ⟨v, k, rfl⟩ := ha
    obtain ⟨msg, rep, hmsg, hhandle, hupd⟩ := Replicas.service_receive codec hq
    rw [hupd]
    by_cases hv : s = v
    · subst hv
      rw [Function.update_self]
      have hmem : msg ∈ (r.raft.node s).view.outbox := List.mem_of_getElem? hmsg
      cases msg with
      | command i cmd =>
          rw [(h.serving s).reached_command hmem hhandle]
          exact ((h.serving s).command_turn hmem (ho.inOrder s rfl _ hmsg)).1
      | snapshot i t sn =>
          rw [(h.serving s).reached_snapshot hmem hhandle]
          exact le_max_left _ _
    · rw [Function.update_of_ne hv]
  · have hno : ∀ v k, a ≠ .receive v k := fun v k hk => ha ⟨v, k, hk⟩
    cases hr : r.raft.restarts a with
    | none => rw [Replicas.service_quiet codec hno hr hq]
    | some v =>
        have hv : s ≠ v := fun heq => hup (by rw [hr, heq])
        rw [Replicas.service_restart codec hr hq, Function.update_of_ne hv]

/-! ## Nothing is of more operations than have been applied -/

/-- Neither the state of a server nor a snapshot that it has or is to get is of more than `m`
    operations. -/
structure Confined (m : ℕ) (rep : Replica) (view : ServiceView Op) : Prop where
  reached : rep.reached ≤ m
  included : view.lastIncludedIndex ≤ m
  waiting : ∀ i t sn, .snapshot i t sn ∈ view.outbox → i ≤ m

structure Within (m : ℕ) (r : Replicas n) : Prop where
  server : ∀ s, Confined m (r.replica s) (r.raft.node s).view
  packets : ∀ src dst ep args, .installSnapshot src dst ep args ∈ r.raft.net →
    args.lastIncludedIndex ≤ m

theorem Confined.mono {m m' : ℕ} {rep : Replica} {view : ServiceView Op}
    (h : Confined m rep view) (hm : m ≤ m') : Confined m' rep view where
  reached := h.reached.trans hm
  included := h.included.trans hm
  waiting i t sn hmem := (h.waiting i t sn hmem).trans hm

theorem within_init : Within 0 (Replicas.init codec n) where
  server s :=
    { reached := (Replica.reached_boot codec 0 []).le
      included := le_rfl
      waiting := fun i t sn hmem => absurd hmem (by
        simp [Replicas.init, Cluster.init, Node.boot, Node.view, Raft.make, Raft.readPersist,
          Raft.bootMsg, Persister.makePersister]) }
  packets := by simp [Replicas.init, Cluster.init]

/-- The server that moves. -/
theorem Within.delivery {m : ℕ} (h : Within m r) (hag : Agreed codec as r p L ops) {v : Fin n}
    {nd : Node n Op} (hd : Delivery r.raft a v nd) {q : Replicas n}
    (hq : r.service codec a = some q) : Confined (r.mark m a) (q.replica v) nd.view := by
  have hv := (h.server v).mono (r.le_mark m a)
  cases hd with
  | quiet hno hr hview =>
      rw [Replicas.service_quiet codec hno hr hq, hview]
      exact hv
  | installed hdel hk hlt hview =>
      rw [Replicas.service_quiet codec (by simp [hdel]) (by rw [hdel]; rfl) hq, hview]
      have hle := (h.packets _ _ _ _ (List.mem_of_getElem? hk)).trans (r.le_mark m a)
      refine ⟨hv.reached, hle, fun i t sn hmem => ?_⟩
      rcases List.mem_append.1 hmem with hold | hnew
      · exact hv.waiting i t sn hold
      · obtain ⟨rfl, -⟩ := ApplyMsg.snapshot.inj (List.mem_singleton.1 hnew)
        exact hle
  | compacted hsnap hlt hdata hview =>
      rw [Replicas.service_quiet codec (by simp [hsnap]) (by rw [hsnap]; rfl) hq, hview]
      subst hsnap
      rw [Replicas.service] at hq
      split at hq
      · next hcall =>
          -- the service compacts up to what it has handled
          refine ⟨hv.reached, ?_, hv.waiting⟩
          rw [hcall.1]
          exact (le_max_left _ _).trans hv.reached
      · exact absurd hq (by simp)
  | applied happ hidle hlt he hview =>
      rw [Replicas.service_quiet codec (by simp [happ]) (by rw [happ]; rfl) hq, hview]
      refine ⟨hv.reached, hv.included, fun i t sn hmem => ?_⟩
      exact hv.waiting i t sn ((List.mem_append.1 hmem).resolve_right (by simp))
  | @received k hrec hview =>
      subst hrec
      obtain ⟨msg, rep, hmsg, hhandle, hupd⟩ := Replicas.service_receive codec hq
      rw [hupd, Function.update_self, hview]
      have hmem : msg ∈ (r.raft.node v).view.outbox := List.mem_of_getElem? hmsg
      refine ⟨?_, hv.included, fun i t sn hin => hv.waiting i t sn (List.mem_of_mem_eraseIdx hin)⟩
      cases msg with
      | command i cmd =>
          obtain ⟨-, -, -, op, -, rfl⟩ := (hag.serving v).waiting _ hmem
          have htaken : r.taken (.receive v k) = some (v, i, op) := by
            simp only [Replicas.taken, hmsg]
          rw [(hag.serving v).reached_command hmem hhandle, Replicas.mark_of_taken htaken]
          exact le_max_right _ _
      | snapshot i t sn =>
          rw [(hag.serving v).reached_snapshot hmem hhandle]
          exact max_le hv.reached (hv.waiting i t sn hmem)
  | restarted hr hview =>
      rw [Replicas.service_restart codec hr hq, Function.update_self, hview]
      refine ⟨(Replica.reached_boot codec _ _).trans_le hv.included, hv.included,
        fun i t sn hmem => ?_⟩
      simp only [bootMsgs] at hmem
      split at hmem
      · obtain ⟨rfl, -⟩ := ApplyMsg.snapshot.inj (List.mem_singleton.1 hmem)
        exact hv.included
      · exact absurd hmem (by simp)

/-- **Step lemma.** -/
theorem Within.step {m : ℕ} (h : Within m r) (hag : Agreed codec as r p L ops)
    (hstep : r.step codec a = some r') : Within (r.mark m a) r' := by
  obtain ⟨hraft, q, hq, hrep⟩ := Replicas.step_inv codec hstep
  refine ⟨fun s => ?_, fun src dst ep args hpkt => ?_⟩
  · rw [hrep]
    rcases step_move hraft with ⟨⟨k, rfl⟩, hsame⟩ | ⟨v, nd, hm, hnode⟩
    · rw [Replicas.service_quiet codec (by simp) rfl hq, hsame]
      exact (h.server s).mono (r.le_mark m _)
    · by_cases hv : s = v
      · subst hv
        have hserver := (hag.sim.server s).raft
        rw [hnode, Function.update_self]
        exact h.delivery hag (hm.delivery fun _ => ⟨hserver.mirrored, hserver.me⟩) hq
      · obtain ⟨rep, hframe⟩ := Replicas.service_frame codec hm hq
        rw [hnode, hframe, Function.update_of_ne hv, Function.update_of_ne hv]
        exact (h.server s).mono (r.le_mark m a)
  · refine le_trans ?_ (r.le_mark m a)
    rcases step_net hraft hpkt with hold | hsent | ⟨k, req, _, _, hans⟩
    · exact h.packets _ _ _ _ hold
    · obtain ⟨p', hsim⟩ := sim_reachable hag.run
      obtain ⟨hindex, -⟩ := Prod.mk.inj (sends_installSnapshot hsim hsent)
      rw [hindex]
      exact (h.server src).included
    · cases hans

/-! ## Places -/

/-- What a caller of `Start` keeps: its operation and the place that was returned, `0` before. -/
structure Place where
  op : Op
  index : ℕ
  term : ℕ
deriving DecidableEq, Repr

/-- The places that callers keep are those that `Start` has returned, each to one of them. -/
structure Placed (as : List (Action n Op)) (places : List Place) : Prop where
  started : ∀ (h : ℕ) (x : Place), places[h]? = some x → 0 < x.index →
    ∃ k, Proposal as k (some x.op) x.index x.term
  owner : ∀ k op i t, Proposal as k (some op) i t → ∃ h : ℕ, places[h]? = some ⟨op, i, t⟩
  distinct : ∀ (h h' : ℕ) (x x' : Place), places[h]? = some x → places[h']? = some x' →
    0 < x.index → x.index = x'.index → x.term = x'.term → h = h'

/-- The places after a call of `Start` by caller `g`. -/
def Place.given (places : List Place) (g : ℕ) (op : Op) : Option (ℕ × ℕ) → List Place
  | none => places
  | some (i, t) => places.set g ⟨op, i, t⟩

/-- The log of what has been applied: the caller and the operation of each place of the committed
    log, in the order of the calls. -/
structure Logged (as : List (Action n Op)) (places : List Place) (log : List (ℕ × Op))
    (L : List (LogEntry Op)) (ops : List Op) : Prop where
  applied : log.map Prod.snd <+: ops
  tagged : ∀ (j h : ℕ) (op : Op), log[j]? = some (h, op) →
    ∃ e, L[j]? = some e ∧ places[h]? = some ⟨op, j + 1, e.term⟩
  order : ∀ (j j' : ℕ) (x x' : ℕ × Op), j < j' → log[j]? = some x → log[j']? = some x' →
    ∃ k k' t t', k < k' ∧ Proposal as k (some x.2) (j + 1) t ∧
      Proposal as k' (some x'.2) (j' + 1) t'

variable {places places' : List Place} {log : List (ℕ × Op)}

theorem Placed.keep {c : Cluster n Op} (h : Placed as places) (hrun : Cluster.exec as = some c)
    (hno : ∀ s op i t, a = .start s (some op) → ((c.rf s).start (some op)).2 ≠ some (i, t)) :
    Placed (as ++ [a]) places where
  started g x hx hpos := by
    obtain ⟨k, hk⟩ := h.started g x hx hpos
    exact ⟨k, hk.append [a]⟩
  owner k op i t hk := by
    rcases hk.of_concat hrun with hold | ⟨-, s, ha, hplace⟩
    · exact h.owner k op i t hold
    · exact absurd hplace (hno s op i t ha)
  distinct := h.distinct

/-- A caller of `Start` gets a place that nobody has. -/
theorem Placed.start {c : Cluster n Op} (h : Placed as places) (hrun : Cluster.exec as = some c)
    {g : ℕ} {x : Place} (hg : places[g]? = some x) (hzero : x.index = 0) {i t : ℕ}
    (hplace : ((c.rf s).start (some x.op)).2 = some (i, t)) :
    Placed (as ++ [.start s (some x.op)]) (places.set g ⟨x.op, i, t⟩) := by
  have hnew : Proposal (as ++ [.start s (some x.op)]) as.length (some x.op) i t :=
    ⟨s, c, by simp, by simpa using hrun, hplace⟩
  have hget := Pool.getElem?_set_of_some hg ⟨x.op, i, t⟩
  -- whoever has a place already has another one
  have hother : ∀ (g' : ℕ) (x' : Place), places[g']? = some x' → 0 < x'.index →
      ¬ (x'.index = i ∧ x'.term = t) := by
    rintro g' x' hx' hpos ⟨rfl, rfl⟩
    obtain ⟨k, hk⟩ := h.started g' x' hx' hpos
    have hlast := (hk.append [.start s (some x.op)]).unique hnew
    obtain ⟨_, _, hin, _⟩ := hk
    have hlt := (List.getElem?_eq_some_iff.1 hin).1
    omega
  refine ⟨fun g' y hy hpos => ?_, fun k op j u hk => ?_, fun g₁ g₂ y y' hy hy' hpos hi ht => ?_⟩
  · rw [hget] at hy
    split at hy
    · obtain rfl := Option.some.inj hy
      exact ⟨_, hnew⟩
    · obtain ⟨k, hk⟩ := h.started g' y hy hpos
      exact ⟨k, hk.append _⟩
  · rcases hk.of_concat hrun with hold | ⟨-, s', ha, hplace'⟩
    · obtain ⟨g', hg'⟩ := h.owner k op j u hold
      refine ⟨g', ?_⟩
      rw [hget, if_neg]
      · exact hg'
      · rintro rfl
        obtain rfl := Option.some.inj (hg.symm.trans hg')
        obtain ⟨s₀, d, _, hd, hj⟩ := hold
        obtain ⟨q, hsim⟩ := sim_reachable hd
        have hpos := (Raft.start_returns (hsim.server s₀).raft.wf hj).2.2
        exact absurd hzero (by simp only; omega)
    · obtain ⟨rfl, hop⟩ := Action.start.inj ha
      obtain rfl := Option.some.inj hop
      obtain ⟨rfl, rfl⟩ := Prod.mk.inj (Option.some.inj (hplace.symm.trans hplace'))
      exact ⟨g, by rw [hget, if_pos rfl]⟩
  · rw [hget] at hy hy'
    split at hy
    · next heq =>
        obtain rfl := Option.some.inj hy
        split at hy'
        · next heq' => exact heq.trans heq'.symm
        · exact absurd ⟨hi.symm, ht.symm⟩ (hother g₂ y' hy' (hi ▸ hpos))
    · split at hy'
      · obtain rfl := Option.some.inj hy'
        exact absurd ⟨hi, ht⟩ (hother g₁ y hy hpos)
      · exact h.distinct g₁ g₂ y y' hy hy' hpos hi ht

theorem Placed.call (h : Placed as places) (op : Op) : Placed as (places ++ [⟨op, 0, 0⟩]) where
  started g x hx hpos := by
    rcases Pool.getElem?_concat_cases hx with hold | ⟨-, rfl⟩
    · exact h.started g x hold hpos
    · exact absurd hpos (lt_irrefl 0)
  owner k op' i t hk := by
    obtain ⟨g, hg⟩ := h.owner k op' i t hk
    exact ⟨g, (List.getElem?_append_left (List.getElem?_eq_some_iff.1 hg).1).trans hg⟩
  distinct g g' x x' hx hx' hpos hi ht := by
    rcases Pool.getElem?_concat_cases hx with hold | ⟨-, rfl⟩
    · rcases Pool.getElem?_concat_cases hx' with hold' | ⟨-, rfl⟩
      · exact h.distinct g g' x x' hold hold' hpos hi ht
      · exact absurd (hi ▸ hpos) (lt_irrefl 0)
    · exact absurd hpos (lt_irrefl 0)

/-! ## The log of what has been applied -/

theorem Logged.mono (h : Logged as places log L ops) (hL : L <+: L') (hops : ops <+: ops')
    (bs : List (Action n Op))
    (hkeep : ∀ (g : ℕ) (x : Place), places[g]? = some x → 0 < x.index → places'[g]? = some x) :
    Logged (as ++ bs) places' log L' ops' where
  applied := h.applied.trans hops
  tagged j g op hj := by
    obtain ⟨e, he, hplace⟩ := h.tagged j g op hj
    exact ⟨e, getElem?_of_isPrefix hL he, hkeep g _ hplace (Nat.succ_pos j)⟩
  order j j' x x' hlt hx hx' := by
    obtain ⟨k, k', t, t', hk, hp, hp'⟩ := h.order j j' x x' hlt hx hx'
    exact ⟨k, k', t, t', hk, hp.append bs, hp'.append bs⟩

/-- An operation of the log is the command of its entry. -/
theorem Logged.entry (h : Logged as places log L ops) {c : Cluster n Op}
    (hL : Holds p c L ops) {j : ℕ} {x : ℕ × Op} (hx : log[j]? = some x) :
    ∃ e, L[j]? = some e ∧ e.command = some x.2 := by
  refine hL.exists_entry (getElem?_of_isPrefix h.applied ?_)
  rw [List.getElem?_map, hx]
  rfl

/-- The next operation enters the log, under the name of whoever has its place. -/
theorem Logged.concat (h : Logged as places log L ops) (hag : Agreed codec as r p L ops)
    (hpl : Placed as places) {op : Op} (hop : ops[log.length]? = some op)
    (hle : log.length + 1 ≤ (r.raft.rf s).commitIndex) :
    ∃ g : ℕ, (∃ t, places[g]? = some ⟨op, log.length + 1, t⟩) ∧
      Logged as places (log ++ [(g, op)]) L ops := by
  obtain ⟨e, he, hcommand⟩ := hag.holds.exists_entry hop
  obtain ⟨k, hk⟩ := hag.proposed _ _ he
  rw [hcommand] at hk
  obtain ⟨g, hg⟩ := hpl.owner _ _ _ _ hk
  have hfull : ∀ {j e}, j ≤ log.length → L[j]? = some e →
      (r.raft.rf s).fullLog[j + 1 - 1]? = some e := by
    intro j e hj hL
    rw [Nat.add_sub_cancel, hag.entry (by omega), hL]
  refine ⟨g, ⟨e.term, hg⟩, ?_, fun j g' op' hj => ?_, fun j j' x x' hlt hx hx' => ?_⟩
  · obtain ⟨rest, hrest⟩ := h.applied
    refine ⟨rest.tail, ?_⟩
    have hhead : rest[0]? = some op := by
      rw [← hrest, List.getElem?_append_right (by simp)] at hop
      simpa using hop
    obtain ⟨rest', rfl⟩ : ∃ rest', rest = op :: rest' := by
      cases rest with
      | nil => exact absurd hhead (by simp)
      | cons y ys => exact ⟨ys, by rw [Option.some.inj hhead]⟩
    simpa using hrest
  · rcases Pool.getElem?_concat_cases hj with hold | ⟨rfl, hnew⟩
    · exact h.tagged j g' op' hold
    · obtain ⟨rfl, rfl⟩ := Prod.mk.inj hnew
      exact ⟨e, he, hg⟩
  · rcases Pool.getElem?_concat_cases hx' with hold' | ⟨rfl, rfl⟩
    · have hlt' := (List.getElem?_eq_some_iff.1 hold').1
      rw [List.getElem?_append_left (hlt.trans hlt')] at hx
      exact h.order j j' x x' hlt hx hold'
    · -- the entries of both places are in the log of the server that takes the command
      rw [List.getElem?_append_left hlt] at hx
      obtain ⟨e', he', hcommand'⟩ := h.entry hag.holds hx
      obtain ⟨k', hk'⟩ := hag.proposed _ _ he'
      rw [hcommand'] at hk'
      exact ⟨k', k, e'.term, e.term, hk'.lt_of_lt hk hag.run (hfull hlt.le he') rfl
        (hfull le_rfl he) rfl (by omega), hk', hk⟩

structure Booked (codec : Codec) (as : List (Action n Op)) (r : Replicas n) (places : List Place)
    (log : List (ℕ × Op)) : Prop where
  book : ∃ p L ops, Agreed codec as r p L ops ∧ Logged as places log L ops
  within : Within log.length r
  placed : Placed as places

namespace Booked

theorem run (h : Booked codec as r places log) : Cluster.exec as = some r.raft := by
  obtain ⟨p, L, ops, hag, -⟩ := h.book
  exact hag.run

/-- The state of a server is the result of the operations of the log up to where it has got. -/
theorem state_eq (h : Booked codec as r places log) (s : Fin n) :
    (r.replica s).kv.state =
      State.replay ((log.map Prod.snd).take (r.replica s).reached) := by
  obtain ⟨p, L, ops, hag, hlog⟩ := h.book
  obtain ⟨rest, rfl⟩ := hlog.applied
  have hle := (h.within.server s).reached
  rw [(hag.serving s).state, List.take_append_of_le_length (by simpa using hle)]

/-- The owner of a place that is in the log has that operation. -/
theorem tagged (h : Booked codec as r places log) {j g : ℕ} {op : Op}
    (hj : log[j]? = some (g, op)) : ∃ t, places[g]? = some ⟨op, j + 1, t⟩ := by
  obtain ⟨p, L, ops, -, hlog⟩ := h.book
  obtain ⟨e, -, hg⟩ := hlog.tagged j g op hj
  exact ⟨e.term, hg⟩

/-- The servers that have got past an operation of the log have the entry that its owner's call of
    `Start` made. -/
theorem entry_at (h : Booked codec as r places log) {j g : ℕ} {op : Op} {x : Place}
    (hj : log[j]? = some (g, op)) (hg : places[g]? = some x) (hs : j < (r.replica s).reached) :
    (r.raft.rf s).fullLog[j]? = some ⟨x.term, some op⟩ := by
  obtain ⟨p, L, ops, hag, hlog⟩ := h.book
  obtain ⟨e, he, hplace⟩ := hlog.tagged j g op hj
  obtain rfl := Option.some.inj (hg.symm.trans hplace)
  obtain ⟨e', he', hcommand⟩ := hlog.entry hag.holds hj
  obtain rfl := Option.some.inj (he.symm.trans he')
  have hcommit := (hag.serving s).reached_le.trans ((hag.sim.server s).safe trivial).applied_le
  rw [hag.entry (hs.trans_le hcommit), he, ← hcommand]

/-- **Own entries.** A caller whose server leads the term of its place, and has got past its index,
    is the owner of the operation there. -/
theorem own (h : Booked codec as r places log) {g : ℕ} {x : Place} (hg : places[g]? = some x)
    (hpos : 0 < x.index) (hle : x.index ≤ (r.replica s).reached)
    (hget : (r.raft.rf s).getState = (x.term, true)) :
    log[x.index - 1]? = some (g, x.op) := by
  obtain ⟨p, L, ops, hag, hlog⟩ := h.book
  obtain ⟨hlead, hterm⟩ := Raft.getState_eq_true hget
  obtain ⟨k, hk⟩ := h.placed.started g x hg hpos
  obtain ⟨-, hat⟩ := hk.at_leader hag.run hlead hterm
  have hcommit : x.index ≤ (r.raft.rf s).commitIndex :=
    (hle.trans (hag.serving s).reached_le).trans ((hag.sim.server s).safe trivial).applied_le
  have hbound := hle.trans (h.within.server s).reached
  have hL : L[x.index - 1]? = some ⟨x.term, some x.op⟩ := by
    rw [← hag.entry (s := s) (by omega)]
    exact hat
  obtain ⟨y, hy⟩ : ∃ y, log[x.index - 1]? = some y :=
    ⟨_, List.getElem?_eq_getElem (by omega)⟩
  obtain ⟨g', op⟩ := y
  obtain ⟨e, he, hg'⟩ := hlog.tagged _ _ _ hy
  obtain rfl := Option.some.inj (hL.symm.trans he)
  -- the entry has the term of the caller's place, so it is the caller's
  obtain rfl := h.placed.distinct g g' x _ hg hg' hpos (by simp only; omega) rfl
  rw [hy, show x.op = op from congrArg Place.op (Option.some.inj (hg.symm.trans hg'))]

/-- What a step makes of the log: nothing, or an applier that has got as far as any takes the next
    command. -/
def Grown (r : Replicas n) (a : Action n Op) (places : List Place) (log log' : List (ℕ × Op)) :
    Prop :=
  log' = log ∨ ∃ s g op t, r.taken a = some (s, log.length + 1, op) ∧
    (r.replica s).reached = log.length ∧ places[g]? = some ⟨op, log.length + 1, t⟩ ∧
    log' = log ++ [(g, op)]

/-- **Step lemma**, for everything but a call of `Start`. -/
theorem step (h : Booked codec as r places log) (ho : Regular codec r a)
    (hno : ∀ s command, a ≠ .start s command) (hstep : r.step codec a = some r') :
    ∃ log', Grown r a places log log' ∧ log'.length = r.mark log.length a ∧
      Booked codec (as ++ [a]) r' places log' := by
  obtain ⟨p, L, ops, hag, hlog⟩ := h.book
  obtain ⟨p', L', ops', hL, hops, hag'⟩ := hag.step ho hstep
  have hplaced : Placed (as ++ [a]) places :=
    h.placed.keep hag.run fun s op i t ha => absurd ha (hno s _)
  have hwithin := h.within.step hag hstep
  have hstay : r.mark log.length a = log.length →
      ∃ log', Grown r a places log log' ∧ log'.length = r.mark log.length a ∧
        Booked codec (as ++ [a]) r' places log' := by
    intro hmark
    rw [hmark] at hwithin
    exact ⟨log, Or.inl rfl, hmark.symm,
      ⟨p', L', ops', hag', hlog.mono hL hops [a] fun _ _ hx _ => hx⟩, hwithin, hplaced⟩
  cases htaken : r.taken a with
  | none => exact hstay (by simp only [Replicas.mark, htaken])
  | some x =>
      obtain ⟨s, i, op⟩ := x
      have ht := hag.taking ho htaken hstep
      have hreached := (h.within.server s).reached
      have hmark : r.mark log.length a = max log.length i := Replicas.mark_of_taken htaken
      rcases Nat.lt_or_ge log.length i with hlt | hge
      · obtain rfl : i = log.length + 1 := by have := ht.next; omega
        have hbefore : (r.replica s).reached = log.length := by have := ht.next; omega
        obtain ⟨g, ⟨t, hg⟩, hnew⟩ := hlog.concat hag h.placed ht.operation ht.committed
        rw [max_eq_right hlt.le] at hmark
        refine ⟨log ++ [(g, op)], Or.inr ⟨s, g, op, t, htaken, hbefore, hg, rfl⟩, ?_,
          ⟨p', L', ops', hag', hnew.mono hL hops [a] fun _ _ hx _ => hx⟩, ?_, hplaced⟩
        · rw [hmark, List.length_append, List.length_singleton]
        · rw [List.length_append, List.length_singleton, ← hmark]
          exact hwithin
      · exact hstay (hmark.trans (max_eq_left hge))

theorem Grown.isPrefix {log' : List (ℕ × Op)} (h : Grown r a places log log') : log <+: log' := by
  rcases h with rfl | ⟨_, _, _, _, _, _, _, rfl⟩
  · exact List.prefix_rfl
  · exact List.prefix_append _ _

/-- A command that an applier takes is in the log then. -/
theorem entry_of_taken {log' : List (ℕ × Op)} (h : Booked codec as r places log)
    (ho : Regular codec r a) (hstep : r.step codec a = some r') {i : ℕ} {op : Op}
    (ht : r.taken a = some (s, i, op)) (hgrown : Grown r a places log log')
    (hlen : log'.length = r.mark log.length a) : ∃ g, log'[i - 1]? = some (g, op) := by
  obtain ⟨p, L, ops, hag, hlog⟩ := h.book
  have htaking := hag.taking ho ht hstep
  rw [Replicas.mark_of_taken ht] at hlen
  rcases hgrown with rfl | ⟨s', g, op', t, ht', -, -, rfl⟩
  · have hlt : i - 1 < log'.length := by
      have := htaking.pos
      omega
    have hget := List.getElem?_eq_getElem hlt
    have hop : ops[i - 1]? = some log'[i - 1].2 :=
      getElem?_of_isPrefix hlog.applied (by rw [List.getElem?_map, hget]; rfl)
    exact ⟨log'[i - 1].1, by rw [hget, Option.some.inj (htaking.operation.symm.trans hop)]⟩
  · obtain ⟨-, rfl, rfl⟩ : _ ∧ _ ∧ _ := by simpa using ht.symm.trans ht'
    exact ⟨g, by simp⟩

/-- **Step lemma** for a call of `Start`, with what it does to the places. -/
theorem start (h : Booked codec as r places log) {g : ℕ} {x : Place} (hg : places[g]? = some x)
    (hzero : x.index = 0) (hstep : r.step codec (.start s (some x.op)) = some r') :
    Booked codec (as ++ [.start s (some x.op)]) r'
      (Place.given places g x.op ((r.raft.rf s).start (some x.op)).2) log := by
  obtain ⟨p, L, ops, hag, hlog⟩ := h.book
  have hregular : Regular codec r (.start s (some x.op)) :=
    { leaderSends := by simp [LeaderSends, Cluster.running]
      freshMatch := by simp [FreshMatch, Cluster.running]
      inOrder := fun _ => trivial
      decoded := fun _ _ _ hno => absurd hno (by simp)
      operations := by
        rintro s' command ⟨⟩
        rfl }
  obtain ⟨p', L', ops', hL, hops, hag'⟩ := hag.step hregular hstep
  have hwithin : Within log.length r' := h.within.step hag hstep
  cases hplace : ((r.raft.rf s).start (some x.op)).2 with
  | none =>
      refine ⟨⟨p', L', ops', hag', hlog.mono hL hops _ fun _ _ hx _ => hx⟩, hwithin,
        h.placed.keep hag.run fun s' op i t ha => ?_⟩
      obtain ⟨rfl, hop⟩ := Action.start.inj ha
      rw [← hop, hplace]
      simp
  | some place =>
      obtain ⟨i, t⟩ := place
      refine ⟨⟨p', L', ops', hag', hlog.mono hL hops _ fun g' y hy hpos => ?_⟩, hwithin,
        h.placed.start hag.run hg hzero hplace⟩
      rw [Place.given, Pool.getElem?_set_of_some hg, if_neg]
      · exact hy
      · rintro rfl
        obtain rfl := Option.some.inj (hg.symm.trans hy)
        omega

theorem call (h : Booked codec as r places log) (op : Op) :
    Booked codec as r (places ++ [⟨op, 0, 0⟩]) log := by
  obtain ⟨p, L, ops, hag, hlog⟩ := h.book
  refine ⟨⟨p, L, ops, hag, ?_⟩, h.within, h.placed.call op⟩
  have hmono : Logged (as ++ []) (places ++ [⟨op, 0, 0⟩]) log L ops :=
    hlog.mono List.prefix_rfl List.prefix_rfl [] fun g x hx _ =>
      (List.getElem?_append_left (List.getElem?_eq_some_iff.1 hx).1).trans hx
  rwa [List.append_nil] at hmono

theorem init : Booked codec [] (Replicas.init codec n) [] [] where
  book := ⟨_, [], [], agreed_init, List.prefix_rfl, by simp, by simp⟩
  within := within_init
  placed := ⟨by simp, by simp [Proposal], by simp⟩

end Booked

end KV

end AiFS
