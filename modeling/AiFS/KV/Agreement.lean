import AiFS.KV.Serving
import AiFS.Raft.Durability
import AiFS.Raft.Safety
import AiFS.Raft.Validity

set_option autoImplicit false

/-! # The replicas agree

Raft and the appliers of all servers together. What `replica_state` takes for granted of one server
is here a consequence of the protocol: there is one sequence of operations, made of what has been
committed, and the state of every server is the result of a prefix of it, in the same run and at any
two moments of it. The operations are those that were passed to `Start`, each at the index that
`Start` returned.

A snapshot travels a long way: the bytes that one server's service has encoded are kept by its
persister, sent by its leader goroutines, kept by the persister of the receiver and decoded by its
applier or at its restart. `Agreed` says of all these places that the bytes are the snapshot of a
prefix. An `InstallSnapshot` with index `0` carries no bytes at all, but nobody takes it. -/

namespace AiFS

namespace KV

open TermLog

variable {n : ℕ} {codec : Codec} {ops ops' : List Op} {as bs : List (Action n Op)}
  {a : Action n Op} {r r' : Replicas n} {p p' : Hist n Op} {L L' : List (LogEntry Op)}

/-! ## Longer sequences -/

theorem Carries.mono {i : ℕ} {data : List UInt8} (hpre : ops <+: ops')
    (h : Carries codec ops i data) : Carries codec ops' i data := by
  obtain ⟨hle, hdec⟩ := h
  refine ⟨hle.trans hpre.length_le, ?_⟩
  obtain ⟨rest, rfl⟩ := hpre
  rw [List.take_append_of_le_length hle]
  exact hdec

theorem Good.mono (hpre : ops <+: ops') {msg : ApplyMsg Op} (h : Good codec ops msg) :
    Good codec ops' msg := by
  cases msg with
  | command i cmd =>
      obtain ⟨hpos, op, hop, hcmd⟩ := h
      exact ⟨hpos, op, getElem?_of_isPrefix hpre hop, hcmd⟩
  | snapshot i t sn => exact Carries.mono hpre h

theorem Serving.mono {rep : Replica} {w : ServiceView Op} (hpre : ops <+: ops')
    (h : Serving codec ops rep w) : Serving codec ops' rep w :=
  { h with
    state := by
      obtain ⟨rest, rfl⟩ := hpre
      rw [List.take_append_of_le_length h.bound]
      exact h.state
    bound := h.bound.trans hpre.length_le
    saved := h.saved.imp_right (Carries.mono hpre)
    waiting := fun msg hmsg =>
      ⟨(h.waiting msg hmsg).1, (h.waiting msg hmsg).2.1, (h.waiting msg hmsg).2.2.mono hpre⟩ }

/-! ## The committed sequence -/

/-- What is taken for granted of the steps of a run: the two rules of Raft that the source does not
    enforce, that no message overtakes another on its way to an applier, that decoding undoes the
    encoding of a snapshot, and that nobody but the service calls `Start`. -/
structure Regular (codec : Codec) (r : Replicas n) (a : Action n Op) : Prop where
  leaderSends : LeaderSends r.raft a
  freshMatch : FreshMatch r.raft a
  inOrder : ∀ s, InOrder s r a
  decoded : ∀ s index data, a = .snapshot s index data →
    codec.decode data = some (r.replica s).kv.state
  operations : ∀ s command, a = .start s command → command.isSome

/-- A committed log that holds the operations, and is as long as any server knows. -/
structure Holds (p : Hist n Op) (c : Cluster n Op) (L : List (LogEntry Op)) (ops : List Op) :
    Prop where
  committed : ∃ T, CommittedBy LogEntry.term p T L
  commands : L.map LogEntry.command = ops.map some
  longest : ∀ s, (c.rf s).commitIndex ≤ L.length

structure Agreed (codec : Codec) (as : List (Action n Op)) (r : Replicas n) (p : Hist n Op)
    (L : List (LogEntry Op)) (ops : List Op) : Prop where
  run : Cluster.exec as = some r.raft
  operations : ∀ s command, .start s command ∈ as → command.isSome
  sim : Sim True r.raft p
  holds : Holds p r.raft L ops
  proposed : ∀ j e, L[j]? = some e → ∃ k, Proposal as k e.command (j + 1) e.term
  serving : ∀ s, Serving codec ops (r.replica s) (r.raft.node s).view
  packets : ∀ src dst ep args, .installSnapshot src dst ep args ∈ r.raft.net →
    0 < args.lastIncludedIndex → Carries codec ops args.lastIncludedIndex args.data.data

theorem Holds.getElem? {c : Cluster n Op} (h : Holds p c L ops) {j : ℕ} {e : LogEntry Op}
    (he : L[j]? = some e) : ∃ op, ops[j]? = some op ∧ e.command = some op := by
  have hcommand : (ops.map some)[j]? = some e.command := by
    rw [← h.commands, List.getElem?_map, he]
    rfl
  rw [List.getElem?_map] at hcommand
  obtain ⟨op, hop, heq⟩ := Option.map_eq_some_iff.1 hcommand
  exact ⟨op, hop, heq.symm⟩

theorem Holds.exists_entry {c : Cluster n Op} (h : Holds p c L ops) {j : ℕ} {op : Op}
    (hop : ops[j]? = some op) : ∃ e, L[j]? = some e ∧ e.command = some op := by
  have hcommand : (L.map LogEntry.command)[j]? = some (some op) := by
    rw [h.commands, List.getElem?_map, hop]
    rfl
  rw [List.getElem?_map] at hcommand
  exact Option.map_eq_some_iff.1 hcommand

/-- What a server has committed is what has been agreed on. -/
theorem Agreed.entry (h : Agreed codec as r p L ops) {s : Fin n} {i : ℕ}
    (hi : i < (r.raft.rf s).commitIndex) : (r.raft.rf s).fullLog[i]? = L[i]? := by
  obtain ⟨T, hT⟩ := h.holds.committed
  obtain ⟨P, hP, hlen, hc⟩ := ((h.sim.server s).safe trivial).committed
  have hle : P.length ≤ L.length := hlen ▸ h.holds.longest s
  have hPL : P <+: L := by
    rcases hc.comparable h.sim.inv (h.sim.kept trivial) hT with hpre | hpre
    · exact hpre
    · rw [hpre.eq_of_length_le hle]
  have hlt : i < P.length := hlen ▸ hi
  rw [List.prefix_iff_getElem?.1 hP i hlt, List.prefix_iff_getElem?.1 hPL i hlt]

/-- `Snapshot` is called with an index that the service was handed. -/
theorem Agreed.disciplined (h : Agreed codec as r p L ops) (ho : Regular codec r a)
    {q : Replicas n} (hq : r.service codec a = some q) : Disciplined r.raft a where
  leaderSends := ho.leaderSends
  freshMatch := ho.freshMatch
  compactsApplied := by
    cases a with
    | snapshot s index data =>
        rintro x ⟨⟩
        simp only [Replicas.service] at hq
        split at hq
        · next hcall =>
            rw [hcall.1]
            exact (le_max_left _ _).trans (h.serving s).reached_le
        · exact absurd hq (by simp)
    | _ =>
        intro x hx
        exact absurd hx (by simp [Action.compacts])

/-- A longer committed log holds a longer sequence. -/
theorem Holds.extend {c c' : Cluster n Op} (h : Holds p c L ops)
    (hpre : L <+: L') (hsome : ∀ e ∈ L', e.command.isSome) {T : ℕ}
    (hT : CommittedBy LogEntry.term p' T L') (hlong : ∀ s, (c'.rf s).commitIndex ≤ L'.length) :
    ∃ ops', ops <+: ops' ∧ Holds p' c' L' ops' := by
  obtain ⟨M, rfl⟩ := hpre
  have hmap : M.map LogEntry.command = (M.filterMap LogEntry.command).map some := by
    rw [List.map_filterMap_some_eq_filter_map_isSome, List.filter_eq_self.2]
    intro command hmem
    obtain ⟨e, he, rfl⟩ := List.mem_map.1 hmem
    exact hsome e (List.mem_append_right _ he)
  refine ⟨ops ++ M.filterMap LogEntry.command, List.prefix_append _ _, ⟨T, hT⟩, ?_, hlong⟩
  rw [List.map_append, List.map_append, h.commands, hmap]

/-- An entry of a log is an operation that was passed to `Start`. -/
theorem exists_proposal_op {c : Cluster n Op} (hrun : Cluster.exec as = some c)
    (hops : ∀ s command, .start s command ∈ as → command.isSome) {s : Fin n} {j : ℕ}
    {e : LogEntry Op} (he : (c.rf s).fullLog[j]? = some e) :
    e.command.isSome ∧ ∃ k, Proposal as k e.command (j + 1) e.term := by
  obtain ⟨k, hk⟩ := exists_proposal hrun he
  refine ⟨?_, k, hk⟩
  obtain ⟨v, _, hstart, _⟩ := hk
  exact hops v _ (List.mem_of_getElem? hstart)

/-- What is committed after a step continues the sequence. -/
theorem Agreed.grow {c' : Cluster n Op} (h : Agreed codec as r p L ops) (g : Grows p p')
    (hsim' : Sim True c' p') (hstep : r.raft.step a = some c')
    (hrun : Cluster.exec (as ++ [a]) = some c')
    (hops : ∀ s command, .start s command ∈ as ++ [a] → command.isSome) :
    ∃ L' ops', L <+: L' ∧ ops <+: ops' ∧ Holds p' c' L' ops' ∧
      ∀ j e, L'[j]? = some e → ∃ k, Proposal (as ++ [a]) k e.command (j + 1) e.term := by
  obtain ⟨T, hT⟩ := h.holds.committed
  have hstay : (∀ s, (c'.rf s).commitIndex ≤ L.length) →
      ∃ L' ops', L <+: L' ∧ ops <+: ops' ∧ Holds p' c' L' ops' ∧
        ∀ j e, L'[j]? = some e → ∃ k, Proposal (as ++ [a]) k e.command (j + 1) e.term := by
    intro hlong
    refine ⟨L, ops, List.prefix_rfl, List.prefix_rfl,
      ⟨⟨T, hT.mono g le_rfl⟩, h.holds.commands, hlong⟩, ?_⟩
    intro j e he
    obtain ⟨k, hk⟩ := h.proposed j e he
    exact ⟨k, hk.append [a]⟩
  rcases step_move hstep with ⟨-, hsame⟩ | ⟨v, nd, -, hnode⟩
  · refine hstay fun s => ?_
    rw [Cluster.rf, hsame]
    exact h.holds.longest s
  -- only server `v` may have learnt of something that is committed
  have hother : ∀ s, s ≠ v → (c'.rf s).commitIndex ≤ L.length := by
    intro s hs
    rw [Cluster.rf, hnode, Function.update_of_ne hs]
    exact h.holds.longest s
  obtain ⟨P, hP, hlen, hc⟩ := ((hsim'.server v).safe trivial).committed
  rcases (hT.mono g le_rfl).comparable hsim'.inv (hsim'.kept trivial) hc with hpre | hpre
  · have hentry : ∀ {j e}, P[j]? = some e →
        e.command.isSome ∧ ∃ k, Proposal (as ++ [a]) k e.command (j + 1) e.term :=
      fun he => exists_proposal_op hrun hops (getElem?_of_isPrefix hP he)
    have hsome : ∀ e ∈ P, e.command.isSome := by
      intro e he
      obtain ⟨j, hj⟩ := List.mem_iff_getElem?.1 he
      exact (hentry hj).1
    have hlong : ∀ s, (c'.rf s).commitIndex ≤ P.length := by
      intro s
      by_cases hs : s = v
      · subst hs
        exact hlen.ge
      · exact (hother s hs).trans hpre.length_le
    obtain ⟨ops', hext, hP'⟩ := h.holds.extend hpre hsome hc hlong
    exact ⟨P, ops', hpre, hext, hP', fun j e he => (hentry he).2⟩
  · refine hstay fun s => ?_
    by_cases hs : s = v
    · subst hs
      exact hlen ▸ hpre.length_le
    · exact hother s hs

/-! ## Steps -/

/-- What a server is served in a step is of the sequence. -/
theorem Agreed.serving_move (h : Agreed codec as r p L ops) (hpre : ops <+: ops')
    (ho : Regular codec r a) {v : Fin n} {nd : Node n Op} (hm : Move r.raft a v nd)
    {q : Replicas n} (hq : r.service codec a = some q) :
    Serving codec ops' (q.replica v) nd.view := by
  have hserver := (h.sim.server v).raft
  have hserving := (h.serving v).mono hpre
  have hd : Delivery r.raft a v nd := hm.delivery fun _ => ⟨hserver.mirrored, hserver.me⟩
  have hstep : (∀ k, a ≠ .deliver k) → Serving codec ops' (q.replica v) nd.view := by
    intro hno
    refine hserving.step hd ?_ (fun k _ _ _ hk => absurd hk (hno k))
      (fun index data hsnap _ => ho.decoded v index data hsnap) (ho.inOrder v) hq
    intro e _ hlt he
    have hinc : (r.raft.rf v).lastIncludedIndex < (r.raft.rf v).lastApplied + 1 :=
      Nat.lt_succ_of_le hserving.included_le
    rw [hserver.wf.entryAt_of_lt hinc, Nat.add_sub_cancel] at he
    rw [h.entry hlt] at he
    obtain ⟨op, hop, hcommand⟩ := h.holds.getElem? he
    exact ⟨op, getElem?_of_isPrefix hpre hop, hcommand⟩
  cases hd with
  | quiet hno hr hview =>
      rw [Replicas.service_quiet codec hno hr hq, hview]
      exact hserving
  | installed hdel hk hlt hview =>
      rw [Replicas.service_quiet codec (by simp [hdel]) (by rw [hdel]; rfl) hq, hview]
      exact hserving.install hlt
        ((h.packets _ _ _ _ (List.mem_of_getElem? hk) (Nat.zero_lt_of_lt hlt)).mono hpre)
  | compacted ha | applied ha | received ha =>
      subst ha
      exact hstep (by simp)
  | restarted hs =>
      refine hstep fun k hk => ?_
      subst hk
      exact absurd hs (by simp [Cluster.restarts])

/-- The snapshots under way are what their senders have saved. -/
theorem Agreed.packets_step {c' : Cluster n Op} (h : Agreed codec as r p L ops)
    (hpre : ops <+: ops') (hstep : r.raft.step a = some c') {src dst : Fin n} {ep : ℕ}
    {args : InstallSnapshotArgs n Op} (hpkt : .installSnapshot src dst ep args ∈ c'.net)
    (hpos : 0 < args.lastIncludedIndex) :
    Carries codec ops' args.lastIncludedIndex args.data.data := by
  rcases step_net hstep hpkt with hold | hsent | ⟨k, req, _, _, hans⟩
  · exact (h.packets _ _ _ _ hold hpos).mono hpre
  · obtain ⟨q, hsim⟩ := sim_reachable h.run
    obtain ⟨hindex, hrest⟩ := Prod.mk.inj (sends_installSnapshot hsim hsent)
    have hdata := (Prod.mk.inj hrest).2
    rw [hindex] at hpos ⊢
    rw [hdata]
    rcases (h.serving src).saved with ⟨hzero, _⟩ | hsaved
    · exact absurd hzero hpos.ne'
    · exact hsaved.mono hpre
  · cases hans

/-- **Step lemma.** -/
theorem Agreed.step (h : Agreed codec as r p L ops) (ho : Regular codec r a)
    (hstep : r.step codec a = some r') : ∃ p' L' ops', L <+: L' ∧ ops <+: ops' ∧
      Agreed codec (as ++ [a]) r' p' L' ops' := by
  obtain ⟨hraft, q, hq, hrep⟩ := Replicas.step_inv codec hstep
  obtain ⟨p', hfollows, hsim'⟩ := sim_step h.sim (fun _ => h.disciplined ho hq) hraft
  have hrun : Cluster.exec (as ++ [a]) = some r'.raft := Machine.exec_snoc h.run hraft
  have hops : ∀ s command, .start s command ∈ as ++ [a] → command.isSome := by
    intro s command hmem
    rcases List.mem_append.1 hmem with hold | hnew
    · exact h.operations s command hold
    · exact ho.operations s command (List.mem_singleton.1 hnew).symm
  obtain ⟨L', ops', hlog, hpre, hL, hproposed⟩ :=
    h.grow (hfollows.grows h.sim.inv) hsim' hraft hrun hops
  refine ⟨p', L', ops', hlog, hpre,
    { run := hrun
      operations := hops
      sim := hsim'
      holds := hL
      proposed := hproposed
      serving := fun s => ?_
      packets := fun src dst ep args => h.packets_step hpre hraft }⟩
  rw [hrep]
  rcases step_move hraft with ⟨⟨k, rfl⟩, hsame⟩ | ⟨v, nd, hm, hnode⟩
  · obtain rfl := Replicas.service_quiet codec (by simp) rfl hq
    rw [hsame]
    exact (h.serving s).mono hpre
  · by_cases hv : s = v
    · subst hv
      rw [hnode, Function.update_self]
      exact h.serving_move hpre ho hm hq
    · obtain ⟨rep, hframe⟩ := Replicas.service_frame codec hm hq
      rw [hnode, hframe, Function.update_of_ne hv, Function.update_of_ne hv]
      exact (h.serving s).mono hpre

theorem agreed_init :
    Agreed codec [] (Replicas.init codec n) (Proto.init (Fin n) (LogEntry Op)) [] [] where
  run := rfl
  operations := by simp
  sim := sim_init True
  holds := ⟨⟨0, Or.inl rfl⟩, rfl, fun _ => Nat.le_refl 0⟩
  proposed := by simp
  serving := serving_init
  packets := by simp [Replicas.init, Cluster.init]

theorem Agreed.exec (h : Agreed codec as r p L ops)
    (hd : Machine.Along (Replicas.step codec) (Regular codec) r bs)
    (hrun : Machine.exec (Replicas.step codec) r bs = some r') :
    ∃ p' L' ops', ops <+: ops' ∧ Agreed codec (as ++ bs) r' p' L' ops' := by
  induction bs generalizing as r p L ops with
  | nil =>
      obtain rfl := Option.some.inj hrun
      exact ⟨p, L, ops, List.prefix_rfl, by rwa [List.append_nil]⟩
  | cons a bs ih =>
      obtain ⟨r₁, hstep, hrest⟩ := Machine.exec_cons hrun
      obtain ⟨p₁, L₁, ops₁, -, hpre, h₁⟩ := h.step hd.1 hstep
      obtain ⟨p', L', ops', hpre', h'⟩ := ih h₁ (hd.2 r₁ hstep) hrest
      rw [List.append_assoc] at h'
      exact ⟨p', L', ops', hpre.trans hpre', h'⟩

/-- **The replicas agree.** At any two moments of a regular run, the states of all servers are the
    results of prefixes of one sequence of operations, which were passed to `Start` and stand where
    it returned. -/
theorem replicas_agree
    (hd : Machine.Along (Replicas.step codec) (Regular codec) (Replicas.init codec n) (as ++ bs))
    (h : Machine.exec (Replicas.step codec) (Replicas.init codec n) as = some r)
    (h' : Machine.exec (Replicas.step codec) r bs = some r') :
    ∃ ops : List Op,
      (∀ s, (r.replica s).reached ≤ ops.length ∧
        (r.replica s).kv.state = State.replay (ops.take (r.replica s).reached)) ∧
      (∀ s, (r'.replica s).reached ≤ ops.length ∧
        (r'.replica s).kv.state = State.replay (ops.take (r'.replica s).reached)) ∧
      ∀ j op, ops[j]? = some op → ∃ k t, Proposal (as ++ bs) k (some op) (j + 1) t := by
  obtain ⟨p, L, ops, -, hagreed⟩ := agreed_init.exec (Machine.along_left hd) h
  obtain ⟨p', L', ops', hpre, hagreed'⟩ := hagreed.exec (Machine.along_append hd h) h'
  refine ⟨ops', fun s => ?_, fun s => ?_, fun j op hop => ?_⟩
  · have hserving := (hagreed.serving s).mono hpre
    exact ⟨hserving.bound, hserving.state⟩
  · exact ⟨(hagreed'.serving s).bound, (hagreed'.serving s).state⟩
  · obtain ⟨e, he, hcommand⟩ := hagreed'.holds.exists_entry hop
    obtain ⟨k, hk⟩ := hagreed'.proposed j e he
    exact ⟨k, e.term, hcommand ▸ hk⟩

/-- `lagRun`, and the applier of server `2` takes the snapshot before the command. -/
def lagTaken : List (Action 3 Op) :=
  lagRun ++ [.receive 2 0, .receive 2 0]

/-- The one snapshot of `lagTaken` is of the state that its server has. -/
theorem lagTaken_decoded : Machine.Along (Replicas.step lagCodec)
    (fun r a => ∀ s index data, a = .snapshot s index data →
      lagCodec.decode data = some (r.replica s).kv.state)
    (Replicas.init lagCodec 3) lagTaken := by
  have hsplit : lagTaken = lagTaken.take 16 ++ .snapshot 0 2 [2] :: lagTaken.drop 17 := rfl
  have hbefore : ∀ a ∈ lagTaken.take 16, ∀ s index data, a ≠ .snapshot s index data := by
    simp [lagTaken, lagRun, electRun]
  have hafter : ∀ a ∈ lagTaken.drop 17, ∀ s index data, a ≠ .snapshot s index data := by
    simp [lagTaken, lagRun, electRun]
  have hstate : (Machine.exec (Replicas.step lagCodec) (Replicas.init lagCodec 3)
      (lagTaken.take 16)).map (fun r => (r.replica 0).kv.state) =
      some (State.replay (lagOps.take 2)) := rfl
  obtain ⟨q, hq, hreplay⟩ := Option.map_eq_some_iff.1 hstate
  rw [hsplit]
  refine Machine.along_of_append ?_ fun r hr => ⟨?_, fun r' _ => ?_⟩
  · exact Machine.along_mono (fun _ _ h s index data ha => absurd ha (h s index data))
      (Machine.along_of_mem hbefore)
  · obtain rfl : q = r := Option.some.inj (hq.symm.trans hr)
    rintro s index data ⟨⟩
    rw [hreplay]
    rfl
  · exact Machine.along_mono (fun _ _ h s index data ha => absurd ha (h s index data))
      (Machine.along_of_mem hafter)

theorem replicas_agree_lagTaken : ∃ r, Machine.exec (Replicas.step lagCodec)
      (Replicas.init lagCodec 3) lagTaken = some r ∧
    (r.replica 0).reached = 2 ∧ (r.replica 2).reached = 3 ∧ ∃ ops : List Op,
      (r.replica 0).kv.state = State.replay (ops.take 2) ∧
      (r.replica 2).kv.state = State.replay (ops.take 3) := by
  have hrun : (Machine.exec (Replicas.step lagCodec) (Replicas.init lagCodec 3) lagTaken).map
      (fun r => ((r.replica 0).reached, (r.replica 2).reached)) = some (2, 3) := by decide
  have hrules : Machine.Along (Replicas.step lagCodec)
      (fun r a => LeaderSends r.raft a ∧ FreshMatch r.raft a ∧ ∀ s, InOrder s r a)
      (Replicas.init lagCodec 3) lagTaken := by decide
  have hstarts : ∀ a ∈ lagTaken, ∀ s command, a = .start s command → command.isSome := by
    simp [lagTaken, lagRun, electRun, lagOps]
  have hregular : Machine.Along (Replicas.step lagCodec) (Regular lagCodec)
      (Replicas.init lagCodec 3) (lagTaken ++ []) := by
    rw [List.append_nil]
    exact Machine.along_mono
      (fun _ _ h => ⟨h.1.1.1, h.1.1.2.1, h.1.1.2.2, h.1.2, h.2⟩)
      (Machine.along_and (Machine.along_and hrules lagTaken_decoded) (Machine.along_of_mem hstarts))
  obtain ⟨r, hr, hval⟩ := Option.map_eq_some_iff.1 hrun
  obtain ⟨htwo, hthree⟩ := Prod.mk.inj hval
  obtain ⟨ops, hstates, -, -⟩ := replicas_agree hregular hr rfl
  refine ⟨r, hr, htwo, hthree, ops, ?_, ?_⟩
  · rw [(hstates 0).2, htwo]
  · rw [(hstates 2).2, hthree]

end KV

end AiFS
