import AiFS.Raft.AllRuns
import AiFS.Raft.Delivery

set_option autoImplicit false

/-! # What the persister holds

Every stretch of code that changes `currTerm`, `votedFor`, `logs`, `lastIncludedIndex` or
`lastIncludedTerm` saves them before it gives the lock back, and the two that move
`lastIncludedIndex` save a snapshot with it. So whenever the lock is free the persister is a mirror
of the memory (`Raft.Mirrored`), and the snapshot in it is the one that came with
`lastIncludedIndex`: from the service, through `Snapshot`, or from a leader, through
`InstallSnapshot`.

`Supplied` says the latter over the history of a run. -/

namespace AiFS

variable {n : ℕ} {κ : Type} {as : List (Action n κ)} {a : Action n κ} {c c' : Cluster n κ}
  {s : Fin n} {index term : ℕ} {data : List UInt8}

/-- A step leaves the node of a server alone, or does to it what one of the few deliveries says. -/
theorem step_delivery {p : Hist n κ} (hsim : Sim False c p) (hstep : c.step a = some c')
    (s : Fin n) : (c'.node s = c.node s ∧ c.restarts a ≠ some s) ∨
      Delivery c a s (c'.node s) := by
  rcases step_move hstep with ⟨⟨k, rfl⟩, hnode⟩ | ⟨v, nd, hm, hnode⟩
  · exact Or.inl ⟨congrFun hnode s, by simp [Cluster.restarts]⟩
  · by_cases hsv : s = v
    · subst hsv
      have hrel := (hsim.server s).raft
      rw [hnode, Function.update_self]
      exact Or.inr (hm.delivery fun _ => ⟨hrel.mirrored, hrel.me⟩)
    · refine Or.inl ⟨by rw [hnode, Function.update_of_ne hsv], fun hr => ?_⟩
      rcases hm.restarts with hno | hv
      · exact absurd (hno.symm.trans hr) (by simp)
      · exact hsv (Option.some.inj (hr.symm.trans hv))

/-! ## Snapshots and where they come from -/

/-- What a server has compacted: up to which index, the term of the entry there, and the service's
    data in place of the log. -/
def Raft.point (rf : Raft n κ) : ℕ × ℕ × List UInt8 :=
  (rf.lastIncludedIndex, rf.lastIncludedTerm, rf.persister.snapshot.data)

def InstallSnapshotArgs.point (args : InstallSnapshotArgs n κ) : ℕ × ℕ × List UInt8 :=
  (args.lastIncludedIndex, args.lastIncludedTerm, args.data.data)

/-- Step `a` hands server `s` a snapshot that goes beyond the one it has. -/
inductive Supplies (d : Cluster n κ) (s : Fin n) : Action n κ → ℕ × ℕ × List UInt8 → Prop
  | compacted {index : ℕ} {data : List UInt8} {e : LogEntry κ}
      (hnew : (d.rf s).lastIncludedIndex < index) (he : (d.rf s).entryAt index = some e) :
      Supplies d s (.snapshot s index data) (index, e.term, data)
  | installed {k : ℕ} {src : Fin n} {ep : ℕ} {args : InstallSnapshotArgs n κ}
      (hnew : (d.rf s).lastIncludedIndex < args.lastIncludedIndex)
      (hk : d.net[k]? = some (.installSnapshot src s ep args)) :
      Supplies d s (.deliver k) args.point

/-- A step of the run handed server `s` this snapshot. -/
def Supplied (as : List (Action n κ)) (s : Fin n) (point : ℕ × ℕ × List UInt8) : Prop :=
  ∃ before a after d, as = before ++ a :: after ∧ Cluster.exec before = some d ∧
    Supplies d s a point

theorem Supplied.mono {point : ℕ × ℕ × List UInt8} (h : Supplied as s point)
    (bs : List (Action n κ)) : Supplied (as ++ bs) s point := by
  obtain ⟨before, b, after, d, has, hd, hb⟩ := h
  refine ⟨before, b, after ++ bs, d, ?_, hd, hb⟩
  rw [has, List.append_assoc, List.cons_append]

/-- Two states of a server with the same snapshot have compacted the same: the term is read off the
    entries that the snapshot stands for. -/
theorem point_eq {p p' : Hist n κ} (hsim : Sim False c p) (hsim' : Sim False c' p')
    (hidx : (c'.node s).view.lastIncludedIndex = (c.node s).view.lastIncludedIndex)
    (hsn : (c'.node s).view.snapshot = (c.node s).view.snapshot) :
    (c'.rf s).point = (c.rf s).point := by
  have hidx' : (c'.rf s).lastIncludedIndex = (c.rf s).lastIncludedIndex := hidx
  have hsn' : (c'.rf s).persister.snapshot = (c.rf s).persister.snapshot := hsn
  have hterm : (c'.rf s).lastIncludedTerm = (c.rf s).lastIncludedTerm := by
    rw [(hsim'.server s).raft.wf.covers_term, (hsim.server s).raft.wf.covers_term]
    unfold Raft.covers
    rw [hsn']
  unfold Raft.point
  rw [hidx', hterm, hsn']

/-- **Step lemma.** A server keeps the snapshot it has, or takes the one that the step hands it. -/
theorem point_step {p p' : Hist n κ} (hsim : Sim False c p) (hsim' : Sim False c' p')
    (hstep : c.step a = some c') (s : Fin n) :
    (c'.rf s).point = (c.rf s).point ∨ Supplies c s a (c'.rf s).point := by
  have hkept : (c'.node s).view.lastIncludedIndex = (c.node s).view.lastIncludedIndex →
      (c'.node s).view.snapshot = (c.node s).view.snapshot →
      (c'.rf s).point = (c.rf s).point ∨ Supplies c s a (c'.rf s).point :=
    fun hidx hsn => Or.inl (point_eq hsim hsim' hidx hsn)
  rcases step_delivery hsim hstep s with ⟨hsame, _⟩ | hdel
  · exact Or.inl (by rw [Cluster.rf, hsame]; rfl)
  cases hdel with
  | quiet _ _ hview => exact hkept (by rw [hview]) (by rw [hview])
  | applied _ _ _ _ hview => exact hkept (by rw [hview]) (by rw [hview])
  | received _ hview => exact hkept (by rw [hview]) (by rw [hview])
  | restarted _ hview => exact hkept (by rw [hview]) (by rw [hview])
  | @installed k src ep args ha hk hlt hview =>
      subst ha
      have hidx : (c'.rf s).lastIncludedIndex = args.lastIncludedIndex := by
        show (c'.node s).view.lastIncludedIndex = _
        rw [hview]
      have hsn : (c'.rf s).persister.snapshot = args.data := by
        show (c'.node s).view.snapshot = _
        rw [hview]
      have hterm : (c'.rf s).lastIncludedTerm = args.lastIncludedTerm := by
        obtain ⟨_, _, hargs, _⟩ := hsim.packets _ (List.mem_of_getElem? hk)
        rw [(hsim'.server s).raft.wf.covers_term, hargs]
        unfold Raft.covers
        rw [hsn]
      have hpoint : (c'.rf s).point = args.point := by
        unfold Raft.point InstallSnapshotArgs.point
        rw [hidx, hterm, hsn]
      rw [hpoint]
      exact Or.inr (.installed hlt hk)
  | @compacted index data sn ha hlt hsn hview =>
      subst ha
      obtain ⟨rf, hrf, hset⟩ := Option.map_eq_some_iff.1 hstep
      have hself : c'.rf s = rf := by simp [← hset, Cluster.rf, Cluster.setRf, Cluster.setNode]
      rcases Raft.snapshot_cases hrf with heq | ⟨_, e, he, hidx, hterm, _, hdata⟩
      · exact Or.inl (by rw [hself, heq])
      · have hpoint : (c'.rf s).point = (index, e.term, data) := by
          rw [hself, Raft.point, hidx, hterm, hdata]
        rw [hpoint]
        exact Or.inr (.compacted hlt he)

/-! ## Runs -/

/-- **Run lemma.** A server has compacted nothing, or what a step of the run supplied. -/
theorem point_exec (h : Cluster.exec as = some c) (s : Fin n) :
    (c.rf s).point = (0, 0, []) ∨
      0 < (c.rf s).lastIncludedIndex ∧ Supplied as s (c.rf s).point := by
  induction as using List.reverseRecOn generalizing c with
  | nil =>
      obtain rfl := Option.some.inj h
      exact Or.inl rfl
  | append_singleton as a ih =>
      obtain ⟨d, hd, hstep⟩ := Machine.exec_concat h
      obtain ⟨p, hsim⟩ := sim_reachable hd
      obtain ⟨p', hsim'⟩ := sim_reachable h
      rcases point_step hsim hsim' hstep s with hsame | hnew
      · have hidx : (c.rf s).lastIncludedIndex = (d.rf s).lastIncludedIndex :=
          congrArg Prod.fst hsame
        rw [hsame, hidx]
        exact (ih hd).imp_right (fun hold => ⟨hold.1, hold.2.mono [a]⟩)
      · refine Or.inr ⟨?_, as, a, [], d, rfl, hd, hnew⟩
        generalize hpoint : (c.rf s).point = point at hnew
        have hidx : (c.rf s).lastIncludedIndex = point.1 := congrArg Prod.fst hpoint
        rw [hidx]
        cases hnew with
        | compacted hlt _ => exact Nat.zero_lt_of_lt hlt
        | installed hlt _ => exact Nat.zero_lt_of_lt hlt

theorem point_supplied (h : Cluster.exec as = some c) (s : Fin n)
    (hne : (c.rf s).lastIncludedIndex ≠ 0) : Supplied as s (c.rf s).point := by
  rcases point_exec h s with hnone | ⟨_, hsup⟩
  · exact absurd (congrArg Prod.fst hnone) hne
  · exact hsup

/-- An `InstallSnapshot` request that a goroutine sends carries what its server has compacted. -/
theorem sends_installSnapshot {p : Hist n κ} (hsim : Sim False c p) {src dst : Fin n} {ep : ℕ}
    {args : InstallSnapshotArgs n κ} (h : .installSnapshot src dst ep args ∈ c.sends a) :
    args.point = (c.rf src).point := by
  obtain ⟨s, k, t, nd, ps, _, _, hstretch, hmem⟩ := sends_stretch h
  have hme : (c.node s).rf.me = s := (hsim.server s).raft.me
  cases hstretch with
  | startElection => simp at hmem
  | appendEntries => simp at hmem
  | installSnapshot =>
      simp only [List.mem_singleton, Packet.installSnapshot.injEq, hme] at hmem
      obtain ⟨hsrc, -, -, hargs⟩ := hmem
      rw [hsrc, hargs]
      rfl
  | _ => exact absurd hmem (by simp)

/-- An `InstallSnapshot` request on the network carries what its sender had compacted at some point
    of the run. -/
theorem installSnapshot_exec (h : Cluster.exec as = some c) {src dst : Fin n} {ep : ℕ}
    {args : InstallSnapshotArgs n κ} (hpkt : .installSnapshot src dst ep args ∈ c.net) :
    ∃ before after d, as = before ++ after ∧ Cluster.exec before = some d ∧
      args.point = (d.rf src).point := by
  induction as using List.reverseRecOn generalizing c with
  | nil =>
      obtain rfl := Option.some.inj h
      exact absurd hpkt (by simp [Cluster.init])
  | append_singleton as a ih =>
      obtain ⟨d, hd, hstep⟩ := Machine.exec_concat h
      obtain ⟨p, hsim⟩ := sim_reachable hd
      rcases step_net hstep hpkt with hold | hsent | ⟨k, req, _, _, hans⟩
      · obtain ⟨before, after, e, has, he, hpoint⟩ := ih hd hold
        exact ⟨before, after ++ [a], e, by rw [has, List.append_assoc], he, hpoint⟩
      · exact ⟨as, [a], d, rfl, hd, sends_installSnapshot hsim hsent⟩
      · cases hans

/-- **Durability.** Whenever the lock of a server is free, its persister holds its durable fields
    (or nothing, and they are initial) and the snapshot that came with `lastIncludedIndex`; so a
    restart restores them, and an `InstallSnapshot` request carries index, term and data that its
    sender had together, as they were supplied. -/
theorem durability (h : Cluster.exec as = some c) (s : Fin n) :
    ((c.rf s).persister.raftstate = some (c.rf s).raftState ∨
      (c.rf s).persister.raftstate = none ∧ (c.rf s).raftState = Raft.freshState) ∧
    ((c.rf s).lastIncludedIndex = 0 → (c.rf s).persister.snapshot.data = []) ∧
    ((c.rf s).lastIncludedIndex ≠ 0 → Supplied as s (c.rf s).point) ∧
    (Raft.make s (c.rf s).persister).raftState = (c.rf s).raftState ∧
    (Raft.make s (c.rf s).persister).point = (c.rf s).point ∧
    ∀ src dst ep args, .installSnapshot src dst ep args ∈ c.net →
      ∃ before after d, as = before ++ after ∧ Cluster.exec before = some d ∧
        args.point = (d.rf src).point ∧
        (args.lastIncludedIndex ≠ 0 → Supplied before src args.point) := by
  obtain ⟨p, hsim⟩ := sim_reachable h
  have hrel := (hsim.server s).raft
  have hmake := Raft.make_of_mirrored hrel.mirrored
  rw [hrel.me] at hmake
  refine ⟨hrel.mirrored, ?_, point_supplied h s, ?_, ?_, ?_⟩
  · intro hzero
    rcases point_exec h s with hnone | ⟨hpos, _⟩
    · exact congrArg (fun x => x.2.2) hnone
    · omega
  · rw [hmake]
    rfl
  · rw [hmake]
    rfl
  · intro src dst ep args hpkt
    obtain ⟨before, after, d, has, hd, hpoint⟩ := installSnapshot_exec h hpkt
    refine ⟨before, after, d, has, hd, hpoint, fun hne => ?_⟩
    have hidx : args.lastIncludedIndex = (d.rf src).lastIncludedIndex := congrArg Prod.fst hpoint
    rw [hpoint]
    exact point_supplied hd src (hidx ▸ hne)

/-- The leader of `electRun` takes a command and compacts it. -/
def compactRun : List (Action 3 ℕ) :=
  electRun ++ ([.start 0 (some 7), .snapshot 0 1 [5]] : List (Action 3 ℕ))

theorem durability_compactRun : ∃ c, Cluster.exec compactRun = some c ∧
    (c.rf 0).point = (1, 1, [5]) ∧ Supplied compactRun 0 (1, 1, [5]) ∧
    (Raft.make 0 (c.rf 0).persister).point = (1, 1, [5]) := by
  have hrun : (Cluster.exec compactRun).map (fun c => (c.rf 0).point) = some (1, 1, [5]) := by
    decide
  obtain ⟨c, hc, hpoint⟩ := Option.map_eq_some_iff.1 hrun
  have hidx : (c.rf 0).lastIncludedIndex = 1 := congrArg Prod.fst hpoint
  obtain ⟨_, _, hsup, _, hmake, _⟩ := durability hc 0
  rw [hpoint] at hsup hmake
  exact ⟨c, hc, hpoint, hsup (by omega), hmake⟩

end AiFS
