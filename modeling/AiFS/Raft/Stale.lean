import AiFS.Raft.Durability
import AiFS.Raft.NextIndex

set_option autoImplicit false

/-! # Requests that arrive late or twice

A leader sends its requests without waiting for the replies, so an `AppendEntries` may arrive when
the follower has long taken over a later one. Nothing in the request says so; what makes it
harmless is that the handler compares terms before it cuts anything off. All requests of one term
carry prefixes of one log, the log of the term's leader, and a follower that holds the longer prefix
finds every entry of the shorter one in its place.

The follower may have been compacted in between, and so may the leader. Both are covered by the
whole logs: `CarriesLog` says which log a request stands for, and `Settled` what a follower keeps
once it has accepted one. -/

namespace AiFS

open TermLog

variable {n : ℕ} {κ : Type} {as : List (Action n κ)} {s d : Fin n} {T : ℕ}

/-! ## Requests of one leader -/

/-- After the first `i` steps of the run, server `s` leads term `T` and `makeAppendEntry` builds
    `args` for `peer`. -/
def BuiltAt (as : List (Action n κ)) (i : ℕ) (s peer : Fin n) (T : ℕ)
    (args : AppendEntriesArgs n κ) : Prop :=
  ∃ c, Cluster.exec (as.take i) = some c ∧ (c.rf s).state = Role.leader ∧ (c.rf s).currTerm = T ∧
    (c.rf s).lastIncludedIndex < (c.rf s).nextIndex peer ∧
    (c.rf s).appendEntriesArgs peer = some args

/-- The request carries the log `M` behind `prevLogIndex`, a prefix of the log of term `T`. -/
structure CarriesLog (p : Hist n κ) (T : ℕ) (args : AppendEntriesArgs n κ) (M : List (LogEntry κ)) :
    Prop where
  term : args.term = T
  prev_le : args.prevLogIndex ≤ M.length
  prev : args.prevLogTerm = lastTerm LogEntry.term (M.take args.prevLogIndex)
  entries : args.entries = M.drop args.prevLogIndex
  backed : Backed LogEntry.term p M
  leaderLog : M <+: p.leaderLog T

theorem CarriesLog.length {p : Hist n κ} {args : AppendEntriesArgs n κ} {M : List (LogEntry κ)}
    (h : CarriesLog p T args M) : args.prevLogIndex + args.entries.length = M.length := by
  rw [h.entries, List.length_drop, Nat.add_sub_cancel' h.prev_le]

/-- The histories along a run, one for each of its prefixes. -/
theorem sim_trace (as : List (Action n κ)) : ∃ (f : ℕ → Hist n κ) (p : Hist n κ),
    (∀ i c, Cluster.exec (as.take i) = some c → Sim False c (f i)) ∧
    (∀ i j, i ≤ j → Grows (f i) (f j)) ∧ ∀ i, Grows (f i) p := by
  have hstep : ∀ (c : Cluster n κ) a c' p, Sim False c p → Cluster.step c a = some c' →
      ∃ p', Grows p p' ∧ Sim False c' p' := by
    intro c a c' p h hstep
    obtain ⟨p', hfollows, h'⟩ := sim_step h (fun hno => hno.elim) hstep
    exact ⟨p', hfollows.grows h.inv, h'⟩
  obtain ⟨f, p, _, hsim, hmono, hlast⟩ := Machine.simulation_trace Grows.refl Grows.trans hstep as
    (Cluster.init n κ) _ (sim_init False)
  exact ⟨f, p, hsim, hmono, hlast⟩

/-- A request that a leader builds carries the log its term has at that moment. -/
theorem BuiltAt.carries {i : ℕ} {args : AppendEntriesArgs n κ} {f : ℕ → Hist n κ} {p : Hist n κ}
    (h : BuiltAt as i s d T args)
    (hsim : ∀ i c, Cluster.exec (as.take i) = some c → Sim False c (f i))
    (hlast : ∀ i, Grows (f i) p) : CarriesLog p T args ((f i).leaderLog T) := by
  obtain ⟨c, hc, hlead, rfl, hnext, hargs⟩ := h
  have hrel := ((hsim i c hc).server s).raft
  obtain ⟨hleader, hlog⟩ := hrel.lead hlead
  obtain ⟨hterm, _, hle, hent, hprev⟩ := Raft.appendEntriesArgs_spec hrel.wf hnext hargs
  have hbacked : Backed LogEntry.term (f i) (c.rf s).fullLog :=
    hrel.log ▸ ((hsim i c hc).inv.logs s).1
  rw [← hlog] at hle hent hprev hbacked
  exact
    { term := hterm
      prev_le := hle
      prev := hprev
      entries := hent
      backed := hbacked.mono (hlast i)
      leaderLog := (hlast i).leaderLog _ (by rw [hleader]; rfl) }

/-! ## The commit index of a leader -/

/-- **Step lemma.** A server that leads a term it already led before has led it all the time, and
    its `commitIndex` has not decreased. -/
theorem leader_step {c c' : Cluster n κ} {a : Action n κ} {p : Hist n κ} (hsim : Sim False c p)
    (hled : p.leader T = some s) (hstep : c.step a = some c')
    (hlead : (c'.rf s).state = Role.leader) (hterm : (c'.rf s).currTerm = T) :
    (c.rf s).state = Role.leader ∧ (c.rf s).currTerm = T ∧
      (c.rf s).commitIndex ≤ (c'.rf s).commitIndex := by
  have hrel := (hsim.server s).raft
  rcases step_node hstep s with hsame | hm
  · have hrf : c'.rf s = c.rf s := by rw [Cluster.rf, hsame, Cluster.rf]
    rw [hrf] at hlead hterm ⊢
    exact ⟨hlead, hterm, le_rfl⟩
  have hrf : c'.rf s = (c'.node s).rf := rfl
  rw [hrf] at hlead hterm ⊢
  rcases hm.stays_or_elected hsim hlead with hstays | ⟨hcand, hsame, _⟩
  · refine ⟨hstays.leads, hstays.term.symm.trans hterm, ?_⟩
    rcases hm.commitIndex_of_leader hrel.wf hlead with heq | ⟨_, _, _, _, _, _, _, hreply⟩
    · exact heq.ge
    · rcases Raft.appendEntriesReply_spec hreply with
        ⟨_, _, heq, _⟩ | ⟨_, heq, _⟩ | ⟨_, _, _, _, _, ci, heq, hci⟩
      · rw [heq]
        rfl
      · rw [heq]
      · rw [heq]
        rcases hci with hci | ⟨_, hlt, _⟩
        · exact hci.ge
        · exact hlt.le
  · -- a candidate never leads a term that it has led before
    have hno := (hrel.cand hcand).2
    rw [← hsame, hterm] at hno
    exact absurd hled hno

/-- **Run lemma.** -/
theorem leader_exec {c c' : Cluster n κ} {bs : List (Action n κ)} {p : Hist n κ}
    (hsim : Sim False c p) (hled : p.leader T = some s)
    (hrun : Machine.exec Cluster.step c bs = some c') (hlead : (c'.rf s).state = Role.leader)
    (hterm : (c'.rf s).currTerm = T) : (c.rf s).commitIndex ≤ (c'.rf s).commitIndex := by
  induction bs using List.reverseRecOn generalizing c' with
  | nil =>
      obtain rfl := Option.some.inj hrun
      exact le_rfl
  | append_singleton bs a ih =>
      obtain ⟨e, he, hstep⟩ := Machine.exec_concat hrun
      obtain ⟨q, hgrows, hq⟩ :=
        sim_exec hsim (Machine.along_of_forall (fun _ _ hno => hno.elim) bs c) he
      obtain ⟨hlead', hterm', hle⟩ := leader_step hq (hgrows.leader _ _ hled) hstep hlead hterm
      exact (ih he hlead' hterm').trans hle

/-- A leader's later request does not carry a lower `LeaderCommit`. -/
theorem BuiltAt.leaderCommit_le {i j : ℕ} {m m' : AppendEntriesArgs n κ}
    (h : BuiltAt as i s d T m) (h' : BuiltAt as j s d T m') (hij : i ≤ j) :
    m.leaderCommit ≤ m'.leaderCommit := by
  obtain ⟨c, hc, hlead, hterm, hnext, hargs⟩ := h
  obtain ⟨c', hc', hlead', hterm', hnext', hargs'⟩ := h'
  obtain ⟨p, hsim⟩ := sim_reachable hc
  obtain ⟨p', hsim'⟩ := sim_reachable hc'
  have hrel := (hsim.server s).raft
  have hrun : Machine.exec Cluster.step c ((as.drop i).take (j - i)) = some c' := by
    have hsplit : as.take j = as.take i ++ (as.drop i).take (j - i) := by
      rw [← List.take_add, Nat.add_sub_cancel' hij]
    rw [hsplit, Cluster.exec, Machine.exec_append, Option.bind_eq_some_iff] at hc'
    obtain ⟨e, he, hrest⟩ := hc'
    obtain rfl : c = e := Option.some.inj (hc.symm.trans he)
    exact hrest
  rw [(Raft.appendEntriesArgs_spec hrel.wf hnext hargs).2.1,
    (Raft.appendEntriesArgs_spec (hsim'.server s).raft.wf hnext' hargs').2.1]
  exact leader_exec hsim (hterm ▸ (hrel.lead hlead).1) hrun hlead' hterm'

/-! ## The follower -/

/-- What arrives at a follower. -/
inductive Input (n : ℕ) (κ : Type) where
  | appendEntries (args : AppendEntriesArgs n κ)
  | snapshot (index : ℕ) (data : List UInt8)

def Raft.input (rf : Raft n κ) : Input n κ → Option (Raft n κ)
  | .appendEntries args => (rf.appendEntries args).map Prod.fst
  | .snapshot index data => rf.snapshot index data

/-- The input is a request that the leader `s` of term `T` builds for `d` in the run, or the service
    compacts what is committed. -/
def Expected (as : List (Action n κ)) (s d : Fin n) (T : ℕ) (rf : Raft n κ) : Input n κ → Prop
  | .appendEntries args => ∃ i, BuiltAt as i s d T args
  | .snapshot index _ => index ≤ rf.commitIndex

/-- A follower in term `T` that holds the log `M` of the leader, and has committed at least `k` of
    it. -/
structure Settled (p : Hist n κ) (T : ℕ) (M : List (LogEntry κ)) (k : ℕ) (rf : Raft n κ) :
    Prop where
  wf : rf.WF
  backed : Backed LogEntry.term p rf.fullLog
  term : rf.currTerm = T
  log : M <+: rf.fullLog
  commit : k ≤ rf.commitIndex

section Follower

variable {p : Hist n κ} {rf rf' : Raft n κ} {args : AppendEntriesArgs n κ}
  {reply : AppendEntriesReply} {M M' : List (LogEntry κ)} {k : ℕ}

/-- **Acceptance.** A follower that accepts a request holds the log it carries. -/
theorem CarriesLog.accepted (h : CarriesLog p T args M) (hwf : rf.WF)
    (hbacked : Backed LogEntry.term p rf.fullLog) (hwithin : args.leaderCommit ≤ M.length)
    (hae : rf.appendEntries args = some (rf', reply)) (hsuccess : reply.success = true) :
    Settled p T M args.leaderCommit rf' := by
  rcases Raft.appendEntries_spec hwf hbacked h.backed h.prev_le h.prev h.entries hae with
    ⟨_, _, hno⟩ | ⟨_, _, hno⟩ | ⟨_, hm, _, _, hci⟩
  · exact absurd (hno.symm.trans hsuccess) (by simp)
  · exact absurd (hno.symm.trans hsuccess) (by simp)
  · have hlog : M <+: rf'.fullLog := hm.fullLog ▸ prefix_merge _ _
    refine ⟨hm.wf, hm.fullLog ▸ hbacked.merge h.backed, hm.currTerm.trans h.term, hlog, ?_⟩
    rw [hci]
    split
    · exact le_min le_rfl (hwithin.trans hlog.length_le)
    · next hge => exact not_lt.1 hge

theorem Settled.follow (h : Settled p T M k rf) : Settled p T M k (rf.follow T) where
  wf := h.wf.follow T
  backed := by rw [Raft.follow_fullLog]; exact h.backed
  term := by rw [Raft.follow_currTerm, h.term, max_self]
  log := by rw [Raft.follow_fullLog]; exact h.log
  commit := by rw [Raft.follow_commitIndex]; exact h.commit

/-- Another request of the term leaves what the follower holds of the leader's log. -/
theorem Settled.appendEntries (h : Settled p T M k rf) (hM : M <+: p.leaderLog T)
    (hk : k ≤ M.length) (harg : CarriesLog p T args M')
    (hae : rf.appendEntries args = some (rf', reply)) : Settled p T M k rf' := by
  rcases Raft.appendEntries_spec h.wf h.backed harg.backed harg.prev_le harg.prev harg.entries hae
    with ⟨_, rfl, _⟩ | ⟨_, rfl, _⟩ | ⟨_, hm, _, _, hci⟩
  · exact h
  · rw [harg.term]
    exact h.follow
  · have hlog : M <+: rf'.fullLog := by
      rw [hm.fullLog]
      rcases List.prefix_or_prefix_of_prefix hM harg.leaderLog with hlonger | hshorter
      · exact hlonger.trans (prefix_merge _ _)
      · rw [merge_of_isPrefix (hshorter.trans h.log)]
        exact h.log
    refine ⟨hm.wf, hm.fullLog ▸ h.backed.merge harg.backed, hm.currTerm.trans harg.term, hlog, ?_⟩
    rw [hci]
    split
    · next hlt => exact le_min (h.commit.trans hlt.le) (hk.trans hlog.length_le)
    · exact h.commit

theorem Settled.snapshot {index : ℕ} {data : List UInt8} (h : Settled p T M k rf)
    (hsnap : rf.snapshot index data = some rf') : Settled p T M k rf' := by
  rcases Raft.snapshot_spec h.wf hsnap with rfl | ⟨_, _, hwf, _, hfull, _, _, _, _, heq⟩
  · exact h
  · exact
      { wf := hwf
        backed := hfull ▸ h.backed
        term := by rw [heq]; exact h.term
        log := hfull ▸ h.log
        commit := by rw [heq]; exact h.commit }

/-- The loop of `AppendEntries` leaves a log that has all the entries. -/
theorem appendLoop_of_isPrefix (hwf : rf.WF) (hM : M <+: rf.fullLog)
    (entries : List (LogEntry κ)) : ∀ k, entries = M.drop k → rf.lastIncludedIndex ≤ k →
      rf.appendLoop (k + 1) entries = some rf.logs := by
  induction entries with
  | nil =>
      intro k _ _
      rfl
  | cons entry rest ih =>
      intro k hdrop hk
      have hlt : k < M.length := by
        by_contra hge
        rw [List.drop_of_length_le (not_lt.1 hge)] at hdrop
        exact absurd hdrop (by simp)
      rw [List.drop_eq_getElem_cons hlt] at hdrop
      obtain ⟨hentry, hrest⟩ := List.cons.inj hdrop
      have hat : rf.entryAt (k + 1) = some entry := by
        rw [hwf.entryAt_of_lt (Nat.lt_succ_of_le hk), hentry]
        exact List.prefix_iff_getElem?.1 hM k hlt
      have hle : k + 1 ≤ rf.lastLogicalIndex := by
        rw [hwf.lastLogicalIndex_eq]
        exact hlt.trans_le hM.length_le
      simp only [Raft.appendLoop, hle, if_true, hat, ne_eq, not_true_eq_false, if_false]
      exact ih (k + 1) hrest (hk.trans (Nat.le_succ k))

/-- What an old request must not change. -/
structure Raft.Untouched (rf rf' : Raft n κ) : Prop where
  logs : rf'.logs = rf.logs
  commitIndex : rf'.commitIndex = rf.commitIndex
  currTerm : rf'.currTerm = rf.currTerm
  votedFor : rf'.votedFor = rf.votedFor
  point : rf'.point = rf.point

theorem Raft.untouched_follow (h : rf.currTerm = T) : Raft.Untouched rf (rf.follow T) where
  logs := follow_logs _ _
  commitIndex := follow_commitIndex _ _
  currTerm := by rw [follow_currTerm, h, max_self]
  votedFor := by rw [follow_votedFor, if_neg (by rw [h]; exact lt_irrefl T)]
  point := by simp [Raft.point]

/-- **An old request.** It carries less than the follower holds. -/
theorem Settled.untouched (h : Settled p T M k rf) (harg : CarriesLog p T args M') (hM : M' <+: M)
    (hcommit : args.leaderCommit ≤ k) (hae : rf.appendEntries args = some (rf', reply)) :
    Raft.Untouched rf rf' := by
  rcases Raft.appendEntries_cases h.wf hae with
    ⟨_, rfl, _⟩ | ⟨_, rfl, _⟩ | ⟨_, hlow, _, _, logs, ci, hloop, rfl, hci⟩
  · exact ⟨rfl, rfl, rfl, rfl, rfl⟩
  · rw [harg.term]
    exact Raft.untouched_follow h.term
  · have hsame : (rf.follow args.term).appendLoop (args.prevLogIndex + 1) args.entries =
        some (rf.follow args.term).logs :=
      appendLoop_of_isPrefix (h.wf.follow _) (by rw [Raft.follow_fullLog]; exact hM.trans h.log) _ _
        harg.entries (by rw [Raft.follow_lastIncludedIndex]; exact hlow)
    obtain rfl : logs = rf.logs := by
      rw [← Raft.follow_logs rf args.term]
      exact Option.some.inj (hloop.symm.trans hsame)
    have hfollow : Raft.Untouched rf (rf.follow args.term) :=
      Raft.untouched_follow (h.term.trans harg.term.symm)
    exact
      { logs := rfl
        commitIndex := by rw [hci, if_neg (not_lt.2 (hcommit.trans h.commit))]
        currTerm := hfollow.currTerm
        votedFor := hfollow.votedFor
        point := hfollow.point }

/-- **Run lemma.** -/
theorem Settled.inputs {f : ℕ → Hist n κ} {inputs : List (Input n κ)}
    (hsim : ∀ i c, Cluster.exec (as.take i) = some c → Sim False c (f i))
    (hlast : ∀ i, Grows (f i) p) (hM : M <+: p.leaderLog T) (hk : k ≤ M.length)
    (h : Settled p T M k rf)
    (hexpected : Machine.Along Raft.input (Expected as s d T) rf inputs)
    (hrun : Machine.exec Raft.input rf inputs = some rf') : Settled p T M k rf' := by
  refine Machine.invariant_exec (I := Settled p T M k) ?_ inputs rf rf' h hexpected hrun
  intro rf input rf' h hin hstep
  cases input with
  | appendEntries args =>
      obtain ⟨i, hbuilt⟩ := hin
      obtain ⟨⟨_, reply⟩, hae, rfl⟩ := Option.map_eq_some_iff.1 hstep
      exact h.appendEntries hM hk (hbuilt.carries hsim hlast) hae
  | snapshot index data => exact h.snapshot hstep

end Follower

/-! ## Late requests -/

/-- **Late and repeated requests.** The leader of a term builds `m₁` and then, or at the same
    moment, `m₂` for server `d`, and `d` accepts `m₂`. When `m₁` arrives, at once or after further
    requests of that leader and compactions, it changes nothing. -/
theorem late_request_harmless {i₁ i₂ j : ℕ} {m₁ m₂ : AppendEntriesArgs n κ} {c : Cluster n κ}
    {foll foll' : Raft n κ} {reply : AppendEntriesReply} {inputs : List (Input n κ)}
    (h₁ : BuiltAt as i₁ s d T m₁) (h₂ : BuiltAt as i₂ s d T m₂) (hle : i₁ ≤ i₂)
    (hwithin : m₂.leaderCommit ≤ m₂.prevLogIndex + m₂.entries.length)
    (hc : Cluster.exec (as.take j) = some c)
    (haccept : (c.rf d).appendEntries m₂ = some (foll, reply)) (hsuccess : reply.success = true)
    (hexpected : Machine.Along Raft.input (Expected as s d T) foll inputs)
    (hinputs : Machine.exec Raft.input foll inputs = some foll') :
    ∃ rf reply', foll'.appendEntries m₁ = some (rf, reply') ∧ Raft.Untouched foll' rf := by
  obtain ⟨f, p, hsim, hmono, hlast⟩ := sim_trace as
  have hrel := ((hsim j c hc).server d).raft
  have hbacked : Backed LogEntry.term p (c.rf d).fullLog :=
    (hrel.log ▸ ((hsim j c hc).inv.logs d).1).mono (hlast j)
  have hcarries₁ := h₁.carries hsim hlast
  have hcarries₂ := h₂.carries hsim hlast
  rw [hcarries₂.length] at hwithin
  have hfirst := hcarries₂.accepted hrel.wf hbacked hwithin haccept hsuccess
  have hsettled := hfirst.inputs hsim hlast hcarries₂.leaderLog hwithin hexpected hinputs
  -- the leader's log has only grown between the two requests
  have hgrown : (f i₁).leaderLog T <+: (f i₂).leaderLog T := by
    obtain ⟨c₁, hc₁, hlead, rfl, _⟩ := h₁
    refine (hmono i₁ i₂ hle).leaderLog _ ?_
    rw [(((hsim i₁ c₁ hc₁).server s).raft.lead hlead).1]
    rfl
  obtain ⟨rf, reply', hae⟩ := Raft.exists_appendEntries hsettled.wf.logs_ne_nil m₁
  exact ⟨rf, reply', hae,
    hsettled.untouched hcarries₁ hgrown (h₁.leaderCommit_le h₂ hle) hae⟩

/-- The leader of `electRun` takes two commands and builds a request for server `1` behind each. -/
def twoStarts : List (Action 3 ℕ) :=
  electRun ++ ([.start 0 (some 7), .start 0 (some 8)] : List (Action 3 ℕ))

def twoStartsRequest (entries : List (LogEntry ℕ)) : AppendEntriesArgs 3 ℕ where
  term := 1
  leaderId := 0
  prevLogIndex := 0
  prevLogTerm := 0
  entries := entries
  leaderCommit := 0

theorem builtAt_twoStarts : BuiltAt twoStarts 6 0 1 1 (twoStartsRequest [⟨1, some 7⟩]) ∧
    BuiltAt twoStarts 7 0 1 1 (twoStartsRequest [⟨1, some 7⟩, ⟨1, some 8⟩]) := by
  constructor
  · exact ⟨_, rfl, rfl, rfl, by decide, rfl⟩
  · exact ⟨_, rfl, rfl, rfl, by decide, rfl⟩

theorem late_request_harmless_twoStarts : ∃ c foll foll' rf reply reply',
    Cluster.exec (twoStarts.take 7) = some c ∧
    (c.rf 1).appendEntries (twoStartsRequest [⟨1, some 7⟩, ⟨1, some 8⟩]) = some (foll, reply) ∧
    foll.input (.appendEntries (twoStartsRequest [⟨1, some 7⟩])) = some foll' ∧
    foll'.appendEntries (twoStartsRequest [⟨1, some 7⟩]) = some (rf, reply') ∧
    foll'.logs.length = 3 ∧ rf.logs = foll'.logs := by
  obtain ⟨h₁, h₂⟩ := builtAt_twoStarts
  have hrun : ∃ c foll foll' reply, Cluster.exec (twoStarts.take 7) = some c ∧
      (c.rf 1).appendEntries (twoStartsRequest [⟨1, some 7⟩, ⟨1, some 8⟩]) = some (foll, reply) ∧
      reply.success = true ∧
      foll.input (.appendEntries (twoStartsRequest [⟨1, some 7⟩])) = some foll' ∧
      foll'.logs.length = 3 := ⟨_, _, _, _, rfl, rfl, rfl, rfl, rfl⟩
  obtain ⟨c, foll, foll', reply, hc, haccept, hsuccess, hagain, hlen⟩ := hrun
  have hexpected : Machine.Along Raft.input (Expected twoStarts 0 1 1) foll
      [.appendEntries (twoStartsRequest [⟨1, some 7⟩])] := ⟨⟨6, h₁⟩, fun _ _ => trivial⟩
  have hinputs : Machine.exec Raft.input foll
      [.appendEntries (twoStartsRequest [⟨1, some 7⟩])] = some foll' :=
    Machine.exec_cons_of_some [] hagain
  obtain ⟨rf, reply', hlate, hsame⟩ := late_request_harmless h₁ h₂ (by decide) (by decide) hc
    haccept hsuccess hexpected hinputs
  exact ⟨c, foll, foll', rf, reply, reply', hc, haccept, hagain, hlate, hlen, hsame.logs⟩

end AiFS
