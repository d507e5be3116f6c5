import AiFS.Lib.TermLogSafety
import AiFS.Raft.HandlerSpec

set_option autoImplicit false

/-! # One server against the protocol

How a Raft object relates to its server in the abstract protocol of `TermLog`, and that whatever a
handler does to the object is one protocol step of that server. The object's `fullLog` is the
server's log; votes, candidacies and leaderships are in the protocol's history.

The parameter `σ` says whether the run keeps the rules under which `commitIndex` means something:
what `SafeRel` states is claimed only then, while `RaftRel` (terms, votes, logs, leadership) holds
in all runs. -/

namespace AiFS

open TermLog

variable {n : ℕ} {κ : Type} {σ : Prop}

/-- The protocol's state for a cluster of `n` servers. -/
abbrev Hist (n : ℕ) (κ : Type) :=
  Proto (Fin n) (LogEntry κ)

/-- The object of server `s` as the protocol sees it. -/
structure RaftRel (p : Hist n κ) (s : Fin n) (rf : Raft n κ) : Prop where
  me : rf.me = s
  wf : rf.WF
  mirrored : rf.Mirrored
  term : p.term s = rf.currTerm
  log : p.log s = rf.fullLog
  voted : p.voted s rf.currTerm = rf.votedFor
  cand : rf.state = Role.candidate →
    p.candLog s rf.currTerm = some rf.fullLog ∧ p.leader rf.currTerm ≠ some s
  lead : rf.state = Role.leader →
    p.leader rf.currTerm = some s ∧ p.leaderLog rf.currTerm = rf.fullLog

/-- What the indices of server `s` stand for. Of a leader's `matchIndex` only what is above its
    `commitIndex` has to be earned in its term. -/
structure SafeRel (p : Hist n κ) (s : Fin n) (rf : Raft n κ) : Prop where
  committed : ∃ P, P <+: rf.fullLog ∧ P.length = rf.commitIndex ∧
    CommittedBy LogEntry.term p rf.currTerm P
  included_le : rf.lastIncludedIndex ≤ rf.lastApplied
  applied_le : rf.lastApplied ≤ rf.commitIndex
  matched : rf.state = Role.leader → ∀ peer, peer ≠ s →
    rf.matchIndex peer ≤ p.acked peer rf.currTerm ∨ rf.matchIndex peer ≤ rf.commitIndex

structure ServerRel (σ : Prop) (p : Hist n κ) (s : Fin n) (rf : Raft n κ) : Prop where
  raft : RaftRel p s rf
  safe : σ → SafeRel p s rf

variable {p p' : Hist n κ} {s : Fin n} {rf rf' : Raft n κ}

/-- Of a follower neither a candidacy nor a leadership is claimed. -/
theorem RaftRel.of_follower (hstate : rf.state = Role.follower) (hme : rf.me = s) (hwf : rf.WF)
    (hmirrored : rf.Mirrored) (hterm : p.term s = rf.currTerm) (hlog : p.log s = rf.fullLog)
    (hvoted : p.voted s rf.currTerm = rf.votedFor) : RaftRel p s rf where
  me := hme
  wf := hwf
  mirrored := hmirrored
  term := hterm
  log := hlog
  voted := hvoted
  cand hc := absurd (hstate.symm.trans hc) (by simp)
  lead hl := absurd (hstate.symm.trans hl) (by simp)

/-! ## Steps of other servers -/

/-- A step of another server does not disturb the relation. -/
theorem ServerRel.frame (h : ServerRel σ p s rf) (g : Grows p p') (f : Frame s p p') :
    ServerRel σ p' s rf where
  raft :=
    { me := h.raft.me
      wf := h.raft.wf
      mirrored := h.raft.mirrored
      term := f.term.trans h.raft.term
      log := f.log.trans h.raft.log
      voted := by rw [f.voted]; exact h.raft.voted
      cand := fun hc => by
        rw [f.candLog, ne_eq, f.leader]
        exact h.raft.cand hc
      lead := fun hl => by
        obtain ⟨hlead, hlog⟩ := h.raft.lead hl
        exact ⟨g.leader _ _ hlead, (f.leaderLog _ hlead).trans hlog⟩ }
  safe := fun hσ =>
    { committed := by
        obtain ⟨P, hP, hlen, hc⟩ := (h.safe hσ).committed
        exact ⟨P, hP, hlen, hc.mono g le_rfl⟩
      included_le := (h.safe hσ).included_le
      applied_le := (h.safe hσ).applied_le
      matched := fun hl peer hne =>
        ((h.safe hσ).matched hl peer hne).imp_left (fun hle => hle.trans (g.acked _ _)) }

/-! ## Steps that leave the log -/

/-- A server may always fall back to follower. -/
theorem ServerRel.toFollower (h : ServerRel σ p s rf) :
    ServerRel σ p s { rf with state := Role.follower } where
  raft := .of_follower rfl h.raft.me (h.raft.wf.congr rfl rfl rfl rfl) h.raft.mirrored
    h.raft.term h.raft.log h.raft.voted
  safe := fun hσ =>
    { committed := (h.safe hσ).committed
      included_le := (h.safe hσ).included_le
      applied_le := (h.safe hσ).applied_le
      matched := fun hl => absurd hl (by simp) }

/-- What is committed at a server stays so when the history grows and its term rises. -/
theorem SafeRel.committed_mono (h : SafeRel p s rf) (g : Grows p p')
    (hlog : rf.fullLog <+: rf'.fullLog) (hterm : rf.currTerm ≤ rf'.currTerm)
    (hci : rf'.commitIndex = rf.commitIndex) :
    ∃ P, P <+: rf'.fullLog ∧ P.length = rf'.commitIndex ∧
      CommittedBy LogEntry.term p' rf'.currTerm P := by
  obtain ⟨P, hP, hlen, hc⟩ := h.committed
  exact ⟨P, hP.trans hlog, hlen.trans hci.symm, hc.mono g hterm⟩

/-- The indices of a server that is not a leader, after a step that leaves them. -/
theorem SafeRel.of_same_indices (h : SafeRel p s rf) (g : Grows p p')
    (hlog : rf.fullLog <+: rf'.fullLog) (hterm : rf.currTerm ≤ rf'.currTerm)
    (hci : rf'.commitIndex = rf.commitIndex) (hla : rf'.lastApplied = rf.lastApplied)
    (hli : rf'.lastIncludedIndex = rf.lastIncludedIndex) (hstate : rf'.state ≠ Role.leader) :
    SafeRel p' s rf' where
  committed := h.committed_mono g hlog hterm hci
  included_le := by rw [hli, hla]; exact h.included_le
  applied_le := by rw [hla, hci]; exact h.applied_le
  matched hl := absurd hl hstate

/-- **Higher term.** -/
theorem ServerRel.seeTerm (hinv : p.Inv LogEntry.term) (h : ServerRel σ p s rf) (T : ℕ) :
    ∃ p', Step LogEntry.term σ s p p' ∧ ServerRel σ p' s (rf.seeTerm T) := by
  by_cases hT : rf.currTerm < T
  · have hT' : p.term s < T := by rw [h.raft.term]; exact hT
    have hs : Step LogEntry.term σ s p (p.raise s T) := Step.raise T hT'
    refine ⟨_, hs, ?_, fun hσ => ?_⟩
    · rw [Raft.seeTerm_of_lt hT]
      exact .of_follower rfl h.raft.me (h.raft.wf.congr rfl rfl rfl rfl) (Or.inl rfl)
        (Function.update_self _ _ _) h.raft.log (hinv.not_voted_of_lt hT')
    · refine (h.safe hσ).of_same_indices (hs.grows hinv) (by simp) (by simp) (by simp) (by simp)
        (by simp) ?_
      simp [Raft.seeTerm_of_lt hT, Raft.stepDown, Raft.persist]
  · rw [Raft.seeTerm_of_le (not_lt.1 hT)]
    exact ⟨p, Step.idle, h⟩

theorem ServerRel.follow (hinv : p.Inv LogEntry.term) (h : ServerRel σ p s rf) (T : ℕ) :
    ∃ p', Step LogEntry.term σ s p p' ∧ ServerRel σ p' s (rf.follow T) :=
  h.toFollower.seeTerm hinv T

/-- **Restart.** A server comes back as the follower its persister describes. -/
theorem ServerRel.restart (h : ServerRel σ p s rf) :
    ServerRel σ p s (Raft.make s rf.persister) := by
  have hmake := Raft.make_of_mirrored h.raft.mirrored
  rw [h.raft.me] at hmake
  rw [hmake]
  refine ⟨?_, fun hσ => ?_⟩
  · exact .of_follower rfl rfl (h.raft.wf.congr rfl rfl rfl rfl) h.raft.mirrored h.raft.term
      h.raft.log h.raft.voted
  · obtain ⟨P, hP, hlen, hc⟩ := (h.safe hσ).committed
    have hle : rf.lastIncludedIndex ≤ P.length :=
      hlen ▸ (h.safe hσ).included_le.trans (h.safe hσ).applied_le
    exact
      { committed := ⟨P.take rf.lastIncludedIndex, (List.take_prefix _ _).trans hP,
          List.length_take_of_le hle, hc.of_isPrefix (List.take_prefix _ _)⟩
        included_le := le_rfl
        applied_le := le_rfl
        matched := fun hl => absurd hl (by simp) }

/-- **Snapshot.** The service may compact what it was handed. -/
theorem ServerRel.snapshot {index : ℕ} {data : List UInt8} (h : ServerRel σ p s rf)
    (hpromise : σ → index ≤ rf.lastApplied) (hsnap : rf.snapshot index data = some rf') :
    ServerRel σ p s rf' := by
  rcases Raft.snapshot_spec h.raft.wf hsnap with
    rfl | ⟨_, _, hwf, hmir, hfull, ps, logs, lit, _, rfl⟩
  · exact h
  · refine ⟨?_, fun hσ => ?_⟩
    · exact
        { me := h.raft.me
          wf := hwf
          mirrored := hmir
          term := h.raft.term
          log := h.raft.log.trans hfull.symm
          voted := h.raft.voted
          cand := fun hc => by rw [hfull]; exact h.raft.cand hc
          lead := fun hl => by rw [hfull]; exact h.raft.lead hl }
    · have happlied : max index rf.lastApplied = rf.lastApplied := max_eq_right (hpromise hσ)
      exact
        { committed := by rw [hfull]; exact (h.safe hσ).committed
          included_le := le_max_left _ _
          applied_le := happlied.le.trans (h.safe hσ).applied_le
          matched := (h.safe hσ).matched }

/-! ## Elections -/

/-- **Vote.** -/
theorem ServerRel.requestVote {args : RequestVoteArgs n} {reply : RequestVoteReply}
    {C : List (LogEntry κ)} (hinv : p.Inv LogEntry.term) (h : ServerRel σ p s rf)
    (hC : p.candLog args.candidateId args.term = some C) (hidx : args.lastLogIndex = C.length)
    (hterm : args.lastLogTerm = lastTerm LogEntry.term C)
    (hrv : rf.requestVote args = some (rf', reply)) :
    ∃ p', Step LogEntry.term σ s p p' ∧ ServerRel σ p' s rf' ∧
      (reply.voteGranted = true → p'.voted s args.term = some args.candidateId) := by
  rcases Raft.requestVote_spec h.raft.wf hrv with ⟨rfl, hno⟩ | ⟨hge, hfree, hup, rfl⟩
  · obtain ⟨p', hs, h'⟩ := h.seeTerm hinv args.term
    exact ⟨p', hs, h', fun hyes => absurd hyes (by simp [hno])⟩
  · -- the vote is free in the history too
    have hfree' : p.voted s args.term = none ∨ p.voted s args.term = some args.candidateId := by
      rcases Nat.lt_or_eq_of_le hge with hlt | heq
      · exact Or.inl (hinv.not_voted_of_lt (by rw [h.raft.term]; exact hlt))
      · rw [Raft.seeTerm_of_le heq.ge] at hfree
        rw [← heq, h.raft.voted]
        exact hfree
    have hs : Step LogEntry.term σ s p (p.grant s args.candidateId args.term) := by
      refine Step.grant _ _ C (by rw [h.raft.term]; exact hge) hfree' hC ?_
      rw [h.raft.log, UpToDate, ← hterm, ← hidx]
      exact hup
    have hcurr : (rf.seeTerm args.term).currTerm = args.term := by simp [hge]
    refine ⟨_, hs, ⟨?_, fun hσ => ?_⟩, fun _ => record_self _ _ _ _⟩
    · refine .of_follower rfl ((Raft.seeTerm_me _ _).trans h.raft.me)
        ((h.raft.wf.seeTerm args.term).congr rfl rfl rfl rfl) (Or.inl rfl)
        ((Function.update_self _ _ _).trans hcurr.symm)
        (h.raft.log.trans (Raft.seeTerm_fullLog _ _).symm) ?_
      change (p.grant s args.candidateId args.term).voted s (rf.seeTerm args.term).currTerm =
        some args.candidateId
      rw [hcurr]
      exact record_self _ _ _ _
    · refine (h.safe hσ).of_same_indices (hs.grows hinv) ?_ ?_ (Raft.seeTerm_commitIndex _ _)
        (Raft.seeTerm_lastApplied _ _) (Raft.seeTerm_lastIncludedIndex _ _) (by simp)
      · exact (Raft.seeTerm_fullLog rf args.term).symm ▸ List.prefix_rfl
      · exact hge.trans hcurr.ge

/-- **Candidacy.** -/
theorem ServerRel.startElection {args : RequestVoteArgs n} (hinv : p.Inv LogEntry.term)
    (h : ServerRel σ p s rf) (hse : rf.startElection = some (rf', args)) :
    Step LogEntry.term σ s p (p.campaign s) ∧ ServerRel σ (p.campaign s) s rf' ∧
      rf'.currTerm = rf.currTerm + 1 ∧ rf'.state = Role.candidate ∧
      args.candidateId = s ∧ args.term = rf.currTerm + 1 ∧
      (p.campaign s).candLog s args.term = some rf.fullLog ∧
      args.lastLogIndex = rf.fullLog.length ∧
      args.lastLogTerm = lastTerm LogEntry.term rf.fullLog := by
  obtain ⟨rfl, rfl⟩ := Raft.startElection_spec h.raft.wf hse
  have hs : Step LogEntry.term σ s p (p.campaign s) := Step.campaign
  have hcand : (p.campaign s).candLog s (rf.currTerm + 1) = some rf.fullLog := by
    rw [← h.raft.term, ← h.raft.log]
    exact record_self _ _ _ _
  refine ⟨hs, ⟨?_, fun hσ => ?_⟩, rfl, rfl, h.raft.me, rfl, hcand, rfl, rfl⟩
  · exact
      { me := h.raft.me
        wf := h.raft.wf.congr rfl rfl rfl rfl
        mirrored := Or.inl rfl
        term := by
          change Function.update p.term s (p.term s + 1) s = rf.currTerm + 1
          rw [Function.update_self, h.raft.term]
        log := h.raft.log
        voted := by
          change record p.voted s (p.term s + 1) (some s) s (rf.currTerm + 1) = some rf.me
          rw [h.raft.term, record_self, h.raft.me]
        cand := fun _ => ⟨hcand, fun hl => by
          -- nobody leads a term before it has entered it
          have hle : rf.currTerm + 1 ≤ p.term s := hinv.leader_term_le hl
          rw [h.raft.term] at hle
          exact absurd hle (by omega)⟩
        lead := fun hl => absurd hl (by simp [Raft.persist]) }
  · exact (h.safe hσ).of_same_indices (hs.grows hinv) List.prefix_rfl (Nat.le_succ _) rfl rfl rfl
      (by simp [Raft.persist])

/-- **Leadership.** The votes of a majority make a candidate the leader of its term. -/
theorem ServerRel.lead {Q : Finset (Fin n)} (h : ServerRel σ p s rf) (next : Fin n → ℕ)
    (hinv : p.Inv LogEntry.term) (hcand : rf.state = Role.candidate) (hQ : Majority Q)
    (hvotes : ∀ w ∈ Q, p.voted w rf.currTerm = some s)
    (hclean : σ → ∀ peer, peer ≠ s → rf.matchIndex peer ≤ rf.commitIndex) :
    ∃ p', Step LogEntry.term σ s p p' ∧
      ServerRel σ p' s { rf with state := Role.leader, nextIndex := next } := by
  obtain ⟨hC, hne⟩ := h.raft.cand hcand
  have hs : Step LogEntry.term σ s p (p.elect s) := by
    refine Step.elect Q hQ ?_ ?_ ?_
    · rw [h.raft.term]
      exact hvotes
    · rw [h.raft.term, h.raft.log]
      exact hC
    · rw [h.raft.term]
      exact hinv.elect_free hQ hvotes hne
  refine ⟨_, hs, ?_, fun hσ => ?_⟩
  · exact
      { me := h.raft.me
        wf := h.raft.wf.congr rfl rfl rfl rfl
        mirrored := h.raft.mirrored
        term := h.raft.term
        log := h.raft.log
        voted := h.raft.voted
        cand := fun hc => absurd hc (by simp)
        lead := fun _ => by
          change Function.update p.leader (p.term s) (some s) rf.currTerm = some s ∧
            Function.update p.leaderLog (p.term s) (p.log s) rf.currTerm = rf.fullLog
          rw [h.raft.term, Function.update_self, Function.update_self]
          exact ⟨rfl, h.raft.log⟩ }
  · exact
      { committed := (h.safe hσ).committed_mono (hs.grows hinv) List.prefix_rfl le_rfl rfl
        included_le := (h.safe hσ).included_le
        applied_le := (h.safe hσ).applied_le
        matched := fun _ peer hne => Or.inr (hclean hσ peer hne) }

/-! ## The leader's log -/

/-- **Start.** -/
theorem ServerRel.start (hinv : p.Inv LogEntry.term) (h : ServerRel σ p s rf)
    (command : Option κ) :
    ∃ p', Step LogEntry.term σ s p p' ∧ ServerRel σ p' s (rf.start command).1 := by
  by_cases hlead : rf.state = Role.leader
  · obtain ⟨hl, hlog⟩ := h.raft.lead hlead
    have hfull := Raft.start_fullLog h.raft.wf hlead command
    have hwf := h.raft.wf.start hlead command
    have hs : Step LogEntry.term σ s p
        (p.append s { term := rf.currTerm, command := command }) := by
      refine Step.append _ ?_ ?_ h.raft.term.symm
      · rw [h.raft.term]
        exact hl
      · rw [h.raft.term, h.raft.log]
        exact hlog
    rw [Raft.start_of_leader hlead] at hfull hwf ⊢
    refine ⟨_, hs, ?_, fun hσ => ?_⟩
    · exact
        { me := h.raft.me
          wf := hwf
          mirrored := Or.inl rfl
          term := h.raft.term
          log := by
            rw [hfull, ← h.raft.log]
            exact Function.update_self _ _ _
          voted := h.raft.voted
          cand := fun hc => absurd (hc.symm.trans hlead) (by simp)
          lead := fun _ => by
            refine ⟨hl, ?_⟩
            change Function.update p.leaderLog (p.term s) _ rf.currTerm = _
            rw [h.raft.term, Function.update_self, hfull, h.raft.log] }
    · exact
        { committed := (h.safe hσ).committed_mono (hs.grows hinv)
            (by rw [hfull]; exact List.prefix_append _ _) le_rfl rfl
          included_le := (h.safe hσ).included_le
          applied_le := (h.safe hσ).applied_le
          matched := fun hl peer hne => ((h.safe hσ).matched hl peer hne).imp_left
            (fun hle => hle.trans ((hs.grows hinv).acked _ _)) }
  · exact ⟨p, Step.idle, by simpa [Raft.start, hlead] using h⟩

/-! ## Taking over a log -/

/-- The log `M` may be shipped in term `T`. -/
structure Shipped (σ : Prop) (p : Hist n κ) (T : ℕ) (M : List (LogEntry κ)) : Prop where
  backed : Backed LogEntry.term p M
  term_le : ∀ e ∈ M, e.term ≤ T
  ofLeader : σ → (p.leader T).isSome ∧ M <+: p.leaderLog T

theorem Shipped.mono {T : ℕ} {M : List (LogEntry κ)} (g : Grows p p') (h : Shipped σ p T M) :
    Shipped σ p' T M where
  backed := h.backed.mono g
  term_le := h.term_le
  ofLeader hσ :=
    ⟨g.leader_isSome (h.ofLeader hσ).1,
      (h.ofLeader hσ).2.trans (g.leaderLog T (h.ofLeader hσ).1)⟩

theorem Shipped.of_isPrefix {T : ℕ} {M M' : List (LogEntry κ)} (h : Shipped σ p T M)
    (hM : M' <+: M) : Shipped σ p T M' where
  backed := h.backed.of_isPrefix hM
  term_le e he := h.term_le e (hM.subset he)
  ofLeader hσ := ⟨(h.ofLeader hσ).1, hM.trans (h.ofLeader hσ).2⟩

/-- A server ships its own log; with `σ` it has to be the leader. -/
theorem ServerRel.shipped (hinv : p.Inv LogEntry.term) (h : ServerRel σ p s rf)
    (hlead : σ → rf.state = Role.leader) : Shipped σ p rf.currTerm rf.fullLog where
  backed := h.raft.log ▸ (hinv.logs s).1
  term_le := by
    rw [← h.raft.term, ← h.raft.log]
    exact (hinv.logs s).2
  ofLeader hσ := by
    obtain ⟨hl, hlog⟩ := h.raft.lead (hlead hσ)
    rw [hl, hlog]
    exact ⟨rfl, List.prefix_rfl⟩

/-- **Merge.** A server that merges a shipped log takes it over in the protocol. What it then
    counts as committed is what it counted before or a committed prefix of the shipped log. -/
theorem ServerRel.merge {T : ℕ} {M : List (LogEntry κ)} (hinv : p.Inv LogEntry.term)
    (hkept : σ → p.Kept LogEntry.term) (h : ServerRel σ p s rf) (hM : Shipped σ p T M)
    (hge : rf.currTerm ≤ T) (hm : Raft.Merged rf rf' T M)
    (hcommit : σ → rf'.commitIndex = rf.commitIndex ∨
      ∃ P, P <+: M ∧ P.length = rf'.commitIndex ∧ CommittedBy LogEntry.term p T P)
    (hidx : σ → rf'.lastIncludedIndex ≤ rf'.lastApplied ∧ rf'.lastApplied ≤ rf'.commitIndex) :
    Step LogEntry.term σ s p (p.receive s T M) ∧ ServerRel σ (p.receive s T M) s rf' ∧
      M.length ≤ (p.receive s T M).acked s T := by
  have hs : Step LogEntry.term σ s p (p.receive s T M) :=
    Step.receive T M (by rw [h.raft.term]; exact hge) hM.backed hM.term_le hM.ofLeader
  refine ⟨hs, ⟨?_, fun hσ => ?_⟩, ?_⟩
  · refine .of_follower hm.state (hm.me.trans h.raft.me) hm.wf hm.mirrored
      ((Function.update_self _ _ _).trans hm.currTerm.symm) ?_ ?_
    · rw [hm.fullLog, ← h.raft.log]
      exact Function.update_self _ _ _
    · rw [hm.currTerm, hm.votedFor, Raft.follow_votedFor]
      change p.voted s T = _
      split
      · next hlt => exact hinv.not_voted_of_lt (by rw [h.raft.term]; exact hlt)
      · next hle => rw [le_antisymm (not_lt.1 hle) hge, h.raft.voted]
  · refine
      { committed := ?_
        included_le := (hidx hσ).1
        applied_le := (hidx hσ).2
        matched := fun hl => absurd (hl.symm.trans hm.state) (by simp) }
    obtain ⟨hl, hML⟩ := hM.ofLeader hσ
    have g := hs.grows hinv
    rw [hm.fullLog, hm.currTerm]
    rcases hcommit hσ with hsame | ⟨P, hPM, hlen, hc⟩
    · obtain ⟨P, hP, hlen, hc⟩ := (h.safe hσ).committed
      have hcT : CommittedBy LogEntry.term p T P := hc.mono (Grows.refl p) hge
      exact ⟨P, hcT.prefix_merge hinv (hkept hσ) hl hML hP, hlen.trans hsame.symm,
        hcT.mono g le_rfl⟩
    · exact ⟨P, hPM.trans (prefix_merge _ _), hlen, hc.mono g le_rfl⟩
  · change M.length ≤ p.ack s T M.length s T
    rw [p.ack_self]
    exact le_max_right _ _

/-- **AppendEntries**, with the log `M` the request carries. -/
theorem ServerRel.appendEntries {args : AppendEntriesArgs n κ} {reply : AppendEntriesReply}
    {M : List (LogEntry κ)} (hinv : p.Inv LogEntry.term) (hkept : σ → p.Kept LogEntry.term)
    (h : ServerRel σ p s rf) (hM : Shipped σ p args.term M)
    (hprev : args.prevLogIndex ≤ M.length)
    (hterm : args.prevLogTerm = lastTerm LogEntry.term (M.take args.prevLogIndex))
    (hent : args.entries = M.drop args.prevLogIndex)
    (hcommit : σ → ∃ P, P <+: M ∧ P.length = args.leaderCommit ∧
      CommittedBy LogEntry.term p args.term P)
    (hae : rf.appendEntries args = some (rf', reply)) :
    ∃ p', Step LogEntry.term σ s p p' ∧ ServerRel σ p' s rf' ∧
      (reply.success = true → args.prevLogIndex + args.entries.length ≤ p'.acked s args.term) := by
  have hL : Backed LogEntry.term p rf.fullLog := h.raft.log ▸ (hinv.logs s).1
  rcases Raft.appendEntries_spec h.raft.wf hL hM.backed hprev hterm hent hae with
    ⟨_, rfl, hno⟩ | ⟨_, rfl, hno⟩ | ⟨hge, hm, hli, hla, hci⟩
  · exact ⟨p, Step.idle, h, fun hyes => absurd hyes (by simp [hno])⟩
  · obtain ⟨p', hs, h'⟩ := h.follow hinv args.term
    exact ⟨p', hs, h', fun hyes => absurd hyes (by simp [hno])⟩
  · -- the follower's cap does nothing: what is committed is a prefix of the shipped log
    have hcap : σ → args.leaderCommit ≤ rf'.fullLog.length := fun hσ => by
      obtain ⟨P, hP, hlen, _⟩ := hcommit hσ
      rw [← hlen, hm.fullLog]
      exact (hP.trans (prefix_merge _ _)).length_le
    have hnew : σ → rf'.commitIndex = rf.commitIndex ∨ rf'.commitIndex = args.leaderCommit ∧
        rf.commitIndex < args.leaderCommit := fun hσ => by
      split at hci
      · next hlt => exact Or.inr ⟨hci.trans (min_eq_left (hcap hσ)), hlt⟩
      · exact Or.inl hci
    obtain ⟨hs, h', hack⟩ := h.merge hinv hkept hM hge hm
      (fun hσ => (hnew hσ).imp_right (fun heq => by rw [heq.1]; exact hcommit hσ))
      (fun hσ => by
        have hold := h.safe hσ
        rw [hli, hla]
        refine ⟨hold.included_le, hold.applied_le.trans ?_⟩
        rcases hnew hσ with heq | ⟨heq, hlt⟩
        · exact heq.ge
        · exact heq ▸ hlt.le)
    refine ⟨_, hs, h', fun _ => ?_⟩
    rw [hent, List.length_drop]
    omega

/-- **InstallSnapshot**, with a snapshot that stands for a committed log. -/
theorem ServerRel.installSnapshot {args : InstallSnapshotArgs n κ} (hinv : p.Inv LogEntry.term)
    (hkept : σ → p.Kept LogEntry.term) (h : ServerRel σ p s rf)
    (hM : Shipped σ p args.term args.data.covers)
    (hlen : args.data.covers.length = args.lastIncludedIndex)
    (hterm : args.lastIncludedTerm = lastTerm LogEntry.term args.data.covers)
    (hcommit : σ → CommittedBy LogEntry.term p args.term args.data.covers) :
    ∃ p', Step LogEntry.term σ s p p' ∧ ServerRel σ p' s (rf.installSnapshot args).1 ∧
      (σ → (rf.installSnapshot args).2.1.term ≤ args.term →
        args.lastIncludedIndex ≤ p'.acked s args.term) := by
  have hL : Backed LogEntry.term p rf.fullLog := h.raft.log ▸ (hinv.logs s).1
  rcases Raft.installSnapshot_spec h.raft.wf hL hM.backed hlen hterm with
    ⟨hlt, heq⟩ | ⟨hge, hle, heq⟩ | ⟨hge, hlt, rf', heq, hm, hli, hci, hla⟩
  · rw [heq]
    exact ⟨p, Step.idle, h, fun _ hno => absurd hno (not_le.2 hlt)⟩
  · rw [heq]
    by_cases hσ : σ
    · -- the server has compacted all of it, so taking it over changes nothing
      have hpre : args.data.covers <+: rf.fullLog := by
        obtain ⟨P, hP, hPlen, hc⟩ := (h.safe hσ).committed
        have hshort : args.data.covers.length ≤ P.length := by
          have := (h.safe hσ).included_le
          have := (h.safe hσ).applied_le
          omega
        rcases (hcommit hσ).comparable hinv (hkept hσ) hc with hMP | hPM
        · exact hMP.trans hP
        · rw [← hPM.eq_of_length_le hshort]
          exact hP
      have hm : Raft.Merged rf (rf.follow args.term) args.term args.data.covers :=
        { me := Raft.follow_me _ _
          wf := h.raft.wf.follow _
          mirrored := h.raft.mirrored.follow _
          currTerm := by simp [hge]
          votedFor := rfl
          state := Raft.follow_state _ _
          fullLog := by rw [Raft.follow_fullLog, merge_of_isPrefix hpre] }
      obtain ⟨hs, h', hack⟩ := h.merge hinv hkept hM hge hm
        (fun _ => Or.inl (Raft.follow_commitIndex _ _))
        (fun hσ => by simpa using ⟨(h.safe hσ).included_le, (h.safe hσ).applied_le⟩)
      exact ⟨_, hs, h', fun _ _ => hlen ▸ hack⟩
    · obtain ⟨p', hs, h'⟩ := h.follow hinv args.term
      exact ⟨p', hs, h', fun hyes => absurd hyes hσ⟩
  · rw [heq]
    obtain ⟨hs, h', hack⟩ := h.merge hinv hkept hM hge hm
      (fun hσ => by
        rw [hci]
        rcases le_total args.lastIncludedIndex rf.commitIndex with hle | hle
        · exact Or.inl (max_eq_right hle)
        · exact Or.inr ⟨args.data.covers, List.prefix_rfl, hlen.trans (max_eq_left hle).symm,
            hcommit hσ⟩)
      (fun hσ => by
        rw [hli, hci, hla]
        exact ⟨le_max_left _ _, max_le_max le_rfl (h.safe hσ).applied_le⟩)
    exact ⟨_, hs, h', fun _ _ => hlen ▸ hack⟩

/-! ## Replies to a leader -/

/-- The volatile indices are invisible to the protocol. -/
theorem RaftRel.withIndices (h : RaftRel p s rf) (ci la : ℕ) (next m : Fin n → ℕ) :
    RaftRel p s
      { rf with commitIndex := ci, lastApplied := la, nextIndex := next, matchIndex := m } where
  me := h.me
  wf := h.wf.congr rfl rfl rfl rfl
  mirrored := h.mirrored
  term := h.term
  log := h.log
  voted := h.voted
  cand := h.cand
  lead := h.lead

theorem ServerRel.setNextIndex (h : ServerRel σ p s rf) (next : Fin n → ℕ) :
    ServerRel σ p s { rf with nextIndex := next } where
  raft := h.raft.withIndices _ _ _ _
  safe := fun hσ =>
    { committed := (h.safe hσ).committed
      included_le := (h.safe hσ).included_le
      applied_le := (h.safe hσ).applied_le
      matched := (h.safe hσ).matched }

/-- The servers `commitIndexUpdate` counts for index `N`. -/
def counted (rf : Raft n κ) (N : ℕ) : Finset (Fin n) :=
  insert rf.me (Finset.univ.filter (fun peer => peer ≠ rf.me ∧ rf.matchIndex peer ≥ N))

theorem card_counted (rf : Raft n κ) (N : ℕ) : (counted rf N).card = rf.matchCount N := by
  have hcount : (Finset.univ.filter (fun peer => peer ≠ rf.me ∧ rf.matchIndex peer ≥ N)).card =
      (List.finRange n).countP (fun peer => peer ≠ rf.me ∧ rf.matchIndex peer ≥ N) := by
    rw [List.countP_eq_length_filter, Fin.univ_def]
    rfl
  rw [counted, Finset.card_insert_of_notMem (by simp), hcount, Raft.matchCount, Nat.add_comm]

/-- What a leader's `matchIndex` counts above its `commitIndex` is acknowledged by a majority in
    its term. -/
theorem majority_acked (rf : Raft n κ) (hkept : p.Kept LogEntry.term) {N T ci : ℕ} (hme : rf.me = s)
    (hl : p.leader T = some s) (hN : N ≤ (p.leaderLog T).length) (hci : ci < N)
    (hmatched : ∀ peer, peer ≠ s → rf.matchIndex peer ≤ p.acked peer T ∨ rf.matchIndex peer ≤ ci)
    (hcount : n / 2 < rf.matchCount N) :
    Majority (counted rf N) ∧ ∀ v ∈ counted rf N, N ≤ p.acked v T := by
  refine ⟨?_, fun v hv => ?_⟩
  · rw [Majority, card_counted, Fintype.card_fin]
    omega
  · rcases Finset.mem_insert.1 hv with rfl | hpeer
    · rw [hme, hkept.own T s hl]
      exact hN
    · obtain ⟨hne, hge⟩ := (Finset.mem_filter.1 hpeer).2
      rcases hmatched v (hme ▸ hne) with hack | hold
      · exact le_trans hge hack
      · omega

/-- **Commitment.** A leader that counts an entry of its term at index `N` commits its log up to
    there. -/
theorem ServerRel.commit (hkept : p.Kept LogEntry.term) (h : RaftRel p s rf)
    (hlead : rf.state = Role.leader) {N ci : ℕ} {e : LogEntry κ} {m : Fin n → ℕ}
    (hli : rf.lastIncludedIndex < N) (hci : ci < N) (he : rf.entryAt N = some e)
    (het : e.term = rf.currTerm)
    (hmatched : ∀ peer, peer ≠ s → m peer ≤ p.acked peer rf.currTerm ∨ m peer ≤ ci)
    (hcount : n / 2 < ({ rf with matchIndex := m } : Raft n κ).matchCount N) :
    N ≤ rf.fullLog.length ∧ CommittedIn LogEntry.term p rf.currTerm (rf.fullLog.take N) := by
  obtain ⟨hl, hlog⟩ := h.lead hlead
  rw [h.wf.entryAt_of_lt hli] at he
  obtain ⟨hlt, hget⟩ := List.getElem?_eq_some_iff.1 he
  have hN : N ≤ rf.fullLog.length := by omega
  have htake : rf.fullLog.take N = rf.fullLog.take (N - 1) ++ [e] := by
    rw [← hget, ← List.take_succ_eq_append_getElem hlt, Nat.sub_add_cancel (by omega)]
  obtain ⟨hQ, hack⟩ := majority_acked { rf with matchIndex := m } hkept h.me hl
    (by rw [hlog]; exact hN) hci hmatched hcount
  refine ⟨hN, by rw [hl]; rfl, rf.fullLog.take (N - 1), e, ?_, het, ⟨_, hQ, ?_⟩, ?_⟩
  · rw [← htake, hlog]
    exact List.take_prefix _ _
  · rw [← htake, List.length_take_of_le hN]
    exact hack
  · rw [htake]

/-- An acknowledgement earned in the leader's term may be recorded in `matchIndex`. -/
theorem SafeRel.matched_update {k : ℕ} (h : SafeRel p s rf) (peer : Fin n)
    (hlead : rf.state = Role.leader) (hk : k ≤ p.acked peer rf.currTerm) (q : Fin n) (hq : q ≠ s) :
    Function.update rf.matchIndex peer (max k (rf.matchIndex peer)) q ≤
        p.acked q rf.currTerm ∨
      Function.update rf.matchIndex peer (max k (rf.matchIndex peer)) q ≤ rf.commitIndex := by
  by_cases hqp : q = peer
  · subst hqp
    rw [Function.update_self]
    rcases h.matched hlead q hq with hack | hold
    · exact Or.inl (max_le hk hack)
    · rcases le_total k (rf.matchIndex q) with hle | hle
      · rw [max_eq_right hle]
        exact Or.inr hold
      · rw [max_eq_left hle]
        exact Or.inl hk
  · rw [Function.update_of_ne hqp]
    exact h.matched hlead q hq

/-- **Reply to AppendEntries.** -/
theorem ServerRel.appendEntriesReply {peer : Fin n} {args : AppendEntriesArgs n κ}
    {reply : AppendEntriesReply} {lagging : Bool} (hinv : p.Inv LogEntry.term)
    (hkept : σ → p.Kept LogEntry.term) (h : ServerRel σ p s rf)
    (hack : σ → reply.success = true →
      args.prevLogIndex + args.entries.length ≤ p.acked peer args.term)
    (hr : rf.appendEntriesReply peer args reply = some (rf', lagging)) :
    ∃ p', Step LogEntry.term σ s p p' ∧ ServerRel σ p' s rf' := by
  rcases Raft.appendEntriesReply_spec hr with
    ⟨_, hlt, rfl, _⟩ | ⟨next, rfl, _⟩ | ⟨hlead, hterm, hsucc, _, next, ci, rfl, hci⟩
  · rw [← Raft.seeTerm_of_lt hlt]
    exact h.seeTerm hinv reply.term
  · exact ⟨p, Step.idle, h.setNextIndex next⟩
  · refine ⟨p, Step.idle, ?_, fun hσ => ?_⟩
    · exact h.raft.withIndices _ _ _ _
    · have hsafe := h.safe hσ
      have hmatched := hsafe.matched_update peer hlead
        (k := args.prevLogIndex + args.entries.length) (by rw [hterm]; exact hack hσ hsucc)
      rcases hci with rfl | ⟨e, hlt, he, het, hcount⟩
      · exact
          { committed := hsafe.committed
            included_le := hsafe.included_le
            applied_le := hsafe.applied_le
            matched := fun _ => hmatched }
      · have hli : rf.lastIncludedIndex < ci :=
          (hsafe.included_le.trans hsafe.applied_le).trans_lt hlt
        obtain ⟨hN, hc⟩ := ServerRel.commit (hkept hσ) h.raft hlead hli hlt he het hmatched hcount
        exact
          { committed := ⟨rf.fullLog.take ci, List.take_prefix _ _, List.length_take_of_le hN,
              Or.inr ⟨rf.currTerm, le_rfl, hc⟩⟩
            included_le := hsafe.included_le
            applied_le := hsafe.applied_le.trans hlt.le
            matched := fun _ q hq => (hmatched q hq).imp_right (fun hle => hle.trans hlt.le) }

/-- **Reply to InstallSnapshot.** -/
theorem ServerRel.installSnapshotReply {peer : Fin n} {args : InstallSnapshotArgs n κ}
    {reply : InstallSnapshotReply} (hinv : p.Inv LogEntry.term) (h : ServerRel σ p s rf)
    (hack : σ → reply.term ≤ args.term → args.lastIncludedIndex ≤ p.acked peer args.term) :
    ∃ p', Step LogEntry.term σ s p p' ∧
      ServerRel σ p' s (rf.installSnapshotReply peer args reply) := by
  rcases Raft.installSnapshotReply_cases rf peer args reply with
    ⟨hlt, heq⟩ | heq | ⟨hlead, hterm, hle, next, heq⟩
  · rw [heq, ← Raft.seeTerm_of_lt hlt]
    exact h.seeTerm hinv reply.term
  · rw [heq]
    exact ⟨p, Step.idle, h⟩
  · rw [heq]
    refine ⟨p, Step.idle, ?_, fun hσ => ?_⟩
    · exact h.raft.withIndices _ _ _ _
    · have hsafe := h.safe hσ
      exact
        { committed := hsafe.committed
          included_le := hsafe.included_le
          applied_le := hsafe.applied_le
          matched := fun _ => hsafe.matched_update peer hlead
            (by rw [hterm]; exact hack hσ (hterm ▸ hle)) }

end AiFS
