import AiFS.Lib.TermLogInv

set_option autoImplicit false

/-! # Replicated logs with one leader a term: what is acknowledged by a majority stays

The results of this module need that only prefixes of a term's leader log are shipped in that term
(the parameter `σ` of `Step`). `Proto.Kept` is the invariant of such runs. Its core is `Remembers`:
whatever prefix of a leader log a server has acknowledged is still in its log, *unless* a leader of
a later term started without it. That statement mentions neither quorums nor commitment, so every
step keeps it for a local reason; leader completeness then follows from it for the whole history at
once, by induction on the term (`leader_completeness`). -/

namespace TermLog

variable {S E : Type} {τ : E → ℕ} {p p' : Proto S E}

/-! ## Acknowledged prefixes -/

/-- Between the terms `t` and `T` (both exclusive) some leader started without the prefix `P`. -/
def Superseded (p : Proto S E) (P : List E) (t T : ℕ) : Prop :=
  ∃ u, t < u ∧ u < T ∧ (p.leader u).isSome ∧ ¬ P <+: p.initLog u

/-- The log `L` still holds every prefix that `v` acknowledged in a term below `T`, except those
    that a later leader (below `T`) started without. -/
def Remembers (p : Proto S E) (v : S) (L : List E) (T : ℕ) : Prop :=
  ∀ t P, t < T → P <+: p.leaderLog t → P.length ≤ p.acked v t → P <+: L ∨ Superseded p P t T

/-- What a vote of `v` for `c` in term `T` stands for: the candidate's log was up to date with a log
    that remembers all that `v` had acknowledged. -/
def VoteOK (τ : E → ℕ) (p : Proto S E) (v : S) (T : ℕ) (c : S) : Prop :=
  ∃ C L, p.candLog c T = some C ∧ Backed τ p L ∧ UpToDate τ C L ∧ Remembers p v L T

theorem Superseded.mono {P : List E} {t T T' : ℕ} (g : Grows p p') (hT : T ≤ T')
    (h : Superseded p P t T) : Superseded p' P t T' := by
  obtain ⟨u, htu, huT, hl, hP⟩ := h
  exact ⟨u, htu, huT.trans_le hT, g.leader_isSome hl, by rwa [g.initLog u hl]⟩

/-- The invariant of the runs in which only the leader of a term speaks for it. -/
structure Proto.Kept [Fintype S] (τ : E → ℕ) (p : Proto S E) : Prop where
  acks : ∀ v t, 0 < p.acked v t →
    (p.leader t).isSome ∧ t ≤ p.term v ∧ p.acked v t ≤ (p.leaderLog t).length
  own : ∀ T c, p.leader T = some c → p.acked c T = (p.leaderLog T).length
  remembers : ∀ v, Remembers p v (p.log v) (p.term v + 1)
  votes : ∀ v T c, p.voted v T = some c → (p.leader T).isSome ∨ VoteOK τ p v T c
  wins : ∀ T c, p.leader T = some c →
    ∃ Q : Finset S, Majority Q ∧ ∀ v ∈ Q, p.voted v T = some c ∧ VoteOK τ p v T c

variable [Fintype S]

theorem kept_init : (Proto.init S E).Kept τ where
  acks v t h := by simp [Proto.init] at h
  own T c h := by simp [Proto.init] at h
  remembers v t P _ hP _ := by
    have hnil : P = [] := by simpa [Proto.init] using hP
    subst hnil
    exact Or.inl List.nil_prefix
  votes v T c h := by simp [Proto.init] at h
  wins T c h := by simp [Proto.init] at h

/-- A nonempty prefix that is within what `v` acknowledged was acknowledged by `v`, in a term it
    has entered and that has a leader. -/
theorem Proto.Kept.acked_isPrefix (k : p.Kept τ) {v : S} {t : ℕ} {P : List E} (hne : P ≠ [])
    (hlen : P.length ≤ p.acked v t) :
    (p.leader t).isSome ∧ t ≤ p.term v ∧ P.length ≤ (p.leaderLog t).length := by
  have hpos : 0 < p.acked v t := (List.length_pos_of_ne_nil hne).trans_le hlen
  obtain ⟨hl, ht, hle⟩ := k.acks v t hpos
  exact ⟨hl, ht, hlen.trans hle⟩

/-- Remembering survives a step that does not touch the acknowledgements below `T`. -/
theorem Remembers.mono (k : p.Kept τ) (g : Grows p p') {v : S} {L L' : List E} {T : ℕ}
    (hacks : ∀ t, t < T → p'.acked v t = p.acked v t) (hL : L <+: L') (h : Remembers p v L T) :
    Remembers p' v L' T := by
  intro t P htT hP hlen
  by_cases hne : P = []
  · subst hne
    exact Or.inl List.nil_prefix
  · rw [hacks t htT] at hlen
    obtain ⟨hl, _, hle⟩ := k.acked_isPrefix hne hlen
    have hP' : P <+: p.leaderLog t := List.prefix_of_prefix_length_le hP (g.leaderLog t hl) hle
    exact (h t P htT hP' hlen).imp (fun hPL => hPL.trans hL) (fun hs => hs.mono g le_rfl)

/-- A server that has not acknowledged anything from term `T` on remembers up to any later term. -/
theorem Remembers.extend (k : p.Kept τ) {v : S} {L : List E} {T T' : ℕ} (hT : p.term v < T)
    (hTT : T ≤ T') (h : Remembers p v L T) : Remembers p v L T' := by
  intro t P _ hP hlen
  by_cases hne : P = []
  · subst hne
    exact Or.inl List.nil_prefix
  · have ht := (k.acked_isPrefix hne hlen).2.1
    exact (h t P (by omega) hP hlen).imp id (fun hs => hs.mono (Grows.refl p) hTT)

/-- A server remembers into any later term, as long as it acknowledges nothing there. -/
theorem Proto.Kept.remembers_upTo (k : p.Kept τ) {w : S} {T : ℕ} (hT : p.term w ≤ T) :
    Remembers p w (p.log w) (T + 1) :=
  (k.remembers w).extend k (Nat.lt_succ_self _) (Nat.succ_le_succ hT)

/-- Nothing is acknowledged in a term without a leader. -/
theorem Proto.Kept.acked_eq_zero (k : p.Kept τ) {T : ℕ} (hfree : p.leader T = none) (w : S) :
    p.acked w T = 0 := by
  by_contra hne
  have hl := (k.acks w T (Nat.pos_of_ne_zero hne)).1
  rw [hfree] at hl
  exact absurd hl (by simp)

theorem Proto.Kept.acked_le (k : p.Kept τ) (w : S) (T : ℕ) :
    p.acked w T ≤ (p.leaderLog T).length := by
  rcases Nat.eq_zero_or_pos (p.acked w T) with hz | hpos
  · omega
  · exact (k.acks w T hpos).2.2

theorem VoteOK.mono (k : p.Kept τ) (g : Grows p p') {v c : S} {T : ℕ}
    (hacks : ∀ t, t < T → p'.acked v t = p.acked v t) (h : VoteOK τ p v T c) :
    VoteOK τ p' v T c := by
  obtain ⟨C, L, hC, hb, hup, hr⟩ := h
  exact ⟨C, L, g.candLog c T C hC, hb.mono g, hup, hr.mono k g hacks List.prefix_rfl⟩

/-! ## Steps keep it -/

/-- **Frame rule.** A step keeps the invariant if it does so for what it adds: the new
    acknowledgements, the logs that change, the new votes and the new leaders. -/
theorem Proto.Kept.of_grows (h : p.Inv τ) (k : p.Kept τ) (g : Grows p p')
    (hfrozen : ∀ v t, t < p.term v → p'.acked v t = p.acked v t)
    (hacks : ∀ v t, p'.acked v t = p.acked v t ∨
      ((p'.leader t).isSome ∧ t ≤ p'.term v ∧ p'.acked v t ≤ (p'.leaderLog t).length))
    (hown : ∀ T c, p'.leader T = some c → p'.acked c T = (p'.leaderLog T).length)
    (hrem : ∀ v, Remembers p' v (p'.log v) (p'.term v + 1))
    (hvotes : ∀ v T c, p'.voted v T = some c →
      p.voted v T = some c ∨ (p'.leader T).isSome ∨ VoteOK τ p' v T c)
    (hwins : ∀ T c, p'.leader T = some c → p.leader T = some c ∨
      ∃ Q : Finset S, Majority Q ∧ ∀ v ∈ Q, p.voted v T = some c ∧ VoteOK τ p v T c) :
    p'.Kept τ where
  acks v t hpos := by
    rcases hacks v t with heq | hnew
    · rw [heq] at hpos ⊢
      obtain ⟨hl, ht, hle⟩ := k.acks v t hpos
      exact ⟨g.leader_isSome hl, ht.trans (g.term v), hle.trans (g.leaderLog t hl).length_le⟩
    · exact hnew
  own := hown
  remembers := hrem
  votes v T c hv := by
    rcases hvotes v T c hv with hold | hnew
    · refine (k.votes v T c hold).imp (fun hl => g.leader_isSome hl) (fun hok => ?_)
      exact hok.mono k g (fun t ht => hfrozen v t (ht.trans_le (h.votes v T c hold).1))
    · exact hnew
  wins T c hl := by
    have hQ : ∃ Q : Finset S, Majority Q ∧ ∀ v ∈ Q, p.voted v T = some c ∧ VoteOK τ p v T c :=
      (hwins T c hl).elim (k.wins T c) id
    obtain ⟨Q, hQ, hv⟩ := hQ
    refine ⟨Q, hQ, fun v hvQ => ?_⟩
    obtain ⟨hvote, hok⟩ := hv v hvQ
    exact ⟨g.voted v T c hvote,
      hok.mono k g (fun t ht => hfrozen v t (ht.trans_le (h.votes v T c hvote).1))⟩

section Steps

variable [DecidableEq S] {σ : Prop} {v : S}

/-- Acknowledgements of a term a server has left are final. -/
theorem Step.acked_frozen (hs : Step τ σ v p p') {w : S} {t : ℕ} (ht : t < p.term w) :
    p'.acked w t = p.acked w t := by
  cases hs with
  | idle => rfl
  | raise => rfl
  | campaign => rfl
  | grant => rfl
  | elect => exact p.ack_of_ne _ (by rintro ⟨rfl, rfl⟩; exact lt_irrefl _ ht)
  | append => exact p.ack_of_ne _ (by rintro ⟨rfl, rfl⟩; exact lt_irrefl _ ht)
  | receive T M hT => exact p.ack_of_ne _ (by rintro ⟨rfl, rfl⟩; omega)

/-- Taking over a prefix of the log of the leader of `T` keeps all that was acknowledged, except
    what that leader itself started without. -/
theorem Remembers.receive (h : p.Inv τ) (k : p.Kept τ) {v : S} {T : ℕ} {M : List E}
    (g : Grows p (p.receive v T M)) (hT : p.term v ≤ T) (hl : (p.leader T).isSome)
    (hM : M <+: p.leaderLog T) : Remembers (p.receive v T M) v (merge (p.log v) M) (T + 1) := by
  intro t P htT hP hlen
  change P <+: p.leaderLog t at hP
  by_cases hnew : t = T ∧ P.length ≤ M.length
  · -- acknowledged by this very step
    obtain ⟨rfl, hle⟩ := hnew
    exact Or.inl ((List.prefix_of_prefix_length_le hP hM hle).trans (prefix_merge _ M))
  · have hold : P.length ≤ p.acked v t := by
      change P.length ≤ p.ack v T M.length v t at hlen
      by_cases ht : t = T
      · subst ht
        rw [p.ack_self] at hlen
        have := fun hle => hnew ⟨rfl, hle⟩
        omega
      · rwa [p.ack_of_ne _ (fun hh => ht hh.2)] at hlen
    by_cases hne : P = []
    · subst hne
      exact Or.inl List.nil_prefix
    · have ht := (k.acked_isPrefix hne hold).2.1
      rcases k.remembers v t P (by omega) hP hold with hPL | hsup
      · by_cases hML : M <+: p.log v
        · rw [merge_of_isPrefix hML]
          exact Or.inl hPL
        · rw [merge_of_not_isPrefix hML]
          -- `P` and `M` are comparable as soon as `P` is in the log of the leader of `T`
          have hcmp : P <+: p.leaderLog T → P <+: M := by
            intro hPT
            rcases List.prefix_or_prefix_of_prefix hPT hM with hPM | hMP
            · exact hPM
            · exact absurd (hMP.trans hPL) hML
          by_cases hinit : P <+: p.initLog T
          · obtain ⟨c, hc⟩ := Option.isSome_iff_exists.1 hl
            exact Or.inl (hcmp (hinit.trans (h.leaders T c hc).init))
          · rcases Nat.lt_or_eq_of_le (Nat.lt_succ_iff.1 htT) with hlt | heq
            · exact Or.inr ⟨T, hlt, Nat.lt_succ_self T, hl, hinit⟩
            · subst heq
              exact Or.inl (hcmp hP)
      · exact Or.inr (hsup.mono g (by omega))

/-- A step that acknowledges nothing, appends nothing and elects nobody keeps the invariant if its
    votes are sound. -/
theorem Proto.Kept.of_votes (h : p.Inv τ) (k : p.Kept τ) (hs : Step τ σ v p p')
    (hacked : p'.acked = p.acked) (hleader : p'.leader = p.leader)
    (hleaderLog : p'.leaderLog = p.leaderLog) (hlog : p'.log = p.log)
    (hvotes : ∀ w T c, p'.voted w T = some c →
      p.voted w T = some c ∨ (p'.leader T).isSome ∨ VoteOK τ p' w T c) : p'.Kept τ := by
  have g := hs.grows h
  refine k.of_grows h g (fun w t => hs.acked_frozen) ?_ ?_ ?_ hvotes ?_
  · intro w t
    exact Or.inl (by rw [hacked])
  · rw [hacked, hleader, hleaderLog]
    exact k.own
  · intro w
    rw [hlog]
    exact (k.remembers_upTo (g.term w)).mono k g (fun t _ => by rw [hacked]) List.prefix_rfl
  · intro T c hl
    exact Or.inl (by rwa [hleader] at hl)

/-- A candidate votes for itself with the log it has. -/
theorem Proto.Kept.campaign (h : p.Inv τ) (k : p.Kept τ) (v : S) : (p.campaign v).Kept τ := by
  have hs : Step τ True v p (p.campaign v) := .campaign
  have g := hs.grows h
  refine k.of_votes h hs rfl rfl rfl rfl ?_
  intro w T c hw
  rcases record_eq_some hw with ⟨rfl, rfl, rfl⟩ | hold
  · exact Or.inr (Or.inr ⟨p.log c, p.log c, by simp [Proto.campaign], (h.logs c).1.mono g,
      Or.inr ⟨rfl, le_rfl⟩, (k.remembers c).mono k g (fun _ _ => rfl) List.prefix_rfl⟩)
  · exact Or.inl hold

theorem Proto.Kept.grant (h : p.Inv τ) (k : p.Kept τ) {c : S} {T : ℕ} {C : List E}
    (hT : p.term v ≤ T) (hfree : p.voted v T = none ∨ p.voted v T = some c)
    (hC : p.candLog c T = some C) (hup : UpToDate τ C (p.log v)) : (p.grant v c T).Kept τ := by
  have hs : Step τ True v p (p.grant v c T) := .grant c T C hT hfree hC hup
  have g := hs.grows h
  refine k.of_votes h hs rfl rfl rfl rfl ?_
  intro w U c' hw
  rcases record_eq_some hw with ⟨rfl, rfl, rfl⟩ | hold
  · right
    cases hl : p.leader U with
    | some d => exact Or.inl (by simp [Proto.grant, hl])
    | none =>
        -- no leader yet, so nothing acknowledged was superseded in `U` itself
        refine Or.inr ⟨C, p.log w, hC, (h.logs w).1.mono g, hup, ?_⟩
        refine Remembers.mono k g (fun _ _ => rfl) List.prefix_rfl ?_
        intro t P htU hP hlen
        rcases k.remembers_upTo hT t P (by omega) hP hlen with hPL | ⟨u, htu, huU, hlu, hPu⟩
        · exact Or.inl hPL
        · refine Or.inr ⟨u, htu, ?_, hlu, hPu⟩
          rcases Nat.lt_or_eq_of_le (Nat.lt_succ_iff.1 huU) with hlt | heq
          · exact hlt
          · rw [heq, hl] at hlu
            exact absurd hlu (by simp)
  · exact Or.inl hold

/-- What was acknowledged before an election is remembered after it: in the new term only the winner
    has acknowledged anything, its own log. -/
theorem Remembers.elect (k : p.Kept τ) (g : Grows p (p.elect v))
    (hfree : p.leader (p.term v) = none) (w : S) :
    Remembers (p.elect v) w (p.log w) (p.term w + 1) := by
  intro t P ht hP hlen
  by_cases htv : t = p.term v
  · subst htv
    by_cases hwv : w = v
    · subst hwv
      exact Or.inl (by simpa [Proto.elect] using hP)
    · have hle : P.length ≤ p.acked w (p.term v) := by
        simpa [Proto.elect, p.ack_of_ne _ (fun hh => hwv hh.1)] using hlen
      rw [k.acked_eq_zero hfree] at hle
      rw [List.eq_nil_of_length_eq_zero (Nat.le_zero.1 hle)]
      exact Or.inl List.nil_prefix
  · have hP' : P <+: p.leaderLog t := by
      simpa [Proto.elect, Function.update_of_ne htv] using hP
    have hlen' : P.length ≤ p.acked w t := by
      simpa [Proto.elect, p.ack_of_ne _ (fun hh => htv hh.2)] using hlen
    exact (k.remembers w t P ht hP' hlen').imp id (fun hsup => hsup.mono g le_rfl)

theorem Proto.Kept.elect (h : p.Inv τ) (k : p.Kept τ) {Q : Finset S} (hQ : Majority Q)
    (hvotes : ∀ w ∈ Q, p.voted w (p.term v) = some v)
    (hC : p.candLog v (p.term v) = some (p.log v)) (hfree : p.leader (p.term v) = none) :
    (p.elect v).Kept τ := by
  have hs : Step τ True v p (p.elect v) := .elect Q hQ hvotes hC hfree
  have g := hs.grows h
  have hzero : p.acked v (p.term v) = 0 := k.acked_eq_zero hfree v
  refine k.of_grows h g (fun w t => hs.acked_frozen) ?_ ?_ (Remembers.elect k g hfree)
    (fun _ _ _ hv => Or.inl hv) ?_
  · intro w t
    by_cases hnew : w = v ∧ t = p.term v
    · obtain ⟨rfl, rfl⟩ := hnew
      exact Or.inr (by simp [Proto.elect, p.ack_self, hzero])
    · exact Or.inl (p.ack_of_ne _ hnew)
  · intro T c hl
    by_cases hT : T = p.term v
    · subst hT
      have hc : v = c := by simpa [Proto.elect] using hl
      subst hc
      simp [Proto.elect, p.ack_self, hzero]
    · have hl' : p.leader T = some c := by
        simpa [Proto.elect, Function.update_of_ne hT] using hl
      simpa [Proto.elect, Function.update_of_ne hT, p.ack_of_ne _ (fun hh => hT hh.2)] using
        k.own T c hl'
  · intro T c hl
    by_cases hT : T = p.term v
    · -- the voters of the new leader
      subst hT
      have hc : v = c := by simpa [Proto.elect] using hl
      subst hc
      refine Or.inr ⟨Q, hQ, fun w hw => ⟨hvotes w hw, ?_⟩⟩
      rcases k.votes w _ v (hvotes w hw) with hlead | hok
      · rw [hfree] at hlead
        exact absurd hlead (by simp)
      · exact hok
    · exact Or.inl (by simpa [Proto.elect, Function.update_of_ne hT] using hl)

/-- A leader that appends an entry remembers as before, and the new log of its term. -/
theorem Remembers.append (k : p.Kept τ) {e : E} (g : Grows p (p.append v e)) (w : S) :
    Remembers (p.append v e) w ((p.append v e).log w) (p.term w + 1) := by
  by_cases hwv : w = v
  · subst hwv
    intro t P ht hP hlen
    by_cases htw : t = p.term w
    · subst htw
      exact Or.inl (by simpa [Proto.append] using hP)
    · have hP' : P <+: p.leaderLog t := by
        simpa [Proto.append, Function.update_of_ne htw] using hP
      have hlen' : P.length ≤ p.acked w t := by
        simpa [Proto.append, p.ack_of_ne _ (fun hh => htw hh.2)] using hlen
      refine (k.remembers w t P ht hP' hlen').imp (fun hPL => ?_) (fun hsup => hsup.mono g le_rfl)
      exact hPL.trans (by simp [Proto.append])
  · refine (k.remembers w).mono k g (fun t _ => p.ack_of_ne _ (fun hh => hwv hh.1)) ?_
    simp [Proto.append, Function.update_of_ne hwv]

theorem Proto.Kept.append (h : p.Inv τ) (k : p.Kept τ) {e : E}
    (hl : p.leader (p.term v) = some v) (hlog : p.leaderLog (p.term v) = p.log v)
    (he : τ e = p.term v) : (p.append v e).Kept τ := by
  have hs : Step τ True v p (p.append v e) := .append e hl hlog he
  have g := hs.grows h
  have hown : p.acked v (p.term v) = (p.log v).length := by
    rw [k.own _ v hl, hlog]
  refine k.of_grows h g (fun w t => hs.acked_frozen) ?_ ?_ (Remembers.append k g)
    (fun _ _ _ hv => Or.inl hv) (fun _ _ hl => Or.inl hl)
  · intro w t
    by_cases hnew : w = v ∧ t = p.term v
    · obtain ⟨rfl, rfl⟩ := hnew
      exact Or.inr (by simp [Proto.append, p.ack_self, hown, hl])
    · exact Or.inl (p.ack_of_ne _ hnew)
  · intro T c hl'
    by_cases hT : T = p.term v
    · subst hT
      have hc : v = c := Option.some.inj (hl.symm.trans hl')
      subst hc
      simp [Proto.append, p.ack_self, hown]
    · simpa [Proto.append, Function.update_of_ne hT, p.ack_of_ne _ (fun hh => hT hh.2)] using
        k.own T c hl'

theorem Proto.Kept.receive (h : p.Inv τ) (k : p.Kept τ) {T : ℕ} {M : List E}
    (hT : p.term v ≤ T) (hM : Backed τ p M) (hterm : ∀ e ∈ M, τ e ≤ T)
    (hl : (p.leader T).isSome) (hMT : M <+: p.leaderLog T) : (p.receive v T M).Kept τ := by
  have hs : Step τ True v p (p.receive v T M) := .receive T M hT hM hterm (fun _ => ⟨hl, hMT⟩)
  have g := hs.grows h
  refine k.of_grows h g (fun w t => hs.acked_frozen) ?_ ?_ ?_ (fun _ _ _ hv => Or.inl hv)
    (fun _ _ hl => Or.inl hl)
  · intro w t
    by_cases hnew : w = v ∧ t = T
    · obtain ⟨rfl, rfl⟩ := hnew
      refine Or.inr ⟨hl, by simp [Proto.receive], ?_⟩
      change p.ack w t M.length w t ≤ (p.leaderLog t).length
      rw [p.ack_self]
      exact max_le (k.acked_le w t) hMT.length_le
    · exact Or.inl (p.ack_of_ne _ hnew)
  · intro U c hlU
    change p.ack v T M.length c U = (p.leaderLog U).length
    by_cases hnew : c = v ∧ U = T
    · obtain ⟨rfl, rfl⟩ := hnew
      rw [p.ack_self, k.own U c hlU]
      exact max_eq_left hMT.length_le
    · rw [p.ack_of_ne _ hnew]
      exact k.own U c hlU
  · intro w
    by_cases hwv : w = v
    · subst hwv
      simpa [Proto.receive] using Remembers.receive h k g hT hl hMT
    · have hlog : (p.receive v T M).log w = p.log w := Function.update_of_ne hwv _ _
      have hterm : (p.receive v T M).term w = p.term w := Function.update_of_ne hwv _ _
      rw [hlog, hterm]
      exact (k.remembers w).mono k g (fun t _ => p.ack_of_ne _ (fun hh => hwv hh.1))
        List.prefix_rfl

/-- **Step lemma.** Every step in which only leaders speak keeps the invariant. -/
theorem kept_step (hσ : σ) (h : p.Inv τ) (k : p.Kept τ) (hs : Step τ σ v p p') : p'.Kept τ := by
  cases hs with
  | idle => exact k
  | raise T hT =>
      exact k.of_votes h (.raise T hT : Step τ True v p _) rfl rfl rfl rfl
        (fun _ _ _ hv => Or.inl hv)
  | campaign => exact k.campaign h v
  | grant c T C hT hfree hC hup => exact k.grant h hT hfree hC hup
  | elect Q hQ hvotes hC hfree => exact k.elect h hQ hvotes hC hfree
  | append e hl hlog he => exact k.append h hl hlog he
  | receive T M hT hM hterm hshipped =>
      exact k.receive h hT hM hterm (hshipped hσ).1 (hshipped hσ).2

/-- A prefix that a server is found to have acknowledged in term `t` was acknowledged before, or
    this step brought it into the server's log, in that term. -/
theorem Step.acked_fresh (hσ : σ) (k : p.Kept τ) (hs : Step τ σ v p p') {w : S} {t : ℕ}
    {P : List E} (hne : P ≠ []) (hP : P <+: p'.leaderLog t) (hlen : P.length ≤ p'.acked w t) :
    (P <+: p.leaderLog t ∧ P.length ≤ p.acked w t) ∨ (p'.term w = t ∧ P <+: p'.log w) := by
  cases hs with
  | idle => exact Or.inl ⟨hP, hlen⟩
  | raise T hT => exact Or.inl ⟨hP, hlen⟩
  | campaign => exact Or.inl ⟨hP, hlen⟩
  | grant c T C hT hfree hC hup => exact Or.inl ⟨hP, hlen⟩
  | elect Q hQ hvotes hC hfree =>
      by_cases ht : t = p.term v
      · subst ht
        by_cases hw : w = v
        · subst hw
          exact Or.inr ⟨rfl, by simpa [Proto.elect] using hP⟩
        · have hold : P.length ≤ p.acked w (p.term v) := by
            simpa [Proto.elect, p.ack_of_ne _ (fun hh => hw hh.1)] using hlen
          rw [k.acked_eq_zero hfree] at hold
          exact absurd (List.eq_nil_of_length_eq_zero (Nat.le_zero.1 hold)) hne
      · exact Or.inl ⟨by simpa [Proto.elect, Function.update_of_ne ht] using hP,
          by simpa [Proto.elect, p.ack_of_ne _ (fun hh => ht hh.2)] using hlen⟩
  | append e hl hlog he =>
      by_cases ht : t = p.term v
      · subst ht
        by_cases hw : w = v
        · subst hw
          exact Or.inr ⟨rfl, by simpa [Proto.append] using hP⟩
        · have hold : P.length ≤ p.acked w (p.term v) := by
            simpa [Proto.append, p.ack_of_ne _ (fun hh => hw hh.1)] using hlen
          have hP' : P <+: p.leaderLog (p.term v) ++ [e] := by
            rw [hlog]
            simpa [Proto.append] using hP
          exact Or.inl ⟨List.prefix_of_prefix_length_le hP' (List.prefix_append _ _)
            (k.acked_isPrefix hne hold).2.2, hold⟩
      · exact Or.inl ⟨by simpa [Proto.append, Function.update_of_ne ht] using hP,
          by simpa [Proto.append, p.ack_of_ne _ (fun hh => ht hh.2)] using hlen⟩
  | receive T M hT hM hterm hshipped =>
      change P <+: p.leaderLog t at hP
      change P.length ≤ p.ack v T M.length w t at hlen
      by_cases hnew : w = v ∧ t = T
      · obtain ⟨rfl, rfl⟩ := hnew
        rw [p.ack_self] at hlen
        rcases le_max_iff.1 hlen with hold | hM'
        · exact Or.inl ⟨hP, hold⟩
        · refine Or.inr ⟨by simp [Proto.receive], ?_⟩
          have hPM := List.prefix_of_prefix_length_le hP (hshipped hσ).2 hM'
          simpa [Proto.receive] using hPM.trans (prefix_merge _ _)
      · rw [p.ack_of_ne _ hnew] at hlen
        exact Or.inl ⟨hP, hlen⟩

end Steps

/-! ## Commitment -/

/-- The log prefix `P` is committed in term `t`: it is part of a prefix `K` of the log of the leader
    of `t` that ends with an entry of term `t` and that a majority has acknowledged in `t`. -/
def CommittedIn (τ : E → ℕ) (p : Proto S E) (t : ℕ) (P : List E) : Prop :=
  (p.leader t).isSome ∧ ∃ K e, K ++ [e] <+: p.leaderLog t ∧ τ e = t ∧
    (∃ Q : Finset S, Majority Q ∧ ∀ v ∈ Q, (K ++ [e]).length ≤ p.acked v t) ∧ P <+: K ++ [e]

theorem CommittedIn.of_isPrefix {t : ℕ} {P P' : List E} (h : CommittedIn τ p t P) (hP : P' <+: P) :
    CommittedIn τ p t P' := by
  obtain ⟨hl, K, e, hK, he, hQ, hPK⟩ := h
  exact ⟨hl, K, e, hK, he, hQ, hP.trans hPK⟩

/-- What is committed stays committed. -/
theorem CommittedIn.mono (g : Grows p p') {t : ℕ} {P : List E} (h : CommittedIn τ p t P) :
    CommittedIn τ p' t P := by
  obtain ⟨hl, K, e, hK, he, ⟨Q, hQ, hv⟩, hP⟩ := h
  exact ⟨g.leader_isSome hl, K, e, hK.trans (g.leaderLog t hl), he,
    ⟨Q, hQ, fun v hvQ => (hv v hvQ).trans (g.acked v t)⟩, hP⟩

/-- A log that is up to date with a log holding the entry `e` at the end of `K ++ [e]` holds it too,
    if the leaders of the terms between `τ e` and its last term started with it. -/
theorem prefix_of_upToDate (h : p.Inv τ) {C L K : List E} {e : E} (hC : Backed τ p C)
    (hL : Backed τ p L) (hup : UpToDate τ C L) (hK : K ++ [e] <+: L)
    (hbetween : ∀ u, τ e < u → u ≤ lastTerm τ C → (p.leader u).isSome → K ++ [e] <+: p.initLog u) :
    K ++ [e] <+: C := by
  have hLne : L ≠ [] := List.ne_nil_of_mem (hK.subset (by simp : e ∈ K ++ [e]))
  rcases hup with hlt | ⟨heq, hlen⟩
  · -- the candidate's last entry is of a later term: its leader started with the prefix
    have hCne : C ≠ [] := by
      rintro rfl
      simp at hlt
    have heL : τ e ≤ lastTerm τ L := h.term_le_lastTerm hL (hK.subset (by simp))
    obtain ⟨hl, hpre⟩ := hC.prefix_leaderLog hCne
    obtain ⟨c, hc⟩ := Option.isSome_iff_exists.1 hl
    have hinit := hbetween _ (heL.trans_lt hlt) le_rfl hl
    rcases List.prefix_or_prefix_of_prefix (h.leaders _ c hc).init hpre with hIC | hCI
    · exact hinit.trans hIC
    · obtain ⟨P, x, rfl⟩ := (List.eq_nil_or_concat' C).resolve_left hCne
      have hx := h.initLog_term_lt hl x (hCI.subset (by simp))
      rw [lastTerm_concat] at hx
      exact absurd hx (lt_irrefl _)
  · -- both logs end in the same term, so the longer one extends the shorter
    have hCne : C ≠ [] := by
      rintro rfl
      exact hLne (List.eq_nil_of_length_eq_zero (Nat.le_zero.1 hlen))
    have hpreC := (hC.prefix_leaderLog hCne).2
    have hpreL := (hL.prefix_leaderLog hLne).2
    rw [heq] at hpreL
    exact hK.trans (List.prefix_of_prefix_length_le hpreL hpreC hlen)

/-- **Leader completeness.** What is committed in a term is in the log with which every later
    leader starts. -/
theorem leader_completeness (h : p.Inv τ) (k : p.Kept τ) {t : ℕ} {P : List E}
    (hP : CommittedIn τ p t P) :
    ∀ T, t < T → (p.leader T).isSome → P <+: p.initLog T := by
  obtain ⟨_, K, e, hK, he, ⟨A, hA, hack⟩, hPK⟩ := hP
  suffices hmain : ∀ T, t < T → (p.leader T).isSome → K ++ [e] <+: p.initLog T from
    fun T hT hl => hPK.trans (hmain T hT hl)
  intro T
  induction T using Nat.strong_induction_on with
  | _ T ih =>
      intro hT hl
      obtain ⟨c, hc⟩ := Option.isSome_iff_exists.1 hl
      obtain ⟨Q, hQ, hvote⟩ := k.wins T c hc
      -- the server that acknowledged the prefix and voted for the leader of `T`
      obtain ⟨v, hvA, hvQ⟩ := hA.inter hQ
      obtain ⟨C, L, hC, hbL, hup, hrem⟩ := (hvote v hvQ).2
      have hCinit : C = p.initLog T := Option.some.inj (hC.symm.trans (h.leaders T c hc).cand)
      subst hCinit
      obtain ⟨hbC, hltC, _⟩ := h.cands c T _ hC
      rcases hrem t (K ++ [e]) hT hK (hack v hvA) with hKL | ⟨u, htu, huT, hlu, hKu⟩
      · refine prefix_of_upToDate h hbC hbL hup hKL ?_
        intro u heu hu hlu
        refine ih u ?_ (he ▸ heu) hlu
        have hne : p.initLog T ≠ [] := by
          intro hnil
          rw [hnil] at hu
          simp at hu
          omega
        obtain ⟨P', x, hx⟩ := (List.eq_nil_or_concat' (p.initLog T)).resolve_left hne
        rw [hx, lastTerm_concat] at hu
        exact hu.trans_lt (hltC x (by rw [hx]; simp))
      · exact absurd (ih u huT htu hlu) hKu

/-- What is committed up to term `T` is in the log of the leader of `T`. -/
theorem CommittedIn.prefix_leaderLog (h : p.Inv τ) (k : p.Kept τ) {t T : ℕ} {P : List E}
    (hP : CommittedIn τ p t P) (htT : t ≤ T) (hl : (p.leader T).isSome) : P <+: p.leaderLog T := by
  rcases Nat.lt_or_eq_of_le htT with hlt | heq
  · obtain ⟨c, hc⟩ := Option.isSome_iff_exists.1 hl
    exact (leader_completeness h k hP T hlt hl).trans (h.leaders T c hc).init
  · subst heq
    obtain ⟨_, K, e, hK, _, _, hPK⟩ := hP
    exact hPK.trans hK

/-- Two committed prefixes are comparable. -/
theorem CommittedIn.comparable (h : p.Inv τ) (k : p.Kept τ) {t t' : ℕ} {P P' : List E}
    (hP : CommittedIn τ p t P) (hP' : CommittedIn τ p t' P') : P <+: P' ∨ P' <+: P := by
  -- both are prefixes of the log of the later of the two leaders
  rcases Nat.le_total t t' with hle | hle
  · exact List.prefix_or_prefix_of_prefix (hP.prefix_leaderLog h k hle hP'.1)
      (hP'.prefix_leaderLog h k le_rfl hP'.1)
  · exact List.prefix_or_prefix_of_prefix (hP.prefix_leaderLog h k le_rfl hP.1)
      (hP'.prefix_leaderLog h k hle hP.1)

/-- The prefix `P` is committed in some term up to `T` (the empty one always is). -/
def CommittedBy (τ : E → ℕ) (p : Proto S E) (T : ℕ) (P : List E) : Prop :=
  P = [] ∨ ∃ t, t ≤ T ∧ CommittedIn τ p t P

theorem CommittedBy.of_isPrefix {T : ℕ} {P P' : List E} (h : CommittedBy τ p T P) (hP : P' <+: P) :
    CommittedBy τ p T P' := by
  rcases h with rfl | ⟨t, ht, hc⟩
  · exact Or.inl (List.prefix_nil.1 hP)
  · exact Or.inr ⟨t, ht, hc.of_isPrefix hP⟩

theorem CommittedBy.mono (g : Grows p p') {T T' : ℕ} (hT : T ≤ T') {P : List E}
    (h : CommittedBy τ p T P) : CommittedBy τ p' T' P :=
  h.imp_right (fun ⟨t, ht, hc⟩ => ⟨t, ht.trans hT, hc.mono g⟩)

theorem CommittedBy.prefix_leaderLog (h : p.Inv τ) (k : p.Kept τ) {T : ℕ} {P : List E}
    (hP : CommittedBy τ p T P) (hl : (p.leader T).isSome) : P <+: p.leaderLog T := by
  rcases hP with rfl | ⟨t, ht, hc⟩
  · exact List.nil_prefix
  · exact hc.prefix_leaderLog h k ht hl

theorem CommittedBy.comparable (h : p.Inv τ) (k : p.Kept τ) {T T' : ℕ} {P P' : List E}
    (hP : CommittedBy τ p T P) (hP' : CommittedBy τ p T' P') : P <+: P' ∨ P' <+: P := by
  rcases hP with rfl | ⟨t, _, hc⟩
  · exact Or.inl List.nil_prefix
  · rcases hP' with rfl | ⟨t', _, hc'⟩
    · exact Or.inr List.nil_prefix
    · exact hc.comparable h k hc'

/-- Taking over a prefix of the log of the leader of `T` does not lose what is committed up to
    term `T`. -/
theorem CommittedBy.prefix_merge (h : p.Inv τ) (k : p.Kept τ) {T : ℕ} {P L M : List E}
    (hP : CommittedBy τ p T P) (hl : (p.leader T).isSome) (hM : M <+: p.leaderLog T)
    (hPL : P <+: L) : P <+: merge L M := by
  by_cases hML : M <+: L
  · rwa [merge_of_isPrefix hML]
  · rw [merge_of_not_isPrefix hML]
    rcases List.prefix_or_prefix_of_prefix (hP.prefix_leaderLog h k hl) hM with hPM | hMP
    · exact hPM
    · exact absurd (hMP.trans hPL) hML

end TermLog
