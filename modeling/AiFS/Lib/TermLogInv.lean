import AiFS.Lib.TermLog

set_option autoImplicit false

/-! # Replicated logs with one leader a term: what every step keeps

`Proto.Inv` is the invariant of *all* runs, whoever ships which log: logs are backed by the logs of
the leaders whose entries they hold, every vote is for a candidate of its term, and every leader
was voted for by a majority. It gives one leader a term (`Proto.Inv.elect_free`) and, through
`Backed.take_eq`, log matching.

History only grows (`Grows`), so an invariant about it has to be re-proved only for what a step
adds: `Inv.of_grows` is that frame rule, and the step lemma `inv_step` is one use of it per kind of
step. -/

namespace TermLog

variable {S E : Type} {τ : E → ℕ}

/-! ## History grows -/

/-- `p'` has the history of `p`, and possibly more. -/
structure Grows (p p' : Proto S E) : Prop where
  term : ∀ s, p.term s ≤ p'.term s
  voted : ∀ v T c, p.voted v T = some c → p'.voted v T = some c
  candLog : ∀ c T C, p.candLog c T = some C → p'.candLog c T = some C
  leader : ∀ T c, p.leader T = some c → p'.leader T = some c
  initLog : ∀ T, (p.leader T).isSome → p'.initLog T = p.initLog T
  leaderLog : ∀ T, (p.leader T).isSome → p.leaderLog T <+: p'.leaderLog T
  acked : ∀ v T, p.acked v T ≤ p'.acked v T

theorem Grows.refl (p : Proto S E) : Grows p p :=
  ⟨fun _ => le_rfl, fun _ _ _ h => h, fun _ _ _ h => h, fun _ _ h => h, fun _ _ => rfl,
    fun _ _ => List.prefix_rfl, fun _ _ => le_rfl⟩

theorem Grows.leader_isSome {p p' : Proto S E} (g : Grows p p') {T : ℕ}
    (h : (p.leader T).isSome) : (p'.leader T).isSome := by
  obtain ⟨c, hc⟩ := Option.isSome_iff_exists.1 h
  rw [g.leader T c hc]
  rfl

theorem Grows.trans {p p' p'' : Proto S E} (g : Grows p p') (g' : Grows p' p'') : Grows p p'' where
  term s := (g.term s).trans (g'.term s)
  voted v T c h := g'.voted v T c (g.voted v T c h)
  candLog c T C h := g'.candLog c T C (g.candLog c T C h)
  leader T c h := g'.leader T c (g.leader T c h)
  initLog T h := (g'.initLog T (g.leader_isSome h)).trans (g.initLog T h)
  leaderLog T h := (g.leaderLog T h).trans (g'.leaderLog T (g.leader_isSome h))
  acked v T := (g.acked v T).trans (g'.acked v T)

theorem Backed.mono {p p' : Proto S E} (g : Grows p p') {L : List E} (h : Backed τ p L) :
    Backed τ p' L := by
  intro P e hP
  obtain ⟨hl, hpre⟩ := h P e hP
  exact ⟨g.leader_isSome hl, hpre.trans (g.leaderLog _ hl)⟩

/-- Raising the term of one server raises no other term. -/
theorem le_update_term [DecidableEq S] {p : Proto S E} {v : S} {T : ℕ} (hT : p.term v ≤ T) (s : S) :
    p.term s ≤ Function.update p.term v T s := by
  by_cases hsv : s = v
  · subst hsv
    simpa using hT
  · simp [Function.update_of_ne hsv]

/-! ## The invariant -/

variable [Fintype S]

/-- What is known of the leader `c` of term `T`. -/
structure LeaderOK (τ : E → ℕ) (p : Proto S E) (T : ℕ) (c : S) : Prop where
  cand : p.candLog c T = some (p.initLog T)
  init : p.initLog T <+: p.leaderLog T
  backed : Backed τ p (p.leaderLog T)
  term_le : ∀ e ∈ p.leaderLog T, τ e ≤ T
  sorted : (p.leaderLog T).Pairwise (fun a b => τ a ≤ τ b)
  quorum : ∃ Q : Finset S, Majority Q ∧ ∀ v ∈ Q, p.voted v T = some c

/-- The invariant of every run of the protocol. -/
structure Proto.Inv (τ : E → ℕ) (p : Proto S E) : Prop where
  logs : ∀ s, Backed τ p (p.log s) ∧ ∀ e ∈ p.log s, τ e ≤ p.term s
  votes : ∀ v T c, p.voted v T = some c → T ≤ p.term v ∧ (p.candLog c T).isSome
  cands : ∀ c T C, p.candLog c T = some C →
    Backed τ p C ∧ (∀ e ∈ C, τ e < T) ∧ T ≤ p.term c ∧ p.voted c T = some c
  leaders : ∀ T c, p.leader T = some c → LeaderOK τ p T c

theorem inv_init : (Proto.init S E).Inv τ where
  logs s := ⟨Backed.nil _, by simp [Proto.init]⟩
  votes v T c h := by simp [Proto.init] at h
  cands c T C h := by simp [Proto.init] at h
  leaders T c h := by simp [Proto.init] at h

namespace Proto.Inv

variable {p p' : Proto S E}

/-- **Frame rule.** To keep the invariant, a step that only adds to the history has to establish it
    for the logs, votes, candidacies and leaders that it changes. -/
theorem of_grows (h : p.Inv τ) (g : Grows p p')
    (hlogs : ∀ s, p'.log s = p.log s ∨
      (Backed τ p' (p'.log s) ∧ ∀ e ∈ p'.log s, τ e ≤ p'.term s))
    (hvotes : ∀ v T c, p'.voted v T = some c →
      p.voted v T = some c ∨ (T ≤ p'.term v ∧ (p'.candLog c T).isSome))
    (hcands : ∀ c T C, p'.candLog c T = some C → p.candLog c T = some C ∨
      (Backed τ p' C ∧ (∀ e ∈ C, τ e < T) ∧ T ≤ p'.term c ∧ p'.voted c T = some c))
    (hleaders : ∀ T c, p'.leader T = some c →
      (p.leader T = some c ∧ p'.leaderLog T = p.leaderLog T) ∨ LeaderOK τ p' T c) :
    p'.Inv τ where
  logs s := by
    rcases hlogs s with heq | hnew
    · obtain ⟨hb, ht⟩ := h.logs s
      rw [heq]
      exact ⟨hb.mono g, fun e he => (ht e he).trans (g.term s)⟩
    · exact hnew
  votes v T c hv := by
    rcases hvotes v T c hv with hold | hnew
    · obtain ⟨hT, hc⟩ := h.votes v T c hold
      obtain ⟨C, hC⟩ := Option.isSome_iff_exists.1 hc
      refine ⟨hT.trans (g.term v), ?_⟩
      rw [g.candLog c T C hC]
      rfl
    · exact hnew
  cands c T C hC := by
    rcases hcands c T C hC with hold | hnew
    · obtain ⟨hb, ht, hT, hv⟩ := h.cands c T C hold
      exact ⟨hb.mono g, ht, hT.trans (g.term c), g.voted c T c hv⟩
    · exact hnew
  leaders T c hl := by
    rcases hleaders T c hl with ⟨hold, heq⟩ | hnew
    · have ho := h.leaders T c hold
      have hsome : (p.leader T).isSome := by rw [hold]; rfl
      obtain ⟨Q, hQ, hv⟩ := ho.quorum
      exact
        { cand := by rw [g.initLog T hsome]; exact g.candLog c T _ ho.cand
          init := by rw [g.initLog T hsome, heq]; exact ho.init
          backed := by rw [heq]; exact ho.backed.mono g
          term_le := by rw [heq]; exact ho.term_le
          sorted := by rw [heq]; exact ho.sorted
          quorum := ⟨Q, hQ, fun v hvQ => g.voted v T c (hv v hvQ)⟩ }
    · exact hnew

/-! ## Facts the steps need -/

theorem leader_term_le (h : p.Inv τ) {T : ℕ} {c : S} (hl : p.leader T = some c) :
    T ≤ p.term c :=
  (h.cands c T _ (h.leaders T c hl).cand).2.2.1

theorem initLog_term_lt (h : p.Inv τ) {T : ℕ} (hl : (p.leader T).isSome) :
    ∀ e ∈ p.initLog T, τ e < T := by
  obtain ⟨c, hc⟩ := Option.isSome_iff_exists.1 hl
  exact (h.cands c T _ (h.leaders T c hc).cand).2.1

/-- No vote and no candidacy is recorded for a term a server has not entered. -/
theorem not_voted_of_lt (h : p.Inv τ) {v : S} {T : ℕ} (hT : p.term v < T) :
    p.voted v T = none := by
  cases hv : p.voted v T with
  | none => rfl
  | some c => exact absurd (h.votes v T c hv).1 (Nat.not_le.2 hT)

/-- **One leader a term.** A server that has the votes of a majority in a term it does not already
    lead finds the term without a leader. -/
theorem elect_free (h : p.Inv τ) {T : ℕ} {c : S} {Q : Finset S} (hQ : Majority Q)
    (hv : ∀ v ∈ Q, p.voted v T = some c) (hne : p.leader T ≠ some c) : p.leader T = none := by
  cases hl : p.leader T with
  | none => rfl
  | some c' =>
      obtain ⟨Q', hQ', hv'⟩ := (h.leaders T c' hl).quorum
      obtain ⟨v, hvQ, hvQ'⟩ := hQ.inter hQ'
      have hcc : some c = some c' := (hv v hvQ).symm.trans (hv' v hvQ')
      exact absurd (hl.trans hcc.symm) hne

/-- A backed log is sorted by term. -/
theorem sorted_of_backed (h : p.Inv τ) {L : List E} (hL : Backed τ p L) :
    L.Pairwise (fun a b => τ a ≤ τ b) := by
  by_cases hne : L = []
  · subst hne
    exact List.Pairwise.nil
  · obtain ⟨hl, hpre⟩ := hL.prefix_leaderLog hne
    obtain ⟨c, hc⟩ := Option.isSome_iff_exists.1 hl
    exact (h.leaders _ c hc).sorted.sublist hpre.sublist

/-- In a backed log no entry has a higher term than the last one. -/
theorem term_le_lastTerm (h : p.Inv τ) {L : List E} (hL : Backed τ p L) {e : E} (he : e ∈ L) :
    τ e ≤ lastTerm τ L := by
  obtain ⟨P, x, rfl⟩ := (List.eq_nil_or_concat' L).resolve_left (List.ne_nil_of_mem he)
  rw [lastTerm_concat]
  have hs := h.sorted_of_backed hL
  rw [List.pairwise_append] at hs
  rcases List.mem_append.1 he with heP | hex
  · exact hs.2.2 e heP x (by simp)
  · rw [List.mem_singleton.1 hex]

end Proto.Inv

/-! ## Steps keep it -/

section Steps

variable [DecidableEq S] {σ : Prop} {v : S} {p p' : Proto S E}

/-- A step only adds to the history. -/
theorem Step.grows (h : p.Inv τ) (hs : Step τ σ v p p') : Grows p p' := by
  cases hs with
  | idle => exact Grows.refl p
  | raise T hT => exact { Grows.refl p with term := le_update_term hT.le }
  | campaign =>
      refine { Grows.refl p with term := le_update_term (Nat.le_succ _),
                                 voted := fun w T c hw => ?_, candLog := fun c T C hC => ?_ }
      · have hT := (h.votes w T c hw).1
        exact (record_of_ne _ _ (by rintro ⟨rfl, rfl⟩; omega)).trans hw
      · have hT := (h.cands c T C hC).2.2.1
        exact (record_of_ne _ _ (by rintro ⟨rfl, rfl⟩; omega)).trans hC
  | grant c T C hT hfree hC hup =>
      refine { Grows.refl p with term := le_update_term hT, voted := fun w U c' hw => ?_ }
      by_cases hnew : w = v ∧ U = T
      · obtain ⟨rfl, rfl⟩ := hnew
        rw [hw] at hfree
        exact (record_self _ _ _ _).trans (hfree.resolve_left (by simp)).symm
      · exact (record_of_ne _ _ hnew).trans hw
  | elect Q hQ hvotes hC hfree =>
      have hne : ∀ T, (p.leader T).isSome → T ≠ p.term v := by
        intro T hT heq
        rw [heq, hfree] at hT
        exact absurd hT (by simp)
      refine { Grows.refl p with leader := fun T c hl => ?_, initLog := fun T hT => ?_,
                                 leaderLog := fun T hT => ?_,
                                 acked := fun w T => p.le_ack v w _ T _ }
      · exact (Function.update_of_ne (hne T (by rw [hl]; rfl)) _ _).trans hl
      · exact Function.update_of_ne (hne T hT) _ _
      · simp [Proto.elect, Function.update_of_ne (hne T hT)]
  | append e hl hlog he =>
      refine { Grows.refl p with leaderLog := fun T hT => ?_,
                                 acked := fun w T => p.le_ack v w _ T _ }
      by_cases hTv : T = p.term v
      · subst hTv
        rw [hlog]
        simp [Proto.append]
      · simp [Proto.append, Function.update_of_ne hTv]
  | receive T M hT hM hterm hσ =>
      exact { Grows.refl p with term := le_update_term hT, acked := fun w U => p.le_ack v w _ U _ }

namespace Proto.Inv

theorem campaign (h : p.Inv τ) (v : S) : (p.campaign v).Inv τ := by
  have hs : Step τ True v p (p.campaign v) := .campaign
  have g := hs.grows h
  refine h.of_grows g (fun _ => Or.inl rfl) ?_ ?_ (fun _ _ hl => Or.inl ⟨hl, rfl⟩)
  · intro w T c hw
    rcases record_eq_some hw with ⟨rfl, rfl, rfl⟩ | hold
    · exact Or.inr (by simp [Proto.campaign])
    · exact Or.inl hold
  · intro c T C hC
    rcases record_eq_some hC with ⟨rfl, rfl, rfl⟩ | hold
    · obtain ⟨hb, ht⟩ := h.logs c
      exact Or.inr ⟨hb.mono g, fun e he => Nat.lt_succ_of_le (ht e he),
        by simp [Proto.campaign], by simp [Proto.campaign]⟩
    · exact Or.inl hold

theorem grant (h : p.Inv τ) {c : S} {T : ℕ} {C : List E} (hT : p.term v ≤ T)
    (hfree : p.voted v T = none ∨ p.voted v T = some c) (hC : p.candLog c T = some C)
    (hup : UpToDate τ C (p.log v)) : (p.grant v c T).Inv τ := by
  have hs : Step τ True v p (p.grant v c T) := .grant c T C hT hfree hC hup
  refine h.of_grows (hs.grows h) (fun _ => Or.inl rfl) ?_ (fun _ _ _ hC => Or.inl hC)
    (fun _ _ hl => Or.inl ⟨hl, rfl⟩)
  intro w U c' hw
  rcases record_eq_some hw with ⟨rfl, rfl, rfl⟩ | hold
  · exact Or.inr ⟨by simp [Proto.grant], by simp [Proto.grant, hC]⟩
  · exact Or.inl hold

/-- The log of a winner is sound as the log of its term. -/
theorem elect (h : p.Inv τ) {Q : Finset S} (hQ : Majority Q)
    (hvotes : ∀ w ∈ Q, p.voted w (p.term v) = some v)
    (hC : p.candLog v (p.term v) = some (p.log v)) (hfree : p.leader (p.term v) = none) :
    (p.elect v).Inv τ := by
  have hs : Step τ True v p (p.elect v) := .elect Q hQ hvotes hC hfree
  have g := hs.grows h
  refine h.of_grows g (fun _ => Or.inl rfl) (fun _ _ _ hv => Or.inl hv)
    (fun _ _ _ hC => Or.inl hC) ?_
  intro T c hl
  by_cases hT : T = p.term v
  · subst hT
    have hc : v = c := by simpa [Proto.elect] using hl
    subst hc
    obtain ⟨hb, ht⟩ := h.logs v
    exact Or.inr
      { cand := by simpa [Proto.elect] using hC
        init := by simp [Proto.elect]
        backed := by simpa [Proto.elect] using hb.mono g
        term_le := by simpa [Proto.elect] using ht
        sorted := by simpa [Proto.elect] using h.sorted_of_backed hb
        quorum := ⟨Q, hQ, hvotes⟩ }
  · left
    simpa [Proto.elect, Function.update_of_ne hT] using hl

theorem append (h : p.Inv τ) {e : E} (hl : p.leader (p.term v) = some v)
    (hlog : p.leaderLog (p.term v) = p.log v) (he : τ e = p.term v) : (p.append v e).Inv τ := by
  have hs : Step τ True v p (p.append v e) := .append e hl hlog he
  have g := hs.grows h
  -- the appended log is new both as the leader's log and as the log of its term
  have hnew : Backed τ (p.append v e) (p.log v ++ [e]) := by
    intro P x hP
    rcases List.prefix_concat_iff.1 hP with heq | hold
    · have hx : x = e := by simpa using (List.append_inj' heq rfl).2
      subst hx
      rw [heq, he]
      exact ⟨by simp [Proto.append, hl], by simp [Proto.append]⟩
    · exact (h.logs v).1.mono g P x hold
  have hterm : ∀ x ∈ p.log v ++ [e], τ x ≤ p.term v := by
    intro x hx
    rcases List.mem_append.1 hx with hx | hx
    · exact (h.logs v).2 x hx
    · rw [List.mem_singleton.1 hx]
      exact he.le
  refine h.of_grows g ?_ (fun _ _ _ hv => Or.inl hv) (fun _ _ _ hC => Or.inl hC) ?_
  · intro s
    by_cases hsv : s = v
    · subst hsv
      exact Or.inr ⟨by simpa [Proto.append] using hnew, by simpa [Proto.append] using hterm⟩
    · exact Or.inl (by simp [Proto.append, Function.update_of_ne hsv])
  · intro T c hl'
    by_cases hT : T = p.term v
    · subst hT
      have ho := h.leaders _ c hl'
      refine Or.inr
        { cand := ho.cand
          init := ho.init.trans (by rw [hlog]; simp [Proto.append])
          backed := by simpa [Proto.append] using hnew
          term_le := by simpa [Proto.append] using hterm
          sorted := ?_
          quorum := ho.quorum }
      simp only [Proto.append, Function.update_self]
      rw [List.pairwise_append]
      refine ⟨h.sorted_of_backed (h.logs v).1, List.pairwise_singleton _ _, ?_⟩
      intro a ha b hb
      rw [List.mem_singleton.1 hb, he]
      exact (h.logs v).2 a ha
    · exact Or.inl ⟨hl', by simp [Proto.append, Function.update_of_ne hT]⟩

theorem receive (h : p.Inv τ) {T : ℕ} {M : List E} (hT : p.term v ≤ T) (hM : Backed τ p M)
    (hterm : ∀ e ∈ M, τ e ≤ T) : (p.receive v T M).Inv τ := by
  have hs : Step τ False v p (p.receive v T M) := .receive T M hT hM hterm (fun hno => hno.elim)
  have g := hs.grows h
  refine h.of_grows g ?_ (fun _ _ _ hv => Or.inl hv) (fun _ _ _ hC => Or.inl hC)
    (fun _ _ hl => Or.inl ⟨hl, rfl⟩)
  intro s
  by_cases hsv : s = v
  · subst hsv
    obtain ⟨hb, ht⟩ := h.logs s
    refine Or.inr ⟨by simpa [Proto.receive] using (hb.merge hM).mono g, ?_⟩
    intro e he
    simp only [Proto.receive, Function.update_self] at he ⊢
    by_cases hpre : M <+: p.log s
    · rw [merge_of_isPrefix hpre] at he
      exact (ht e he).trans hT
    · rw [merge_of_not_isPrefix hpre] at he
      exact hterm e he
  · exact Or.inl (by simp [Proto.receive, Function.update_of_ne hsv])

end Proto.Inv

/-- **Step lemma.** Every step keeps the invariant. -/
theorem inv_step (h : p.Inv τ) (hs : Step τ σ v p p') : p'.Inv τ := by
  have g := hs.grows h
  cases hs with
  | idle => exact h
  | raise T hT =>
      exact h.of_grows g (fun _ => Or.inl rfl) (fun _ _ _ hv => Or.inl hv)
        (fun _ _ _ hC => Or.inl hC) (fun _ _ hl => Or.inl ⟨hl, rfl⟩)
  | campaign => exact h.campaign v
  | grant c T C hT hfree hC hup => exact h.grant hT hfree hC hup
  | elect Q hQ hvotes hC hfree => exact h.elect hQ hvotes hC hfree
  | append e hl hlog he => exact h.append hl hlog he
  | receive T M hT hM hterm _ => exact h.receive hT hM hterm

/-! ## Steps leave the other servers alone -/

/-- Nothing that concerns server `s` is different in `p'`. -/
structure Frame (s : S) (p p' : Proto S E) : Prop where
  term : p'.term s = p.term s
  log : p'.log s = p.log s
  voted : p'.voted s = p.voted s
  candLog : p'.candLog s = p.candLog s
  leader : ∀ T, p'.leader T = some s ↔ p.leader T = some s
  leaderLog : ∀ T, p.leader T = some s → p'.leaderLog T = p.leaderLog T

theorem Step.frame (hs : Step τ σ v p p') {s : S} (hne : s ≠ v) : Frame s p p' := by
  have hrefl : Frame s p p := ⟨rfl, rfl, rfl, rfl, fun _ => Iff.rfl, fun _ _ => rfl⟩
  cases hs with
  | idle => exact hrefl
  | raise T hT => exact { hrefl with term := Function.update_of_ne hne _ _ }
  | campaign =>
      exact { hrefl with
        term := Function.update_of_ne hne _ _
        voted := Function.update_of_ne hne _ _
        candLog := Function.update_of_ne hne _ _ }
  | grant c T C hT hfree hC hup =>
      exact { hrefl with
        term := Function.update_of_ne hne _ _, voted := Function.update_of_ne hne _ _ }
  | elect Q hQ hvotes hC hfree =>
      refine { hrefl with leader := fun T => ?_, leaderLog := fun T hT => ?_ }
      · by_cases hTv : T = p.term v
        · subst hTv
          simp [Proto.elect, hfree, hne.symm]
        · simp [Proto.elect, Function.update_of_ne hTv]
      · have hTv : T ≠ p.term v := by
          rintro rfl
          rw [hfree] at hT
          exact absurd hT (by simp)
        simp [Proto.elect, Function.update_of_ne hTv]
  | append e hl hlog he =>
      refine { hrefl with log := Function.update_of_ne hne _ _, leaderLog := fun T hT => ?_ }
      have hTv : T ≠ p.term v := by
        rintro rfl
        exact hne (Option.some.inj (hT.symm.trans hl))
      simp [Proto.append, Function.update_of_ne hTv]
  | receive T M hT hM hterm hσ =>
      exact { hrefl with
        term := Function.update_of_ne hne _ _, log := Function.update_of_ne hne _ _ }

/-- The log of a term stays as it is, or becomes the log of the server that takes the step. -/
theorem Step.leaderLog_cases (hs : Step τ σ v p p') (T : ℕ) :
    p'.leaderLog T = p.leaderLog T ∨ p'.leaderLog T = p'.log v := by
  cases hs with
  | elect Q hQ hvotes hC hfree =>
      by_cases hT : T = p.term v
      · subst hT
        exact Or.inr (Function.update_self _ _ _)
      · exact Or.inl (Function.update_of_ne hT _ _)
  | append e hl hlog he =>
      by_cases hT : T = p.term v
      · subst hT
        simp [Proto.append]
      · exact Or.inl (Function.update_of_ne hT _ _)
  | _ => exact Or.inl rfl

end Steps

end TermLog
