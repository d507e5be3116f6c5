import AiFS.Lib.Machine

set_option autoImplicit false

/-! # Systems of components

A system whose state holds a list of components of one kind, which grows at its end, and whose steps
concern at most one of them. `events` lists what happens to one component in a run, each time with
the state of the whole system before it. `Componentwise.exec` cuts a run down to a component: what
it is after a run of the system is what its own step function makes of its events. So what is proved
by induction over the events of one component holds in every run, whatever else goes on. -/

namespace Machine

variable {σ α β γ : Type}

/-- The events of component `k` in a run, with the states before them. -/
def events (step : σ → α → Option σ) (mine : ℕ → α → Option β) (k : ℕ) : σ → List α → List (σ × β)
  | _, [] => []
  | s, a :: as =>
      (mine k a).toList.map (s, ·) ++
        match step s a with
        | none => []
        | some s' => events step mine k s' as

theorem events_concat {step : σ → α → Option σ} {mine : ℕ → α → Option β} {k : ℕ} {s s' : σ}
    {as : List α} (hs : exec step s as = some s') (a : α) :
    events step mine k s (as ++ [a]) =
      events step mine k s as ++ (mine k a).toList.map (s', ·) := by
  induction as generalizing s with
  | nil =>
      obtain rfl := Option.some.inj hs
      cases h : step s a with
      | none => simp [events, h]
      | some t => simp [events, h]
  | cons b as ih =>
      obtain ⟨t, ht, hrest⟩ := exec_cons hs
      simp only [List.cons_append, events, ht, ih hrest, List.append_assoc]

/-- A step leaves the components, adds a new one, or is an event of one of them. -/
structure Componentwise (step : σ → α → Option σ) (mine : ℕ → α → Option β)
    (parts : σ → List γ) (fresh : γ → Prop) (part : γ → σ × β → Option γ) : Prop where
  cases : ∀ {s a s'}, step s a = some s' →
    ((∀ k, mine k a = none) ∧
      (parts s' = parts s ∨ ∃ c, fresh c ∧ parts s' = parts s ++ [c])) ∨
    ∃ k b c c', (∀ j, mine j a = if j = k then some b else none) ∧ (parts s)[k]? = some c ∧
      part c (s, b) = some c' ∧ parts s' = (parts s).set k c'

variable {step : σ → α → Option σ} {mine : ℕ → α → Option β} {parts : σ → List γ}
  {fresh : γ → Prop} {part : γ → σ × β → Option γ}

/-- **Component rule.** After a run that begins without components, each one is what its own step
    function has made of its events. -/
theorem Componentwise.exec (h : Componentwise step mine parts fresh part) {s s' : σ}
    {as : List α} (hnone : parts s = []) (hs : Machine.exec step s as = some s') :
    (∀ k c, (parts s')[k]? = some c →
      ∃ c₀, fresh c₀ ∧ Machine.exec part c₀ (events step mine k s as) = some c) ∧
    ∀ k, (parts s').length ≤ k → events step mine k s as = [] := by
  induction as using List.reverseRecOn generalizing s' with
  | nil =>
      obtain rfl := Option.some.inj hs
      refine ⟨fun k c hk => ?_, fun k _ => rfl⟩
      rw [hnone] at hk
      exact absurd hk (by simp)
  | append_singleton as a ih =>
      obtain ⟨t, ht, hstep⟩ := exec_concat hs
      obtain ⟨hparts, hlate⟩ := ih ht
      have hquiet : ∀ k, mine k a = none →
          events step mine k s (as ++ [a]) = events step mine k s as := by
        intro k hk
        rw [events_concat ht, hk]
        exact List.append_nil _
      rcases h.cases hstep with
        ⟨hmine, hsame | ⟨c₀, hfresh, hadd⟩⟩ | ⟨k, b, c, c', hmine, hc, hpart, hset⟩
      · simp only [fun k => hquiet k (hmine k), hsame]
        exact ⟨hparts, hlate⟩
      · simp only [fun k => hquiet k (hmine k), hadd]
        refine ⟨fun k c hk => ?_, fun k hk => hlate k ?_⟩
        · rcases Nat.lt_trichotomy k (parts t).length with hlt | rfl | hgt
          · rw [List.getElem?_append_left hlt] at hk
            exact hparts k c hk
          · obtain rfl : c₀ = c := by simpa using hk
            exact ⟨c₀, hfresh, by rw [hlate _ le_rfl]; rfl⟩
          · rw [List.getElem?_append_right hgt.le, List.getElem?_eq_none (by simp; omega)] at hk
            exact absurd hk (by simp)
        · rw [List.length_append] at hk
          exact (Nat.le_add_right _ _).trans hk
      · have hlt : k < (parts t).length := (List.getElem?_eq_some_iff.1 hc).1
        have hother : ∀ j, j ≠ k →
            events step mine j s (as ++ [a]) = events step mine j s as := by
          intro j hj
          exact hquiet j (by rw [hmine j, if_neg hj])
        rw [hset]
        refine ⟨fun j d hd => ?_, fun j hj => ?_⟩
        · by_cases hjk : j = k
          · subst hjk
            rw [List.getElem?_set_self hlt] at hd
            obtain rfl := Option.some.inj hd
            obtain ⟨c₀, hfresh, hrun⟩ := hparts j c hc
            refine ⟨c₀, hfresh, ?_⟩
            rw [events_concat ht, hmine j, if_pos rfl, exec_append, hrun]
            simp [Machine.exec, hpart]
          · rw [List.getElem?_set_ne (Ne.symm hjk)] at hd
            rw [hother j hjk]
            exact hparts j d hd
        · rw [List.length_set] at hj
          rw [hother j (by omega)]
          exact hlate j hj

/-- **Invariant rule, with the past.** What holds of a fresh component without a past, and is kept
    when an event is added to the past, holds of every component and its events. -/
theorem Componentwise.history (h : Componentwise step mine parts fresh part)
    {I : List (σ × β) → γ → Prop} (hfresh : ∀ c, fresh c → I [] c)
    (hstep : ∀ {xs x c c'}, I xs c → part c x = some c' → I (xs ++ [x]) c') {s s' : σ}
    {as : List α} (hnone : parts s = []) (hs : Machine.exec step s as = some s') {k : ℕ} {c : γ}
    (hk : (parts s')[k]? = some c) : I (events step mine k s as) c := by
  obtain ⟨c₀, hc₀, hrun⟩ := (h.exec hnone hs).1 k c hk
  clear hk
  generalize events step mine k s as = xs at hrun
  induction xs using List.reverseRecOn generalizing c with
  | nil =>
      obtain rfl := Option.some.inj hrun
      exact hfresh c₀ hc₀
  | append_singleton xs x ih =>
      obtain ⟨d, hd, hlast⟩ := exec_concat hrun
      exact hstep (ih hd) hlast

end Machine
