import Mathlib

set_option autoImplicit false

/-! # Runs of a partial step function

A system is a partial step function `step : σ → α → Option σ`: `step s a` is `none` when the
action `a` is not enabled in `s` (or when the code would crash there). A run is a list of actions.
`exec` follows a run, `trace` lists the states it goes through, and `Along P` says that every step
of the run satisfies `P`, a condition on the action and the state *before* it.

The rules at the end are what the developments above use: an invariant that one step keeps, under
the condition, holds after every run that meets the condition, and a step that the abstract system
can follow makes every run one that the abstract system can follow. -/

namespace Machine

variable {σ α ρ : Type}

/-! ## Runs -/

/-- The state after a run, `none` as soon as an action is not enabled. -/
def exec (step : σ → α → Option σ) : σ → List α → Option σ
  | s, [] => some s
  | s, a :: as =>
      match step s a with
      | none => none
      | some s' => exec step s' as

/-- The states a run goes through, the first one included. -/
def trace (step : σ → α → Option σ) : σ → List α → List σ
  | s, [] => [s]
  | s, a :: as =>
      s :: match step s a with
        | none => []
        | some s' => trace step s' as

/-- Every step of the run satisfies `P` (a condition on the action and the state before it). -/
def Along (step : σ → α → Option σ) (P : σ → α → Prop) : σ → List α → Prop
  | _, [] => True
  | s, a :: as => P s a ∧ ∀ s', step s a = some s' → Along step P s' as

/-- Whether a run meets a decidable condition can be evaluated. -/
instance decidableAlong {step : σ → α → Option σ} {P : σ → α → Prop}
    [∀ s a, Decidable (P s a)] : ∀ (s : σ) (as : List α), Decidable (Along step P s as)
  | _, [] => isTrue trivial
  | s, a :: as =>
      match h : step s a with
      | none =>
          decidable_of_iff (P s a)
            ⟨fun hP => ⟨hP, fun s' hs' => absurd (h.symm.trans hs') (by simp)⟩, fun hP => hP.1⟩
      | some s' =>
          have : Decidable (Along step P s' as) := decidableAlong s' as
          decidable_of_iff (P s a ∧ Along step P s' as)
            ⟨fun hP => ⟨hP.1, fun t ht => Option.some.inj (h.symm.trans ht) ▸ hP.2⟩,
              fun hP => ⟨hP.1, hP.2 s' h⟩⟩

theorem exec_cons_of_some {step : σ → α → Option σ} {s s' : σ} {a : α} (as : List α)
    (h : step s a = some s') : exec step s (a :: as) = exec step s' as := by
  simp only [exec, h]

/-- A run that begins with `a` is one step and a run from the state after it. -/
theorem exec_cons {step : σ → α → Option σ} {s s'' : σ} {as : List α} {a : α}
    (h : exec step s (a :: as) = some s'') :
    ∃ s', step s a = some s' ∧ exec step s' as = some s'' := by
  cases hstep : step s a with
  | none => simp [exec, hstep] at h
  | some s' => exact ⟨s', rfl, exec_cons_of_some as hstep ▸ h⟩

theorem exec_append (step : σ → α → Option σ) (s : σ) (as bs : List α) :
    exec step s (as ++ bs) = (exec step s as).bind (fun s' => exec step s' bs) := by
  induction as generalizing s with
  | nil => rfl
  | cons a as ih =>
      cases h : step s a with
      | none => simp [exec, h]
      | some s' => simp only [List.cons_append, exec, h, ih]

/-- A run that ends with `a` is a run to the state before `a` and one step. -/
theorem exec_concat {step : σ → α → Option σ} {s s'' : σ} {as : List α} {a : α}
    (h : exec step s (as ++ [a]) = some s'') :
    ∃ s', exec step s as = some s' ∧ step s' a = some s'' := by
  rw [exec_append, Option.bind_eq_some_iff] at h
  obtain ⟨s', hs', hlast⟩ := h
  refine ⟨s', hs', ?_⟩
  cases hstep : step s' a with
  | none => simp [exec, hstep] at hlast
  | some t => simpa [exec, hstep] using hlast

theorem exec_trans {step : σ → α → Option σ} {s s' s'' : σ} {as bs : List α}
    (h : exec step s as = some s') (h' : exec step s' bs = some s'') :
    exec step s (as ++ bs) = some s'' := by
  rw [exec_append, h]
  exact h'

theorem exec_snoc {step : σ → α → Option σ} {s s' s'' : σ} {as : List α} {a : α}
    (h : exec step s as = some s') (ha : step s' a = some s'') :
    exec step s (as ++ [a]) = some s'' :=
  exec_trans h (exec_cons_of_some [] ha)

theorem along_append {step : σ → α → Option σ} {P : σ → α → Prop} {s s' : σ} {as bs : List α}
    (h : Along step P s (as ++ bs)) (hs : exec step s as = some s') : Along step P s' bs := by
  induction as generalizing s with
  | nil =>
      simp only [exec, Option.some.injEq] at hs
      subst hs
      exact h
  | cons a as ih =>
      cases hstep : step s a with
      | none => simp [exec, hstep] at hs
      | some t =>
          simp only [exec, hstep] at hs
          exact ih (h.2 t hstep) hs

theorem along_left {step : σ → α → Option σ} {P : σ → α → Prop} {s : σ} {as bs : List α}
    (h : Along step P s (as ++ bs)) : Along step P s as := by
  induction as generalizing s with
  | nil => trivial
  | cons a as ih => exact ⟨h.1, fun s' hs' => ih (h.2 s' hs')⟩

theorem along_of_append {step : σ → α → Option σ} {P : σ → α → Prop} {s : σ} {as bs : List α}
    (h : Along step P s as) (h' : ∀ s', exec step s as = some s' → Along step P s' bs) :
    Along step P s (as ++ bs) := by
  induction as generalizing s with
  | nil => exact h' s rfl
  | cons a as ih =>
      refine ⟨h.1, fun t ht => ih (h.2 t ht) fun s' hs' => h' s' ?_⟩
      rw [exec_cons_of_some as ht]
      exact hs'

theorem along_of_forall {step : σ → α → Option σ} {P : σ → α → Prop} (h : ∀ s a, P s a) :
    ∀ (as : List α) (s : σ), Along step P s as
  | [], _ => trivial
  | a :: as, s => ⟨h s a, fun s' _ => along_of_forall h as s'⟩

theorem along_mono {step : σ → α → Option σ} {P Q : σ → α → Prop} (h : ∀ s a, P s a → Q s a) :
    ∀ {as : List α} {s : σ}, Along step P s as → Along step Q s as
  | [], _, _ => trivial
  | _ :: _, _, hP => ⟨h _ _ hP.1, fun s' hs' => along_mono h (hP.2 s' hs')⟩

theorem along_of_mem {step : σ → α → Option σ} {Q : α → Prop} :
    ∀ {as : List α} {s : σ}, (∀ a ∈ as, Q a) → Along step (fun _ a => Q a) s as
  | [], _, _ => trivial
  | a :: _, _, hQ =>
      ⟨hQ a List.mem_cons_self, fun _ _ =>
        along_of_mem (fun b hb => hQ b (List.mem_cons_of_mem _ hb))⟩

theorem along_and {step : σ → α → Option σ} {P Q : σ → α → Prop} :
    ∀ {as : List α} {s : σ}, Along step P s as → Along step Q s as →
      Along step (fun s a => P s a ∧ Q s a) s as
  | [], _, _, _ => trivial
  | _ :: _, _, hP, hQ =>
      ⟨⟨hP.1, hQ.1⟩, fun s' hs' => along_and (hP.2 s' hs') (hQ.2 s' hs')⟩

/-- The condition at the last step of a run. -/
theorem along_last {step : σ → α → Option σ} {P : σ → α → Prop} {s s' : σ} {as : List α} {a : α}
    (h : Along step P s (as ++ [a])) (hs : exec step s as = some s') : P s' a :=
  (along_append h hs).1

/-! ## The states of a run -/

theorem trace_concat {step : σ → α → Option σ} {s s' s'' : σ} {as : List α} {a : α}
    (hs : exec step s as = some s') (ha : step s' a = some s'') :
    trace step s (as ++ [a]) = trace step s as ++ [s''] := by
  induction as generalizing s with
  | nil =>
      simp only [exec, Option.some.injEq] at hs
      subst hs
      simp [trace, ha]
  | cons b as ih =>
      cases hstep : step s b with
      | none => simp [exec, hstep] at hs
      | some t =>
          simp only [exec, hstep] at hs
          simp only [List.cons_append, trace, hstep, ih hs]

theorem mem_trace_last {step : σ → α → Option σ} {s s' : σ} {as : List α}
    (hs : exec step s as = some s') : s' ∈ trace step s as := by
  induction as generalizing s with
  | nil =>
      simp only [exec, Option.some.injEq] at hs
      subst hs
      simp [trace]
  | cons b as ih =>
      cases hstep : step s b with
      | none => simp [exec, hstep] at hs
      | some t =>
          simp only [exec, hstep] at hs
          simp only [trace, hstep]
          exact List.mem_cons_of_mem _ (ih hs)

/-! ## Steps of a run -/

/-- Somewhere in the run there is a step, from one state to the next, that `Q` is true of. -/
def Occurs (step : σ → α → Option σ) (s₀ : σ) (as : List α) (Q : σ → α → σ → Prop) : Prop :=
  ∃ pre a post s s', as = pre ++ a :: post ∧ exec step s₀ pre = some s ∧ step s a = some s' ∧
    Q s a s'

theorem Occurs.append {step : σ → α → Option σ} {s₀ : σ} {as : List α} {Q : σ → α → σ → Prop}
    (h : Occurs step s₀ as Q) (bs : List α) : Occurs step s₀ (as ++ bs) Q := by
  obtain ⟨pre, a, post, s, s', rfl, hpre, hstep, hQ⟩ := h
  exact ⟨pre, a, post ++ bs, s, s', by simp, hpre, hstep, hQ⟩

theorem occurs_last {step : σ → α → Option σ} {s₀ s s' : σ} {as : List α} {a : α}
    {Q : σ → α → σ → Prop} (h : exec step s₀ as = some s) (ha : step s a = some s')
    (hQ : Q s a s') : Occurs step s₀ (as ++ [a]) Q :=
  ⟨as, a, [], s, s', rfl, h, ha, hQ⟩

theorem Occurs.imp {step : σ → α → Option σ} {s₀ : σ} {as : List α} {Q R : σ → α → σ → Prop}
    (h : Occurs step s₀ as Q) (hQ : ∀ s a s', step s a = some s' → Q s a s' → R s a s') :
    Occurs step s₀ as R := by
  obtain ⟨pre, a, post, s, s', has, hpre, hstep, hs⟩ := h
  exact ⟨pre, a, post, s, s', has, hpre, hstep, hQ s a s' hstep hs⟩

/-! ## Proof rules -/

/-- **Invariant rule.** What holds at the start and is kept by every step that meets the condition
    holds after every run that meets it. -/
theorem invariant_exec {step : σ → α → Option σ} {P : σ → α → Prop} {I : σ → Prop}
    (hstep : ∀ s a s', I s → P s a → step s a = some s' → I s') :
    ∀ (as : List α) (s s' : σ), I s → Along step P s as → exec step s as = some s' → I s' := by
  intro as
  induction as with
  | nil =>
      intro s s' hI _ hs
      simp only [exec, Option.some.injEq] at hs
      exact hs ▸ hI
  | cons a as ih =>
      intro s s' hI hP hs
      cases h : step s a with
      | none => simp [exec, h] at hs
      | some t =>
          simp only [exec, h] at hs
          exact ih t s' (hstep s a t hI hP.1 h) (hP.2 t h) hs

/-- **History rule.** The same for an invariant that speaks about the run so far. -/
theorem history_exec {step : σ → α → Option σ} {P : σ → α → Prop} {I : List α → σ → Prop} {s₀ : σ}
    (hinit : I [] s₀)
    (hstep : ∀ as s a s', exec step s₀ as = some s → I as s → P s a → step s a = some s' →
      I (as ++ [a]) s') (as : List α) :
    ∀ s, Along step P s₀ as → exec step s₀ as = some s → I as s := by
  induction as using List.reverseRecOn with
  | nil =>
      intro s _ hs
      exact Option.some.inj hs ▸ hinit
  | append_singleton as a ih =>
      intro s hP hs
      obtain ⟨t, ht, ha⟩ := exec_concat hs
      exact hstep as t a s ht (ih t (along_left hP) ht) (along_last hP ht) ha

/-- **Simulation rule.** If every step that meets the condition can be followed by an abstract step
    that keeps the relation, every run that meets it can be followed by an abstract run. -/
theorem simulation_exec {step : σ → α → Option σ} {P : σ → α → Prop} {R : σ → ρ → Prop}
    {Abs : ρ → ρ → Prop} (hrefl : ∀ r, Abs r r)
    (htrans : ∀ {r r' r''}, Abs r r' → Abs r' r'' → Abs r r'')
    (hstep : ∀ s a s' r, R s r → P s a → step s a = some s' → ∃ r', Abs r r' ∧ R s' r') :
    ∀ (as : List α) (s s' : σ) (r : ρ), R s r → Along step P s as → exec step s as = some s' →
      ∃ r', Abs r r' ∧ R s' r' := by
  intro as
  induction as with
  | nil =>
      intro s s' r hR _ hs
      simp only [exec, Option.some.injEq] at hs
      exact ⟨r, hrefl r, hs ▸ hR⟩
  | cons a as ih =>
      intro s s' r hR hP hs
      cases h : step s a with
      | none => simp [exec, h] at hs
      | some t =>
          simp only [exec, h] at hs
          obtain ⟨r₁, habs, hR₁⟩ := hstep s a t r hR hP.1 h
          obtain ⟨r', hruns, hR'⟩ := ih t s' r₁ hR₁ (hP.2 t h) hs
          exact ⟨r', htrans habs hruns, hR'⟩

/-- **Simulation rule, along the run.** The abstract states that follow a run form a chain, one for
    each of its prefixes, with a last one. -/
theorem simulation_trace {step : σ → α → Option σ} {R : σ → ρ → Prop} {Abs : ρ → ρ → Prop}
    (hrefl : ∀ r, Abs r r) (htrans : ∀ {r r' r''}, Abs r r' → Abs r' r'' → Abs r r'')
    (hstep : ∀ s a s' r, R s r → step s a = some s' → ∃ r', Abs r r' ∧ R s' r') :
    ∀ (as : List α) (s : σ) (r : ρ), R s r → ∃ (f : ℕ → ρ) (last : ρ), f 0 = r ∧
      (∀ i s', exec step s (as.take i) = some s' → R s' (f i)) ∧
      (∀ i j, i ≤ j → Abs (f i) (f j)) ∧ ∀ i, Abs (f i) last := by
  intro as
  -- a run that does not get anywhere is followed by staying
  have hstay : ∀ (as : List α) (s : σ) (r : ρ), R s r →
      (∀ i s', exec step s (as.take i) = some s' → s' = s) → ∃ (f : ℕ → ρ) (last : ρ), f 0 = r ∧
      (∀ i s', exec step s (as.take i) = some s' → R s' (f i)) ∧
      (∀ i j, i ≤ j → Abs (f i) (f j)) ∧ ∀ i, Abs (f i) last := by
    intro as s r hR hsame
    exact ⟨fun _ => r, r, rfl, fun i s' hs => hsame i s' hs ▸ hR, fun _ _ _ => hrefl r,
      fun _ => hrefl r⟩
  induction as with
  | nil =>
      intro s r hR
      exact hstay [] s r hR (fun i s' hs => by simpa [exec] using hs.symm)
  | cons a as ih =>
      intro s r hR
      cases h : step s a with
      | none =>
          refine hstay (a :: as) s r hR (fun i s' hs => ?_)
          cases i with
          | zero => exact (Option.some.inj hs).symm
          | succ i => simp [exec, h] at hs
      | some t =>
          obtain ⟨r₁, habs, hR₁⟩ := hstep s a t r hR h
          obtain ⟨f, last, hzero, hf, hmono, hlast⟩ := ih t r₁ hR₁
          have hfirst : ∀ j, Abs r (f j) := fun j =>
            htrans (hzero ▸ habs) (hmono 0 j (Nat.zero_le j))
          refine ⟨fun i => i.casesOn r f, last, rfl, fun i s' hs => ?_, fun i j hij => ?_,
            fun i => ?_⟩
          · cases i with
            | zero => exact Option.some.inj hs ▸ hR
            | succ i =>
                rw [List.take_succ_cons, exec_cons_of_some _ h] at hs
                exact hf i s' hs
          · cases i with
            | zero =>
                cases j with
                | zero => exact hrefl r
                | succ j => exact hfirst j
            | succ i =>
                cases j with
                | zero => exact absurd hij (by simp)
                | succ j => exact hmono i j (Nat.le_of_succ_le_succ hij)
          · cases i with
            | zero => exact htrans (hfirst 0) (hlast 0)
            | succ i => exact hlast i

/-! ## Loops -/

/-- At most `k` rounds of a loop whose body goes on, ends with a result, or crashes. -/
def loop (body : σ → Option (σ ⊕ ρ)) : ℕ → σ → Option ρ
  | 0, _ => none
  | k + 1, s =>
      match body s with
      | none => none
      | some (.inl s') => loop body k s'
      | some (.inr r) => some r

/-- **Loop rule.** A loop that keeps an invariant while a bound on its rounds falls ends, with a
    result that the invariant allows. -/
theorem loop_ends {body : σ → Option (σ ⊕ ρ)} {I : ℕ → σ → Prop} {Q : ρ → Prop}
    (hbody : ∀ m s, I m s → (∃ m' s', body s = some (.inl s') ∧ I m' s' ∧ m' < m) ∨
      ∃ r, body s = some (.inr r) ∧ Q r) :
    ∀ (k m : ℕ) (s : σ), I m s → m < k → ∃ r, loop body k s = some r ∧ Q r := by
  intro k
  induction k with
  | zero => exact fun m s _ hlt => absurd hlt (Nat.not_lt_zero _)
  | succ k ih =>
      intro m s hs hlt
      rcases hbody m s hs with ⟨m', s', hs', hI, hless⟩ | ⟨r, hr, hQ⟩
      · obtain ⟨r, hr, hQ⟩ := ih m' s' hI (by omega)
        exact ⟨r, by simp only [loop, hs', hr], hQ⟩
      · exact ⟨r, by simp only [loop, hr], hQ⟩

end Machine
