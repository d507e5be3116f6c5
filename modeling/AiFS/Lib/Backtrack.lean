import Mathlib

set_option autoImplicit false

/-! # Depth-first search with a memo

A search over configurations, each with a list of moves to try, for one that is a goal. The search
keeps a stack of the configurations it came through, with the moves that are left to try in each,
and a memo of every configuration it has entered, so that it enters none twice. `same` is the test
by which the memo goes.

The memo holds failures, but also the configurations that are still open. A `rank` that every move
lowers keeps the two apart: what the search is about to enter is of lower rank than all that is
open. The same rank bounds the number of steps. -/

namespace Backtrack

variable {C M : Type}

structure Problem (C M : Type) where
  moves : C → List M
  apply : C → M → Option C
  goal : C → Bool
  same : C → C → Bool

/-- Where a search is: the configuration it is in, the moves left to try there, and the same for
    those it came through, the last one first. -/
structure State (C M : Type) where
  cur : C
  todo : List M
  stack : List (C × List M)
  memo : List C

namespace Problem

variable (P : Problem C M)

def start (root : C) : State C M where
  cur := root
  todo := P.moves root
  stack := []
  memo := []

/-- One round: the answer, or where the search is then. -/
def step (s : State C M) : State C M ⊕ Bool :=
  if P.goal s.cur then .inr true
  else
    match s.todo with
    | m :: rest =>
        match P.apply s.cur m with
        | none => .inl { s with todo := rest }
        | some d =>
            if s.memo.any (P.same d) then .inl { s with todo := rest }
            else
              .inl { cur := d, todo := P.moves d, stack := (s.cur, rest) :: s.stack,
                     memo := d :: s.memo }
    | [] =>
        match s.stack with
        | [] => .inr false
        | (c, rest) :: stack => .inl { s with cur := c, todo := rest, stack := stack }

/-- A goal can be reached. -/
inductive Wins : C → Prop
  | here {c : C} (h : P.goal c = true) : Wins c
  | move {c d : C} {m : M} (hm : m ∈ P.moves c) (hd : P.apply c m = some d) (h : Wins d) : Wins c

/-- What keeps the search going down, and what the memo's test must respect. -/
structure Ranked (rank : C → ℕ) : Prop where
  lower : ∀ {c d m}, m ∈ P.moves c → P.apply c m = some d → rank d < rank c
  same_rank : ∀ {c d}, P.same c d = true → rank c = rank d
  same_wins : ∀ {c d}, P.same c d = true → P.Wins c → P.Wins d

/-! ## Steps -/

variable {P} {s s' : State C M}

/-- What a step does: it leaves a move out, it enters a configuration, or it goes back to the one it
    came from. -/
theorem step_cases (hstep : P.step s = .inl s') : P.goal s.cur = false ∧
    ((∃ m rest, s.todo = m :: rest ∧
        (∀ d, P.apply s.cur m = some d → s.memo.any (P.same d) = true) ∧
        s' = { s with todo := rest }) ∨
      (∃ m rest d, s.todo = m :: rest ∧ P.apply s.cur m = some d ∧ s.memo.any (P.same d) = false ∧
        s' = { cur := d, todo := P.moves d, stack := (s.cur, rest) :: s.stack,
               memo := d :: s.memo }) ∨
      ∃ c rest stack, s.todo = [] ∧ s.stack = (c, rest) :: stack ∧
        s' = { s with cur := c, todo := rest, stack := stack }) := by
  unfold step at hstep
  split at hstep
  · exact absurd hstep (by simp)
  · next hgoal =>
      refine ⟨by simpa using hgoal, ?_⟩
      split at hstep
      · next m rest htodo =>
          split at hstep
          · next hnone =>
              exact Or.inl ⟨m, rest, htodo, fun d hd => absurd (hnone.symm.trans hd) (by simp),
                (Sum.inl.inj hstep).symm⟩
          · next d hd =>
              split at hstep
              · next hmemo =>
                  refine Or.inl ⟨m, rest, htodo, fun e he => ?_, (Sum.inl.inj hstep).symm⟩
                  obtain rfl := Option.some.inj (hd.symm.trans he)
                  exact hmemo
              · next hmemo =>
                  exact Or.inr (Or.inl ⟨m, rest, d, htodo, hd, by simpa using hmemo,
                    (Sum.inl.inj hstep).symm⟩)
      · next htodo =>
          split at hstep
          · exact absurd hstep (by simp)
          · next c rest stack hstack =>
              exact Or.inr (Or.inr ⟨c, rest, stack, htodo, hstack, (Sum.inl.inj hstep).symm⟩)

/-- When a search ends: at a goal, or with nothing left to try. -/
theorem answer_cases {b : Bool} (hstep : P.step s = .inr b) :
    (b = true ∧ P.goal s.cur = true) ∨
      (b = false ∧ P.goal s.cur = false ∧ s.todo = [] ∧ s.stack = []) := by
  unfold step at hstep
  split at hstep
  · next hgoal => exact Or.inl ⟨(Sum.inr.inj hstep).symm, hgoal⟩
  · next hgoal =>
      split at hstep
      · split at hstep
        · exact absurd hstep (by simp)
        · split at hstep <;> exact absurd hstep (by simp)
      · next htodo =>
          split at hstep
          · next hstack =>
              exact Or.inr ⟨(Sum.inr.inj hstep).symm, by simpa using hgoal, htodo, hstack⟩
          · exact absurd hstep (by simp)

variable (P)

/-! ## The invariant -/

/-- The way from `root` to `c`. A move that is neither left to try nor on the way leads nowhere. -/
def Way (root : C) : List (C × List M) → C → Prop
  | [], c => c = root
  | (p, rest) :: stack, c =>
      (∃ m ∈ P.moves p, P.apply p m = some c) ∧ P.goal p = false ∧ rest ⊆ P.moves p ∧
        (∀ m ∈ P.moves p, ∀ d, P.apply p m = some d → P.Wins d → m ∈ rest ∨ P.Wins c) ∧
        Way root stack p

structure Inv (root : C) (s : State C M) : Prop where
  way : P.Way root s.stack s.cur
  todo : s.todo ⊆ P.moves s.cur
  tried : ∀ m ∈ P.moves s.cur, ∀ d, P.apply s.cur m = some d → P.Wins d → m ∈ s.todo
  memo : ∀ d ∈ s.memo, P.Wins d → d = s.cur ∨ d ∈ s.stack.map Prod.fst

theorem inv_start (root : C) : P.Inv root (P.start root) where
  way := rfl
  todo := List.Subset.refl _
  tried _ hm _ _ _ := hm
  memo _ hd := absurd hd (by simp [start])

variable {P} {rank : C → ℕ} {root : C}

theorem Way.rank_lt (hP : P.Ranked rank) {stack : List (C × List M)} {c p : C}
    (h : P.Way root stack c) (hp : p ∈ stack.map Prod.fst) : rank c < rank p := by
  induction stack generalizing c with
  | nil => cases hp
  | cons frame stack ih =>
      obtain ⟨q, rest⟩ := frame
      obtain ⟨⟨m, hm, hc⟩, _, _, _, hway⟩ := h
      rcases List.mem_cons.1 hp with rfl | hp
      · exact hP.lower hm hc
      · exact (hP.lower hm hc).trans (ih hway hp)

/-- Whoever reaches a goal from below reaches it from the root. -/
theorem Way.wins {stack : List (C × List M)} {c : C} (h : P.Way root stack c) (hc : P.Wins c) :
    P.Wins root := by
  induction stack generalizing c with
  | nil => exact h ▸ hc
  | cons frame stack ih =>
      obtain ⟨⟨m, hm, happly⟩, _, _, _, hway⟩ := h
      exact ih hway (.move hm happly hc)

/-- A configuration without a winning move that is no goal is lost. -/
theorem not_wins {c : C} (hgoal : P.goal c = false)
    (h : ∀ m ∈ P.moves c, ∀ d, P.apply c m = some d → ¬ P.Wins d) : ¬ P.Wins c := by
  intro hc
  cases hc with
  | here hg => exact absurd (hg.symm.trans hgoal) (by simp)
  | move hm hd hw => exact h _ hm _ hd hw

theorem Inv.skip (h : P.Inv root s) {m : M} {rest : List M} (htodo : s.todo = m :: rest)
    (hlost : ∀ d, P.apply s.cur m = some d → ¬ P.Wins d) : P.Inv root { s with todo := rest } where
  way := h.way
  todo x hx := h.todo (htodo ▸ List.mem_cons_of_mem _ hx)
  tried x hx d hd hw := by
    have hmem := h.tried x hx d hd hw
    rw [htodo] at hmem
    rcases List.mem_cons.1 hmem with rfl | hmem
    · exact absurd hw (hlost d hd)
    · exact hmem
  memo := h.memo

/-- What the memo holds already is not worth entering: it is not open. -/
theorem Inv.lost_of_memo (hP : P.Ranked rank) (h : P.Inv root s) {m : M} {d : C}
    (hm : m ∈ P.moves s.cur) (hd : P.apply s.cur m = some d)
    (hmemo : s.memo.any (P.same d) = true) : ¬ P.Wins d := by
  intro hw
  obtain ⟨e, he, hsame⟩ := List.any_eq_true.1 hmemo
  have hlt := hP.lower hm hd
  rw [hP.same_rank hsame] at hlt
  rcases h.memo e he (hP.same_wins hsame hw) with rfl | hstack
  · exact lt_irrefl _ hlt
  · exact lt_asymm hlt (h.way.rank_lt hP hstack)

theorem Inv.enter (h : P.Inv root s) (hgoal : P.goal s.cur = false) {m : M} {rest : List M} {d : C}
    (htodo : s.todo = m :: rest) (hd : P.apply s.cur m = some d) :
    P.Inv root { cur := d, todo := P.moves d, stack := (s.cur, rest) :: s.stack,
                 memo := d :: s.memo } where
  way := by
    have hm : m ∈ P.moves s.cur := h.todo (htodo ▸ List.mem_cons_self)
    refine ⟨⟨m, hm, hd⟩, hgoal, fun x hx => h.todo (htodo ▸ List.mem_cons_of_mem _ hx), ?_, h.way⟩
    intro x hx e he hw
    have hmem := h.tried x hx e he hw
    rw [htodo] at hmem
    rcases List.mem_cons.1 hmem with rfl | hmem
    · exact Or.inr (Option.some.inj (he.symm.trans hd) ▸ hw)
    · exact Or.inl hmem
  todo := List.Subset.refl _
  tried _ hx _ _ _ := hx
  memo e he hw := by
    rcases List.mem_cons.1 he with rfl | he
    · exact Or.inl rfl
    · rcases h.memo e he hw with rfl | hstack
      · exact Or.inr (by simp)
      · exact Or.inr (List.mem_cons_of_mem _ hstack)

theorem Inv.leave (h : P.Inv root s) (hgoal : P.goal s.cur = false) (htodo : s.todo = [])
    {c : C} {rest : List M} {stack : List (C × List M)} (hstack : s.stack = (c, rest) :: stack) :
    P.Inv root { s with cur := c, todo := rest, stack := stack } := by
  have hlost : ¬ P.Wins s.cur := not_wins hgoal fun m hm d hd hw => by
    simpa [htodo] using h.tried m hm d hd hw
  have hway := h.way
  rw [hstack] at hway
  obtain ⟨_, _, hsub, htried, hway⟩ := hway
  refine ⟨hway, hsub, fun m hm d hd hw => ?_, fun e he hw => ?_⟩
  · exact (htried m hm d hd hw).resolve_right hlost
  · rcases h.memo e he hw with rfl | hmem
    · exact absurd hw hlost
    · rw [hstack] at hmem
      exact List.mem_cons.1 hmem

/-- **Step lemma.** -/
theorem Inv.step (hP : P.Ranked rank) (h : P.Inv root s) (hstep : P.step s = .inl s') :
    P.Inv root s' := by
  obtain ⟨hgoal, ⟨m, rest, htodo, hmemo, rfl⟩ | ⟨m, rest, d, htodo, hd, _, rfl⟩ |
    ⟨c, rest, stack, htodo, hstack, rfl⟩⟩ := step_cases hstep
  · exact h.skip htodo fun d hd =>
      h.lost_of_memo hP (h.todo (htodo ▸ List.mem_cons_self)) hd (hmemo d hd)
  · exact h.enter hgoal htodo hd
  · exact h.leave hgoal htodo hstack

/-- **Answer.** The search ends with the right one. -/
theorem Inv.answer (h : P.Inv root s) {b : Bool} (hstep : P.step s = .inr b) :
    b = true ↔ P.Wins root := by
  obtain ⟨rfl, hgoal⟩ | ⟨rfl, hgoal, htodo, hstack⟩ := answer_cases hstep
  · simpa using h.way.wins (.here hgoal)
  · have hroot : s.cur = root := by
      have hway := h.way
      rwa [hstack] at hway
    have hlost : ¬ P.Wins s.cur := not_wins hgoal fun m hm d hd hw => by
      simpa [htodo] using h.tried m hm d hd hw
    rw [hroot] at hlost
    simpa using hlost

/-! ## What a failed search has seen -/

variable (P) in
/-- Where moves lead. -/
inductive Reach (root : C) : C → Prop
  | root : Reach root root
  | move {c d : C} {m : M} (h : Reach root c) (hm : m ∈ P.moves c) (hd : P.apply c m = some d) :
      Reach root d

variable (P) in
/-- Every move of what has been entered leads to what has been entered, or is left to try. -/
def Seen (root : C) (s : State C M) : Prop :=
  ∀ c ∈ root :: s.memo, ∀ m ∈ P.moves c, ∀ d, P.apply c m = some d →
    (∃ e ∈ s.memo, d = e ∨ P.same d e = true) ∨ (c = s.cur ∧ m ∈ s.todo) ∨
      ∃ rest, (c, rest) ∈ s.stack ∧ m ∈ rest

theorem seen_start (root : C) : P.Seen root (P.start root) := by
  intro c hc m hm d _
  obtain rfl : c = root := by simpa [start] using hc
  exact Or.inr (Or.inl ⟨rfl, hm⟩)

/-- A move that is not tried, or that leads to what has been entered, is left out. -/
theorem Seen.skip (h : P.Seen root s) {m : M} {rest : List M} (htodo : s.todo = m :: rest)
    (hmemo : ∀ d, P.apply s.cur m = some d → ∃ e ∈ s.memo, P.same d e = true) :
    P.Seen root { s with todo := rest } := by
  intro c hc x hx d hd
  rcases h c hc x hx d hd with hseen | ⟨rfl, hmem⟩ | hstack
  · exact Or.inl hseen
  · rw [htodo] at hmem
    rcases List.mem_cons.1 hmem with rfl | hmem
    · obtain ⟨e, he, hsame⟩ := hmemo d hd
      exact Or.inl ⟨e, he, Or.inr hsame⟩
    · exact Or.inr (Or.inl ⟨rfl, hmem⟩)
  · exact Or.inr (Or.inr hstack)

theorem Seen.enter (h : P.Seen root s) {m : M} {rest : List M} {d : C}
    (htodo : s.todo = m :: rest) (hd : P.apply s.cur m = some d) :
    P.Seen root { cur := d, todo := P.moves d, stack := (s.cur, rest) :: s.stack,
                  memo := d :: s.memo } := by
  intro c hc x hx f hf
  by_cases hcd : c = d
  · subst hcd
    exact Or.inr (Or.inl ⟨rfl, hx⟩)
  · have hold : c ∈ root :: s.memo := by
      simp only [List.mem_cons] at hc ⊢
      tauto
    rcases h c hold x hx f hf with ⟨e, he, hsame⟩ | ⟨rfl, hmem⟩ | ⟨rest', hrest, hmem⟩
    · exact Or.inl ⟨e, List.mem_cons_of_mem _ he, hsame⟩
    · rw [htodo] at hmem
      rcases List.mem_cons.1 hmem with rfl | hmem
      · obtain rfl := Option.some.inj (hf.symm.trans hd)
        exact Or.inl ⟨f, List.mem_cons_self, Or.inl rfl⟩
      · exact Or.inr (Or.inr ⟨rest, List.mem_cons_self, hmem⟩)
    · exact Or.inr (Or.inr ⟨rest', List.mem_cons_of_mem _ hrest, hmem⟩)

theorem Seen.leave (h : P.Seen root s) (htodo : s.todo = []) {c : C} {rest : List M}
    {stack : List (C × List M)} (hstack : s.stack = (c, rest) :: stack) :
    P.Seen root { s with cur := c, todo := rest, stack := stack } := by
  intro e he x hx f hf
  rcases h e he x hx f hf with hseen | ⟨_, hmem⟩ | ⟨rest', hrest, hmem⟩
  · exact Or.inl hseen
  · simp [htodo] at hmem
  · rw [hstack] at hrest
    rcases List.mem_cons.1 hrest with heq | hrest
    · obtain ⟨rfl, rfl⟩ := Prod.mk.inj heq
      exact Or.inr (Or.inl ⟨rfl, hmem⟩)
    · exact Or.inr (Or.inr ⟨rest', hrest, hmem⟩)

theorem Seen.step (h : P.Seen root s) (hstep : P.step s = .inl s') : P.Seen root s' := by
  obtain ⟨_, ⟨m, rest, htodo, hmemo, rfl⟩ | ⟨m, rest, d, htodo, hd, _, rfl⟩ |
    ⟨c, rest, stack, htodo, hstack, rfl⟩⟩ := step_cases hstep
  · exact h.skip htodo fun d hd => List.any_eq_true.1 (hmemo d hd)
  · exact h.enter htodo hd
  · exact h.leave htodo hstack

/-- **Exhaustion.** A search that gives up has entered everything that can be reached, up to what
    the memo's test does not tell apart. -/
theorem Seen.exhaustive (h : P.Seen root s) (htodo : s.todo = []) (hstack : s.stack = [])
    (hsame : ∀ {c c' d m}, P.same c c' = true → m ∈ P.moves c → P.apply c m = some d →
      m ∈ P.moves c' ∧ ∃ d', P.apply c' m = some d' ∧ P.same d d' = true)
    {c : C} (hc : P.Reach root c) :
    ∃ e ∈ root :: s.memo, Relation.ReflTransGen (fun x y => P.same x y = true) c e := by
  -- what is like `c` has the moves of `c`, and they lead to what is like
  have hlike : ∀ {c e : C}, Relation.ReflTransGen (fun x y => P.same x y = true) c e →
      ∀ {m d}, m ∈ P.moves c → P.apply c m = some d → m ∈ P.moves e ∧ ∃ d', P.apply e m = some d' ∧
        Relation.ReflTransGen (fun x y => P.same x y = true) d d' := by
    intro c e hce m d hm hd
    induction hce with
    | refl => exact ⟨hm, d, hd, .refl⟩
    | tail _ hlast ih =>
        obtain ⟨hm, d', hd', hdd'⟩ := ih
        obtain ⟨hm', d'', hd'', hlast'⟩ := hsame hlast hm hd'
        exact ⟨hm', d'', hd'', hdd'.tail hlast'⟩
  induction hc with
  | root => exact ⟨root, List.mem_cons_self, .refl⟩
  | move _ hm hd ih =>
      obtain ⟨e, he, hce⟩ := ih
      obtain ⟨hm', d', hd', hdd'⟩ := hlike hce hm hd
      rcases h e he _ hm' d' hd' with ⟨f, hf, rfl | hlast⟩ | ⟨_, hmem⟩ | ⟨rest, hmem, _⟩
      · exact ⟨d', List.mem_cons_of_mem _ hf, hdd'⟩
      · exact ⟨f, List.mem_cons_of_mem _ hf, hdd'.tail hlast⟩
      · simp [htodo] at hmem
      · simp [hstack] at hmem

/-! ## The number of steps -/

/-- A bound on the steps spent below a move of a configuration of this rank, with at most `b` moves
    everywhere. -/
def below (b : ℕ) : ℕ → ℕ
  | 0 => 0
  | r + 1 => b * (below b r + 2) + 1

theorem below_mono (b : ℕ) : Monotone (below b) := by
  refine monotone_nat_of_le_succ fun r => ?_
  induction r with
  | zero => exact Nat.zero_le _
  | succ r ih =>
      simp only [below] at ih ⊢
      gcongr

/-- The steps that are left in one configuration. -/
def left (b : ℕ) (rank : C → ℕ) (c : C) (todo : List M) : ℕ :=
  todo.length * (below b (rank c) + 2) + 1

theorem left_cons (b : ℕ) (rank : C → ℕ) (c : C) (m : M) (rest : List M) :
    left b rank c (m :: rest) = left b rank c rest + (below b (rank c) + 2) := by
  simp only [left, List.length_cons, Nat.add_mul]
  omega

/-- A bound on the steps that are left. -/
def cost (b : ℕ) (rank : C → ℕ) (s : State C M) : ℕ :=
  left b rank s.cur s.todo + (s.stack.map fun frame => left b rank frame.1 frame.2).sum

theorem cost_start_le {b : ℕ} (hb : ∀ c, (P.moves c).length ≤ b) (root : C) :
    cost b rank (P.start root) ≤ below b (rank root + 1) := by
  simp only [cost, left, start, List.map_nil, List.sum_nil, below, Nat.add_zero]
  gcongr
  exact hb root

/-- **Progress.** -/
theorem cost_step (hP : P.Ranked rank) {b : ℕ} (hb : ∀ c, (P.moves c).length ≤ b)
    (h : P.Inv root s) (hstep : P.step s = .inl s') : cost b rank s' < cost b rank s := by
  obtain ⟨_, ⟨m, rest, htodo, _, rfl⟩ | ⟨m, rest, d, htodo, hd, _, rfl⟩ |
    ⟨c, rest, stack, _, hstack, rfl⟩⟩ := step_cases hstep
  · simp only [cost, htodo, left_cons]
    omega
  · have hlt := hP.lower (h.todo (htodo ▸ List.mem_cons_self)) hd
    have hnew : left b rank d (P.moves d) ≤ below b (rank s.cur) := by
      calc left b rank d (P.moves d) ≤ b * (below b (rank d) + 2) + 1 := by
            unfold left
            gcongr
            exact hb d
        _ = below b (rank d + 1) := rfl
        _ ≤ below b (rank s.cur) := below_mono b hlt
    simp only [cost, List.map_cons, List.sum_cons, htodo, left_cons]
    omega
  · simp only [cost, hstack, List.map_cons, List.sum_cons]
    have : 0 < left b rank s.cur s.todo := Nat.succ_pos _
    omega

end Problem

end Backtrack
