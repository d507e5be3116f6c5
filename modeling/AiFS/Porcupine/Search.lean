import AiFS.Lib.Backtrack
import AiFS.Porcupine.Layout

set_option autoImplicit false

/-! # The search behind checkSingle

A configuration is the operations that are linearized and the state after them, a move is a call
that no return of what is left comes before. `Layout.problem` is the depth-first search over these,
without the pointers, the bit set and the hashes of `checkSingle`; it reaches a goal exactly if the
history is linearizable (`Layout.wins_iff`), and what it reaches are the beginnings of
linearizations (`Layout.reach_iff`). -/

namespace AiFS

namespace Porcupine

variable {S ι ο : Type}

/-! ## What is left -/

namespace Heap

variable (h : Heap ι ο)

def hasMatch (a : ℕ) : Bool :=
  (h.mtchOf a).isSome

/-- The nodes of the operations that are not linearized. -/
def rest (done : List ℕ) : List ℕ :=
  (List.range h.nodes.length).filter fun a => h.idOf a ∉ done

theorem mem_rest {done : List ℕ} {a : ℕ} :
    a ∈ h.rest done ↔ a < h.nodes.length ∧ h.idOf a ∉ done := by
  simp [rest]

theorem rest_sorted (done : List ℕ) : (h.rest done).Pairwise (· < ·) :=
  List.pairwise_lt_range.filter _

theorem rest_cons (id : ℕ) (done : List ℕ) :
    h.rest (id :: done) = (h.rest done).filter fun a => h.idOf a ≠ id := by
  rw [rest, rest, List.filter_filter]
  congr 1
  funext a
  simp [not_or]

theorem rest_congr {done done' : List ℕ} (heq : done.toFinset = done'.toFinset) :
    h.rest done = h.rest done' := by
  have hmem : ∀ id, id ∈ done ↔ id ∈ done' := fun id => by
    rw [← List.mem_toFinset, heq, List.mem_toFinset]
  simp only [rest, hmem]

end Heap

namespace Layout

variable {es : List (Entry ι ο)} {n : ℕ} (L : Layout es n) (model : FilledModel S ι ο)

/-- The search: what is linearized, the last one first, and the state after it. -/
def problem : Backtrack.Problem (List ℕ × S) ℕ where
  moves c := ((makeLinkedEntries es).rest c.1).takeWhile (makeLinkedEntries es).hasMatch
  apply c a :=
    let id := (makeLinkedEntries es).idOf a
    (L.step model c.2 id).map fun state => (id :: c.1, state)
  goal c := ((makeLinkedEntries es).rest c.1).isEmpty
  same c d := decide (c.1.toFinset = d.1.toFinset) && model.equal c.2 d.2

/-- The operations that are not linearized. -/
def remaining (n : ℕ) (done : List ℕ) : List ℕ :=
  (List.range n).filter (· ∉ done)

theorem mem_remaining {done : List ℕ} {id : ℕ} : id ∈ remaining n done ↔ id < n ∧ id ∉ done := by
  simp [remaining]

theorem remaining_nodup (done : List ℕ) : (remaining n done).Nodup :=
  List.nodup_range.filter _

theorem remaining_congr {done done' : List ℕ} (heq : done.toFinset = done'.toFinset) :
    remaining n done = remaining n done' := by
  have hmem : ∀ id, id ∈ done ↔ id ∈ done' := fun id => by
    rw [← List.mem_toFinset, heq, List.mem_toFinset]
  simp only [remaining, hmem]

theorem remaining_reverse (done : List ℕ) : remaining n done.reverse = remaining n done := by
  simp [remaining]

theorem remaining_perm {done : List ℕ} {id : ℕ} (hid : id ∈ remaining n done) :
    (id :: remaining n (id :: done)).Perm (remaining n done) := by
  refine (List.perm_ext_iff_of_nodup ?_ (remaining_nodup done)).2 fun b => ?_
  · refine List.nodup_cons.2 ⟨fun hmem => ?_, remaining_nodup _⟩
    exact (mem_remaining.1 hmem).2 List.mem_cons_self
  · obtain ⟨hlt, hdone⟩ := mem_remaining.1 hid
    simp only [List.mem_cons, mem_remaining, not_or]
    constructor
    · rintro (rfl | ⟨hb, _, hnot⟩)
      · exact ⟨hlt, hdone⟩
      · exact ⟨hb, hnot⟩
    · rintro ⟨hb, hnot⟩
      by_cases heq : b = id
      · exact Or.inl heq
      · exact Or.inr ⟨hb, heq, hnot⟩

include L in
theorem nodes_length : (makeLinkedEntries es).nodes.length = 2 * n := by
  rw [← L.length_eq]
  exact length_nodes es 0

/-- What is left holds the call and the return of every operation that is not linearized. -/
theorem call_mem_rest {done : List ℕ} {id : ℕ} (hid : id < n) :
    L.call id ∈ (makeLinkedEntries es).rest done ↔ id ∉ done := by
  simp [Heap.mem_rest, L.nodes_length, L.call_lt hid, L.idOf_call hid]

theorem ret_mem_rest {done : List ℕ} {id : ℕ} (hid : id < n) :
    L.ret id ∈ (makeLinkedEntries es).rest done ↔ id ∉ done := by
  simp [Heap.mem_rest, L.nodes_length, L.ret_lt hid, L.idOf_ret hid]

/-- A node that is left belongs to an operation that is left. -/
theorem of_mem_rest {done : List ℕ} {a : ℕ} (ha : a ∈ (makeLinkedEntries es).rest done) :
    ∃ id ∈ remaining n done, a = L.call id ∨ a = L.ret id := by
  obtain ⟨hlt, hdone⟩ := (Heap.mem_rest _).1 ha
  rw [L.nodes_length] at hlt
  obtain ⟨id, hid, hpos⟩ := L.call_or_ret hlt
  refine ⟨id, mem_remaining.2 ⟨hid, ?_⟩, hpos⟩
  rcases hpos with rfl | rfl
  · rwa [L.idOf_call hid] at hdone
  · rwa [L.idOf_ret hid] at hdone

include L in
theorem rest_eq_nil_iff {done : List ℕ} :
    (makeLinkedEntries es).rest done = [] ↔ remaining n done = [] := by
  simp only [List.eq_nil_iff_forall_not_mem]
  constructor
  · intro hnil id hid
    obtain ⟨hlt, hdone⟩ := mem_remaining.1 hid
    exact hnil _ ((L.call_mem_rest hlt).2 hdone)
  · intro hnil a ha
    obtain ⟨id, hid, _⟩ := L.of_mem_rest ha
    exact hnil id hid

/-! ## Moves -/

/-- In an increasing list, what `takeWhile` keeps has nothing before it that fails. -/
theorem mem_takeWhile_of_sorted {p : ℕ → Bool} {xs : List ℕ} (h : xs.Pairwise (· < ·)) {a : ℕ} :
    a ∈ xs.takeWhile p ↔ a ∈ xs ∧ p a = true ∧ ∀ b ∈ xs, b < a → p b = true := by
  induction xs with
  | nil => simp
  | cons x xs ih =>
      obtain ⟨hx, hxs⟩ := List.pairwise_cons.1 h
      rw [List.takeWhile_cons]
      cases hp : p x with
      | false =>
          simp only [Bool.false_eq_true, if_false, List.not_mem_nil, false_iff]
          rintro ⟨ha, hpa, hbefore⟩
          rcases List.mem_cons.1 ha with rfl | ha
          · simp [hp] at hpa
          · exact absurd (hbefore x List.mem_cons_self (hx a ha)) (by simp [hp])
      | true =>
          simp only [if_true, List.mem_cons, ih hxs]
          constructor
          · rintro (rfl | ⟨ha, hpa, hbefore⟩)
            · refine ⟨Or.inl rfl, hp, ?_⟩
              rintro b (rfl | hb) hlt
              · exact hp
              · exact absurd hlt (not_lt.2 (hx b hb).le)
            · refine ⟨Or.inr ha, hpa, ?_⟩
              rintro b (rfl | hb) hlt
              · exact hp
              · exact hbefore b hb hlt
          · rintro ⟨rfl | ha, hpa, hbefore⟩
            · exact Or.inl rfl
            · exact Or.inr ⟨ha, hpa, fun b hb => hbefore b (Or.inr hb)⟩

/-- **Moves.** The calls that may come next are those of the operations that no operation which is
    left precedes. -/
theorem mem_moves {c : List ℕ × S} {a : ℕ} : a ∈ (L.problem model).moves c ↔
    ∃ id ∈ remaining n c.1, a = L.call id ∧ ∀ b ∈ remaining n c.1, ¬ L.Precedes b id := by
  rw [problem, mem_takeWhile_of_sorted (Heap.rest_sorted _ _)]
  constructor
  · rintro ⟨ha, hmatch, hbefore⟩
    obtain ⟨id, hid, rfl | rfl⟩ := L.of_mem_rest ha
    · refine ⟨id, hid, rfl, fun b hb hlt => ?_⟩
      obtain ⟨hbn, hbdone⟩ := mem_remaining.1 hb
      have hcontra := hbefore _ ((L.ret_mem_rest hbn).2 hbdone) hlt
      simp [Heap.hasMatch, L.mtchOf_ret hbn] at hcontra
    · simp [Heap.hasMatch, L.mtchOf_ret (mem_remaining.1 hid).1] at hmatch
  · rintro ⟨id, hid, rfl, hfirst⟩
    obtain ⟨hlt, hdone⟩ := mem_remaining.1 hid
    refine ⟨(L.call_mem_rest hlt).2 hdone, by simp [Heap.hasMatch, L.mtchOf_call hlt], ?_⟩
    intro b hb hbefore
    obtain ⟨id', hid', rfl | rfl⟩ := L.of_mem_rest hb
    · simp [Heap.hasMatch, L.mtchOf_call (mem_remaining.1 hid').1]
    · exact absurd hbefore (hfirst id' hid')

theorem apply_call {c d : List ℕ × S} {id : ℕ} (hid : id < n) :
    (L.problem model).apply c (L.call id) = some d ↔
      ∃ state, L.step model c.2 id = some state ∧ d = (id :: c.1, state) := by
  simp only [problem, L.idOf_call hid, Option.map_eq_some_iff]
  simp only [eq_comm]

/-- **The search is right.** A goal can be reached exactly if what is left can be linearized. -/
theorem wins_iff (c : List ℕ × S) : (L.problem model).Wins c ↔
    Linearize.Linearizable (L.step model) L.Precedes c.2 (remaining n c.1) := by
  constructor
  · intro h
    induction h with
    | @here c hgoal =>
        have hnil : remaining n c.1 = [] := L.rest_eq_nil_iff.1 (by simpa [problem] using hgoal)
        rw [hnil]
        exact Linearize.linearizable_nil
    | @move c d a ha hd _ ih =>
        obtain ⟨id, hid, rfl, hfirst⟩ := (L.mem_moves model).1 ha
        obtain ⟨state, hstep, rfl⟩ := (L.apply_call model (mem_remaining.1 hid).1).1 hd
        have hperm := remaining_perm hid
        exact .cons hperm (fun b hb => hfirst b (hperm.subset (List.mem_cons_of_mem _ hb))) hstep ih
  · -- by the number of operations that are left
    intro h
    induction hk : (remaining n c.1).length generalizing c with
    | zero =>
        refine .here ?_
        have hnil := L.rest_eq_nil_iff.2 (List.length_eq_zero_iff.1 hk)
        simp [problem, hnil]
    | succ k ih =>
        rcases Linearize.linearizable_iff.1 h with hnil |
          ⟨id, rest, state, hperm, hfirst, hstep, hrest⟩
        · simp [hnil] at hk
        · have hid : id ∈ remaining n c.1 := hperm.subset List.mem_cons_self
          have hlt := (mem_remaining.1 hid).1
          have hrest' : rest.Perm (remaining n (id :: c.1)) :=
            (hperm.trans (remaining_perm hid).symm).cons_inv
          have hself : ¬ L.Precedes id id := not_lt.2 (L.call_lt_ret id hlt).le
          refine .move ((L.mem_moves model).2 ⟨id, hid, rfl, fun b hb => ?_⟩)
            ((L.apply_call model hlt).2 ⟨state, hstep, rfl⟩) (ih _ (hrest.of_perm hrest') ?_)
          · rcases List.mem_cons.1 (hperm.symm.subset hb) with rfl | hb
            · exact hself
            · exact hfirst b hb
          · have hlen := (remaining_perm hid).length_eq
            rw [List.length_cons, hk] at hlen
            exact Nat.succ.inj hlen

/-! ## Equal states -/

/-- The states that `equal` takes for one another are so for every operation to come. `shallowEqual`
    always has this (`congruent_fillDefault`). -/
def Congruent (model : FilledModel S ι ο) : Prop :=
  ∀ s t input output, model.equal s t = true → (model.step s input output).1 = true →
    (model.step t input output).1 = true ∧
      model.equal (model.step s input output).2 (model.step t input output).2 = true

theorem congruent_fillDefault [DecidableEq S] {model : Model S ι ο} (hequal : model.equal = none) :
    Congruent (fillDefault model) := by
  intro s t input output hst hok
  simp only [fillDefault, hequal, Option.getD_none, shallowEqual, decide_eq_true_eq] at hst ⊢
  subst hst
  exact ⟨hok, rfl⟩

variable {model}

theorem step_congr (hequal : Congruent model) {s t s' : S} {id : ℕ} (h : model.equal s t = true)
    (hs' : L.step model s id = some s') :
    ∃ t', L.step model t id = some t' ∧ model.equal s' t' = true := by
  unfold step at hs' ⊢
  split at hs'
  · next hok =>
      obtain ⟨hok', hequal'⟩ := hequal s t _ _ h hok
      obtain rfl := Option.some.inj hs'
      exact ⟨_, if_pos hok', hequal'⟩
  · exact absurd hs' (by simp)

theorem same_iff {c d : List ℕ × S} : (L.problem model).same c d = true ↔
    c.1.toFinset = d.1.toFinset ∧ model.equal c.2 d.2 = true := by
  simp [problem]

theorem ranked (hequal : Congruent model) :
    (L.problem model).Ranked fun c => ((makeLinkedEntries es).rest c.1).length where
  lower := by
    intro c d a ha hd
    obtain ⟨id, hid, rfl, _⟩ := (L.mem_moves model).1 ha
    obtain ⟨hlt, hdone⟩ := mem_remaining.1 hid
    obtain ⟨state, _, rfl⟩ := (L.apply_call model hlt).1 hd
    dsimp only
    rw [Heap.rest_cons]
    refine List.length_filter_lt_length_iff_exists.2 ⟨L.call id, (L.call_mem_rest hlt).2 hdone, ?_⟩
    simp [L.idOf_call hlt]
  same_rank := by
    intro c d hsame
    rw [Heap.rest_congr _ (L.same_iff.1 hsame).1]
  same_wins := by
    intro c d hsame hwins
    obtain ⟨heq, hstate⟩ := L.same_iff.1 hsame
    rw [wins_iff] at hwins ⊢
    rw [remaining_congr heq] at hwins
    have hsimilar : ∀ s t id s', model.equal s t = true → L.step model s id = some s' →
        ∃ t', L.step model t id = some t' ∧ model.equal s' t' = true :=
      fun s t id s' => L.step_congr hequal
    exact Linearize.Linearizable.of_similar (R := fun s t => model.equal s t = true) hsimilar
      hstate hwins

/-- What `same` takes for one another has the same moves, to what `same` takes for one another. -/
theorem same_moves (hequal : Congruent model) {c c' d : List ℕ × S} {a : ℕ}
    (hsame : (L.problem model).same c c' = true) (ha : a ∈ (L.problem model).moves c)
    (hd : (L.problem model).apply c a = some d) :
    a ∈ (L.problem model).moves c' ∧
      ∃ d', (L.problem model).apply c' a = some d' ∧ (L.problem model).same d d' = true := by
  obtain ⟨heq, hstate⟩ := L.same_iff.1 hsame
  obtain ⟨id, hid, rfl, hfirst⟩ := (L.mem_moves model).1 ha
  have hlt := (mem_remaining.1 hid).1
  obtain ⟨state, hstep, rfl⟩ := (L.apply_call model hlt).1 hd
  obtain ⟨state', hstep', hstate'⟩ := L.step_congr hequal hstate hstep
  rw [remaining_congr heq] at hid hfirst
  refine ⟨(L.mem_moves model).2 ⟨id, hid, rfl, hfirst⟩, _,
    (L.apply_call model hlt).2 ⟨state', hstep', rfl⟩, L.same_iff.2 ⟨?_, hstate'⟩⟩
  simp [heq]

/-! ## Beginnings -/

/-- The beginnings of the linearizations. -/
def Begun (model : FilledModel S ι ο) (order : List ℕ) (state : S) : Prop :=
  Linearize.Begun (L.step model) L.Precedes model.init (List.range n) order state

theorem begun_concat_iff {order : List ℕ} {id : ℕ} {state : S} :
    L.Begun model (order ++ [id]) state ↔ ∃ before, L.Begun model order before ∧
      id ∈ remaining n order ∧ (∀ b ∈ remaining n order, ¬ L.Precedes b id) ∧
      L.step model before id = some state := by
  have hirrefl : ∀ a ∈ List.range n, ¬ L.Precedes a a := fun a ha =>
    not_lt.2 (L.call_lt_ret a (List.mem_range.1 ha)).le
  simp only [Begun, Linearize.begun_concat_iff hirrefl, mem_remaining, List.mem_range, and_imp,
    and_assoc]

/-- **What the search reaches** are the beginnings of the linearizations. -/
theorem reach_iff {c : List ℕ × S} :
    (L.problem model).Reach ([], model.init) c ↔ L.Begun model c.1.reverse c.2 := by
  constructor
  · intro h
    induction h with
    | root => exact Linearize.begun_nil
    | @move c d a _ ha hd ih =>
        obtain ⟨id, hid, rfl, hfirst⟩ := (L.mem_moves model).1 ha
        obtain ⟨state, hstep, rfl⟩ := (L.apply_call model (mem_remaining.1 hid).1).1 hd
        rw [← remaining_reverse] at hid hfirst
        rw [List.reverse_cons, begun_concat_iff]
        exact ⟨c.2, ih, hid, hfirst, hstep⟩
  · obtain ⟨done, state⟩ := c
    intro h
    induction done generalizing state with
    | nil =>
        have hinit : model.init = state := Option.some.inj h.legal
        rw [← hinit]
        exact .root
    | cons id done ih =>
        dsimp only at h ih
        rw [List.reverse_cons, begun_concat_iff, remaining_reverse] at h
        obtain ⟨before, hbefore, hid, hfirst, hstep⟩ := h
        exact .move (ih before hbefore) ((L.mem_moves model).2 ⟨id, hid, rfl, hfirst⟩)
          ((L.apply_call model (mem_remaining.1 hid).1).2 ⟨state, hstep, rfl⟩)

end Layout

end Porcupine

end AiFS
