import Mathlib

set_option autoImplicit false

/-! # Pools

A pool is a family of goroutines, each of which may hold something. `contents` is what they hold
together. When one of them moves, the contents lose what it held before and gain what it holds then
(`contents_update`), so an account of what is in a system needs no look at the other members. The
same for the calls that wait for the pool: one of them changes, or a new one comes. -/

namespace Pool

variable {n : ℕ} {α β : Type}

/-- The members of the pool whose state satisfies `p`. -/
def holders (p : α → Bool) (f : Fin n → α) : List (Fin n) :=
  (List.finRange n).filter (fun i => p (f i))

/-- What the members of the pool hold. -/
def contents (held : α → Option β) (f : Fin n → α) : Multiset β :=
  (List.finRange n).filterMap (fun i => held (f i))

theorem mem_contents {held : α → Option β} {f : Fin n → α} {b : β} :
    b ∈ contents held f ↔ ∃ i, held (f i) = some b := by
  simp [contents]

/-- Nothing changes in a part of the pool that the moving member is not in. -/
theorem filterMap_update_of_notMem {held : α → Option β} {f : Fin n → α} {i : Fin n} {a : α}
    {l : List (Fin n)} (h : i ∉ l) :
    l.filterMap (fun j => held (Function.update f i a j)) = l.filterMap (fun j => held (f j)) := by
  refine List.filterMap_congr (fun j hj => ?_)
  have hne : j ≠ i := fun heq => h (heq ▸ hj)
  rw [Function.update_of_ne hne]

theorem coe_filterMap_cons {γ : Type} (g : γ → Option β) (c : γ) (l : List γ) :
    (((c :: l).filterMap g : List β) : Multiset β) = (g c).toList + (l.filterMap g : List β) := by
  cases h : g c with
  | none => simp [h]
  | some b => simp [h]

theorem filterMap_update {held : α → Option β} {f : Fin n → α} {i : Fin n} {a : α}
    {l : List (Fin n)} (hnodup : l.Nodup) (hi : i ∈ l) :
    ((l.filterMap (fun j => held (Function.update f i a j)) : List β) : Multiset β) +
        (held (f i)).toList =
      (l.filterMap (fun j => held (f j)) : List β) + (held a).toList := by
  induction l with
  | nil => cases hi
  | cons j l ih =>
      obtain ⟨hj, hl⟩ := List.nodup_cons.1 hnodup
      rw [coe_filterMap_cons, coe_filterMap_cons]
      by_cases hij : i = j
      · subst hij
        rw [Function.update_self, filterMap_update_of_notMem hj]
        abel
      · rw [Function.update_of_ne (Ne.symm hij), add_assoc, add_assoc,
          ih hl ((List.mem_cons.1 hi).resolve_left hij)]

/-- **A move of one member.** -/
theorem contents_update (held : α → Option β) (f : Fin n → α) (i : Fin n) (a : α) :
    contents held (Function.update f i a) + (held (f i)).toList =
      contents held f + (held a).toList :=
  filterMap_update (List.nodup_finRange n) (List.mem_finRange i)

/-- A member that holds the same as before leaves the contents alone. -/
theorem contents_update_of_eq {held : α → Option β} {f : Fin n → α} {i : Fin n} {a : α}
    (h : held a = held (f i)) : contents held (Function.update f i a) = contents held f := by
  have hmove := contents_update held f i a
  rw [h] at hmove
  exact add_right_cancel hmove

theorem contents_update_of_some {held : α → Option β} {f : Fin n → α} {i : Fin n} {a : α} {b : β}
    (hf : held (f i) = none) (ha : held a = some b) :
    contents held (Function.update f i a) = contents held f + {b} := by
  have hmove := contents_update held f i a
  rw [hf, ha] at hmove
  simpa using hmove

theorem contents_update_of_none {held : α → Option β} {f : Fin n → α} {i : Fin n} {a : α} {b : β}
    (hf : held (f i) = some b) (ha : held a = none) :
    contents held (Function.update f i a) + {b} = contents held f := by
  have hmove := contents_update held f i a
  rw [hf, ha] at hmove
  simpa using hmove

/-- Those who hold something with the property `q` are as many as there are such contents. -/
theorem length_holders (held : α → Option β) (q : β → Prop) [DecidablePred q] (f : Fin n → α) :
    (holders (fun a => (held a).any (fun b => q b)) f).length = (contents held f).countP q := by
  rw [holders, ← List.countP_eq_length_filter, contents, Multiset.coe_countP, List.countP_filterMap]
  refine List.countP_congr (fun i _ => ?_)
  cases held (f i) <;> simp

/-! ## Calls

The calls of a system stand in a list, in the order in which they were made. -/

theorem getElem?_set_of_some {calls : List α} {k : ℕ} {c : α} (h : calls[k]? = some c) (c' : α)
    (j : ℕ) : (calls.set k c')[j]? = if j = k then some c' else calls[j]? := by
  by_cases hj : j = k
  · subst hj
    rw [if_pos rfl, List.getElem?_set_self (List.getElem?_eq_some_iff.1 h).1]
  · rw [if_neg hj, List.getElem?_set_ne (Ne.symm hj)]

theorem getElem?_concat_eq_or (calls : List α) (c : α) (j : ℕ) :
    (calls ++ [c])[j]? = calls[j]? ∨ (calls[j]? = none ∧ (calls ++ [c])[j]? = some c) := by
  by_cases hj : j < calls.length
  · exact Or.inl (List.getElem?_append_left hj)
  · have hnone : calls[j]? = none := List.getElem?_eq_none (Nat.le_of_not_lt hj)
    by_cases heq : j = calls.length
    · exact Or.inr ⟨hnone, by rw [heq, List.getElem?_concat_length]⟩
    · refine Or.inl ?_
      rw [hnone]
      exact List.getElem?_eq_none (by rw [List.length_append, List.length_singleton]; omega)

/-- An entry of a list with one more is an old one or the new one. -/
theorem getElem?_concat_cases {l : List α} {x y : α} {i : ℕ} (h : (l ++ [x])[i]? = some y) :
    l[i]? = some y ∨ i = l.length ∧ y = x := by
  rcases Nat.lt_or_ge i l.length with hlt | hge
  · exact Or.inl (by rwa [List.getElem?_append_left hlt] at h)
  · rw [List.getElem?_append_right hge, List.getElem?_singleton] at h
    split at h
    · exact Or.inr ⟨by omega, (Option.some.inj h).symm⟩
    · exact absurd h (by simp)

/-- The entries of a list in which one is modified. -/
theorem getElem?_modify_eq (l : List α) (f : α → α) (k j : ℕ) :
    (l.modify k f)[j]? = (l[j]?).map fun x => if k = j then f x else x := by
  rw [List.getElem?_modify]
  split <;> simp

theorem getElem?_modify_cases {l : List α} {f : α → α} {k j : ℕ} {y : α}
    (h : (l.modify k f)[j]? = some y) :
    ∃ x, l[j]? = some x ∧ ((j = k ∧ y = f x) ∨ (j ≠ k ∧ y = x)) := by
  rw [getElem?_modify_eq] at h
  obtain ⟨x, hx, rfl⟩ := Option.map_eq_some_iff.1 h
  refine ⟨x, hx, ?_⟩
  by_cases hj : k = j
  · exact Or.inl ⟨hj.symm, if_pos hj⟩
  · exact Or.inr ⟨fun heq => hj heq.symm, if_neg hj⟩

end Pool
