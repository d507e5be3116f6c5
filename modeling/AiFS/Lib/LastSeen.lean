import Mathlib

set_option autoImplicit false

/-! # Filtering a sequence by the last number seen

Items are pairs of a key and a number. The filter remembers for each key the number of its *last*
item and lets an item pass if that is smaller (or if the key is new). It is the cheapest way to
suppress repetitions, and two facts about it are what its users need:

* which sequences it lets through without repetition (`passed_nodup_iff`): those in which, key by
  key, no number is reached twice by a rise, that is as the first number or from a smaller one;
* when the numbers of every key never fall, it lets exactly the first occurrences pass
  (`passes_iff_not_mem`). -/

namespace LastSeen

variable {C Q : Type} [DecidableEq C]

/-! ## The filter -/

/-- The numbers of one key, in order. -/
def numbers (c : C) (l : List (C × Q)) : List Q :=
  (l.filter (fun x => x.1 = c)).map Prod.snd

/-- The last number of a key. -/
def lastOf (c : C) (l : List (C × Q)) : Option Q :=
  (numbers c l).getLast?

@[simp] theorem numbers_nil (c : C) : numbers c ([] : List (C × Q)) = [] := rfl

@[simp] theorem numbers_append (c : C) (l l' : List (C × Q)) :
    numbers c (l ++ l') = numbers c l ++ numbers c l' := by
  simp [numbers]

theorem numbers_cons_self (c : C) (q : Q) (l : List (C × Q)) :
    numbers c ((c, q) :: l) = q :: numbers c l := by
  simp [numbers]

theorem numbers_cons_of_ne {c d : C} (h : d ≠ c) (q : Q) (l : List (C × Q)) :
    numbers c ((d, q) :: l) = numbers c l := by
  simp [numbers, h]

theorem mem_numbers {c : C} {q : Q} {l : List (C × Q)} : q ∈ numbers c l ↔ (c, q) ∈ l := by
  simp [numbers]

theorem lastOf_concat_self (c : C) (q : Q) (l : List (C × Q)) :
    lastOf c (l ++ [(c, q)]) = some q := by
  simp [lastOf, numbers_cons_self]

theorem lastOf_concat_of_ne {c d : C} (h : d ≠ c) (q : Q) (l : List (C × Q)) :
    lastOf c (l ++ [(d, q)]) = lastOf c l := by
  simp [lastOf, numbers_cons_of_ne h]

/-- The last number of a key is that of an item. -/
theorem mem_of_lastOf {c : C} {q : Q} {l : List (C × Q)} (h : lastOf c l = some q) :
    (c, q) ∈ l :=
  mem_numbers.1 (List.mem_of_getLast? h)

/-- A list of items has no repetitions if it has none key by key. -/
theorem nodup_iff_numbers (l : List (C × Q)) : l.Nodup ↔ ∀ c, (numbers c l).Nodup := by
  constructor
  · intro h c
    refine (h.filter _).map_on ?_
    intro x hx y hy hxy
    have hx' : x.1 = c := by simpa using (List.mem_filter.1 hx).2
    have hy' : y.1 = c := by simpa using (List.mem_filter.1 hy).2
    exact Prod.ext (hx'.trans hy'.symm) hxy
  · intro h
    induction l with
    | nil => exact List.nodup_nil
    | cons x xs ih =>
        obtain ⟨d, q⟩ := x
        refine List.nodup_cons.2 ⟨fun hmem => ?_, ih (fun c => ?_)⟩
        · have hd := h d
          rw [numbers_cons_self] at hd
          exact (List.nodup_cons.1 hd).1 (mem_numbers.2 hmem)
        · have hc := h c
          by_cases hdc : d = c
          · subst hdc
            rw [numbers_cons_self] at hc
            exact (List.nodup_cons.1 hc).2
          · rwa [numbers_cons_of_ne hdc] at hc

variable [LinearOrder Q]

/-- The test against what was seen last: nothing, or something smaller. -/
def rising (last : Option Q) (q : Q) : Bool :=
  match last with
  | none => true
  | some p => p < q

/-- Whether an item passes after `l`. -/
def passes (l : List (C × Q)) (x : C × Q) : Bool :=
  rising (lastOf x.1 l) x.2

/-- The items of the second list that pass, one after the other, after the first. -/
def passedFrom (l : List (C × Q)) : List (C × Q) → List (C × Q)
  | [] => []
  | x :: xs => if passes l x then x :: passedFrom (l ++ [x]) xs else passedFrom (l ++ [x]) xs

/-- The items that pass. -/
def passed (l : List (C × Q)) : List (C × Q) :=
  passedFrom [] l

/-- The numbers of a sequence that follow a smaller one, or `last`. -/
def risesFrom (last : Option Q) : List Q → List Q
  | [] => []
  | q :: qs => if rising last q then q :: risesFrom (some q) qs else risesFrom (some q) qs

/-- The numbers of a sequence that stand first or follow a smaller one. -/
def rises (qs : List Q) : List Q :=
  risesFrom none qs

/-! ## Repetitions -/

/-- Key by key, the filter lets the rises pass. -/
theorem numbers_passedFrom (c : C) (xs : List (C × Q)) : ∀ l : List (C × Q),
    numbers c (passedFrom l xs) = risesFrom (lastOf c l) (numbers c xs) := by
  induction xs with
  | nil => exact fun _ => rfl
  | cons x xs ih =>
      intro l
      obtain ⟨d, q⟩ := x
      by_cases hd : d = c
      · subst hd
        have hrest := ih (l ++ [(d, q)])
        rw [lastOf_concat_self] at hrest
        cases hp : rising (lastOf d l) q with
        | true => simp [passedFrom, passes, risesFrom, hp, numbers_cons_self, hrest]
        | false => simp [passedFrom, passes, risesFrom, hp, numbers_cons_self, hrest]
      · have hrest := ih (l ++ [(d, q)])
        rw [lastOf_concat_of_ne hd] at hrest
        cases hp : rising (lastOf d l) q with
        | true => simp [passedFrom, passes, hp, numbers_cons_of_ne hd, hrest]
        | false => simp [passedFrom, passes, hp, numbers_cons_of_ne hd, hrest]

/-- **No repetitions.** The filter lets no item pass twice if and only if no key reaches a number
    by a rise twice. -/
theorem passed_nodup_iff (l : List (C × Q)) :
    (passed l).Nodup ↔ ∀ c, (rises (numbers c l)).Nodup := by
  rw [nodup_iff_numbers]
  have h : ∀ c, numbers c (passed l) = rises (numbers c l) := fun c => numbers_passedFrom c l []
  simp only [h]

/-! ## Numbers that never fall -/

/-- The numbers of every key never fall. -/
def Sorted (l : List (C × Q)) : Prop :=
  l.Pairwise (fun x y => x.1 = y.1 → x.2 ≤ y.2)

instance (l : List (C × Q)) : Decidable (Sorted l) :=
  inferInstanceAs (Decidable (l.Pairwise _))

omit [DecidableEq C] in
theorem Sorted.left {l l' : List (C × Q)} (h : Sorted (l ++ l')) : Sorted l :=
  (List.pairwise_append.1 h).1

theorem Sorted.pairwise_numbers {l : List (C × Q)} (h : Sorted l) (c : C) :
    (numbers c l).Pairwise (· ≤ ·) := by
  refine List.Pairwise.map _ (fun _ _ hxy => hxy) (List.Pairwise.imp_of_mem ?_ (h.filter _))
  intro x y hx hy hxy
  have hx' : x.1 = c := by simpa using (List.mem_filter.1 hx).2
  have hy' : y.1 = c := by simpa using (List.mem_filter.1 hy).2
  exact hxy (hx'.trans hy'.symm)

/-- In such a sequence no number of a key is larger than its last. -/
theorem Sorted.le_lastOf {l : List (C × Q)} (h : Sorted l) {c : C} {p q : Q}
    (hq : (c, q) ∈ l) (hp : lastOf c l = some p) : q ≤ p := by
  obtain ⟨init, hinit⟩ := List.getLast?_eq_some_iff.1 hp
  have hs := h.pairwise_numbers c
  have hmem := mem_numbers.2 hq
  rw [hinit] at hs hmem
  rcases List.mem_append.1 hmem with hin | hlast
  · exact (List.pairwise_append.1 hs).2.2 q hin p (by simp)
  · rw [List.mem_singleton.1 hlast]

/-- **First occurrences.** If the numbers never fall, an item passes if and only if it is new, and
    an item that does not pass repeats the last one of its key. -/
theorem Sorted.passes_iff {l : List (C × Q)} {c : C} {q : Q} (h : Sorted (l ++ [(c, q)])) :
    (passes l (c, q) = true ↔ (c, q) ∉ l) ∧ ((c, q) ∈ l → lastOf c l = some q) := by
  have hlast : ∀ p, lastOf c l = some p → p ≤ q := by
    intro p hp
    exact h.le_lastOf (List.mem_append_left _ (mem_of_lastOf hp)) (lastOf_concat_self c q l)
  have hsame : (c, q) ∈ l → lastOf c l = some q := by
    intro hmem
    obtain ⟨p, hp⟩ : ∃ p, lastOf c l = some p := by
      cases hp : lastOf c l with
      | none =>
          have hnil : numbers c l = [] := List.getLast?_eq_none_iff.1 hp
          exact absurd (mem_numbers.2 hmem) (by simp [hnil])
      | some p => exact ⟨p, rfl⟩
    rw [hp, le_antisymm (hlast p hp) (h.left.le_lastOf hmem hp)]
  refine ⟨⟨fun hpass hmem => ?_, fun hnew => ?_⟩, hsame⟩
  · rw [passes, hsame hmem] at hpass
    exact absurd (of_decide_eq_true hpass) (lt_irrefl q)
  · cases hp : lastOf c l with
    | none => simp [passes, rising, hp]
    | some p =>
        have hne : p ≠ q := fun heq => hnew (heq ▸ mem_of_lastOf hp)
        simpa [passes, rising, hp] using lt_of_le_of_ne (hlast p hp) hne

end LastSeen
