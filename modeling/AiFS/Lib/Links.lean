import Mathlib

set_option autoImplicit false

/-! # Doubly linked lists that remember what was taken out

The two pointers of the cells of a doubly linked list, over an arbitrary type of addresses. `Linked`
says which addresses the list runs through. A cell that is taken out (`unlink`) keeps its own
pointers, so it can be put back where it was (`relink`), and then every pointer is as before,
however far the list has been walked in between: `relink_unlink`. A pointer that is followed where
it is nil makes the operation fail. -/

/-- The pointers of a set of cells. -/
structure Links (α : Type) where
  next : α → Option α
  prev : α → Option α

namespace Links

variable {α : Type} [DecidableEq α]

def setNext (l : Links α) (a : α) (b : Option α) : Links α :=
  { l with next := Function.update l.next a b }

def setPrev (l : Links α) (a : α) (b : Option α) : Links α :=
  { l with prev := Function.update l.prev a b }

/-- Lets the neighbours of `x` pass it by. -/
def unlink (l : Links α) (x : α) : Option (Links α) :=
  match l.prev x with
  | none => none
  | some p =>
      let l := l.setNext p (l.next x)
      match l.next x with
      | none => some l
      | some q => some (l.setPrev q (l.prev x))

/-- Lets the neighbours of `x`, as `x` remembers them, point to it again. -/
def relink (l : Links α) (x : α) : Option (Links α) :=
  match l.prev x with
  | none => none
  | some p =>
      let l := l.setNext p (some x)
      match l.next x with
      | none => some l
      | some q => some (l.setPrev q (some x))

/-- The list from its first cell to its last one. -/
def Linked (l : Links α) : List α → Prop
  | [] => True
  | [a] => l.next a = none
  | a :: b :: xs => l.next a = some b ∧ l.prev b = some a ∧ Linked l (b :: xs)

omit [DecidableEq α] in
theorem Linked.tail {l : Links α} {a : α} {xs : List α} (h : l.Linked (a :: xs)) :
    l.Linked xs := by
  cases xs with
  | nil => trivial
  | cons b xs => exact h.2.2

omit [DecidableEq α] in
theorem Linked.right {l : Links α} {xs ys : List α} (h : l.Linked (xs ++ ys)) : l.Linked ys := by
  induction xs with
  | nil => exact h
  | cons a xs ih => exact ih h.tail

omit [DecidableEq α] in
/-- The cell after `a` is the next one of the list. -/
theorem Linked.next_eq {l : Links α} {a : α} {xs ys : List α} (h : l.Linked (xs ++ a :: ys)) :
    l.next a = ys.head? := by
  have hright := h.right
  cases ys with
  | nil => exact hright
  | cons b ys => exact hright.1

omit [DecidableEq α] in
theorem Linked.prev_eq {l : Links α} {p a : α} {xs ys : List α}
    (h : l.Linked (xs ++ p :: a :: ys)) : l.prev a = some p :=
  h.right.2.1

omit [DecidableEq α] in
/-- Cells that are not in the list do not matter. -/
theorem Linked.congr {l l' : Links α} {xs : List α} (h : l.Linked xs)
    (hnext : ∀ a ∈ xs, l'.next a = l.next a) (hprev : ∀ a ∈ xs.tail, l'.prev a = l.prev a) :
    l'.Linked xs := by
  induction xs with
  | nil => trivial
  | cons a xs ih =>
      cases xs with
      | nil =>
          show l'.next a = none
          rw [hnext a List.mem_cons_self]
          exact h
      | cons b xs =>
          refine ⟨?_, ?_, ih h.tail (fun c hc => hnext c (List.mem_cons_of_mem _ hc)) ?_⟩
          · rw [hnext a List.mem_cons_self]
            exact h.1
          · rw [hprev b List.mem_cons_self]
            exact h.2.1
          · exact fun c hc => hprev c (List.mem_cons_of_mem _ hc)

/-! ## Taking out and putting back -/

/-- What `unlink` makes of the pointers of a list. -/
theorem unlink_eq {l : Links α} {p x : α} {xs ys : List α} (h : l.Linked (xs ++ p :: x :: ys))
    (hnodup : (xs ++ p :: x :: ys).Nodup) :
    l.unlink x = some
      { next := Function.update l.next p ys.head?
        prev := ys.head?.elim l.prev fun q => Function.update l.prev q (some p) } := by
  have hne : x ≠ p := by
    rintro rfl
    have := (List.nodup_append.1 hnodup).2.1
    simp at this
  have hnext : l.next x = ys.head? := by
    have h' : l.Linked ((xs ++ [p]) ++ x :: ys) := by simpa using h
    exact h'.next_eq
  have hkept : (l.setNext p (l.next x)).next x = ys.head? :=
    (Function.update_of_ne hne _ _).trans hnext
  simp only [unlink, h.prev_eq, hkept]
  cases ys with
  | nil => simp [setNext, hnext]
  | cons q ys => simp [setNext, setPrev, hnext, h.prev_eq]

/-- The list without a cell that is taken out. -/
theorem Linked.unlink {l l' : Links α} {p x : α} {xs ys : List α}
    (h : l.Linked (xs ++ p :: x :: ys)) (hnodup : (xs ++ p :: x :: ys).Nodup)
    (hl' : l.unlink x = some l') : l'.Linked (xs ++ p :: ys) := by
  rw [unlink_eq h hnodup] at hl'
  obtain rfl := Option.some.inj hl'
  clear hl'
  induction xs with
  | nil =>
      obtain ⟨hp, hnodup⟩ := List.nodup_cons.1 hnodup
      obtain ⟨hx, hys⟩ := List.nodup_cons.1 hnodup
      cases ys with
      | nil => simp [Linked]
      | cons q ys =>
          have hpq : p ≠ q := fun heq => hp (by simp [heq])
          have hq : q ∉ ys := (List.nodup_cons.1 hys).1
          refine ⟨by simp, by simp, h.tail.tail.congr (fun a ha => ?_) (fun a ha => ?_)⟩
          · have hne : a ≠ p := fun heq => hp (List.mem_cons_of_mem _ (heq ▸ ha))
            simp [Function.update_of_ne hne]
          · have hne : a ≠ q := fun heq => hq (heq ▸ ha)
            simp [Function.update_of_ne hne]
  | cons a xs ih =>
      obtain ⟨ha, hnodup⟩ := List.nodup_cons.1 hnodup
      have hrest := ih h.tail hnodup
      -- the first cell points to what it did, unless it is the one before `x`
      have hap : a ≠ p := fun heq => ha (by simp [heq])
      cases xs with
      | nil =>
          refine ⟨by simpa [Function.update_of_ne hap] using h.1, ?_, hrest⟩
          have hprev : l.prev p = some a := h.2.1
          cases ys with
          | nil => simpa using hprev
          | cons q ys =>
              have hpq : p ≠ q := by
                rintro rfl
                simp at hnodup
              simpa [Function.update_of_ne hpq] using hprev
      | cons b xs =>
          refine ⟨by simpa [Function.update_of_ne hap] using h.1, ?_, hrest⟩
          have hprev : l.prev b = some a := h.2.1
          cases ys with
          | nil => simpa using hprev
          | cons q ys =>
              have hbq : b ≠ q := by
                rintro rfl
                simp at hnodup
              simpa [Function.update_of_ne hbq] using hprev

/-- **Putting back.** A cell that has just been taken out goes back to its place, and every pointer
    is as it was. -/
theorem relink_unlink {l l' : Links α} {p x : α} {xs ys : List α}
    (h : l.Linked (xs ++ p :: x :: ys)) (hnodup : (xs ++ p :: x :: ys).Nodup)
    (hl' : l.unlink x = some l') : l'.relink x = some l := by
  have hx : l.Linked ((xs ++ [p]) ++ x :: ys) := by simpa using h
  have hpx : l.next p = some x := h.next_eq
  have hback : Function.update l.next p (some x) = l.next := by
    rw [← hpx, Function.update_eq_self]
  rw [unlink_eq h hnodup] at hl'
  obtain rfl := Option.some.inj hl'
  cases ys with
  | nil =>
      have hnil : l.next x = none := hx.next_eq
      simp [relink, h.prev_eq, setNext, hnil, hback]
  | cons q ys =>
      have hxq : x ≠ q := by
        rintro rfl
        have := (List.nodup_append.1 hnodup).2.1
        simp at this
      have hq : l.next x = some q := hx.next_eq
      have hqback : Function.update l.prev q (some x) = l.prev := by
        rw [← (hx.prev_eq : l.prev q = some x), Function.update_eq_self]
      simp [relink, h.prev_eq, setNext, setPrev, Function.update_of_ne hxq, hq, hback, hqback]

/-- **Taking out.** Any cell but the first one can be taken out of a list and put back. -/
theorem Linked.take_out {l : Links α} {x : α} {xs ys : List α} (h : l.Linked (xs ++ x :: ys))
    (hnodup : (xs ++ x :: ys).Nodup) (hxs : xs ≠ []) :
    ∃ l', l.unlink x = some l' ∧ l'.Linked (xs ++ ys) ∧ l'.relink x = some l ∧
      l'.next x = l.next x := by
  obtain ⟨zs, p, rfl⟩ := (List.eq_nil_or_concat' xs).resolve_left hxs
  simp only [List.append_assoc, List.singleton_append] at h hnodup ⊢
  have hne : x ≠ p := by
    rintro rfl
    have := (List.nodup_append.1 hnodup).2.1
    simp at this
  have hl' := unlink_eq h hnodup
  exact ⟨_, hl', h.unlink hnodup hl', relink_unlink h hnodup hl', Function.update_of_ne hne _ _⟩

/-- A new cell in front of a list. -/
theorem Linked.cons {l : Links α} {x a : α} {xs : List α} (h : l.Linked (a :: xs))
    (hx : x ∉ a :: xs) (hnodup : (a :: xs).Nodup) :
    ((l.setPrev a (some x)).setNext x (some a)).Linked (x :: a :: xs) := by
  refine ⟨by simp [setNext], by simp [setNext, setPrev], h.congr (fun b hb => ?_) fun b hb => ?_⟩
  · have hne : b ≠ x := fun heq => hx (heq ▸ hb)
    simp [setNext, setPrev, Function.update_of_ne hne]
  · have hne : b ≠ a := fun heq => (List.nodup_cons.1 hnodup).1 (heq ▸ hb)
    simp [setNext, setPrev, Function.update_of_ne hne]

end Links
