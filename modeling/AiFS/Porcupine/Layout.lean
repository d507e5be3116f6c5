import AiFS.Lib.Linearize
import AiFS.Porcupine.Checker

set_option autoImplicit false

/-! # Complete histories

A history in which every operation is called once and returns once, later (`Layout`), and the linked
list that `makeLinkedEntries` makes of it. What the model says of the operations of such a history
is `Layout.Linearizable`: there is an order of all of them that the model explains and that respects
which operation returned before which other one was called. -/

namespace AiFS

namespace Porcupine

variable {S ι ο : Type}

/-- Where the operations `0..n-1` are in a history, and what they were. -/
structure Layout (es : List (Entry ι ο)) (n : ℕ) where
  call : ℕ → ℕ
  ret : ℕ → ℕ
  input : ℕ → ι
  output : ℕ → ο
  length_eq : es.length = 2 * n
  call_lt_ret : ∀ id < n, call id < ret id
  at_call : ∀ id < n, ∃ e, es[call id]? = some e ∧ e.value = .inl (input id) ∧ e.id = id
  at_ret : ∀ id < n, ∃ e, es[ret id]? = some e ∧ e.value = .inr (output id) ∧ e.id = id
  of_call : ∀ i e, es[i]? = some e → e.isCall = true → e.id < n ∧ i = call e.id
  of_ret : ∀ i e, es[i]? = some e → e.isCall = false → e.id < n ∧ i = ret e.id

namespace Layout

variable {es : List (Entry ι ο)} {n : ℕ} (L : Layout es n) (model : FilledModel S ι ο)

/-- Operation `a` returned before `b` was called. -/
def Precedes (a b : ℕ) : Prop :=
  L.ret a < L.call b

/-- The model's step for an operation and its output. -/
def step (s : S) (id : ℕ) : Option S :=
  if (model.step s (L.input id) (L.output id)).1 then
    some (model.step s (L.input id) (L.output id)).2
  else none

def Linearizable : Prop :=
  Linearize.Linearizable (L.step model) L.Precedes model.init (List.range n)

end Layout

/-! ## The nodes -/

/-- The first return of an operation, from position `i` on. -/
def firstReturn (i id : ℕ) (es : List (Entry ι ο)) : Option ℕ :=
  (es.findIdx? fun e => !e.isCall && e.id == id).map (i + ·)

theorem firstReturn_cons (i id : ℕ) (e : Entry ι ο) (es : List (Entry ι ο)) :
    firstReturn i id (e :: es) =
      if !e.isCall && e.id == id then some i else firstReturn (i + 1) id es := by
  unfold firstReturn
  rw [List.findIdx?_cons]
  split
  · rfl
  · rw [Option.map_map]
    congr 1
    funext k
    simp [Function.comp_apply]
    omega

theorem returns_makeLinkedEntriesFrom (es : List (Entry ι ο)) (i id : ℕ) :
    (makeLinkedEntriesFrom i es).returns id = firstReturn i id es := by
  induction es generalizing i with
  | nil => rfl
  | cons e es ih =>
      rw [firstReturn_cons, makeLinkedEntriesFrom, Heap.push]
      dsimp only
      cases he : e.isCall with
      | true => simp [ih]
      | false =>
          by_cases hid : id = e.id
          · simp [hid]
          · simp [Function.update_of_ne hid, Ne.symm hid, ih]

/-- The node of an entry. -/
theorem nodes_makeLinkedEntriesFrom (es : List (Entry ι ο)) (i k : ℕ) :
    (makeLinkedEntriesFrom i es).nodes[k]? = (es[k]?).map fun e =>
      ⟨e.value, if e.isCall then firstReturn (i + k + 1) e.id (es.drop (k + 1)) else none,
        e.id⟩ := by
  induction es generalizing i k with
  | nil => rfl
  | cons e es ih =>
      rw [makeLinkedEntriesFrom, Heap.push]
      dsimp only
      cases k with
      | zero => simp [returns_makeLinkedEntriesFrom]
      | succ k =>
          rw [List.getElem?_cons_succ, ih]
          simp only [List.getElem?_cons_succ, List.drop_succ_cons]
          have hpos : i + 1 + k + 1 = i + (k + 1) + 1 := by omega
          rw [hpos]

theorem length_nodes (es : List (Entry ι ο)) (i : ℕ) :
    (makeLinkedEntriesFrom i es).nodes.length = es.length := by
  induction es generalizing i with
  | nil => rfl
  | cons e es ih => simp [makeLinkedEntriesFrom, Heap.push, ih]

/-! ## The list -/

/-- The list of the entries from position `i` on; other nodes are not linked yet. -/
structure Heap.Built (h : Heap ι ο) (i len : ℕ) : Prop where
  linked : h.links.Linked (List.range' i len)
  root : h.root = (List.range' i len).head?
  prev_root : ∀ a ∈ h.root, h.links.prev a = none

theorem links_makeLinkedEntriesFrom (e : Entry ι ο) (es : List (Entry ι ο)) (i : ℕ) :
    (makeLinkedEntriesFrom i (e :: es)).links = insertBefore
      (makeLinkedEntriesFrom (i + 1) es).links i (makeLinkedEntriesFrom (i + 1) es).root :=
  rfl

theorem insertBefore_linked {l : Links ℕ} {x a : ℕ} {xs : List ℕ} (h : l.Linked (a :: xs))
    (hprev : l.prev a = none) (hx : x ∉ a :: xs) (hnodup : (a :: xs).Nodup) :
    (insertBefore l x (some a)).Linked (x :: a :: xs) := by
  simp only [insertBefore, hprev]
  exact h.cons hx hnodup

theorem built_makeLinkedEntriesFrom (es : List (Entry ι ο)) (i : ℕ) :
    (makeLinkedEntriesFrom i es).Built i es.length ∧
      ∀ a, a < i → (makeLinkedEntriesFrom i es).links.next a = none ∧
        (makeLinkedEntriesFrom i es).links.prev a = none := by
  induction es generalizing i with
  | nil =>
      refine ⟨⟨trivial, rfl, fun a ha => ?_⟩, fun a _ => ⟨rfl, rfl⟩⟩
      simp [makeLinkedEntriesFrom, Heap.empty] at ha
  | cons e es ih =>
      obtain ⟨⟨hlinked, hroot, hprev⟩, hfresh⟩ := ih (i + 1)
      cases es with
      | nil =>
          refine ⟨⟨?_, rfl, ?_⟩, ?_⟩
          · exact (hfresh i (Nat.lt_succ_self i)).1
          · rintro a ⟨rfl⟩
            exact (hfresh i (Nat.lt_succ_self i)).2
          · exact fun a ha => hfresh a (ha.trans (Nat.lt_succ_self i))
      | cons e' es =>
          have hroot' : (makeLinkedEntriesFrom (i + 1) (e' :: es)).root = some (i + 1) := hroot
          have hprev' := hprev (i + 1) hroot'
          have hlinks : (makeLinkedEntriesFrom i (e :: e' :: es)).links =
              ((makeLinkedEntriesFrom (i + 1) (e' :: es)).links.setPrev (i + 1) (some i)).setNext i
                (some (i + 1)) := by
            rw [links_makeLinkedEntriesFrom, hroot']
            simp only [insertBefore, hprev']
          rw [List.length_cons, List.range'_succ] at hlinked
          refine ⟨⟨?_, rfl, ?_⟩, fun a ha => ?_⟩
          · rw [hlinks, List.length_cons, List.length_cons, List.range'_succ, List.range'_succ]
            refine hlinked.cons ?_ ?_
            · rw [← List.range'_succ, List.mem_range'_1]
              omega
            · rw [← List.range'_succ]
              exact List.nodup_range'
          · rintro a ⟨rfl⟩
            rw [hlinks]
            simp [Links.setNext, Links.setPrev, (hfresh i (Nat.lt_succ_self i)).2]
          · have hne : a ≠ i := by omega
            have hne' : a ≠ i + 1 := by omega
            rw [hlinks]
            simp [Links.setNext, Links.setPrev, Function.update_of_ne hne,
              Function.update_of_ne hne', hfresh a (by omega)]

theorem length_of_linked {l : Links ℕ} {xs : List ℕ} (h : l.Linked xs) :
    length l xs.length xs.head? = xs.length := by
  induction xs with
  | nil => rfl
  | cons a xs ih =>
      have hnext : l.next a = xs.head? := by
        have h' : l.Linked ([] ++ a :: xs) := h
        exact h'.next_eq
      simp only [List.length_cons, List.head?_cons, length, hnext, ih h.tail]

/-- The list with its head, and the number of its entries. -/
theorem start_linked (model : FilledModel S ι ο) (es : List (Entry ι ο)) :
    (Search.start model (makeLinkedEntries es)).links.Linked
        ((makeLinkedEntries es).head :: List.range es.length) ∧
      (Search.start model (makeLinkedEntries es)).entry = (List.range es.length).head? ∧
      length (makeLinkedEntries es).links (makeLinkedEntries es).nodes.length
        (makeLinkedEntries es).root = es.length := by
  obtain ⟨⟨hlinked, hroot, hprev⟩, _⟩ := built_makeLinkedEntriesFrom es 0
  have hnodes : (makeLinkedEntries es).nodes.length = es.length := length_nodes es 0
  rw [← List.range_eq_range'] at hlinked hroot
  have hlen : length (makeLinkedEntries es).links (makeLinkedEntries es).nodes.length
      (makeLinkedEntries es).root = es.length := by
    have hlen := length_of_linked hlinked
    rw [List.length_range, ← hroot] at hlen
    rw [hnodes]
    exact hlen
  refine ⟨?_, hroot, hlen⟩
  show (insertBefore _ _ _).Linked _
  rw [Heap.head, hnodes]
  -- an empty history leaves the head alone
  cases hxs : List.range es.length with
  | nil =>
      have hnone : (makeLinkedEntries es).root = none := by
        rw [makeLinkedEntries, hroot, hxs]
        rfl
      have hnil : es = [] := by
        simpa using hxs
      subst hnil
      rw [hnone]
      exact rfl
  | cons a xs =>
      have hsome : (makeLinkedEntries es).root = some a := by
        rw [makeLinkedEntries, hroot, hxs]
        rfl
      rw [hsome]
      rw [hxs] at hlinked
      have hmem : ∀ b ∈ a :: xs, b < es.length := by
        rw [← hxs]
        simp
      refine insertBefore_linked hlinked (hprev a hsome) (fun h => ?_) ?_
      · exact lt_irrefl _ (hmem _ h)
      · rw [← hxs]
        exact List.nodup_range

/-! ## The nodes of a complete history -/

namespace Layout

variable {es : List (Entry ι ο)} {n : ℕ} (L : Layout es n)

/-- The node of a call knows its return. -/
theorem node_call {id : ℕ} (hid : id < n) :
    (makeLinkedEntries es).nodes[L.call id]? = some ⟨.inl (L.input id), some (L.ret id), id⟩ := by
  obtain ⟨e, he, hvalue, heid⟩ := L.at_call id hid
  obtain ⟨e', he', hvalue', heid'⟩ := L.at_ret id hid
  have hlt := L.call_lt_ret id hid
  have hfirst : firstReturn (0 + L.call id + 1) id (es.drop (L.call id + 1)) = some (L.ret id) := by
    have hfind : (es.drop (L.call id + 1)).findIdx? (fun e => !e.isCall && e.id == id) =
        some (L.ret id - (L.call id + 1)) := by
      obtain ⟨hbound, hget⟩ := List.getElem?_eq_some_iff.1 he'
      refine List.findIdx?_eq_some_iff_getElem.2 ⟨by simp; omega, ?_, fun j hj hp => ?_⟩
      · have hpos : L.call id + 1 + (L.ret id - (L.call id + 1)) = L.ret id := by omega
        simp [hpos, hget, Entry.isCall, hvalue', heid']
      · -- an earlier return of the operation would be at the same position
        simp only [List.getElem_drop, Bool.and_eq_true, Bool.not_eq_true', beq_iff_eq] at hp
        have hret := (L.of_ret _ _ (List.getElem?_eq_getElem _) hp.1).2
        rw [hp.2] at hret
        omega
    rw [firstReturn, hfind, Option.map_some]
    congr 1
    omega
  rw [makeLinkedEntries, nodes_makeLinkedEntriesFrom, he, Option.map_some, heid, hfirst]
  simp [Entry.isCall, hvalue]

theorem node_ret {id : ℕ} (hid : id < n) :
    (makeLinkedEntries es).nodes[L.ret id]? = some ⟨.inr (L.output id), none, id⟩ := by
  obtain ⟨e, he, hvalue, heid⟩ := L.at_ret id hid
  rw [makeLinkedEntries, nodes_makeLinkedEntriesFrom, he, Option.map_some, heid]
  simp [Entry.isCall, hvalue]

/-- Every position is the call or the return of an operation. -/
theorem call_or_ret {a : ℕ} (ha : a < 2 * n) : ∃ id < n, a = L.call id ∨ a = L.ret id := by
  have hlt : a < es.length := by
    rw [L.length_eq]
    exact ha
  have he : es[a]? = some es[a] := List.getElem?_eq_getElem hlt
  cases hcall : es[a].isCall with
  | true => exact ⟨_, (L.of_call a _ he hcall).1, Or.inl (L.of_call a _ he hcall).2⟩
  | false => exact ⟨_, (L.of_ret a _ he hcall).1, Or.inr (L.of_ret a _ he hcall).2⟩

theorem call_lt {id : ℕ} (hid : id < n) : L.call id < 2 * n := by
  obtain ⟨e, he, _⟩ := L.at_call id hid
  rw [← L.length_eq]
  exact (List.getElem?_eq_some_iff.1 he).1

theorem ret_lt {id : ℕ} (hid : id < n) : L.ret id < 2 * n := by
  obtain ⟨e, he, _⟩ := L.at_ret id hid
  rw [← L.length_eq]
  exact (List.getElem?_eq_some_iff.1 he).1

@[simp] theorem idOf_call {id : ℕ} (hid : id < n) :
    (makeLinkedEntries es).idOf (L.call id) = id := by
  simp [Heap.idOf, L.node_call hid]

@[simp] theorem idOf_ret {id : ℕ} (hid : id < n) : (makeLinkedEntries es).idOf (L.ret id) = id := by
  simp [Heap.idOf, L.node_ret hid]

@[simp] theorem mtchOf_call {id : ℕ} (hid : id < n) :
    (makeLinkedEntries es).mtchOf (L.call id) = some (L.ret id) := by
  simp [Heap.mtchOf, L.node_call hid]

@[simp] theorem mtchOf_ret {id : ℕ} (hid : id < n) :
    (makeLinkedEntries es).mtchOf (L.ret id) = none := by
  simp [Heap.mtchOf, L.node_ret hid]

end Layout

end Porcupine

end AiFS
