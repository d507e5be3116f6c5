import AiFS.Controlplane.Controller

set_option autoImplicit false

/-! # The keys of the records

A worker is stored under its id, and under its address when it has none; `EnsureID` makes the
address the id. The address is `ip:port`, and the port is what follows the last colon, whatever the
ip looks like: so the address tells both (`address_inj`). No key of a worker is the key of the
index. -/

namespace AiFS

namespace Controlplane

variable {υ : Type}

theorem recordKey_inj {i j : String} : recordKey i = recordKey j ↔ i = j := by
  refine ⟨fun h => ?_, congrArg recordKey⟩
  have hlist := congrArg String.toList h
  simp only [recordKey, String.toList_append, List.append_cancel_left_eq] at hlist
  exact String.toList_inj.1 hlist

theorem recordKey_ne_index (id : String) : recordKey id ≠ workersIndexKey := by
  intro h
  have hlist := congrArg String.toList h
  simp [recordKey, workersIndexKey] at hlist

/-! ## Addresses -/

theorem address_ne_empty (ip : String) (port : ℤ) : address ip port ≠ "" := by
  intro h
  have hlist := congrArg String.toList h
  simp [address] at hlist

/-- A port is written with digits and a sign. -/
theorem colon_notMem_port (port : ℤ) : ':' ∉ (toString port).toList := by
  have hdigits : ∀ m : ℕ, ':' ∉ m.repr.toList := by
    intro m hmem
    rw [Nat.toList_repr] at hmem
    have hdigit := Nat.isDigit_of_mem_toDigits (by decide) (by decide) hmem
    exact absurd hdigit (by decide)
  rw [Int.toString_eq_repr]
  cases port with
  | ofNat m => exact hdigits m
  | negSucc m =>
      show ':' ∉ ("-" ++ (m + 1).repr).toList
      rw [String.toList_append, List.mem_append, not_or]
      exact ⟨by decide, hdigits (m + 1)⟩

/-- A text is cut at its last `sep` in one way only. -/
theorem append_sep_inj {α : Type} {sep : α} {xs ys ds es : List α} (hds : sep ∉ ds) (hes : sep ∉ es)
    (h : xs ++ sep :: ds = ys ++ sep :: es) : xs = ys ∧ ds = es := by
  induction xs generalizing ys with
  | nil =>
      cases ys with
      | nil => exact ⟨rfl, (List.cons.inj h).2⟩
      | cons y ys =>
          have hmem : sep ∈ ds := by
            rw [(List.cons.inj h).2]
            exact List.mem_append_right _ List.mem_cons_self
          exact absurd hmem hds
  | cons x xs ih =>
      cases ys with
      | nil =>
          have hmem : sep ∈ es := by
            rw [← (List.cons.inj h).2]
            exact List.mem_append_right _ List.mem_cons_self
          exact absurd hmem hes
      | cons y ys =>
          obtain ⟨hhead, htail⟩ := List.cons.inj h
          obtain ⟨hxs, hds⟩ := ih htail
          exact ⟨congrArg₂ List.cons hhead hxs, hds⟩

theorem address_inj {ip ip' : String} {port port' : ℤ} :
    address ip port = address ip' port' ↔ ip = ip' ∧ port = port' := by
  constructor
  · intro h
    have hlist := congrArg String.toList h
    simp only [address, String.toList_append, List.append_assoc] at hlist
    obtain ⟨hip, hport⟩ := append_sep_inj (colon_notMem_port port) (colon_notMem_port port') hlist
    exact ⟨String.toList_inj.1 hip, Int.repr_injective (String.toList_inj.1 hport)⟩
  · rintro ⟨rfl, rfl⟩
    rfl

/-! ## Workers -/

namespace WorkerInfo

theorem ensureID_of_empty {w : WorkerInfo υ} (h : w.id = "") :
    w.ensureID = { w with id := address w.ip w.port } :=
  if_pos h

theorem ensureID_id_ne (w : WorkerInfo υ) : w.ensureID.id ≠ "" := by
  unfold ensureID
  split
  · exact address_ne_empty _ _
  · next h => exact h

/-- A worker with an id is stored under that id. -/
theorem workerKey_of_ne {w : WorkerInfo υ} (h : w.id ≠ "") : w.workerKey = recordKey w.id :=
  if_pos h

theorem workerKey_ensureID (w : WorkerInfo υ) : w.ensureID.workerKey = recordKey w.ensureID.id :=
  workerKey_of_ne w.ensureID_id_ne

/-- The key is that of the id which `EnsureID` gives. -/
theorem workerKey_eq (w : WorkerInfo υ) : w.workerKey = recordKey w.ensureID.id := by
  unfold workerKey ensureID
  by_cases h : w.id = ""
  · rw [if_neg (not_not.2 h), if_pos h]
  · rw [if_pos h, if_neg h]

end WorkerInfo

/-- **Keys do not collide.** Workers without an id get equal keys iff their ips and their ports are
    equal, whatever the ips contain; `EnsureID` does not change a worker's key; workers with ids
    share a key only if they share the id; and no key of a worker is the key of the index. -/
theorem workerKey_unique :
    (∀ a b : WorkerInfo υ, a.id = "" → b.id = "" →
      (a.ensureID.workerKey = b.ensureID.workerKey ↔ a.ip = b.ip ∧ a.port = b.port)) ∧
    (∀ w : WorkerInfo υ, w.ensureID.workerKey = w.workerKey) ∧
    (∀ a b : WorkerInfo υ, a.id ≠ "" → b.id ≠ "" → a.workerKey = b.workerKey → a.id = b.id) ∧
    ∀ w : WorkerInfo υ, w.workerKey ≠ workersIndexKey := by
  refine ⟨fun a b ha hb => ?_, fun w => ?_, fun a b ha hb h => ?_, fun w => ?_⟩
  · rw [a.workerKey_ensureID, b.workerKey_ensureID, recordKey_inj,
      WorkerInfo.ensureID_of_empty ha, WorkerInfo.ensureID_of_empty hb]
    exact address_inj
  · rw [w.workerKey_ensureID, w.workerKey_eq]
  · rw [WorkerInfo.workerKey_of_ne ha, WorkerInfo.workerKey_of_ne hb] at h
    exact recordKey_inj.1 h
  · rw [w.workerKey_eq]
    exact recordKey_ne_index _

/-- An ip with colons in it: the same characters, cut elsewhere, are another key. -/
theorem workerKey_unique_colons :
    (⟨"", "::1", 80, [], .idle⟩ : WorkerInfo ℕ).ensureID.workerKey ≠
      (⟨"", "::", 180, [], .idle⟩ : WorkerInfo ℕ).ensureID.workerKey := by
  intro h
  have hsame := (workerKey_unique.1 ⟨"", "::1", 80, [], .idle⟩ ⟨"", "::", 180, [], .idle⟩
    rfl rfl).1 h
  exact absurd hsame.1 (by decide)

end Controlplane

end AiFS
