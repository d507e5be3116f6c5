import AiFS.Lib.Machine

set_option autoImplicit false

/-! # Bit sets

`porcupine/bitset.go`: a set of positions in words of 64 bits. Access outside of the words, at which
the source panics, is `none`. `clone` is not modelled: the values here are not shared.

The checker keeps a bit set of the operations it has linearized and looks its configurations up by
hash, so what matters is that a bit set is the set of its positions and nothing else: `set` followed
by `clear` gives back the words, and equal sets have equal words and hashes. -/

namespace AiFS

namespace Porcupine

abbrev Bitset := List (BitVec 64)

def newBitset (bits : ℕ) : Bitset :=
  let extra := if bits % 64 ≠ 0 then 1 else 0
  List.replicate (bits / 64 + extra) 0#64

def bitsetIndex (pos : ℕ) : ℕ × ℕ :=
  (pos / 64, pos % 64)

/-- `bits.OnesCount64` -/
def onesCount64 (v : BitVec 64) : ℕ :=
  (List.range 64).countP fun i => v.getLsbD i

namespace Bitset

/-- `f` on the word that holds `pos`. -/
def modifyWord (b : Bitset) (pos : ℕ) (f : BitVec 64 → BitVec 64) : Option Bitset :=
  if (bitsetIndex pos).1 < b.length then some (b.modify (bitsetIndex pos).1 f) else none

def set (b : Bitset) (pos : ℕ) : Option Bitset :=
  modifyWord b pos fun v => v ||| 1#64 <<< (bitsetIndex pos).2

def clear (b : Bitset) (pos : ℕ) : Option Bitset :=
  modifyWord b pos fun v => v &&& ~~~ (1#64 <<< (bitsetIndex pos).2)

def get (b : Bitset) (pos : ℕ) : Option Bool :=
  (b[(bitsetIndex pos).1]?).map fun v => v &&& 1#64 <<< (bitsetIndex pos).2 != 0#64

def popcnt (b : Bitset) : ℕ :=
  (b.map onesCount64).sum

def hash (b : Bitset) : BitVec 64 :=
  b.foldl (fun hash v => hash ^^^ v) (BitVec.ofNat 64 (popcnt b))

def equals (b b2 : Bitset) : Bool :=
  if b.length ≠ b2.length then false
  else (b.zip b2).all fun (v, v2) => v == v2

/-! ## Positions -/

/-- The bit at a position; outside of the words there is none. -/
def test (b : Bitset) (pos : ℕ) : Bool :=
  (b[pos / 64]?).any fun v => v.getLsbD (pos % 64)

variable {b b' : Bitset} {i j : ℕ}

theorem test_newBitset (bits pos : ℕ) : test (newBitset bits) pos = false := by
  cases hword : (newBitset bits)[pos / 64]? with
  | none => simp [test, hword]
  | some v =>
      have hzero : v = 0#64 := List.eq_of_mem_replicate (List.mem_of_getElem? hword)
      simp [test, hword, hzero]

theorem lt_length_newBitset {bits pos : ℕ} (h : pos < bits) :
    pos / 64 < (newBitset bits).length := by
  simp only [newBitset, List.length_replicate]
  split <;> omega

theorem get_eq_test (h : i / 64 < b.length) : get b i = some (test b i) := by
  have hbit : ∀ v : BitVec 64, (v &&& 1#64 <<< (i % 64) != 0#64) = v.getLsbD (i % 64) := by
    intro v
    rw [← BitVec.twoPow_eq, BitVec.and_twoPow]
    have hlt : i % 64 < 64 := Nat.mod_lt _ (by decide)
    have hne : BitVec.twoPow 64 (i % 64) ≠ 0#64 := by
      intro heq
      have hget := congrArg (fun v => BitVec.getLsbD v (i % 64)) heq
      simp [hlt] at hget
    cases hv : v.getLsbD (i % 64) with
    | false => simp
    | true => simpa using hne
  simp [get, test, bitsetIndex, List.getElem?_eq_getElem h, hbit]

theorem modifyWord_eq_some {f : BitVec 64 → BitVec 64} (h : modifyWord b i f = some b') :
    i / 64 < b.length ∧ b' = b.modify (i / 64) f := by
  unfold modifyWord bitsetIndex at h
  split at h
  · next hlt => exact ⟨hlt, (Option.some.inj h).symm⟩
  · exact absurd h (by simp)

theorem length_modifyWord {f : BitVec 64 → BitVec 64} (h : modifyWord b i f = some b') :
    b'.length = b.length := by
  rw [(modifyWord_eq_some h).2, List.length_modify]

/-- A change of one word only shows at its positions. -/
theorem test_modifyWord {f : BitVec 64 → BitVec 64} (h : modifyWord b i f = some b') :
    test b' j = (b[j / 64]?).any fun v =>
      if i / 64 = j / 64 then (f v).getLsbD (j % 64) else v.getLsbD (j % 64) := by
  obtain ⟨_, rfl⟩ := modifyWord_eq_some h
  rw [test, List.getElem?_modify]
  cases b[j / 64]? with
  | none => rfl
  | some v =>
      simp only [Option.map_eq_map, Option.map_some, Option.any_some]
      split <;> rfl

theorem div_mod_inj (h : i / 64 = j / 64) : i % 64 = j % 64 ↔ i = j := by
  omega

theorem test_set (h : set b i = some b') : test b' j = (decide (j = i) || test b j) := by
  rw [test_modifyWord h, test]
  obtain ⟨hlt, _⟩ := modifyWord_eq_some h
  by_cases hij : i / 64 = j / 64
  · have hword : b[j / 64]? = some b[i / 64] := by
      rw [← hij, List.getElem?_eq_getElem hlt]
    have hpos : i % 64 < 64 := Nat.mod_lt _ (by decide)
    simp only [hword, Option.any_some, if_pos hij, bitsetIndex, ← BitVec.twoPow_eq,
      BitVec.getLsbD_or, BitVec.getLsbD_twoPow, hpos, decide_true, Bool.true_and,
      div_mod_inj hij]
    rw [Bool.or_comm]
    simp [eq_comm]
  · have hne : j ≠ i := fun heq => hij (by rw [heq])
    simp [hij, hne]

theorem test_clear (h : clear b i = some b') : test b' j = (!decide (j = i) && test b j) := by
  rw [test_modifyWord h, test]
  obtain ⟨hlt, _⟩ := modifyWord_eq_some h
  by_cases hij : i / 64 = j / 64
  · have hword : b[j / 64]? = some b[i / 64] := by
      rw [← hij, List.getElem?_eq_getElem hlt]
    have hpos : i % 64 < 64 := Nat.mod_lt _ (by decide)
    have hpos' : j % 64 < 64 := Nat.mod_lt _ (by decide)
    simp only [hword, Option.any_some, if_pos hij, bitsetIndex, ← BitVec.twoPow_eq,
      BitVec.getLsbD_and, BitVec.getLsbD_not, BitVec.getLsbD_twoPow, hpos, hpos', decide_true,
      Bool.true_and, div_mod_inj hij]
    rw [Bool.and_comm]
    simp [eq_comm]
  · have hne : j ≠ i := fun heq => hij (by rw [heq])
    simp [hij, hne]

/-- **Extensionality.** -/
theorem ext_test (hlen : b.length = b'.length) (h : ∀ i, test b i = test b' i) : b = b' := by
  refine List.ext_getElem hlen fun w hw hw' => ?_
  refine BitVec.eq_of_getLsbD_eq fun k hk => ?_
  have hbit := h (64 * w + k)
  have hdiv : (64 * w + k) / 64 = w := by omega
  have hmod : (64 * w + k) % 64 = k := by omega
  simpa [test, hdiv, hmod, List.getElem?_eq_getElem hw, List.getElem?_eq_getElem hw'] using hbit

theorem equals_iff : equals b b' = true ↔ b = b' := by
  unfold equals
  constructor
  · intro h
    split at h
    · exact absurd h (by simp)
    · next hlen =>
        have hlen : b.length = b'.length := not_not.1 hlen
        refine List.ext_getElem hlen fun w hw hw' => ?_
        have hpair := List.all_eq_true.1 h (b[w], b'[w])
          (List.mem_iff_getElem.2 ⟨w, by simpa using ⟨hw, hw'⟩, by simp⟩)
        simpa using hpair
  · rintro rfl
    simp [List.all_eq_true, List.zip, List.zipWith_self]

/-! ## The number of positions -/

theorem onesCount64_eq (v : BitVec 64) :
    onesCount64 v = ((Finset.range 64).filter fun i => v.getLsbD i = true).card := by
  simp [onesCount64, List.countP_eq_length_filter, Finset.card, Finset.range, Multiset.range]

/-- `popcnt` counts the positions. -/
theorem popcnt_eq_card (b : Bitset) :
    popcnt b = ((Finset.range (64 * b.length)).filter fun i => test b i = true).card := by
  induction b using List.reverseRecOn with
  | nil => rfl
  | append_singleton b v ih =>
      have hsplit : ((Finset.range (64 * (b ++ [v]).length)).filter
            fun i => test (b ++ [v]) i = true) =
          ((Finset.range (64 * b.length)).filter fun i => test b i = true) ∪
            (((Finset.range 64).filter fun i => v.getLsbD i = true).map
              (addLeftEmbedding (64 * b.length))) := by
        ext i
        simp only [Finset.mem_filter, Finset.mem_range, Finset.mem_union, Finset.mem_map,
          addLeftEmbedding_apply, List.length_append, List.length_singleton]
        simp only [test]
        by_cases hi : i / 64 < b.length
        · rw [List.getElem?_append_left hi]
          constructor
          · rintro ⟨_, hbit⟩
            exact Or.inl ⟨by omega, hbit⟩
          · rintro (⟨_, hbit⟩ | ⟨k, ⟨_, _⟩, rfl⟩)
            · exact ⟨by omega, hbit⟩
            · omega
        · constructor
          · rintro ⟨hlt, hbit⟩
            have hlast : i / 64 = b.length := by omega
            refine Or.inr ⟨i % 64, ⟨by omega, ?_⟩, by omega⟩
            simpa [hlast] using hbit
          · rintro (⟨hlt, _⟩ | ⟨k, ⟨hk, hbit⟩, rfl⟩)
            · omega
            · have hdiv : (64 * b.length + k) / 64 = b.length := by omega
              have hmod : (64 * b.length + k) % 64 = k := by omega
              refine ⟨by omega, ?_⟩
              simpa [hdiv, hmod] using hbit
      have hdisj : Disjoint ((Finset.range (64 * b.length)).filter fun i => test b i = true)
          (((Finset.range 64).filter fun i => v.getLsbD i = true).map
            (addLeftEmbedding (64 * b.length))) := by
        refine Finset.disjoint_left.2 fun i hi hi' => ?_
        obtain ⟨k, _, rfl⟩ := Finset.mem_map.1 hi'
        simp only [Finset.mem_filter, Finset.mem_range, addLeftEmbedding_apply] at hi
        omega
      rw [hsplit, Finset.card_union_of_disjoint hdisj, Finset.card_map, ← ih, ← onesCount64_eq]
      simp [popcnt]

/-! ## Sets -/

/-- The words of a set of positions below `bits`. -/
structure Holds (bits : ℕ) (b : Bitset) (T : Finset ℕ) : Prop where
  length : b.length = (newBitset bits).length
  test : ∀ i, test b i = decide (i ∈ T)
  lt : ∀ i ∈ T, i < bits

variable {bits : ℕ} {T T' : Finset ℕ}

theorem holds_newBitset (bits : ℕ) : Holds bits (newBitset bits) ∅ where
  length := rfl
  test i := by simp [test_newBitset]
  lt i hi := absurd hi (by simp)

theorem Holds.modifyWord_isSome (h : Holds bits b T) (hi : i < bits)
    (f : BitVec 64 → BitVec 64) : ∃ b', modifyWord b i f = some b' := by
  have hlt : (bitsetIndex i).1 < b.length := by
    rw [h.length]
    exact lt_length_newBitset hi
  exact ⟨_, if_pos hlt⟩

theorem Holds.set (h : Holds bits b T) (hi : i < bits) :
    ∃ b', Bitset.set b i = some b' ∧ Holds bits b' (insert i T) := by
  obtain ⟨b', hb'⟩ := h.modifyWord_isSome hi _
  refine ⟨b', hb', (length_modifyWord hb').trans h.length, fun j => ?_, fun j hj => ?_⟩
  · rw [test_set hb', h.test]
    simp
  · rcases Finset.mem_insert.1 hj with rfl | hj
    · exact hi
    · exact h.lt j hj

theorem Holds.clear (h : Holds bits b T) (hi : i < bits) :
    ∃ b', Bitset.clear b i = some b' ∧ Holds bits b' (T.erase i) := by
  obtain ⟨b', hb'⟩ := h.modifyWord_isSome hi _
  refine ⟨b', hb', (length_modifyWord hb').trans h.length, fun j => ?_, fun j hj => ?_⟩
  · rw [test_clear hb', h.test]
    by_cases hj : j = i
    · simp [hj]
    · simp [hj]
  · exact h.lt j (Finset.mem_of_mem_erase hj)

theorem Holds.eq_iff (h : Holds bits b T) (h' : Holds bits b' T') : b = b' ↔ T = T' := by
  constructor
  · rintro rfl
    ext i
    have hbit := (h.test i).symm.trans (h'.test i)
    simpa using hbit
  · rintro rfl
    exact ext_test (h.length.trans h'.length.symm) fun i => (h.test i).trans (h'.test i).symm

theorem Holds.popcnt (h : Holds bits b T) : Bitset.popcnt b = T.card := by
  rw [popcnt_eq_card]
  congr 1
  ext i
  simp only [Finset.mem_filter, Finset.mem_range, h.test, decide_eq_true_eq]
  refine ⟨fun hi => hi.2, fun hi => ⟨?_, hi⟩⟩
  have hlt := lt_length_newBitset (h.lt i hi)
  rw [h.length]
  omega

end Bitset

/-! ## Runs -/

inductive Change
  | set (pos : ℕ)
  | clear (pos : ℕ)
deriving DecidableEq

def Change.pos : Change → ℕ
  | .set pos => pos
  | .clear pos => pos

def Change.apply (b : Bitset) : Change → Option Bitset
  | .set pos => Bitset.set b pos
  | .clear pos => Bitset.clear b pos

/-- The same change to a set. -/
def Change.ofSet (T : Finset ℕ) : Change → Finset ℕ
  | .set pos => insert pos T
  | .clear pos => T.erase pos

open Bitset in
theorem holds_exec {bits : ℕ} {b : Bitset} {T : Finset ℕ} (h : Holds bits b T) (cs : List Change)
    (hcs : ∀ c ∈ cs, c.pos < bits) :
    ∃ b', Machine.exec Change.apply b cs = some b' ∧ Holds bits b' (cs.foldl Change.ofSet T) := by
  induction cs generalizing b T with
  | nil => exact ⟨b, rfl, h⟩
  | cons c cs ih =>
      obtain ⟨b', hb', h'⟩ : ∃ b', c.apply b = some b' ∧ Holds bits b' (c.ofSet T) := by
        cases c with
        | set pos => exact h.set (hcs _ List.mem_cons_self)
        | clear pos => exact h.clear (hcs _ List.mem_cons_self)
      rw [Machine.exec_cons_of_some _ hb']
      exact ih h' fun c hc => hcs c (List.mem_cons_of_mem _ hc)

open Bitset in
/-- **A bit set is a set.** However two bit sets have been set and cleared, `get` and `popcnt`
    answer as the sets do, `equals` compares the sets, and equal sets hash alike. -/
theorem bitset_is_set {bits : ℕ} {cs cs' : List Change} (hcs : ∀ c ∈ cs, c.pos < bits)
    (hcs' : ∀ c ∈ cs', c.pos < bits) :
    ∃ b b', Machine.exec Change.apply (newBitset bits) cs = some b ∧
      Machine.exec Change.apply (newBitset bits) cs' = some b' ∧
      (∀ pos < bits, get b pos = some (decide (pos ∈ cs.foldl Change.ofSet ∅))) ∧
      popcnt b = (cs.foldl Change.ofSet ∅).card ∧
      (equals b b' = true ↔ cs.foldl Change.ofSet ∅ = cs'.foldl Change.ofSet ∅) ∧
      (cs.foldl Change.ofSet ∅ = cs'.foldl Change.ofSet ∅ → Bitset.hash b = Bitset.hash b') := by
  obtain ⟨b, hb, h⟩ := holds_exec (holds_newBitset bits) cs hcs
  obtain ⟨b', hb', h'⟩ := holds_exec (holds_newBitset bits) cs' hcs'
  refine ⟨b, b', hb, hb', fun pos hpos => ?_, h.popcnt, ?_, fun heq => ?_⟩
  · have hlt : pos / 64 < b.length := by
      rw [h.length]
      exact lt_length_newBitset hpos
    rw [get_eq_test hlt, h.test]
  · rw [equals_iff, h.eq_iff h']
  · rw [(h.eq_iff h').2 heq]

theorem bitset_is_set_twoOrders : ∃ b b',
    Machine.exec Change.apply (newBitset 70) [.set 3, .set 69, .set 5, .clear 3] = some b ∧
    Machine.exec Change.apply (newBitset 70) [.set 5, .set 69] = some b' ∧
    Bitset.popcnt b = 2 ∧ Bitset.equals b b' = true ∧ Bitset.hash b = Bitset.hash b' := by
  obtain ⟨b, b', hb, hb', _, hcount, hequals, hhash⟩ := bitset_is_set
    (show ∀ c ∈ [Change.set 3, .set 69, .set 5, .clear 3], c.pos < 70 by decide)
    (show ∀ c ∈ [Change.set 5, .set 69], c.pos < 70 by decide)
  have hsets : ([.set 3, .set 69, .set 5, .clear 3] : List Change).foldl Change.ofSet ∅ =
      ([.set 5, .set 69] : List Change).foldl Change.ofSet ∅ := by decide
  exact ⟨b, b', hb, hb', hcount.trans (by decide), hequals.2 hsets, hhash hsets⟩

end Porcupine

end AiFS
