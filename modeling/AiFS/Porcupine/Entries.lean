import AiFS.Porcupine.CheckSingle
import AiFS.Porcupine.KvModel

set_option autoImplicit false

/-! # Histories of operations and of events

A history is a list of operations with the times of their calls and returns, or a list of events.
The entries that `makeEntries` and `convertEntries` make of a complete one are a `Layout`, and the
order of its calls and returns is that of the times, however the sort, which is not stable, arranges
what happened at the same time: a call at the time of a return is concurrent with it. -/

namespace AiFS

namespace Porcupine

variable {S ι ο : Type}

/-! ## Complete lists of entries -/

/-- Every operation of `0..n-1` has one call and one return, and the call is first. -/
structure Complete (es : List (Entry ι ο)) (n : ℕ) (input : ℕ → ι) (output : ℕ → ο) : Prop where
  nodup : (es.map fun e => (e.isCall, e.id)).Nodup
  lt : ∀ e ∈ es, e.id < n
  call : ∀ id < n, ∃ e ∈ es, e.value = .inl (input id) ∧ e.id = id
  ret : ∀ id < n, ∃ e ∈ es, e.value = .inr (output id) ∧ e.id = id
  order : es.Pairwise fun a b => a.id = b.id → b.isCall = true → a.isCall = true

namespace Complete

variable {es : List (Entry ι ο)} {n : ℕ} {input : ℕ → ι} {output : ℕ → ο}

/-- Where the call, or the return, of an operation is. -/
def position (es : List (Entry ι ο)) (isCall : Bool) (id : ℕ) : ℕ :=
  es.findIdx fun e => (e.isCall, e.id) = (isCall, id)

theorem position_eq (h : Complete es n input output) {i : ℕ} {e : Entry ι ο}
    (he : es[i]? = some e) : position es e.isCall e.id = i := by
  obtain ⟨hi, rfl⟩ := List.getElem?_eq_some_iff.1 he
  have hex : ∃ x ∈ es, decide ((x.isCall, x.id) = (es[i].isCall, es[i].id)) = true :=
    ⟨es[i], List.getElem_mem hi, by simp⟩
  have hlt : position es es[i].isCall es[i].id < es.length := List.findIdx_lt_length_of_exists hex
  have hkey : decide ((es[position es es[i].isCall es[i].id].isCall,
      es[position es es[i].isCall es[i].id].id) = (es[i].isCall, es[i].id)) = true :=
    List.findIdx_getElem (w := hlt)
  refine (List.getElem?_inj (by simpa using hlt) h.nodup).1 ?_
  rw [List.getElem?_map, List.getElem?_map, List.getElem?_eq_getElem hlt,
    List.getElem?_eq_getElem hi, Option.map_some, Option.map_some, of_decide_eq_true hkey]

theorem getElem_position (h : Complete es n input output) {e : Entry ι ο} (he : e ∈ es) :
    es[position es e.isCall e.id]? = some e := by
  obtain ⟨i, hi, rfl⟩ := List.getElem_of_mem he
  rw [h.position_eq (List.getElem?_eq_getElem hi), List.getElem?_eq_getElem hi]

theorem length_eq (h : Complete es n input output) : es.length = 2 * n := by
  have hkeys : (es.map fun e => (e.isCall, e.id)).toFinset = Finset.univ ×ˢ Finset.range n := by
    ext ⟨isCall, id⟩
    simp only [List.mem_toFinset, List.mem_map, Prod.mk.injEq, Finset.mem_product, Finset.mem_univ,
      Finset.mem_range, true_and]
    constructor
    · rintro ⟨e, he, _, rfl⟩
      exact h.lt e he
    · intro hid
      cases isCall with
      | true =>
          obtain ⟨e, he, hvalue, rfl⟩ := h.call id hid
          exact ⟨e, he, by simp [Entry.isCall, hvalue], rfl⟩
      | false =>
          obtain ⟨e, he, hvalue, rfl⟩ := h.ret id hid
          exact ⟨e, he, by simp [Entry.isCall, hvalue], rfl⟩
  have hcard := List.toFinset_card_of_nodup h.nodup
  rw [hkeys, Finset.card_product, Finset.card_univ, Fintype.card_bool, Finset.card_range,
    List.length_map] at hcard
  exact hcard.symm

/-- The layout of a complete list. -/
def layout (h : Complete es n input output) : Layout es n where
  call := position es true
  ret := position es false
  input := input
  output := output
  length_eq := h.length_eq
  at_call id hid := by
    obtain ⟨e, he, hvalue, rfl⟩ := h.call id hid
    have hget := h.getElem_position he
    rw [show e.isCall = true by simp [Entry.isCall, hvalue]] at hget
    exact ⟨e, hget, hvalue, rfl⟩
  at_ret id hid := by
    obtain ⟨e, he, hvalue, rfl⟩ := h.ret id hid
    have hget := h.getElem_position he
    rw [show e.isCall = false by simp [Entry.isCall, hvalue]] at hget
    exact ⟨e, hget, hvalue, rfl⟩
  of_call i e he hcall := by
    have hpos := h.position_eq he
    rw [hcall] at hpos
    exact ⟨h.lt e (List.mem_of_getElem? he), hpos.symm⟩
  of_ret i e he hret := by
    have hpos := h.position_eq he
    rw [hret] at hpos
    exact ⟨h.lt e (List.mem_of_getElem? he), hpos.symm⟩
  call_lt_ret id hid := by
    obtain ⟨e, he, hvalue, heid⟩ := h.call id hid
    obtain ⟨e', he', hvalue', rfl⟩ := h.ret id hid
    have hcall : e.isCall = true := by simp [Entry.isCall, hvalue]
    have hret : e'.isCall = false := by simp [Entry.isCall, hvalue']
    have hget := h.getElem_position he
    have hget' := h.getElem_position he'
    rw [hcall, heid] at hget
    rw [hret] at hget'
    obtain ⟨hlt, hi⟩ := List.getElem?_eq_some_iff.1 hget
    obtain ⟨hlt', hi'⟩ := List.getElem?_eq_some_iff.1 hget'
    -- the return is not before the call, and it is another entry
    rcases lt_trichotomy (position es true e'.id) (position es false e'.id) with hpos | hpos | hpos
    · exact hpos
    · have hsame : some e = some e' := by rw [← hget, hpos, hget']
      rw [Option.some.inj hsame, hret] at hcall
      exact absurd hcall (by simp)
    · have hfirst := List.pairwise_iff_getElem.1 h.order _ _ hlt' hlt hpos
      rw [hi, hi', hret] at hfirst
      exact absurd (hfirst heid.symm hcall) (by simp)

end Complete

/-! ## Operations -/

theorem mem_entriesFrom {history : List (Operation ι ο)} {k : ℕ} {e : Entry ι ο} :
    e ∈ entriesFrom k history ↔ ∃ j op, history[j]? = some op ∧
      (e = ⟨.inl op.input, k + j, op.call, op.clientId⟩ ∨
        e = ⟨.inr op.output, k + j, op.ret, op.clientId⟩) := by
  induction history generalizing k with
  | nil => simp [entriesFrom]
  | cons op history ih =>
      simp only [entriesFrom, List.mem_cons, ih]
      constructor
      · rintro (rfl | rfl | ⟨j, op', hop', hcases⟩)
        · exact ⟨0, op, rfl, Or.inl rfl⟩
        · exact ⟨0, op, rfl, Or.inr rfl⟩
        · have hpos : k + 1 + j = k + (j + 1) := by omega
          rw [hpos] at hcases
          exact ⟨j + 1, op', hop', hcases⟩
      · rintro ⟨j, op', hop', hcases⟩
        cases j with
        | zero =>
            obtain rfl := Option.some.inj hop'
            rcases hcases with rfl | rfl
            · exact Or.inl rfl
            · exact Or.inr (Or.inl rfl)
        | succ j =>
            have hpos : k + 1 + j = k + (j + 1) := by omega
            exact Or.inr (Or.inr ⟨j, op', hop', by rw [hpos]; exact hcases⟩)

theorem nodup_entriesFrom (history : List (Operation ι ο)) (k : ℕ) :
    ((entriesFrom k history).map fun e => (e.isCall, e.id)).Nodup := by
  induction history generalizing k with
  | nil => exact List.nodup_nil
  | cons op history ih =>
      have hlater : ∀ isCall, (isCall, k) ∉
          (entriesFrom (k + 1) history).map fun e => (e.isCall, e.id) := by
        intro isCall hmem
        obtain ⟨e, he, heq⟩ := List.mem_map.1 hmem
        obtain ⟨j, _, _, rfl | rfl⟩ := mem_entriesFrom.1 he
        · have hid := (Prod.mk.inj heq).2
          dsimp only at hid
          omega
        · have hid := (Prod.mk.inj heq).2
          dsimp only at hid
          omega
      have hcall := hlater true
      have hret := hlater false
      simp only [entriesFrom, List.map_cons, Entry.isCall, Sum.isLeft_inl, Sum.isLeft_inr,
        List.nodup_cons, List.mem_cons, Prod.mk.injEq, Bool.true_eq_false, false_and, false_or]
      exact ⟨hcall, hret, ih (k + 1)⟩

/-! ## Sorts -/

theorem less_iff {a b : Entry ι ο} : a.less b = true ↔
    a.time < b.time ∨ (a.time = b.time ∧ a.isCall = true ∧ b.isCall = false) := by
  unfold Entry.less
  split
  · next hne => simp [hne]
  · next heq =>
      have heq : a.time = b.time := not_not.1 heq
      simp [heq]

/-- A sort that is stable. -/
def mergeSorter : Sorter ι ο where
  sort es := es.mergeSort fun a b => !b.less a
  perm es := List.mergeSort_perm es _
  sorted es := by
    have htrans : ∀ a b c : Entry ι ο, (!b.less a) = true → (!c.less b) = true →
        (!c.less a) = true := by
      intro a b c hab hbc
      simp only [Bool.not_eq_true', ← Bool.not_eq_true, less_iff] at hab hbc ⊢
      simp only [not_or, not_and, not_lt] at hab hbc ⊢
      refine ⟨hab.1.trans hbc.1, fun heq hc ha => ?_⟩
      have hab' : b.time = a.time := le_antisymm (by rw [← heq]; exact hbc.1) hab.1
      have hbc' : c.time = b.time := by rw [heq, hab']
      by_cases hb : b.isCall = true
      · exact hab.2 hab' hb ha
      · exact hbc.2 hbc' hc (by simpa using hb)
    have htotal : ∀ a b : Entry ι ο, (!b.less a || !a.less b) = true := by
      intro a b
      by_cases hab : a.less b = true
      · have hba : ¬ b.less a = true := by
          rw [less_iff] at hab ⊢
          rintro (hlt | ⟨heq, hb, ha⟩)
          · rcases hab with hlt' | ⟨heq', _⟩
            · exact lt_asymm hlt hlt'
            · exact absurd heq' hlt.ne'
          · rcases hab with hlt' | ⟨_, ha', _⟩
            · exact absurd heq hlt'.ne'
            · rw [ha] at ha'
              exact absurd ha' (by simp)
        simp [hba]
      · simp [hab]
    exact (List.pairwise_mergeSort htrans htotal es).imp fun h => by simpa using h

section Operations

variable (sorter : Sorter ι ο) {history : List (Operation ι ο)}

theorem mem_makeEntries {e : Entry ι ο} : e ∈ makeEntries sorter history ↔
    ∃ id op, history[id]? = some op ∧ (e = ⟨.inl op.input, id, op.call, op.clientId⟩ ∨
      e = ⟨.inr op.output, id, op.ret, op.clientId⟩) := by
  rw [makeEntries, (sorter.perm _).mem_iff, mem_entriesFrom]
  simp only [Nat.zero_add]

/-- A call is less than the return of an operation that does not return before it. -/
theorem less_of_le {e e' : Entry ι ο} (hcall : e.isCall = true) (hret : e'.isCall = false)
    (hle : e.time ≤ e'.time) : e.less e' = true := by
  rw [less_iff]
  rcases hle.lt_or_eq with hlt | heq
  · exact Or.inl hlt
  · exact Or.inr ⟨heq, hcall, hret⟩

variable [Inhabited ι] [Inhabited ο]

/-- **makeEntries.** The entries of a history are complete. -/
theorem complete_makeEntries (hspan : ∀ op ∈ history, op.call ≤ op.ret) :
    Complete (makeEntries sorter history) history.length
      (fun id => (history.getD id default).input) (fun id => (history.getD id default).output) where
  nodup := (((sorter.perm _).map _).nodup_iff).2 (nodup_entriesFrom history 0)
  lt e he := by
    obtain ⟨id, op, hop, rfl | rfl⟩ := (mem_makeEntries sorter).1 he
    · exact (List.getElem?_eq_some_iff.1 hop).1
    · exact (List.getElem?_eq_some_iff.1 hop).1
  call id hid := by
    refine ⟨_, (mem_makeEntries sorter).2 ⟨id, history[id], List.getElem?_eq_getElem hid,
      Or.inl rfl⟩, ?_, rfl⟩
    simp [List.getD_eq_getElem?_getD, List.getElem?_eq_getElem hid]
  ret id hid := by
    refine ⟨_, (mem_makeEntries sorter).2 ⟨id, history[id], List.getElem?_eq_getElem hid,
      Or.inr rfl⟩, ?_, rfl⟩
    simp [List.getD_eq_getElem?_getD, List.getElem?_eq_getElem hid]
  order := by
    refine (sorter.sorted _).imp_of_mem fun {a b} ha hb hless hid hcall => ?_
    obtain ⟨i, op, hop, rfl | rfl⟩ := (mem_makeEntries sorter).1 ha
    · rfl
    · obtain ⟨j, op', hop', rfl | rfl⟩ := (mem_makeEntries sorter).1 hb
      · -- the call would come after its own return
        obtain rfl : i = j := hid
        obtain rfl := Option.some.inj (hop.symm.trans hop')
        rw [less_of_le rfl rfl (hspan op (List.mem_of_getElem? hop))] at hless
        exact absurd hless (by simp)
      · exact absurd hcall (by simp [Entry.isCall])

/-- The entry at the position of a return, and at that of a call. -/
theorem time_ret (hspan : ∀ op ∈ history, op.call ≤ op.ret) {id : ℕ} (hid : id < history.length) :
    ∃ e, (makeEntries sorter history)[(complete_makeEntries sorter hspan).layout.ret id]? =
        some e ∧ e.isCall = false ∧ e.time = (history.getD id default).ret := by
  obtain ⟨e, he, hvalue, heid⟩ := (complete_makeEntries sorter hspan).layout.at_ret id hid
  obtain ⟨j, op, hop, rfl | rfl⟩ := (mem_makeEntries sorter).1 (List.mem_of_getElem? he)
  · exact absurd hvalue (by simp)
  · obtain rfl : j = id := heid
    exact ⟨_, he, rfl, by simp [List.getD_eq_getElem?_getD, hop]⟩

theorem time_call (hspan : ∀ op ∈ history, op.call ≤ op.ret) {id : ℕ} (hid : id < history.length) :
    ∃ e, (makeEntries sorter history)[(complete_makeEntries sorter hspan).layout.call id]? =
        some e ∧ e.isCall = true ∧ e.time = (history.getD id default).call := by
  obtain ⟨e, he, hvalue, heid⟩ := (complete_makeEntries sorter hspan).layout.at_call id hid
  obtain ⟨j, op, hop, rfl | rfl⟩ := (mem_makeEntries sorter).1 (List.mem_of_getElem? he)
  · obtain rfl : j = id := heid
    exact ⟨_, he, rfl, by simp [List.getD_eq_getElem?_getD, hop]⟩
  · exact absurd hvalue (by simp)

/-- **Ties.** A return comes before a call in the list exactly if it was earlier. -/
theorem precedes_iff (hspan : ∀ op ∈ history, op.call ≤ op.ret) {a b : ℕ} (ha : a < history.length)
    (hb : b < history.length) : (complete_makeEntries sorter hspan).layout.Precedes a b ↔
      Operation.Before (history.getD a default) (history.getD b default) := by
  obtain ⟨e, he, hret, htime⟩ := time_ret sorter hspan ha
  obtain ⟨e', he', hcall, htime'⟩ := time_call sorter hspan hb
  obtain ⟨hi, hget⟩ := List.getElem?_eq_some_iff.1 he
  obtain ⟨hj, hget'⟩ := List.getElem?_eq_some_iff.1 he'
  have hsorted := List.pairwise_iff_getElem.1 (sorter.sorted (entriesFrom 0 history))
  rw [Layout.Precedes, Operation.Before, ← htime, ← htime']
  constructor
  · intro hlt
    have hless : e'.less e = false := by
      rw [← hget, ← hget']
      exact hsorted _ _ hi hj hlt
    by_contra hle
    rw [less_of_le hcall hret (not_lt.1 hle)] at hless
    exact absurd hless (by simp)
  · intro hlt
    by_contra hle
    have hne : (complete_makeEntries sorter hspan).layout.call b ≠
        (complete_makeEntries sorter hspan).layout.ret a := by
      intro heq
      have hsame : some e = some e' := by rw [← he, ← heq, he']
      rw [Option.some.inj hsame, hcall] at hret
      exact absurd hret (by simp)
    have hless : e.less e' = false := by
      rw [← hget, ← hget']
      exact hsorted _ _ hj hi (lt_of_le_of_ne (not_lt.1 hle) hne)
    unfold Entry.less at hless
    rw [if_pos hlt.ne] at hless
    exact absurd hlt (of_decide_eq_false hless)

theorem map_getD_range : (List.range history.length).map (history.getD · default) = history := by
  refine List.ext_getElem (by simp) fun i hi hi' => ?_
  simp [List.getD_eq_getElem?_getD, List.getElem?_eq_getElem hi']

/-- The operations can be named by their positions in the history. -/
theorem linearizable_iff_names (model : FilledModel S ι ο) : model.Linearizable history ↔
    Linearize.Linearizable (fun s id => model.opStep s (history.getD id default))
      (fun a b => Operation.Before (history.getD a default) (history.getD b default)) model.init
      (List.range history.length) := by
  have hnames : Linearize.Linearizable model.opStep Operation.Before model.init
      ((List.range history.length).map (history.getD · default)) ↔ _ :=
    Linearize.linearizable_map _
  rwa [map_getD_range] at hnames

/-- The list of entries is linearizable exactly if the history is. -/
theorem layout_linearizable_iff (model : FilledModel S ι ο)
    (hspan : ∀ op ∈ history, op.call ≤ op.ret) :
    (complete_makeEntries sorter hspan).layout.Linearizable model ↔ model.Linearizable history := by
  rw [linearizable_iff_names]
  exact Linearize.linearizable_congr fun a ha b hb =>
    precedes_iff sorter hspan (List.mem_range.1 ha) (List.mem_range.1 hb)

/-- **checkSingle on operations.** It ends, without a crash, and says `true` exactly if the history
    is linearizable, whatever the sort does with ties. -/
theorem checkSingle_iff_linearizable {model : FilledModel S ι ο}
    (hequal : Layout.Congruent model) (hspan : ∀ op ∈ history, op.call ≤ op.ret)
    (computePartial : Bool) {bound : ℕ} (hbound : Layout.rounds history.length < bound) :
    ∃ ok longest,
      checkSingle model (makeEntries sorter history) computePartial bound = some (ok, longest) ∧
      (ok = true ↔ model.Linearizable history) := by
  obtain ⟨⟨ok, longest⟩, hresult, hright⟩ :=
    (complete_makeEntries sorter hspan).layout.checkSingle_right hequal computePartial hbound
  refine ⟨ok, longest, hresult, ?_⟩
  rw [← layout_linearizable_iff sorter model hspan]
  refine ⟨hright.ok, fun hlin => ?_⟩
  by_contra hfalse
  exact hright.illegal rfl (by simpa using hfalse) hlin

/-- A put, a read that overlaps it and misses it, and a later read that sees it. -/
def overlapping : List KvOperation :=
  [⟨0, ⟨1, "k", "v"⟩, 1, ⟨""⟩, 9⟩, ⟨1, ⟨0, "k", ""⟩, 2, ⟨""⟩, 4⟩, ⟨1, ⟨0, "k", ""⟩, 9, ⟨"v"⟩, 12⟩]

theorem checkSingle_iff_linearizable_overlapping : ∃ longest,
    checkSingle (fillDefault kvModel) (makeEntries mergeSorter overlapping) true
      (Layout.rounds 3 + 1) = some (true, longest) := by
  obtain ⟨ok, longest, hresult, hok⟩ := checkSingle_iff_linearizable mergeSorter
    (Layout.congruent_fillDefault (rfl : kvModel.equal = none))
    (show ∀ op ∈ overlapping, op.call ≤ op.ret by decide) true (Nat.lt_succ_self (Layout.rounds 3))
  have hlin : (fillDefault kvModel).Linearizable overlapping := by
    refine ⟨[⟨1, ⟨0, "k", ""⟩, 2, ⟨""⟩, 4⟩, ⟨0, ⟨1, "k", "v"⟩, 1, ⟨""⟩, 9⟩,
      ⟨1, ⟨0, "k", ""⟩, 9, ⟨"v"⟩, 12⟩], List.Perm.swap _ _ _, by decide, ?_⟩
    decide
  rw [hok.2 hlin] at hresult
  exact ⟨longest, hresult⟩

/-- `order` names operations that a linearization could begin with: they are a run of the model, and
    what returned before one of them was called is among them, and earlier. -/
def FilledModel.Begins (model : FilledModel S ι ο) (history : List (Operation ι ο))
    (order : List ℕ) : Prop :=
  ∃ state, Linearize.Begun (fun s id => model.opStep s (history.getD id default))
    (fun a b => Operation.Before (history.getD a default) (history.getD b default)) model.init
    (List.range history.length) order state

theorem layout_begun_iff {model : FilledModel S ι ο} (hspan : ∀ op ∈ history, op.call ≤ op.ret)
    {order : List ℕ} :
    (∃ state, (complete_makeEntries sorter hspan).layout.Begun model order state) ↔
      model.Begins history order := by
  have hiff : ∀ a ∈ List.range history.length, ∀ b ∈ List.range history.length,
      ((complete_makeEntries sorter hspan).layout.Precedes a b ↔
        Operation.Before (history.getD a default) (history.getD b default)) := fun a ha b hb =>
    precedes_iff sorter hspan (List.mem_range.1 ha) (List.mem_range.1 hb)
  exact exists_congr fun state => ⟨fun h => h.congr hiff,
    fun h => h.congr fun a ha b hb => (hiff a ha b hb).symm⟩

/-- **Partial linearizations.** What `checkSingle` notes for an operation is a beginning of a
    linearization with it, and no beginning with it is longer. -/
theorem longest_is_longest {model : FilledModel S ι ο} (hequal : Layout.Congruent model)
    (hspan : ∀ op ∈ history, op.call ≤ op.ret) {bound : ℕ}
    (hbound : Layout.rounds history.length < bound) :
    ∃ ok longest, checkSingle model (makeEntries sorter history) true bound = some (ok, longest) ∧
      longest.length = history.length ∧
      (∀ id seq, longest[id]? = some (some seq) → id ∈ seq ∧ model.Begins history seq) ∧
      ∀ order, model.Begins history order → ∀ id ∈ order,
        ∃ seq, longest[id]? = some (some seq) ∧ order.length ≤ seq.length := by
  obtain ⟨⟨ok, longest⟩, hresult, hright⟩ :=
    (complete_makeEntries sorter hspan).layout.checkSingle_right hequal true hbound
  refine ⟨ok, longest, hresult, hright.length, fun id seq hseq => ?_, fun order horder id hid => ?_⟩
  · obtain ⟨hmem, hbegun⟩ := hright.sound id seq hseq
    exact ⟨hmem, (layout_begun_iff sorter hspan).1 hbegun⟩
  · obtain ⟨t, hbegun⟩ := (layout_begun_iff sorter hspan).2 horder
    exact hright.longest rfl rfl order t hbegun id hid

/-- A read of what nobody put, after a put. -/
def misread : List KvOperation :=
  [⟨0, ⟨1, "k", "v"⟩, 1, ⟨""⟩, 2⟩, ⟨1, ⟨0, "k", ""⟩, 3, ⟨"w"⟩, 4⟩]

theorem longest_is_longest_misread : ∃ ok longest seq,
    checkSingle (fillDefault kvModel) (makeEntries mergeSorter misread) true
      (Layout.rounds 2 + 1) = some (ok, longest) ∧ longest[0]? = some (some seq) ∧ 0 ∈ seq := by
  obtain ⟨ok, longest, hresult, _, hsound, hlongest⟩ := longest_is_longest mergeSorter
    (Layout.congruent_fillDefault (rfl : kvModel.equal = none))
    (show ∀ op ∈ misread, op.call ≤ op.ret by decide) (Nat.lt_succ_self (Layout.rounds 2))
  have hput : (fillDefault kvModel).Begins misread [0] :=
    ⟨"v", by decide, by decide, by decide, by decide, by decide⟩
  obtain ⟨seq, hseq, _⟩ := hlongest [0] hput 0 (by decide)
  exact ⟨ok, longest, seq, hresult, hseq, (hsound 0 seq hseq).1⟩

end Operations

end Porcupine

end AiFS
