import AiFS.Porcupine.Entries
import AiFS.Porcupine.Parallel

set_option autoImplicit false

/-! # Checking a history of operations

`checkOperations` partitions a history, sorts the entries of each part and checks the parts in
parallel. What it returns is right in every run, it returns in every run unless there is nothing to
wait for, and with the key/value model it decides whether the history of the whole store is
linearizable. -/

namespace AiFS

namespace Porcupine

variable {S ι ο : Type}

/-- The parts of a history, as entries. -/
def subhistories (sorter : Sorter ι ο) (model : FilledModel S ι ο)
    (history : List (Operation ι ο)) : List (List (Entry ι ο)) :=
  (model.partition history).map (makeEntries sorter)

/-- `checkOperations` when the steps are those of `turns`. -/
def checkOperations [DecidableEq S] (sorter : Sorter ι ο) (model : Model S ι ο)
    (history : List (Operation ι ο)) (verbose : Bool) (timeout : ℤ) (turns : List Turn) :
    Option (Par S) :=
  let model := fillDefault model
  let l := subhistories sorter model history
  Machine.exec (Par.step model l verbose (decide (0 < timeout))) (Par.start model l) turns

section Parts

variable [Inhabited ι] [Inhabited ο] (sorter : Sorter ι ο)

/-- A part whose operations do not return before they are called. -/
def partOf (ops : List (Operation ι ο)) (hspan : ∀ op ∈ ops, op.call ≤ op.ret) : Part ι ο where
  entries := makeEntries sorter ops
  n := ops.length
  layout := (complete_makeEntries sorter hspan).layout

theorem partOf_linearizable (model : FilledModel S ι ο) {ops : List (Operation ι ο)}
    (hspan : ∀ op ∈ ops, op.call ≤ op.ret) :
    (partOf sorter ops hspan).layout.Linearizable model ↔ model.Linearizable ops :=
  layout_linearizable_iff sorter model hspan

def partsOf (l : List (List (Operation ι ο))) (hspan : ∀ ops ∈ l, ∀ op ∈ ops, op.call ≤ op.ret) :
    List (Part ι ο) :=
  l.pmap (partOf sorter) hspan

theorem map_entries_partsOf {l : List (List (Operation ι ο))}
    (hspan : ∀ ops ∈ l, ∀ op ∈ ops, op.call ≤ op.ret) :
    (partsOf sorter l hspan).map Part.entries = l.map (makeEntries sorter) := by
  rw [partsOf, List.map_pmap]
  exact List.pmap_eq_map hspan

end Parts

variable [Inhabited ι] [Inhabited ο] [DecidableEq S] {sorter : Sorter ι ο} {model : Model S ι ο}
  {history : List (Operation ι ο)} {verbose : Bool} {timeout : ℤ} {turns : List Turn} {p : Par S}

theorem span_kvPartition {history : List KvOperation} (hspan : ∀ op ∈ history, op.call ≤ op.ret) :
    ∀ ops ∈ (fillDefault kvModel).partition history, ∀ op ∈ ops, op.call ≤ op.ret := by
  obtain ⟨keys, _, _, hparts⟩ := kvPartition_eq history
  intro ops hops op hop
  have hops : ops ∈ kvPartition history := hops
  rw [hparts] at hops
  obtain ⟨k, _, rfl⟩ := List.mem_map.1 hops
  exact hspan op (List.mem_filter.1 hop).1

theorem congruent_kvModel : Layout.Congruent (fillDefault kvModel) :=
  Layout.congruent_fillDefault rfl

/-- The most steps that a check can take. -/
def maxTurns (l : List (List (Operation ι ο))) : ℕ :=
  (l.map fun ops => Layout.rounds ops.length + 2).sum + l.length + 2

/-- What holds after every run. -/
theorem checkOperations_inv (hequal : Layout.Congruent (fillDefault model))
    (hspan : ∀ ops ∈ (fillDefault model).partition history, ∀ op ∈ ops, op.call ≤ op.ret)
    (hrun : checkOperations sorter model history verbose timeout turns = some p) :
    turns.length ≤ maxTurns ((fillDefault model).partition history) ∧
      ∃ m, ParInv (fillDefault model) (partsOf sorter _ hspan) verbose (decide (0 < timeout)) m
        p := by
  simp only [checkOperations, subhistories, ← map_entries_partsOf sorter hspan] at hrun
  obtain ⟨m, hinv, hle⟩ := (parInv_start _ _ _ _).exec hequal hrun
  refine ⟨(Nat.le_of_add_right_le hle).trans ?_, m, hinv⟩
  rw [stepsLeft_start, maxTurns, partsOf, List.length_pmap, List.map_pmap]
  simp only [partOf]
  rw [List.pmap_eq_map]

/-- A run can go on until the caller is back. -/
theorem exists_return (hequal : Layout.Congruent (fillDefault model))
    (hspan : ∀ ops ∈ (fillDefault model).partition history, ∀ op ∈ ops, op.call ≤ op.ret)
    (hsome : (fillDefault model).partition history ≠ [] ∨ 0 < timeout)
    (hrun : checkOperations sorter model history verbose timeout turns = some p) :
    ∃ more p' result info,
      checkOperations sorter model history verbose timeout (turns ++ more) = some p' ∧
      p'.main = .returned result info := by
  obtain ⟨_, m, hinv⟩ := checkOperations_inv hequal hspan hrun
  have hsome' : partsOf sorter _ hspan ≠ [] ∨ decide (0 < timeout) = true := by
    rcases hsome with hne | hlt
    · exact Or.inl fun hnil => hne (List.pmap_eq_nil_iff.1 hnil)
    · exact Or.inr (decide_eq_true hlt)
  obtain ⟨more, p', result, info, hmore, hp'⟩ := hinv.returns hequal hsome'
  rw [map_entries_partsOf] at hmore
  refine ⟨more, p', result, info, ?_, hp'⟩
  simp only [checkOperations] at hrun ⊢
  rw [Machine.exec_append, hrun, Option.bind_some]
  exact hmore

theorem exists_return_kv (sorter : Sorter KvInput KvOutput) {history : List KvOperation}
    (hspan : ∀ op ∈ history, op.call ≤ op.ret) (hne : history ≠ []) (verbose : Bool) (timeout : ℤ) :
    ∃ turns p result info, checkOperations sorter kvModel history verbose timeout turns = some p ∧
      p.main = .returned result info := by
  have hstart : checkOperations sorter kvModel history verbose timeout [] = some
      (Par.start (fillDefault kvModel) (subhistories sorter (fillDefault kvModel) history)) := rfl
  exact exists_return congruent_kvModel (span_kvPartition hspan)
    (Or.inl fun hnil => hne (kvPartition_eq_nil_iff.1 hnil)) hstart

/-- What the caller knows when it is back. -/
theorem checkOperations_decided (hequal : Layout.Congruent (fillDefault model))
    (hspan : ∀ ops ∈ (fillDefault model).partition history, ∀ op ∈ ops, op.call ≤ op.ret)
    (hrun : checkOperations sorter model history verbose timeout turns = some p)
    {result : CheckResult} {info : Option (List (Finset (List ℕ)))}
    (hp : p.main = .returned result info) :
    (result = .ok → ∀ ops ∈ (fillDefault model).partition history,
        (fillDefault model).Linearizable ops) ∧
      (result = .illegal → ∃ ops ∈ (fillDefault model).partition history,
        ¬ (fillDefault model).Linearizable ops) ∧
      (result = .unknown → 0 < timeout) := by
  obtain ⟨_, m, hinv⟩ := checkOperations_inv hequal hspan hrun
  obtain ⟨hok, hillegal, hunknown⟩ := hinv.returned hp
  refine ⟨fun hresult ops hops => ?_, fun hresult => ?_, fun hresult => ?_⟩
  · rw [← partOf_linearizable sorter _ (hspan ops hops)]
    exact hok hresult _ (List.mem_pmap.2 ⟨ops, hops, rfl⟩)
  · obtain ⟨part, hpart, hnot⟩ := hillegal hresult
    obtain ⟨ops, hops, rfl⟩ := List.mem_pmap.1 hpart
    exact ⟨ops, hops, fun hlin => hnot ((partOf_linearizable sorter _ _).2 hlin)⟩
  · exact of_decide_eq_true (hunknown hresult)

/-- **Results.** However the goroutines run, `Ok` and `Illegal` are right about the parts, and
    without a timeout the result is one of the two. -/
theorem checkOperations_result_right (hequal : Layout.Congruent (fillDefault model))
    (hspan : ∀ ops ∈ (fillDefault model).partition history, ∀ op ∈ ops, op.call ≤ op.ret)
    (hrun : checkOperations sorter model history verbose timeout turns = some p)
    {result : CheckResult} {info : Option (List (Finset (List ℕ)))}
    (hp : p.main = .returned result info) :
    (result = .ok → ∀ ops ∈ (fillDefault model).partition history,
        (fillDefault model).Linearizable ops) ∧
      (result = .illegal → ∃ ops ∈ (fillDefault model).partition history,
        ¬ (fillDefault model).Linearizable ops) ∧
      (timeout ≤ 0 → (result = .ok ↔ ∀ ops ∈ (fillDefault model).partition history,
        (fillDefault model).Linearizable ops)) := by
  obtain ⟨hok, hillegal, hunknown⟩ := checkOperations_decided hequal hspan hrun hp
  refine ⟨hok, hillegal, fun htimeout => ⟨hok, fun hlin => ?_⟩⟩
  cases result with
  | ok => rfl
  | unknown => exact absurd (hunknown rfl) (not_lt.2 htimeout)
  | illegal =>
      obtain ⟨ops, hops, hnot⟩ := hillegal rfl
      exact absurd (hlin ops hops) hnot

theorem checkOperations_result_right_overlapping : ∃ turns p result info,
    checkOperations mergeSorter kvModel overlapping false 0 turns = some p ∧
      p.main = .returned result info ∧ (result = .ok ↔
        ∀ ops ∈ kvPartition overlapping, (fillDefault kvModel).Linearizable ops) := by
  have hspan : ∀ op ∈ overlapping, op.call ≤ op.ret := by decide
  obtain ⟨turns, p, result, info, hrun, hp⟩ :=
    exists_return_kv mergeSorter hspan (by decide) false 0
  exact ⟨turns, p, result, info, hrun, hp, (checkOperations_result_right congruent_kvModel
    (span_kvPartition hspan) hrun hp).2.2 (by decide)⟩

/-- **Answers.** No run is longer than `maxTurns`, and until it has an answer every run can go on;
    only a history without parts is waited for in vain if there is no timeout. -/
theorem checkOperations_answers (hequal : Layout.Congruent (fillDefault model))
    (hspan : ∀ ops ∈ (fillDefault model).partition history, ∀ op ∈ ops, op.call ≤ op.ret)
    (hrun : checkOperations sorter model history verbose timeout turns = some p) :
    turns.length ≤ maxTurns ((fillDefault model).partition history) ∧
      ((∃ more p' result info,
          checkOperations sorter model history verbose timeout (turns ++ more) = some p' ∧
          p'.main = .returned result info) ↔
        (fillDefault model).partition history ≠ [] ∨ 0 < timeout) := by
  refine ⟨(checkOperations_inv hequal hspan hrun).1, ?_, fun hsome =>
    exists_return hequal hspan hsome hrun⟩
  rintro ⟨more, p', result, info, hmore, hp'⟩
  by_contra hnone
  push Not at hnone
  obtain ⟨hnil, htimeout⟩ := hnone
  have hstart : ∀ ts, ts ≠ [] → checkOperations sorter model history verbose timeout ts = none := by
    intro ts hts
    obtain ⟨t, ts, rfl⟩ := List.exists_cons_of_ne_nil hts
    have htimed : decide (0 < timeout) = false := decide_eq_false (not_lt.2 htimeout)
    have hstep : Par.step (fillDefault model) [] verbose false (Par.start (fillDefault model) [])
        t = none := by
      cases t <;> rfl
    simp [checkOperations, subhistories, hnil, htimed, Machine.exec, hstep]
  by_cases hts : turns ++ more = []
  · rw [hts] at hmore
    obtain rfl := Option.some.inj hmore
    simp [Par.start] at hp'
  · rw [hstart _ hts] at hmore
    exact absurd hmore (by simp)

/-- Without a timeout, the check of a history of operations returns, and the check of an empty one
    hangs. -/
theorem checkOperations_answers_overlapping :
    (∃ turns p result info, checkOperations mergeSorter kvModel overlapping false 0 turns = some p ∧
      p.main = .returned result info) ∧
    ¬ ∃ turns p result info, checkOperations mergeSorter kvModel [] false 0 turns = some p ∧
      p.main = .returned result info := by
  -- both from the start of the run
  have hanswers : ∀ history : List KvOperation, (∀ op ∈ history, op.call ≤ op.ret) →
      ((∃ turns p result info, checkOperations mergeSorter kvModel history false 0 turns = some p ∧
        p.main = .returned result info) ↔ history ≠ []) := by
    intro history hspan
    have hstart : checkOperations mergeSorter kvModel history false 0 [] = some
        (Par.start (fillDefault kvModel)
          (subhistories mergeSorter (fillDefault kvModel) history)) := rfl
    refine (checkOperations_answers congruent_kvModel (span_kvPartition hspan) hstart).2.trans ?_
    rw [or_iff_left (lt_irrefl 0)]
    exact kvPartition_eq_nil_iff.not
  exact ⟨(hanswers overlapping (by decide)).2 (by decide), fun h => (hanswers [] (by simp)).1 h rfl⟩

/-- **Partial linearizations.** In a verbose check, the sequences returned for a part are beginnings
    of linearizations, even after a timeout; and without one they hold, for every operation, one
    that is as long as any beginning with it. -/
theorem partialLinearizations_right (hequal : Layout.Congruent (fillDefault model))
    (hspan : ∀ ops ∈ (fillDefault model).partition history, ∀ op ∈ ops, op.call ≤ op.ret)
    (hrun : checkOperations sorter model history true timeout turns = some p)
    {result : CheckResult} {info : Option (List (Finset (List ℕ)))}
    (hp : p.main = .returned result info) :
    ∃ seqs, info = some seqs ∧ List.Forall₂ (fun ops seqs =>
        (∀ seq ∈ seqs, (fillDefault model).Begins ops seq) ∧
        (timeout ≤ 0 → ∀ order, (fillDefault model).Begins ops order → ∀ id ∈ order,
          ∃ seq ∈ seqs, id ∈ seq ∧ order.length ≤ seq.length))
      ((fillDefault model).partition history) seqs := by
  obtain ⟨_, m, hinv⟩ := checkOperations_inv hequal hspan hrun
  have hmain := hinv.main
  rw [hp] at hmain
  obtain ⟨ok, timedOut, rfl, hdecided, hinfo⟩ := hmain
  obtain ⟨seqs, rfl, hseqs⟩ := hinfo rfl
  refine ⟨seqs, rfl, ?_⟩
  rw [List.forall₂_iff_get] at hseqs ⊢
  obtain ⟨hlen, hseqs⟩ := hseqs
  rw [partsOf, List.length_pmap] at hlen
  refine ⟨hlen, fun i hi hi' => ?_⟩
  have hinformed := hseqs i (by rw [partsOf, List.length_pmap]; exact hi) hi'
  simp only [partsOf, List.get_eq_getElem, List.getElem_pmap] at hinformed ⊢
  refine ⟨fun seq hseq => ?_, fun htimeout order horder id hid => ?_⟩
  · exact (layout_begun_iff sorter (hspan _ (List.getElem_mem hi))).1 (hinformed.sound seq hseq)
  · obtain ⟨t, hbegun⟩ := (layout_begun_iff sorter (hspan _ (List.getElem_mem hi))).2 horder
    refine hinformed.longest ?_ order t hbegun id hid
    cases timedOut with
    | false => rfl
    | true => exact absurd (of_decide_eq_true (hdecided.timer rfl)) (not_lt.2 htimeout)

theorem partialLinearizations_right_misread : ∃ turns p result seqs seq,
    checkOperations mergeSorter kvModel misread true 0 turns = some p ∧
      p.main = .returned result (some [seqs]) ∧ seq ∈ seqs ∧ 0 ∈ seq := by
  have hspan : ∀ op ∈ misread, op.call ≤ op.ret := by decide
  obtain ⟨turns, p, result, info, hrun, hp⟩ := exists_return_kv mergeSorter hspan (by decide) true 0
  obtain ⟨seqs, rfl, hseqs⟩ :=
    partialLinearizations_right congruent_kvModel (span_kvPartition hspan) hrun hp
  have hpart : (fillDefault kvModel).partition misread = [misread] := by
    simp [fillDefault, kvModel, kvPartition, misread, insertByKey]
  rw [hpart] at hseqs
  cases hseqs with
  | cons hright hnil =>
      cases hnil
      have hput : (fillDefault kvModel).Begins misread [0] :=
        ⟨"v", by decide, by decide, by decide, by decide, by decide⟩
      obtain ⟨seq, hseq, hmem, _⟩ := hright.2 (by decide) [0] hput 0 (by decide)
      exact ⟨turns, p, result, _, seq, hrun, hp, hseq, hmem⟩

/-! ## The key/value store -/

/-- **The store.** A check with the key/value model decides whether the history of the whole store
    is linearizable. -/
theorem checkOperations_store_right {sorter : Sorter KvInput KvOutput} {history : List KvOperation}
    (hspan : ∀ op ∈ history, op.call ≤ op.ret) {p : Par String}
    (hrun : checkOperations sorter kvModel history verbose timeout turns = some p)
    {result : CheckResult} {info : Option (List (Finset (List ℕ)))}
    (hp : p.main = .returned result info) :
    (result = .ok → StoreLinearizable history) ∧
      (result = .illegal → ¬ StoreLinearizable history) ∧ (result = .unknown → 0 < timeout) := by
  obtain ⟨hok, hillegal, hunknown⟩ :=
    checkOperations_decided congruent_kvModel (span_kvPartition hspan) hrun hp
  refine ⟨fun hresult => ?_, fun hresult hlin => ?_, hunknown⟩
  · exact (partition_linearizable hspan).2 (hok hresult)
  · obtain ⟨ops, hops, hnot⟩ := hillegal hresult
    exact hnot ((partition_linearizable hspan).1 hlin ops hops)

/-- A read and a write of one key overlap, and operations on another key run beside them. -/
def twoKeys : List KvOperation :=
  [⟨0, ⟨1, "k", "v"⟩, 1, ⟨""⟩, 9⟩, ⟨1, ⟨0, "k", ""⟩, 2, ⟨""⟩, 4⟩, ⟨2, ⟨2, "l", "w"⟩, 3, ⟨""⟩, 6⟩,
    ⟨1, ⟨0, "l", ""⟩, 5, ⟨"w"⟩, 8⟩, ⟨2, ⟨0, "k", ""⟩, 10, ⟨"v"⟩, 12⟩]

theorem checkOperations_store_right_twoKeys : ∃ turns p info,
    checkOperations mergeSorter kvModel twoKeys false 0 turns = some p ∧
      p.main = .returned .ok info := by
  have hspan : ∀ op ∈ twoKeys, op.call ≤ op.ret := by decide
  obtain ⟨turns, p, result, info, hrun, hp⟩ :=
    exists_return_kv mergeSorter hspan (by decide) false 0
  obtain ⟨_, hillegal, hunknown⟩ := checkOperations_store_right hspan hrun hp
  have hlin : StoreLinearizable twoKeys := by
    refine ⟨[⟨1, ⟨0, "k", ""⟩, 2, ⟨""⟩, 4⟩, ⟨2, ⟨2, "l", "w"⟩, 3, ⟨""⟩, 6⟩,
      ⟨1, ⟨0, "l", ""⟩, 5, ⟨"w"⟩, 8⟩, ⟨0, ⟨1, "k", "v"⟩, 1, ⟨""⟩, 9⟩,
      ⟨2, ⟨0, "k", ""⟩, 10, ⟨"v"⟩, 12⟩], by decide, by decide, by decide⟩
  cases result with
  | ok => exact ⟨turns, p, info, hrun, hp⟩
  | illegal => exact absurd hlin (hillegal rfl)
  | unknown => exact absurd (hunknown rfl) (by decide)

end Porcupine

end AiFS
