import AiFS.Controlplane.Controller

set_option autoImplicit false

/-! # Which worker is picked

`PickBestWorker` goes over the workers twice: over those that the controller has seen, and over all
if none of these can be picked. A pass takes the first worker of the lowest score among those that
are not offline, and the score of a busy worker is `1000`.

The score is not quite what it stands for. A worker that is not busy, with a utilization above
`1000`, scores worse than a busy one (`pickBest_busy`), and utilizations below `0` all score `0`.
`Rankable` says when the order by score is good enough; with utilizations from `0` up to `1000`,
the latter excluded, it always is (`rankable_of_range`). -/

namespace AiFS

namespace Controlplane

variable {υ : Type}

/-! ## Passes -/

/-- The workers that a pass does not skip. -/
def eligible (workers : List (WorkerInfo υ)) (seen : List String) (requireSeen : Bool) :
    List (WorkerInfo υ) :=
  workers.filter (fun w => ¬ (requireSeen ∧ w.id ∉ seen) ∧ w.status ≠ WorkerStatus.offline)

/-- The workers among which the pass that picks one picks it. -/
def candidates (workers : List (WorkerInfo υ)) (seen : List String) : List (WorkerInfo υ) :=
  if eligible workers seen true = [] then eligible workers [] false
  else eligible workers seen true

theorem mem_eligible_seen {workers : List (WorkerInfo υ)} {seen : List String} {w : WorkerInfo υ} :
    w ∈ eligible workers seen true ↔
      w ∈ workers ∧ w.status ≠ WorkerStatus.offline ∧ w.id ∈ seen := by
  simp only [eligible, List.mem_filter, decide_eq_true_eq, true_and, not_not]
  tauto

theorem mem_eligible_all {workers : List (WorkerInfo υ)} {w : WorkerInfo υ} :
    w ∈ eligible workers [] false ↔ w ∈ workers ∧ w.status ≠ WorkerStatus.offline := by
  simp only [eligible, List.mem_filter, decide_eq_true_eq, Bool.false_eq_true, false_and,
    not_false_eq_true, true_and]

theorem mem_of_candidates {workers : List (WorkerInfo υ)} {seen : List String} {w : WorkerInfo υ}
    (h : w ∈ candidates workers seen) : w ∈ workers ∧ w.status ≠ WorkerStatus.offline := by
  unfold candidates at h
  split at h
  · exact mem_eligible_all.1 h
  · obtain ⟨hmem, halive, -⟩ := mem_eligible_seen.1 h
    exact ⟨hmem, halive⟩

/-- If one of the workers that can be picked has been seen, only such workers are candidates. -/
theorem seen_of_candidates {workers : List (WorkerInfo υ)} {seen : List String} {w : WorkerInfo υ}
    (hw : w ∈ candidates workers seen)
    (hsome : ∃ v ∈ workers, v.status ≠ WorkerStatus.offline ∧ v.id ∈ seen) : w.id ∈ seen := by
  obtain ⟨v, hv, halive, hseen⟩ := hsome
  have hne : eligible workers seen true ≠ [] :=
    List.ne_nil_of_mem (mem_eligible_seen.2 ⟨hv, halive, hseen⟩)
  rw [candidates, if_neg hne] at hw
  exact (mem_eligible_seen.1 hw).2.2

theorem candidates_eq_nil {workers : List (WorkerInfo υ)} {seen : List String} :
    candidates workers seen = [] ↔ ∀ w ∈ workers, w.status = WorkerStatus.offline := by
  constructor
  · intro h w hw
    by_contra halive
    have hmem : w ∈ eligible workers [] false := mem_eligible_all.2 ⟨hw, halive⟩
    unfold candidates at h
    split at h
    · exact List.ne_nil_of_mem hmem h
    · next hne => exact hne h
  · intro h
    refine List.eq_nil_iff_forall_not_mem.2 fun w hw => ?_
    obtain ⟨hmem, halive⟩ := mem_of_candidates hw
    exact halive (h w hmem)

section Scores

variable [LinearOrder υ] [Zero υ] [OfNat υ 1000]

/-- The two passes of `PickBestWorker`. -/
def pickBest (workers : List (WorkerInfo υ)) (seen : List String) : Option (WorkerInfo υ) :=
  match pickLowestLoadWorker workers seen true with
  | some best => some best
  | none => pickLowestLoadWorker workers [] false

theorem pickBestWorker_eq (s : State υ) (ok : Bool) (reads : String → Option (Store υ)) :
    (s.pickBestWorker ok reads).2 =
      match (s.listWorkers ok reads).2 with
      | none => .error .listing
      | some workers =>
          match pickBest workers (s.listWorkers ok reads).1.ctl.seen with
          | some best => .ok best
          | none => .error .noAvailableWorker := by
  unfold State.pickBestWorker pickBest
  rcases s.listWorkers ok reads with ⟨s', listed⟩
  cases listed with
  | none => rfl
  | some workers =>
      simp only
      cases pickLowestLoadWorker workers s'.ctl.seen true with
      | some best => rfl
      | none => cases pickLowestLoadWorker workers [] false <;> rfl

/-- A pass takes the first worker of the lowest score. -/
theorem pickLowestLoadWorker_eq (workers : List (WorkerInfo υ)) (seen : List String)
    (requireSeen : Bool) :
    pickLowestLoadWorker workers seen requireSeen =
      (eligible workers seen requireSeen).argmin workerLoadScore := by
  -- the score is carried along beside the worker
  have hfold : ∀ best : Option (WorkerInfo υ),
      workers.foldl (pickLowestLoadStep seen requireSeen)
          (best.map fun w => (w, workerLoadScore w)) =
        ((eligible workers seen requireSeen).foldl
          (List.argAux fun b c => workerLoadScore b < workerLoadScore c) best).map
            fun w => (w, workerLoadScore w) := by
    unfold eligible
    induction workers with
    | nil => exact fun best => rfl
    | cons w workers ih =>
        intro best
        rw [List.foldl_cons]
        by_cases hskip : requireSeen ∧ w.id ∉ seen
        · rw [List.filter_cons_of_neg (by simp [hskip]), ← ih]
          simp only [pickLowestLoadStep, if_pos hskip]
        · by_cases hoff : w.status = WorkerStatus.offline
          · rw [List.filter_cons_of_neg (by simp [hoff]), ← ih]
            simp only [pickLowestLoadStep, if_neg hskip, if_pos hoff]
          · rw [List.filter_cons_of_pos (by simpa only [decide_eq_true_eq] using ⟨hskip, hoff⟩),
              List.foldl_cons, ← ih]
            congr 1
            simp only [pickLowestLoadStep, if_neg hskip, if_neg hoff]
            cases best with
            | none => rfl
            | some b =>
                simp only [Option.map_some, List.argAux]
                split <;> rfl
  have hpick := hfold none
  rw [Option.map_none] at hpick
  rw [pickLowestLoadWorker, hpick, Option.map_map]
  exact Option.map_id'

theorem pickBest_eq (workers : List (WorkerInfo υ)) (seen : List String) :
    pickBest workers seen = (candidates workers seen).argmin workerLoadScore := by
  unfold pickBest candidates
  rw [pickLowestLoadWorker_eq, pickLowestLoadWorker_eq]
  by_cases hnil : eligible workers seen true = []
  · rw [if_pos hnil, hnil]
    rfl
  · rw [if_neg hnil]
    cases hbest : (eligible workers seen true).argmin workerLoadScore with
    | none => exact absurd (List.argmin_eq_none.1 hbest) hnil
    | some best => rfl

/-! ## Scores -/

/-- The largest utilization of a worker's GPUs, `0` if it has none. -/
def WorkerInfo.maxUtilization (w : WorkerInfo υ) : υ :=
  (w.gpus.map GPUInfo.utilization).max?.getD 0

theorem workerLoadScore_busy {w : WorkerInfo υ} (h : w.status = WorkerStatus.busy) :
    workerLoadScore w = 1000 :=
  if_pos h

theorem workerLoadScore_free {w : WorkerInfo υ} (h : w.status ≠ WorkerStatus.busy) :
    workerLoadScore w = max 0 w.maxUtilization := by
  have hloop : (fun (m : υ) (g : GPUInfo υ) => if m < g.utilization then g.utilization else m) =
      fun m g => max m g.utilization := by
    funext m g
    exact (max_def_lt m g.utilization).symm
  rw [workerLoadScore, if_neg h, hloop, ← List.foldl_map, List.foldl_max]
  rfl

/-- When the order by score is the intended one. Where there are busy candidates and others, each
    busy one has to be beaten: by a utilization below `1000`, or by one of exactly `1000` that comes
    before it. And of the candidates with a utilization of at most `0`, which all score `0`, the
    first must be the one of the lowest utilization. -/
structure Rankable (cands : List (WorkerInfo υ)) : Prop where
  beaten : ∀ b ∈ cands, b.status = WorkerStatus.busy → ∀ v ∈ cands, v.status ≠ WorkerStatus.busy →
    ∃ w ∈ cands, w.status ≠ WorkerStatus.busy ∧ (w.maxUtilization < 1000 ∨
      w.maxUtilization = 1000 ∧ cands.idxOf w < cands.idxOf b)
  unloaded : ∀ w ∈ cands, w.status ≠ WorkerStatus.busy → w.maxUtilization ≤ 0 →
    (∀ v ∈ cands, v.status ≠ WorkerStatus.busy → v.maxUtilization ≤ 0 →
      cands.idxOf w ≤ cands.idxOf v) →
    ∀ v ∈ cands, v.status ≠ WorkerStatus.busy → w.maxUtilization ≤ v.maxUtilization

/-- Utilizations of at least `0` and below `1000` can be ranked. -/
theorem rankable_of_range {cands : List (WorkerInfo υ)}
    (h : ∀ w ∈ cands, w.status ≠ WorkerStatus.busy →
      0 ≤ w.maxUtilization ∧ w.maxUtilization < 1000) : Rankable cands where
  beaten := fun _ _ _ v hv hfree => ⟨v, hv, hfree, Or.inl (h v hv hfree).2⟩
  unloaded := fun _ _ _ hle _ v hv hfree => hle.trans (h v hv hfree).1

/-- Alive, seen if possible, idle if possible, and of those the least loaded. -/
structure WellChosen (workers : List (WorkerInfo υ)) (seen : List String) (best : WorkerInfo υ) :
    Prop where
  listed : best ∈ workers
  alive : best.status ≠ WorkerStatus.offline
  known : (∃ w ∈ workers, w.status ≠ WorkerStatus.offline ∧ w.id ∈ seen) → best.id ∈ seen
  busy : best.status = WorkerStatus.busy →
    ∀ w ∈ candidates workers seen, w.status = WorkerStatus.busy
  least : best.status ≠ WorkerStatus.busy → ∀ w ∈ candidates workers seen,
    w.status ≠ WorkerStatus.busy → best.maxUtilization ≤ w.maxUtilization

section Choice

variable {cands : List (WorkerInfo υ)} {best : WorkerInfo υ} (hpos : (0 : υ) < 1000)
  (hbest : best ∈ cands.argmin workerLoadScore)
include hpos hbest

/-- A busy worker is picked over others only if none of these is ranked before it. -/
theorem Rankable.all_busy (h : Rankable cands) (hbusy : best.status = WorkerStatus.busy) :
    ∀ w ∈ cands, w.status = WorkerStatus.busy := by
  obtain ⟨hmem, hmin, hfirst⟩ := List.mem_argmin_iff.1 hbest
  intro v hv
  by_contra hfree
  obtain ⟨w, hw, hwfree, hlt | ⟨heq, hbefore⟩⟩ := h.beaten best hmem hbusy v hv hfree
  · have hle := hmin w hw
    rw [workerLoadScore_busy hbusy, workerLoadScore_free hwfree] at hle
    exact absurd hle (not_le.2 (max_lt hpos hlt))
  · have hle : workerLoadScore w ≤ workerLoadScore best := by
      rw [workerLoadScore_busy hbusy, workerLoadScore_free hwfree, heq]
      exact max_le hpos.le le_rfl
    exact absurd (hfirst w hw hle) (not_le.2 hbefore)

omit hpos in
theorem Rankable.least_loaded (h : Rankable cands) (hfree : best.status ≠ WorkerStatus.busy) :
    ∀ w ∈ cands, w.status ≠ WorkerStatus.busy → best.maxUtilization ≤ w.maxUtilization := by
  obtain ⟨hmem, hmin, hfirst⟩ := List.mem_argmin_iff.1 hbest
  intro w hw hwfree
  have hle := hmin w hw
  rw [workerLoadScore_free hfree, workerLoadScore_free hwfree] at hle
  rcases le_or_gt w.maxUtilization 0 with hzero | hload
  · rw [max_eq_left hzero] at hle
    have hbestle : best.maxUtilization ≤ 0 := (le_max_right _ _).trans hle
    refine h.unloaded best hmem hfree hbestle (fun v hv hvfree hvle => hfirst v hv ?_) w hw hwfree
    rw [workerLoadScore_free hvfree, workerLoadScore_free hfree, max_eq_left hvle]
    exact le_max_left _ _
  · calc best.maxUtilization ≤ max 0 best.maxUtilization := le_max_right _ _
      _ ≤ max 0 w.maxUtilization := hle
      _ = w.maxUtilization := max_eq_right hload.le

/-- If the pick is the intended one, the candidates could be ranked. -/
theorem rankable_of_wellChosen
    (hbusy : best.status = WorkerStatus.busy → ∀ w ∈ cands, w.status = WorkerStatus.busy)
    (hleast : best.status ≠ WorkerStatus.busy → ∀ w ∈ cands, w.status ≠ WorkerStatus.busy →
      best.maxUtilization ≤ w.maxUtilization) : Rankable cands := by
  obtain ⟨hmem, hmin, hfirst⟩ := List.mem_argmin_iff.1 hbest
  refine ⟨fun b hb hbbusy v hv hvfree => ?_, fun w hw hwfree hwle hwfirst => ?_⟩
  · have hfree : best.status ≠ WorkerStatus.busy := fun h => hvfree (hbusy h v hv)
    have hle := hmin b hb
    rw [workerLoadScore_free hfree, workerLoadScore_busy hbbusy] at hle
    rcases lt_or_eq_of_le ((le_max_right _ _).trans hle) with hlt | heq
    · exact ⟨best, hmem, hfree, Or.inl hlt⟩
    · have hscore : workerLoadScore b ≤ workerLoadScore best := by
        rw [workerLoadScore_busy hbbusy, workerLoadScore_free hfree, heq]
        exact le_max_right _ _
      have hne : cands.idxOf best ≠ cands.idxOf b :=
        fun h => hfree ((List.idxOf_inj hmem).1 h ▸ hbbusy)
      exact ⟨best, hmem, hfree, Or.inr ⟨heq, lt_of_le_of_ne (hfirst b hb hscore) hne⟩⟩
  · -- the pick is a candidate that scores 0, and the first one
    have hle := hmin w hw
    rw [workerLoadScore_free hwfree, max_eq_left hwle] at hle
    have hfree : best.status ≠ WorkerStatus.busy := by
      intro h
      rw [workerLoadScore_busy h] at hle
      exact absurd hle (not_le.2 hpos)
    have hscore : workerLoadScore w ≤ workerLoadScore best := by
      rw [workerLoadScore_free hwfree, workerLoadScore_free hfree, max_eq_left hwle]
      exact le_max_left _ _
    rw [workerLoadScore_free hfree] at hle
    have hidx : cands.idxOf w = cands.idxOf best :=
      le_antisymm (hwfirst best hmem hfree ((le_max_right _ _).trans hle)) (hfirst w hw hscore)
    rw [(List.idxOf_inj hw).1 hidx]
    exact hleast hfree

end Choice

/-- **Scheduling prefers alive, seen, idle, least loaded workers exactly where they can be ranked.**
    For every list of workers and every set of seen ids: the worker that the two passes pick is well
    chosen, and none is picked iff all are offline, exactly when the candidates are `Rankable`. -/
theorem pickBest_wellChosen_iff (hpos : (0 : υ) < 1000) (workers : List (WorkerInfo υ))
    (seen : List String) :
    ((∀ best, pickBest workers seen = some best → WellChosen workers seen best) ∧
      (pickBest workers seen = none ↔ ∀ w ∈ workers, w.status = WorkerStatus.offline)) ↔
    Rankable (candidates workers seen) := by
  rw [pickBest_eq, List.argmin_eq_none, candidates_eq_nil]
  constructor
  · rintro ⟨hchosen, -⟩
    cases hbest : (candidates workers seen).argmin workerLoadScore with
    | none =>
        rw [List.argmin_eq_none.1 hbest]
        exact ⟨by simp, by simp⟩
    | some best =>
        have h := hchosen best hbest
        exact rankable_of_wellChosen hpos hbest h.busy h.least
  · intro hrank
    refine ⟨fun best hbest => ?_, Iff.rfl⟩
    have hmem : best ∈ candidates workers seen := List.argmin_mem hbest
    obtain ⟨hlisted, halive⟩ := mem_of_candidates hmem
    exact
      { listed := hlisted
        alive := halive
        known := seen_of_candidates hmem
        busy := hrank.all_busy hpos hbest
        least := hrank.least_loaded hbest }

end Scores

/-- A busy worker, and an idle one with the given utilization. -/
def busyAndLoaded (utilization : ℕ) : List (WorkerInfo ℕ) :=
  [⟨"a", "10.0.0.1", 9001, [], .busy⟩,
    ⟨"b", "10.0.0.2", 9001, [⟨0, "", 0, utilization⟩], .idle⟩]

theorem pickBest_wellChosen_idle : ∃ best, pickBest (busyAndLoaded 90) ["a", "b"] = some best ∧
    best.id = "b" ∧ WellChosen (busyAndLoaded 90) ["a", "b"] best := by
  have hchosen := ((pickBest_wellChosen_iff (by decide) (busyAndLoaded 90) ["a", "b"]).2
    (rankable_of_range (by decide))).1
  exact ⟨_, rfl, rfl, hchosen _ rfl⟩

/-- **An overloaded worker ranks behind a busy one.** -/
theorem pickBest_busy :
    ∃ best, pickBest (busyAndLoaded 1500) ["a", "b"] = some best ∧
      best.status = WorkerStatus.busy ∧
      ∃ w ∈ candidates (busyAndLoaded 1500) ["a", "b"], w.status = WorkerStatus.idle :=
  ⟨_, rfl, by decide, by decide⟩

end Controlplane

end AiFS
