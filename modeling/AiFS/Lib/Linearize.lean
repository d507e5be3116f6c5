import AiFS.Lib.Machine

set_option autoImplicit false

/-! # Linearizability

Operations of an arbitrary type, an object given by a partial step function (`step s a` is `none`
when `a`, with the result it had, is not legal in `s`), and a relation `r` that says which operation
was over before which other one began. A linearization is an order of all operations that the object
accepts and that never puts an operation before one that was over before it.

Two things are general. An operation may come first exactly if nothing that is left was over before
it (`linearizable_iff`), which is what a search for a linearization goes by. And an object that
consists of independent parts is linearizable if its parts are (`linearizable_parts`): this needs
that `r` comes from a clock. -/

namespace Linearize

variable {α σ τ κ : Type}

/-- An order of `ops` that `step` accepts from `s` and that respects `r`. -/
structure Linearization (step : σ → α → Option σ) (r : α → α → Prop) (s : σ)
    (ops order : List α) : Prop where
  perm : order.Perm ops
  respects : order.Pairwise fun a b => ¬ r b a
  legal : (Machine.exec step s order).isSome = true

def Linearizable (step : σ → α → Option σ) (r : α → α → Prop) (s : σ) (ops : List α) : Prop :=
  ∃ order, Linearization step r s ops order

section Search

variable {step : σ → α → Option σ} {r : α → α → Prop} {s s' : σ} {ops : List α}

theorem linearizable_nil : Linearizable step r s [] :=
  ⟨[], List.Perm.refl _, List.Pairwise.nil, rfl⟩

theorem Linearizable.of_perm {ops' : List α} (h : Linearizable step r s ops)
    (hperm : ops.Perm ops') : Linearizable step r s ops' := by
  obtain ⟨order, horder⟩ := h
  exact ⟨order, horder.perm.trans hperm, horder.respects, horder.legal⟩

/-- Only what `r` says of the operations of the history matters. -/
theorem linearizable_congr {r' : α → α → Prop} (h : ∀ a ∈ ops, ∀ b ∈ ops, (r a b ↔ r' a b)) :
    Linearizable step r s ops ↔ Linearizable step r' s ops := by
  refine exists_congr fun order => ⟨fun ho => ?_, fun ho => ?_⟩
  · refine ⟨ho.perm, ho.respects.imp_of_mem fun ha hb hnot hba => hnot ?_, ho.legal⟩
    exact (h _ (ho.perm.subset hb) _ (ho.perm.subset ha)).2 hba
  · refine ⟨ho.perm, ho.respects.imp_of_mem fun ha hb hnot hba => hnot ?_, ho.legal⟩
    exact (h _ (ho.perm.subset hb) _ (ho.perm.subset ha)).1 hba

/-- An operation comes first, and the rest is linearizable from the state it leads to. -/
theorem Linearizable.cons {a : α} {rest : List α} (hperm : (a :: rest).Perm ops)
    (hfirst : ∀ b ∈ rest, ¬ r b a) (hstep : step s a = some s')
    (hrest : Linearizable step r s' rest) : Linearizable step r s ops := by
  obtain ⟨order, horder⟩ := hrest
  refine ⟨a :: order, (horder.perm.cons a).trans hperm, ?_, ?_⟩
  · refine List.pairwise_cons.2 ⟨fun b hb => ?_, horder.respects⟩
    exact hfirst b (horder.perm.mem_iff.1 hb)
  · rw [Machine.exec_cons_of_some _ hstep]
    exact horder.legal

/-- **First operations.** What is left can be linearized if one of the operations that nothing else
    precedes can be taken first. -/
theorem linearizable_iff : Linearizable step r s ops ↔ ops = [] ∨
    ∃ a rest s', (a :: rest).Perm ops ∧ (∀ b ∈ rest, ¬ r b a) ∧ step s a = some s' ∧
      Linearizable step r s' rest := by
  constructor
  · rintro ⟨order, hperm, hrespects, hlegal⟩
    cases order with
    | nil => exact Or.inl hperm.symm.eq_nil
    | cons a rest =>
        obtain ⟨hfirst, hrest⟩ := List.pairwise_cons.1 hrespects
        cases hstep : step s a with
        | none => simp [Machine.exec, hstep] at hlegal
        | some s' =>
            rw [Machine.exec_cons_of_some _ hstep] at hlegal
            exact Or.inr ⟨a, rest, s', hperm, hfirst, hstep, rest, List.Perm.refl _, hrest, hlegal⟩
  · rintro (rfl | ⟨a, rest, s', hperm, hfirst, hstep, hrest⟩)
    · exact linearizable_nil
    · exact Linearizable.cons hperm hfirst hstep hrest

/-- States that no operation tells apart admit the same runs. -/
theorem exec_isSome_of_similar {R : σ → σ → Prop}
    (hR : ∀ s t a s', R s t → step s a = some s' → ∃ t', step t a = some t' ∧ R s' t')
    {as : List α} {t : σ} (hst : R s t) (h : (Machine.exec step s as).isSome = true) :
    (Machine.exec step t as).isSome = true := by
  induction as generalizing s t with
  | nil => rfl
  | cons a as ih =>
      cases hstep : step s a with
      | none => simp [Machine.exec, hstep] at h
      | some s' =>
          obtain ⟨t', ht', hst'⟩ := hR s t a s' hst hstep
          rw [Machine.exec_cons_of_some _ hstep] at h
          rw [Machine.exec_cons_of_some _ ht']
          exact ih hst' h

theorem Linearizable.of_similar {R : σ → σ → Prop}
    (hR : ∀ s t a s', R s t → step s a = some s' → ∃ t', step t a = some t' ∧ R s' t')
    {t : σ} (hst : R s t) (h : Linearizable step r s ops) : Linearizable step r t ops := by
  obtain ⟨order, hperm, hrespects, hlegal⟩ := h
  exact ⟨order, hperm, hrespects, exec_isSome_of_similar hR hst hlegal⟩

/-! ## Beginnings -/

/-- A beginning of a linearization, and the state after it: whatever was over before an operation of
    it is in it. -/
structure Begun (step : σ → α → Option σ) (r : α → α → Prop) (s : σ) (ops order : List α) (s' : σ) :
    Prop where
  nodup : order.Nodup
  subset : order ⊆ ops
  respects : order.Pairwise fun a b => ¬ r b a
  closed : ∀ a ∈ order, ∀ b ∈ ops, r b a → b ∈ order
  legal : Machine.exec step s order = some s'

theorem Begun.congr {r' : α → α → Prop} (hr : ∀ a ∈ ops, ∀ b ∈ ops, (r a b ↔ r' a b))
    {order : List α} {s' : σ} (h : Begun step r s ops order s') : Begun step r' s ops order s' where
  nodup := h.nodup
  subset := h.subset
  respects := h.respects.imp_of_mem fun ha hb hnot hba =>
    hnot ((hr _ (h.subset hb) _ (h.subset ha)).2 hba)
  closed a ha b hb hba := h.closed a ha b hb ((hr b hb a (h.subset ha)).2 hba)
  legal := h.legal

theorem begun_nil : Begun step r s ops [] s where
  nodup := List.nodup_nil
  subset := List.nil_subset _
  respects := List.Pairwise.nil
  closed a ha := absurd ha (by simp)
  legal := rfl

/-- A beginning goes on with an operation that nothing which is left precedes. -/
theorem begun_concat_iff (hirrefl : ∀ a ∈ ops, ¬ r a a) {order : List α} {a : α} {s' : σ} :
    Begun step r s ops (order ++ [a]) s' ↔ ∃ t, Begun step r s ops order t ∧ a ∈ ops ∧ a ∉ order ∧
      (∀ b ∈ ops, b ∉ order → ¬ r b a) ∧ step t a = some s' := by
  constructor
  · rintro ⟨hnodup, hsubset, hrespects, hclosed, hlegal⟩
    obtain ⟨t, ht, hstep⟩ := Machine.exec_concat hlegal
    obtain ⟨hrespects, _, hlast⟩ := List.pairwise_append.1 hrespects
    have ha : a ∉ order := fun hmem => by
      have := (List.nodup_append.1 hnodup).2.2 a hmem a (by simp)
      exact this rfl
    refine ⟨t, ⟨(List.nodup_append.1 hnodup).1, fun x hx => hsubset (by simp [hx]), hrespects, ?_,
      ht⟩, hsubset (by simp), ha, ?_, hstep⟩
    · intro x hx b hb hbx
      have hmem := hclosed x (by simp [hx]) b hb hbx
      rcases List.mem_append.1 hmem with hmem | hmem
      · exact hmem
      · obtain rfl := List.mem_singleton.1 hmem
        exact absurd hbx (hlast x hx b (by simp))
    · intro b hb hnot hba
      have hmem := hclosed a (by simp) b hb hba
      rcases List.mem_append.1 hmem with hmem | hmem
      · exact hnot hmem
      · obtain rfl := List.mem_singleton.1 hmem
        exact hirrefl b hb hba
  · rintro ⟨t, ⟨hnodup, hsubset, hrespects, hclosed, hlegal⟩, ha, hnot, hfirst, hstep⟩
    refine ⟨?_, ?_, ?_, ?_, ?_⟩
    · rw [List.nodup_append]
      refine ⟨hnodup, List.nodup_singleton a, fun x hx b hb => ?_⟩
      rintro rfl
      exact hnot (List.mem_singleton.1 hb ▸ hx)
    · intro x hx
      rcases List.mem_append.1 hx with hx | hx
      · exact hsubset hx
      · exact List.mem_singleton.1 hx ▸ ha
    · refine List.pairwise_append.2 ⟨hrespects, List.pairwise_singleton _ _, fun x hx b hb => ?_⟩
      obtain rfl := List.mem_singleton.1 hb
      exact fun hbx => hnot (hclosed x hx b ha hbx)
    · intro x hx b hb hbx
      rcases List.mem_append.1 hx with hx | hx
      · exact List.mem_append_left _ (hclosed x hx b hb hbx)
      · obtain rfl := List.mem_singleton.1 hx
        by_cases hmem : b ∈ order
        · exact List.mem_append_left _ hmem
        · exact absurd hbx (hfirst b hb hmem)
    · rw [Machine.exec_append, hlegal]
      simp [Machine.exec, hstep]

end Search

/-! ## Names of operations -/

section Names

variable {β : Type} {step : σ → β → Option σ} {r : β → β → Prop} {s : σ} {f : α → β}

theorem exec_map (as : List α) :
    Machine.exec step s (as.map f) = Machine.exec (fun s a => step s (f a)) s as := by
  induction as generalizing s with
  | nil => rfl
  | cons a as ih =>
      simp only [List.map_cons, Machine.exec]
      cases step s (f a) with
      | none => rfl
      | some s' => exact ih

/-- A rearrangement of named operations is one of the names. -/
theorem exists_perm_of_map {l : List β} {ops : List α} (h : l.Perm (ops.map f)) :
    ∃ order : List α, order.Perm ops ∧ order.map f = l := by
  have hnames : List.Forall₂ (fun b a => b = f a) (ops.map f) ops := by
    rw [List.forall₂_map_left_iff, List.forall₂_same]
    exact fun _ _ => rfl
  obtain ⟨order, hl, hperm⟩ := List.perm_comp_forall₂ h hnames
  have heq : List.Forall₂ (fun b b' => b = b') l (order.map f) := List.forall₂_map_right_iff.2 hl
  rw [List.forall₂_eq_eq_eq] at heq
  exact ⟨order, hperm, heq.symm⟩

/-- It makes no difference whether a history lists its operations or names for them. -/
theorem linearizable_map (ops : List α) : Linearizable step r s (ops.map f) ↔
    Linearizable (fun s a => step s (f a)) (fun a b => r (f a) (f b)) s ops := by
  constructor
  · rintro ⟨order, hperm, hrespects, hlegal⟩
    obtain ⟨names, hnames, rfl⟩ := exists_perm_of_map hperm
    exact ⟨names, hnames, List.pairwise_map.1 hrespects, by rw [← exec_map]; exact hlegal⟩
  · rintro ⟨order, hperm, hrespects, hlegal⟩
    exact ⟨order.map f, hperm.map f, List.pairwise_map.2 hrespects,
      by rw [exec_map]; exact hlegal⟩

end Names

/-! ## Parts -/

section Parts

variable [DecidableEq κ] (part : α → κ) (step : σ → α → Option σ)

/-- The object with one state for each part, of which an operation sees its own. -/
def together (st : κ → σ) (a : α) : Option (κ → σ) :=
  (step (st (part a)) a).map fun s' => Function.update st (part a) s'

def ofPart (k : κ) (as : List α) : List α :=
  as.filter fun a => part a = k

variable {part step}

/-- A run of the whole is one run for each part. -/
theorem exec_together {st : κ → σ} (as : List α) :
    (Machine.exec (together part step) st as).isSome = true ↔
      ∀ k, (Machine.exec step (st k) (ofPart part k as)).isSome = true := by
  induction as generalizing st with
  | nil => simp [ofPart, Machine.exec]
  | cons a as ih =>
      -- the part of `a` makes a step, the others none
      have hself : ofPart part (part a) (a :: as) = a :: ofPart part (part a) as := by
        simp [ofPart]
      have hother : ∀ k, k ≠ part a → ofPart part k (a :: as) = ofPart part k as := by
        intro k hk
        simp [ofPart, Ne.symm hk]
      cases hstep : step (st (part a)) a with
      | none =>
          have hnone : Machine.exec (together part step) st (a :: as) = none := by
            simp [Machine.exec, together, hstep]
          rw [hnone]
          refine ⟨fun h => absurd h (by simp), fun h => ?_⟩
          have hpart := h (part a)
          rw [hself] at hpart
          simp [Machine.exec, hstep] at hpart
      | some s' =>
          have hsome : together part step st a = some (Function.update st (part a) s') := by
            simp [together, hstep]
          rw [Machine.exec_cons_of_some _ hsome, ih]
          constructor
          · intro h k
            by_cases hk : k = part a
            · subst hk
              have hpart := h (part a)
              rw [Function.update_self] at hpart
              rw [hself, Machine.exec_cons_of_some _ hstep]
              exact hpart
            · have hpart := h k
              rw [Function.update_of_ne hk] at hpart
              rw [hother k hk]
              exact hpart
          · intro h k
            by_cases hk : k = part a
            · subst hk
              have hpart := h (part a)
              rw [hself, Machine.exec_cons_of_some _ hstep] at hpart
              rw [Function.update_self]
              exact hpart
            · have hpart := h k
              rw [hother k hk] at hpart
              rw [Function.update_of_ne hk]
              exact hpart

/-- Every part of a linearizable history is linearizable. -/
theorem Linearizable.ofPart {r : α → α → Prop} {st : κ → σ} {ops : List α}
    (h : Linearizable (together part step) r st ops) (k : κ) :
    Linearizable step r (st k) (ofPart part k ops) := by
  obtain ⟨order, hperm, hrespects, hlegal⟩ := h
  exact ⟨Linearize.ofPart part k order, hperm.filter _, hrespects.filter _,
    exec_together order |>.1 hlegal k⟩

end Parts

/-! ## Linearization points

With a clock, an order of one part can be given points in time: an operation takes effect when the
last of the operations up to it has begun. The parts are then merged by these points. -/

section Points

variable [LinearOrder τ] (begins : α → τ)

/-- Operations with their points, those before having taken effect by `now`. -/
def points (now : τ) : List α → List (α × τ)
  | [] => []
  | a :: as => (a, max now (begins a)) :: points (max now (begins a)) as

variable {begins}

theorem map_fst_points (now : τ) (as : List α) : (points begins now as).map Prod.fst = as := by
  induction as generalizing now with
  | nil => rfl
  | cons a as ih => rw [points, List.map_cons, ih]

theorem le_of_mem_points {now : τ} {as : List α} {x : α × τ} (hx : x ∈ points begins now as) :
    now ≤ x.2 ∧ begins x.1 ≤ x.2 := by
  induction as generalizing now with
  | nil => cases hx
  | cons a as ih =>
      rcases List.mem_cons.1 hx with rfl | hx
      · exact ⟨le_max_left _ _, le_max_right _ _⟩
      · obtain ⟨hnow, hbegins⟩ := ih hx
        exact ⟨(le_max_left _ _).trans hnow, hbegins⟩

theorem pairwise_points (now : τ) (as : List α) :
    (points begins now as).Pairwise fun x y => x.2 ≤ y.2 := by
  induction as generalizing now with
  | nil => exact List.Pairwise.nil
  | cons a as ih => exact List.pairwise_cons.2 ⟨fun x hx => (le_of_mem_points hx).1, ih _⟩

/-- No operation takes effect after it has ended. -/
theorem points_le (ends : α → τ) {now : τ} {as : List α} (hspan : ∀ a ∈ as, begins a ≤ ends a)
    (hnow : ∀ a ∈ as, now ≤ ends a) (hrespects : as.Pairwise fun a b => ¬ ends b < begins a)
    {x : α × τ} (hx : x ∈ points begins now as) : x.2 ≤ ends x.1 := by
  induction as generalizing now with
  | nil => cases hx
  | cons a as ih =>
      obtain ⟨hfirst, hrest⟩ := List.pairwise_cons.1 hrespects
      rcases List.mem_cons.1 hx with rfl | hx
      · exact max_le (hnow a List.mem_cons_self) (hspan a List.mem_cons_self)
      · refine ih (fun b hb => hspan b (List.mem_cons_of_mem _ hb)) (fun b hb => ?_) hrest hx
        exact max_le (hnow b (List.mem_cons_of_mem _ hb)) (not_lt.1 (hfirst b hb))

end Points

/-! ## Merging the parts -/

section Merge

variable [DecidableEq κ] [LinearOrder τ] {part : α → κ} {step : σ → α → Option σ}
  {begins ends : α → τ} {st : κ → σ} {ops : List α}

theorem perm_flatMap_ofPart {ks : List κ} (hks : ks.Nodup) (h : ∀ a ∈ ops, part a ∈ ks) :
    (ks.flatMap fun k => ofPart part k ops).Perm ops := by
  induction ks generalizing ops with
  | nil =>
      have hnil : ops = [] := List.eq_nil_iff_forall_not_mem.2 fun a ha => by simpa using h a ha
      rw [hnil]
      exact List.Perm.refl _
  | cons k ks ih =>
      obtain ⟨hk, hks⟩ := List.nodup_cons.1 hks
      -- what is not in part `k` is in the other parts
      have hothers : (ks.flatMap fun j => ofPart part j ops) =
          ks.flatMap fun j => ofPart part j (ops.filter fun a => !decide (part a = k)) := by
        refine List.flatMap_congr fun j hj => ?_
        have hne : j ≠ k := fun heq => hk (heq ▸ hj)
        rw [ofPart, ofPart, List.filter_filter]
        refine List.filter_congr fun a _ => ?_
        by_cases ha : part a = j
        · simp [ha, hne]
        · simp [ha]
      rw [List.flatMap_cons, hothers]
      refine (List.Perm.append_left _ (ih hks fun a ha => ?_)).trans (List.filter_append_perm _ ops)
      obtain ⟨hmem, hne⟩ := List.mem_filter.1 ha
      exact (List.mem_cons.1 (h a hmem)).resolve_left (by simpa using hne)

theorem ofPart_of_forall {k : κ} {as : List α} (h : ∀ a ∈ as, part a = k) :
    ofPart part k as = as :=
  List.filter_eq_self.2 fun a ha => by simpa using h a ha

/-- **Locality.** A history of an object that consists of independent parts is linearizable if the
    history of each part is. -/
theorem linearizable_parts (hspan : ∀ a ∈ ops, begins a ≤ ends a) :
    Linearizable (together part step) (fun a b => ends a < begins b) st ops ↔
      ∀ k, Linearizable step (fun a b => ends a < begins b) (st k) (ofPart part k ops) := by
  refine ⟨Linearizable.ofPart, fun h => ?_⟩
  have hparts : ∀ k, ∃ order, Linearization step (fun a b => ends a < begins b) (st k)
      (ofPart part k ops) order := h
  choose order horder using hparts
  have hperm := fun k => (horder k).perm
  -- the points of the operations of one part, from the beginning of time on
  let ks := (ops.map part).dedup
  let b : α → WithBot τ := fun a => begins a
  let decorated : List (α × WithBot τ) := ks.flatMap fun k => points b ⊥ (order k)
  let earlier : α × WithBot τ → α × WithBot τ → Bool := fun x y => decide (x.2 ≤ y.2)
  have htrans : ∀ x y z, earlier x y = true → earlier y z = true → earlier x z = true := by
    intro x y z hxy hyz
    exact decide_eq_true ((of_decide_eq_true hxy).trans (of_decide_eq_true hyz))
  have htotal : ∀ x y, (earlier x y || earlier y x) = true := by
    intro x y
    simpa [earlier] using le_total x.2 y.2
  let merged := decorated.mergeSort earlier
  have hmem : ∀ {k a}, a ∈ order k → a ∈ ops ∧ part a = k := by
    intro k a ha
    simpa [ofPart] using (hperm k).mem_iff.1 ha
  have hspans : ∀ x ∈ merged, b x.1 ≤ x.2 ∧ x.2 ≤ (ends x.1 : WithBot τ) := by
    intro x hx
    obtain ⟨k, _, hxk⟩ := List.mem_flatMap.1 ((List.mergeSort_perm _ _).mem_iff.1 hx)
    refine ⟨(le_of_mem_points hxk).2, ?_⟩
    refine points_le (fun a => (ends a : WithBot τ)) (fun a ha => ?_) (fun a _ => bot_le)
      ((horder k).respects.imp fun h hlt => ?_) hxk
    · exact WithBot.coe_le_coe.2 (hspan a (hmem ha).1)
    · exact h (WithBot.coe_lt_coe.1 hlt)
  have hsorted : merged.Pairwise fun x y => x.2 ≤ y.2 :=
    (List.pairwise_mergeSort htrans htotal decorated).imp of_decide_eq_true
  have hmerged : (merged.map Prod.fst).Perm ops := by
    refine ((List.mergeSort_perm _ _).map _).trans ?_
    rw [List.map_flatMap]
    simp only [map_fst_points]
    refine (List.Perm.flatMap_left _ fun k _ => hperm k).trans ?_
    exact perm_flatMap_ofPart (List.nodup_dedup _) fun a ha =>
      List.mem_dedup.2 (List.mem_map_of_mem ha)
  refine ⟨merged.map Prod.fst, hmerged, ?_, (exec_together _).2 fun k => ?_⟩
  · refine List.pairwise_map.2 (hsorted.imp_of_mem fun {x y} hx hy hxy hlt => ?_)
    have hle := ((hspans x hx).1.trans hxy).trans (hspans y hy).2
    exact absurd (WithBot.coe_le_coe.1 hle) (not_le.2 hlt)
  · -- the order of part `k` is still there, because the sort is stable
    suffices hsame : ofPart part k (merged.map Prod.fst) = order k by
      rw [hsame]
      exact (horder k).legal
    have hlen : (ofPart part k (merged.map Prod.fst)).Perm (order k) :=
      (hmerged.filter _).trans (hperm k).symm
    by_cases hk : k ∈ ks
    · have hsub : (points b ⊥ (order k)).Sublist merged :=
        List.sublist_mergeSort htrans htotal ((pairwise_points _ _).imp decide_eq_true)
          (List.sublist_flatten_of_mem (List.mem_map_of_mem hk))
      have hsub := (hsub.map Prod.fst).filter fun a => decide (part a = k)
      rw [map_fst_points] at hsub
      have hself : ofPart part k (order k) = order k := ofPart_of_forall fun a ha => (hmem ha).2
      rw [← hself]
      refine (List.Sublist.eq_of_length hsub ?_).symm
      change (ofPart part k (order k)).length = (ofPart part k (merged.map Prod.fst)).length
      rw [hself, hlen.length_eq]
    · have hnil : order k = [] := List.eq_nil_iff_forall_not_mem.2 fun a ha =>
        hk (List.mem_dedup.2 (List.mem_map.2 ⟨a, hmem ha⟩))
      rw [hnil] at hlen ⊢
      exact hlen.eq_nil

end Merge

end Linearize
