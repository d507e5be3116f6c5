import AiFS.Porcupine.Search

set_option autoImplicit false

/-! # What checkSingle decides

The loop of `checkSingle` walks `Layout.problem`: each round of the loop is one step of that search
(`Sim.round`). The list holds what is left, `unlift` restores it pointer by pointer when the loop
backtracks, the bit set holds what is linearized, and the cache answers as the memo does, whatever
the hashes are. So the loop ends with the right answer, and the sequences in `longest` are what they
are called. -/

namespace AiFS

namespace Porcupine

variable {S ι ο : Type}

/-! ## Lifting -/

theorem lift_eq {l : Links ℕ} {e r : ℕ} (hnext : l.next e ≠ none) :
    lift l e r = (l.unlink e).bind (·.unlink r) := by
  obtain ⟨q, hq⟩ := Option.ne_none_iff_exists'.1 hnext
  cases hprev : l.prev e with
  | none => simp [lift, Links.unlink, hprev]
  | some p =>
      have hkept : (l.setNext p (l.next e)).next e = some q := by
        by_cases hep : e = p
        · simp [Links.setNext, hep.symm, hq]
        · simp [Links.setNext, Function.update_of_ne hep, hq]
      simp [lift, Links.unlink, hprev, hkept]

theorem unlift_eq {l l' : Links ℕ} {e r : ℕ} (hl' : l.relink r = some l')
    (hnext : l'.next e ≠ none) : unlift l e r = l'.relink e := by
  obtain ⟨q, hq⟩ := Option.ne_none_iff_exists'.1 hnext
  simp only [unlift, hl']
  cases hprev : l'.prev e with
  | none => simp [Links.relink, hprev]
  | some p =>
      obtain ⟨q', hkept⟩ : ∃ q', (l'.setNext p (some e)).next e = some q' := by
        by_cases hep : e = p
        · exact ⟨e, by simp [Links.setNext, hep.symm]⟩
        · exact ⟨q, by simp [Links.setNext, Function.update_of_ne hep, hq]⟩
      simp [Links.relink, hprev, hkept]

/-- **Lifting** takes a call and its return out of the list; unlifting restores every pointer. -/
theorem lift_linked {l : Links ℕ} {e r : ℕ} {xs ys zs : List ℕ}
    (h : l.Linked (xs ++ e :: (ys ++ r :: zs))) (hnodup : (xs ++ e :: (ys ++ r :: zs)).Nodup)
    (hxs : xs ≠ []) :
    ∃ l', lift l e r = some l' ∧ l'.Linked (xs ++ (ys ++ zs)) ∧ unlift l' e r = some l := by
  have hnext : l.next e ≠ none := by
    rw [h.next_eq]
    cases ys <;> simp
  obtain ⟨l₁, hl₁, hlinked₁, hback₁, hnext₁⟩ := h.take_out hnodup hxs
  have hnodup₁ : (xs ++ (ys ++ r :: zs)).Nodup :=
    hnodup.sublist ((List.sublist_cons_self _ _).append_left _)
  rw [← List.append_assoc] at hlinked₁ hnodup₁
  obtain ⟨l₂, hl₂, hlinked₂, hback₂, _⟩ := hlinked₁.take_out hnodup₁ (by simp [hxs])
  refine ⟨l₂, ?_, ?_, ?_⟩
  · rw [lift_eq hnext, hl₁, Option.bind_some, hl₂]
  · rwa [List.append_assoc] at hlinked₂
  · rw [unlift_eq hback₂ (by rw [hnext₁]; exact hnext), hback₁]

namespace Layout

variable {es : List (Entry ι ο)} {n : ℕ} (L : Layout es n) (model : FilledModel S ι ο)

/-- The nodes of an operation in what is left, and what is left without them. -/
theorem rest_split {done pre suf : List ℕ} {id : ℕ} (hid : id < n)
    (h : (makeLinkedEntries es).rest done = pre ++ L.call id :: suf) :
    ∃ mid post, suf = mid ++ L.ret id :: post ∧
      (makeLinkedEntries es).rest (id :: done) = pre ++ (mid ++ post) := by
  have hsorted := Heap.rest_sorted (makeLinkedEntries es) done
  have hdone : id ∉ done := (L.call_mem_rest hid).1 (by simp [h])
  have hret : L.ret id ∈ (makeLinkedEntries es).rest done := (L.ret_mem_rest hid).2 hdone
  rw [h] at hsorted hret
  obtain ⟨_, hcons, hbefore⟩ := List.pairwise_append.1 hsorted
  -- the return is later than the call
  have hsuf : L.ret id ∈ suf := by
    have hlt := L.call_lt_ret id hid
    rcases List.mem_append.1 hret with hmem | hmem
    · exact absurd (hbefore _ hmem _ List.mem_cons_self) (by omega)
    · rcases List.mem_cons.1 hmem with heq | hmem
      · omega
      · exact hmem
  obtain ⟨mid, post, rfl⟩ := List.append_of_mem hsuf
  refine ⟨mid, post, rfl, ?_⟩
  have hnodup : (pre ++ L.call id :: (mid ++ L.ret id :: post)).Nodup :=
    hsorted.imp fun hlt => hlt.ne
  rw [Heap.rest_cons, h]
  -- no other node has this id
  have hother : ∀ a ∈ pre ++ L.call id :: (mid ++ L.ret id :: post), a ≠ L.call id →
      a ≠ L.ret id → (makeLinkedEntries es).idOf a ≠ id := by
    intro a ha hcall hne
    rw [← h] at ha
    obtain ⟨id', hid', rfl | rfl⟩ := L.of_mem_rest ha
    · rw [L.idOf_call (mem_remaining.1 hid').1]
      rintro rfl
      exact hcall rfl
    · rw [L.idOf_ret (mem_remaining.1 hid').1]
      rintro rfl
      exact hne rfl
  have hkeep : ∀ xs : List ℕ, (∀ a ∈ xs, (makeLinkedEntries es).idOf a ≠ id) →
      xs.filter (fun a => decide ((makeLinkedEntries es).idOf a ≠ id)) = xs := by
    intro xs hxs
    exact List.filter_eq_self.2 fun a ha => by simpa using hxs a ha
  have hdistinct := hnodup
  simp only [List.nodup_append, List.nodup_cons, List.mem_append, List.mem_cons, not_or]
    at hdistinct
  obtain ⟨_, ⟨⟨hcm, hcr, hcp⟩, _, ⟨hrp, _⟩, hmr⟩, hpre⟩ := hdistinct
  have hpre' := hkeep pre fun a ha => hother a (by simp [ha]) (hpre a ha _ (Or.inl rfl))
    (hpre a ha _ (Or.inr (Or.inr (Or.inl rfl))))
  have hmid' := hkeep mid fun a ha => hother a (by simp [ha]) (fun heq => hcm (heq ▸ ha))
    (hmr a ha _ (Or.inl rfl))
  have hpost' := hkeep post fun a ha => hother a (by simp [ha]) (fun heq => hcp (heq ▸ ha))
    (fun heq => hrp (heq ▸ ha))
  simp only [List.filter_append, List.filter_cons, L.idOf_call hid, L.idOf_ret hid, ne_eq,
    not_true_eq_false, decide_false, Bool.false_eq_true, if_false]
  simp only [ne_eq] at hpre' hmid' hpost'
  rw [hpre', hmid', hpost']

/-! ## The longest sequences -/

/-- A sequence of at least `k` operations is noted for `id`. -/
def AtLeast (longest : List (Option (List ℕ))) (id k : ℕ) : Prop :=
  ∃ seq, longest[id]? = some (some seq) ∧ k ≤ seq.length

/-- What noting `seq` does: only sequences it replaces are lost, and these are shorter. -/
structure Noted (seq : List ℕ) (longest longest' : List (Option (List ℕ))) : Prop where
  length : longest'.length = longest.length
  old_or_new : ∀ id q, longest'[id]? = some (some q) →
    longest[id]? = some (some q) ∨ (id ∈ seq ∧ q = seq)
  mono : ∀ id k, AtLeast longest id k → AtLeast longest' id k

theorem noteOne_spec {seq : List ℕ} {longest : List (Option (List ℕ))} {id : ℕ} (hid : id ∈ seq)
    (hlt : id < longest.length) :
    ∃ longest', noteOne seq longest id = some longest' ∧ Noted seq longest longest' ∧
      AtLeast longest' id seq.length := by
  have hold : longest[id]? = some longest[id] := List.getElem?_eq_getElem hlt
  unfold noteOne
  rw [hold]
  dsimp only
  split
  · next hshorter =>
      have hget : (longest.set id (some seq))[id]? = some (some seq) := by
        rw [List.getElem?_set_self hlt]
      refine ⟨_, rfl, ⟨by simp, fun j q hq => ?_, fun j k hk => ?_⟩, seq, hget, le_rfl⟩
      · by_cases hj : id = j
        · subst hj
          rw [hget] at hq
          exact Or.inr ⟨hid, (Option.some.inj (Option.some.inj hq)).symm⟩
        · rw [List.getElem?_set_ne hj] at hq
          exact Or.inl hq
      · obtain ⟨q, hq, hle⟩ := hk
        by_cases hj : id = j
        · subst hj
          rw [hold] at hq
          have hq := Option.some.inj hq
          rw [hq] at hshorter
          have hless : q.length < seq.length := by simpa using hshorter
          exact ⟨seq, hget, hle.trans hless.le⟩
        · exact ⟨q, (List.getElem?_set_ne hj).trans hq, hle⟩
  · next hlonger =>
      refine ⟨longest, rfl, ⟨rfl, fun _ _ h => Or.inl h, fun _ _ h => h⟩, ?_⟩
      cases hq : longest[id] with
      | none => simp [hq] at hlonger
      | some q =>
          rw [hq] at hold
          exact ⟨q, hold, by simpa [hq] using hlonger⟩

theorem noteLongest_spec {seq : List ℕ} {longest : List (Option (List ℕ))}
    (hlt : ∀ id ∈ seq, id < longest.length) :
    ∃ longest', noteLongest seq longest = some longest' ∧ Noted seq longest longest' ∧
      ∀ id ∈ seq, AtLeast longest' id seq.length := by
  have hgeneral : ∀ (ids : List ℕ), ids ⊆ seq → ∀ longest : List (Option (List ℕ)),
      (∀ id ∈ seq, id < longest.length) →
      ∃ longest', ids.foldlM (noteOne seq) longest = some longest' ∧ Noted seq longest longest' ∧
        ∀ id ∈ ids, AtLeast longest' id seq.length := by
    intro ids
    induction ids with
    | nil => exact fun _ longest _ => ⟨longest, rfl, ⟨rfl, fun _ _ h => Or.inl h, fun _ _ h => h⟩,
        by simp⟩
    | cons id ids ih =>
        intro hsub longest hlt
        have hid : id ∈ seq := hsub List.mem_cons_self
        obtain ⟨longest₁, h₁, hnoted₁, hat⟩ := noteOne_spec hid (hlt id hid)
        obtain ⟨longest₂, h₂, hnoted₂, hall⟩ := ih (fun x hx => hsub (List.mem_cons_of_mem _ hx))
          longest₁ (by rw [hnoted₁.length]; exact hlt)
        refine ⟨longest₂, ?_, ⟨hnoted₂.length.trans hnoted₁.length, fun j q hq => ?_,
          fun j k hk => hnoted₂.mono j k (hnoted₁.mono j k hk)⟩, fun j hj => ?_⟩
        · rw [List.foldlM_cons, h₁]
          exact h₂
        · rcases hnoted₂.old_or_new j q hq with hq | hq
          · exact hnoted₁.old_or_new j q hq
          · exact Or.inr hq
        · rcases List.mem_cons.1 hj with rfl | hj
          · exact hnoted₂.mono _ _ hat
          · exact hall j hj
  exact hgeneral seq (List.Subset.refl _) longest hlt

/-! ## Frames -/

/-- The calls on the stack of the loop and those on the stack of the search. Under each one is the
    list before it was lifted. -/
inductive Frames : List (ℕ × S) → List ((List ℕ × S) × List ℕ) → Links ℕ → List ℕ × S → Prop
  | nil : Frames [] [] (Search.start model (makeLinkedEntries es)).links ([], model.init)
  | cons {calls : List (ℕ × S)} {stack : List ((List ℕ × S) × List ℕ)} {l l' : Links ℕ}
      {c : List ℕ × S} {id : ℕ} {state : S} {pre suf : List ℕ} (h : Frames calls stack l c)
      (hid : id < n) (hrest : (makeLinkedEntries es).rest c.1 = pre ++ L.call id :: suf)
      (hpre : ∀ a ∈ pre, (makeLinkedEntries es).hasMatch a = true)
      (hlift : lift l (L.call id) (L.ret id) = some l')
      (hstep : L.step model c.2 id = some state) :
      Frames ((L.call id, c.2) :: calls)
        ((c, suf.takeWhile (makeLinkedEntries es).hasMatch) :: stack) l' (id :: c.1, state)

variable {L model} {calls : List (ℕ × S)} {stack : List ((List ℕ × S) × List ℕ)} {l : Links ℕ}
  {c : List ℕ × S}

theorem rest_nil : (makeLinkedEntries es).rest [] = List.range es.length := by
  have hnodes : (makeLinkedEntries es).nodes.length = es.length := length_nodes es 0
  rw [Heap.rest, hnodes]
  exact List.filter_eq_self.2 (by simp)

theorem head_not_mem_rest (done : List ℕ) :
    (makeLinkedEntries es).head ∉ (makeLinkedEntries es).rest done := by
  simp [Heap.mem_rest, Heap.head]

theorem head_rest_nodup (done : List ℕ) :
    ((makeLinkedEntries es).head :: (makeLinkedEntries es).rest done).Nodup :=
  List.nodup_cons.2 ⟨head_not_mem_rest done, (Heap.rest_sorted _ done).imp fun h => h.ne⟩

/-- Lifting the call of an operation that is left. -/
theorem lift_rest {done pre suf : List ℕ} {id : ℕ} (hid : id < n)
    (hlinked : l.Linked ((makeLinkedEntries es).head :: (makeLinkedEntries es).rest done))
    (hrest : (makeLinkedEntries es).rest done = pre ++ L.call id :: suf) :
    ∃ l', lift l (L.call id) (L.ret id) = some l' ∧
      l'.Linked ((makeLinkedEntries es).head :: (makeLinkedEntries es).rest (id :: done)) ∧
      unlift l' (L.call id) (L.ret id) = some l := by
  have hnodup : ((makeLinkedEntries es).head :: (makeLinkedEntries es).rest done).Nodup :=
    head_rest_nodup done
  obtain ⟨mid, post, rfl, hrest'⟩ := L.rest_split hid hrest
  rw [hrest, ← List.cons_append] at hlinked hnodup
  rw [hrest']
  exact lift_linked hlinked hnodup (by simp)

/-- The list holds what is left. -/
theorem Frames.linked (h : Frames L model calls stack l c) :
    l.Linked ((makeLinkedEntries es).head :: (makeLinkedEntries es).rest c.1) := by
  induction h with
  | nil =>
      rw [rest_nil]
      exact (start_linked model es).1
  | cons _ hid hrest _ hlift _ ih =>
      obtain ⟨l'', hl'', hlinked, _⟩ := lift_rest hid ih hrest
      obtain rfl := Option.some.inj (hlift.symm.trans hl'')
      exact hlinked

theorem Frames.ids (h : Frames L model calls stack l c) :
    calls.map (fun v => (makeLinkedEntries es).idOf v.1) = c.1 := by
  induction h with
  | nil => rfl
  | cons _ hid _ _ _ _ ih => rw [List.map_cons, ih, L.idOf_call hid]

theorem Frames.seq (h : Frames L model calls stack l c) :
    (makeLinkedEntries es).seq calls = c.1.reverse := by
  rw [Heap.seq, List.map_reverse, h.ids]

theorem Frames.reach (h : Frames L model calls stack l c) :
    (L.problem model).Reach ([], model.init) c := by
  induction h with
  | nil => exact .root
  | @cons calls stack l l' c id state pre suf _ hid hrest hpre _ hstep ih =>
      refine .move ih (m := L.call id) ?_ ((L.apply_call model hid).2 ⟨state, hstep, rfl⟩)
      show L.call id ∈ ((makeLinkedEntries es).rest c.1).takeWhile (makeLinkedEntries es).hasMatch
      have hmatch : (makeLinkedEntries es).hasMatch (L.call id) = true := by
        simp [Heap.hasMatch, L.mtchOf_call hid]
      rw [hrest, List.takeWhile_append_of_pos hpre, List.takeWhile_cons, if_pos hmatch]
      simp

theorem Frames.begun (h : Frames L model calls stack l c) : L.Begun model c.1.reverse c.2 :=
  L.reach_iff.1 h.reach

theorem Frames.lt (h : Frames L model calls stack l c) {id : ℕ} (hid : id ∈ c.1) : id < n :=
  List.mem_range.1 (h.begun.subset (List.mem_reverse.2 hid))

theorem Frames.nodup (h : Frames L model calls stack l c) : c.1.Nodup :=
  List.nodup_reverse.1 h.begun.nodup

/-! ## Rounds -/

variable (L model) in
/-- Where the loop is and where the search is. -/
structure Sim (computePartial : Bool) (s : Search S) (st : Backtrack.State (List ℕ × S) ℕ) :
    Prop where
  frames : Frames L model s.calls st.stack s.links st.cur
  state : s.state = st.cur.2
  holds : Bitset.Holds n s.linearized st.cur.1.toFinset
  cursor : ∃ pre suf, (makeLinkedEntries es).rest st.cur.1 = pre ++ suf ∧
    (∀ a ∈ pre, (makeLinkedEntries es).hasMatch a = true) ∧ s.entry = suf.head? ∧
    st.todo = suf.takeWhile (makeLinkedEntries es).hasMatch
  cache : ∀ b done state, Bitset.Holds n b done.toFinset →
    cacheContains model.equal s.cache ⟨b, state⟩ =
      st.memo.any ((L.problem model).same (done, state))
  length : s.longest.length = n
  sound : ∀ id seq, s.longest[id]? = some (some seq) → id ∈ seq ∧ ∃ t, L.Begun model seq t
  noted : computePartial = true → ∀ c ∈ st.memo, c = st.cur ∨ c ∈ st.stack.map Prod.fst ∨
    ∀ id ∈ c.1, AtLeast s.longest id c.1.length

variable {computePartial : Bool} {s : Search S} {st : Backtrack.State (List ℕ × S) ℕ}

/-- Where the loop begins. -/
theorem sim_start : Sim L model computePartial (Search.start model (makeLinkedEntries es))
    ((L.problem model).start ([], model.init)) := by
  obtain ⟨_, hentry, hlength⟩ := start_linked model es
  have hn : length (makeLinkedEntries es).links (makeLinkedEntries es).nodes.length
      (makeLinkedEntries es).root / 2 = n := by
    rw [hlength, L.length_eq]
    omega
  refine ⟨.nil, rfl, ?_, ⟨[], (makeLinkedEntries es).rest [], rfl, by simp, ?_, rfl⟩, ?_, ?_, ?_,
    ?_⟩
  · show Bitset.Holds n (newBitset _) ([] : List ℕ).toFinset
    rw [hn]
    exact Bitset.holds_newBitset n
  · rw [hentry, rest_nil]
  · intro b done state _
    rfl
  · simp [Search.start, hn]
  · intro id seq hseq
    simp [Search.start, List.getElem?_replicate] at hseq
  · intro _ c hc
    simp [Backtrack.Problem.start] at hc

/-- The node the loop looks at: a call that may come next, or a return. -/
theorem Sim.entry_cases (h : Sim L model computePartial s st)
    (hne : (makeLinkedEntries es).rest st.cur.1 ≠ []) :
    (∃ id pre suf, id < n ∧ (makeLinkedEntries es).rest st.cur.1 = pre ++ L.call id :: suf ∧
      (∀ a ∈ pre, (makeLinkedEntries es).hasMatch a = true) ∧ s.entry = some (L.call id) ∧
      st.todo = L.call id :: suf.takeWhile (makeLinkedEntries es).hasMatch) ∨
    ∃ id < n, s.entry = some (L.ret id) ∧ st.todo = [] := by
  obtain ⟨pre, suf, hrest, hpre, hentry, htodo⟩ := h.cursor
  cases suf with
  | nil =>
      -- a call that is left has its return after it
      rw [List.append_nil] at hrest
      obtain ⟨a, ha⟩ := List.exists_mem_of_ne_nil _ hne
      obtain ⟨id, hid, _⟩ := L.of_mem_rest ha
      obtain ⟨hlt, hdone⟩ := mem_remaining.1 hid
      have hret := (L.ret_mem_rest hlt).2 hdone
      rw [hrest] at hret
      have hmatch := hpre _ hret
      simp [Heap.hasMatch, L.mtchOf_ret hlt] at hmatch
  | cons e suf =>
      have hmem : e ∈ (makeLinkedEntries es).rest st.cur.1 := by simp [hrest]
      obtain ⟨id, hid, hpos⟩ := L.of_mem_rest hmem
      have hlt := (mem_remaining.1 hid).1
      rcases hpos with rfl | rfl
      · refine Or.inl ⟨id, pre, suf, hlt, hrest, hpre, hentry, ?_⟩
        rw [htodo, List.takeWhile_cons, if_pos (by simp [Heap.hasMatch, L.mtchOf_call hlt])]
      · refine Or.inr ⟨id, hlt, hentry, ?_⟩
        rw [htodo, List.takeWhile_cons, if_neg (by simp [Heap.hasMatch, L.mtchOf_ret hlt])]

section Call

variable {id : ℕ} {pre suf : List ℕ}

/-- The loop goes on to the next node. -/
theorem Sim.skip (h : Sim L model computePartial s st)
    (hrest : (makeLinkedEntries es).rest st.cur.1 = pre ++ L.call id :: suf)
    (hpre : ∀ a ∈ pre, (makeLinkedEntries es).hasMatch a = true) (hid : id < n) :
    Sim L model computePartial { s with entry := s.links.next (L.call id) }
      { st with todo := suf.takeWhile (makeLinkedEntries es).hasMatch } where
  frames := h.frames
  state := h.state
  holds := h.holds
  cursor := by
    refine ⟨pre ++ [L.call id], suf, by simpa using hrest, fun a ha => ?_, ?_, rfl⟩
    · rcases List.mem_append.1 ha with ha | ha
      · exact hpre a ha
      · rw [List.mem_singleton.1 ha]
        simp [Heap.hasMatch, L.mtchOf_call hid]
    · have hlinked := h.frames.linked
      rw [hrest, ← List.cons_append] at hlinked
      exact hlinked.next_eq
  cache := h.cache
  length := h.length
  sound := h.sound
  noted := h.noted

/-- The cache and the memo take in the same configuration. -/
theorem Sim.cache_cons (h : Sim L model computePartial s st) {b : Bitset} {done : List ℕ}
    {state : S} (hb : Bitset.Holds n b done.toFinset) :
    ∀ b' done' state', Bitset.Holds n b' done'.toFinset →
      cacheContains model.equal (Function.update s.cache (Bitset.hash b)
          (s.cache (Bitset.hash b) ++ [⟨b, state⟩])) ⟨b', state'⟩ =
        ((done, state) :: st.memo).any ((L.problem model).same (done', state')) := by
  intro b' done' state' hb'
  have hold := h.cache b' done' state' hb'
  have heq : Bitset.equals b' b = decide (done'.toFinset = done.toFinset) := by
    rw [Bool.eq_iff_iff, Bitset.equals_iff, hb'.eq_iff hb, decide_eq_true_iff]
  rw [List.any_cons, ← hold]
  by_cases hhash : Bitset.hash b' = Bitset.hash b
  · simp only [cacheContains, hhash, Function.update_self, List.any_append, List.any_cons,
      List.any_nil, Bool.or_false, heq]
    rw [Bool.or_comm]
    rfl
  · -- another hash is another set
    have hne : done'.toFinset ≠ done.toFinset := fun hsame =>
      hhash (by rw [(hb'.eq_iff hb).2 hsame])
    simp [cacheContains, Function.update_of_ne hhash, problem, hne]

/-- The loop takes a call. -/
theorem Sim.enter (h : Sim L model computePartial s st)
    (hrest : (makeLinkedEntries es).rest st.cur.1 = pre ++ L.call id :: suf)
    (hpre : ∀ a ∈ pre, (makeLinkedEntries es).hasMatch a = true) (hid : id < n) {state : S}
    (hstep : L.step model st.cur.2 id = some state) {b : Bitset}
    (hb : Bitset.Holds n b (insert id st.cur.1.toFinset)) {l : Links ℕ}
    (hlift : lift s.links (L.call id) (L.ret id) = some l) :
    Sim L model computePartial
      { s with
        links := l
        entry := l.next (makeLinkedEntries es).head
        linearized := b
        cache := Function.update s.cache (Bitset.hash b)
          (s.cache (Bitset.hash b) ++ [⟨b, state⟩])
        calls := (L.call id, s.state) :: s.calls
        state := state }
      { cur := (id :: st.cur.1, state)
        todo := (L.problem model).moves (id :: st.cur.1, state)
        stack := (st.cur, suf.takeWhile (makeLinkedEntries es).hasMatch) :: st.stack
        memo := (id :: st.cur.1, state) :: st.memo } := by
  have hframes : Frames L model ((L.call id, s.state) :: s.calls)
      ((st.cur, suf.takeWhile (makeLinkedEntries es).hasMatch) :: st.stack) l
      (id :: st.cur.1, state) := by
    rw [h.state]
    exact .cons h.frames hid hrest hpre hlift hstep
  have hb' : Bitset.Holds n b (id :: st.cur.1).toFinset := by
    rw [List.toFinset_cons]
    exact hb
  refine ⟨hframes, rfl, hb',
    ⟨[], (makeLinkedEntries es).rest (id :: st.cur.1), rfl, by simp, ?_, rfl⟩, h.cache_cons hb',
    h.length, h.sound, fun hpartial d hd => ?_⟩
  · have hlinked := hframes.linked
    rw [← List.nil_append (_ :: _)] at hlinked
    exact hlinked.next_eq
  · rcases List.mem_cons.1 hd with rfl | hd
    · exact Or.inl rfl
    · rcases h.noted hpartial d hd with rfl | hstack | hnoted
      · exact Or.inr (Or.inl (by simp))
      · exact Or.inr (Or.inl (List.mem_cons_of_mem _ hstack))
      · exact Or.inr (Or.inr hnoted)

theorem tryCall_illegal (hid : id < n) (hstep : L.step model s.state id = none) :
    tryCall model (makeLinkedEntries es) s (L.call id) (L.ret id) =
      some { s with entry := s.links.next (L.call id) } := by
  have hillegal : (model.step s.state (L.input id) (L.output id)).1 = false := by
    simpa [step] using hstep
  simp [tryCall, L.node_call hid, L.node_ret hid, hillegal]

theorem step_eq_some {s state : S} {id : ℕ} (h : L.step model s id = some state) :
    model.step s (L.input id) (L.output id) = (true, state) := by
  unfold step at h
  split at h
  · next hok => rw [← Option.some.inj h, ← hok]
  · exact absurd h (by simp)

theorem tryCall_cached (hid : id < n) {state : S} (hstep : L.step model s.state id = some state)
    {b : Bitset} (hb : Bitset.set s.linearized id = some b)
    (hcache : cacheContains model.equal s.cache ⟨b, state⟩ = true) :
    tryCall model (makeLinkedEntries es) s (L.call id) (L.ret id) =
      some { s with entry := s.links.next (L.call id) } := by
  simp [tryCall, L.node_call hid, L.node_ret hid, step_eq_some hstep, L.idOf_call hid, hb, hcache]

theorem tryCall_take (hid : id < n) {state : S} (hstep : L.step model s.state id = some state)
    {b : Bitset} (hb : Bitset.set s.linearized id = some b)
    (hcache : cacheContains model.equal s.cache ⟨b, state⟩ = false) {l : Links ℕ}
    (hlift : lift s.links (L.call id) (L.ret id) = some l) :
    tryCall model (makeLinkedEntries es) s (L.call id) (L.ret id) = some
      { s with
        links := l
        entry := l.next (makeLinkedEntries es).head
        linearized := b
        cache := Function.update s.cache (Bitset.hash b)
          (s.cache (Bitset.hash b) ++ [⟨b, state⟩])
        calls := (L.call id, s.state) :: s.calls
        state := state } := by
  simp [tryCall, L.node_call hid, L.node_ret hid, step_eq_some hstep, L.idOf_call hid, hb, hcache,
    hlift]

end Call

/-- The call on top of the stack, and the list before it was lifted. -/
theorem Frames.pop {d : List ℕ × S} {todo : List ℕ}
    (h : Frames L model calls ((c, todo) :: stack) l d) :
    ∃ id pre suf l₀ calls' state, id < n ∧ calls = (L.call id, c.2) :: calls' ∧
      Frames L model calls' stack l₀ c ∧
      (makeLinkedEntries es).rest c.1 = pre ++ L.call id :: suf ∧
      (∀ a ∈ pre, (makeLinkedEntries es).hasMatch a = true) ∧
      todo = suf.takeWhile (makeLinkedEntries es).hasMatch ∧
      lift l₀ (L.call id) (L.ret id) = some l ∧ d = (id :: c.1, state) := by
  cases h with
  | @cons calls' _ l₀ _ _ id state pre suf hframes hid hrest hpre hlift _ =>
      exact ⟨id, pre, suf, l₀, calls', state, hid, rfl, hframes, hrest, hpre, rfl, hlift, rfl⟩

theorem Frames.calls_nil (h : Frames L model calls [] l c) : calls = [] := by
  cases h
  rfl

/-- The loop backtracks. -/
theorem Sim.leave (h : Sim L model computePartial s st) {todo : List ℕ}
    (hstack : st.stack = (c, todo) :: stack) :
    ∃ top calls s', s.calls = (top, c.2) :: calls ∧
      backtrack (makeLinkedEntries es) computePartial s top c.2 calls = some s' ∧
      Sim L model computePartial s' { st with cur := c, todo := todo, stack := stack } := by
  have hframes := h.frames
  rw [hstack] at hframes
  obtain ⟨id, pre, suf, l₀, calls, state, hid, hcalls, hbelow, hrest, hpre, rfl, hlift, hcur⟩ :=
    hframes.pop
  -- the sequence is noted
  obtain ⟨longest, hnote, hnoted, hat⟩ : ∃ longest,
      (if computePartial then noteLongest ((makeLinkedEntries es).seq s.calls) s.longest
        else some s.longest) = some longest ∧ Noted st.cur.1.reverse s.longest longest ∧
      (computePartial = true → ∀ id ∈ st.cur.1, AtLeast longest id st.cur.1.length) := by
    rw [h.frames.seq]
    cases computePartial with
    | false => exact ⟨s.longest, rfl, ⟨rfl, fun _ _ h => Or.inl h, fun _ _ h => h⟩, by simp⟩
    | true =>
        have hlt : ∀ id ∈ st.cur.1.reverse, id < s.longest.length := fun id hid => by
          rw [h.length]
          exact h.frames.lt (List.mem_reverse.1 hid)
        obtain ⟨longest, hlongest, hnoted, hat⟩ := noteLongest_spec hlt
        refine ⟨longest, by simpa using hlongest, hnoted, fun _ id hid => ?_⟩
        have hid' := hat id (List.mem_reverse.2 hid)
        rwa [List.length_reverse] at hid'
  -- the bit set and the list are as before the call
  obtain ⟨l', hl', _, hunlift⟩ := lift_rest hid hbelow.linked hrest
  obtain rfl := Option.some.inj (hlift.symm.trans hl')
  obtain ⟨b, hb, hholds⟩ := h.holds.clear hid
  have hdone : id ∉ c.1 := by
    have hnodup := h.frames.nodup
    rw [hcur] at hnodup
    exact (List.nodup_cons.1 hnodup).1
  have hset : st.cur.1.toFinset.erase id = c.1.toFinset := by
    rw [hcur, List.toFinset_cons, Finset.erase_insert (by simpa using hdone)]
  rw [hset] at hholds
  refine ⟨L.call id, calls,
    { s with
      links := l₀
      entry := l₀.next (L.call id)
      linearized := b
      calls := calls
      longest := longest
      state := c.2 }, hcalls, ?_, ⟨hbelow, rfl, hholds, ?_, h.cache, ?_, ?_, ?_⟩⟩
  · simp [backtrack, hnote, L.idOf_call hid, hb, L.mtchOf_call hid, hunlift]
  · refine ⟨pre ++ [L.call id], suf, by simpa using hrest, fun a ha => ?_, ?_, rfl⟩
    · rcases List.mem_append.1 ha with ha | ha
      · exact hpre a ha
      · rw [List.mem_singleton.1 ha]
        simp [Heap.hasMatch, L.mtchOf_call hid]
    · have hlinked := hbelow.linked
      rw [hrest, ← List.cons_append] at hlinked
      exact hlinked.next_eq
  · exact hnoted.length.trans h.length
  · intro id seq hseq
    rcases hnoted.old_or_new id seq hseq with hold | ⟨hmem, rfl⟩
    · exact h.sound id seq hold
    · exact ⟨hmem, _, h.frames.begun⟩
  · intro hpartial d hd
    rcases h.noted hpartial d hd with rfl | hmem | hold
    · exact Or.inr (Or.inr (hat hpartial))
    · rw [hstack] at hmem
      rcases List.mem_cons.1 hmem with rfl | hmem
      · exact Or.inl rfl
      · exact Or.inr (Or.inl hmem)
    · exact Or.inr (Or.inr fun id hid => hnoted.mono _ _ (hold id hid))

/-- What the loop tests: whether anything is left. -/
theorem Sim.next_head (h : Sim L model computePartial s st) :
    s.links.next (makeLinkedEntries es).head = ((makeLinkedEntries es).rest st.cur.1).head? := by
  have hlinked := h.frames.linked
  rw [← List.nil_append (_ :: _)] at hlinked
  exact hlinked.next_eq

theorem goal_iff {c : List ℕ × S} :
    (L.problem model).goal c = true ↔ (makeLinkedEntries es).rest c.1 = [] := by
  simp [problem]

/-- A round while something is left. -/
theorem Sim.round_eq (h : Sim L model computePartial s st)
    (hne : (makeLinkedEntries es).rest st.cur.1 ≠ []) (kill : Bool) {entry : ℕ}
    (hentry : s.entry = some entry) :
    round model (makeLinkedEntries es) computePartial kill s =
      if kill then some (.inr (false, s.longest))
      else
        ((makeLinkedEntries es).mtchOf entry).elim
          (s.calls.head?.elim (some (.inr (false, s.longest))) fun top =>
            (backtrack (makeLinkedEntries es) computePartial s top.1 top.2 s.calls.tail).map .inl)
          fun matching => (tryCall model (makeLinkedEntries es) s entry matching).map .inl := by
  obtain ⟨a, rest, hrest⟩ := List.exists_cons_of_ne_nil hne
  unfold round
  simp only [h.next_head, hrest, List.head?_cons, hentry]
  cases (makeLinkedEntries es).mtchOf entry with
  | some matching => rfl
  | none =>
      cases s.calls with
      | nil => rfl
      | cons top calls => rfl

/-- **Step lemma.** The loop goes where the search goes. -/
theorem Sim.round (h : Sim L model computePartial s st) {st' : Backtrack.State (List ℕ × S) ℕ}
    (hstep : (L.problem model).step st = .inl st') :
    ∃ s', Porcupine.round model (makeLinkedEntries es) computePartial false s = some (.inl s') ∧
      Sim L model computePartial s' st' := by
  obtain ⟨hgoal, hcases⟩ := Backtrack.Problem.step_cases hstep
  have hne : (makeLinkedEntries es).rest st.cur.1 ≠ [] := fun hnil => by
    rw [goal_iff.2 hnil] at hgoal
    exact absurd hgoal (by simp)
  rcases h.entry_cases hne with ⟨id, pre, suf, hid, hrest, hpre, hentry, htodo⟩ |
    ⟨id, hid, hentry, htodo⟩
  · -- a call
    rw [h.round_eq hne false hentry, L.mtchOf_call hid]
    obtain ⟨b, hb, hholds⟩ := h.holds.set hid
    have hholds' : Bitset.Holds n b (id :: st.cur.1).toFinset := by
      rw [List.toFinset_cons]
      exact hholds
    rcases hcases with ⟨m, rest, htodo', hmemo, rfl⟩ | ⟨m, rest, d, htodo', hd, hmemo, rfl⟩ |
      ⟨_, _, _, hnil, _⟩
    · obtain ⟨rfl, rfl⟩ := List.cons.inj (htodo.symm.trans htodo')
      refine ⟨_, ?_, h.skip hrest hpre hid⟩
      cases hlegal : L.step model s.state id with
      | none => simp [tryCall_illegal hid hlegal]
      | some state =>
          rw [h.state] at hlegal
          have hin := hmemo _ ((L.apply_call model hid).2 ⟨state, hlegal, rfl⟩)
          rw [← h.cache b _ state hholds'] at hin
          rw [← h.state] at hlegal
          simp [tryCall_cached hid hlegal hb hin]
    · obtain ⟨rfl, rfl⟩ := List.cons.inj (htodo.symm.trans htodo')
      obtain ⟨state, hlegal, rfl⟩ := (L.apply_call model hid).1 hd
      obtain ⟨l, hlift, _, _⟩ := lift_rest hid h.frames.linked hrest
      rw [← h.cache b _ state hholds'] at hmemo
      refine ⟨_, ?_, h.enter hrest hpre hid hlegal hholds hlift⟩
      rw [← h.state] at hlegal
      simp [tryCall_take hid hlegal hb hmemo hlift]
    · simp [htodo] at hnil
  · -- a return
    rw [h.round_eq hne false hentry, L.mtchOf_ret hid]
    rcases hcases with ⟨m, rest, htodo', _⟩ | ⟨m, rest, d, htodo', _⟩ |
      ⟨c, rest, stack, _, hstack, rfl⟩
    · simp [htodo] at htodo'
    · simp [htodo] at htodo'
    · obtain ⟨top, calls, s', hcalls, hback, hsim⟩ := h.leave hstack
      exact ⟨s', by simp [hcalls, hback], hsim⟩

/-- What `checkSingle` returns when the search ends here. -/
def Sim.longest (ok : Bool) (s : Search S) (st : Backtrack.State (List ℕ × S) ℕ) :
    List (Option (List ℕ)) :=
  if ok then List.replicate s.longest.length (some st.cur.1.reverse) else s.longest

/-- **Answer.** The loop ends when the search does, with its answer. -/
theorem Sim.answer (h : Sim L model computePartial s st) {ok : Bool}
    (hstep : (L.problem model).step st = .inr ok) :
    Porcupine.round model (makeLinkedEntries es) computePartial false s =
      some (.inr (ok, Sim.longest ok s st)) := by
  rcases Backtrack.Problem.answer_cases hstep with ⟨rfl, hgoal⟩ | ⟨rfl, hgoal, htodo, hstack⟩
  · unfold Porcupine.round
    simp [h.next_head, goal_iff.1 hgoal, h.frames.seq, Sim.longest]
  · have hne : (makeLinkedEntries es).rest st.cur.1 ≠ [] := fun hnil => by
      rw [goal_iff.2 hnil] at hgoal
      exact absurd hgoal (by simp)
    rcases h.entry_cases hne with ⟨_, _, _, _, _, _, _, htodo'⟩ | ⟨id, hid, hentry, _⟩
    · simp [htodo] at htodo'
    · have hframes := h.frames
      rw [hstack] at hframes
      simp [h.round_eq hne false hentry, L.mtchOf_ret hid, hframes.calls_nil, Sim.longest]

/-! ## Runs -/

/-- A number of rounds that is always enough. -/
def rounds (n : ℕ) : ℕ :=
  Backtrack.Problem.below (2 * n) (2 * n + 1)

variable (L) in
theorem moves_length_le (c : List ℕ × S) : ((L.problem model).moves c).length ≤ 2 * n := by
  refine (List.takeWhile_sublist _).length_le.trans ?_
  refine (List.filter_sublist).length_le.trans ?_
  rw [List.length_range, L.nodes_length]

/-- What holds in every round. -/
structure Run (L : Layout es n) (model : FilledModel S ι ο) (computePartial : Bool) (s : Search S)
    (st : Backtrack.State (List ℕ × S) ℕ) : Prop where
  sim : Sim L model computePartial s st
  inv : (L.problem model).Inv ([], model.init) st
  seen : (L.problem model).Seen ([], model.init) st

/-- A bound on the rounds that are left. -/
def roundsLeft (es : List (Entry ι ο)) (n : ℕ) (st : Backtrack.State (List ℕ × S) ℕ) : ℕ :=
  Backtrack.Problem.cost (2 * n) (fun c => ((makeLinkedEntries es).rest c.1).length) st

variable (L) in
theorem run_start : Run L model computePartial (Search.start model (makeLinkedEntries es))
    ((L.problem model).start ([], model.init)) :=
  ⟨sim_start, Backtrack.Problem.inv_start _ _, Backtrack.Problem.seen_start _⟩

variable (L) in
theorem roundsLeft_start :
    roundsLeft es n ((L.problem model).start ([], model.init)) ≤ rounds n := by
  refine (Backtrack.Problem.cost_start_le L.moves_length_le _).trans ?_
  rw [rest_nil, List.length_range, L.length_eq, rounds]

theorem Run.round (hrun : Run L model computePartial s st) (hequal : Congruent model)
    {st' : Backtrack.State (List ℕ × S) ℕ} (hstep : (L.problem model).step st = .inl st') :
    ∃ s', Porcupine.round model (makeLinkedEntries es) computePartial false s = some (.inl s') ∧
      Run L model computePartial s' st' ∧ roundsLeft es n st' < roundsLeft es n st := by
  have hranked := L.ranked hequal
  obtain ⟨s', hround, hsim⟩ := hrun.sim.round hstep
  exact ⟨s', hround, ⟨hsim, hrun.inv.step hranked hstep, hrun.seen.step hstep⟩,
    Backtrack.Problem.cost_step hranked L.moves_length_le hrun.inv hstep⟩

/-! ## Verdicts -/

/-- A verdict is right. One that was `killed` may be negative for no reason, but a positive one and
    the sequences are right even so. -/
structure Right (L : Layout es n) (model : FilledModel S ι ο) (computePartial killed : Bool)
    (v : Verdict) : Prop where
  ok : v.1 = true → L.Linearizable model
  illegal : killed = false → v.1 = false → ¬ L.Linearizable model
  length : v.2.length = n
  sound : ∀ id seq, v.2[id]? = some (some seq) → id ∈ seq ∧ ∃ t, L.Begun model seq t
  longest : killed = false → computePartial = true →
    ∀ order t, L.Begun model order t → ∀ id ∈ order, AtLeast v.2 id order.length

theorem Right.kill {killed : Bool} {v : Verdict} (h : Right L model computePartial killed v) :
    Right L model computePartial true v where
  ok := h.ok
  illegal hfalse := absurd hfalse (by simp)
  length := h.length
  sound := h.sound
  longest hfalse := absurd hfalse (by simp)

theorem Run.wins_iff (hrun : Run L model computePartial s st) {ok : Bool}
    (hstep : (L.problem model).step st = .inr ok) : ok = true ↔ L.Linearizable model := by
  have hall : remaining n [] = List.range n := List.filter_eq_self.2 (by simp)
  rw [hrun.inv.answer hstep, L.wins_iff, Linearizable, hall]

/-- A search that ends at a goal has all operations in its sequence. -/
theorem Run.right_of_goal (hrun : Run L model computePartial s st)
    (hstep : (L.problem model).step st = .inr true) (killed : Bool) :
    Right L model computePartial killed (true, Sim.longest true s st) := by
  have hgoal : (L.problem model).goal st.cur = true := by
    rcases Backtrack.Problem.answer_cases hstep with ⟨_, hgoal⟩ | ⟨hfalse, _⟩
    · exact hgoal
    · exact absurd hfalse (by simp)
  have hall : ∀ id < n, id ∈ st.cur.1.reverse := by
    intro id hid
    by_contra hnot
    have hmem : L.call id ∈ (makeLinkedEntries es).rest st.cur.1 :=
      (L.call_mem_rest hid).2 (by simpa using hnot)
    rw [goal_iff.1 hgoal] at hmem
    cases hmem
  have hget : ∀ id < n, (Sim.longest true s st)[id]? = some (some st.cur.1.reverse) := by
    intro id hid
    simp [Sim.longest, hrun.sim.length, hid]
  have hlength : (Sim.longest true s st).length = n := by simp [Sim.longest, hrun.sim.length]
  refine ⟨fun _ => (hrun.wins_iff hstep).1 rfl, fun _ hfalse => absurd hfalse (by simp), hlength,
    fun id seq hseq => ?_, fun _ _ order t horder id hid => ?_⟩
  · have hid : id < n := by
      rw [← hlength]
      exact (List.getElem?_eq_some_iff.1 hseq).1
    dsimp only at hseq
    rw [hget id hid] at hseq
    obtain rfl := Option.some.inj (Option.some.inj hseq)
    exact ⟨hall id hid, _, hrun.sim.frames.begun⟩
  · refine ⟨_, hget id (List.mem_range.1 (horder.subset hid)), ?_⟩
    exact (horder.nodup.subperm fun a ha => hall a (List.mem_range.1 (horder.subset ha))).length_le

/-- What can be reached is like something that has been entered; as sets these are the same. -/
theorem toFinset_eq_of_same {c e : List ℕ × S}
    (h : Relation.ReflTransGen (fun x y => (L.problem model).same x y = true) c e) :
    c.1.toFinset = e.1.toFinset := by
  induction h with
  | refl => rfl
  | tail _ hlast ih => exact ih.trans (L.same_iff.1 hlast).1

/-- When the search gives up, a sequence as long as any with `id` is noted for `id`. -/
theorem Run.atLeast (hrun : Run L model true s st) (hequal : Congruent model)
    (htodo : st.todo = []) (hstack : st.stack = []) {order : List ℕ} {state : S}
    (horder : L.Begun model order state) {id : ℕ} (hid : id ∈ order) :
    AtLeast s.longest id order.length := by
  have hreach : (L.problem model).Reach ([], model.init) (order.reverse, state) :=
    L.reach_iff.2 (by simpa using horder)
  obtain ⟨e, he, hlike⟩ := hrun.seen.exhaustive htodo hstack (L.same_moves hequal) hreach
  have hset := toFinset_eq_of_same hlike
  rw [List.toFinset_reverse] at hset
  have hide : id ∈ e.1 := by
    rw [← List.mem_toFinset, ← hset, List.mem_toFinset]
    exact hid
  have hlen : order.length ≤ e.1.length := by
    rw [← List.toFinset_card_of_nodup horder.nodup, hset]
    exact List.toFinset_card_le _
  -- the root has no operations, and everything else has been left
  have hroot : st.cur = ([], model.init) := by
    have hway := hrun.inv.way
    rwa [hstack] at hway
  rcases List.mem_cons.1 he with rfl | he
  · simp at hide
  · rcases hrun.sim.noted rfl e he with rfl | hmem | hnoted
    · simp [hroot] at hide
    · simp [hstack] at hmem
    · obtain ⟨seq, hseq, hle⟩ := hnoted id hide
      exact ⟨seq, hseq, hlen.trans hle⟩

/-- **Answer.** The search ends with a verdict that is right. -/
theorem Run.right (hrun : Run L model computePartial s st) (hequal : Congruent model) {ok : Bool}
    (hstep : (L.problem model).step st = .inr ok) :
    Right L model computePartial false (ok, Sim.longest ok s st) := by
  rcases Backtrack.Problem.answer_cases hstep with ⟨rfl, _⟩ | ⟨rfl, _, htodo, hstack⟩
  · exact hrun.right_of_goal hstep false
  · refine ⟨fun htrue => absurd htrue (by simp), fun _ _ hlin => ?_, hrun.sim.length,
      hrun.sim.sound, ?_⟩
    · exact absurd ((hrun.wins_iff hstep).2 hlin) (by simp)
    · rintro - rfl order t horder id hid
      exact hrun.atLeast hequal htodo hstack horder hid

/-- A round that reads `kill` ends the search. -/
theorem Run.killed (hrun : Run L model computePartial s st) :
    ∃ v, Porcupine.round model (makeLinkedEntries es) computePartial true s = some (.inr v) ∧
      Right L model computePartial true v := by
  by_cases hgoal : (L.problem model).goal st.cur = true
  · have hstep : (L.problem model).step st = .inr true := by simp [Backtrack.Problem.step, hgoal]
    refine ⟨(true, Sim.longest true s st), ?_, hrun.right_of_goal hstep true⟩
    unfold Porcupine.round
    simp [hrun.sim.next_head, goal_iff.1 hgoal, hrun.sim.frames.seq, Sim.longest]
  · have hne : (makeLinkedEntries es).rest st.cur.1 ≠ [] := fun hnil => hgoal (goal_iff.2 hnil)
    obtain ⟨entry, hentry⟩ : ∃ entry, s.entry = some entry := by
      rcases hrun.sim.entry_cases hne with ⟨_, _, _, _, _, _, hentry, _⟩ | ⟨_, _, hentry, _⟩
      · exact ⟨_, hentry⟩
      · exact ⟨_, hentry⟩
    refine ⟨(false, s.longest), by simp [hrun.sim.round_eq hne true hentry], ?_⟩
    exact ⟨fun htrue => absurd htrue (by simp), fun hfalse => absurd hfalse (by simp),
      hrun.sim.length, hrun.sim.sound, fun hfalse => absurd hfalse (by simp)⟩

variable (L) in
/-- **checkSingle** ends, with a verdict that is right. -/
theorem checkSingle_right (hequal : Congruent model) (computePartial : Bool) {bound : ℕ}
    (hbound : rounds n < bound) :
    ∃ v, checkSingle model es computePartial bound = some v ∧
      Right L model computePartial false v := by
  have hloop := Machine.loop_ends
    (I := fun m (s : Search S) => ∃ st, Run L model computePartial s st ∧ m = roundsLeft es n st)
    (Q := Right L model computePartial false)
    (fun m s => by
      rintro ⟨st, hrun, rfl⟩
      cases hstep : (L.problem model).step st with
      | inl st' =>
          obtain ⟨s', hround, hrun', hlt⟩ := hrun.round hequal hstep
          exact Or.inl ⟨_, s', hround, ⟨st', hrun', rfl⟩, hlt⟩
      | inr ok => exact Or.inr ⟨_, hrun.sim.answer hstep, hrun.right hequal hstep⟩)
  exact hloop bound _ (Search.start model (makeLinkedEntries es)) ⟨_, L.run_start, rfl⟩
    (L.roundsLeft_start.trans_lt hbound)

end Layout

end Porcupine

end AiFS
