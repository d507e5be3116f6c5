import AiFS.Porcupine.CheckOperations

set_option autoImplicit false

/-! # Checking a history of events

`checkEvents` takes the calls and returns in the order in which they happened. `renumber` gives the
operations, whose ids may be any integers, the numbers from zero on in the order in which they first
appear, so that they fit a bit set. -/

namespace AiFS

namespace Porcupine

variable {S ι ο : Type}

def Event.isCall (e : Event ι ο) : Bool :=
  e.value.isLeft

/-! ## Renumbering -/

/-- The ids in the order of their first appearance, after those of `seen`. -/
def namesFrom (seen : List ℤ) (events : List (Event ι ο)) : List ℤ :=
  events.foldl (fun seen e => if e.id ∈ seen then seen else seen ++ [e.id]) seen

def names (events : List (Event ι ο)) : List ℤ :=
  namesFrom [] events

theorem namesFrom_cons (seen : List ℤ) (e : Event ι ο) (events : List (Event ι ο)) :
    namesFrom seen (e :: events) =
      namesFrom (if e.id ∈ seen then seen else seen ++ [e.id]) events :=
  rfl

theorem mem_namesFrom {seen : List ℤ} {events : List (Event ι ο)} {z : ℤ} :
    z ∈ namesFrom seen events ↔ z ∈ seen ∨ z ∈ events.map Event.id := by
  induction events generalizing seen with
  | nil => simp [namesFrom]
  | cons e events ih =>
      rw [namesFrom_cons, ih, List.map_cons, List.mem_cons]
      split
      · next hmem =>
          constructor
          · rintro (hz | hz)
            · exact Or.inl hz
            · exact Or.inr (Or.inr hz)
          · rintro (hz | rfl | hz)
            · exact Or.inl hz
            · exact Or.inl hmem
            · exact Or.inr hz
      · simp only [List.mem_append, List.mem_singleton, or_assoc]

theorem nodup_namesFrom {seen : List ℤ} (h : seen.Nodup) (events : List (Event ι ο)) :
    (namesFrom seen events).Nodup := by
  induction events generalizing seen with
  | nil => exact h
  | cons e events ih =>
      rw [namesFrom_cons]
      split
      · exact ih h
      · next hnew =>
          refine ih (List.nodup_append.2 ⟨h, List.nodup_singleton _, fun a ha b hb => ?_⟩)
          rintro rfl
          exact hnew (List.mem_singleton.1 hb ▸ ha)

theorem idxOf_namesFrom {seen : List ℤ} {z : ℤ} (hz : z ∈ seen) (events : List (Event ι ο)) :
    (namesFrom seen events).idxOf z = seen.idxOf z := by
  induction events generalizing seen with
  | nil => rfl
  | cons e events ih =>
      rw [namesFrom_cons]
      split
      · exact ih hz
      · rw [ih (List.mem_append_left _ hz), List.idxOf_append_of_mem hz]

/-- **Renumbering.** An event gets the position of its id among the names. -/
theorem renumberFrom_eq {m : ℤ → Option ℕ} {seen : List ℤ}
    (hm : ∀ z, m z = if z ∈ seen then some (seen.idxOf z) else none) (events : List (Event ι ο)) :
    renumberFrom m seen.length events =
      events.map fun e => { e with id := ((namesFrom seen events).idxOf e.id : ℕ) } := by
  induction events generalizing m seen with
  | nil => rfl
  | cons e events ih =>
      rw [List.map_cons, namesFrom_cons]
      by_cases hmem : e.id ∈ seen
      · have hme : m e.id = some (seen.idxOf e.id) := by rw [hm, if_pos hmem]
        rw [if_pos hmem, idxOf_namesFrom hmem, ← ih hm]
        simp only [renumberFrom, hme]
      · have hme : m e.id = none := by rw [hm, if_neg hmem]
        have hidx : (seen ++ [e.id]).idxOf e.id = seen.length := by
          rw [List.idxOf_append_of_notMem hmem]
          simp
        have hm' : ∀ z, Function.update m e.id (some seen.length) z =
            if z ∈ seen ++ [e.id] then some ((seen ++ [e.id]).idxOf z) else none := by
          intro z
          by_cases hz : z = e.id
          · rw [hz, Function.update_self, if_pos (by simp), hidx]
          · rw [Function.update_of_ne hz, hm]
            by_cases hseen : z ∈ seen
            · rw [if_pos hseen, if_pos (by simp [hseen]), List.idxOf_append_of_mem hseen]
            · rw [if_neg hseen, if_neg (by simp [hseen, hz])]
        rw [if_neg hmem, idxOf_namesFrom (by simp), hidx]
        simp only [renumberFrom, hme]
        rw [← ih hm', List.length_append, List.length_singleton]

/-- What the entries hold, apart from their times. -/
theorem map_convertEntries (events : List (Event ι ο)) :
    (convertEntries (renumber events)).map (fun e => (e.value, e.id)) =
      events.map fun e => (e.value, (names events).idxOf e.id) := by
  have hnil : ∀ z : ℤ, (none : Option ℕ) =
      if z ∈ ([] : List ℤ) then some (List.idxOf z []) else none := fun z => by simp
  have hrenumber : renumber events =
      events.map fun e => { e with id := ((names events).idxOf e.id : ℕ) } :=
    renumberFrom_eq hnil events
  rw [convertEntries, hrenumber]
  refine List.ext_getElem? fun i => ?_
  simp only [List.getElem?_map, List.getElem?_mapIdx, Option.map_map]
  rfl

/-! ## Complete histories of events -/

/-- Every operation is called once and returns once, and the call is first. -/
structure Paired (events : List (Event ι ο)) : Prop where
  nodup : (events.map fun e => (e.isCall, e.id)).Nodup
  both : ∀ e ∈ events, ∀ isCall, ∃ e' ∈ events, e'.isCall = isCall ∧ e'.id = e.id
  order : events.Pairwise fun a b => a.id = b.id → b.isCall = true → a.isCall = true

def inputOf [Inhabited ι] (events : List (Event ι ο)) (z : ℤ) : ι :=
  ((events.find? fun e => (e.isCall, e.id) = (true, z)).bind (·.value.getLeft?)).getD default

def outputOf [Inhabited ο] (events : List (Event ι ο)) (z : ℤ) : ο :=
  ((events.find? fun e => (e.isCall, e.id) = (false, z)).bind (·.value.getRight?)).getD default

/-- Where the call, or the return, of an operation is. -/
def eventPosition (events : List (Event ι ο)) (isCall : Bool) (z : ℤ) : ℕ :=
  events.findIdx fun e => (e.isCall, e.id) = (isCall, z)

/-- What the model says of an operation. -/
def FilledModel.nameStep [Inhabited ι] [Inhabited ο] (model : FilledModel S ι ο)
    (events : List (Event ι ο)) (s : S) (z : ℤ) : Option S :=
  if (model.step s (inputOf events z) (outputOf events z)).1 then
    some (model.step s (inputOf events z) (outputOf events z)).2
  else none

/-- Operation `a` returned before `b` was called. -/
def ReturnedBefore (events : List (Event ι ο)) (a b : ℤ) : Prop :=
  eventPosition events false a < eventPosition events true b

instance (events : List (Event ι ο)) (a b : ℤ) : Decidable (ReturnedBefore events a b) :=
  inferInstanceAs (Decidable (_ < _))

/-- A history of events is linearizable: some order of its operations, in which none comes before
    one that returned before it was called, is a run of the model. -/
def FilledModel.EventsLinearizable [Inhabited ι] [Inhabited ο] (model : FilledModel S ι ο)
    (events : List (Event ι ο)) : Prop :=
  Linearize.Linearizable (model.nameStep events) (ReturnedBefore events) model.init (names events)

theorem findIdx_congr {α : Type} {f g : α → Bool} {l : List α} (h : ∀ a ∈ l, f a = g a) :
    l.findIdx f = l.findIdx g := by
  induction l with
  | nil => rfl
  | cons a l ih =>
      rw [List.findIdx_cons, List.findIdx_cons, h a List.mem_cons_self,
        ih fun b hb => h b (List.mem_cons_of_mem _ hb)]

namespace Paired

variable {events : List (Event ι ο)}

/-- There is only one event of a kind for an operation. -/
theorem find_eq (h : Paired events) {e : Event ι ο} (he : e ∈ events) :
    events.find? (fun e' => (e'.isCall, e'.id) = (e.isCall, e.id)) = some e := by
  obtain ⟨e', hfind⟩ : ∃ e', events.find? (fun e' => (e'.isCall, e'.id) = (e.isCall, e.id)) =
      some e' := by
    rw [← Option.isSome_iff_exists, List.find?_isSome]
    exact ⟨e, he, by simp⟩
  have hkey := List.find?_some hfind
  rw [hfind, List.inj_on_of_nodup_map h.nodup (List.mem_of_find?_eq_some hfind) he
    (of_decide_eq_true hkey)]

theorem inputOf_eq [Inhabited ι] (h : Paired events) {e : Event ι ο} (he : e ∈ events)
    (hcall : e.isCall = true) : e.value = .inl (inputOf events e.id) := by
  have hfind := h.find_eq he
  rw [hcall] at hfind
  cases hvalue : e.value with
  | inl input =>
      rw [inputOf, hfind, Option.bind_some, hvalue]
      rfl
  | inr output => simp [Event.isCall, hvalue] at hcall

theorem outputOf_eq [Inhabited ο] (h : Paired events) {e : Event ι ο} (he : e ∈ events)
    (hret : e.isCall = false) : e.value = .inr (outputOf events e.id) := by
  have hfind := h.find_eq he
  rw [hret] at hfind
  cases hvalue : e.value with
  | inl input => simp [Event.isCall, hvalue] at hret
  | inr output =>
      rw [outputOf, hfind, Option.bind_some, hvalue]
      rfl

theorem mem_names {e : Event ι ο} (he : e ∈ events) : e.id ∈ names events :=
  mem_namesFrom.2 (Or.inr (List.mem_map_of_mem he))

theorem nodup_names (events : List (Event ι ο)) : (names events).Nodup :=
  nodup_namesFrom List.nodup_nil events

/-- An entry for each event. -/
theorem exists_entry {e : Event ι ο} (he : e ∈ events) : ∃ e' ∈ convertEntries (renumber events),
    e'.value = e.value ∧ e'.id = (names events).idxOf e.id := by
  have hmem : (e.value, (names events).idxOf e.id) ∈
      (convertEntries (renumber events)).map fun e => (e.value, e.id) := by
    rw [map_convertEntries]
    exact List.mem_map.2 ⟨e, he, rfl⟩
  obtain ⟨e', he', heq⟩ := List.mem_map.1 hmem
  exact ⟨e', he', Prod.mk.inj heq⟩

theorem exists_event {e : Entry ι ο} (he : e ∈ convertEntries (renumber events)) :
    ∃ e' ∈ events, e.value = e'.value ∧ e.id = (names events).idxOf e'.id := by
  have hmem : (e.value, e.id) ∈ events.map fun e => (e.value, (names events).idxOf e.id) := by
    rw [← map_convertEntries]
    exact List.mem_map.2 ⟨e, he, rfl⟩
  obtain ⟨e', he', heq⟩ := List.mem_map.1 hmem
  obtain ⟨hvalue, hid⟩ := Prod.mk.inj heq
  exact ⟨e', he', hvalue.symm, hid.symm⟩

/-- The event of a name. -/
theorem exists_named (h : Paired events) {id : ℕ} (hid : id < (names events).length)
    (isCall : Bool) : ∃ e ∈ events, e.isCall = isCall ∧ e.id = (names events).getD id 0 ∧
      (names events).idxOf e.id = id := by
  have hname : (names events).getD id 0 = (names events)[id] := by
    simp [List.getD_eq_getElem?_getD, List.getElem?_eq_getElem hid]
  have hmem : (names events)[id] ∈ names events := List.getElem_mem hid
  obtain hnil | hmap := mem_namesFrom.1 hmem
  · cases hnil
  · obtain ⟨e, he, heid⟩ := List.mem_map.1 hmap
    obtain ⟨e', he', hcall, heid'⟩ := h.both e he isCall
    refine ⟨e', he', hcall, by rw [heid', heid, hname], ?_⟩
    rw [heid', heid, (nodup_names events).idxOf_getElem]

variable [Inhabited ι] [Inhabited ο]

/-- **convertEntries.** The entries of a complete history of events are complete. -/
theorem complete (h : Paired events) :
    Complete (convertEntries (renumber events)) (names events).length
      (fun id => inputOf events ((names events).getD id 0))
      (fun id => outputOf events ((names events).getD id 0)) where
  nodup := by
    have hkeys : (convertEntries (renumber events)).map (fun e => (e.isCall, e.id)) =
        (events.map fun e => (e.isCall, e.id)).map fun k => (k.1, (names events).idxOf k.2) := by
      have hmap := congrArg (List.map fun k : (ι ⊕ ο) × ℕ => (k.1.isLeft, k.2))
        (map_convertEntries events)
      rw [List.map_map, List.map_map] at hmap
      rw [List.map_map]
      exact hmap
    rw [hkeys]
    refine h.nodup.map_on fun x hx y hy hxy => ?_
    obtain ⟨hcall, hidx⟩ := Prod.mk.inj hxy
    obtain ⟨e, he, rfl⟩ := List.mem_map.1 hx
    exact Prod.ext hcall ((List.idxOf_inj (mem_names he)).1 hidx)
  lt e he := by
    obtain ⟨e', he', _, hid⟩ := exists_event he
    rw [hid]
    exact List.idxOf_lt_length_of_mem (mem_names he')
  call id hid := by
    obtain ⟨e, he, hcall, hname, hidx⟩ := h.exists_named hid true
    obtain ⟨e', he', hvalue, hid'⟩ := exists_entry he
    exact ⟨e', he', by rw [hvalue, h.inputOf_eq he hcall, hname], hid'.trans hidx⟩
  ret id hid := by
    obtain ⟨e, he, hret, hname, hidx⟩ := h.exists_named hid false
    obtain ⟨e', he', hvalue, hid'⟩ := exists_entry he
    exact ⟨e', he', by rw [hvalue, h.outputOf_eq he hret, hname], hid'.trans hidx⟩
  order := by
    have horder : (events.map fun e => (e.value, (names events).idxOf e.id)).Pairwise
        fun a b => a.2 = b.2 → b.1.isLeft = true → a.1.isLeft = true := by
      refine List.pairwise_map.2 (h.order.imp_of_mem fun {a b} ha hb himp hidx => himp ?_)
      exact (List.idxOf_inj (mem_names ha)).1 hidx
    rw [← map_convertEntries, List.pairwise_map] at horder
    exact horder

omit [Inhabited ι] [Inhabited ο] in
/-- The entry of a name is where its event is. -/
theorem position_eq {id : ℕ} (hid : id < (names events).length) (isCall : Bool) :
    Complete.position (convertEntries (renumber events)) isCall id =
      eventPosition events isCall ((names events).getD id 0) := by
  have hname : (names events).getD id 0 = (names events)[id] := by
    simp [List.getD_eq_getElem?_getD, List.getElem?_eq_getElem hid]
  have hmap : ∀ es : List (Entry ι ο), Complete.position es isCall id =
      (es.map fun e => (e.value, e.id)).findIdx fun k => (k.1.isLeft, k.2) = (isCall, id) := by
    intro es
    rw [List.findIdx_map]
    rfl
  rw [hmap, map_convertEntries, List.findIdx_map, eventPosition, hname]
  refine findIdx_congr fun e he => ?_
  have hiff : (names events).idxOf e.id = id ↔ e.id = (names events)[id] := by
    constructor
    · rintro rfl
      rw [List.getElem_idxOf]
    · intro heq
      rw [heq, (nodup_names events).idxOf_getElem]
  simp only [Function.comp_apply, Prod.mk.injEq, hiff, Event.isCall]

/-- The list of entries is linearizable exactly if the history is. -/
theorem layout_linearizable_iff (h : Paired events) (model : FilledModel S ι ο) :
    h.complete.layout.Linearizable model ↔ model.EventsLinearizable events := by
  have hnames : (List.range (names events).length).map ((names events).getD · 0) =
      names events := by
    refine List.ext_getElem (by simp) fun i hi hi' => ?_
    simp [List.getD_eq_getElem?_getD, List.getElem?_eq_getElem hi']
  have hmap : Linearize.Linearizable (model.nameStep events) (ReturnedBefore events) model.init
      ((List.range (names events).length).map ((names events).getD · 0)) ↔ _ :=
    Linearize.linearizable_map _
  rw [hnames] at hmap
  refine Iff.trans ?_ hmap.symm
  refine Linearize.linearizable_congr fun a ha b hb => ?_
  rw [ReturnedBefore, ← position_eq (List.mem_range.1 ha) false,
    ← position_eq (List.mem_range.1 hb) true]
  rfl

end Paired

/-! ## Runs -/

/-- `checkEvents` when the steps are those of `turns`. -/
def checkEvents [DecidableEq S] (model : Model S ι ο) (history : List (Event ι ο)) (verbose : Bool)
    (timeout : ℤ) (turns : List Turn) : Option (Par S) :=
  let model := fillDefault model
  let l := (model.partitionEvent history).map fun subhistory => convertEntries (renumber subhistory)
  Machine.exec (Par.step model l verbose (decide (0 < timeout))) (Par.start model l) turns

section Runs

variable [Inhabited ι] [Inhabited ο]

def eventPart (events : List (Event ι ο)) (h : Paired events) : Part ι ο where
  entries := convertEntries (renumber events)
  n := (names events).length
  layout := h.complete.layout

theorem map_entries_eventPart {l : List (List (Event ι ο))} (h : ∀ events ∈ l, Paired events) :
    (l.pmap eventPart h).map Part.entries =
      l.map fun subhistory => convertEntries (renumber subhistory) := by
  rw [List.map_pmap]
  exact List.pmap_eq_map h

variable [DecidableEq S] {model : Model S ι ο} {history : List (Event ι ο)} {verbose : Bool}
  {timeout : ℤ} {turns : List Turn} {p : Par S}

/-- **Results.** However the goroutines run, a check of events is right about the parts of the
    history, and it can always come to an answer if there is a part. -/
theorem checkEvents_result_right (hequal : Layout.Congruent (fillDefault model))
    (hpaired : ∀ events ∈ (fillDefault model).partitionEvent history, Paired events)
    (hrun : checkEvents model history verbose timeout turns = some p) :
    (∀ result info, p.main = .returned result info →
      (result = .ok → ∀ events ∈ (fillDefault model).partitionEvent history,
        (fillDefault model).EventsLinearizable events) ∧
      (result = .illegal → ∃ events ∈ (fillDefault model).partitionEvent history,
        ¬ (fillDefault model).EventsLinearizable events) ∧
      (result = .unknown → 0 < timeout)) ∧
    ((fillDefault model).partitionEvent history ≠ [] → ∃ more p' result info,
      checkEvents model history verbose timeout (turns ++ more) = some p' ∧
      p'.main = .returned result info) := by
  have hrun' := hrun
  simp only [checkEvents, ← map_entries_eventPart hpaired] at hrun'
  obtain ⟨m, hinv, _⟩ := (parInv_start _ _ _ _).exec hequal hrun'
  refine ⟨fun result info hp => ?_, fun hne => ?_⟩
  · obtain ⟨hok, hillegal, hunknown⟩ := hinv.returned hp
    refine ⟨fun hresult events hevents => ?_, fun hresult => ?_, fun hresult => ?_⟩
    · rw [← (hpaired events hevents).layout_linearizable_iff]
      exact hok hresult _ (List.mem_pmap.2 ⟨events, hevents, rfl⟩)
    · obtain ⟨part, hpart, hnot⟩ := hillegal hresult
      obtain ⟨events, hevents, rfl⟩ := List.mem_pmap.1 hpart
      exact ⟨events, hevents, fun hlin =>
        hnot (((hpaired events hevents).layout_linearizable_iff _).2 hlin)⟩
    · exact of_decide_eq_true (hunknown hresult)
  · have hne' : ((fillDefault model).partitionEvent history).pmap eventPart hpaired ≠ [] :=
      fun hnil => hne (List.pmap_eq_nil_iff.1 hnil)
    obtain ⟨more, p', result, info, hmore, hp'⟩ := hinv.returns hequal (Or.inl hne')
    refine ⟨more, p', result, info, ?_, hp'⟩
    rw [map_entries_eventPart] at hmore
    simp only [checkEvents] at hrun ⊢
    rw [Machine.exec_append, hrun, Option.bind_some]
    exact hmore

/-- A put, and a read that overlaps it and sees it, with ids that are not numbers from zero on. -/
def overlappingEvents : List (Event KvInput KvOutput) :=
  [⟨0, .inl ⟨1, "k", "v"⟩, 7⟩, ⟨1, .inl ⟨0, "k", ""⟩, -3⟩, ⟨1, .inr ⟨"v"⟩, -3⟩, ⟨0, .inr ⟨""⟩, 7⟩]

theorem checkEvents_result_right_overlapping : ∃ turns p info,
    checkEvents kvModel overlappingEvents true 0 turns = some p ∧ p.main = .returned .ok info := by
  have hpaired : Paired overlappingEvents := ⟨by decide, by decide, by decide⟩
  have hparts : ∀ events ∈ (fillDefault kvModel).partitionEvent overlappingEvents,
      Paired events := by
    intro events hevents
    obtain rfl := List.mem_singleton.1 hevents
    exact hpaired
  have hlin : (fillDefault kvModel).EventsLinearizable overlappingEvents :=
    ⟨[7, -3], by decide, by decide, by decide⟩
  have hstart : checkEvents kvModel overlappingEvents true 0 [] = some
      (Par.start (fillDefault kvModel) [convertEntries (renumber overlappingEvents)]) := rfl
  obtain ⟨turns, p, result, info, hrun, hp⟩ :=
    (checkEvents_result_right congruent_kvModel hparts hstart).2 (List.cons_ne_nil _ _)
  obtain ⟨_, hillegal, hunknown⟩ :=
    (checkEvents_result_right congruent_kvModel hparts hrun).1 result info hp
  cases result with
  | ok => exact ⟨turns, p, info, hrun, hp⟩
  | unknown => exact absurd (hunknown rfl) (by decide)
  | illegal =>
      obtain ⟨events, hevents, hnot⟩ := hillegal rfl
      obtain rfl := List.mem_singleton.1 hevents
      exact absurd hlin hnot

end Runs

end Porcupine

end AiFS
