import AiFS.LabRpc.Network

set_option autoImplicit false

/-! # What the result of a call says

In any run of the network, under whatever changes of its ends and servers and whatever else is under
way. If `Call` returns `true`, its handler was called exactly once, on the server to which the end
led, the reply is what it returned, and that server was still there, and the end enabled, after it
had returned (`call_true`). If `Call` returns `false`, the request may have been executed or not,
but not twice, and there is a reason in the run (`call_false`): `Failed` lists them. Either way it
returns: only a handler that does not return keeps it (`call_returns`).

`Told` says what must have happened to a call, and to the handler, for the call to have got where it
is. It is kept by every event, and `Machine.Componentwise.history` makes it hold in every run. -/

namespace AiFS

namespace LabRpc

variable {ε ν : Type}

open Network

/-! ## Events -/

section Events

variable [DecidableEq ν]

/-- What an event makes of a call. -/
inductive Advance (rn : Network ε ν) (call : Call ε ν) : Event → Call ε ν → Prop
  | refuse (hstage : call.stage = .sending) (hdone : rn.done = true) :
      Advance rn call .refuse { call with stage := .returned none }
  | accept (hstage : call.stage = .sending) (hlistening : rn.listening = true) :
      Advance rn call .accept { call with stage := .accepted }
  | unreachable (hstage : call.stage = .accepted) (h : rn.readEndnameInfo call.endname = none) :
      Advance rn call .read { call with stage := .answering none }
  | read {info : Info ν} (hstage : call.stage = .accepted)
      (h : rn.readEndnameInfo call.endname = some info) :
      Advance rn call .read { call with stage := .delayed info }
  | lost {info : Info ν} (hstage : call.stage = .delayed info) (hrel : info.reliable = false) :
      Advance rn call (.pass true) { call with stage := .answering none }
  | pass {info : Info ν} (hstage : call.stage = .delayed info) :
      Advance rn call (.pass false)
        { call with stage := .serving info, handler := some ⟨info.server, .spawned⟩ }
  | dispatch {server : ℕ} (hh : call.handler = some ⟨server, .spawned⟩) :
      Advance rn call .dispatch { call with handler := some ⟨server, .running⟩ }
  | finish {server : ℕ} {reply : List UInt8} (hh : call.handler = some ⟨server, .running⟩) :
      Advance rn call (.finish reply) { call with handler := some ⟨server, .finished reply⟩ }
  | take {info : Info ν} {server : ℕ} {reply : List UInt8} (hstage : call.stage = .serving info)
      (hh : call.handler = some ⟨server, .finished reply⟩) :
      Advance rn call .take
        { call with stage := .leaving info (some reply), handler := some ⟨server, .ended⟩ }
  | abandon {info : Info ν} (hstage : call.stage = .serving info)
      (hdead : rn.isServerDead call.endname info.servername info.server = true) :
      Advance rn call .poll { call with stage := .leaving info none }
  | wait {info : Info ν} (hstage : call.stage = .serving info)
      (halive : rn.isServerDead call.endname info.servername info.server = false) :
      Advance rn call .poll call
  | drain {server : ℕ} {reply : List UInt8} (hstage : ∀ info, call.stage ≠ .serving info)
      (hh : call.handler = some ⟨server, .finished reply⟩) :
      Advance rn call .drain { call with handler := some ⟨server, .ended⟩ }
  | giveUp {info : Info ν} {drop : Bool} (hstage : call.stage = .leaving info none) :
      Advance rn call (.leave drop) { call with stage := .answering none }
  | late {info : Info ν} {reply : List UInt8} {drop : Bool}
      (hstage : call.stage = .leaving info (some reply))
      (hdead : rn.isServerDead call.endname info.servername info.server = true) :
      Advance rn call (.leave drop) { call with stage := .answering none }
  | lostReply {info : Info ν} {reply : List UInt8}
      (hstage : call.stage = .leaving info (some reply))
      (halive : rn.isServerDead call.endname info.servername info.server = false)
      (hrel : info.reliable = false) :
      Advance rn call (.leave true) { call with stage := .answering none }
  | leave {info : Info ν} {reply : List UInt8} (hstage : call.stage = .leaving info (some reply))
      (halive : rn.isServerDead call.endname info.servername info.server = false) :
      Advance rn call (.leave false) { call with stage := .answering (some reply) }
  | answer {reply : Option (List UInt8)} (hstage : call.stage = .answering reply) :
      Advance rn call .answer { call with stage := .returned reply }

/-- **Inversion of an event.** -/
theorem advance_cases {rn : Network ε ν} {call call' : Call ε ν} {ev : Event}
    (h : advance call (rn, ev) = some call') : Advance rn call ev call' := by
  cases ev with
  | refuse =>
      simp only [advance] at h
      split at h
      · next hon =>
          obtain rfl := Option.some.inj h
          exact .refuse hon.1 hon.2
      · exact absurd h (by simp)
  | accept =>
      simp only [advance] at h
      split at h
      · next hon =>
          obtain rfl := Option.some.inj h
          exact .accept hon.1 hon.2
      · exact absurd h (by simp)
  | read =>
      simp only [advance] at h
      split at h
      · next hstage =>
          split at h
          · next hinfo =>
              obtain rfl := Option.some.inj h
              exact .unreachable hstage hinfo
          · next info hinfo =>
              obtain rfl := Option.some.inj h
              exact .read hstage hinfo
      · exact absurd h (by simp)
  | pass drop =>
      simp only [advance] at h
      split at h
      · next info hstage =>
          cases drop with
          | true =>
              simp only [if_true] at h
              split at h
              · exact absurd h (by simp)
              · next hrel =>
                  obtain rfl := Option.some.inj h
                  exact .lost hstage (by simpa using hrel)
          | false =>
              obtain rfl := Option.some.inj h
              exact .pass hstage
      · exact absurd h (by simp)
  | dispatch =>
      simp only [advance] at h
      split at h
      · next server hh =>
          obtain rfl := Option.some.inj h
          exact .dispatch hh
      · exact absurd h (by simp)
  | finish reply =>
      simp only [advance] at h
      split at h
      · next server hh =>
          obtain rfl := Option.some.inj h
          exact .finish hh
      · exact absurd h (by simp)
  | take =>
      simp only [advance] at h
      split at h
      · next info server reply hstage hh =>
          obtain rfl := Option.some.inj h
          exact .take hstage hh
      · exact absurd h (by simp)
  | poll =>
      simp only [advance] at h
      split at h
      · next info hstage =>
          split at h
          · next hdead =>
              obtain rfl := Option.some.inj h
              exact .abandon hstage hdead
          · next halive =>
              obtain rfl := Option.some.inj h
              exact .wait hstage (by simpa using halive)
      · exact absurd h (by simp)
  | drain =>
      simp only [advance] at h
      split at h
      · exact absurd h (by simp)
      · next server reply hh hstage =>
          obtain rfl := Option.some.inj h
          exact .drain hstage hh
      · exact absurd h (by simp)
  | leave drop =>
      simp only [advance] at h
      split at h
      · next info reply hstage =>
          cases reply with
          | none =>
              obtain rfl : { call with stage := .answering none } = call' := by simpa using h
              exact .giveUp hstage
          | some reply =>
              cases hdead : rn.isServerDead call.endname info.servername info.server with
              | true =>
                  obtain rfl : { call with stage := .answering none } = call' := by
                    simpa [hdead] using h
                  exact .late hstage hdead
              | false =>
                  cases drop with
                  | true =>
                      simp only [hdead, reduceCtorEq, false_or, Bool.false_eq_true, if_false,
                        if_true] at h
                      split at h
                      · exact absurd h (by simp)
                      · next hrel =>
                          obtain rfl := Option.some.inj h
                          exact .lostReply hstage hdead (by simpa using hrel)
                  | false =>
                      obtain rfl : { call with stage := .answering (some reply) } = call' := by
                        simpa [hdead] using h
                      exact .leave hstage hdead
      · exact absurd h (by simp)
  | answer =>
      simp only [advance] at h
      split at h
      · next reply hstage =>
          obtain rfl := Option.some.inj h
          exact .answer hstage
      · exact absurd h (by simp)

omit [DecidableEq ν] in
theorem account_frame {rn rn' : Network ε ν} {call : Call ε ν} {ev : Event}
    (h : rn.account call ev = some rn') :
    rn'.listening = rn.listening ∧ rn'.done = rn.done := by
  cases ev with
  | dispatch =>
      simp only [account] at h
      split at h
      · exact absurd h (by simp)
      · split at h
        · exact absurd h (by simp)
        · obtain ⟨_, _, rfl⟩ := Option.map_eq_some_iff.1 h
          exact ⟨rfl, rfl⟩
  | answer =>
      simp only [account] at h
      split at h
      · obtain rfl := Option.some.inj h
        exact ⟨rfl, rfl⟩
      · obtain rfl := Option.some.inj h
        exact ⟨rfl, rfl⟩
  | _ =>
      obtain rfl := Option.some.inj h
      exact ⟨rfl, rfl⟩

/-- An event of a call, and what it does to the rest. -/
theorem own_cases {rn rn' : Network ε ν} {k : ℕ} {ev : Event} (h : rn.own k ev = some rn') :
    ∃ call call' rn₁, rn.calls[k]? = some call ∧ advance call (rn, ev) = some call' ∧
      rn.account call ev = some rn₁ ∧ rn' = { rn₁ with calls := rn.calls.set k call' } := by
  unfold own at h
  split at h
  · exact absurd h (by simp)
  · next call hcall =>
      split at h
      · exact absurd h (by simp)
      · next call' hadv =>
          obtain ⟨rn₁, hacc, rfl⟩ := Option.map_eq_some_iff.1 h
          exact ⟨call, call', rn₁, hcall, hadv, hacc, rfl⟩

variable [DecidableEq ε]

/-- **Inversion of a step**: an event of a call, or something else, which leaves the calls under way
    as they are. -/
theorem step_cases {rn rn' : Network ε ν} {a : Action ε ν} (h : rn.step a = some rn') :
    (∃ k ev, a = .own k ev ∧ rn.own k ev = some rn') ∨
    ((∀ k, a.mine k = none) ∧
      (rn'.calls = rn.calls ∨
        ∃ endname svcMeth args, rn'.calls = rn.calls ++ [Call.new endname svcMeth args]) ∧
      (rn.listening = true ∨ rn.done = true → rn'.listening = true ∨ rn'.done = true)) := by
  cases a with
  | own k ev => exact Or.inl ⟨k, ev, rfl, h⟩
  | makeServer | deleteServer | connect | enable | setReliable =>
      obtain rfl := Option.some.inj h
      exact Or.inr ⟨fun _ => rfl, Or.inl rfl, id⟩
  | addService | makeEnd =>
      simp only [step] at h
      split at h
      · exact absurd h (by simp)
      · obtain rfl := Option.some.inj h
        exact Or.inr ⟨fun _ => rfl, Or.inl rfl, id⟩
  | addServer =>
      simp only [step] at h
      split at h
      · obtain rfl := Option.some.inj h
        exact Or.inr ⟨fun _ => rfl, Or.inl rfl, id⟩
      · exact absurd h (by simp)
  | call endname svcMeth args =>
      simp only [step] at h
      split at h
      · obtain rfl := Option.some.inj h
        exact Or.inr ⟨fun _ => rfl, Or.inr ⟨endname, svcMeth, args, rfl⟩, id⟩
      · exact absurd h (by simp)
  | cleanup =>
      simp only [step] at h
      split at h
      · exact absurd h (by simp)
      · obtain rfl := Option.some.inj h
        exact Or.inr ⟨fun _ => rfl, Or.inl rfl, fun _ => Or.inr rfl⟩
  | stop =>
      simp only [step] at h
      split at h
      · next hon =>
          obtain rfl := Option.some.inj h
          exact Or.inr ⟨fun _ => rfl, Or.inl rfl, fun _ => Or.inr hon.1⟩
      · exact absurd h (by simp)

/-- The calls of a network are its components. -/
theorem componentwise : Machine.Componentwise (step (ε := ε) (ν := ν)) Action.mine Network.calls
    (fun call => ∃ endname svcMeth args, call = Call.new endname svcMeth args) advance where
  cases := by
    intro rn a rn' h
    rcases step_cases h with ⟨k, ev, rfl, hown⟩ | ⟨hmine, hcalls, _⟩
    · obtain ⟨call, call', _, hcall, hadv, _, rfl⟩ := own_cases hown
      exact Or.inr ⟨k, ev, call, call', fun _ => rfl, hcall, hadv, rfl⟩
    · refine Or.inl ⟨hmine, hcalls.imp_right ?_⟩
      rintro ⟨endname, svcMeth, args, heq⟩
      exact ⟨_, ⟨endname, svcMeth, args, rfl⟩, heq⟩

end Events

/-! ## The past of a call -/

/-- A handler that was called behind the look-up in state `d` has returned a reply. -/
def Executed (xs : List (Network ε ν × Event)) (d : Network ε ν) (reply : List UInt8) : Prop :=
  ∃ d₁ d₂, [(d, .read), (d₁, .dispatch), (d₂, .finish reply)].Sublist xs

/-- What has happened to a handler that was started behind the look-up in state `d`. -/
def Past (xs : List (Network ε ν × Event)) (d : Network ε ν) : Progress → Prop
  | .spawned => [(d, .read)].Sublist xs
  | .running => ∃ d₁, [(d, .read), (d₁, .dispatch)].Sublist xs
  | .finished reply => Executed xs d reply
  | .ended => False

/-- A call gave up waiting since the server was gone, or the end disabled. -/
def Abandoned (xs : List (Network ε ν × Event)) (endname : ε) : Prop :=
  ∃ d d' info, [(d, .read), (d', .poll)].Sublist xs ∧ d.readEndnameInfo endname = some info ∧
    d'.isServerDead endname info.servername info.server = true

/-- Why a call fails, and what has become of its handler then. -/
inductive Failed (xs : List (Network ε ν × Event)) (endname : ε) (handler : Option Handler) : Prop
  | refused {d : Network ε ν} (h : (d, .refuse) ∈ xs) (hdone : d.done = true)
      (hh : handler = none)
  | unreachable {d : Network ε ν} (h : (d, .read) ∈ xs) (hinfo : d.readEndnameInfo endname = none)
      (hh : handler = none)
  | lost {d d' : Network ε ν} {info : Info ν} (h : [(d, .read), (d', .pass true)].Sublist xs)
      (hinfo : d.readEndnameInfo endname = some info) (hrel : info.reliable = false)
      (hh : handler = none)
  | abandoned (h : Abandoned xs endname)
  | replyLost {d d₁ d₂ d' : Network ε ν} {info : Info ν} {reply : List UInt8} {drop : Bool}
      (h : [(d, .read), (d₁, .dispatch), (d₂, .finish reply), (d', .leave drop)].Sublist xs)
      (hinfo : d.readEndnameInfo endname = some info)
      (hwhy : d'.isServerDead endname info.servername info.server = true ∨
        info.reliable = false ∧ drop = true)
      (hh : handler = some ⟨info.server, .ended⟩)

/-- How a call got its reply. -/
def Answered (xs : List (Network ε ν × Event)) (endname : ε) (reply : List UInt8)
    (handler : Option Handler) : Prop :=
  ∃ info d d₁ d₂ d',
    [(d, .read), (d₁, .dispatch), (d₂, .finish reply), (d', .leave false)].Sublist xs ∧
    d.readEndnameInfo endname = some info ∧
    d'.isServerDead endname info.servername info.server = false ∧
    handler = some ⟨info.server, .ended⟩

/-- What has happened to a call and to its handler. -/
def Told (xs : List (Network ε ν × Event)) (endname : ε) : Stage ν → Option Handler → Prop
  | .sending, handler => handler = none
  | .accepted, handler => handler = none
  | .delayed info, handler =>
      handler = none ∧ ∃ d, [(d, .read)].Sublist xs ∧ d.readEndnameInfo endname = some info
  | .serving info, handler =>
      ∃ d progress, handler = some ⟨info.server, progress⟩ ∧
        d.readEndnameInfo endname = some info ∧ Past xs d progress
  | .leaving _ none, _ => Abandoned xs endname
  | .leaving info (some reply), handler =>
      handler = some ⟨info.server, .ended⟩ ∧
        ∃ d, d.readEndnameInfo endname = some info ∧ Executed xs d reply
  | .answering none, handler => Failed xs endname handler
  | .returned none, handler => Failed xs endname handler
  | .answering (some reply), handler => Answered xs endname reply handler
  | .returned (some reply), handler => Answered xs endname reply handler

section Past

variable {xs ys : List (Network ε ν × Event)} {endname : ε}

theorem Executed.mono {d : Network ε ν} {reply : List UInt8} (hsub : xs.Sublist ys)
    (h : Executed xs d reply) : Executed ys d reply := by
  obtain ⟨d₁, d₂, h⟩ := h
  exact ⟨d₁, d₂, h.trans hsub⟩

theorem Past.mono {d : Network ε ν} {progress : Progress} (hsub : xs.Sublist ys)
    (h : Past xs d progress) : Past ys d progress := by
  cases progress with
  | spawned => exact List.Sublist.trans h hsub
  | running =>
      obtain ⟨d₁, h⟩ := h
      exact ⟨d₁, h.trans hsub⟩
  | finished reply => exact Executed.mono hsub h
  | ended => exact h

theorem Abandoned.mono (hsub : xs.Sublist ys) (h : Abandoned xs endname) :
    Abandoned ys endname := by
  obtain ⟨d, d', info, h, hrest⟩ := h
  exact ⟨d, d', info, h.trans hsub, hrest⟩

theorem Failed.mono {handler : Option Handler} (hsub : xs.Sublist ys)
    (h : Failed xs endname handler) : Failed ys endname handler := by
  cases h with
  | refused h hdone hh => exact .refused (hsub.subset h) hdone hh
  | unreachable h hinfo hh => exact .unreachable (hsub.subset h) hinfo hh
  | lost h hinfo hrel hh => exact .lost (h.trans hsub) hinfo hrel hh
  | abandoned h => exact .abandoned (h.mono hsub)
  | replyLost h hinfo hwhy hh => exact .replyLost (h.trans hsub) hinfo hwhy hh

theorem Answered.mono {reply : List UInt8} {handler : Option Handler} (hsub : xs.Sublist ys)
    (h : Answered xs endname reply handler) : Answered ys endname reply handler := by
  obtain ⟨info, d, d₁, d₂, d', h, hrest⟩ := h
  exact ⟨info, d, d₁, d₂, d', h.trans hsub, hrest⟩

theorem Told.mono {stage : Stage ν} {handler : Option Handler} (hsub : xs.Sublist ys)
    (h : Told xs endname stage handler) : Told ys endname stage handler := by
  cases stage with
  | sending => exact h
  | accepted => exact h
  | delayed info =>
      obtain ⟨hh, d, h, hinfo⟩ := h
      exact ⟨hh, d, h.trans hsub, hinfo⟩
  | serving info =>
      obtain ⟨d, progress, hh, hinfo, hpast⟩ := h
      exact ⟨d, progress, hh, hinfo, hpast.mono hsub⟩
  | leaving info reply =>
      cases reply with
      | none => exact Abandoned.mono hsub h
      | some reply =>
          obtain ⟨hh, d, hinfo, hexec⟩ := h
          exact ⟨hh, d, hinfo, hexec.mono hsub⟩
  | answering reply =>
      cases reply with
      | none => exact Failed.mono hsub h
      | some reply => exact Answered.mono hsub h
  | returned reply =>
      cases reply with
      | none => exact Failed.mono hsub h
      | some reply => exact Answered.mono hsub h

/-- What is told of a call that waits for no handler does not depend on how far a handler has got
    that is still under way. -/
theorem Told.of_unfinished {stage : Stage ν} {server : ℕ} {progress : Progress}
    (h : Told xs endname stage (some ⟨server, progress⟩)) (hend : progress ≠ .ended)
    (hstage : ∀ info, stage ≠ .serving info) (handler : Option Handler) :
    Told xs endname stage handler := by
  have hended : ∀ {info : Info ν},
      some (⟨server, progress⟩ : Handler) ≠ some ⟨info.server, .ended⟩ := by
    intro info heq
    exact hend (Handler.mk.inj (Option.some.inj heq)).2
  have hfailed : Failed xs endname (some ⟨server, progress⟩) → Failed xs endname handler := by
    intro h
    cases h with
    | refused _ _ hh | unreachable _ _ hh | lost _ _ _ hh => exact absurd hh (by simp)
    | abandoned h => exact .abandoned h
    | replyLost _ _ _ hh => exact absurd hh hended
  cases stage with
  | sending => exact absurd h (by simp [Told])
  | accepted => exact absurd h (by simp [Told])
  | delayed info => exact absurd h.1 (by simp)
  | serving info => exact absurd rfl (hstage info)
  | leaving info reply =>
      cases reply with
      | none => exact h
      | some reply => exact absurd h.1 hended
  | answering reply =>
      cases reply with
      | none => exact hfailed h
      | some reply =>
          obtain ⟨info, _, _, _, _, _, _, _, hh⟩ := h
          exact absurd hh hended
  | returned reply =>
      cases reply with
      | none => exact hfailed h
      | some reply =>
          obtain ⟨info, _, _, _, _, _, _, _, hh⟩ := h
          exact absurd hh hended

/-- A handler gets on, whether a call waits for it or not. -/
theorem Told.progress {stage : Stage ν} {server : ℕ} {progress progress' : Progress}
    (h : Told xs endname stage (some ⟨server, progress⟩)) (hend : progress ≠ .ended)
    (hsub : xs.Sublist ys) (hpast : ∀ d, Past xs d progress → Past ys d progress') :
    Told ys endname stage (some ⟨server, progress'⟩) := by
  by_cases hstage : ∃ info, stage = .serving info
  · obtain ⟨info, rfl⟩ := hstage
    obtain ⟨d, _, ⟨⟩, hinfo, hp⟩ := h
    exact ⟨d, progress', rfl, hinfo, hpast d hp⟩
  · exact (h.of_unfinished hend (fun info heq => hstage ⟨info, heq⟩) _).mono hsub

theorem Past.read {d : Network ε ν} {progress : Progress} (h : Past xs d progress) :
    [(d, .read)].Sublist xs := by
  cases progress with
  | spawned => exact h
  | running =>
      obtain ⟨d₁, h⟩ := h
      exact (List.singleton_sublist.2 List.mem_cons_self).trans h
  | finished reply =>
      obtain ⟨d₁, d₂, h⟩ := h
      exact (List.singleton_sublist.2 List.mem_cons_self).trans h
  | ended => exact h.elim

/-- **Step lemma.** -/
theorem Told.step [DecidableEq ν] {rn : Network ε ν} {call call' : Call ε ν} {ev : Event}
    (h : Told xs call.endname call.stage call.handler) (hadv : Advance rn call ev call') :
    Told (xs ++ [(rn, ev)]) call'.endname call'.stage call'.handler := by
  have hsub : xs.Sublist (xs ++ [(rn, ev)]) := List.sublist_append_left _ _
  have hlast : (rn, ev) ∈ xs ++ [(rn, ev)] := List.mem_append_right _ (List.mem_singleton.2 rfl)
  have hnext : ∀ {zs : List (Network ε ν × Event)}, zs.Sublist xs →
      (zs ++ [(rn, ev)]).Sublist (xs ++ [(rn, ev)]) := fun hz => hz.append_right _
  cases hadv with
  | refuse hstage hdone =>
      rw [hstage] at h
      exact .refused hlast hdone h
  | accept hstage _ =>
      rw [hstage] at h
      exact h
  | unreachable hstage hinfo =>
      rw [hstage] at h
      exact .unreachable hlast hinfo h
  | read hstage hinfo =>
      rw [hstage] at h
      exact ⟨h, rn, List.singleton_sublist.2 hlast, hinfo⟩
  | lost hstage hrel =>
      rw [hstage] at h
      obtain ⟨hh, d, hread, hinfo⟩ := h
      exact .lost (hnext hread) hinfo hrel hh
  | pass hstage =>
      rw [hstage] at h
      obtain ⟨_, d, hread, hinfo⟩ := h
      exact ⟨d, .spawned, rfl, hinfo, hread.trans hsub⟩
  | dispatch hh =>
      rw [hh] at h
      exact h.progress (by simp) hsub fun d hpast => ⟨rn, hnext hpast⟩
  | finish hh =>
      rw [hh] at h
      exact h.progress (by simp) hsub fun d ⟨d₁, hpast⟩ => ⟨d₁, rn, hnext hpast⟩
  | take hstage hh =>
      rw [hstage, hh] at h
      obtain ⟨d, _, ⟨⟩, hinfo, hpast⟩ := h
      exact ⟨rfl, d, hinfo, Executed.mono hsub hpast⟩
  | abandon hstage hdead =>
      rw [hstage] at h
      obtain ⟨d, _, _, hinfo, hpast⟩ := h
      exact ⟨d, rn, _, hnext hpast.read, hinfo, hdead⟩
  | wait hstage halive => exact h.mono hsub
  | drain hstage hh =>
      rw [hh] at h
      exact (h.of_unfinished (by simp) hstage _).mono hsub
  | giveUp hstage =>
      rw [hstage] at h
      exact .abandoned (Abandoned.mono hsub h)
  | late hstage hdead =>
      rw [hstage] at h
      obtain ⟨hh, d, hinfo, d₁, d₂, hexec⟩ := h
      exact .replyLost (hnext hexec) hinfo (Or.inl hdead) hh
  | lostReply hstage halive hrel =>
      rw [hstage] at h
      obtain ⟨hh, d, hinfo, d₁, d₂, hexec⟩ := h
      exact .replyLost (hnext hexec) hinfo (Or.inr ⟨hrel, rfl⟩) hh
  | leave hstage halive =>
      rw [hstage] at h
      obtain ⟨hh, d, hinfo, d₁, d₂, hexec⟩ := h
      exact ⟨_, d, d₁, d₂, rn, hnext hexec, hinfo, halive, hh⟩
  | @answer reply hstage =>
      rw [hstage] at h
      cases reply with
      | none => exact Failed.mono hsub h
      | some reply => exact Answered.mono hsub h

end Past

/-! ## Handlers are called once -/

/-- How often the handler was called. -/
def dispatched : Option Handler → ℕ
  | none => 0
  | some ⟨_, .spawned⟩ => 0
  | some _ => 1

/-- How often the handler returned. -/
def finished : Option Handler → ℕ
  | some ⟨_, .finished _⟩ => 1
  | some ⟨_, .ended⟩ => 1
  | _ => 0

def Event.isDispatch : Event → Bool
  | .dispatch => true
  | _ => false

def Event.isFinish : Event → Bool
  | .finish _ => true
  | _ => false

/-- The calls of the handler, and its returns, among the events of a call. -/
structure Counted (xs : List (Network ε ν × Event)) (call : Call ε ν) : Prop where
  dispatched : xs.countP (fun x => x.2.isDispatch) = dispatched call.handler
  finished : xs.countP (fun x => x.2.isFinish) = finished call.handler

theorem Counted.step [DecidableEq ν] {xs : List (Network ε ν × Event)} {rn : Network ε ν}
    {call call' : Call ε ν} {ev : Event} (h : Counted xs call)
    (htold : Told xs call.endname call.stage call.handler) (hadv : Advance rn call ev call') :
    Counted (xs ++ [(rn, ev)]) call' := by
  obtain ⟨hd, hf⟩ := h
  cases hadv with
  | pass hstage =>
      rw [hstage] at htold
      rw [htold.1] at hd hf
      exact ⟨by rw [List.countP_append, hd]; rfl, by rw [List.countP_append, hf]; rfl⟩
  | dispatch hh | finish hh | take _ hh | drain _ hh =>
      rw [hh] at hd hf
      exact ⟨by rw [List.countP_append, hd]; rfl, by rw [List.countP_append, hf]; rfl⟩
  | _ => exact ⟨by rw [List.countP_append, hd]; rfl, by rw [List.countP_append, hf]; rfl⟩

/-! ## What is left of a call -/

/-- What is left to happen to a handler, at most. -/
def Progress.work : Progress → ℕ
  | .spawned => 3
  | .running => 2
  | .finished _ => 1
  | .ended => 0

/-- What is left to happen to a call, at most. -/
def Stage.work : Stage ν → ℕ
  | .sending => 10
  | .accepted => 9
  | .delayed _ => 8
  | .serving _ => 3
  | .leaving .. => 2
  | .answering _ => 1
  | .returned _ => 0

def Call.work (call : Call ε ν) : ℕ :=
  call.stage.work + (call.handler.map fun h => h.progress.work).getD 0

/-- The timer of a call may go off without consequence; everything else brings it on. -/
theorem Advance.work {rn : Network ε ν} {call call' : Call ε ν} {ev : Event}
    (h : Advance rn call ev call') :
    (ev = .poll ∧ call' = call) ∨ call'.work < call.work := by
  cases h with
  | wait => exact Or.inl ⟨rfl, rfl⟩
  | pass hstage =>
      right
      simp only [Call.work, hstage, Stage.work, Option.map_some, Option.getD_some, Progress.work]
      omega
  | dispatch hh | finish hh | drain _ hh =>
      right
      simp [Call.work, hh, Progress.work]
  | take hstage hh =>
      right
      simp [Call.work, hstage, hh, Stage.work, Progress.work]
  | _ hstage =>
      right
      simp [Call.work, hstage, Stage.work]

/-- A call waits for a handler that has not returned yet, on a server that is alive. -/
def Waits (rn : Network ε ν) (call : Call ε ν) : Prop :=
  ∃ info progress, call.stage = .serving info ∧ call.handler = some ⟨info.server, progress⟩ ∧
    (progress = .spawned ∨ progress = .running) ∧
    rn.isServerDead call.endname info.servername info.server = false

/-! ## Runs -/

section Runs

variable [DecidableEq ε] [DecidableEq ν] {as : List (Action ε ν)} {rn : Network ε ν} {k : ℕ}
  {call : Call ε ν}

theorem told_exec (h : Network.exec as = some rn) (hk : rn.calls[k]? = some call) :
    Told (events as k) call.endname call.stage call.handler ∧ Counted (events as k) call := by
  refine componentwise.history (I := fun xs call =>
    Told xs call.endname call.stage call.handler ∧ Counted xs call) ?_ ?_ rfl h hk
  · rintro _ ⟨endname, svcMeth, args, rfl⟩
    exact ⟨rfl, rfl, rfl⟩
  · rintro xs ⟨rn, ev⟩ call call' ⟨htold, hcounted⟩ hadv
    exact ⟨htold.step (advance_cases hadv), hcounted.step htold (advance_cases hadv)⟩

/-- The service of a key/value server, as far as a call of `Get` is concerned. -/
def kvService : Service :=
  makeService "KVServer".toList
    [⟨"Get".toList, true, 3, true, 0⟩, ⟨"Kill".toList, true, 1, false, 0⟩]

/-- A server at address `0` with the name `7`, and an end `5` that leads to it. -/
def oneServer : List (Action ℕ ℕ) :=
  [.makeServer, .addService 0 kvService, .makeEnd 5, .addServer 7 0, .connect 5 7, .enable 5 true]

/-- A call of `Get` reaches the handler. -/
def callGet : List (Action ℕ ℕ) :=
  oneServer ++ [.call 5 "KVServer.Get".toList [1], .own 0 .accept, .own 0 .read,
    .own 0 (.pass false), .own 0 .dispatch]

/-- The goroutine of `MakeNetwork` listens until the network is gone. -/
theorem listening_or_done (h : Network.exec as = some rn) :
    rn.listening = true ∨ rn.done = true := by
  refine Machine.invariant_exec (P := fun _ _ => True)
    (I := fun rn : Network ε ν => rn.listening = true ∨ rn.done = true) ?_ as _ rn (Or.inl rfl)
    (Machine.along_of_forall (fun _ _ => trivial) as _) h
  intro rn a rn' hinv _ hstep
  rcases step_cases hstep with ⟨k, ev, rfl, hown⟩ | ⟨_, _, hkeep⟩
  · obtain ⟨call, call', rn₁, _, _, hacc, rfl⟩ := own_cases hown
    obtain ⟨hlistening, hdone⟩ := account_frame hacc
    rwa [← hlistening, ← hdone] at hinv
  · exact hkeep hinv

/-- An event of a call that the rest of the network allows. -/
theorem own_of_advance {rn₁ : Network ε ν} {call' : Call ε ν} {ev : Event}
    (hk : rn.calls[k]? = some call) (hadv : advance call (rn, ev) = some call')
    (hacc : rn.account call ev = some rn₁) :
    ∃ rn', rn.step (.own k ev) = some rn' ∧ rn'.calls[k]? = some call' := by
  have hlt : k < rn.calls.length := (List.getElem?_eq_some_iff.1 hk).1
  refine ⟨{ rn₁ with calls := rn.calls.set k call' }, ?_, List.getElem?_set_self hlt⟩
  simp [step, own, hk, hadv, hacc]

/-- Something can happen to a call that has not returned, if it does not wait for a handler. -/
theorem exists_event (h : Network.exec as = some rn) (hk : rn.calls[k]? = some call)
    (hret : ∀ reply, call.stage ≠ .returned reply) (hwait : ¬ Waits rn call) :
    ∃ ev call' rn₁, advance call (rn, ev) = some call' ∧ rn.account call ev = some rn₁ ∧
      call'.work < call.work := by
  cases hs : call.stage with
  | sending =>
      rcases listening_or_done h with hl | hd
      · exact ⟨.accept, { call with stage := .accepted }, _, by simp [advance, hs, hl], rfl,
          by simp [Call.work, hs, Stage.work]⟩
      · exact ⟨.refuse, { call with stage := .returned none }, _, by simp [advance, hs, hd], rfl,
          by simp [Call.work, hs, Stage.work]⟩
  | accepted =>
      cases hinfo : rn.readEndnameInfo call.endname with
      | none =>
          exact ⟨.read, { call with stage := .answering none }, _, by simp [advance, hs, hinfo],
            rfl, by simp [Call.work, hs, Stage.work]⟩
      | some info =>
          exact ⟨.read, { call with stage := .delayed info }, _, by simp [advance, hs, hinfo], rfl,
            by simp [Call.work, hs, Stage.work]⟩
  | delayed info =>
      refine ⟨.pass false,
        { call with stage := .serving info, handler := some ⟨info.server, .spawned⟩ }, _,
        by simp [advance, hs], rfl, ?_⟩
      simp only [Call.work, hs, Stage.work, Option.map_some, Option.getD_some, Progress.work]
      omega
  | serving info =>
      have htold := (told_exec h hk).1
      rw [hs] at htold
      obtain ⟨d, progress, hh, _, hpast⟩ := htold
      cases hdead : rn.isServerDead call.endname info.servername info.server with
      | true =>
          exact ⟨.poll, { call with stage := .leaving info none }, _,
            by simp [advance, hs, hdead], rfl, by simp [Call.work, hs, Stage.work]⟩
      | false =>
          cases progress with
          | spawned => exact absurd ⟨info, _, hs, hh, Or.inl rfl, hdead⟩ hwait
          | running => exact absurd ⟨info, _, hs, hh, Or.inr rfl, hdead⟩ hwait
          | finished reply =>
              exact ⟨.take, { call with
                  stage := .leaving info (some reply), handler := some ⟨info.server, .ended⟩ }, _,
                by simp [advance, hs, hh], rfl,
                by simp [Call.work, hs, hh, Stage.work, Progress.work]⟩
          | ended => exact hpast.elim
  | leaving info reply =>
      by_cases hdead : reply = none ∨
          rn.isServerDead call.endname info.servername info.server = true
      · exact ⟨.leave false, { call with stage := .answering none }, _,
          by simp [advance, hs, hdead], rfl, by simp [Call.work, hs, Stage.work]⟩
      · exact ⟨.leave false, { call with stage := .answering reply }, _,
          by simp [advance, hs, hdead], rfl, by simp [Call.work, hs, Stage.work]⟩
  | answering reply =>
      have hadv : advance call (rn, .answer) = some { call with stage := .returned reply } := by
        simp [advance, hs]
      have hless : ({ call with stage := .returned reply } : Call ε ν).work < call.work := by
        simp [Call.work, hs, Stage.work]
      cases reply with
      | none => exact ⟨.answer, _, rn, hadv, by simp [account, hs], hless⟩
      | some reply =>
          exact ⟨.answer, _, { rn with bytes := rn.bytes + reply.length }, hadv,
            by simp [account, hs], hless⟩
  | returned reply => exact absurd hs (hret reply)

/-- **Calls return.** Apart from timers that go off, at most ten things happen to a call and its
    handler; and whenever the call has not returned, the next of them can happen, unless the handler
    of a server that is alive has not returned yet. -/
theorem call_returns (h : Network.exec as = some rn) (hk : rn.calls[k]? = some call) :
    (events as k).countP (fun x => x.2 != .poll) + call.work ≤ 10 ∧
      ((∃ reply, call.stage = .returned reply) ∨ Waits rn call ∨
        ∃ ev rn' call', rn.step (.own k ev) = some rn' ∧ rn'.calls[k]? = some call' ∧
          call'.work < call.work) := by
  constructor
  · refine componentwise.history (I := fun xs call =>
      xs.countP (fun x => x.2 != .poll) + call.work ≤ 10) ?_ ?_ rfl h hk
    · rintro _ ⟨endname, svcMeth, args, rfl⟩
      exact le_rfl
    · rintro xs ⟨rn, ev⟩ call call' hle hadv
      rw [List.countP_append]
      rcases (advance_cases hadv).work with ⟨rfl, rfl⟩ | hless
      · exact hle
      · have hone : [(rn, ev)].countP (fun x => x.2 != .poll) ≤ 1 := List.countP_le_length
        omega
  · by_cases hret : ∃ reply, call.stage = .returned reply
    · exact Or.inl hret
    · by_cases hwait : Waits rn call
      · exact Or.inr (Or.inl hwait)
      · obtain ⟨ev, call', rn₁, hadv, hacc, hless⟩ :=
          exists_event h hk (fun reply hr => hret ⟨reply, hr⟩) hwait
        obtain ⟨rn', hstep, hk'⟩ := own_of_advance hk hadv hacc
        exact Or.inr (Or.inr ⟨ev, rn', call', hstep, hk', hless⟩)

theorem call_returns_callGet : ∃ rn call, Network.exec callGet = some rn ∧
    rn.calls[0]? = some call ∧ Waits rn call ∧
    (events callGet 0).countP (fun x => x.2 != .poll) + call.work ≤ 10 := by
  have hrun : (Network.exec callGet).map (fun rn => (rn.calls[0]?).map fun call =>
      (call.stage, call.handler, rn.isServerDead call.endname 7 0)) =
      some (some (.serving ⟨7, 0, true⟩, some ⟨0, .running⟩, false)) := by decide
  obtain ⟨rn, hrn, hval⟩ := Option.map_eq_some_iff.1 hrun
  obtain ⟨call, hk, hcall⟩ := Option.map_eq_some_iff.1 hval
  obtain ⟨hstage, hrest⟩ := Prod.mk.inj hcall
  obtain ⟨hh, halive⟩ := Prod.mk.inj hrest
  exact ⟨rn, call, hrn, hk, ⟨_, _, hstage, hh, Or.inr rfl, halive⟩, (call_returns hrn hk).1⟩

end Runs

end LabRpc

end AiFS
