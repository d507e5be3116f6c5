import AiFS.KV.Http
import AiFS.KV.Waiters

set_option autoImplicit false

/-! # The servers and their users

Raft, the appliers and the handlers of `Waiters.lean` with what is in front of them: `ServeHTTP` of
`kvraft/http.go`, which numbers requests without an identity and calls a handler, and labrpc, which
calls a handler with the arguments of a request. `Kill` sets a flag that the handlers look at when
they are called; a restart is a new object, whose counter of requests starts at zero again.

Two fields are history that no function reads: whether the request of a handler came without an
identity, and how far the furthest server has ever got in the log. -/

namespace AiFS

namespace KV

variable {n : ℕ}

structure Servers (n : ℕ) where
  waiters : Waiters n
  httpSeq : Fin n → ℕ
  dead : Fin n → Bool
  anonymous : ℕ → Bool
  applied : ℕ

/-- What can happen next: a request comes in over HTTP or labrpc, a killed server sends a handler
    away, a server is killed, or something happens to the handlers or below them. -/
inductive Event (n : ℕ)
  | post (s : Fin n) (incoming : Incoming)
  | rpc (s : Fin n) (op : Op)
  | refuse (h : ℕ)
  | kill (s : Fin n)
  | happens (ev : Happening n)

namespace Servers

variable (codec : Codec)

def init (n : ℕ) : Servers n where
  waiters := Waiters.init codec n
  httpSeq := fun _ => 0
  dead := fun _ => false
  anonymous := fun _ => false
  applied := 0

/-- The two maps of a server. -/
def state (w : Servers n) (s : Fin n) : State :=
  (w.waiters.replicas.replica s).kv.state

/-- A handler is called. -/
def call (w : Servers n) (s : Fin n) (op : Op) (anonymous : Bool) : Servers n :=
  { w with
    waiters :=
      { w.waiters with handlers := w.waiters.handlers ++ [⟨s, op, 0, 0, none, .entered⟩] }
    anonymous := Function.update w.anonymous w.waiters.handlers.length anonymous }

/-- `ServeHTTP`. -/
def post (w : Servers n) (s : Fin n) (incoming : Incoming) : Servers n :=
  let w' : Servers n :=
    { w with
      httpSeq := Function.update w.httpSeq s
        (if incoming.takesSeq then w.httpSeq s + 1 else w.httpSeq s) }
  match serveHTTP (w.httpSeq s + 1) incoming with
  | .inl _ => w'
  | .inr op => w'.call s op incoming.takesSeq

/-- A new object of a server. -/
def reset (w : Servers n) : Option (Fin n) → Servers n
  | none => w
  | some s =>
      { w with
        httpSeq := Function.update w.httpSeq s 0
        dead := Function.update w.dead s false }

def run (w : Servers n) (ev : Happening n) : Option (Servers n) :=
  (w.waiters.step codec ev).map fun waiters =>
    { w with waiters := waiters, applied := w.waiters.mark w.applied ev }

def step (w : Servers n) : Event n → Option (Servers n)
  | .post s incoming => some (w.post s incoming)
  | .rpc s op => some (w.call s op false)
  | .refuse h =>
      match w.waiters.handlers[h]? with
      | some x => if w.dead x.server then w.run codec (.refuse h) else none
      | none => none
  | .kill s => some { w with dead := Function.update w.dead s true }
  | .happens (.call ..) => none
  | .happens (.refuse _) => none
  | .happens (.replicas a) =>
      (w.reset (w.waiters.replicas.raft.restarts a)).run codec (.replicas a)
  | .happens ev => w.run codec ev

/-- The state after a run from the start. -/
def exec (evs : List (Event n)) : Option (Servers n) :=
  Machine.exec (step codec) (init codec n) evs

/-- The response to the request of a handler, once it has returned. -/
def answer (w : Servers n) (h : ℕ) : Option HTTPReply :=
  match w.waiters.handlers[h]? with
  | some ⟨_, op, _, _, _, .answered reply⟩ => some (respond op reply)
  | _ => none

/-! ## What is below the front -/

/-- What happens to the handlers in a step. -/
def happening (w : Servers n) : Event n → Option (Happening n)
  | .post s incoming =>
      match serveHTTP (w.httpSeq s + 1) incoming with
      | .inl _ => none
      | .inr op => some (.call s op)
  | .rpc s op => some (.call s op)
  | .refuse h => some (.refuse h)
  | .kill _ => none
  | .happens ev => some ev

variable {codec}

theorem run_eq_some {w w' : Servers n} {ev : Happening n} (h : w.run codec ev = some w') :
    w.waiters.step codec ev = some w'.waiters ∧
      w'.applied = w.waiters.mark w.applied ev ∧ w'.anonymous = w.anonymous := by
  obtain ⟨v, hv, rfl⟩ := Option.map_eq_some_iff.1 h
  exact ⟨hv, rfl, rfl⟩

/-- A step is one of the handlers and below, or is none of their business. -/
theorem step_inv {w w' : Servers n} {ev : Event n} (h : w.step codec ev = some w') :
    (w.happening ev = none ∧ w'.waiters = w.waiters ∧ w'.applied = w.applied ∧
      w'.anonymous = w.anonymous) ∨
    ∃ hap, w.happening ev = some hap ∧ w.waiters.step codec hap = some w'.waiters ∧
      w'.applied = w.waiters.mark w.applied hap ∧
      ∀ k < w.waiters.handlers.length, w'.anonymous k = w.anonymous k := by
  cases ev with
  | post s incoming =>
      obtain rfl := Option.some.inj h
      simp only [happening, post]
      split
      · exact Or.inl ⟨rfl, rfl, rfl, rfl⟩
      · refine Or.inr ⟨_, rfl, rfl, rfl, fun k hk => ?_⟩
        exact Function.update_of_ne hk.ne _ _
  | rpc s op =>
      obtain rfl := Option.some.inj h
      exact Or.inr ⟨_, rfl, rfl, rfl, fun k hk => Function.update_of_ne hk.ne _ _⟩
  | refuse g =>
      simp only [step] at h
      split at h
      · split at h
        · obtain ⟨hstep, happ, hanon⟩ := run_eq_some h
          exact Or.inr ⟨_, rfl, hstep, happ, fun k _ => by rw [hanon]⟩
        · exact absurd h (by simp)
      · exact absurd h (by simp)
  | kill s =>
      obtain rfl := Option.some.inj h
      exact Or.inl ⟨rfl, rfl, rfl, rfl⟩
  | happens ev =>
      refine Or.inr ⟨ev, rfl, ?_⟩
      cases ev with
      | call s op => exact absurd h (by simp [step])
      | refuse g => exact absurd h (by simp [step])
      | replicas a =>
          obtain ⟨hstep, happ, hanon⟩ := run_eq_some h
          cases hr : w.waiters.replicas.raft.restarts a with
          | none =>
              rw [hr] at hstep happ hanon
              exact ⟨hstep, happ, fun k _ => congrFun hanon k⟩
          | some s =>
              rw [hr] at hstep happ hanon
              exact ⟨hstep, happ, fun k _ => congrFun hanon k⟩
      | _ =>
          obtain ⟨hstep, happ, hanon⟩ := run_eq_some h
          exact ⟨hstep, happ, fun k _ => congrFun hanon k⟩

theorem answer_eq_some {w : Servers n} {h : ℕ} {reply : HTTPReply}
    (hreply : w.answer h = some reply) : ∃ x r, w.waiters.handlers[h]? = some x ∧
      x.progress = .answered r ∧ reply = respond x.op r := by
  unfold answer at hreply
  split at hreply
  · next hx => exact ⟨_, _, hx, rfl, (Option.some.inj hreply).symm⟩
  · exact absurd hreply (by simp)

end Servers

end KV

end AiFS
