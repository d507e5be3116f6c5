import AiFS.KV.Ledger
import AiFS.KV.Servers

set_option autoImplicit false

/-! # The ledger behind the front

The log of `Ledger.lean` for the servers with their front, under the conditions of `Agreement.lean`
on the steps of the replicas (`Lawful`). It is as long as the furthest server has ever got, and an
operation comes into it when the first applier takes it (`Takes`). -/

namespace AiFS

/-- A step that is not a call of `Start` or `Snapshot`. -/
def Action.plain {n : ℕ} {κ : Type} : Action n κ → Bool
  | .start .. | .snapshot .. => false
  | _ => true

namespace KV

variable {n : ℕ}

namespace Servers

/-- The lookup of a client's record in a step: where, and of which operation. -/
def lookup (w : Servers n) (ev : Event n) : Option (Fin n × Op) :=
  (w.happening ev).bind w.waiters.lookup

/-- What is taken for granted of a step: only leaders send, no stale `matchIndex` commits, the
    appliers take messages in order, and snapshots can be decoded. -/
def Lawful (codec : Codec) (w : Servers n) (ev : Event n) : Prop :=
  ∀ a, ev = .happens (.replicas a) → Regular codec w.waiters.replicas a

/-- The same for steps that neither compact a log nor call `Start`, in a form that can be
    evaluated. -/
def Steady (w : Servers n) : Event n → Prop
  | .happens (.replicas a) => LeaderSends w.waiters.replicas.raft a ∧
      FreshMatch w.waiters.replicas.raft a ∧ (∀ s, InOrder s w.waiters.replicas a) ∧ a.plain = true
  | _ => True

instance (w : Servers n) : ∀ ev, Decidable (w.Steady ev)
  | .happens (.replicas a) => inferInstanceAs (Decidable (LeaderSends w.waiters.replicas.raft a ∧
      FreshMatch w.waiters.replicas.raft a ∧ (∀ s, InOrder s w.waiters.replicas a) ∧
      a.plain = true))
  | .post .. | .rpc .. | .refuse _ | .kill _ | .happens (.call ..) | .happens (.refuse _)
  | .happens (.enter _) | .happens (.register _) | .happens (.wake _) | .happens (.timeout _)
  | .happens (.getState _) | .happens (.finish _) | .happens (.notify _) => isTrue trivial

/-- The applier of `s` takes an operation, and is the first one to get so far. -/
def Takes (w : Servers n) (ev : Event n) (s : Fin n) (op : Op) : Prop :=
  ∃ k, ev = .happens (.replicas (.receive s k)) ∧
    w.waiters.replicas.taken (.receive s k) = some (s, w.applied + 1, op)

structure Kept (codec : Codec) (as : List (Action n Op)) (log : List (ℕ × Op)) (w : Servers n) :
    Prop where
  ledger : Ledger codec as w.waiters log
  applied_eq : w.applied = log.length

/-- What a step does to the log and to the handlers. -/
inductive Moved (w : Servers n) (as : List (Action n Op)) (log : List (ℕ × Op)) (ev : Event n)
    (w' : Servers n) (as' : List (Action n Op)) (log' : List (ℕ × Op)) : Prop
  | quiet (hev : w.happening ev = none) (has : as' = as) (hlog : log' = log)
      (hw : w'.waiters = w.waiters)
  | advance (hap : Happening n) (hev : w.happening ev = some hap)
      (hadv : Advance w.waiters as log hap w'.waiters as' log')

variable {codec : Codec} {as as' : List (Action n Op)} {log log' : List (ℕ × Op)}
  {w w' : Servers n} {ev : Event n}

theorem kept_init : Kept codec [] [] (init codec n) where
  ledger := Ledger.init
  applied_eq := rfl

/-- What happens below the front is a step of its own, unless a handler is called or sent away. -/
theorem eq_of_happening {hap : Happening n} (hev : w.happening ev = some hap)
    (hcall : ∀ s op, hap ≠ .call s op) (hrefuse : ∀ h, hap ≠ .refuse h) : ev = .happens hap := by
  cases ev with
  | post s incoming =>
      simp only [happening] at hev
      split at hev
      · exact absurd hev (by simp)
      · exact absurd (Option.some.inj hev).symm (hcall s _)
  | rpc s op => exact absurd (Option.some.inj hev).symm (hcall s op)
  | refuse h => exact absurd (Option.some.inj hev).symm (hrefuse h)
  | kill s => exact absurd hev (by simp [happening])
  | happens hap => exact congrArg Event.happens (Option.some.inj hev)

theorem lookup_of_happening {hap : Happening n} (hev : w.happening ev = some hap) :
    w.lookup ev = w.waiters.lookup hap := by
  rw [lookup, hev, Option.bind_some]

theorem Lawful.ledger (h : w.Lawful codec ev) {hap : Happening n}
    (hev : w.happening ev = some hap) : Ledger.Lawful codec w.waiters hap := by
  cases hap with
  | replicas a => exact h a (eq_of_happening hev (by simp) (by simp))
  | _ => trivial

theorem Steady.lawful (codec : Codec) (h : w.Steady ev) : w.Lawful codec ev := by
  rintro a rfl
  obtain ⟨hleader, hmatch, horder, hplain⟩ := h
  refine ⟨hleader, hmatch, horder, ?_, ?_⟩
  · rintro s index data rfl
    exact absurd hplain (by simp [Action.plain])
  · rintro s command rfl
    exact absurd hplain (by simp [Action.plain])

/-- **Step lemma.** -/
theorem Kept.step (h : w.Kept codec as log) (hl : w.Lawful codec ev)
    (hstep : w.step codec ev = some w') :
    ∃ as' log', w'.Kept codec as' log' ∧ w.Moved as log ev w' as' log' := by
  rcases step_inv hstep with ⟨hev, hw, happ, -⟩ | ⟨hap, hev, hrun, happ, -⟩
  · refine ⟨as, log, ⟨?_, happ.trans h.applied_eq⟩, .quiet hev rfl rfl hw⟩
    rw [hw]
    exact h.ledger
  · obtain ⟨as', log', hL, hadv⟩ := h.ledger.step (hl.ledger hev) hrun
    refine ⟨as', log', ⟨hL, ?_⟩, .advance hap hev hadv⟩
    rw [happ, h.applied_eq, hadv.length_eq]

theorem Moved.isPrefix (h : w.Moved as log ev w' as' log') : log <+: log' := by
  cases h with
  | quiet _ _ hlog _ => exact hlog ▸ List.prefix_rfl
  | advance _ _ hadv => exact hadv.isPrefix

/-- Only the replicas add to the log. -/
theorem Moved.log_eq (h : w.Moved as log ev w' as' log')
    (hev : ∀ a, ev ≠ .happens (.replicas a)) : log' = log := by
  cases h with
  | quiet _ _ hlog _ => exact hlog
  | advance hap hhap hadv =>
      rcases hadv.grown with hlog | ⟨a, s, g, x, rfl, -⟩
      · exact hlog
      · exact absurd (eq_of_happening hhap (by simp) (by simp)) (hev a)

/-- Only a handler in its first stretch, whose operation is new to its server, calls `Start`. -/
theorem Moved.proposals (h : w.Moved as log ev w' as' log') {k i t : ℕ} {op : Op}
    (hk : Proposal as' k (some op) i t) : Proposal as k (some op) i t ∨ k = as.length ∧
      ∃ g x, ev = .happens (.enter g) ∧ w.waiters.handlers[g]? = some x ∧ x.op = op ∧
        (w.state x.server).seen x.op = none := by
  cases h with
  | quiet _ has _ _ => exact Or.inl (has ▸ hk)
  | advance hap hev hadv =>
      refine (hadv.proposals k op i t hk).imp_right ?_
      rintro ⟨hlast, g, x, hg, hx, hop, hseen⟩
      subst hg
      exact ⟨hlast, g, x, eq_of_happening hev (by simp) (by simp), hx, hop, hseen⟩

/-- A handler keeps its server and its operation. -/
theorem Moved.handler (h : w.Moved as log ev w' as' log') {k : ℕ} {x : Waiter n}
    (hx : w.waiters.handlers[k]? = some x) : ∃ x', w'.waiters.handlers[k]? = some x' ∧
      x'.server = x.server ∧ x'.op = x.op := by
  cases h with
  | quiet _ _ _ hw => exact ⟨x, by rw [hw]; exact hx, rfl, rfl⟩
  | advance hap _ hadv =>
      obtain ⟨x', hx'⟩ := hadv.handled.kept k x hx
      rcases hadv.handled.each k x' hx' with ⟨y, hy, hcont⟩ | ⟨s, op, -, hk, -⟩
      · obtain rfl := Option.some.inj (hx.symm.trans hy)
        exact ⟨x', hx', hcont.server, hcont.op⟩
      · have hlt := (List.getElem?_eq_some_iff.1 hx).1
        omega

/-- A handler keeps its place. -/
theorem Moved.startTerm_eq (h : w.Moved as log ev w' as' log') {k : ℕ} {x x' : Waiter n}
    (hx : w.waiters.handlers[k]? = some x) (hx' : w'.waiters.handlers[k]? = some x')
    (hpos : 0 < x.index) : x'.startTerm = x.startTerm := by
  cases h with
  | quiet _ _ _ hw =>
      rw [hw] at hx'
      exact congrArg Waiter.startTerm (Option.some.inj (hx'.symm.trans hx))
  | advance hap _ hadv =>
      rcases hadv.handled.each k x' hx' with ⟨y, hy, hcont⟩ | ⟨s, op, -, hk, -⟩
      · obtain rfl := Option.some.inj (hx.symm.trans hy)
        exact congrArg Place.term (hcont.place hpos)
      · have hlt := (List.getElem?_eq_some_iff.1 hx).1
        omega

/-- A handler is an old one, or is called in the step. -/
theorem Moved.handler_cases (h : w.Moved as log ev w' as' log') {k : ℕ} {x' : Waiter n}
    (hx' : w'.waiters.handlers[k]? = some x') :
    (∃ x, w.waiters.handlers[k]? = some x ∧ x'.op = x.op) ∨
      w.happening ev = some (.call x'.server x'.op) := by
  cases h with
  | quiet _ _ _ hw =>
      rw [hw] at hx'
      exact Or.inl ⟨x', hx', rfl⟩
  | advance hap hev hadv =>
      rcases hadv.handled.each k x' hx' with ⟨x, hx, hcont⟩ | ⟨s, op, rfl, -, rfl⟩
      · exact Or.inl ⟨x, hx, hcont.op⟩
      · exact Or.inr hev

/-- The applier of a server that takes a command runs it. -/
theorem Kept.taking (h : w.Kept codec as log) (hl : w.Lawful codec ev) {s : Fin n} {k i : ℕ}
    {op : Op} (hev : ev = .happens (.replicas (.receive s k)))
    (ht : w.waiters.replicas.taken (.receive s k) = some (s, i, op))
    (hstep : w.step codec ev = some w') :
    ∃ ops, Taking ops w.waiters.replicas w'.waiters.replicas s i op := by
  subst hev
  obtain ⟨v, hv, rfl⟩ := Option.map_eq_some_iff.1 hstep
  obtain ⟨r, w₁, hr, -, rfl⟩ := Waiters.step_replicas hv
  obtain ⟨p, L, ops, hag, -⟩ := h.ledger.booked.book
  exact ⟨ops, hag.taking (hl _ rfl) ht hr⟩

/-- The applier of `s` is the first to take the operation, and runs it on the state of the whole
    log. -/
structure Adopts (log : List (ℕ × Op)) (w : Servers n) (ev : Event n) (w' : Servers n) (s : Fin n)
    (op : Op) : Prop where
  takes : w.Takes ev s op
  before : w.state s = State.replay (log.map Prod.snd)
  after : w'.state s = (w.state s).apply op
  reached : (w'.waiters.replicas.replica s).reached = w.applied + 1

/-- The operations stand in the log in the order in which `Start` was called for them. -/
theorem Kept.order (h : w.Kept codec as log) {j j' : ℕ} {e e' : ℕ × Op} (hlt : j < j')
    (hj : log[j]? = some e) (hj' : log[j']? = some e') : ∃ k k' t t', k < k' ∧
      Proposal as k (some e.2) (j + 1) t ∧ Proposal as k' (some e'.2) (j' + 1) t' := by
  obtain ⟨p, L, ops, -, hlog⟩ := h.ledger.booked.book
  exact hlog.order j j' e e' hlt hj hj'

/-- **What is new in the log** has just been taken. -/
theorem Kept.entry_cases (h : w.Kept codec as log) (hl : w.Lawful codec ev)
    (hstep : w.step codec ev = some w') (hm : w.Moved as log ev w' as' log') {p : ℕ}
    {e : ℕ × Op} (hp : log'[p]? = some e) :
    log[p]? = some e ∨ p = w.applied ∧ ∃ s, w.Adopts log ev w' s e.2 := by
  cases hm with
  | quiet _ _ hlog _ => exact Or.inl (hlog ▸ hp)
  | advance hap hev hadv =>
      rcases hadv.grown with rfl | ⟨a, s, g, x, rfl, ht, hreached, -, -, rfl⟩
      · exact Or.inl hp
      · rcases Pool.getElem?_concat_cases hp with hold | ⟨rfl, rfl⟩
        · exact Or.inl hold
        · obtain ⟨k, rfl, -⟩ := Replicas.taken_eq_some ht
          have hevent := eq_of_happening hev (by simp) (by simp)
          obtain ⟨ops, htaking⟩ := h.taking hl hevent ht hstep
          refine Or.inr ⟨h.applied_eq.symm, s, ⟨k, hevent, ?_⟩, ?_, htaking.state, ?_⟩
          · rw [h.applied_eq]
            exact ht
          · rw [state, h.ledger.state_eq, hreached, List.take_of_length_le (by simp)]
          · rw [htaking.reached, h.applied_eq]

end Servers

end KV

end AiFS
