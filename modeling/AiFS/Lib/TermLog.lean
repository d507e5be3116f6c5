import Mathlib

set_option autoImplicit false

/-! # Replicated logs with one leader a term: the protocol

The general protocol a leader-based replicated log follows, with no message, no index arithmetic
and no compaction: every server has a term and a *whole* log, votes once a term, and takes over
logs that are shipped to it. What has happened so far is kept as history: who voted for whom in
which term, the log a candidate stood with, who won a term, the log the winner started the term
with and the log it has now, and how much of a term's log each server has acknowledged.

`Step σ` is the protocol's step relation. Its parameter is the one assumption that separates the
two groups of results: when `σ` holds, a log is only taken over in term `T` if it is a prefix of
the log of the leader of `T` (only the leader of a term speaks for it). Without it (`σ := False`)
any server may ship any log it has, and the invariants of `Inv` (one leader a term, log matching)
still hold.

Log positions are never indexed here: all statements are about the prefix order on lists. -/

namespace TermLog

variable {S E : Type}

/-! ## The state and its history -/

/-- The servers' terms and logs, and the history of votes, elections and acknowledgements. -/
structure Proto (S E : Type) where
  term : S → ℕ
  log : S → List E
  /-- The vote a server has given in a term. -/
  voted : S → ℕ → Option S
  /-- The log with which a server stood for election in a term. -/
  candLog : S → ℕ → Option (List E)
  leader : ℕ → Option S
  /-- The log the leader of a term started it with. -/
  initLog : ℕ → List E
  /-- The log of the leader of a term, as it is now or was when it last led. -/
  leaderLog : ℕ → List E
  /-- How long a prefix of a term's leader log a server has acknowledged in that term. -/
  acked : S → ℕ → ℕ

/-- More than half of all servers. -/
def Majority [Fintype S] (Q : Finset S) : Prop :=
  Fintype.card S < 2 * Q.card

/-- Two majorities share a server. -/
theorem Majority.inter [Fintype S] {Q R : Finset S} (hQ : Majority Q)
    (hR : Majority R) : ∃ v, v ∈ Q ∧ v ∈ R := by
  classical
  have hunion : (Q ∪ R).card ≤ Fintype.card S := Finset.card_le_univ _
  have hsum : (Q ∪ R).card + (Q ∩ R).card = Q.card + R.card := Finset.card_union_add_card_inter Q R
  have hpos : 0 < (Q ∩ R).card := by
    unfold Majority at hQ hR
    omega
  obtain ⟨v, hv⟩ := Finset.card_pos.1 hpos
  exact ⟨v, (Finset.mem_inter.1 hv).1, (Finset.mem_inter.1 hv).2⟩

/-! ## Logs -/

/-- An entry of a prefix is that of the log. -/
theorem getElem?_of_isPrefix {P L : List E} {i : ℕ} {e : E} (h : P <+: L) (he : P[i]? = some e) :
    L[i]? = some e := by
  obtain ⟨hlt, rfl⟩ := List.getElem?_eq_some_iff.1 he
  exact List.prefix_iff_getElem?.1 h i hlt

section Logs

variable (τ : E → ℕ)

/-- The term of the last entry, `0` for the empty log. -/
def lastTerm (L : List E) : ℕ :=
  match L.getLast? with
  | some e => τ e
  | none => 0

@[simp] theorem lastTerm_nil : lastTerm τ [] = 0 := rfl

@[simp] theorem lastTerm_concat (L : List E) (e : E) : lastTerm τ (L ++ [e]) = τ e := by
  simp [lastTerm]

/-- A candidate standing with log `C` may have the vote of a server whose log is `L`. -/
def UpToDate (C L : List E) : Prop :=
  lastTerm τ L < lastTerm τ C ∨ lastTerm τ L = lastTerm τ C ∧ L.length ≤ C.length

/-- What is left of a log `L` when the log `M` is shipped to its server: `L` itself if it already
    starts with `M`, else `M`. -/
noncomputable def merge (L M : List E) : List E :=
  open Classical in if M <+: L then L else M

theorem merge_of_isPrefix {L M : List E} (h : M <+: L) : merge L M = L := by
  simp [merge, h]

theorem merge_of_not_isPrefix {L M : List E} (h : ¬ M <+: L) : merge L M = M := by
  simp [merge, h]

/-- The shipped log is a prefix of the merged one. -/
theorem prefix_merge (L M : List E) : M <+: merge L M := by
  by_cases h : M <+: L
  · rw [merge_of_isPrefix h]
    exact h
  · rw [merge_of_not_isPrefix h]

/-- Every entry of `L` was appended by the leader of its term, behind exactly the entries that
    stand before it in `L`. -/
def Backed (p : Proto S E) (L : List E) : Prop :=
  ∀ P e, P ++ [e] <+: L → (p.leader (τ e)).isSome ∧ P ++ [e] <+: p.leaderLog (τ e)

variable {τ}

theorem Backed.nil (p : Proto S E) : Backed τ p [] := by
  intro P e h
  simp at h

theorem Backed.of_isPrefix {p : Proto S E} {L L' : List E} (h : Backed τ p L) (hp : L' <+: L) :
    Backed τ p L' :=
  fun P e hPe => h P e (hPe.trans hp)

/-- A nonempty backed log is a prefix of the log of the leader of its last term. -/
theorem Backed.prefix_leaderLog {p : Proto S E} {L : List E} (h : Backed τ p L) (hne : L ≠ []) :
    (p.leader (lastTerm τ L)).isSome ∧ L <+: p.leaderLog (lastTerm τ L) := by
  obtain ⟨P, e, rfl⟩ := (List.eq_nil_or_concat' L).resolve_left hne
  rw [lastTerm_concat]
  exact h P e List.prefix_rfl

/-- The part of a backed log up to an entry is a prefix of the log of the leader of its term. -/
theorem Backed.take_prefix {p : Proto S E} {L : List E} {j : ℕ} {e : E} (h : Backed τ p L)
    (he : L[j]? = some e) :
    (p.leader (τ e)).isSome ∧ L.take (j + 1) <+: p.leaderLog (τ e) := by
  have htake : L.take (j + 1) = L.take j ++ [e] := by
    rw [List.take_add_one, he]
    rfl
  rw [htake]
  exact h _ e (htake ▸ List.take_prefix (j + 1) L)

theorem Backed.merge {p : Proto S E} {L M : List E} (hL : Backed τ p L) (hM : Backed τ p M) :
    Backed τ p (merge L M) := by
  by_cases h : M <+: L
  · rwa [merge_of_isPrefix h]
  · rwa [merge_of_not_isPrefix h]

/-- **Log matching.** In two backed logs, the terms at one position decide whether they agree up to
    it. -/
theorem Backed.take_eq {p : Proto S E} {L L' : List E} {i : ℕ} (h : Backed τ p L)
    (h' : Backed τ p L') (hi : i ≤ L.length) (hi' : i ≤ L'.length)
    (hterm : lastTerm τ (L.take i) = lastTerm τ (L'.take i)) : L.take i = L'.take i := by
  rcases Nat.eq_zero_or_pos i with hz | hpos
  · subst hz
    simp
  · have hne : L.take i ≠ [] := List.ne_nil_of_length_pos (by simp; omega)
    have hne' : L'.take i ≠ [] := List.ne_nil_of_length_pos (by simp; omega)
    have hpre := (Backed.prefix_leaderLog (h.of_isPrefix (List.take_prefix i L)) hne).2
    have hpre' := (Backed.prefix_leaderLog (h'.of_isPrefix (List.take_prefix i L')) hne').2
    rw [← hterm] at hpre'
    have hlen : (L.take i).length = (L'.take i).length := by simp [hi, hi']
    exact (List.prefix_of_prefix_length_le hpre hpre' hlen.le).eq_of_length hlen

end Logs

/-! ## Steps -/

section Steps

variable [DecidableEq S]

/-- A table of what servers did in which term, with the entry of `v` in term `T` set to `x`. -/
def record {β : Type} (f : S → ℕ → β) (v : S) (T : ℕ) (x : β) : S → ℕ → β :=
  Function.update f v (Function.update (f v) T x)

@[simp] theorem record_self {β : Type} (f : S → ℕ → β) (v : S) (T : ℕ) (x : β) :
    record f v T x v T = x := by
  simp [record]

theorem record_of_ne {β : Type} (f : S → ℕ → β) {v w : S} {T U : ℕ} (x : β)
    (h : ¬ (w = v ∧ U = T)) : record f v T x w U = f w U := by
  by_cases hw : w = v
  · subst hw
    have hU : U ≠ T := fun hU => h ⟨rfl, hU⟩
    simp [record, Function.update_of_ne hU]
  · simp [record, Function.update_of_ne hw]

/-- An entry of the table after `v` recorded `x` is the new one or an old one. -/
theorem record_eq_some {β : Type} {f : S → ℕ → Option β} {v w : S} {T U : ℕ} {x y : β}
    (h : record f v T (some x) w U = some y) : (w = v ∧ U = T ∧ y = x) ∨ f w U = some y := by
  by_cases hnew : w = v ∧ U = T
  · obtain ⟨rfl, rfl⟩ := hnew
    rw [record_self] at h
    exact Or.inl ⟨rfl, rfl, (Option.some.inj h).symm⟩
  · rw [record_of_ne f _ hnew] at h
    exact Or.inr h

/-- A server sees a higher term. -/
def Proto.raise (p : Proto S E) (v : S) (T : ℕ) : Proto S E :=
  { p with term := Function.update p.term v T }

/-- A server enters the next term, votes for itself there and stands with its log. -/
def Proto.campaign (p : Proto S E) (v : S) : Proto S E :=
  { p with
    term := Function.update p.term v (p.term v + 1)
    voted := record p.voted v (p.term v + 1) (some v)
    candLog := record p.candLog v (p.term v + 1) (some (p.log v)) }

/-- A server gives its vote in term `T`. -/
def Proto.grant (p : Proto S E) (v c : S) (T : ℕ) : Proto S E :=
  { p with
    term := Function.update p.term v T
    voted := record p.voted v T (some c) }

/-- The acknowledgements after `v` has acknowledged `k` entries of the log of term `T`. -/
def Proto.ack (p : Proto S E) (v : S) (T k : ℕ) : S → ℕ → ℕ :=
  record p.acked v T (max (p.acked v T) k)

theorem Proto.ack_self (p : Proto S E) (v : S) (T k : ℕ) :
    p.ack v T k v T = max (p.acked v T) k :=
  record_self _ _ _ _

theorem Proto.ack_of_ne (p : Proto S E) {v w : S} {T U : ℕ} (k : ℕ) (h : ¬ (w = v ∧ U = T)) :
    p.ack v T k w U = p.acked w U :=
  record_of_ne _ _ h

theorem Proto.le_ack (p : Proto S E) (v w : S) (T U k : ℕ) : p.acked w U ≤ p.ack v T k w U := by
  by_cases h : w = v ∧ U = T
  · obtain ⟨rfl, rfl⟩ := h
    rw [p.ack_self]
    exact le_max_left _ _
  · rw [p.ack_of_ne k h]

/-- A candidate wins its term and starts it with its own log. -/
def Proto.elect (p : Proto S E) (v : S) : Proto S E :=
  { p with
    leader := Function.update p.leader (p.term v) (some v)
    initLog := Function.update p.initLog (p.term v) (p.log v)
    leaderLog := Function.update p.leaderLog (p.term v) (p.log v)
    acked := p.ack v (p.term v) (p.log v).length }

/-- A leader appends an entry to its log. -/
def Proto.append (p : Proto S E) (v : S) (e : E) : Proto S E :=
  { p with
    log := Function.update p.log v (p.log v ++ [e])
    leaderLog := Function.update p.leaderLog (p.term v) (p.log v ++ [e])
    acked := p.ack v (p.term v) (p.log v ++ [e]).length }

/-- A server takes over and acknowledges the log `M` in term `T`. -/
noncomputable def Proto.receive (p : Proto S E) (v : S) (T : ℕ) (M : List E) : Proto S E :=
  { p with
    term := Function.update p.term v T
    log := Function.update p.log v (merge (p.log v) M)
    acked := p.ack v T M.length }

/-- The steps of server `v`. With `σ`, only prefixes of a term's leader log are shipped in that
    term. -/
inductive Step [Fintype S] (τ : E → ℕ) (σ : Prop) (v : S) (p : Proto S E) : Proto S E → Prop
  | idle : Step τ σ v p p
  | raise (T : ℕ) (hT : p.term v < T) : Step τ σ v p (p.raise v T)
  | campaign : Step τ σ v p (p.campaign v)
  | grant (c : S) (T : ℕ) (C : List E) (hT : p.term v ≤ T)
      (hfree : p.voted v T = none ∨ p.voted v T = some c) (hC : p.candLog c T = some C)
      (hup : UpToDate τ C (p.log v)) : Step τ σ v p (p.grant v c T)
  | elect (Q : Finset S) (hQ : Majority Q) (hvotes : ∀ w ∈ Q, p.voted w (p.term v) = some v)
      (hC : p.candLog v (p.term v) = some (p.log v)) (hfree : p.leader (p.term v) = none) :
      Step τ σ v p (p.elect v)
  | append (e : E) (hl : p.leader (p.term v) = some v)
      (hlog : p.leaderLog (p.term v) = p.log v) (he : τ e = p.term v) :
      Step τ σ v p (p.append v e)
  | receive (T : ℕ) (M : List E) (hT : p.term v ≤ T) (hM : Backed τ p M)
      (hterm : ∀ e ∈ M, τ e ≤ T)
      (hσ : σ → (p.leader T).isSome ∧ M <+: p.leaderLog T) : Step τ σ v p (p.receive v T M)

/-- The initial state: term `0`, empty logs and no history. -/
def Proto.init (S E : Type) : Proto S E where
  term := fun _ => 0
  log := fun _ => []
  voted := fun _ _ => none
  candLog := fun _ _ => none
  leader := fun _ => none
  initLog := fun _ => []
  leaderLog := fun _ => []
  acked := fun _ _ => 0

end Steps

end TermLog
