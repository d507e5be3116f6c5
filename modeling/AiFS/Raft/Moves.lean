import AiFS.Raft.Cluster

set_option autoImplicit false

/-! # What a step does to the server it concerns

`Cluster.step` changes at most one node. `Move c a v nd` lists the ways in which step `a` can make
`nd` the node of server `v`, one for each stretch of code, and `step_move` is the inversion of
`step` that the invariants about single servers use. `Stretch` does the same for the goroutines of a
server: what one of them does between taking the lock and releasing it; and `step_net` says where a
packet on the network comes from. -/

namespace AiFS

variable {n : ℕ} {κ : Type}

/-! ## Goroutines -/

/-- What a goroutine makes of its node, and what it sends. `retired` and `fannedOut` are the two
    outcomes of the leader check of `broadcastHeartbeat` and `replicationLog`. -/
inductive Stretch (nd : Node n κ) : Task n → Node n κ → List (Packet n κ) → Prop
  | startElection {rf : Raft n κ} {args : RequestVoteArgs n}
      (h : nd.rf.startElection = some (rf, args)) :
      Stretch nd .startElection
        { nd with rf := rf, votes := Function.update nd.votes rf.currTerm 1 }
        ((peers nd.rf.me).map fun peer => .requestVote nd.rf.me peer nd.epoch args)
  | becomeLeader {electionTerm replyTerm : ℕ} :
      Stretch nd (.becomeLeader electionTerm replyTerm)
        (({ nd with rf := (nd.rf.becomeLeader electionTerm).1 } : Node n κ).spawn
          ((if (nd.rf.becomeLeader electionTerm).2 then [.broadcastHeartbeat] else []) ++
            [.checkReplyTerm replyTerm])) []
  | checkReplyTerm {replyTerm : ℕ} :
      Stretch nd (.checkReplyTerm replyTerm) { nd with rf := nd.rf.seeTerm replyTerm } []
  | retired {t : Task n} : Stretch nd t nd []
  | fannedOut {t : Task n} {more : List (Task n)} (hlead : nd.rf.state = Role.leader)
      (hmore : ∀ u ∈ more, u = .broadcastHeartbeat) :
      Stretch nd t (nd.spawn ((peers nd.rf.me).map .makeAppendEntry ++ more)) []
  | lagging {peer : Fin n} :
      Stretch nd (.makeAppendEntry peer) (nd.spawn [.sendInstallSnapshotToPeers peer]) []
  | appendEntries {peer : Fin n} {args : AppendEntriesArgs n κ}
      (hnext : nd.rf.lastIncludedIndex < nd.rf.nextIndex peer)
      (h : nd.rf.appendEntriesArgs peer = some args) :
      Stretch nd (.makeAppendEntry peer) nd [.appendEntries nd.rf.me peer nd.epoch args]
  | installSnapshot {peer : Fin n} :
      Stretch nd (.sendInstallSnapshotToPeers peer) nd
        [.installSnapshot nd.rf.me peer nd.epoch nd.rf.installSnapshotArgs]

/-- **Inversion of a goroutine's stretch.** -/
theorem runTask_stretch {nd nd' : Node n κ} {t : Task n} {ps : List (Packet n κ)}
    (h : nd.runTask t = some (nd', ps)) : Stretch nd t nd' ps := by
  cases t with
  | startElection =>
      simp only [Node.runTask] at h
      split at h
      · exact absurd h (by simp)
      · next rf args hse =>
          obtain ⟨rfl, rfl⟩ := Prod.mk.inj (Option.some.inj h)
          exact .startElection hse
  | becomeLeader T r =>
      obtain ⟨rfl, rfl⟩ := Prod.mk.inj (Option.some.inj h)
      exact .becomeLeader
  | checkReplyTerm r =>
      obtain ⟨rfl, rfl⟩ := Prod.mk.inj (Option.some.inj h)
      exact .checkReplyTerm
  | broadcastHeartbeat =>
      simp only [Node.runTask] at h
      split at h
      · obtain ⟨rfl, rfl⟩ := Prod.mk.inj (Option.some.inj h)
        exact .retired
      · next hl =>
          obtain ⟨rfl, rfl⟩ := Prod.mk.inj (Option.some.inj h)
          exact .fannedOut (not_not.1 hl) (by simp)
  | replicationLog =>
      simp only [Node.runTask] at h
      split at h
      · obtain ⟨rfl, rfl⟩ := Prod.mk.inj (Option.some.inj h)
        exact .retired
      · next hl =>
          obtain ⟨rfl, rfl⟩ := Prod.mk.inj (Option.some.inj h)
          rw [← List.append_nil (List.map _ _)]
          exact .fannedOut (not_not.1 hl) (by simp)
  | makeAppendEntry peer =>
      simp only [Node.runTask] at h
      split at h
      · obtain ⟨rfl, rfl⟩ := Prod.mk.inj (Option.some.inj h)
        exact .lagging
      · next hnext =>
          split at h
          · exact absurd h (by simp)
          · next args hargs =>
              obtain ⟨rfl, rfl⟩ := Prod.mk.inj (Option.some.inj h)
              exact .appendEntries (not_le.1 hnext) hargs
  | sendInstallSnapshotToPeers peer =>
      obtain ⟨rfl, rfl⟩ := Prod.mk.inj (Option.some.inj h)
      exact .installSnapshot

/-! ## Servers -/

inductive Move (c : Cluster n κ) : Action n κ → Fin n → Node n κ → Prop
  | tick {s : Fin n} (h : (c.rf s).state ≠ Role.leader) :
      Move c (.tick s) s ((c.node s).spawn [.startElection])
  | run {s : Fin n} {k : ℕ} {t : Task n} {nd : Node n κ} {ps : List (Packet n κ)}
      (ht : (c.node s).tasks[k]? = some t)
      (h : ({ c.node s with tasks := (c.node s).tasks.eraseIdx k } : Node n κ).runTask t =
        some (nd, ps)) : Move c (.run s k) s nd
  | requestVote {k : ℕ} {src dst : Fin n} {ep : ℕ} {args : RequestVoteArgs n} {rf : Raft n κ}
      {reply : RequestVoteReply} (hk : c.net[k]? = some (.requestVote src dst ep args))
      (h : (c.rf dst).requestVote args = some (rf, reply)) :
      Move c (.deliver k) dst { c.node dst with rf := rf }
  | requestVoteReply {k : ℕ} {src dst : Fin n} {ep : ℕ} {args : RequestVoteArgs n}
      {reply : RequestVoteReply} {rf : Raft n κ} {votes : ℕ} {won : Bool}
      (hk : c.net[k]? = some (.requestVoteReply src dst ep args reply))
      (h : (c.rf src).requestVoteReply ((c.node src).votes args.term) args.term reply =
        (rf, votes, won)) :
      Move c (.deliver k) src
        (({ c.node src with
            rf := rf, votes := Function.update (c.node src).votes args.term votes } :
          Node n κ).spawn (if won then [.becomeLeader args.term reply.term] else []))
  | appendEntries {k : ℕ} {src dst : Fin n} {ep : ℕ} {args : AppendEntriesArgs n κ} {rf : Raft n κ}
      {reply : AppendEntriesReply} (hk : c.net[k]? = some (.appendEntries src dst ep args))
      (h : (c.rf dst).appendEntries args = some (rf, reply)) :
      Move c (.deliver k) dst { c.node dst with rf := rf }
  | appendEntriesReply {k : ℕ} {src dst : Fin n} {ep : ℕ} {args : AppendEntriesArgs n κ}
      {reply : AppendEntriesReply} {rf : Raft n κ} {lagging : Bool}
      (hk : c.net[k]? = some (.appendEntriesReply src dst ep args reply))
      (hep : (c.node src).epoch = ep)
      (h : (c.rf src).appendEntriesReply dst args reply = some (rf, lagging)) :
      Move c (.deliver k) src (({ c.node src with rf := rf } : Node n κ).spawn
        (if lagging then [.sendInstallSnapshotToPeers dst] else []))
  | installSnapshot {k : ℕ} {src dst : Fin n} {ep : ℕ} {args : InstallSnapshotArgs n κ}
      (hk : c.net[k]? = some (.installSnapshot src dst ep args)) :
      Move c (.deliver k) dst
        { c.node dst with
          rf := ((c.rf dst).installSnapshot args).1
          outbox := (c.node dst).outbox ++ ((c.rf dst).installSnapshot args).2.2 }
  | installSnapshotReply {k : ℕ} {src dst : Fin n} {ep : ℕ} {args : InstallSnapshotArgs n κ}
      {reply : InstallSnapshotReply}
      (hk : c.net[k]? = some (.installSnapshotReply src dst ep args reply))
      (hep : (c.node src).epoch = ep) :
      Move c (.deliver k) src
        { c.node src with rf := (c.rf src).installSnapshotReply dst args reply }
  | staleReply {k : ℕ} {src : Fin n} : Move c (.deliver k) src (c.node src)
  | start {s : Fin n} {command : Option κ} :
      Move c (.start s command) s
        (({ c.node s with rf := ((c.rf s).start command).1 } : Node n κ).spawn
          (if ((c.rf s).start command).2.isSome then [.replicationLog] else []))
  | snapshot {s : Fin n} {index : ℕ} {data : List UInt8} {rf : Raft n κ}
      (h : (c.rf s).snapshot index data = some rf) :
      Move c (.snapshot s index data) s { c.node s with rf := rf }
  | apply {s : Fin n} {rf : Raft n κ} {msg : ApplyMsg κ}
      (hidle : (c.node s).outbox.any Cluster.isCommand = false)
      (h : (c.rf s).sendApplyMsg = some (rf, msg)) :
      Move c (.apply s) s { c.node s with rf := rf, outbox := (c.node s).outbox ++ [msg] }
  | receive {s : Fin n} {k : ℕ} :
      Move c (.receive s k) s { c.node s with outbox := (c.node s).outbox.eraseIdx k }
  | crash {s : Fin n} :
      Move c (.crash s) s (Node.boot s (c.rf s).persister ((c.node s).epoch + 1))
  | crashMid {k : ℕ} {dst : Fin n} {term : ℕ}
      (hk : (c.net[k]?).bind Cluster.requestTerm = some (dst, term))
      (h : (c.rf dst).currTerm < term) :
      Move c (.crashMid k) dst
        (Node.boot dst ((c.rf dst).stepDown term).persister ((c.node dst).epoch + 1))

/-- What a packet does is a move. -/
theorem handle_move {c c' : Cluster n κ} {k : ℕ} {pkt : Packet n κ} (hk : c.net[k]? = some pkt)
    (h : ({ c with net := c.net.eraseIdx k } : Cluster n κ).handle pkt = some c') :
    ∃ v nd, Move c (.deliver k) v nd ∧ c'.node = Function.update c.node v nd := by
  cases pkt with
  | requestVote src dst ep args =>
      simp only [Cluster.handle] at h
      split at h
      · exact absurd h (by simp)
      · next rf reply hrv =>
          obtain rfl := Option.some.inj h
          exact ⟨_, _, .requestVote hk hrv, rfl⟩
  | requestVoteReply src dst ep args reply =>
      simp only [Cluster.handle, Node.onReply] at h
      split at h
      · obtain rfl := Option.some.inj h
        exact ⟨_, _, .requestVoteReply hk rfl, rfl⟩
      · obtain rfl := Option.some.inj h
        exact ⟨_, _, .staleReply, rfl⟩
  | appendEntries src dst ep args =>
      simp only [Cluster.handle] at h
      split at h
      · exact absurd h (by simp)
      · next rf reply hae =>
          obtain rfl := Option.some.inj h
          exact ⟨_, _, .appendEntries hk hae, rfl⟩
  | appendEntriesReply src dst ep args reply =>
      simp only [Cluster.handle, Node.onReply] at h
      split at h
      · next hep =>
          split at h
          · exact absurd h (by simp)
          · next rf lagging hr =>
              obtain rfl := Option.some.inj h
              exact ⟨_, _, .appendEntriesReply hk hep hr, rfl⟩
      · obtain rfl := Option.some.inj h
        exact ⟨_, _, .staleReply, rfl⟩
  | installSnapshot src dst ep args =>
      simp only [Cluster.handle] at h
      obtain rfl := Option.some.inj h
      exact ⟨_, _, .installSnapshot hk, rfl⟩
  | installSnapshotReply src dst ep args reply =>
      simp only [Cluster.handle, Node.onReply] at h
      split at h
      · next hep =>
          obtain rfl := Option.some.inj h
          exact ⟨_, _, .installSnapshotReply hk hep, rfl⟩
      · obtain rfl := Option.some.inj h
        exact ⟨_, _, .staleReply, rfl⟩

/-- **Inversion of a step.** A step loses a packet or moves one node. -/
theorem step_move {c c' : Cluster n κ} {a : Action n κ} (h : c.step a = some c') :
    ((∃ k, a = .drop k) ∧ c'.node = c.node) ∨
      ∃ v nd, Move c a v nd ∧ c'.node = Function.update c.node v nd := by
  cases a with
  | tick s =>
      simp only [Cluster.step] at h
      split at h
      · next hs =>
          obtain rfl := Option.some.inj h
          exact Or.inr ⟨_, _, .tick hs, rfl⟩
      · exact absurd h (by simp)
  | run s k =>
      simp only [Cluster.step] at h
      split at h
      · exact absurd h (by simp)
      · next t ht =>
          split at h
          · exact absurd h (by simp)
          · next nd ps hrun =>
              obtain rfl := Option.some.inj h
              exact Or.inr ⟨_, _, .run ht hrun, rfl⟩
  | deliver k =>
      simp only [Cluster.step] at h
      split at h
      · exact absurd h (by simp)
      · next pkt hk => exact Or.inr (handle_move hk h)
  | drop k =>
      obtain rfl := Option.some.inj h
      exact Or.inl ⟨⟨k, rfl⟩, rfl⟩
  | start s command =>
      obtain rfl := Option.some.inj h
      exact Or.inr ⟨_, _, .start, rfl⟩
  | snapshot s index data =>
      obtain ⟨rf, hrf, rfl⟩ := Option.map_eq_some_iff.1 h
      exact Or.inr ⟨_, _, .snapshot hrf, rfl⟩
  | apply s =>
      simp only [Cluster.step] at h
      split at h
      · exact absurd h (by simp)
      · next hidle =>
          split at h
          · exact absurd h (by simp)
          · next rf msg hmsg =>
              obtain rfl := Option.some.inj h
              exact Or.inr ⟨_, _, .apply (by simpa using hidle) hmsg, rfl⟩
  | receive s k =>
      obtain rfl := Option.some.inj h
      exact Or.inr ⟨_, _, .receive, rfl⟩
  | crash s =>
      obtain rfl := Option.some.inj h
      exact Or.inr ⟨_, _, .crash, rfl⟩
  | crashMid k =>
      simp only [Cluster.step] at h
      split at h
      · exact absurd h (by simp)
      · next hk =>
          split at h
          · next hT =>
              obtain rfl := Option.some.inj h
              exact Or.inr ⟨_, _, .crashMid hk hT, rfl⟩
          · exact absurd h (by simp)

/-- What a step is to one server. -/
theorem step_node {c c' : Cluster n κ} {a : Action n κ} (h : c.step a = some c') (s : Fin n) :
    c'.node s = c.node s ∨ Move c a s (c'.node s) := by
  rcases step_move h with ⟨_, hsame⟩ | ⟨v, nd, hm, hnode⟩
  · exact Or.inl (congrFun hsame s)
  · by_cases hsv : s = v
    · subst hsv
      rw [hnode, Function.update_self]
      exact Or.inr hm
    · exact Or.inl (by rw [hnode, Function.update_of_ne hsv])

/-! ## The network -/

/-- The reply that a request gets. -/
inductive Answer (c : Cluster n κ) : Packet n κ → Packet n κ → Prop
  | requestVote {src dst : Fin n} {ep : ℕ} {args : RequestVoteArgs n} {rf : Raft n κ}
      {reply : RequestVoteReply} (h : (c.rf dst).requestVote args = some (rf, reply)) :
      Answer c (.requestVote src dst ep args) (.requestVoteReply src dst ep args reply)
  | appendEntries {src dst : Fin n} {ep : ℕ} {args : AppendEntriesArgs n κ} {rf : Raft n κ}
      {reply : AppendEntriesReply} (h : (c.rf dst).appendEntries args = some (rf, reply)) :
      Answer c (.appendEntries src dst ep args) (.appendEntriesReply src dst ep args reply)
  | installSnapshot {src dst : Fin n} {ep : ℕ} {args : InstallSnapshotArgs n κ} :
      Answer c (.installSnapshot src dst ep args)
        (.installSnapshotReply src dst ep args ((c.rf dst).installSnapshot args).2.1)

theorem handle_net {c c' : Cluster n κ} {net : List (Packet n κ)} {req : Packet n κ}
    (h : ({ c with net := net } : Cluster n κ).handle req = some c') :
    c'.net = net ∨ ∃ pkt, Answer c req pkt ∧ c'.net = net ++ [pkt] := by
  cases req with
  | requestVote src dst ep args =>
      simp only [Cluster.handle] at h
      split at h
      · exact absurd h (by simp)
      · next rf reply hrv =>
          obtain rfl := Option.some.inj h
          exact Or.inr ⟨_, .requestVote hrv, rfl⟩
  | appendEntries src dst ep args =>
      simp only [Cluster.handle] at h
      split at h
      · exact absurd h (by simp)
      · next rf reply hae =>
          obtain rfl := Option.some.inj h
          exact Or.inr ⟨_, .appendEntries hae, rfl⟩
  | installSnapshot src dst ep args =>
      simp only [Cluster.handle] at h
      obtain rfl := Option.some.inj h
      exact Or.inr ⟨_, .installSnapshot, rfl⟩
  | _ =>
      obtain ⟨nd, _, rfl⟩ := Option.map_eq_some_iff.1 h
      exact Or.inl rfl

/-- What a step puts on the network, a goroutine sends. -/
theorem sends_stretch {c : Cluster n κ} {a : Action n κ} {pkt : Packet n κ}
    (h : pkt ∈ c.sends a) : ∃ s k t nd ps, a = .run s k ∧ (c.node s).tasks[k]? = some t ∧
      Stretch { c.node s with tasks := (c.node s).tasks.eraseIdx k } t nd ps ∧ pkt ∈ ps := by
  cases a with
  | run s k =>
      simp only [Cluster.sends] at h
      split at h
      · exact absurd h (by simp)
      · next t ht =>
          split at h
          · exact absurd h (by simp)
          · next nd ps hrun => exact ⟨s, k, t, nd, ps, rfl, ht, runTask_stretch hrun, h⟩
  | _ => exact absurd h (by simp [Cluster.sends])

/-- **Inversion of the network.** A packet was there before, is sent by a goroutine, or is the reply
    to a request that arrives. -/
theorem step_net {c c' : Cluster n κ} {a : Action n κ} {pkt : Packet n κ}
    (h : c.step a = some c') (hpkt : pkt ∈ c'.net) :
    pkt ∈ c.net ∨ pkt ∈ c.sends a ∨
      ∃ k req, a = .deliver k ∧ c.net[k]? = some req ∧ Answer c req pkt := by
  cases a with
  | tick s =>
      simp only [Cluster.step] at h
      split at h
      · obtain rfl := Option.some.inj h
        exact Or.inl hpkt
      · exact absurd h (by simp)
  | run s k =>
      simp only [Cluster.step] at h
      split at h
      · exact absurd h (by simp)
      · next t ht =>
          split at h
          · exact absurd h (by simp)
          · next nd ps hrun =>
              obtain rfl := Option.some.inj h
              rcases List.mem_append.1 hpkt with hold | hnew
              · exact Or.inl hold
              · exact Or.inr (Or.inl (by simpa [Cluster.sends, ht, hrun] using hnew))
  | deliver k =>
      simp only [Cluster.step] at h
      split at h
      · exact absurd h (by simp)
      · next req hk =>
          rcases handle_net h with hnet | ⟨reply, hans, hnet⟩
          · rw [hnet] at hpkt
            exact Or.inl (List.eraseIdx_subset hpkt)
          · rw [hnet] at hpkt
            rcases List.mem_append.1 hpkt with hold | hnew
            · exact Or.inl (List.eraseIdx_subset hold)
            · obtain rfl := List.mem_singleton.1 hnew
              exact Or.inr (Or.inr ⟨k, req, rfl, hk, hans⟩)
  | drop k =>
      obtain rfl := Option.some.inj h
      exact Or.inl (List.eraseIdx_subset hpkt)
  | snapshot s index data =>
      obtain ⟨rf, _, rfl⟩ := Option.map_eq_some_iff.1 h
      exact Or.inl hpkt
  | apply s =>
      simp only [Cluster.step] at h
      split at h
      · exact absurd h (by simp)
      · split at h
        · exact absurd h (by simp)
        · obtain rfl := Option.some.inj h
          exact Or.inl hpkt
  | crashMid k =>
      simp only [Cluster.step] at h
      split at h
      · exact absurd h (by simp)
      · split at h
        · obtain rfl := Option.some.inj h
          exact Or.inl (List.eraseIdx_subset hpkt)
        · exact absurd h (by simp)
  | _ =>
      obtain rfl := Option.some.inj h
      exact Or.inl hpkt

end AiFS
