import LuxKernel.Consensus.Leader

namespace LuxKernel.Consensus.RaftNode

open Function Heapless Replication

variable {node node' : RaftNode} {sender : NodeId} {sent : Sent}
variable {committed : Option LogEntry} {term : Nat}

theorem step_requestVote {candidateId : NodeId} {lastLogIndex lastLogTerm : Nat} :
    node.step sender (.requestVote term candidateId lastLogIndex lastLogTerm) =
      some (committed, node', sent) ↔ committed = none ∧
        node.onRequestVote sender term candidateId lastLogIndex lastLogTerm = (node', sent) := by
  simp [step, eq_comm]

theorem step_requestVoteReply {granted : Bool} :
    node.step sender (.requestVoteReply term granted) = some (committed, node', sent) ↔
      committed = none ∧ sent = [] ∧ node.onVoteReply term granted = some node' := by
  cases h : node.onVoteReply term granted with
  | none => simp [step, h]
  | some node₁ => simp [step, h, eq_comm, and_comm, and_assoc]

theorem step_appendEntries {leaderId : NodeId} {prevLogIndex prevLogTerm leaderCommit : Nat}
    {entries : HVec LogEntry BATCH_CAPACITY} :
    node.step sender (.appendEntries term leaderId prevLogIndex prevLogTerm entries leaderCommit) =
      some (committed, node', sent) ↔ committed = none ∧
        node.onAppendEntries sender term prevLogIndex prevLogTerm entries leaderCommit =
          some (node', sent) := by
  cases h : node.onAppendEntries sender term prevLogIndex prevLogTerm entries leaderCommit with
  | none => simp [step, h]
  | some result => simp [step, h, eq_comm]

theorem step_appendEntriesReply {success : Bool} {matchIndex : Nat} :
    node.step sender (.appendEntriesReply term success matchIndex) =
      some (committed, node', sent) ↔
        sent = [] ∧ node.onAeReply sender term success matchIndex = some (committed, node') := by
  cases h : node.onAeReply sender term success matchIndex with
  | none => simp [step, h]
  | some result =>
      obtain ⟨committed₁, node₁⟩ := result
      simp only [step, h, Option.bind_eq_bind, Option.bind_some, Option.pure_def,
        Option.some.injEq, Prod.mk.injEq]
      exact ⟨fun ⟨hc, hn, hs⟩ => ⟨hs.symm, hc, hn⟩, fun ⟨hs, hc, hn⟩ => ⟨hc, hn, hs.symm⟩⟩

theorem observe_cases (node : RaftNode) (term : Nat) :
    (node.observe term).role = .follower ∨ node.observe term = node := by
  unfold observe
  split
  · exact Or.inl rfl
  · exact Or.inr rfl

-- A step makes the node a follower, or leaves its role, term, log and
-- acknowledgements alone, or makes a candidate the leader, or records the
-- acknowledgement of a peer. Only the last can commit anything.
theorem step_effect {msg : RaftMessage} (h : node.step sender msg = some (committed, node', sent)) :
    (committed = none ∧ node'.role = .follower) ∨
    (committed = none ∧ node'.role = node.role ∧ node'.currentTerm = node.currentTerm ∧
      node'.log = node.log ∧ node'.commitIndex = node.commitIndex ∧
      node'.matchIndex = node.matchIndex) ∨
    (committed = none ∧ node.role = .candidate ∧
      ∃ votes, node' = { node with votesGranted := votes }.leading) ∨
    (node.role = .leader ∧ ∃ (i : Fin MAX_PEERS) (matchIndex : Nat),
      msg = .appendEntriesReply node.currentTerm true matchIndex ∧
      node.peerIndex sender = some i.val ∧
      ((committed = none ∧ node' = node.acknowledged i matchIndex) ∨
        ∃ n, node.commitIndex < n ∧ n ≤ node.log.toList.length ∧
          node.quorum ≤ (node.acknowledged i matchIndex).ackCount n ∧
          committed = node.log.get n ∧
          node' = { node.acknowledged i matchIndex with commitIndex := n })) := by
  cases msg with
  | requestVote term candidateId lastLogIndex lastLogTerm =>
      obtain ⟨rfl, hvote⟩ := step_requestVote.mp h
      rcases node.onRequestVote_cases sender term candidateId lastLogIndex lastLogTerm with
        ⟨-, -, -, heq⟩ | heq <;>
      · rw [heq, Prod.mk.injEq] at hvote
        rw [← hvote.1]
        rcases node.observe_cases term with hr | hsame
        · exact Or.inl ⟨rfl, hr⟩
        · rw [hsame]
          exact Or.inr (Or.inl ⟨rfl, rfl, rfl, rfl, rfl, rfl⟩)
  | requestVoteReply term granted =>
      obtain ⟨rfl, -, hreply⟩ := step_requestVoteReply.mp h
      rcases onVoteReply_cases hreply with ⟨-, rfl⟩ | ⟨-, -, rfl⟩ | ⟨hr, -, votes, -, hv⟩
      · exact Or.inl ⟨rfl, rfl⟩
      · exact Or.inr (Or.inl ⟨rfl, rfl, rfl, rfl, rfl, rfl⟩)
      · rcases hv with ⟨-, rfl⟩ | ⟨-, rfl⟩
        · exact Or.inr (Or.inl ⟨rfl, rfl, rfl, rfl, rfl, rfl⟩)
        · exact Or.inr (Or.inr (Or.inl ⟨rfl, hr, votes, rfl⟩))
  | appendEntries term leaderId prevLogIndex prevLogTerm entries leaderCommit =>
      obtain ⟨rfl, happ⟩ := step_appendEntries.mp h
      rcases onAppendEntries_cases happ with ⟨-, rfl, -⟩ | ⟨-, -, rfl, -⟩ | ⟨-, -, log, -, rfl, -⟩
      · exact Or.inr (Or.inl ⟨rfl, rfl, rfl, rfl, rfl, rfl⟩)
      · exact Or.inl ⟨rfl, follow_role node term⟩
      · exact Or.inl ⟨rfl, follow_role node term⟩
  | appendEntriesReply term success matchIndex =>
      obtain ⟨-, hreply⟩ := step_appendEntriesReply.mp h
      rcases onAeReply_cases hreply with ⟨-, rfl, rfl⟩ | ⟨-, -, rfl, rfl⟩ | ⟨hr, rfl, i, hi, hcase⟩
      · exact Or.inl ⟨rfl, rfl⟩
      · exact Or.inr (Or.inl ⟨rfl, rfl, rfl, rfl, rfl, rfl⟩)
      · rcases hcase with ⟨-, rfl, rfl | rfl⟩ | ⟨rfl, rfl, rfl⟩ | ⟨rfl, n, hlt, hle, -, hq, hc, rfl⟩
        · exact Or.inr (Or.inl ⟨rfl, rfl, rfl, rfl, rfl, rfl⟩)
        · exact Or.inr (Or.inl ⟨rfl, rfl, rfl, rfl, rfl, rfl⟩)
        · exact Or.inr (Or.inr (Or.inr ⟨hr, i, matchIndex, rfl, hi, Or.inl ⟨rfl, rfl⟩⟩))
        · exact Or.inr (Or.inr (Or.inr ⟨hr, i, matchIndex, rfl, hi,
            Or.inr ⟨n, hlt, hle, hq, hc, rfl⟩⟩))

-- Only an `AppendEntries` touches the log, and no other message takes anything back.
theorem step_log {msg : RaftMessage} (h : node.step sender msg = some (committed, node', sent))
    (hmsg : ∀ term leaderId prevLogIndex prevLogTerm entries leaderCommit,
      msg ≠ .appendEntries term leaderId prevLogIndex prevLogTerm entries leaderCommit) :
    node'.log = node.log ∧ node.commitIndex ≤ node'.commitIndex ∧
      node'.commitIndex ≤ max node.commitIndex node.logLen := by
  cases msg with
  | requestVote term candidateId lastLogIndex lastLogTerm =>
      obtain ⟨-, hvote⟩ := step_requestVote.mp h
      rcases node.onRequestVote_cases sender term candidateId lastLogIndex lastLogTerm with
        ⟨-, -, -, heq⟩ | heq <;>
      · rw [heq, Prod.mk.injEq] at hvote
        rw [← hvote.1]
        refine ⟨node.observe_log term, ?_, ?_⟩
        · exact Nat.le_of_eq (node.observe_commitIndex term).symm
        · exact (Nat.le_of_eq (node.observe_commitIndex term)).trans (Nat.le_max_left _ _)
  | requestVoteReply term voteGranted =>
      obtain ⟨-, -, hreply⟩ := step_requestVoteReply.mp h
      rcases onVoteReply_cases hreply with
        ⟨-, rfl⟩ | ⟨-, -, rfl⟩ | ⟨-, -, votes, -, ⟨-, rfl⟩ | ⟨-, rfl⟩⟩ <;>
        exact ⟨rfl, Nat.le_refl _, Nat.le_max_left _ _⟩
  | appendEntries term leaderId prevLogIndex prevLogTerm entries leaderCommit =>
      exact absurd rfl (hmsg term leaderId prevLogIndex prevLogTerm entries leaderCommit)
  | appendEntriesReply term success matchIndex =>
      obtain ⟨-, hreply⟩ := step_appendEntriesReply.mp h
      rcases onAeReply_cases hreply with ⟨-, -, rfl⟩ | ⟨-, -, -, rfl⟩ | ⟨-, -, k, -, hc⟩
      · exact ⟨rfl, Nat.le_refl _, Nat.le_max_left _ _⟩
      · exact ⟨rfl, Nat.le_refl _, Nat.le_max_left _ _⟩
      · rcases hc with ⟨-, -, rfl | rfl⟩ | ⟨-, -, rfl⟩ | ⟨-, n, hlt, hle, -, -, -, rfl⟩
        · exact ⟨rfl, Nat.le_refl _, Nat.le_max_left _ _⟩
        · exact ⟨rfl, Nat.le_refl _, Nat.le_max_left _ _⟩
        · exact ⟨rfl, Nat.le_refl _, Nat.le_max_left _ _⟩
        · exact ⟨rfl, Nat.le_of_lt hlt, hle.trans (Nat.le_max_right _ _)⟩

end LuxKernel.Consensus.RaftNode
