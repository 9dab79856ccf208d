import LuxKernel.Consensus.Cluster

namespace LuxKernel.Consensus

open Function Heapless

-- A single node whose environment is arbitrary: messages may be repeated,
-- stale, or come from nodes that are no peers.
inductive Call where
  | startElection
  | step (sender : NodeId) (msg : RaftMessage)
deriving DecidableEq

def RaftNode.call (node : RaftNode) : Call → Option RaftNode
  | .startElection => (node.startElection).map Prod.fst
  | .step sender msg => (node.step sender msg).map fun result => result.2.1

-- The calls made so far, latest first, and the state they lead to. Each call must
-- be `allowed` in view of the earlier ones and of the node's state.
inductive Runs (allowed : List Call → RaftNode → Call → Prop) (id : NodeId) (peerSet : PeerSet) :
    List Call → RaftNode → Prop
  | new : Runs allowed id peerSet [] (RaftNode.new id peerSet)
  | call {calls node c node'} (h : Runs allowed id peerSet calls node)
      (hc : allowed calls node c) (hrun : node.call c = some node') :
      Runs allowed id peerSet (c :: calls) node'

def anyCall (_ : List Call) (_ : RaftNode) (_ : Call) : Prop := True

def grantOf (sender : NodeId) (term : Nat) : Call := .step sender (.requestVoteReply term true)

-- The members of the peer set that have delivered a granted vote for the term.
def granters (peerSet : PeerSet) (calls : List Call) (term : Nat) : Finset NodeId :=
  peerSet.peers.toList.toFinset.filter fun v => grantOf v term ∈ calls

-- The property: a leader has the votes of enough distinct peers.
def VotesBacked (peerSet : PeerSet) (calls : List Call) (node : RaftNode) : Prop :=
  node.role = .leader →
    node.quorum - 1 ≤ (granters peerSet calls node.currentTerm).card

-- `on_vote_reply` does not look at the sender. A granted vote is fresh if, whenever
-- it is counted, it comes from a peer that has not delivered one for the term before.
def FreshVotes (peerSet : PeerSet) (calls : List Call) (node : RaftNode) : Call → Prop
  | .step sender (.requestVoteReply term true) =>
      node.role = .candidate → term = node.currentTerm →
        sender ∈ peerSet.peers.toList ∧ grantOf sender term ∉ calls
  | _ => True

variable {peerSet : PeerSet} {calls : List Call} {node node' : RaftNode} {c : Call}
variable {id v : NodeId} {term : Nat}

theorem mem_granters : v ∈ granters peerSet calls term ↔
    v ∈ peerSet.peers.toList ∧ grantOf v term ∈ calls := by
  rw [granters, Finset.mem_filter, List.mem_toFinset]

theorem granters_mono (peerSet : PeerSet) (calls : List Call) (c : Call) (term : Nat) :
    (granters peerSet calls term).card ≤ (granters peerSet (c :: calls) term).card := by
  apply Finset.card_le_card
  intro v hv
  rw [mem_granters] at hv ⊢
  exact ⟨hv.1, List.mem_cons_of_mem _ hv.2⟩

theorem granters_fresh (hv : v ∈ peerSet.peers.toList) (hnew : grantOf v term ∉ calls) :
    (granters peerSet calls term).card <
      (granters peerSet (grantOf v term :: calls) term).card := by
  apply Finset.card_lt_card
  refine Finset.ssubset_iff_of_subset ?_ |>.mpr ⟨v, ?_, ?_⟩
  · intro w hw
    rw [mem_granters] at hw ⊢
    exact ⟨hw.1, List.mem_cons_of_mem _ hw.2⟩
  · rw [mem_granters]
    exact ⟨hv, List.mem_cons_self⟩
  · rw [mem_granters]
    exact fun h => hnew h.2

-- A candidate's counter and a leader's quorum are covered by distinct peers.
structure Counted (peerSet : PeerSet) (calls : List Call) (node : RaftNode) : Prop where
  peers : node.peers = peerSet.peers
  candidate : node.role = .candidate →
    node.votesGranted ≤ 1 + (granters peerSet calls node.currentTerm).card
  leader : node.role = .leader →
    node.quorum ≤ 1 + (granters peerSet calls node.currentTerm).card

theorem Counted.new (id : NodeId) (peerSet : PeerSet) :
    Counted peerSet [] (RaftNode.new id peerSet) where
  peers := rfl
  candidate h := by cases h
  leader h := by cases h

-- A call that keeps role, term and votes keeps the cover, and a follower needs none.
theorem Counted.keep (h : Counted peerSet calls node) (hpeers : node'.peers = node.peers)
    (hkeep : node'.role = .follower ∨ (node'.role = node.role ∧
      node'.currentTerm = node.currentTerm ∧ node'.votesGranted = node.votesGranted)) (c : Call) :
    Counted peerSet (c :: calls) node' := by
  rcases hkeep with hr | ⟨hr, ht, hv⟩
  · refine ⟨hpeers.trans h.peers, fun hc => ?_, fun hl => ?_⟩
    · rw [hr] at hc
      cases hc
    · rw [hr] at hl
      cases hl
  · have hq : node'.quorum = node.quorum := by rw [RaftNode.quorum, hpeers, RaftNode.quorum]
    have hmono := granters_mono peerSet calls c node.currentTerm
    refine ⟨hpeers.trans h.peers, fun hc => ?_, fun hl => ?_⟩
    · have := h.candidate (hr ▸ hc)
      rw [hv, ht]
      omega
    · have := h.leader (hr ▸ hl)
      rw [hq, ht]
      omega

-- Only `start_election` and a vote reply make a node a candidate or a leader.
theorem RaftNode.step_keep {sender : NodeId} {msg : RaftMessage} {committed : Option LogEntry}
    {sent : Sent} (h : node.step sender msg = some (committed, node', sent))
    (hmsg : ∀ term granted, msg ≠ .requestVoteReply term granted) :
    node'.role = .follower ∨ (node'.role = node.role ∧
      node'.currentTerm = node.currentTerm ∧ node'.votesGranted = node.votesGranted) := by
  cases msg with
  | requestVote term candidateId lastLogIndex lastLogTerm =>
      obtain ⟨-, h⟩ := step_requestVote.mp h
      rcases node.onRequestVote_cases sender term candidateId lastLogIndex lastLogTerm with
        ⟨-, -, -, heq⟩ | heq <;>
      · rw [heq, Prod.mk.injEq] at h
        rw [← h.1]
        refine (node.observe_cases term).imp (fun hr => hr) ?_
        intro hsame
        rw [hsame]
        exact ⟨rfl, rfl, rfl⟩
  | requestVoteReply term granted => exact absurd rfl (hmsg term granted)
  | appendEntries term leaderId prevLogIndex prevLogTerm entries leaderCommit =>
      obtain ⟨-, happ⟩ := step_appendEntries.mp h
      rcases onAppendEntries_cases happ with ⟨-, rfl, -⟩ | ⟨-, -, rfl, -⟩ | ⟨-, -, log, -, rfl, -⟩
      · exact Or.inr ⟨rfl, rfl, rfl⟩
      · exact Or.inl (follow_role node term)
      · exact Or.inl (follow_role node term)
  | appendEntriesReply term success matchIndex =>
      obtain ⟨-, hreply⟩ := step_appendEntriesReply.mp h
      rcases onAeReply_cases hreply with ⟨-, -, rfl⟩ | ⟨-, -, -, rfl⟩ | ⟨-, -, i, -, hr⟩
      · exact Or.inl rfl
      · exact Or.inr ⟨rfl, rfl, rfl⟩
      · rcases hr with ⟨-, -, rfl | rfl⟩ | ⟨-, -, rfl⟩ | ⟨-, n, -, -, -, -, -, rfl⟩ <;>
          exact Or.inr ⟨rfl, rfl, rfl⟩

theorem Counted.startElection (h : Counted peerSet calls node) {sent : Sent}
    (hrun : node.startElection = some (node', sent)) :
    Counted peerSet (.startElection :: calls) node' := by
  rcases RaftNode.startElection_cases hrun with ⟨hnil, rfl, -⟩ | ⟨-, rfl, -⟩
  · refine ⟨h.peers, (fun hc => by cases hc), fun _ => ?_⟩
    simp [RaftNode.quorum, RaftNode.leading, RaftNode.standing, HVec.length_eq, hnil]
  · exact ⟨h.peers, fun _ => Nat.le_add_right 1 _, fun hl => by cases hl⟩

theorem Counted.voteReply (h : Counted peerSet calls node) {sender : NodeId} {granted : Bool}
    (hfresh : FreshVotes peerSet calls node (.step sender (.requestVoteReply term granted)))
    (hrun : node.onVoteReply term granted = some node') :
    Counted peerSet (.step sender (.requestVoteReply term granted) :: calls) node' := by
  rcases RaftNode.onVoteReply_cases hrun with
    ⟨-, rfl⟩ | ⟨-, -, rfl⟩ | ⟨hr, rfl, votes, hvotes, hrest⟩
  · have hpeers : (node.stepDown term).peers = node.peers := rfl
    exact h.keep hpeers (Or.inl rfl) _
  · exact h.keep rfl (Or.inr ⟨rfl, rfl, rfl⟩) _
  -- the counter grows by one exactly when the set of granters does
  have hold := h.candidate hr
  have hcover : votes ≤ 1 + (granters peerSet
      (.step sender (.requestVoteReply node.currentTerm granted) :: calls)
        node.currentTerm).card := by
    cases granted with
    | false =>
        have hmono := granters_mono peerSet calls
          (.step sender (.requestVoteReply node.currentTerm false)) node.currentTerm
        simp only [Bool.false_eq_true, if_false, Nat.add_zero] at hvotes
        omega
    | true =>
        obtain ⟨hmem, hnew⟩ := hfresh hr rfl
        have hlt := granters_fresh hmem hnew
        simp only [grantOf, if_true] at hlt hvotes
        omega
  rcases hrest with ⟨-, rfl⟩ | ⟨hq, rfl⟩
  · refine ⟨h.peers, fun _ => hcover, fun hl => ?_⟩
    rw [show node.role = .leader from hl] at hr
    cases hr
  · exact ⟨h.peers, (fun hc => by cases hc), fun _ => Nat.le_trans hq hcover⟩

theorem Counted.call (h : Counted peerSet calls node) (hfresh : FreshVotes peerSet calls node c)
    (hcall : node.call c = some node') : Counted peerSet (c :: calls) node' := by
  cases c with
  | startElection =>
      obtain ⟨⟨node₁, sent⟩, hrun, rfl⟩ := Option.map_eq_some_iff.mp hcall
      exact h.startElection hrun
  | step sender msg =>
      obtain ⟨⟨committed, node₁, sent⟩, hrun, rfl⟩ := Option.map_eq_some_iff.mp hcall
      by_cases hmsg : ∀ term granted, msg ≠ .requestVoteReply term granted
      · exact h.keep (RaftNode.step_continues hrun).peers (RaftNode.step_keep hrun hmsg) _
      · push Not at hmsg
        obtain ⟨term, granted, rfl⟩ := hmsg
        exact h.voteReply hfresh (RaftNode.step_requestVoteReply.mp hrun).2.2

-- A leader's votes come from distinct peers in every run in which the votes are fresh.
theorem votesBacked_of_freshVotes (h : Runs (FreshVotes peerSet) id peerSet calls node) :
    VotesBacked peerSet calls node := by
  have hcounted : Counted peerSet calls node := by
    induction h with
    | new => exact Counted.new id peerSet
    | call _ hc hrun ih => exact ih.call hc hrun
  intro hl
  have := hcounted.leader hl
  omega

def node4 : NodeId := ⟨4, by decide⟩

def threePeers : PeerSet := ⟨⟨[node2, node3, node4], by decide⟩⟩

-- A quorum of three: its own vote, and the votes of `node2` and `node3`.
theorem votesBacked_of_freshVotes_threePeers : ∃ calls node,
    Runs (FreshVotes threePeers) node1 threePeers calls node ∧ node.role = .leader ∧
      VotesBacked threePeers calls node := by
  have hrun : Runs (FreshVotes threePeers) node1 threePeers
      [grantOf node3 1, grantOf node2 1, .startElection] _ :=
    ((Runs.new.call trivial rfl).call (fun _ _ => by decide) rfl).call (fun _ _ => by decide) rfl
  exact ⟨_, _, hrun, rfl, votesBacked_of_freshVotes hrun⟩

-- The same grant delivered twice is counted twice.
theorem votes_not_backed : ∃ calls node,
    Runs anyCall node1 threePeers calls node ∧ ¬VotesBacked threePeers calls node := by
  have hrun : Runs anyCall node1 threePeers
      [grantOf node2 1, grantOf node2 1, .startElection] _ :=
    ((Runs.new.call trivial rfl).call trivial rfl).call trivial rfl
  exact ⟨_, _, hrun, fun h => absurd (h rfl) (by decide)⟩

end LuxKernel.Consensus
