import LuxKernel.Consensus.Totality
import LuxKernel.Consensus.Votes

namespace LuxKernel.Consensus.RaftNode

open Function Heapless

-- The calls that change a node. Nothing is assumed about the messages: they may be
-- repeated, stale or forged, and come from anybody.
inductive Input where
  | startElection
  | propose (src dst : NodeId)
  | step (sender : NodeId) (msg : RaftMessage)
deriving DecidableEq

-- A call with the states around it, the entry that `step` returned and the messages
-- that were sent.
structure Event where
  input : Input
  before : RaftNode
  after : RaftNode
  committed : Option LogEntry
  sent : Sent

def perform (node : RaftNode) : Input → Option Event
  | .startElection => do
      let (after, sent) ← node.startElection
      return ⟨.startElection, node, after, none, sent⟩
  | .propose src dst => do
      let (_, after, sent) ← node.propose src dst
      return ⟨.propose src dst, node, after, none, sent⟩
  | .step sender msg => do
      let (committed, after, sent) ← node.step sender msg
      return ⟨.step sender msg, node, after, committed, sent⟩

-- A run from `RaftNode::new`, with calls and events listed latest first.
def run (id : NodeId) (peerSet : PeerSet) : List Input → Option (List Event × RaftNode)
  | [] => some ([], .new id peerSet)
  | input :: earlier => do
      let (history, node) ← run id peerSet earlier
      let event ← node.perform input
      return (event :: history, event.after)

section Runs

variable {node node' : RaftNode} {input : Input} {event : Event} {history : List Event}
variable {id : NodeId} {peerSet : PeerSet} {inputs : List Input}

theorem perform_startElection : node.perform .startElection = some event ↔
    ∃ after sent, node.startElection = some (after, sent) ∧
      event = ⟨.startElection, node, after, none, sent⟩ := by
  cases h : node.startElection with
  | none => simp [perform, h]
  | some result =>
      obtain ⟨after, sent⟩ := result
      simp [perform, h, eq_comm]

theorem perform_propose {src dst : NodeId} : node.perform (.propose src dst) = some event ↔
    ∃ result after sent, node.propose src dst = some (result, after, sent) ∧
      event = ⟨.propose src dst, node, after, none, sent⟩ := by
  cases h : node.propose src dst with
  | none => simp [perform, h]
  | some result =>
      obtain ⟨result, after, sent⟩ := result
      simp [perform, h, eq_comm]

theorem perform_step {sender : NodeId} {msg : RaftMessage} :
    node.perform (.step sender msg) = some event ↔
      ∃ committed after sent, node.step sender msg = some (committed, after, sent) ∧
        event = ⟨.step sender msg, node, after, committed, sent⟩ := by
  cases h : node.step sender msg with
  | none => simp [perform, h]
  | some result =>
      obtain ⟨committed, after, sent⟩ := result
      simp [perform, h, eq_comm]

theorem perform_input (h : node.perform input = some event) :
    event.input = input ∧ event.before = node := by
  cases input with
  | startElection =>
      obtain ⟨after, sent, -, rfl⟩ := perform_startElection.mp h
      exact ⟨rfl, rfl⟩
  | propose src dst =>
      obtain ⟨result, after, sent, -, rfl⟩ := perform_propose.mp h
      exact ⟨rfl, rfl⟩
  | step sender msg =>
      obtain ⟨committed, after, sent, -, rfl⟩ := perform_step.mp h
      exact ⟨rfl, rfl⟩

theorem perform_continues (h : node.perform input = some event) : Continues node event.after := by
  cases input with
  | startElection =>
      obtain ⟨after, sent, hrun, rfl⟩ := perform_startElection.mp h
      exact (startElection_continues hrun).1
  | propose src dst =>
      obtain ⟨result, after, sent, hrun, rfl⟩ := perform_propose.mp h
      exact propose_continues hrun
  | step sender msg =>
      obtain ⟨committed, after, sent, hrun, rfl⟩ := perform_step.mp h
      exact step_continues hrun

theorem run_cons : run id peerSet (input :: inputs) = some (history, node') ↔
    ∃ earlier node event, run id peerSet inputs = some (earlier, node) ∧
      node.perform input = some event ∧ history = event :: earlier ∧ node' = event.after := by
  constructor
  · intro h
    obtain ⟨⟨earlier, node⟩, hrun, h⟩ := Option.bind_eq_some_iff.mp h
    obtain ⟨event, hevent, h⟩ := Option.bind_eq_some_iff.mp h
    simp only [Option.pure_def, Option.some.injEq, Prod.mk.injEq] at h
    exact ⟨earlier, node, event, hrun, hevent, h.1.symm, h.2.symm⟩
  · rintro ⟨earlier, node, event, hrun, hevent, rfl, rfl⟩
    simp [run, hrun, hevent]

-- What holds of a fresh node and survives every call holds in every run.
theorem run_induction {P : List Input → List Event → RaftNode → Prop}
    (hnew : P [] [] (.new id peerSet))
    (hstep : ∀ {inputs earlier node input event}, P inputs earlier node →
      node.perform input = some event → P (input :: inputs) (event :: earlier) event.after)
    (h : run id peerSet inputs = some (history, node)) : P inputs history node := by
  induction inputs generalizing history node with
  | nil =>
      simp only [run, Option.some.injEq, Prod.mk.injEq] at h
      obtain ⟨rfl, rfl⟩ := h
      exact hnew
  | cons input earlier ih =>
      obtain ⟨before, node₁, event, hrun, hevent, rfl, rfl⟩ := run_cons.mp h
      exact hstep (ih hrun) hevent

theorem run_peers (h : run id peerSet inputs = some (history, node)) :
    node.peers = peerSet.peers := by
  refine run_induction (P := fun _ _ node => node.peers = peerSet.peers) rfl ?_ h
  intro inputs earlier node input event hpeers hevent
  rw [(perform_continues hevent).peers, hpeers]

theorem run_term_mono {later earlier : List Input} {older : List Event}
    (h : run id peerSet (later ++ earlier) = some (history, node'))
    (hearlier : run id peerSet earlier = some (older, node)) :
    node.currentTerm ≤ node'.currentTerm := by
  induction later generalizing history node' with
  | nil =>
      rw [List.nil_append, hearlier, Option.some.injEq, Prod.mk.injEq] at h
      rw [h.2]
  | cons input later ih =>
      obtain ⟨before, node₁, event, hrun, hevent, -, rfl⟩ := run_cons.mp h
      exact (ih hrun).trans (perform_continues hevent).term

end Runs

section Aborts

variable {node : RaftNode} {input : Input} {event : Event}

-- The two additions that a message can drive to their limit: the term that it made
-- the node take over, in the next election, and the index that a peer claims to hold.
def Overflows (node : RaftNode) : Input → Prop
  | .startElection => 2 ^ 64 ≤ node.currentTerm + 1
  | .step sender (.appendEntriesReply term true matchIndex) =>
      node.role = .leader ∧ term = node.currentTerm ∧ sender ∈ node.peers.toList ∧
        2 ^ 64 ≤ matchIndex + 1
  | _ => False

-- What keeps all the other sums small.
structure Bounded (node : RaftNode) : Prop where
  commitIndex : node.commitIndex ≤ LOG_CAPACITY
  votes : node.role = .candidate → node.votesGranted < node.quorum

theorem Bounded.new (id : NodeId) (peerSet : PeerSet) : Bounded (.new id peerSet) where
  commitIndex := Nat.zero_le _
  votes h := by cases h

theorem quorum_le (node : RaftNode) : node.quorum ≤ MAX_PEERS := by
  have hcap : node.peers.toList.length ≤ 16 := node.peers.length_le
  have hmax : MAX_PEERS = 16 := rfl
  rw [quorum, HVec.length_eq]
  omega

theorem step_commitIndex_le {sender : NodeId} {msg : RaftMessage} {committed : Option LogEntry}
    {node' : RaftNode} {sent : Sent} (h : node.step sender msg = some (committed, node', sent)) :
    node'.commitIndex ≤ max node.commitIndex LOG_CAPACITY := by
  cases msg with
  | appendEntries term leaderId prevLogIndex prevLogTerm entries leaderCommit =>
      obtain ⟨-, happ⟩ := step_appendEntries.mp h
      rcases onAppendEntries_cases happ with ⟨-, rfl, -⟩ | ⟨-, -, rfl, -⟩ | ⟨-, -, log, -, rfl, -⟩
      · exact Nat.le_max_left _ _
      · rw [follow_commitIndex]
        exact Nat.le_max_left _ _
      · have hcap := log.length_le
        dsimp only
        rw [RaftLog.lastIndex_eq]
        split <;> omega
  | _ =>
      obtain ⟨-, -, hle⟩ := step_log h (by simp)
      have hcap := node.log.length_le
      rw [logLen_eq] at hle
      omega

theorem Bounded.startElection (h : Bounded node) {node' : RaftNode} {sent : Sent}
    (hrun : node.startElection = some (node', sent)) : Bounded node' := by
  rcases startElection_cases hrun with ⟨-, rfl, -⟩ | ⟨hne, rfl, -⟩
  · exact ⟨h.commitIndex, fun hr => by cases hr⟩
  · refine ⟨h.commitIndex, fun _ => ?_⟩
    have hpos := List.length_pos_iff.mpr hne
    simp only [standing, quorum, HVec.length_eq]
    omega

theorem Bounded.propose (h : Bounded node) {src dst : NodeId} {result : Result Unit}
    {node' : RaftNode} {sent : Sent} (hrun : node.propose src dst = some (result, node', sent)) :
    Bounded node' := by
  rcases propose_cases hrun with ⟨-, -, rfl, -⟩ | ⟨-, -, -, rfl, -⟩ | ⟨hr, -, log, -, hc⟩
  · exact h
  · exact h
  · rcases hc with ⟨-, -, rfl⟩ | ⟨-, rfl, -⟩
    · exact ⟨log.length_le, h.votes⟩
    · exact ⟨h.commitIndex, h.votes⟩

theorem Bounded.step (h : Bounded node) {sender : NodeId} {msg : RaftMessage}
    {committed : Option LogEntry} {node' : RaftNode} {sent : Sent}
    (hrun : node.step sender msg = some (committed, node', sent)) : Bounded node' := by
  have hcommit := step_commitIndex_le hrun
  have hpeers := (step_continues hrun).peers
  have hquorum : node'.quorum = node.quorum := by rw [quorum, hpeers, quorum]
  rw [Nat.max_eq_right h.commitIndex] at hcommit
  refine ⟨hcommit, fun hcandidate => ?_⟩
  rw [hquorum]
  by_cases hmsg : ∀ term granted, msg ≠ .requestVoteReply term granted
  · rcases step_keep hrun hmsg with hr | ⟨hr, -, hv⟩
    · rw [hr] at hcandidate
      cases hcandidate
    · rw [hv]
      exact h.votes (hr ▸ hcandidate)
  · push Not at hmsg
    obtain ⟨term, granted, rfl⟩ := hmsg
    obtain ⟨-, -, hreply⟩ := step_requestVoteReply.mp hrun
    rcases onVoteReply_cases hreply with
      ⟨-, rfl⟩ | ⟨-, -, rfl⟩ | ⟨-, -, votes, -, ⟨hlt, rfl⟩ | ⟨-, rfl⟩⟩
    · cases hcandidate
    · exact h.votes hcandidate
    · exact hlt
    · cases hcandidate

theorem Bounded.perform (h : Bounded node) (hevent : node.perform input = some event) :
    Bounded event.after := by
  cases input with
  | startElection =>
      obtain ⟨after, sent, hrun, rfl⟩ := perform_startElection.mp hevent
      exact h.startElection hrun
  | propose src dst =>
      obtain ⟨result, after, sent, hrun, rfl⟩ := perform_propose.mp hevent
      exact h.propose hrun
  | step sender msg =>
      obtain ⟨committed, after, sent, hrun, rfl⟩ := perform_step.mp hevent
      exact h.step hrun

theorem step_eq_none (h : Bounded node) {sender : NodeId} {msg : RaftMessage} :
    node.step sender msg = none ↔ Overflows node (.step sender msg) := by
  cases msg with
  | requestVote term candidateId lastLogIndex lastLogTerm => simp [step, Overflows]
  | requestVoteReply term voteGranted =>
      have hne : node.onVoteReply term voteGranted ≠ none := by
        apply onVoteReply_ne_none
        intro hr
        have hvotes := h.votes hr
        have hquorum : node.quorum ≤ 16 := node.quorum_le
        omega
      obtain ⟨after, hafter⟩ := Option.ne_none_iff_exists'.mp hne
      simp [step, hafter, Overflows]
  | appendEntries term leaderId prevLogIndex prevLogTerm entries leaderCommit =>
      have hne : node.onAppendEntries sender term prevLogIndex prevLogTerm entries
          leaderCommit ≠ none := onAppendEntries_ne_none
      obtain ⟨after, hafter⟩ := Option.ne_none_iff_exists'.mp hne
      simp [step, hafter, Overflows]
  | appendEntriesReply term success matchIndex =>
      have hreply : node.step sender (.appendEntriesReply term success matchIndex) = none ↔
          node.onAeReply sender term success matchIndex = none := by
        cases hrun : node.onAeReply sender term success matchIndex <;> simp [step, hrun]
      rw [hreply, onAeReply_eq_none]
      cases success with
      | false => simp [Overflows]
      | true =>
          have hcommit : node.commitIndex ≤ 256 := h.commitIndex
          simp only [Overflows, true_and]
          refine and_congr_right fun _ => and_congr_right fun _ => and_congr_right fun _ => ?_
          omega

theorem perform_eq_none (h : Bounded node) (input : Input) :
    node.perform input = none ↔ Overflows node input := by
  cases input with
  | startElection =>
      rw [Overflows, ← startElection_eq_none]
      cases hrun : node.startElection <;> simp [perform, hrun]
  | propose src dst =>
      have hne : node.propose src dst ≠ none := propose_ne_none
      obtain ⟨result, hresult⟩ := Option.ne_none_iff_exists'.mp hne
      simp [perform, hresult, Overflows]
  | step sender msg =>
      rw [← step_eq_none h]
      cases hrun : node.step sender msg <;> simp [perform, hrun]

theorem bounded_run {id : NodeId} {peerSet : PeerSet} {inputs : List Input}
    {history : List Event} (h : run id peerSet inputs = some (history, node)) : Bounded node :=
  run_induction (P := fun _ _ node => Bounded node) (Bounded.new id peerSet)
    (fun hold hevent => hold.perform hevent) h

-- Every call on a reachable node returns, except for the two overflows.
theorem returns_iff (id : NodeId) (peerSet : PeerSet) (inputs : List Input)
    (history : List Event) (node : RaftNode)
    (hrun : run id peerSet inputs = some (history, node)) (input : Input) :
    node.perform input ≠ none ↔ ¬Overflows node input :=
  not_congr (perform_eq_none (bounded_run hrun) input)

end Aborts

-- `node1` with the votes of `node2` and `node3`.
def elected : List Input :=
  [.step node3 (.requestVoteReply 1 true), .step node2 (.requestVoteReply 1 true), .startElection]

theorem returns_iff_elected : ∃ history node, run node1 threePeers elected = some (history, node) ∧
    node.role = .leader ∧ node.perform (.propose node1 node2) ≠ none := by
  have heval : ∃ result ∈ run node1 threePeers elected, result.2.role = .leader := by
    decide +kernel
  obtain ⟨⟨history, node⟩, hrun, hleads⟩ := heval
  exact ⟨history, node, hrun, hleads,
    (returns_iff node1 threePeers elected history node hrun (.propose node1 node2)).mpr fun h => h⟩

-- A vote request with the greatest term stops the node at its next election, and an
-- acknowledgement of the greatest index stops a leader at once.
theorem messages_abort :
    (∃ result ∈ run node1 threePeers [.step node2 (.requestVote (2 ^ 64 - 1) node2 0 0)],
      result.2.perform .startElection = none) ∧
    ∃ result ∈ run node1 threePeers elected,
      result.2.perform (.step node2 (.appendEntriesReply 1 true (2 ^ 64 - 1))) = none := by
  decide +kernel

section Votes

variable {node : RaftNode} {input : Input} {event : Event} {history : List Event}
variable {term : Nat} {candidate : NodeId}

-- The node backs a candidate: itself when it stands for election, or the one that
-- a granted request names, whoever sent it.
inductive Event.VotesFor (event : Event) (term : Nat) : NodeId → Prop where
  | candidacy (hinput : event.input = .startElection) (hterm : event.after.currentTerm = term) :
      VotesFor event term event.after.id
  | grant {sender candidate : NodeId} {requested lastLogIndex lastLogTerm : Nat}
      (hinput : event.input =
        .step sender (.requestVote requested candidate lastLogIndex lastLogTerm))
      (hsent : (sender, .requestVoteReply term true) ∈ event.sent) :
      VotesFor event term candidate

-- A vote is forgotten only when the term grows.
def KeepsVote (node node' : RaftNode) : Prop :=
  node.currentTerm < node'.currentTerm ∨
    (node'.currentTerm = node.currentTerm ∧
      ∀ c, node.votedFor = some c → node'.votedFor = some c)

theorem KeepsVote.of_same {node' : RaftNode} (hterm : node'.currentTerm = node.currentTerm)
    (hvoted : node'.votedFor = node.votedFor) : KeepsVote node node' :=
  Or.inr ⟨hterm, fun _ hc => hvoted.trans hc⟩

theorem keepsVote_requestVote (node : RaftNode) (sender : NodeId) (term : Nat)
    (candidateId : NodeId) (lastLogIndex lastLogTerm : Nat) :
    KeepsVote node (node.onRequestVote sender term candidateId lastLogIndex lastLogTerm).1 := by
  have hcases := node.onRequestVote_cases sender term candidateId lastLogIndex lastLogTerm
  by_cases hnew : term > node.currentTerm
  · left
    have hterm := node.observe_currentTerm term
    rcases hcases with ⟨-, -, -, heq⟩ | heq <;>
    · rw [heq]
      show node.currentTerm < (node.observe term).currentTerm
      omega
  · have hsame : node.observe term = node := if_neg hnew
    rw [hsame] at hcases
    rcases hcases with ⟨-, -, hfree, heq⟩ | heq
    · rw [heq]
      refine Or.inr ⟨rfl, fun c hc => ?_⟩
      rw [hc] at hfree
      rcases hfree with hnone | hsome
      · cases hnone
      · exact hsome.symm
    · rw [heq]
      exact .of_same rfl rfl

theorem keepsVote_follow (node : RaftNode) (term : Nat) : KeepsVote node (node.follow term) := by
  unfold follow
  split
  · exact Or.inl ‹_›
  · exact .of_same rfl rfl

theorem perform_votedFor (h : node.perform input = some event) : KeepsVote node event.after := by
  cases input with
  | startElection =>
      obtain ⟨after, sent, hrun, rfl⟩ := perform_startElection.mp h
      left
      rw [(startElection_continues hrun).2]
      exact Nat.lt_succ_self _
  | propose src dst =>
      obtain ⟨result, after, sent, hrun, rfl⟩ := perform_propose.mp h
      rcases propose_cases hrun with ⟨-, -, rfl, -⟩ | ⟨-, -, -, rfl, -⟩ | ⟨-, -, log, -, hc⟩
      · exact .of_same rfl rfl
      · exact .of_same rfl rfl
      · rcases hc with ⟨-, -, rfl⟩ | ⟨-, rfl, -⟩ <;> exact .of_same rfl rfl
  | step sender msg =>
      obtain ⟨committed, after, sent, hrun, rfl⟩ := perform_step.mp h
      dsimp only
      cases msg with
      | requestVote requested candidateId lastLogIndex lastLogTerm =>
          obtain ⟨-, hvote⟩ := step_requestVote.mp hrun
          have hkeeps := node.keepsVote_requestVote sender requested candidateId lastLogIndex
            lastLogTerm
          rw [hvote] at hkeeps
          exact hkeeps
      | requestVoteReply requested granted =>
          obtain ⟨-, -, hreply⟩ := step_requestVoteReply.mp hrun
          rcases onVoteReply_cases hreply with
            ⟨hlt, rfl⟩ | ⟨-, -, rfl⟩ | ⟨-, -, votes, -, ⟨-, rfl⟩ | ⟨-, rfl⟩⟩
          · exact Or.inl hlt
          · exact .of_same rfl rfl
          · exact .of_same rfl rfl
          · exact .of_same rfl rfl
      | appendEntries requested leaderId prevLogIndex prevLogTerm entries leaderCommit =>
          obtain ⟨-, happ⟩ := step_appendEntries.mp hrun
          rcases onAppendEntries_cases happ with ⟨-, rfl, -⟩ | ⟨-, -, rfl, -⟩ | ⟨-, -, log, -, rfl, -⟩
          · exact .of_same rfl rfl
          · exact node.keepsVote_follow requested
          · exact node.keepsVote_follow requested
      | appendEntriesReply requested success matchIndex =>
          obtain ⟨-, hreply⟩ := step_appendEntriesReply.mp hrun
          rcases onAeReply_cases hreply with ⟨hlt, -, rfl⟩ | ⟨-, -, -, rfl⟩ | ⟨-, -, k, -, hc⟩
          · exact Or.inl hlt
          · exact .of_same rfl rfl
          · rcases hc with ⟨-, -, rfl | rfl⟩ | ⟨-, -, rfl⟩ | ⟨-, n, -, -, -, -, -, rfl⟩ <;>
              exact .of_same rfl rfl

-- Only the answer to a vote request grants a vote, and only to a log that is at least
-- as far as the node's own.
theorem perform_grant (h : node.perform input = some event) {dst : NodeId}
    (hsent : (dst, .requestVoteReply term true) ∈ event.sent) :
    ∃ candidate lastLogIndex lastLogTerm,
      event.input = .step dst (.requestVote term candidate lastLogIndex lastLogTerm) ∧
      (event.before.log.lastTerm < lastLogTerm ∨
        event.before.log.lastTerm = lastLogTerm ∧ event.before.log.lastIndex ≤ lastLogIndex) ∧
      event.after.currentTerm = term ∧ event.after.votedFor = some candidate ∧
      (node.currentTerm < term ∨ node.currentTerm = term ∧
        (node.votedFor = none ∨ node.votedFor = some candidate)) := by
  cases input with
  | startElection =>
      obtain ⟨after, sent, hrun, rfl⟩ := perform_startElection.mp h
      rcases startElection_cases hrun with ⟨-, -, rfl⟩ | ⟨-, -, rfl⟩ <;> simp at hsent
  | propose src dst' =>
      obtain ⟨result, after, sent, hrun, rfl⟩ := perform_propose.mp h
      obtain ⟨idx, batch, hsend, hm⟩ := propose_sent hrun hsent
      rcases sendAeTo_eq_some hsend with ⟨-, rfl⟩ | ⟨_, _, _, _, -, -, -, -, rfl⟩ <;> simp at hm
  | step sender msg =>
      obtain ⟨committed, after, sent, hrun, rfl⟩ := perform_step.mp h
      dsimp only at hsent ⊢
      obtain ⟨j, hj⟩ := List.getElem?_of_mem hsent
      obtain ⟨-, rfl, hreply⟩ := step_sent hrun hj
      have hasked : ∃ candidate lastLogIndex lastLogTerm,
          msg = .requestVote term candidate lastLogIndex lastLogTerm := by
        rcases hreply with ⟨_, _, heq, hgranted⟩ | ⟨_, _, _, heq⟩
        · obtain ⟨rfl, rfl⟩ := RaftMessage.requestVoteReply.inj heq
          exact hgranted rfl
        · cases heq
      obtain ⟨candidate, lastLogIndex, lastLogTerm, rfl⟩ := hasked
      obtain ⟨-, hvote⟩ := step_requestVote.mp hrun
      have hterm := node.observe_currentTerm term
      rcases node.onRequestVote_cases dst term candidate lastLogIndex lastLogTerm with
        ⟨hcur, hup, hfree, heq⟩ | heq
      · rw [heq, Prod.mk.injEq] at hvote
        refine ⟨candidate, lastLogIndex, lastLogTerm, rfl, ?_, ?_, ?_, ?_⟩
        · simp only [logUpToDateFor, Bool.or_eq_true, Bool.and_eq_true, decide_eq_true_eq] at hup
          exact hup.imp_right fun hequal => ⟨hequal.1.symm, hequal.2⟩
        · rw [← hvote.1]
          exact hcur
        · rw [← hvote.1]
        · by_cases hnew : term > node.currentTerm
          · exact Or.inl hnew
          · have hsame : node.observe term = node := if_neg hnew
            rw [hsame] at hfree hcur
            exact Or.inr ⟨hcur, hfree⟩
      · rw [heq, Prod.mk.injEq] at hvote
        rw [← hvote.2] at hsent
        simp at hsent

theorem perform_votesFor (h : node.perform input = some event)
    (hvotes : event.VotesFor term candidate) :
    event.after.currentTerm = term ∧ event.after.votedFor = some candidate ∧
      (node.currentTerm < term ∨ node.currentTerm = term ∧
        (node.votedFor = none ∨ node.votedFor = some candidate)) := by
  cases hvotes with
  | candidacy hinput hterm =>
      rw [(perform_input h).1] at hinput
      subst hinput
      obtain ⟨after, sent, hrun, rfl⟩ := perform_startElection.mp h
      have hsucc := (startElection_continues hrun).2
      dsimp only at hterm ⊢
      refine ⟨hterm, ?_, Or.inl (by omega)⟩
      rcases startElection_cases hrun with ⟨-, rfl, -⟩ | ⟨-, rfl, -⟩ <;> rfl
  | grant hinput hsent =>
      obtain ⟨named, lastLogIndex, lastLogTerm, hasked, -, hrest⟩ := perform_grant h hsent
      rw [hinput] at hasked
      obtain ⟨-, hmsg⟩ := Input.step.inj hasked
      obtain ⟨-, rfl, -⟩ := RaftMessage.requestVote.inj hmsg
      exact hrest

-- The node remembers whom it has backed in its current term.
structure Remembers (history : List Event) (node : RaftNode) : Prop where
  recorded : ∀ event ∈ history, ∀ term candidate, event.VotesFor term candidate →
    term ≤ node.currentTerm ∧ (term = node.currentTerm → node.votedFor = some candidate)
  unique : ∀ first ∈ history, ∀ second ∈ history, ∀ term c c',
    first.VotesFor term c → second.VotesFor term c' → c = c'

theorem Remembers.perform (h : Remembers history node)
    (hevent : node.perform input = some event) : Remembers (event :: history) event.after := by
  have hfresh : ∀ old ∈ history, ∀ term c c', old.VotesFor term c → event.VotesFor term c' →
      c = c' := by
    intro old hold term c c' hc hc'
    obtain ⟨hle, hvoted⟩ := h.recorded old hold term c hc
    obtain ⟨-, -, hlt | ⟨heq, hfree⟩⟩ := perform_votesFor hevent hc'
    · omega
    · rw [hvoted heq.symm] at hfree
      rcases hfree with hnone | hsome
      · cases hnone
      · exact Option.some.inj hsome
  constructor
  · intro e he term c hc
    rcases List.mem_cons.mp he with rfl | hold
    · obtain ⟨hterm, hvoted, -⟩ := perform_votesFor hevent hc
      exact ⟨Nat.le_of_eq hterm.symm, fun _ => hvoted⟩
    · obtain ⟨hle, hvoted⟩ := h.recorded e hold term c hc
      rcases perform_votedFor hevent with hlt | ⟨hsame, hkeeps⟩
      · exact ⟨by omega, fun heq => by omega⟩
      · rw [hsame]
        exact ⟨hle, fun heq => hkeeps c (hvoted heq)⟩
  · intro first hfirst second hsecond term c c' hc hc'
    rcases List.mem_cons.mp hfirst with rfl | hold
    · rcases List.mem_cons.mp hsecond with rfl | hold'
      · have hvoted := (perform_votesFor hevent hc).2.1
        rw [(perform_votesFor hevent hc').2.1] at hvoted
        exact (Option.some.inj hvoted).symm
      · exact (hfresh second hold' term c' c hc' hc).symm
    · rcases List.mem_cons.mp hsecond with rfl | hold'
      · exact hfresh first hold term c c' hc hc'
      · exact h.unique first hold second hold' term c c' hc hc'

theorem remembers_run {id : NodeId} {peerSet : PeerSet} {inputs : List Input}
    (h : run id peerSet inputs = some (history, node)) : Remembers history node := by
  refine run_induction (P := fun _ => Remembers) ⟨?_, ?_⟩
    (fun hold hevent => hold.perform hevent) h
  · intro event hevent
    cases hevent
  · intro event hevent
    cases hevent

-- Every event of a run is one of its calls.
theorem perform_of_mem {id : NodeId} {peerSet : PeerSet} {inputs : List Input}
    (h : run id peerSet inputs = some (history, node)) (hevent : event ∈ history) :
    event.before.perform event.input = some event := by
  refine run_induction (P := fun _ history _ => ∀ event ∈ history,
    event.before.perform event.input = some event) ?_ ?_ h event hevent
  · intro event hevent
    cases hevent
  · intro inputs earlier node input new hold hnew event hevent
    rcases List.mem_cons.mp hevent with rfl | hmem
    · rw [(perform_input hnew).1, (perform_input hnew).2]
      exact hnew
    · exact hold event hmem

theorem one_vote_per_term (id : NodeId) (peerSet : PeerSet) (inputs : List Input)
    (history : List Event) (node : RaftNode)
    (hrun : run id peerSet inputs = some (history, node)) :
    (∀ later earlier older before, inputs = later ++ earlier →
      run id peerSet earlier = some (older, before) →
        before.currentTerm ≤ node.currentTerm) ∧
    (∀ term c c', ∀ first ∈ history, ∀ second ∈ history,
      first.VotesFor term c → second.VotesFor term c' → c = c') ∧
    (∀ event ∈ history, ∀ dst term, (dst, .requestVoteReply term true) ∈ event.sent →
      ∃ candidate lastLogIndex lastLogTerm,
        event.input = .step dst (.requestVote term candidate lastLogIndex lastLogTerm) ∧
        (event.before.log.lastTerm < lastLogTerm ∨
          event.before.log.lastTerm = lastLogTerm ∧ event.before.log.lastIndex ≤ lastLogIndex)) := by
  refine ⟨?_, ?_, ?_⟩
  · rintro later earlier older before rfl hearlier
    exact run_term_mono hrun hearlier
  · intro term c c' first hfirst second hsecond
    exact (remembers_run hrun).unique first hfirst second hsecond term c c'
  · intro event hevent dst term hsent
    obtain ⟨candidate, lastLogIndex, lastLogTerm, hasked, hup, -⟩ :=
      perform_grant (perform_of_mem hrun hevent) hsent
    exact ⟨candidate, lastLogIndex, lastLogTerm, hasked, hup⟩

end Votes

-- `node2` and `node3` both ask for the vote of `node1` in term 1, and `node2` asks twice.
def twoCandidates : List Input :=
  [.step node2 (.requestVote 1 node2 0 0), .step node3 (.requestVote 1 node3 0 0),
    .step node2 (.requestVote 1 node2 0 0)]

theorem one_vote_per_term_twoCandidates : ∃ history node,
    run node1 threePeers twoCandidates = some (history, node) ∧
      (∃ event ∈ history, (node2, .requestVoteReply 1 true) ∈ event.sent) ∧
      ∀ c c', ∀ first ∈ history, ∀ second ∈ history,
        first.VotesFor 1 c → second.VotesFor 1 c' → c = c' := by
  have heval : ∃ result ∈ run node1 threePeers twoCandidates,
      ∃ event ∈ result.1, (node2, .requestVoteReply 1 true) ∈ event.sent := by
    decide +kernel
  obtain ⟨⟨history, node⟩, hrun, hgrant⟩ := heval
  obtain ⟨-, hunique, -⟩ := one_vote_per_term node1 threePeers twoCandidates history node hrun
  exact ⟨history, node, hrun, hgrant, hunique 1⟩

end LuxKernel.Consensus.RaftNode
