import LuxKernel.Consensus.Raft

namespace LuxKernel.Consensus.RaftNode

open Function Heapless Replication

-- What each method of a node can do, said once: a method that returns at all
-- leaves the node in one of the listed states and sends the listed messages. These are
-- the methods by which a node votes, stands for election and follows a leader.

variable {node node' : RaftNode} {sender : NodeId} {sent : Sent}

-- The node after `become_leader`.
def leading (node : RaftNode) : RaftNode :=
  { node with
    role := .leader
    nextIndex := fun i =>
      if i.val < node.peers.length then node.log.lastIndex + 1 else node.nextIndex i
    matchIndex := fun i => if i.val < node.peers.length then 0 else node.matchIndex i }

-- The node after the assignments at the head of `start_election`.
def standing (node : RaftNode) : RaftNode :=
  { node with
    currentTerm := node.currentTerm + 1
    role := .candidate
    votedFor := some node.id
    votesGranted := 1 }

-- The node after it has read a term in a vote request.
def observe (node : RaftNode) (term : Nat) : RaftNode :=
  if term > node.currentTerm then node.stepDown term else node

-- The node after it has read a term in an `AppendEntries` that is not stale.
def follow (node : RaftNode) (term : Nat) : RaftNode :=
  if term > node.currentTerm then node.stepDown term else { node with role := .follower }

def PrevOk (node : RaftNode) (prevLogIndex prevLogTerm : Nat) : Prop :=
  prevLogIndex = 0 ∨ node.log.termAt prevLogIndex = some prevLogTerm

theorem logLen_eq (node : RaftNode) : node.logLen = node.log.toList.length :=
  RaftLog.len_eq node.log

theorem becomeLeader_eq (node : RaftNode) : node.becomeLeader = some node.leading := by
  have hcap : node.log.toList.length ≤ 256 := node.log.length_le
  have hnext : addU64 node.log.lastIndex 1 = some (node.log.lastIndex + 1) :=
    addU64_eq_some.mpr ⟨by rw [RaftLog.lastIndex_eq]; omega, rfl⟩
  simp only [becomeLeader, hnext, Option.bind_eq_bind, Option.bind_some, Option.pure_def, leading]

theorem startElection_cases (h : node.startElection = some (node', sent)) :
    (node.peers.toList = [] ∧ node' = node.standing.leading ∧ sent = []) ∨
    (node.peers.toList ≠ [] ∧ node' = node.standing ∧
      sent = node.peers.toList.map fun peer =>
        (peer, .requestVote (node.currentTerm + 1) node.id node.log.lastIndex node.log.lastTerm)) := by
  unfold startElection at h
  obtain ⟨term, hterm, h⟩ := Option.bind_eq_some_iff.mp h
  obtain ⟨-, rfl⟩ := addU64_eq_some.mp hterm
  by_cases hp : node.peers.toList = []
  · left
    simp only [hp, List.isEmpty_nil, if_true] at h
    rw [becomeLeader_eq] at h
    simp only [Option.bind_eq_bind, Option.bind_some, Option.pure_def, Option.some.injEq,
      Prod.mk.injEq] at h
    exact ⟨hp, h.1.symm, h.2.symm⟩
  · right
    have hne : node.peers.toList.isEmpty = false := by simpa using hp
    simp only [hne, Bool.false_eq_true, if_false, Option.pure_def, Option.some.injEq,
      Prod.mk.injEq] at h
    exact ⟨hp, h.1.symm, h.2.symm⟩

theorem observe_currentTerm (node : RaftNode) (term : Nat) :
    (node.observe term).currentTerm = max node.currentTerm term := by
  unfold observe
  split
  · simp only [stepDown]; omega
  · omega

@[simp] theorem observe_log (node : RaftNode) (term : Nat) : (node.observe term).log = node.log := by
  unfold observe
  split <;> rfl

@[simp] theorem observe_commitIndex (node : RaftNode) (term : Nat) :
    (node.observe term).commitIndex = node.commitIndex := by
  unfold observe
  split <;> rfl

theorem follow_currentTerm {term : Nat} (h : node.currentTerm ≤ term) :
    (node.follow term).currentTerm = term := by
  unfold follow
  split
  · rfl
  · simp only; omega

@[simp] theorem follow_log (node : RaftNode) (term : Nat) : (node.follow term).log = node.log := by
  unfold follow
  split <;> rfl

@[simp] theorem follow_commitIndex (node : RaftNode) (term : Nat) :
    (node.follow term).commitIndex = node.commitIndex := by
  unfold follow
  split <;> rfl

@[simp] theorem follow_role (node : RaftNode) (term : Nat) :
    (node.follow term).role = .follower := by
  unfold follow
  split <;> rfl

theorem onRequestVote_cases (node : RaftNode) (sender : NodeId) (term : Nat) (candidateId : NodeId)
    (lastLogIndex lastLogTerm : Nat) :
    ((node.observe term).currentTerm = term ∧
      node.logUpToDateFor lastLogIndex lastLogTerm = true ∧
      ((node.observe term).votedFor = none ∨ (node.observe term).votedFor = some candidateId) ∧
      node.onRequestVote sender term candidateId lastLogIndex lastLogTerm =
        ({ node.observe term with votedFor := some candidateId },
          [(sender, .requestVoteReply term true)])) ∨
    node.onRequestVote sender term candidateId lastLogIndex lastLogTerm =
      (node.observe term,
        [(sender, .requestVoteReply (node.observe term).currentTerm false)]) := by
  have hlog : (node.observe term).logUpToDateFor lastLogIndex lastLogTerm =
      node.logUpToDateFor lastLogIndex lastLogTerm := by
    simp [logUpToDateFor]
  have hterm := node.observe_currentTerm term
  have heq : node.onRequestVote sender term candidateId lastLogIndex lastLogTerm =
      (let granted := decide (term ≥ (node.observe term).currentTerm) &&
          (node.observe term).logUpToDateFor lastLogIndex lastLogTerm &&
          (node.observe term).votedFor.elim true fun v => decide (v = candidateId)
        let voter := if granted then { node.observe term with votedFor := some candidateId }
          else node.observe term
        (voter, [(sender, .requestVoteReply voter.currentTerm granted)])) := rfl
  rw [heq]
  generalize hg : (decide (term ≥ (node.observe term).currentTerm) &&
    (node.observe term).logUpToDateFor lastLogIndex lastLogTerm &&
    (node.observe term).votedFor.elim true fun v => decide (v = candidateId)) = granted
  cases granted with
  | false => exact Or.inr rfl
  | true =>
      left
      simp only [Bool.and_eq_true, decide_eq_true_eq, hlog] at hg
      obtain ⟨⟨hge, hup⟩, hvote⟩ := hg
      have hcur : (node.observe term).currentTerm = term := by omega
      refine ⟨hcur, hup, ?_, ?_⟩
      · cases hv : (node.observe term).votedFor with
        | none => exact Or.inl rfl
        | some v => rw [hv] at hvote; exact Or.inr (by simpa using hvote)
      · simp only [if_true, hcur]

theorem onVoteReply_cases {term : Nat} {voteGranted : Bool}
    (h : node.onVoteReply term voteGranted = some node') :
    (node.currentTerm < term ∧ node' = node.stepDown term) ∨
    (term ≤ node.currentTerm ∧ (node.role ≠ .candidate ∨ term ≠ node.currentTerm) ∧
      node' = node) ∨
    (node.role = .candidate ∧ term = node.currentTerm ∧
      ∃ votes, votes = node.votesGranted + (if voteGranted then 1 else 0) ∧
        ((votes < node.quorum ∧ node' = { node with votesGranted := votes }) ∨
          (node.quorum ≤ votes ∧ node' = { node with votesGranted := votes }.leading))) := by
  unfold onVoteReply at h
  split at h
  · exact Or.inl ⟨by omega, (Option.some.inj h).symm⟩
  rename_i hle
  split at h
  · rename_i hignored
    exact Or.inr (Or.inl ⟨by omega, hignored, (Option.some.inj h).symm⟩)
  · rename_i hcounted
    rw [not_or, not_not, not_not] at hcounted
    obtain ⟨votes, hvotes, h⟩ := Option.bind_eq_some_iff.mp h
    refine Or.inr (Or.inr ⟨hcounted.1, hcounted.2, votes, ?_, ?_⟩)
    · cases voteGranted with
      | true => exact (addU64_eq_some.mp hvotes).2.symm
      | false => exact (Option.some.inj hvotes).symm
    · have hq : ({ node with votesGranted := votes } : RaftNode).quorum = node.quorum := rfl
      by_cases hge : votes ≥ node.quorum
      · rw [if_pos (by rw [hq]; exact hge), becomeLeader_eq] at h
        exact Or.inr ⟨hge, (Option.some.inj h).symm⟩
      · rw [if_neg (by rw [hq]; exact hge)] at h
        exact Or.inl ⟨by omega, (Option.some.inj h).symm⟩

section AppendLogEntries

-- Once the loop writes at the end of the log it goes on appending, and what
-- does not fit is dropped.
private theorem foldlM_append {entries : List LogEntry} {log log' : RaftLog LOG_CAPACITY}
    {pos idx : Nat} (hpos : pos = log.toList.length ∨
      (log.toList.length = LOG_CAPACITY ∧ LOG_CAPACITY ≤ pos))
    (h : entries.foldlM appendLogEntry (log, pos + 1) = some (log', idx)) :
    log'.toList = (log.toList ++ entries).take LOG_CAPACITY := by
  induction entries generalizing log pos with
  | nil =>
      simp only [List.foldlM_nil, Option.pure_def, Option.some.injEq, Prod.mk.injEq] at h
      rw [← h.1, List.append_nil, List.take_of_length_le log.length_le]
  | cons entry rest ih =>
      have hend : log.toList[pos]? = none := by
        rw [List.getElem?_eq_none_iff]
        omega
      obtain ⟨⟨log₁, idx₁⟩, h₁, h₂⟩ := Option.bind_eq_some_iff.mp h
      obtain ⟨idx₂, hidx, h₁⟩ := Option.bind_eq_some_iff.mp h₁
      obtain ⟨-, rfl⟩ := addU64_eq_some.mp hidx
      simp only [RaftLog.termAt_succ, RaftLog.get_succ, hend, Option.map_none, Option.isNone_none,
        if_true, Option.pure_def, Option.some.injEq, Prod.mk.injEq] at h₁
      obtain ⟨rfl, rfl⟩ := h₁
      by_cases hfull : log.toList.length < LOG_CAPACITY
      · have happ := (RaftLog.append_of_lt hfull entry).2
        have hlen : (log.append entry).2.toList.length = log.toList.length + 1 := by
          rw [happ, List.length_append, List.length_singleton]
        rw [ih (by omega) h₂, happ]
        simp
      · have hcap := log.length_le
        have hlen : log.toList.length = LOG_CAPACITY := by omega
        rw [RaftLog.append_of_le (Nat.not_lt.mp hfull)] at h₂
        have hpast : LOG_CAPACITY ≤ pos + 1 := by omega
        rw [ih (Or.inr ⟨hlen, hpast⟩) h₂]
        rw [List.take_append_of_le_length (by omega), List.take_append_of_le_length (by omega)]

-- The loop of `append_log_entries` splices the entries into the log.
theorem foldlM_appendLogEntry {entries : List LogEntry} {log log' : RaftLog LOG_CAPACITY}
    {pos idx : Nat} (hpos : pos ≤ log.toList.length)
    (h : entries.foldlM appendLogEntry (log, pos + 1) = some (log', idx)) :
    log'.toList = (splice log.toList pos entries).take LOG_CAPACITY := by
  induction entries generalizing log pos with
  | nil =>
      simp only [List.foldlM_nil, Option.pure_def, Option.some.injEq, Prod.mk.injEq] at h
      rw [← h.1, splice, List.take_of_length_le log.length_le]
  | cons entry rest ih =>
      obtain ⟨⟨log₁, idx₁⟩, h₁, h₂⟩ := Option.bind_eq_some_iff.mp h
      cases hheld : log.toList[pos]? with
      | none =>
          have hend : pos = log.toList.length := by
            rw [List.getElem?_eq_none_iff] at hheld
            omega
          simp only [splice, hheld]
          rw [foldlM_append (Or.inl hend) h, hend, List.take_length]
      | some held =>
          have hlt : pos < log.toList.length := (List.getElem?_eq_some_iff.mp hheld).1
          obtain ⟨idx₂, hidx, h₁⟩ := Option.bind_eq_some_iff.mp h₁
          obtain ⟨-, rfl⟩ := addU64_eq_some.mp hidx
          simp only [RaftLog.termAt_succ, hheld, Option.map_some, Option.pure_def,
            Option.some.injEq, Prod.mk.injEq] at h₁
          obtain ⟨hlog, rfl⟩ := h₁
          by_cases hterm : held.term = entry.term
          · simp only [hterm, ne_eq, not_true_eq_false, if_false, RaftLog.get_succ, hheld,
              Option.isNone_some, Bool.false_eq_true] at hlog
            subst hlog
            simp only [splice, hheld, stamp_eq_term, hterm, if_true]
            exact ih hlt h₂
          · -- the conflicting entry and all that follow it are cut off first
            have hcut : (log.truncateFrom (pos + 1)).toList.length = pos := by
              rw [RaftLog.toList_truncateFrom_succ, List.length_take]
              omega
            have hcap := log.length_le
            have hroom : (log.truncateFrom (pos + 1)).toList.length < LOG_CAPACITY := by omega
            have happ := (RaftLog.append_of_lt hroom entry).2
            have hgone : (log.truncateFrom (pos + 1)).get (pos + 1) = none := by
              rw [RaftLog.get_succ, List.getElem?_eq_none_iff, hcut]
            simp only [hterm, ne_eq, not_false_eq_true, if_true, hgone, Option.isNone_none] at hlog
            subst hlog
            have hend : pos + 1 = ((log.truncateFrom (pos + 1)).append entry).2.toList.length := by
              rw [happ, List.length_append, hcut, List.length_singleton]
            rw [foldlM_append (Or.inl hend) h₂, happ]
            simp [splice, hheld, hterm]

theorem appendLogEntries_eq_some {prevLogIndex matchIndex : Nat} {entries : List LogEntry}
    (hprev : prevLogIndex ≤ node.log.toList.length)
    (h : node.appendLogEntries prevLogIndex entries = some (matchIndex, node')) :
    matchIndex = prevLogIndex + entries.length ∧ ∃ log : RaftLog LOG_CAPACITY,
      log.toList = (splice node.log.toList prevLogIndex entries).take LOG_CAPACITY ∧
      node' = { node with log := log } := by
  obtain ⟨start, hstart, h⟩ := Option.bind_eq_some_iff.mp h
  obtain ⟨⟨log, idx⟩, hfold, h⟩ := Option.bind_eq_some_iff.mp h
  obtain ⟨last, hlast, h⟩ := Option.bind_eq_some_iff.mp h
  obtain ⟨-, rfl⟩ := addU64_eq_some.mp hstart
  obtain ⟨-, rfl⟩ := addU64_eq_some.mp hlast
  simp only [Option.pure_def, Option.some.injEq, Prod.mk.injEq] at h
  exact ⟨h.1.symm, log, foldlM_appendLogEntry hprev hfold, h.2.symm⟩

end AppendLogEntries

theorem PrevOk.le_length {prevLogIndex prevLogTerm : Nat}
    (h : node.PrevOk prevLogIndex prevLogTerm) : prevLogIndex ≤ node.log.toList.length := by
  rcases h with rfl | h
  · exact Nat.zero_le _
  · cases prevLogIndex with
    | zero => exact Nat.zero_le _
    | succ k =>
        rw [RaftLog.termAt_succ, Option.map_eq_some_iff] at h
        obtain ⟨e, he, -⟩ := h
        exact (List.getElem?_eq_some_iff.mp he).1

theorem onAppendEntries_cases {term prevLogIndex prevLogTerm leaderCommit : Nat}
    {entries : HVec LogEntry BATCH_CAPACITY}
    (h : node.onAppendEntries sender term prevLogIndex prevLogTerm entries leaderCommit =
      some (node', sent)) :
    (term < node.currentTerm ∧ node' = node ∧
      sent = [(sender, .appendEntriesReply node.currentTerm false 0)]) ∨
    (node.currentTerm ≤ term ∧ ¬node.PrevOk prevLogIndex prevLogTerm ∧
      node' = node.follow term ∧ sent = [(sender, .appendEntriesReply term false 0)]) ∨
    (node.currentTerm ≤ term ∧ node.PrevOk prevLogIndex prevLogTerm ∧
      ∃ log : RaftLog LOG_CAPACITY,
        log.toList = (splice node.log.toList prevLogIndex entries.toList).take LOG_CAPACITY ∧
        node' = { node.follow term with
          log := log
          commitIndex := if leaderCommit > node.commitIndex then min leaderCommit log.lastIndex
            else node.commitIndex } ∧
        sent = [(sender, .appendEntriesReply term true (prevLogIndex + entries.toList.length))]) := by
  unfold onAppendEntries at h
  split at h
  · simp only [Option.some.injEq, Prod.mk.injEq] at h
    exact Or.inl ⟨‹_›, h.1.symm, h.2.symm⟩
  rename_i hge
  have hle : node.currentTerm ≤ term := by omega
  have hcur := follow_currentTerm hle
  have hfollow : (if term > node.currentTerm then node.stepDown term
      else { node with role := .follower }) = node.follow term := rfl
  rw [hfollow] at h
  by_cases hprev : node.PrevOk prevLogIndex prevLogTerm
  · have hok : (decide (prevLogIndex = 0) ||
        decide ((node.follow term).log.termAt prevLogIndex = some prevLogTerm)) = true := by
      simpa [PrevOk] using hprev
    simp only [hok, Bool.not_true, Bool.false_eq_true, if_false] at h
    obtain ⟨⟨matchIndex, node₁⟩, happ, h⟩ := Option.bind_eq_some_iff.mp h
    obtain ⟨rfl, log, hlog, rfl⟩ :=
      appendLogEntries_eq_some (by rw [follow_log]; exact hprev.le_length) happ
    rw [follow_log] at hlog
    refine Or.inr (Or.inr ⟨hle, hprev, log, hlog, ?_⟩)
    simp only [follow_commitIndex, Option.pure_def, Option.some.injEq, Prod.mk.injEq] at h
    obtain ⟨rfl, rfl⟩ := h
    by_cases hc : leaderCommit > node.commitIndex
    · simp [hc, hcur]
    · simp [hc, hcur]
  · have hok : (decide (prevLogIndex = 0) ||
        decide ((node.follow term).log.termAt prevLogIndex = some prevLogTerm)) = false := by
      simpa [PrevOk] using hprev
    simp only [hok, Bool.not_false, if_true, Option.some.injEq, Prod.mk.injEq, hcur] at h
    exact Or.inr (Or.inl ⟨hle, hprev, h.1.symm, h.2.symm⟩)

end LuxKernel.Consensus.RaftNode
