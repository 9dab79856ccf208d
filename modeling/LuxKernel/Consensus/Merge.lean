import LuxKernel.Consensus.NodeRuns

namespace LuxKernel.Consensus.RaftNode

open Function Heapless Replication

variable {node node' : RaftNode} {sender leaderId : NodeId}
variable {term prevLogIndex prevLogTerm leaderCommit replyTerm matchIndex : Nat}
variable {entries : HVec LogEntry BATCH_CAPACITY} {committed : Option LogEntry} {sent : Sent}

-- Every one of the entries meets an entry of its own term at its index.
def Meets (node : RaftNode) (prevLogIndex : Nat) (entries : List LogEntry) : Prop :=
  ∀ k < entries.length,
    node.log.termAt (prevLogIndex + k + 1) = (entries[k]?).map LogEntry.term

theorem meets_iff {entries : List LogEntry} : node.Meets prevLogIndex entries ↔
    Held node.log.toList prevLogIndex entries := Iff.rfl

-- What an accepted message does.
theorem step_accepted
    (hstep : node.step sender (.appendEntries term leaderId prevLogIndex prevLogTerm entries
      leaderCommit) = some (committed, node', sent))
    (hreply : (sender, .appendEntriesReply replyTerm true matchIndex) ∈ sent) :
    node.currentTerm ≤ term ∧ node.PrevOk prevLogIndex prevLogTerm ∧
      matchIndex = prevLogIndex + entries.toList.length ∧
      node'.log.toList =
        (splice node.log.toList prevLogIndex entries.toList).take LOG_CAPACITY := by
  obtain ⟨-, happ⟩ := step_appendEntries.mp hstep
  rcases onAppendEntries_cases happ with
    ⟨-, -, rfl⟩ | ⟨-, -, -, rfl⟩ | ⟨hterm, hprev, log, hlog, rfl, rfl⟩
  · simp at hreply
  · simp at hreply
  · simp only [List.mem_singleton, Prod.mk.injEq, RaftMessage.appendEntriesReply.injEq, true_and]
      at hreply
    exact ⟨hterm, hprev, hreply.2, hlog⟩

theorem splice_fits (hprev : prevLogIndex ≤ node.log.toList.length) {entries : List LogEntry}
    (hroom : prevLogIndex + entries.length ≤ LOG_CAPACITY) :
    (splice node.log.toList prevLogIndex entries).length ≤ LOG_CAPACITY := by
  by_cases hheld : Held node.log.toList prevLogIndex entries
  · rw [splice_of_held hheld]
    exact node.log.length_le
  · rw [length_splice_of_not_held hprev hheld]
    exact hroom

-- `append` refuses an entry when the log is full, and `append_log_entries` goes on and
-- reports the index that it would have reached.
theorem truthful_reply_iff (node node' : RaftNode) (sender leaderId : NodeId)
    (term prevLogIndex prevLogTerm leaderCommit : Nat) (entries : HVec LogEntry BATCH_CAPACITY)
    (committed : Option LogEntry) (sent : Sent) (replyTerm matchIndex : Nat)
    (hstep : node.step sender (.appendEntries term leaderId prevLogIndex prevLogTerm entries
      leaderCommit) = some (committed, node', sent))
    (hreply : (sender, .appendEntriesReply replyTerm true matchIndex) ∈ sent) :
    (matchIndex = prevLogIndex + entries.toList.length ∧ matchIndex ≤ node'.logLen ∧
      ∀ j < entries.toList.length,
        node'.log.termAt (prevLogIndex + j + 1) = (entries.toList[j]?).map LogEntry.term) ↔
    prevLogIndex + entries.toList.length ≤ LOG_CAPACITY := by
  obtain ⟨-, hprev, rfl, hlog⟩ := step_accepted hstep hreply
  rw [logLen_eq]
  constructor
  · rintro ⟨-, hlen, -⟩
    exact hlen.trans node'.log.length_le
  · intro hroom
    have hle := hprev.le_length
    have hheld : Held node'.log.toList prevLogIndex entries.toList := by
      rw [hlog, List.take_of_length_le (splice_fits hle hroom)]
      exact held_splice hle
    refine ⟨rfl, ?_, hheld⟩
    -- the last of the entries is in place, or there are none
    cases hlast : entries.toList.length with
    | zero =>
        have hsame : node'.log.toList = node.log.toList := by
          rw [hlog, List.length_eq_zero_iff.mp hlast, splice, List.take_of_length_le node.log.length_le]
        rw [hsame]
        exact hle
    | succ last =>
        have hlt : last < entries.toList.length := by omega
        have hat := hheld last hlt
        rw [List.getElem?_eq_getElem hlt, Option.map_some, Option.map_eq_some_iff] at hat
        obtain ⟨held, hlasts, -⟩ := hat
        exact (List.getElem?_eq_some_iff.mp hlasts).1

-- A fresh node takes one entry and says so.
theorem truthful_reply_fresh : ∃ result ∈ (RaftNode.new node1 threePeers).step node2
      (.appendEntries 1 node2 0 0 ⟨[⟨1, node1, node2⟩], by decide⟩ 0),
    (node2, .appendEntriesReply 1 true 1) ∈ result.2.2 ∧ 1 ≤ result.2.1.logLen := by
  have heval : ∃ result ∈ (RaftNode.new node1 threePeers).step node2
      (.appendEntries 1 node2 0 0 ⟨[⟨1, node1, node2⟩], by decide⟩ 0),
      (node2, .appendEntriesReply 1 true 1) ∈ result.2.2 := by decide +kernel
  obtain ⟨⟨committed, node, sent⟩, hstep, hreply⟩ := heval
  have htruthful := (truthful_reply_iff _ _ _ _ _ _ _ _ _ _ _ _ _ hstep hreply).mpr (by decide)
  exact ⟨_, hstep, hreply, htruthful.2.1⟩

def sixteenEdges : HVec LogEntry BATCH_CAPACITY :=
  ⟨List.replicate BATCH_CAPACITY ⟨1, node1, node2⟩, by decide⟩

-- `node2` fills the log of `node1` with sixteen messages of sixteen entries each.
def filledUp : List Input :=
  (List.range BATCH_CAPACITY).reverse.map fun k =>
    .step node2 (.appendEntries 1 node2 (16 * k) (if k = 0 then 0 else 1) sixteenEdges 0)

-- One more entry is accepted and dropped.
theorem untruthful_reply : ∃ result ∈ run node1 threePeers filledUp,
    ∃ answer ∈ result.2.step node2
        (.appendEntries 1 node2 256 1 ⟨[⟨1, node1, node2⟩], by decide⟩ 0),
      (node2, .appendEntriesReply 1 true 257) ∈ answer.2.2 ∧ answer.2.1.logLen = 256 := by
  decide +kernel

theorem follow_of_follower (hrole : node.role = .follower) (hterm : node.currentTerm = term) :
    node.follow term = node := by
  rw [follow, if_neg (by omega)]
  cases node
  simp_all

-- What `prev_log_index` points at survives the merge.
theorem PrevOk.of_splice (h : node.PrevOk prevLogIndex prevLogTerm) {entries : List LogEntry}
    (hlog : node'.log.toList =
      (splice node.log.toList prevLogIndex entries).take LOG_CAPACITY) :
    node'.PrevOk prevLogIndex prevLogTerm := by
  have hle := h.le_length
  have hcap := node.log.length_le
  refine h.imp (fun hzero => hzero) fun hat => ?_
  cases prevLogIndex with
  | zero => cases hat
  | succ last =>
      have htake : node'.log.toList.take (last + 1) = node.log.toList.take (last + 1) := by
        rw [hlog, List.take_take, Nat.min_eq_left (by omega), take_splice hle]
      rw [RaftLog.termAt_succ] at hat ⊢
      rw [getElem?_eq_of_take_eq htake (Nat.lt_succ_self last), hat]

-- The message is processed again by the node that has just processed it.
theorem onAppendEntries_again
    (h : node.onAppendEntries sender term prevLogIndex prevLogTerm entries leaderCommit =
      some (node', sent)) :
    node'.onAppendEntries sender term prevLogIndex prevLogTerm entries leaderCommit =
      some (node', sent) := by
  have hreturns : node'.onAppendEntries sender term prevLogIndex prevLogTerm entries leaderCommit ≠
      none := onAppendEntries_ne_none
  obtain ⟨⟨again, resent⟩, h'⟩ := Option.ne_none_iff_exists'.mp hreturns
  rcases onAppendEntries_cases h with
    ⟨-, rfl, -⟩ | ⟨hle, hprev, rfl, rfl⟩ | ⟨hle, hprev, log, hlog, hnode, rfl⟩
  · exact h
  · have hterm := follow_currentTerm hle
    have hsame : (node.follow term).follow term = node.follow term :=
      follow_of_follower (follow_role node term) hterm
    rw [h']
    rcases onAppendEntries_cases h' with ⟨hlt, -⟩ | ⟨-, -, rfl, rfl⟩ | ⟨-, hprev', -⟩
    · omega
    · rw [hsame]
    · rw [PrevOk, follow_log] at hprev'
      exact absurd hprev' hprev
  · have hterm : node'.currentTerm = term := by
      rw [hnode]
      exact follow_currentTerm hle
    have hrole : node'.role = .follower := by
      rw [hnode]
      exact follow_role node term
    have hcommit : node'.commitIndex = if leaderCommit > node.commitIndex
        then min leaderCommit log.lastIndex else node.commitIndex := by
      rw [hnode]
    have hmerged : node'.log = log := by
      rw [hnode]
    rw [← hmerged] at hlog hcommit
    rw [h']
    rcases onAppendEntries_cases h' with ⟨hlt, -⟩ | ⟨-, hprev', -⟩ | ⟨-, -, log', hlog', rfl, rfl⟩
    · omega
    · exact absurd (hprev.of_splice hlog) hprev'
    · have hsame : log' = node'.log := by
        apply RaftLog.ext
        rw [hlog', hlog]
        exact splice_again hprev.le_length node.log.length_le
      have hstays : (if leaderCommit > node'.commitIndex then min leaderCommit node'.log.lastIndex
          else node'.commitIndex) = node'.commitIndex := by
        by_cases hraised : leaderCommit > node.commitIndex
        · rw [if_pos hraised] at hcommit
          split <;> omega
        · rw [if_neg hraised] at hcommit
          rw [hcommit, if_neg hraised]
      rw [hsame, hstays, follow_of_follower hrole hterm]

-- The one answer says whether the message was accepted.
theorem onAppendEntries_reply
    (h : node.onAppendEntries sender term prevLogIndex prevLogTerm entries leaderCommit =
      some (node', sent)) :
    ∃ replyTerm success matchIndex,
      sent = [(sender, .appendEntriesReply replyTerm success matchIndex)] ∧
        (success = true ↔ node.currentTerm ≤ term ∧ node.PrevOk prevLogIndex prevLogTerm) := by
  rcases onAppendEntries_cases h with
    ⟨hstale, -, rfl⟩ | ⟨-, hprev, -, rfl⟩ | ⟨hterm, hprev, -, -, -, rfl⟩
  · refine ⟨_, _, _, rfl, ?_⟩
    simp only [Bool.false_eq_true, false_iff, not_and]
    omega
  · refine ⟨_, _, _, rfl, ?_⟩
    simp only [Bool.false_eq_true, false_iff, not_and]
    exact fun _ => hprev
  · exact ⟨_, _, _, rfl, iff_of_true rfl ⟨hterm, hprev⟩⟩

-- Every message is answered once. It is accepted when its term is not stale and what it
-- says of the entry before its own is so; merging then cuts the log at the first index
-- where the entry is missing or has another term. To do it again changes nothing.
theorem merge_exact (node : RaftNode) (sender leaderId : NodeId)
    (term prevLogIndex prevLogTerm leaderCommit : Nat) (entries : HVec LogEntry BATCH_CAPACITY) :
    ∃ node' replyTerm success matchIndex,
      node.step sender (.appendEntries term leaderId prevLogIndex prevLogTerm entries
        leaderCommit) =
          some (none, node', [(sender, .appendEntriesReply replyTerm success matchIndex)]) ∧
      node'.step sender (.appendEntries term leaderId prevLogIndex prevLogTerm entries
        leaderCommit) =
          some (none, node', [(sender, .appendEntriesReply replyTerm success matchIndex)]) ∧
      (success = true ↔ node.currentTerm ≤ term ∧ node.PrevOk prevLogIndex prevLogTerm) ∧
      (success = true → prevLogIndex + entries.toList.length ≤ LOG_CAPACITY →
        (node.Meets prevLogIndex entries.toList → node'.log = node.log) ∧
        (¬node.Meets prevLogIndex entries.toList → ∃ k < entries.toList.length,
          node.Meets prevLogIndex (entries.toList.take k) ∧
          node.log.termAt (prevLogIndex + k + 1) ≠ (entries.toList[k]?).map LogEntry.term ∧
          node'.log.toList =
            node.log.toList.take (prevLogIndex + k) ++ entries.toList.drop k)) := by
  have hreturns : node.onAppendEntries sender term prevLogIndex prevLogTerm entries leaderCommit ≠
      none := onAppendEntries_ne_none
  obtain ⟨⟨node', sent⟩, happ⟩ := Option.ne_none_iff_exists'.mp hreturns
  have hagain := onAppendEntries_again happ
  obtain ⟨replyTerm, success, matchIndex, rfl, haccepted⟩ := onAppendEntries_reply happ
  have hstep : node.step sender (.appendEntries term leaderId prevLogIndex prevLogTerm entries
      leaderCommit) = some (none, node', _) := step_appendEntries.mpr ⟨rfl, happ⟩
  refine ⟨node', replyTerm, success, matchIndex, hstep, step_appendEntries.mpr ⟨rfl, hagain⟩,
    haccepted, ?_⟩
  rintro rfl hroom
  obtain ⟨-, hprev, -, hlog⟩ := step_accepted hstep (List.mem_singleton.mpr rfl)
  have hle := hprev.le_length
  rw [List.take_of_length_le (splice_fits hle hroom)] at hlog
  constructor
  · intro hmeets
    apply RaftLog.ext
    rw [hlog, splice_of_held (meets_iff.mp hmeets)]
  · intro hmeets
    obtain ⟨k, hk, -, hbefore, hat, hsplice⟩ := splice_cut hle (mt meets_iff.mpr hmeets)
    exact ⟨k, hk, hbefore, hat, hlog.trans hsplice⟩

end LuxKernel.Consensus.RaftNode
