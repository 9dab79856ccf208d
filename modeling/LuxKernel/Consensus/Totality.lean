import LuxKernel.Consensus.Transitions

namespace LuxKernel.Consensus.RaftNode

open Function Heapless Replication

-- When a method of a node returns at all. An addition that overflows and an array
-- access out of bounds stop the process.

variable {node node' : RaftNode} {sender : NodeId}

theorem startElection_eq_none : node.startElection = none ↔ 2 ^ 64 ≤ node.currentTerm + 1 := by
  rw [← addU64_eq_none]
  unfold startElection
  cases hterm : addU64 node.currentTerm 1 with
  | none => simp
  | some term =>
      simp only [Option.bind_eq_bind, Option.bind_some, reduceCtorEq, iff_false]
      split
      · simp [becomeLeader_eq]
      · simp

theorem onVoteReply_ne_none {term : Nat} {voteGranted : Bool}
    (h : node.role = .candidate → node.votesGranted + 1 < 2 ^ 64) :
    node.onVoteReply term voteGranted ≠ none := by
  unfold onVoteReply
  split
  · simp
  split
  · simp
  rename_i hcounted
  rw [not_or, not_not] at hcounted
  have hvotes : addU64 node.votesGranted 1 = some (node.votesGranted + 1) :=
    addU64_eq_some.mpr ⟨h hcounted.1, rfl⟩
  cases voteGranted with
  | false =>
      simp only [Bool.false_eq_true, if_false, Option.bind_eq_bind, Option.bind_some]
      split <;> simp [becomeLeader_eq]
  | true =>
      simp only [if_true, hvotes, Option.bind_eq_bind, Option.bind_some]
      split <;> simp [becomeLeader_eq]

theorem foldlM_appendLogEntry_ne_none {entries : List LogEntry} {log : RaftLog LOG_CAPACITY}
    {idx : Nat} (h : idx + entries.length < 2 ^ 64) :
    entries.foldlM appendLogEntry (log, idx) ≠ none := by
  induction entries generalizing log idx with
  | nil => simp
  | cons entry rest ih =>
      rw [List.length_cons] at h
      have hnext : addU64 idx 1 = some (idx + 1) := addU64_eq_some.mpr ⟨by omega, rfl⟩
      rw [List.foldlM_cons]
      simp only [appendLogEntry, hnext, Option.pure_def, Option.bind_eq_bind, Option.bind_some]
      exact ih (by omega)

theorem appendLogEntries_ne_none {prevLogIndex : Nat} {entries : List LogEntry}
    (h : prevLogIndex + 1 + entries.length < 2 ^ 64) :
    node.appendLogEntries prevLogIndex entries ≠ none := by
  have hstart : addU64 prevLogIndex 1 = some (prevLogIndex + 1) :=
    addU64_eq_some.mpr ⟨by omega, rfl⟩
  have hend : addU64 prevLogIndex entries.length = some (prevLogIndex + entries.length) :=
    addU64_eq_some.mpr ⟨by omega, rfl⟩
  have hloop : entries.foldlM appendLogEntry (node.log, prevLogIndex + 1) ≠ none :=
    foldlM_appendLogEntry_ne_none h
  obtain ⟨⟨log, idx⟩, hfold⟩ := Option.ne_none_iff_exists'.mp hloop
  simp [appendLogEntries, hstart, hfold, hend]

-- An accepted message starts within the log, so that no index gets anywhere near the
-- bound.
theorem onAppendEntries_ne_none {term prevLogIndex prevLogTerm leaderCommit : Nat}
    {entries : HVec LogEntry BATCH_CAPACITY} :
    node.onAppendEntries sender term prevLogIndex prevLogTerm entries leaderCommit ≠ none := by
  unfold onAppendEntries
  split
  · simp
  have hfollow : (if term > node.currentTerm then node.stepDown term
      else { node with role := .follower }) = node.follow term := rfl
  rw [hfollow]
  dsimp only
  split
  · simp
  rename_i hprev
  have hok : node.PrevOk prevLogIndex prevLogTerm := by
    simpa [PrevOk, or_iff_not_imp_left] using hprev
  have hle := hok.le_length
  have hcap : node.log.toList.length ≤ 256 := node.log.length_le
  have hbatch : entries.toList.length ≤ 16 := entries.length_le
  have happ : (node.follow term).appendLogEntries prevLogIndex entries.toList ≠ none :=
    appendLogEntries_ne_none (by omega)
  obtain ⟨⟨matchIndex, node₁⟩, happ⟩ := Option.ne_none_iff_exists'.mp happ
  simp only [happ, Option.bind_eq_bind, Option.bind_some, Option.pure_def, ne_eq, reduceCtorEq,
    not_false_eq_true]

theorem advanceCommitIndex_eq_none :
    node.advanceCommitIndex = none ↔ 2 ^ 64 ≤ node.commitIndex + 1 := by
  rw [← addU64_eq_none]
  unfold advanceCommitIndex
  cases addU64 node.commitIndex 1 with
  | none => simp
  | some first => simp

theorem peerIndex_ne_none (h : sender ∈ node.peers.toList) :
    ∃ i : Fin MAX_PEERS, node.peerIndex sender = some i.val := by
  cases hidx : node.peerIndex sender with
  | none =>
      have hnone := List.findIdx?_eq_none_iff.mp hidx sender h
      simp at hnone
  | some idx =>
      exact ⟨⟨idx, Nat.lt_of_lt_of_le (peerIndex_lt hidx) node.peers.length_le⟩, rfl⟩

theorem mem_of_peerIndex {idx : Nat} (h : node.peerIndex sender = some idx) :
    sender ∈ node.peers.toList := List.mem_of_getElem? (peerIndex_eq_some h).1

theorem onAeReply_eq_none {term matchIndex : Nat} {success : Bool} :
    node.onAeReply sender term success matchIndex = none ↔
      node.role = .leader ∧ term = node.currentTerm ∧ sender ∈ node.peers.toList ∧
        success = true ∧ (2 ^ 64 ≤ matchIndex + 1 ∨ 2 ^ 64 ≤ node.commitIndex + 1) := by
  unfold onAeReply
  split
  · simp only [reduceCtorEq, false_iff]
    omega
  split
  · rename_i hrole
    simp only [reduceCtorEq, false_iff]
    exact fun h => hrole.elim (fun hr => hr h.1) (fun ht => ht h.2.1)
  rename_i hrole
  rw [not_or, not_not, not_not] at hrole
  split
  · rename_i hpeer
    simp only [reduceCtorEq, false_iff]
    intro h
    obtain ⟨i, hi⟩ := peerIndex_ne_none h.2.2.1
    rw [hpeer] at hi
    cases hi
  rename_i idx hpeer
  have hmem := mem_of_peerIndex hpeer
  obtain ⟨i, hi⟩ := peerIndex_ne_none hmem
  have hslot : slot idx = some i := by
    rw [slot_eq_some, ← Option.some.injEq, ← hi, hpeer]
  rw [and_iff_right hrole.1, and_iff_right hrole.2, and_iff_right hmem]
  simp only [hslot, Option.bind_eq_bind, Option.bind_some]
  cases success with
  | false =>
      simp only [Bool.false_eq_true, if_false, false_and, iff_false]
      split <;> simp
  | true =>
      simp only [if_true, true_and]
      rw [← addU64_eq_none]
      cases hnext : addU64 matchIndex 1 with
      | none => simp
      | some next =>
          obtain ⟨-, rfl⟩ := addU64_eq_some.mp hnext
          have hadvance : (node.acknowledged i matchIndex).advanceCommitIndex = none ↔
              2 ^ 64 ≤ node.commitIndex + 1 := advanceCommitIndex_eq_none
          rw [← hadvance]
          simp only [Option.bind_some, reduceCtorEq, false_or]
          show ((node.acknowledged i matchIndex).advanceCommitIndex.bind _) = none ↔ _
          cases (node.acknowledged i matchIndex).advanceCommitIndex with
          | none => simp
          | some result => simp

theorem collectEntries_ne_none {log : RaftLog LOG_CAPACITY} {fuel idx : Nat}
    {entries : HVec LogEntry BATCH_CAPACITY} : collectEntries log fuel idx entries ≠ none := by
  induction fuel generalizing idx entries with
  | zero => simp [collectEntries]
  | succ fuel ih =>
      unfold collectEntries
      cases hget : log.get idx with
      | none => simp
      | some entry =>
          dsimp only
          split
          · simp
          · -- the index is one of the log, so that the next one exists
            have hlt : idx - 1 < log.toList.length := by
              unfold RaftLog.get at hget
              split at hget
              · cases hget
              · exact (List.getElem?_eq_some_iff.mp hget).1
            have hcap : log.toList.length ≤ 256 := log.length_le
            have hnext : addU64 idx 1 = some (idx + 1) := addU64_eq_some.mpr ⟨by omega, rfl⟩
            simp only [hnext, Option.bind_eq_bind, Option.bind_some]
            exact ih

theorem sendAeTo_ne_none {idx : Nat} : node.sendAeTo idx ≠ none := by
  unfold sendAeTo
  split
  · simp
  · rename_i peer hpeer
    have hlt := (List.getElem?_eq_some_iff.mp hpeer).1
    have hcap := node.peers.length_le
    have hslot : slot idx = some ⟨idx, by omega⟩ := slot_eq_some.mpr rfl
    simp only [hslot, Option.bind_eq_bind, Option.bind_some]
    have hentries : collectEntries node.log (BATCH_CAPACITY + 1)
        (node.nextIndex ⟨idx, by omega⟩) HVec.empty ≠ none := collectEntries_ne_none
    obtain ⟨entries, hentries⟩ := Option.ne_none_iff_exists'.mp hentries
    simp [hentries]

theorem mapM_sendAeTo_ne_none (node : RaftNode) (indices : List Nat) :
    indices.mapM node.sendAeTo ≠ none := by
  induction indices with
  | nil => simp
  | cons idx rest ih =>
      have hsend : node.sendAeTo idx ≠ none := sendAeTo_ne_none
      obtain ⟨sent, hsent⟩ := Option.ne_none_iff_exists'.mp hsend
      obtain ⟨batches, hbatches⟩ := Option.ne_none_iff_exists'.mp ih
      simp [List.mapM_cons, hsent, hbatches]

theorem propose_ne_none {src dst : NodeId} : node.propose src dst ≠ none := by
  unfold propose
  split
  · simp
  split
  · simp
  · rename_i log happ
    dsimp only
    split
    · simp
    · have hsend := mapM_sendAeTo_ne_none { node with log := log } (List.range node.peers.length)
      obtain ⟨batches, hbatches⟩ := Option.ne_none_iff_exists'.mp hsend
      simp [hbatches]

end LuxKernel.Consensus.RaftNode
