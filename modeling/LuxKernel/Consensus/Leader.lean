import LuxKernel.Consensus.Follower
import Mathlib.Data.List.FinRange

namespace LuxKernel.Consensus.RaftNode

open Function Heapless Replication

-- The methods of a leader: it sends its log to the peers, counts who has acknowledged
-- what, and commits what a majority holds.

variable {node node' : RaftNode} {sender : NodeId} {sent : Sent}

theorem advanceCommitIndex_cases {advanced : Bool}
    (h : node.advanceCommitIndex = some (advanced, node')) :
    (advanced = false ∧ node' = node) ∨
    (advanced = true ∧ ∃ n, node.commitIndex < n ∧ n ≤ node.log.toList.length ∧
      node.log.termAt n = some node.currentTerm ∧ node.quorum ≤ node.ackCount n ∧
      node' = { node with commitIndex := n }) := by
  obtain ⟨first, hfirst, h⟩ := Option.bind_eq_some_iff.mp h
  obtain ⟨-, rfl⟩ := addU64_eq_some.mp hfirst
  simp only [Option.pure_def, Option.some.injEq, Prod.mk.injEq] at h
  obtain ⟨hadv, hnode⟩ := h
  split at hnode
  · rename_i n hfind
    right
    have hmem := List.mem_of_find?_eq_some hfind
    have hsat := List.find?_some hfind
    simp only [List.mem_reverse, List.mem_range'_1, RaftLog.lastIndex_eq] at hmem
    simp only [Bool.and_eq_true, decide_eq_true_eq] at hsat
    subst hnode
    refine ⟨?_, n, by omega, by omega, hsat.1, hsat.2, rfl⟩
    simp only [hfind] at hadv
    rw [← hadv]
    simp only [decide_eq_true_eq]
    omega
  · rename_i hfind
    left
    subst hnode
    refine ⟨?_, rfl⟩
    simp only [hfind] at hadv
    rw [← hadv]
    simp

private theorem le_of_find?_downwards {p : Nat → Bool} {first count n m : Nat}
    (h : (List.range' first count).reverse.find? p = some n) (hm : m ∈ List.range' first count)
    (hp : p m = true) : m ≤ n := by
  obtain ⟨-, above, below, hsplit, hnone⟩ := List.find?_eq_some_iff_append.mp h
  have hsorted : (List.range' first count).reverse.Pairwise (· > ·) :=
    List.pairwise_reverse.mpr List.pairwise_lt_range'
  rw [hsplit, List.pairwise_append, List.pairwise_cons] at hsorted
  rw [← List.mem_reverse, hsplit, List.mem_append, List.mem_cons] at hm
  rcases hm with habove | rfl | hbelow
  · have := hnone m habove
    simp [hp] at this
  · exact Nat.le_refl m
  · exact Nat.le_of_lt (hsorted.2.1.1 m hbelow)

-- The loop leaves no index behind that could be committed.
theorem advanceCommitIndex_max {advanced : Bool} {n : Nat}
    (h : node.advanceCommitIndex = some (advanced, node')) (hlt : node.commitIndex < n)
    (hle : n ≤ node.log.toList.length) (hterm : node.log.termAt n = some node.currentTerm)
    (hquorum : node.quorum ≤ node.ackCount n) : n ≤ node'.commitIndex := by
  obtain ⟨first, hfirst, h⟩ := Option.bind_eq_some_iff.mp h
  obtain ⟨-, rfl⟩ := addU64_eq_some.mp hfirst
  simp only [Option.pure_def, Option.some.injEq, Prod.mk.injEq] at h
  have hmem : n ∈ List.range' (node.commitIndex + 1)
      (node.log.lastIndex + 1 - (node.commitIndex + 1)) := by
    rw [List.mem_range'_1, RaftLog.lastIndex_eq]
    omega
  have hsat : (decide (node.log.termAt n = some node.currentTerm) &&
      decide (node.ackCount n ≥ node.quorum)) = true := by
    simp [hterm, hquorum]
  rw [← h.2]
  split
  · rename_i found hfind
    exact le_of_find?_downwards hfind hmem hsat
  · rename_i hfind
    have hnone := List.find?_eq_none.mp hfind n (List.mem_reverse.mpr hmem)
    exact absurd hsat hnone

-- The leader that has taken a successful reply into account.
def acknowledged (node : RaftNode) (i : Fin MAX_PEERS) (matchIndex : Nat) : RaftNode :=
  { node with
    nextIndex := update node.nextIndex i (matchIndex + 1)
    matchIndex := update node.matchIndex i matchIndex }

-- The leader that has taken a refusal into account.
def retreated (node : RaftNode) (i : Fin MAX_PEERS) : RaftNode :=
  { node with nextIndex := update node.nextIndex i (max 1 (node.nextIndex i - 1)) }

theorem peerIndex_eq_some {peer : NodeId} {idx : Nat} (h : node.peerIndex peer = some idx) :
    node.peers.toList[idx]? = some peer ∧
      ∀ j < idx, node.peers.toList[j]? ≠ some peer := by
  unfold peerIndex at h
  obtain ⟨hlt, heq, hmin⟩ := List.findIdx?_eq_some_iff_getElem.mp h
  simp only [decide_eq_true_eq] at heq
  refine ⟨by rw [List.getElem?_eq_getElem hlt, heq], ?_⟩
  intro j hj hpeer
  have hne := hmin j hj
  rw [List.getElem?_eq_some_iff] at hpeer
  obtain ⟨_, hpeer⟩ := hpeer
  simp [hpeer] at hne

theorem peerIndex_lt {peer : NodeId} {idx : Nat} (h : node.peerIndex peer = some idx) :
    idx < node.peers.toList.length :=
  (List.getElem?_eq_some_iff.mp (peerIndex_eq_some h).1).1

theorem slot_eq_some {idx : Nat} {i : Fin MAX_PEERS} : slot idx = some i ↔ i.val = idx := by
  unfold slot
  split
  · simp [Fin.ext_iff, eq_comm]
  · rename_i hge
    simp only [reduceCtorEq, false_iff]
    rintro rfl
    exact hge i.isLt

theorem onAeReply_cases {term matchIndex : Nat} {success : Bool} {committed : Option LogEntry}
    (h : node.onAeReply sender term success matchIndex = some (committed, node')) :
    (node.currentTerm < term ∧ committed = none ∧ node' = node.stepDown term) ∨
    (term ≤ node.currentTerm ∧ (node.role ≠ .leader ∨ term ≠ node.currentTerm ∨
        sender ∉ node.peers.toList) ∧ committed = none ∧ node' = node) ∨
    (node.role = .leader ∧ term = node.currentTerm ∧ ∃ i : Fin MAX_PEERS,
      node.peerIndex sender = some i.val ∧
      ((success = false ∧ committed = none ∧ (node' = node ∨ node' = node.retreated i)) ∨
       (success = true ∧ committed = none ∧ node' = node.acknowledged i matchIndex) ∨
       (success = true ∧ ∃ n, node.commitIndex < n ∧ n ≤ node.log.toList.length ∧
          node.log.termAt n = some node.currentTerm ∧
          node.quorum ≤ (node.acknowledged i matchIndex).ackCount n ∧
          committed = node.log.get n ∧
          node' = { node.acknowledged i matchIndex with commitIndex := n }))) := by
  unfold onAeReply at h
  split at h
  · simp only [Option.some.injEq, Prod.mk.injEq] at h
    exact Or.inl ⟨by omega, h.1.symm, h.2.symm⟩
  rename_i hle
  split at h
  · rename_i hrole
    simp only [Option.some.injEq, Prod.mk.injEq] at h
    refine Or.inr (Or.inl ⟨by omega, ?_, h.1.symm, h.2.symm⟩)
    exact hrole.imp (fun hr => hr) Or.inl
  rename_i hrole
  rw [not_or, not_not, not_not] at hrole
  obtain ⟨hlead, hterm⟩ := hrole
  split at h
  · rename_i hpeer
    simp only [Option.some.injEq, Prod.mk.injEq] at h
    refine Or.inr (Or.inl ⟨by omega, Or.inr (Or.inr ?_), h.1.symm, h.2.symm⟩)
    intro hmem
    have hnone := List.findIdx?_eq_none_iff.mp hpeer sender hmem
    simp at hnone
  rename_i idx hpeer
  obtain ⟨i, hi, hrest⟩ := Option.bind_eq_some_iff.mp h
  clear h
  rw [slot_eq_some] at hi
  subst hi
  refine Or.inr (Or.inr ⟨hlead, hterm, i, hpeer, ?_⟩)
  cases success with
  | true =>
      right
      simp only [if_true] at hrest
      obtain ⟨next, hnext, hrest⟩ := Option.bind_eq_some_iff.mp hrest
      obtain ⟨-, rfl⟩ := addU64_eq_some.mp hnext
      obtain ⟨⟨advanced, node₁⟩, hadv, hrest⟩ := Option.bind_eq_some_iff.mp hrest
      simp only [Option.pure_def, Option.some.injEq, Prod.mk.injEq] at hrest
      obtain ⟨hc, rfl⟩ := hrest
      have hadv : (node.acknowledged i matchIndex).advanceCommitIndex = some (advanced, node₁) :=
        hadv
      rcases advanceCommitIndex_cases hadv with
        ⟨rfl, rfl⟩ | ⟨rfl, n, hlt, hlen, hat, hq, rfl⟩
      · exact Or.inl ⟨rfl, by simpa using hc.symm, rfl⟩
      · exact Or.inr ⟨rfl, n, hlt, hlen, hat, hq, hc.symm, rfl⟩
  | false =>
      left
      simp only [Bool.false_eq_true, if_false] at hrest
      split at hrest
      · rename_i hgt
        simp only [Option.pure_def, Option.some.injEq, Prod.mk.injEq] at hrest
        have hmax : max 1 (node.nextIndex i - 1) = node.nextIndex i - 1 := by omega
        exact ⟨rfl, hrest.1.symm, Or.inr (by rw [retreated, hmax]; exact hrest.2.symm)⟩
      · simp only [Option.pure_def, Option.some.injEq, Prod.mk.injEq] at hrest
        exact ⟨rfl, hrest.1.symm, Or.inl hrest.2.symm⟩

-- A leader that records an acknowledgement goes on to the last index of its term that
-- enough peers acknowledge.
theorem onAeReply_success {i : Fin MAX_PEERS} {matchIndex : Nat} {committed : Option LogEntry}
    (hrole : node.role = .leader) (hpeer : node.peerIndex sender = some i.val)
    (h : node.onAeReply sender node.currentTerm true matchIndex = some (committed, node')) :
    ∃ n, node' = { node.acknowledged i matchIndex with commitIndex := n } ∧
      ((n = node.commitIndex ∧ committed = none) ∨
        (node.commitIndex < n ∧ n ≤ node.log.toList.length ∧
          node.log.termAt n = some node.currentTerm ∧
          node.quorum ≤ (node.acknowledged i matchIndex).ackCount n ∧
          committed = node.log.get n)) ∧
      ∀ k, node.commitIndex < k → k ≤ node.log.toList.length →
        node.log.termAt k = some node.currentTerm →
        node.quorum ≤ (node.acknowledged i matchIndex).ackCount k → k ≤ n := by
  have hslot : slot i.val = some i := slot_eq_some.mpr rfl
  unfold onAeReply at h
  rw [if_neg (Nat.lt_irrefl _), if_neg (by simp [hrole]), hpeer] at h
  simp only [hslot, Option.bind_eq_bind, Option.bind_some, if_true] at h
  obtain ⟨next, hnext, h⟩ := Option.bind_eq_some_iff.mp h
  obtain ⟨-, rfl⟩ := addU64_eq_some.mp hnext
  obtain ⟨⟨advanced, node₁⟩, hadv, h⟩ := Option.bind_eq_some_iff.mp h
  simp only [Option.pure_def, Option.some.injEq, Prod.mk.injEq] at h
  obtain ⟨hc, rfl⟩ := h
  have hadv : (node.acknowledged i matchIndex).advanceCommitIndex = some (advanced, node₁) := hadv
  refine ⟨node₁.commitIndex, ?_, ?_, ?_⟩
  · rcases advanceCommitIndex_cases hadv with ⟨-, rfl⟩ | ⟨-, n, -, -, -, -, rfl⟩ <;> rfl
  · rcases advanceCommitIndex_cases hadv with ⟨rfl, rfl⟩ | ⟨rfl, n, hlt, hle, hterm, hquorum, rfl⟩
    · exact Or.inl ⟨rfl, by simpa using hc.symm⟩
    · exact Or.inr ⟨hlt, hle, hterm, hquorum, hc.symm⟩
  · intro k hlt hle hterm hquorum
    exact advanceCommitIndex_max hadv hlt hle hterm hquorum

section SendAeTo

theorem collectEntries_eq_some {log : RaftLog LOG_CAPACITY} {fuel k : Nat}
    {acc entries : HVec LogEntry BATCH_CAPACITY} (hfuel : BATCH_CAPACITY < fuel + acc.length)
    (h : collectEntries log fuel (k + 1) acc = some entries) :
    entries.toList = acc.toList ++ (log.toList.drop k).take (BATCH_CAPACITY - acc.length) := by
  induction fuel generalizing k acc with
  | zero =>
      have := acc.length_le
      simp only [HVec.length_eq] at hfuel
      omega
  | succ fuel ih =>
      unfold collectEntries at h
      cases hk : log.toList[k]? with
      | none =>
          simp only [RaftLog.get_succ, hk, Option.some.injEq] at h
          rw [List.getElem?_eq_none_iff] at hk
          rw [← h, List.drop_of_length_le hk, List.take_nil, List.append_nil]
      | some entry =>
          simp only [RaftLog.get_succ, hk] at h
          cases hpush : acc.push entry with
          | none =>
              have hfull := HVec.push_eq_none_iff.mp hpush
              rw [← HVec.length_eq] at hfull
              simp only [hpush, Option.some.injEq] at h
              rw [← h, Nat.sub_eq_zero_of_le hfull, List.take_zero, List.append_nil]
          | some acc₁ =>
              simp only [hpush] at h
              obtain ⟨next, hnext, h⟩ := Option.bind_eq_some_iff.mp h
              obtain ⟨-, rfl⟩ := addU64_eq_some.mp hnext
              obtain ⟨hroom, hacc⟩ := HVec.push_eq_some_iff.mp hpush
              have hlen : acc₁.length = acc.length + 1 := by
                rw [HVec.length_eq, hacc, List.length_append, List.length_singleton,
                  ← HVec.length_eq]
              rw [ih (by omega) h, hacc, hlen]
              obtain ⟨hlt, hget⟩ := List.getElem?_eq_some_iff.mp hk
              rw [← HVec.length_eq] at hroom
              have hsub : BATCH_CAPACITY - acc.length = BATCH_CAPACITY - (acc.length + 1) + 1 := by
                omega
              rw [List.drop_eq_getElem_cons hlt, hsub, List.take_succ_cons, hget, List.append_assoc,
                List.singleton_append]

theorem sendAeTo_eq_some {idx : Nat} (h : node.sendAeTo idx = some sent) :
    (node.peers.toList.length ≤ idx ∧ sent = []) ∨
    ∃ (peer : NodeId) (i : Fin MAX_PEERS) (prevLogTerm : Nat)
      (entries : HVec LogEntry BATCH_CAPACITY),
      node.peers.toList[idx]? = some peer ∧ i.val = idx ∧
      prevLogTerm = (if node.nextIndex i - 1 = 0 then 0
        else (node.log.termAt (node.nextIndex i - 1)).getD 0) ∧
      (0 < node.nextIndex i → entries.toList =
        (node.log.toList.drop (node.nextIndex i - 1)).take BATCH_CAPACITY) ∧
      sent = [(peer, .appendEntries node.currentTerm node.id (node.nextIndex i - 1) prevLogTerm
        entries node.commitIndex)] := by
  unfold sendAeTo at h
  split at h
  · rename_i hnone
    exact Or.inl ⟨List.getElem?_eq_none_iff.mp hnone, (Option.some.inj h).symm⟩
  · rename_i peer hpeer
    right
    obtain ⟨i, hi, h⟩ := Option.bind_eq_some_iff.mp h
    rw [slot_eq_some] at hi
    obtain ⟨entries, hentries, h⟩ := Option.bind_eq_some_iff.mp h
    refine ⟨peer, i, _, entries, hpeer, hi, rfl, ?_, (Option.some.inj h).symm⟩
    intro hpos
    obtain ⟨k, hk⟩ := Nat.exists_eq_succ_of_ne_zero (Nat.pos_iff_ne_zero.mp hpos)
    rw [hk] at hentries ⊢
    have := collectEntries_eq_some (by simp [HVec.length_eq]) hentries
    simpa [HVec.length_eq] using this

end SendAeTo

-- The node that has appended an entry of its own.
theorem propose_cases {src dst : NodeId} {result : Result Unit}
    (h : node.propose src dst = some (result, node', sent)) :
    (node.role ≠ .leader ∧
      result = .error (.undefinedState "raft: cannot propose — not leader") ∧
      node' = node ∧ sent = []) ∨
    (node.role = .leader ∧ LOG_CAPACITY ≤ node.log.toList.length ∧
      result = .error (.quotaExceeded "raft log at capacity") ∧ node' = node ∧ sent = []) ∨
    (node.role = .leader ∧ result = .ok () ∧ ∃ log : RaftLog LOG_CAPACITY,
      log.toList = node.log.toList ++ [⟨node.currentTerm, src, dst⟩] ∧
      ((node.peers.toList = [] ∧ sent = [] ∧
          node' = { node with log := log, commitIndex := log.lastIndex }) ∨
        (node.peers.toList ≠ [] ∧ node' = { node with log := log } ∧ ∃ batches,
          (List.range node.peers.length).mapM node'.sendAeTo = some batches ∧
          sent = batches.flatten))) := by
  unfold propose at h
  split at h
  · simp only [Option.some.injEq, Prod.mk.injEq] at h
    exact Or.inl ⟨‹_›, h.1.symm, h.2.1.symm, h.2.2.symm⟩
  rename_i hlead
  rw [not_not] at hlead
  right
  by_cases hroom : node.log.toList.length < LOG_CAPACITY
  · obtain ⟨hflag, hlog⟩ := RaftLog.append_of_lt hroom ⟨node.currentTerm, src, dst⟩
    generalize happ : node.log.append ⟨node.currentTerm, src, dst⟩ = appended at h hflag hlog
    obtain ⟨flag, log⟩ := appended
    subst hflag
    right
    dsimp only at h hlog
    by_cases hp : node.peers.toList = []
    · simp only [hp, List.isEmpty_nil, if_true, Option.some.injEq, Prod.mk.injEq] at h
      exact ⟨hlead, h.1.symm, log, hlog, Or.inl ⟨hp, h.2.2.symm, h.2.1.symm⟩⟩
    · have hne : node.peers.toList.isEmpty = false := by simpa using hp
      simp only [hne, Bool.false_eq_true, if_false] at h
      obtain ⟨batches, hsend, h⟩ := Option.bind_eq_some_iff.mp h
      simp only [Option.pure_def, Option.some.injEq, Prod.mk.injEq] at h
      obtain ⟨rfl, rfl, rfl⟩ := h
      exact ⟨hlead, rfl, log, hlog, Or.inr ⟨hp, rfl, batches, hsend, rfl⟩⟩
  · left
    have happ := RaftLog.append_of_le (Nat.not_lt.mp hroom) ⟨node.currentTerm, src, dst⟩
    simp only [happ, Option.some.injEq, Prod.mk.injEq] at h
    exact ⟨hlead, Nat.not_lt.mp hroom, h.1.symm, h.2.1.symm, h.2.2.symm⟩

-- The slots that acknowledge index `n`.
def ackSlots (node : RaftNode) (n : Nat) : Finset (Fin MAX_PEERS) :=
  Finset.univ.filter fun k => k.val < node.peers.toList.length ∧ n ≤ node.matchIndex k

theorem ackCount_eq (node : RaftNode) (n : Nat) : node.ackCount n = 1 + (node.ackSlots n).card := by
  have hcount : ((List.ofFn node.matchIndex).take node.peers.length).countP
      (fun m => decide (n ≤ m)) =
      (((List.finRange MAX_PEERS).take node.peers.length).filter
        (fun k => decide (n ≤ node.matchIndex k))).length := by
    rw [List.ofFn_eq_map, ← List.map_take, List.countP_map, List.countP_eq_length_filter]
    rfl
  have hnodup : (((List.finRange MAX_PEERS).take node.peers.length).filter
      (fun k => decide (n ≤ node.matchIndex k))).Nodup :=
    ((List.nodup_finRange _).sublist (List.take_sublist _ _)).filter _
  have hset : (((List.finRange MAX_PEERS).take node.peers.length).filter
      (fun k => decide (n ≤ node.matchIndex k))).toFinset = node.ackSlots n := by
    ext k
    have htake : k ∈ (List.finRange MAX_PEERS).take node.peers.length ↔
        k.val < node.peers.toList.length := by
      rw [List.mem_take_iff_getElem, HVec.length_eq]
      constructor
      · rintro ⟨j, hj, heq⟩
        rw [List.getElem_finRange] at heq
        have : j = k.val := by rw [← heq]; rfl
        omega
      · intro hk
        refine ⟨k.val, ?_, ?_⟩
        · rw [List.length_finRange]
          exact Nat.lt_min.mpr ⟨hk, k.isLt⟩
        · rw [List.getElem_finRange]
          rfl
    rw [List.mem_toFinset, List.mem_filter, htake, ackSlots, Finset.mem_filter]
    simp
  rw [ackCount, hcount, ← hset, List.toFinset_card_of_nodup hnodup]

theorem ackCount_anti (node : RaftNode) {m n : Nat} (h : m ≤ n) :
    node.ackCount n ≤ node.ackCount m := by
  rw [ackCount_eq, ackCount_eq]
  apply Nat.add_le_add_left
  apply Finset.card_le_card
  intro k hk
  obtain ⟨-, hlt, hge⟩ := Finset.mem_filter.mp hk
  exact Finset.mem_filter.mpr ⟨Finset.mem_univ k, hlt, h.trans hge⟩

end LuxKernel.Consensus.RaftNode
