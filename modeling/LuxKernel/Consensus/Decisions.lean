import LuxKernel.Consensus.Progress

namespace LuxKernel.Consensus

open Function Heapless Replication

namespace RaftNode

variable {node node' : RaftNode} {sender : NodeId}

private theorem mapM_of_forall {α β : Type} {f : α → Option β} {g : α → β} {l : List α}
    (h : ∀ a ∈ l, f a = some (g a)) : l.mapM f = some (l.map g) := by
  induction l with
  | nil => rfl
  | cons a rest ih =>
      rw [List.mapM_cons, h a List.mem_cons_self, ih fun b hb => h b (List.mem_cons_of_mem a hb)]
      rfl

-- What a leader sends for its newest entry when it takes a peer to hold the rest. Every
-- follower that does hold the rest accepts it.
def NewestOnly (node : RaftNode) (entries : List LogEntry) (entry : LogEntry)
    (msg : RaftMessage) : Prop :=
  ∃ prevLogTerm batch, msg = .appendEntries node.currentTerm node.id entries.length prevLogTerm
      batch node.commitIndex ∧ batch.toList = [entry] ∧
    ∀ follower : RaftNode, follower.log.toList = entries →
      follower.PrevOk entries.length prevLogTerm

-- The newest entry goes to every peer in the same message.
theorem exists_newest {entries : List LogEntry} {entry : LogEntry}
    (hlog : node.log.toList = entries ++ [entry])
    (hnext : ∀ k : Fin MAX_PEERS, k.val < node.peers.length →
      node.nextIndex k = entries.length + 1)
    {batches : List Sent}
    (hsend : (List.range node.peers.length).mapM node.sendAeTo = some batches) :
    ∃ msg, NewestOnly node entries entry msg ∧
      batches.flatten = node.peers.toList.map fun peer => (peer, msg) := by
  let prevLogTerm := if entries.length = 0 then 0 else (node.log.termAt entries.length).getD 0
  have hcap : node.peers.toList.length ≤ MAX_PEERS := node.peers.length_le
  have hbatch : ([entry] : List LogEntry).length ≤ BATCH_CAPACITY := by
    simp [BATCH_CAPACITY]
  let msg : RaftMessage := .appendEntries node.currentTerm node.id entries.length prevLogTerm
    ⟨[entry], hbatch⟩ node.commitIndex
  refine ⟨msg, ⟨prevLogTerm, ⟨[entry], hbatch⟩, rfl, rfl, fun follower hfollower => ?_⟩, ?_⟩
  · -- the follower holds the same entry before the new one
    cases hlen : entries.length with
    | zero => exact Or.inl rfl
    | succ n =>
        have hlt : n < entries.length := by omega
        have hterm : (node.log.termAt (n + 1)) = some entries[n].term := by
          rw [RaftLog.termAt_succ, hlog, List.getElem?_append_left hlt,
            List.getElem?_eq_getElem hlt, Option.map_some]
        right
        rw [RaftLog.termAt_succ, hfollower, List.getElem?_eq_getElem hlt, Option.map_some]
        simp only [prevLogTerm, hlen, hterm, Nat.succ_ne_zero, if_false, Option.getD_some]
  · have hone : ∀ idx ∈ List.range node.peers.length,
        node.sendAeTo idx = some [((node.peers.toList[idx]?).getD node.id, msg)] := by
      intro idx hidx
      rw [List.mem_range, HVec.length_eq] at hidx
      have hne : node.sendAeTo idx ≠ none := sendAeTo_ne_none
      obtain ⟨sent, hsent⟩ := Option.ne_none_iff_exists'.mp hne
      rcases sendAeTo_eq_some hsent with
        ⟨hge, -⟩ | ⟨peer, i, term, batch, hpeer, hi, hterm, hents, rfl⟩
      · omega
      · have hnexti : node.nextIndex i = entries.length + 1 :=
          hnext i (by rw [HVec.length_eq]; omega)
        rw [hsent, hpeer, Option.getD_some]
        have hlist : batch.toList = [entry] := by
          rw [hents (by omega), hnexti, Nat.add_sub_cancel, hlog, List.drop_left]
          rfl
        have hbatches : batch = ⟨[entry], hbatch⟩ := HVec.ext hlist
        rw [hnexti, Nat.add_sub_cancel] at hterm ⊢
        rw [hterm, hbatches]
    rw [mapM_of_forall hone, Option.some.injEq] at hsend
    rw [← hsend, ← List.flatMap_def, ← List.map_eq_flatMap]
    apply List.ext_getElem?
    intro k
    rw [List.getElem?_map, List.getElem?_map]
    by_cases hk : k < node.peers.length
    · rw [List.getElem?_range hk, Option.map_some]
      rw [HVec.length_eq] at hk
      rw [List.getElem?_eq_getElem hk, Option.map_some, Option.getD_some]
    · rw [List.getElem?_eq_none (by simpa using hk), List.getElem?_eq_none (Nat.not_lt.mp hk)]
      rfl

theorem splice_end {entries : List LogEntry} (entry : LogEntry) :
    splice entries entries.length [entry] = entries ++ [entry] := by
  simp [splice]

theorem step_newest {leader follower : RaftNode} {entries : List LogEntry} {entry : LogEntry}
    {msg : RaftMessage} (hmsg : NewestOnly leader entries entry msg)
    (hlog : follower.log.toList = entries) (hterm : follower.currentTerm ≤ leader.currentTerm)
    (hcommit : follower.commitIndex ≤ entries.length) (hroom : entries.length < LOG_CAPACITY) :
    ∃ peer, follower.step sender msg = some (none, peer,
        [(sender, .appendEntriesReply leader.currentTerm true (entries.length + 1))]) ∧
      peer.log.toList = entries ++ [entry] ∧ peer.currentTerm = leader.currentTerm ∧
      peer.commitIndex ≤ entries.length + 1 := by
  obtain ⟨prevLogTerm, batch, rfl, hbatch, hprev⟩ := hmsg
  have hne : follower.onAppendEntries sender leader.currentTerm entries.length prevLogTerm batch
      leader.commitIndex ≠ none := onAppendEntries_ne_none
  obtain ⟨⟨peer, sent⟩, happ⟩ := Option.ne_none_iff_exists'.mp hne
  rcases onAppendEntries_cases happ with
    ⟨hlt, -⟩ | ⟨-, hnot, -⟩ | ⟨hle, -, log, hnew, hpeer, hsent⟩
  · omega
  · exact absurd (hprev follower hlog) hnot
  · have hlen : (entries ++ [entry]).length ≤ LOG_CAPACITY := by
      rw [List.length_append, List.length_singleton]
      exact hroom
    rw [hlog, hbatch, splice_end, List.take_of_length_le hlen] at hnew
    rw [hbatch, List.length_singleton] at hsent
    refine ⟨peer, step_appendEntries.mpr ⟨rfl, hsent ▸ happ⟩, hpeer ▸ hnew,
      hpeer ▸ follow_currentTerm hle, ?_⟩
    have hlast : log.lastIndex = entries.length + 1 := by
      rw [RaftLog.lastIndex_eq, hnew, List.length_append, List.length_singleton]
    rw [hpeer]
    dsimp only
    split
    · omega
    · omega

-- The last index of a leader's log, acknowledged by its `d`-th peer.
theorem step_acked {d n : Nat} (hrole : node.role = .leader)
    (hnodup : node.peers.toList.Nodup) (hpeer : node.peers.toList[d]? = some sender)
    (hlen : node.log.toList.length = n) (hcommit : node.commitIndex ≤ n)
    (hlast : node.log.termAt n = some node.currentTerm) :
    ∃ committed node', node.step sender (.appendEntriesReply node.currentTerm true n) =
        some (committed, node', []) ∧
      node'.role = .leader ∧ node'.peers = node.peers ∧ node'.currentTerm = node.currentTerm ∧
      node'.log = node.log ∧ node'.commitIndex ≤ n ∧
      (∀ k : Fin MAX_PEERS, node'.matchIndex k = if k.val = d then n else node.matchIndex k) ∧
      (node.commitIndex = n ∨ node.quorum ≤ node'.ackCount n → node'.commitIndex = n) := by
  have hcap : node.log.toList.length ≤ 256 := node.log.length_le
  have hd := (List.getElem?_eq_some_iff.mp hpeer).1
  obtain ⟨i, hi⟩ := peerIndex_ne_none (List.mem_of_getElem? hpeer)
  have hid : i.val = d := by
    have hat := (peerIndex_eq_some hi).1
    exact (List.getElem?_inj (peerIndex_lt hi) hnodup).mp (hat.trans hpeer.symm)
  have hne : node.onAeReply sender node.currentTerm true n ≠ none := by
    rw [Ne, onAeReply_eq_none]
    rintro ⟨-, -, -, -, hbig | hbig⟩
    · omega
    · omega
  obtain ⟨⟨committed, node'⟩, hreply⟩ := Option.ne_none_iff_exists'.mp hne
  obtain ⟨m, rfl, hcase, hmax⟩ := onAeReply_success hrole hi hreply
  have hle : m ≤ n := by
    rcases hcase with ⟨rfl, -⟩ | ⟨-, hle, -⟩
    · exact hcommit
    · omega
  have hge : node.commitIndex ≤ m := by
    rcases hcase with ⟨rfl, -⟩ | ⟨hlt, -⟩
    · exact Nat.le_refl _
    · exact Nat.le_of_lt hlt
  refine ⟨committed, _, step_appendEntriesReply.mpr ⟨rfl, hreply⟩, hrole, rfl, rfl, rfl, hle,
    fun k => ?_, ?_⟩
  · show update node.matchIndex i n k = _
    by_cases hk : k = i
    · rw [hk, update_self, if_pos hid]
    · rw [update_of_ne hk, if_neg fun h => hk (Fin.ext (h.trans hid.symm))]
  · rintro (hdone | hquorum)
    · dsimp only
      omega
    · dsimp only
      by_cases hlt : node.commitIndex < n
      · exact Nat.le_antisymm hle (hmax n hlt (Nat.le_of_eq hlen.symm) hlast hquorum)
      · omega

theorem le_ackCount {d n : Nat} (hd : d ≤ node.peers.toList.length)
    (h : ∀ k : Fin MAX_PEERS, k.val < d → node.matchIndex k = n) : 1 + d ≤ node.ackCount n := by
  have hcap : node.peers.toList.length ≤ MAX_PEERS := node.peers.length_le
  rw [ackCount_eq]
  apply Nat.add_le_add_left
  calc d = (Finset.univ.map (Fin.castLEEmb (hd.trans hcap))).card := by
        rw [Finset.card_map, Finset.card_univ, Fintype.card_fin]
    _ ≤ (node.ackSlots n).card := by
        apply Finset.card_le_card
        intro k hk
        obtain ⟨l, -, rfl⟩ := Finset.mem_map.mp hk
        have hlt : (Fin.castLEEmb (hd.trans hcap) l).val < d := l.isLt
        exact Finset.mem_filter.mpr ⟨Finset.mem_univ _, by omega, Nat.le_of_eq (h _ hlt).symm⟩

end RaftNode

namespace Cluster

variable {V : Membership} {s s' : Cluster} {i j : NodeId}

-- All members hold the same log.
structure Agreed (V : Membership) (entries : List LogEntry) (s : Cluster) : Prop where
  log : ∀ j ∈ V.members, (s.node j).log.toList = entries
  commit : ∀ j ∈ V.members, (s.node j).commitIndex ≤ entries.length

-- The newest entry of leader `i` after the first `d` of its peers have taken it.
structure Spread (V : Membership) (i : NodeId) (entries : List LogEntry) (entry : LogEntry)
    (peers : List NodeId) (d : Nat) (s : Cluster) : Prop where
  role : (s.node i).role = .leader
  term_eq : (s.node i).currentTerm = entry.term
  peers_eq : (s.node i).peers.toList = peers
  log_eq : (s.node i).log.toList = entries ++ [entry]
  commit_le : (s.node i).commitIndex ≤ entries.length + 1
  committed : (s.node i).quorum ≤ 1 + d → (s.node i).commitIndex = entries.length + 1
  slots : ∀ k : Fin MAX_PEERS, k.val < d → (s.node i).matchIndex k = entries.length + 1
  terms : ∀ j ∈ V.members, (s.node j).currentTerm ≤ entry.term
  copied : ∀ k j, k < d → peers[k]? = some j →
    (s.node j).log.toList = entries ++ [entry] ∧ (s.node j).commitIndex ≤ entries.length + 1
  waiting : ∀ k j, d ≤ k → peers[k]? = some j →
    (s.node j).log.toList = entries ∧ (s.node j).commitIndex ≤ entries.length

theorem Spread.round {d base : Nat} {entries : List LogEntry} {entry : LogEntry}
    {peers : List NodeId} {msg : RaftMessage} {leader : RaftNode}
    (h : Spread V i entries entry peers d s) (hsane : Sane s) (hi : i ∈ V.members)
    (hnodup : peers.Nodup) (hpeer : peers[d]? = some j) (hj : j ∈ V.members) (hji : j ≠ i)
    (hself : i ∉ peers) (hroom : entries.length < LOG_CAPACITY)
    (hterm : leader.currentTerm = entry.term) (hmsg : leader.NewestOnly entries entry msg)
    (hp : Pending s (base + d) ⟨i, j, msg⟩) :
    ∃ s', Reaches V s s' ∧ Spread V i entries entry peers (d + 1) s' ∧
      ∀ other packet, other ≠ base + d → Pending s other packet → Pending s' other packet := by
  obtain ⟨hlog, hcommit⟩ := h.waiting d j (Nat.le_refl d) hpeer
  obtain ⟨peer, hstep, hplog, hpterm, hpcommit⟩ :=
    RaftNode.step_newest hmsg hlog (hterm ▸ h.terms j hj) hcommit hroom
  have hlen : (s.node i).log.toList.length = entries.length + 1 := by
    rw [h.log_eq, List.length_append, List.length_singleton]
  have hlast : (s.node i).log.termAt (entries.length + 1) = some (s.node i).currentTerm := by
    rw [RaftLog.termAt_succ, h.log_eq, List.getElem?_concat_length, h.term_eq]
    rfl
  have hat : (s.node i).peers.toList[d]? = some j := h.peers_eq ▸ hpeer
  obtain ⟨committed, node, hack, hrole, hpeers, hnterm, hnlog, hncommit, hmatch, hdone⟩ :=
    RaftNode.step_acked h.role (h.peers_eq ▸ hnodup) hat hlen h.commit_le hlast
  rw [h.term_eq, ← hterm] at hack
  obtain ⟨s', hreach, hnode, hkeep⟩ := roundTrip hsane hi hj hji.symm hp hstep hack
  have hnode_i : s'.node i = node := by rw [hnode, update_self]
  have hnode_j : s'.node j = peer := by rw [hnode, update_of_ne hji, update_self]
  have hother : ∀ k, k ≠ i → k ≠ j → s'.node k = s.node k := by
    intro k hki hkj
    rw [hnode, update_of_ne hki, update_of_ne hkj]
  have hslots : ∀ k : Fin MAX_PEERS, k.val < d + 1 → node.matchIndex k = entries.length + 1 := by
    intro k hk
    rw [hmatch]
    split
    · rfl
    · exact h.slots k (by omega)
  -- distinct places of the list hold distinct peers
  have hplace : ∀ {k l}, peers[k]? = some l → k ≠ d → l ≠ j ∧ l ≠ i := by
    intro k l hl hkd
    refine ⟨?_, fun hli => hself (hli ▸ List.mem_of_getElem? hl)⟩
    rintro rfl
    have hlt := (List.getElem?_eq_some_iff.mp hl).1
    exact hkd ((List.getElem?_inj hlt hnodup).mp (hl.trans hpeer.symm))
  refine ⟨s', hreach, ⟨?_, ?_, ?_, ?_, ?_, ?_, ?_, fun k hk => ?_, fun k l hk hl => ?_,
    fun k l hk hl => ?_⟩, hkeep⟩
  · rw [hnode_i]
    exact hrole
  · rw [hnode_i, hnterm]
    exact h.term_eq
  · rw [hnode_i, hpeers]
    exact h.peers_eq
  · rw [hnode_i, hnlog]
    exact h.log_eq
  · rw [hnode_i]
    exact hncommit
  · rw [hnode_i]
    intro hquorum
    apply hdone
    right
    have hd : d + 1 ≤ node.peers.toList.length := by
      rw [hpeers, h.peers_eq]
      exact (List.getElem?_eq_some_iff.mp hpeer).1
    have hcount := RaftNode.le_ackCount hd hslots
    have hsame : node.quorum = (s.node i).quorum := by
      rw [RaftNode.quorum, hpeers, RaftNode.quorum]
    omega
  · rw [hnode_i]
    exact hslots
  · by_cases hki : k = i
    · rw [hki, hnode_i, hnterm, h.term_eq]
    · by_cases hkj : k = j
      · rw [hkj, hnode_j, hpterm, hterm]
      · rw [hother k hki hkj]
        exact h.terms k hk
  · by_cases hkd : k = d
    · subst hkd
      obtain rfl := Option.some.inj (hpeer.symm.trans hl)
      rw [hnode_j]
      exact ⟨hplog, hpcommit⟩
    · obtain ⟨hlj, hli⟩ := hplace hl hkd
      rw [hother l hli hlj]
      exact h.copied k l (by omega) hl
  · obtain ⟨hlj, hli⟩ := hplace hl (by omega)
    rw [hother l hli hlj]
    exact h.waiting k l (by omega) hl

theorem Spread.agreed {entries : List LogEntry} {entry : LogEntry} {d : Nat}
    (h : Spread V i entries entry (V.peerSet i).peers.toList d s) (hi : i ∈ V.members)
    (hd : (V.peerSet i).peers.toList.length ≤ d) : Agreed V (entries ++ [entry]) s := by
  have hlen : (entries ++ [entry]).length = entries.length + 1 := by simp
  have hmember : ∀ j ∈ V.members, (s.node j).log.toList = entries ++ [entry] ∧
      (s.node j).commitIndex ≤ entries.length + 1 := by
    intro j hj
    by_cases hji : j = i
    · exact hji ▸ ⟨h.log_eq, h.commit_le⟩
    · obtain ⟨k, hk⟩ := List.getElem?_of_mem ((V.mem_peers hi).mpr ⟨hj, hji⟩)
      have hlt := (List.getElem?_eq_some_iff.mp hk).1
      exact h.copied k j (by omega) hk
  exact ⟨fun j hj => (hmember j hj).1, fun j hj => hlen ▸ (hmember j hj).2⟩

-- A new leader among members that agree has its first proposal accepted by all.
theorem exists_decided (h : Ready V s) (hi : i ∈ V.members) (hfresh : (s.node i).FreshLeader)
    {entries : List LogEntry} (hagreed : Agreed V entries s)
    (hterms : ∀ j ∈ V.members, (s.node j).currentTerm ≤ (s.node i).currentTerm)
    (hroom : entries.length < LOG_CAPACITY) (src dst : NodeId) :
    ∃ s', Reaches V s s' ∧ Agreed V (entries ++ [⟨(s.node i).currentTerm, src, dst⟩]) s' ∧
      (s'.node i).role = .leader ∧ (s'.node i).commitIndex = entries.length + 1 ∧
      ∀ j ∈ V.members, (s'.node j).currentTerm ≤ (s.node i).currentTerm := by
  let entry : LogEntry := ⟨(s.node i).currentTerm, src, dst⟩
  let peers := (V.peerSet i).peers.toList
  have hpeers : (s.node i).peers.toList = peers := congrArg HVec.toList (h.posted.peers i)
  have hself : i ∉ peers := fun hmem => ((V.mem_peers hi).mp hmem).2 rfl
  have hne : (s.node i).propose src dst ≠ none := RaftNode.propose_ne_none
  obtain ⟨⟨result, node, out⟩, hpropose⟩ := Option.ne_none_iff_exists'.mp hne
  have hmid : Reaches V s (s.post i node out) := .single (step_propose hi hpropose)
  have hnode_i : (s.post i node out).node i = node := post_node_self ..
  have hother : ∀ j, j ≠ i → (s.post i node out).node j = s.node j := fun j hj =>
    post_node_of_ne s node out hj
  rcases RaftNode.propose_cases hpropose with
    ⟨hnot, -⟩ | ⟨-, hfull, -⟩ | ⟨hrole, -, log, hlog, hcase⟩
  · exact absurd hfresh.1 hnot
  · rw [hagreed.log i hi] at hfull
    omega
  rw [hagreed.log i hi] at hlog
  have hlast : log.lastIndex = entries.length + 1 := by
    rw [RaftLog.lastIndex_eq, hlog, List.length_append, List.length_singleton]
  -- the leader has written its entry, and nobody has heard of it
  have hspread : node.role = .leader → node.currentTerm = entry.term →
      node.peers = (s.node i).peers → node.log = log → node.commitIndex ≤ entries.length + 1 →
      (node.quorum ≤ 1 → node.commitIndex = entries.length + 1) →
      Spread V i entries entry peers 0 (s.post i node out) := by
    intro hr ht hps hl hc hq
    refine ⟨by rw [hnode_i]; exact hr, by rw [hnode_i]; exact ht,
      by rw [hnode_i, hps]; exact hpeers, by rw [hnode_i, hl]; exact hlog,
      by rw [hnode_i]; exact hc, by rw [hnode_i]; exact hq, fun _ hk => by omega, fun j hj => ?_,
      fun _ _ hk => by omega, fun k j _ hj => ?_⟩
    · by_cases hji : j = i
      · rw [hji, hnode_i, ht]
      · rw [hother j hji]
        exact hterms j hj
    · obtain ⟨hmem, hji⟩ := mem_of_peer hi hj
      rw [hother j hji]
      exact ⟨hagreed.log j hmem, hagreed.commit j hmem⟩
  have hcommit := hagreed.commit i hi
  rcases hcase with ⟨hnil, -, hnode⟩ | ⟨hcons, hnode, batches, hsend, hout⟩
  · have h₀ := hspread (hnode ▸ hrole) (hnode ▸ rfl) (hnode ▸ rfl) (hnode ▸ rfl)
      (by rw [hnode]; exact Nat.le_of_eq hlast) fun _ => by rw [hnode]; exact hlast
    refine ⟨_, hmid, h₀.agreed hi ?_, h₀.role, ?_, h₀.terms⟩
    · rw [hpeers] at hnil
      exact Nat.le_of_eq (congrArg List.length hnil)
    · rw [hnode_i, hnode]
      exact hlast
  · have hpos : 0 < (s.node i).peers.toList.length := List.length_pos_iff.mpr hcons
    have hquorum : node.quorum = ((s.node i).peers.toList.length + 1) / 2 + 1 := by
      rw [hnode]
      rfl
    have h₀ := hspread (hnode ▸ hrole) (hnode ▸ rfl) (hnode ▸ rfl) (hnode ▸ rfl)
      (by rw [hnode]; exact Nat.le_succ_of_le hcommit) fun hq => by omega
    have hnext : ∀ k : Fin MAX_PEERS, k.val < node.peers.length →
        node.nextIndex k = entries.length + 1 := by
      intro k hk
      rw [hnode] at hk ⊢
      refine (hfresh.2 k hk).1.trans ?_
      rw [RaftLog.lastIndex_eq, hagreed.log i hi]
    have hnlog : node.log.toList = entries ++ [entry] := by
      rw [hnode]
      exact hlog
    have hnpeers : node.peers.toList = peers := by
      rw [hnode]
      exact hpeers
    obtain ⟨msg, hmsg, hflat⟩ := RaftNode.exists_newest hnlog hnext
      (by rw [show node.peers.length = (s.node i).peers.length by rw [hnode]]; exact hsend)
    have hposted : ∀ k j, peers[k]? = some j →
        Pending (s.post i node out) (s.sent.length + k) ⟨i, j, msg⟩ := by
      intro k j hpeer
      apply pending_post h.sane
      rw [hout, hflat, hnpeers, List.getElem?_map, hpeer, Option.map_some]
    obtain ⟨s', hreach, hQ⟩ := exchange (Q := Spread V i entries entry peers)
      (fun d t j hpeer hsane hQ hpending => by
        obtain ⟨hmem, hji⟩ := mem_of_peer hi hpeer
        exact hQ.round hsane hi (V.nodup hi) hpeer hmem hji hself hroom (hnode ▸ rfl) hmsg
          hpending)
      (h.reaches hmid).sane h₀ hposted
    refine ⟨s', hmid.trans hreach, hQ.agreed hi (Nat.le_refl _), hQ.role, hQ.committed ?_, hQ.terms⟩
    rw [RaftNode.quorum, HVec.length_eq, hQ.peers_eq]
    rw [hpeers] at hpos
    omega

-- The edges are listed latest first: each of them takes one more election and one more
-- proposal, and the first election is held before any edge is proposed.
theorem exists_agreed (hne : V.members.Nonempty) :
    ∀ edges : List (NodeId × NodeId), edges.length ≤ LOG_CAPACITY →
      ∃ s entries, Reaches V (start V) s ∧ Agreed V entries s ∧
        entries.map (fun e => (e.src, e.dst)) = edges.reverse ∧
        (∀ j ∈ V.members, (s.node j).currentTerm ≤ edges.length + 1) ∧
        ∃ i ∈ V.members, (s.node i).role = .leader ∧ (s.node i).commitIndex = edges.length := by
  intro edges
  induction edges with
  | nil =>
      intro _
      have hzero : ∀ j, ((start V).node j).currentTerm = 0 := fun _ => rfl
      obtain ⟨s, i, hi, hs, hfresh, hnew, ⟨m, -, hterm⟩, hkept⟩ :=
        exists_leader (Ready.start V) hne fun j _ => by rw [hzero]; decide
      refine ⟨s, [], hs, ⟨fun j _ => ?_, fun j _ => ?_⟩, rfl, fun j hj => ?_, i, hi, hfresh.1, ?_⟩
      · rw [(hkept j).1]
        rfl
      · rw [(hkept j).2]
        exact Nat.le_refl 0
      · rw [hzero m] at hterm
        exact (hnew j hj).2.trans (Nat.le_of_eq hterm)
      · rw [(hkept i).2]
        rfl
  | cons edge rest ih =>
      intro hlen
      have hcap : LOG_CAPACITY = 256 := rfl
      rw [List.length_cons] at hlen
      obtain ⟨s, entries, hs, hagreed, hedges, hterms, -⟩ := ih (by omega)
      have hsame : entries.length = rest.length := by
        rw [← List.length_map (fun e : LogEntry => (e.src, e.dst)), hedges, List.length_reverse]
      have hready := (Ready.start V).reaches hs
      obtain ⟨mid, i, hi, hmid, hfresh, hnew, ⟨m, hm, hterm⟩, hkept⟩ :=
        exists_leader hready hne fun j hj => by
          have := hterms j hj
          omega
      have hagreed' : Agreed V entries mid :=
        ⟨fun j hj => (hkept j).1 ▸ hagreed.log j hj,
          fun j hj => (hkept j).2 ▸ hagreed.commit j hj⟩
      obtain ⟨s', hs', hdecided, hrole, hcommit, hterms'⟩ := exists_decided (hready.reaches hmid)
        hi hfresh hagreed' (fun j hj => (hnew j hj).2) (by omega) edge.1 edge.2
      have hbound := hterms m hm
      refine ⟨s', _, (hs.trans hmid).trans hs', hdecided, ?_, fun j hj => ?_, i, hi, hrole, ?_⟩
      · rw [List.map_append, hedges, List.reverse_cons]
        rfl
      · have := hterms' j hj
        rw [List.length_cons]
        omega
      · rw [hcommit, hsame, List.length_cons]

-- Any sequence of edges that the logs can hold can be decided, one after the other.
theorem edges_committable (V : Membership) (hne : V.members.Nonempty)
    (edges : List (NodeId × NodeId)) (hlen : edges.length ≤ LOG_CAPACITY) :
    ∃ s, Reaches V (start V) s ∧
      (∀ j ∈ V.members, (s.node j).log.toList.map (fun e => (e.src, e.dst)) = edges) ∧
      ∃ i ∈ V.members, (s.node i).role = .leader ∧ (s.node i).commitIndex = edges.length := by
  obtain ⟨s, entries, hs, hagreed, hedges, -, i, hi, hrole, hcommit⟩ :=
    exists_agreed hne edges.reverse (by rwa [List.length_reverse])
  rw [List.reverse_reverse] at hedges
  refine ⟨s, hs, fun j hj => ?_, i, hi, hrole, ?_⟩
  · rw [hagreed.log j hj, hedges]
  · rw [hcommit, List.length_reverse]

theorem edges_committable_trio : ∃ s, Reaches trio (start trio) s ∧
    ∃ i ∈ trio.members, (s.node i).role = .leader ∧ (s.node i).commitIndex = 2 := by
  obtain ⟨s, hs, -, hleader⟩ := edges_committable trio ⟨node1, by decide⟩
    [(node1, node2), (node2, node3)] (by decide)
  exact ⟨s, hs, hleader⟩

end Cluster

end LuxKernel.Consensus
