import LuxKernel.Consensus.Simulation

namespace LuxKernel.Consensus

open Function Heapless Replication Replication.Proto

variable {V : Membership} {s s' : Cluster} {action : Action} {A : Shadow} {i j : NodeId} {n : Nat}

theorem Tracks.leader_log (h : Tracks V s A) (hi : i ∈ V.members)
    (hr : (s.node i).role = .leader) :
    (s.node i).log.toList = A.chronicle (s.node i).currentTerm := by
  have hm := h.mirrors hi
  rw [← hm.log, ← hm.term]
  exact h.sound.chronicles.leader_log (by rw [hm.term]; exact hm.leader hr)

-- Acknowledgements counted against the leader's quorum are held by a majority.
theorem Tracks.chosen (h : Tracks V s A) (hi : i ∈ V.members) (hr : (s.node i).role = .leader)
    (hpos : 0 < n) (hterm : (s.node i).log.termAt n = some (s.node i).currentTerm)
    (hq : (s.node i).quorum ≤ (s.node i).ackCount n) :
    Chosen (Majority V) A (s.node i).currentTerm n := by
  have hm := h.mirrors hi
  have hlog := h.leader_log hi hr
  have hpeers := h.posted.peers i
  obtain ⟨m, rfl⟩ : ∃ m, n = m + 1 := Nat.exists_eq_add_of_lt hpos |>.imp fun m hm => by omega
  rw [RaftLog.termAt_succ, Option.map_eq_some_iff] at hterm
  obtain ⟨e, he, het⟩ := hterm
  have hlen : m < (s.node i).log.toList.length := (List.getElem?_eq_some_iff.mp he).1
  -- the peer of a slot, and the leader itself for a slot that is not in use
  let peerAt : Fin MAX_PEERS → NodeId := fun k => ((s.node i).peers.toList[k.val]?).getD i
  have hat : ∀ k ∈ (s.node i).ackSlots (m + 1),
      (s.node i).peers.toList[k.val]? = some (peerAt k) := by
    intro k hk
    have hlt := (Finset.mem_filter.mp hk).2.1
    simp only [peerAt, List.getElem?_eq_getElem hlt, Option.getD_some]
  have hpeer : ∀ k ∈ (s.node i).ackSlots (m + 1), peerAt k ∈ V.members ∧ peerAt k ≠ i := by
    intro k hk
    have hmem := List.mem_of_getElem? (hat k hk)
    rw [hpeers] at hmem
    exact (V.mem_peers hi).mp hmem
  have hinj : Set.InjOn peerAt ((s.node i).ackSlots (m + 1)) := by
    intro k hk l hl heq
    have hnodup : (s.node i).peers.toList.Nodup := by
      rw [hpeers]
      exact V.nodup hi
    have hlt := (Finset.mem_filter.mp hk).2.1
    apply Fin.ext
    exact (List.getElem?_inj hlt hnodup).mp ((hat k hk).trans (heq ▸ (hat l hl).symm))
  have hnotin : i ∉ ((s.node i).ackSlots (m + 1)).image peerAt := by
    intro hmem
    obtain ⟨k, hk, heq⟩ := Finset.mem_image.mp hmem
    exact (hpeer k hk).2 heq
  refine ⟨Nat.succ_pos m, ⟨e, by rw [← hlog]; exact he, het⟩,
    insert i (((s.node i).ackSlots (m + 1)).image peerAt), ⟨?_, ?_⟩, ?_⟩
  · intro v hv
    rcases Finset.mem_insert.mp hv with rfl | hv
    · exact hi
    · obtain ⟨k, hk, rfl⟩ := Finset.mem_image.mp hv
      exact (hpeer k hk).1
  · rw [Finset.card_insert_of_notMem hnotin, Finset.card_image_of_injOn hinj, V.card_members hi,
      ← hpeers]
    rw [RaftNode.ackCount_eq, RaftNode.quorum, HVec.length_eq] at hq
    omega
  · intro v hv
    rcases Finset.mem_insert.mp hv with rfl | hv
    · exact Or.inl ⟨hm.leader hr, by rw [← hlog]; exact hlen⟩
    · obtain ⟨k, hk, rfl⟩ := Finset.mem_image.mp hv
      have hge := (Finset.mem_filter.mp hk).2.2
      rcases (hm.slots hr (hat k hk)).2.2 with h0 | hack
      · omega
      · exact Or.inr ⟨_, hge, hack⟩

namespace RaftNode

variable {node node' : RaftNode} {sent : Sent}

-- The commit index stays and the log is at most extended.
def KeepsCommits (node node' : RaftNode) : Prop :=
  node'.commitIndex = node.commitIndex ∧ node.log.toList <+: node'.log.toList

-- A leader has found a quorum of acknowledgements for an entry of its own term.
def HasQuorum (node : RaftNode) : Prop :=
  node.role = .leader ∧ node.log.termAt node.commitIndex = some node.currentTerm ∧
    node.quorum ≤ node.ackCount node.commitIndex

theorem KeepsCommits.refl (node : RaftNode) : KeepsCommits node node :=
  ⟨rfl, List.prefix_refl _⟩

theorem propose_commit {src dst : NodeId} {result : Result Unit}
    (h : node.propose src dst = some (result, node', sent)) :
    KeepsCommits node node' ∨ HasQuorum node' := by
  rcases propose_cases h with ⟨-, -, rfl, -⟩ | ⟨-, -, -, rfl, -⟩ | ⟨hr, -, log, hlog, hc⟩
  · exact Or.inl (.refl _)
  · exact Or.inl (.refl _)
  rcases hc with ⟨hnil, -, rfl⟩ | ⟨-, rfl, -⟩
  · -- a cluster of one: the leader alone is a quorum
    refine Or.inr ⟨hr, ?_, ?_⟩
    · have hlen : log.toList.length = node.log.toList.length + 1 := by
        rw [hlog, List.length_append, List.length_singleton]
      dsimp only
      rw [RaftLog.lastIndex_eq, hlen, RaftLog.termAt_succ, hlog]
      simp
    · simp [quorum, ackCount, HVec.length_eq, hnil]
  · exact Or.inl ⟨rfl, ⟨_, hlog.symm⟩⟩

-- A follower may also take over the entries and the commit index of its leader.
theorem step_commit {sender : NodeId} {msg : RaftMessage} {committed : Option LogEntry}
    (h : node.step sender msg = some (committed, node', sent)) :
    KeepsCommits node node' ∨ HasQuorum node' ∨
    ∃ term leaderId prevLogIndex prevLogTerm entries leaderCommit,
      msg = .appendEntries term leaderId prevLogIndex prevLogTerm entries leaderCommit ∧
      node.currentTerm ≤ term ∧ node.PrevOk prevLogIndex prevLogTerm ∧
      ∃ log : RaftLog LOG_CAPACITY,
        log.toList = (splice node.log.toList prevLogIndex entries.toList).take LOG_CAPACITY ∧
        node' = { node.follow term with
          log := log
          commitIndex := if leaderCommit > node.commitIndex
            then min leaderCommit log.lastIndex else node.commitIndex } := by
  cases msg with
  | requestVote term candidateId lastLogIndex lastLogTerm =>
      left
      obtain ⟨-, hvote⟩ := step_requestVote.mp h
      have hobserve : KeepsCommits node (node.observe term) := by
        unfold observe
        split <;> exact .refl _
      rcases node.onRequestVote_cases sender term candidateId lastLogIndex lastLogTerm with
        ⟨-, -, -, heq⟩ | heq <;>
      · rw [heq, Prod.mk.injEq] at hvote
        rw [← hvote.1]
        exact hobserve
  | requestVoteReply term voteGranted =>
      left
      obtain ⟨-, -, hreply⟩ := step_requestVoteReply.mp h
      rcases onVoteReply_cases hreply with
        ⟨-, rfl⟩ | ⟨-, -, rfl⟩ | ⟨-, -, votes, -, ⟨-, rfl⟩ | ⟨-, rfl⟩⟩ <;> exact .refl _
  | appendEntries term leaderId prevLogIndex prevLogTerm entries leaderCommit =>
      obtain ⟨-, happ⟩ := step_appendEntries.mp h
      rcases onAppendEntries_cases happ with
        ⟨-, rfl, -⟩ | ⟨-, -, rfl, -⟩ | ⟨hle, hok, log, hlog, rfl, -⟩
      · exact Or.inl (.refl _)
      · exact Or.inl ⟨follow_commitIndex node term, by rw [follow_log]⟩
      · exact Or.inr (Or.inr ⟨term, leaderId, prevLogIndex, prevLogTerm, entries, leaderCommit, rfl,
          hle, hok, log, hlog, rfl⟩)
  | appendEntriesReply term success matchIndex =>
      obtain ⟨-, hreply⟩ := step_appendEntriesReply.mp h
      rcases onAeReply_cases hreply with ⟨-, -, rfl⟩ | ⟨-, -, -, rfl⟩ | ⟨hr, -, k, -, hc⟩
      · exact Or.inl (.refl _)
      · exact Or.inl (.refl _)
      rcases hc with ⟨-, -, rfl | rfl⟩ | ⟨-, -, rfl⟩ | ⟨-, n, -, -, hterm, hq, -, rfl⟩
      · exact Or.inl (.refl _)
      · exact Or.inl (.refl _)
      · exact Or.inl (.refl _)
      · exact Or.inr (Or.inl ⟨hr, hterm, hq⟩)

end RaftNode

-- The three ways in which a move can touch what a node has committed.
theorem Cluster.Move.commit_cases {mid : Cluster} {node : RaftNode} {out : Sent}
    (h : Cluster.Move s i action mid node out) :
    RaftNode.KeepsCommits (s.node i) node ∨ node.HasQuorum ∨
    ∃ position src term leaderId prevLogIndex prevLogTerm entries leaderCommit,
      action = .deliver position ∧
      s.Mail position src i
        (.appendEntries term leaderId prevLogIndex prevLogTerm entries leaderCommit) ∧
      (s.node i).currentTerm ≤ term ∧ (s.node i).PrevOk prevLogIndex prevLogTerm ∧
      ∃ log : RaftLog LOG_CAPACITY,
        log.toList =
          (splice (s.node i).log.toList prevLogIndex entries.toList).take LOG_CAPACITY ∧
        node = { (s.node i).follow term with
          log := log
          commitIndex := if leaderCommit > (s.node i).commitIndex
            then min leaderCommit log.lastIndex else (s.node i).commitIndex } := by
  cases h with
  | startElection h =>
      left
      rcases RaftNode.startElection_cases h with ⟨-, rfl, -⟩ | ⟨-, rfl, -⟩ <;>
        exact ⟨rfl, List.prefix_refl _⟩
  | propose h => exact (RaftNode.propose_commit h).imp (fun hk => hk) Or.inl
  | @deliver position src msg committed _ _ hnew hsent h =>
      rcases RaftNode.step_commit h with hk | hq | ⟨term, leaderId, prevLogIndex, prevLogTerm,
        entries, leaderCommit, rfl, hrest⟩
      · exact Or.inl hk
      · exact Or.inr (Or.inl hq)
      · exact Or.inr (Or.inr ⟨position, src, term, leaderId, prevLogIndex, prevLogTerm, entries,
          leaderCommit, rfl, hsent, hrest⟩)

theorem Cluster.Move.raised {mid : Cluster} {node : RaftNode} {out : Sent}
    (h : Cluster.Move s i action mid node out) (hr : node.role = .leader)
    (hlt : (s.node i).commitIndex < node.commitIndex) :
    node.log.termAt node.commitIndex = some node.currentTerm ∧
      node.quorum ≤ node.ackCount node.commitIndex := by
  rcases h.commit_cases with ⟨hsame, -⟩ | ⟨-, hterm, hq⟩ | ⟨_, _, _, _, _, _, _, _, -, -, -, -, _, -, rfl⟩
  · omega
  · exact ⟨hterm, hq⟩
  · simp only [RaftNode.follow_role] at hr
    cases hr

-- `node1` wins an election with the vote of `node3`, and `node3` stores an entry.
def trioReplicates : List Action :=
  [.startElection node1, .deliver 1, .deliver 2, .propose node1 node1 node2, .deliver 4]

-- Election safety, across the whole run: `s` and `s'` are any two states of it.
theorem election_safety (hrun : Cluster.Reaches V (Cluster.start V) s)
    (hlater : Cluster.Reaches V s s') (hi : i ∈ V.members) (hj : j ∈ V.members)
    (hli : (s.node i).role = .leader) (hlj : (s'.node j).role = .leader)
    (hterm : (s.node i).currentTerm = (s'.node j).currentTerm) : i = j := by
  obtain ⟨A, hA⟩ := exists_tracks hrun
  obtain ⟨A', hsteps, hA'⟩ := hA.reaches hlater
  have hgrows := (hA.sound.steps Majority.meet hsteps).2
  have hei := (hgrows.elected ((hA.mirrors hi).leader hli)).1
  have hej := (hA'.mirrors hj).leader hlj
  rw [← hterm, hei] at hej
  exact Option.some.inj hej

theorem election_safety_trio : ∃ s, Cluster.Reaches trio (Cluster.start trio) s ∧
    (s.node node1).role = .leader ∧ ∀ s', Cluster.Reaches trio s s' →
      ∀ j ∈ trio.members, (s'.node j).role = .leader →
        (s'.node j).currentTerm = (s.node node1).currentTerm → node1 = j := by
  obtain ⟨s, hrun, hr⟩ := Cluster.exists_reaches trioReplicates (V := trio) (s := .start trio)
    (p := fun s => decide ((s.node node1).role = .leader))
    (by decide +kernel)
  rw [decide_eq_true_eq] at hr
  exact ⟨s, hrun, hr, fun s' hlater j hj hlj hterm =>
    election_safety hrun hlater (by decide) hj hr hlj hterm.symm⟩

theorem log_matching (hrun : Cluster.Reaches V (Cluster.start V) s) (hi : i ∈ V.members)
    (hj : j ∈ V.members) {index : Nat} {x y : LogEntry}
    (hx : (s.node i).log.get index = some x) (hy : (s.node j).log.get index = some y)
    (hterm : x.term = y.term) :
    ∀ k ≤ index, (s.node i).log.get k = (s.node j).log.get k := by
  obtain ⟨A, hA⟩ := exists_tracks hrun
  intro k hk
  cases index with
  | zero => cases hx
  | succ m =>
      have hlogs := (hA.sound.chronicles.log_sound i).matching
        (hA.sound.chronicles.log_sound j) (k := m) (x := x) (y := y)
        (by rw [(hA.mirrors hi).log]; exact hx) (by rw [(hA.mirrors hj).log]; exact hy) hterm
      rw [(hA.mirrors hi).log, (hA.mirrors hj).log] at hlogs
      cases k with
      | zero => rfl
      | succ k =>
          rw [RaftLog.get_succ, RaftLog.get_succ]
          exact getElem?_eq_of_take_eq hlogs (by omega)

theorem log_matching_trio : ∃ s, Cluster.Reaches trio (Cluster.start trio) s ∧
    (s.node node1).log.get 1 = some ⟨1, node1, node2⟩ ∧
    ∀ k ≤ 1, (s.node node1).log.get k = (s.node node3).log.get k := by
  obtain ⟨s, hrun, hr⟩ := Cluster.exists_reaches trioReplicates (V := trio) (s := .start trio)
    (p := fun s => decide ((s.node node1).log.get 1 = some ⟨1, node1, node2⟩ ∧
      (s.node node3).log.get 1 = some ⟨1, node1, node2⟩)) (by decide +kernel)
  rw [decide_eq_true_eq] at hr
  exact ⟨s, hrun, hr.1, log_matching hrun (by decide) (by decide) hr.1 hr.2 rfl⟩

-- Leader completeness. In the step from `s` to `s₁` the leader `i` commits up to
-- `n`, and `s₂` is any later state with a leader of a later term.
theorem leader_completeness {s₁ s₂ : Cluster} (hrun : Cluster.Reaches V (Cluster.start V) s)
    (hstep : Cluster.Step V s s₁) (hlater : Cluster.Reaches V s₁ s₂) (hi : i ∈ V.members)
    (hj : j ∈ V.members) (hli : (s₁.node i).role = .leader)
    (hcommit : (s.node i).commitIndex < n ∧ (s₁.node i).commitIndex = n)
    (hlj : (s₂.node j).role = .leader)
    (hterm : (s₁.node i).currentTerm < (s₂.node j).currentTerm) :
    ∀ k, 1 ≤ k → k ≤ n →
      ∃ e, (s₁.node i).log.get k = some e ∧ (s₂.node j).log.get k = some e := by
  obtain ⟨A, hA⟩ := exists_tracks hrun
  obtain ⟨A₁, -, hA₁⟩ := hA.step hstep
  obtain ⟨A₂, hsteps, hA₂⟩ := hA₁.reaches hlater
  have hgrows := (hA₁.sound.steps Majority.meet hsteps).2
  obtain ⟨hlt, rfl⟩ := hcommit
  -- the committing step is a move of `i` itself
  have hchosen : Chosen (Majority V) A₁ (s₁.node i).currentTerm (s₁.node i).commitIndex := by
    obtain ⟨m, hm, action, mid, node, out, hmove, rfl⟩ := hstep.move
    have hnode := hmove.node_eq i
    by_cases him : i = m
    · subst him
      rw [if_pos rfl] at hnode
      rw [hnode] at hlt hli
      obtain ⟨hat, hq⟩ := hmove.raised hli hlt
      rw [← hnode] at hat hq hlt hli
      exact hA₁.chosen hi hli (by omega) hat hq
    · rw [if_neg him] at hnode
      rw [hnode] at hlt
      exact absurd hlt (Nat.lt_irrefl _)
  have hn := hchosen.le_length
  have hel : A₂.elected (s₂.node j).currentTerm ≠ none := by
    rw [(hA₂.mirrors hj).leader hlj]
    exact Option.some_ne_none j
  have htake := hA₂.sound.complete Majority.meet (hchosen.mono hgrows) hterm hel
  rw [← hA₂.leader_log hj hlj, hgrows.chronicle_take hn, ← hA₁.leader_log hi hli] at htake
  rw [← hA₁.leader_log hi hli] at hn
  intro k hk hkn
  obtain ⟨m, rfl⟩ := Nat.exists_eq_succ_of_ne_zero (Nat.pos_iff_ne_zero.mp hk)
  rw [Nat.succ_eq_add_one, RaftLog.get_succ, RaftLog.get_succ]
  have hget := getElem?_eq_of_take_eq htake (m := m) (by omega)
  have hlen : m < (s₁.node i).log.toList.length := by omega
  exact ⟨(s₁.node i).log.toList[m], List.getElem?_eq_getElem hlen,
    hget.trans (List.getElem?_eq_getElem hlen)⟩

-- `node1` commits the entry in term 1, and `node3` leads term 2.
theorem leader_completeness_trio : ∃ s s₁ s₂, Cluster.Reaches trio (Cluster.start trio) s ∧
    Cluster.Step trio s s₁ ∧ Cluster.Reaches trio s₁ s₂ ∧ (s₁.node node1).commitIndex = 1 ∧
    ∃ e, (s₁.node node1).log.get 1 = some e ∧ (s₂.node node3).log.get 1 = some e := by
  let phases : Option (Cluster × Cluster × Cluster) := do
    let s ← (Cluster.start trio).runActions trio trioReplicates
    let s₁ ← s.act trio (.deliver 5)
    let s₂ ← s₁.runActions trio [.startElection node3, .deliver 6, .deliver 8]
    return (s, s₁, s₂)
  have heval : phases.any (fun (s, s₁, s₂) => decide ((s₁.node node1).role = .leader ∧
        ((s.node node1).commitIndex < 1 ∧ (s₁.node node1).commitIndex = 1) ∧
        (s₂.node node3).role = .leader ∧
        (s₁.node node1).currentTerm < (s₂.node node3).currentTerm)) = true := by decide +kernel
  obtain ⟨⟨s, s₁, s₂⟩, hruns, hp⟩ := (Option.any_eq_true _ _).mp heval
  obtain ⟨_, hs, hruns⟩ := Option.bind_eq_some_iff.mp hruns
  obtain ⟨_, hs₁, hruns⟩ := Option.bind_eq_some_iff.mp hruns
  obtain ⟨_, hs₂, hruns⟩ := Option.bind_eq_some_iff.mp hruns
  simp only [Option.pure_def, Option.some.injEq, Prod.mk.injEq] at hruns
  obtain ⟨rfl, rfl, rfl⟩ := hruns
  obtain ⟨hli, hcommit, hlj, hterm⟩ := of_decide_eq_true hp
  have hrun := Cluster.reaches_of_runActions hs
  have hlater := Cluster.reaches_of_runActions hs₂
  exact ⟨_, _, _, hrun, ⟨_, hs₁⟩, hlater, hcommit.2,
    leader_completeness hrun ⟨_, hs₁⟩ hlater (by decide) (by decide) hli hcommit hlj hterm 1
      (Nat.le_refl 1) (Nat.le_refl 1)⟩

end LuxKernel.Consensus
