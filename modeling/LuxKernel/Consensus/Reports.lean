import LuxKernel.Consensus.Commit
import LuxKernel.Consensus.Merge

namespace LuxKernel.Consensus

open Function Heapless Replication Replication.Proto

namespace RaftNode

variable {node node' : RaftNode} {sender : NodeId} {msg : RaftMessage}
variable {committed : Option LogEntry} {sent : Sent}

-- `step` returns one entry at most, and it returns none for an `AppendEntries`. So an
-- `AppendEntries` must not move the commit index forward, and an acknowledgement must
-- not complete a quorum for an index beyond the next one.
def Announces (node : RaftNode) (sender : NodeId) : RaftMessage → Prop
  | .appendEntries term _ prevLogIndex prevLogTerm entries leaderCommit =>
      node.currentTerm ≤ term → node.PrevOk prevLogIndex prevLogTerm →
      node.commitIndex < leaderCommit →
        (node.Meets prevLogIndex entries.toList → node.logLen ≤ node.commitIndex) ∧
        (¬node.Meets prevLogIndex entries.toList →
          min LOG_CAPACITY (prevLogIndex + entries.toList.length) ≤ node.commitIndex)
  | .appendEntriesReply term true matchIndex =>
      node.role = .leader → term = node.currentTerm →
      ∀ i : Fin MAX_PEERS, node.peerIndex sender = some i.val →
        ∀ n ≤ node.logLen, node.commitIndex + 1 < n → node.log.termAt n = some node.currentTerm →
          (node.acknowledged i matchIndex).ackCount n < node.quorum
  | _ => True

instance (node : RaftNode) (prevLogIndex : Nat) (entries : List LogEntry) :
    Decidable (node.Meets prevLogIndex entries) := inferInstanceAs (Decidable (∀ k < _, _))

instance (node : RaftNode) (sender : NodeId) :
    (msg : RaftMessage) → Decidable (node.Announces sender msg)
  | .appendEntries .. => inferInstanceAs (Decidable (_ → _ → _ → _ ∧ _))
  | .appendEntriesReply _ true _ => inferInstanceAs (Decidable (_ → _ → ∀ _ : Fin MAX_PEERS, _))
  | .appendEntriesReply _ false _ => inferInstanceAs (Decidable True)
  | .requestVote .. => inferInstanceAs (Decidable True)
  | .requestVoteReply .. => inferInstanceAs (Decidable True)

theorem take_eq_iff {old new : List LogEntry} {m n : Nat} (hstable : new.take m = old.take m)
    (hm : m ≤ old.length) (hn : n ≤ new.length) : old.take m = new.take n ↔ n = m := by
  constructor
  · intro heq
    have hlen := congrArg List.length heq
    simp only [List.length_take] at hlen
    omega
  · rintro rfl
    exact hstable.symm

-- A leader returns the last of the entries that it commits.
theorem acknowledgement_reports_iff {i : Fin MAX_PEERS} {matchIndex : Nat}
    (hrole : node.role = .leader) (hpeer : node.peerIndex sender = some i.val)
    (hreply : node.onAeReply sender node.currentTerm true matchIndex = some (committed, node'))
    (hlen : node.commitIndex ≤ node.log.toList.length) :
    node.log.toList.take node.commitIndex ++ committed.toList =
      node'.log.toList.take node'.commitIndex ↔
    ∀ k ≤ node.logLen, node.commitIndex + 1 < k → node.log.termAt k = some node.currentTerm →
      (node.acknowledged i matchIndex).ackCount k < node.quorum := by
  obtain ⟨n, hnode, hn, hmax⟩ := onAeReply_success hrole hpeer hreply
  have hlog : node'.log = node.log := by rw [hnode]; rfl
  have hcommit : node'.commitIndex = n := by rw [hnode]
  rw [hlog, hcommit]
  rcases hn with ⟨rfl, rfl⟩ | ⟨hlt, hle, hterm, hquorum, rfl⟩
  · refine iff_of_true (List.append_nil _) fun k hk hlt hat => ?_
    apply Nat.lt_of_not_le
    intro hreached
    have hback := hmax k (by omega) hk hat hreached
    omega
  · obtain ⟨m, rfl⟩ : ∃ m, n = m + 1 := ⟨n - 1, by omega⟩
    have hget : node.log.get (m + 1) = some (node.log.toList[m]) := List.getElem?_eq_getElem hle
    rw [hget, Option.toList_some]
    constructor
    · intro heq k hk hpast hat
      apply Nat.lt_of_not_le
      intro hreached
      have hback := hmax k (by omega) hk hat hreached
      have hlens := congrArg List.length heq
      simp only [List.length_append, List.length_take, List.length_singleton] at hlens
      omega
    · intro hall
      have hnext : m = node.commitIndex := by
        by_contra hne
        have hfew := hall (m + 1) hle (by omega) hterm
        omega
      rw [← hnext, List.take_succ_eq_append_getElem hle]

-- The entries before the commit index, with the one that is returned, are those before
-- the new commit index exactly under the condition.
theorem step_reports_iff (h : node.step sender msg = some (committed, node', sent))
    (hlen : node.commitIndex ≤ node.log.toList.length)
    (hgrows : node.commitIndex ≤ node'.commitIndex)
    (hlen' : node'.commitIndex ≤ node'.log.toList.length)
    (hstable : node'.log.toList.take node.commitIndex = node.log.toList.take node.commitIndex) :
    node.log.toList.take node.commitIndex ++ committed.toList =
      node'.log.toList.take node'.commitIndex ↔ node.Announces sender msg := by
  have hsilent : committed = none →
      (node.log.toList.take node.commitIndex ++ committed.toList =
        node'.log.toList.take node'.commitIndex ↔ node'.commitIndex = node.commitIndex) := by
    rintro rfl
    rw [Option.toList_none, List.append_nil]
    exact take_eq_iff hstable hlen hlen'
  cases msg with
  | requestVote term candidateId lastLogIndex lastLogTerm =>
      obtain ⟨hnone, hvote⟩ := step_requestVote.mp h
      rw [hsilent hnone]
      refine iff_of_true ?_ trivial
      rcases node.onRequestVote_cases sender term candidateId lastLogIndex lastLogTerm with
        ⟨-, -, -, heq⟩ | heq <;>
      · rw [heq, Prod.mk.injEq] at hvote
        rw [← hvote.1]
        exact node.observe_commitIndex term
  | requestVoteReply term voteGranted =>
      obtain ⟨hnone, -, hreply⟩ := step_requestVoteReply.mp h
      rw [hsilent hnone]
      refine iff_of_true ?_ trivial
      rcases onVoteReply_cases hreply with
        ⟨-, rfl⟩ | ⟨-, -, rfl⟩ | ⟨-, -, votes, -, ⟨-, rfl⟩ | ⟨-, rfl⟩⟩ <;> rfl
  | appendEntries term leaderId prevLogIndex prevLogTerm entries leaderCommit =>
      obtain ⟨hnone, happ⟩ := step_appendEntries.mp h
      rw [hsilent hnone]
      rcases onAppendEntries_cases happ with
        ⟨hlt, rfl, -⟩ | ⟨-, hprev, rfl, -⟩ | ⟨hle, hprev, log, hlog, rfl, -⟩
      · exact iff_of_true rfl fun hle => by omega
      · exact iff_of_true (follow_commitIndex node term) fun _ hok => absurd hok hprev
      · have hmerged := congrArg List.length hlog
        have hcap := node.log.length_le
        simp only [Announces, hle, hprev, true_implies]
        dsimp only at hgrows hlen' ⊢
        rw [RaftLog.lastIndex_eq, logLen_eq] at *
        by_cases hmeets : node.Meets prevLogIndex entries.toList
        · rw [List.length_take, splice_of_held (meets_iff.mp hmeets)] at hmerged
          simp only [hmeets, not_true_eq_false, true_implies, false_implies, and_true]
          split <;> omega
        · rw [List.length_take,
            length_splice_of_not_held hprev.le_length (mt meets_iff.mpr hmeets)] at hmerged
          simp only [hmeets, not_false_eq_true, true_implies, false_implies, true_and]
          split <;> omega
  | appendEntriesReply term success matchIndex =>
      obtain ⟨-, hreply⟩ := step_appendEntriesReply.mp h
      rcases onAeReply_cases hreply with
        ⟨hlt, hnone, rfl⟩ | ⟨-, hignored, hnone, rfl⟩ | ⟨hrole, rfl, i, hpeer, hc⟩
      · rw [hsilent hnone]
        refine iff_of_true rfl ?_
        cases success with
        | false => trivial
        | true => exact fun _ hterm => by omega
      · rw [hsilent hnone]
        refine iff_of_true rfl ?_
        cases success with
        | false => trivial
        | true =>
            intro hrole hterm i hpeer
            rcases hignored with hnot | hother | hstranger
            · exact absurd hrole hnot
            · exact absurd hterm hother
            · exact absurd (mem_of_peerIndex hpeer) hstranger
      · cases success with
        | false =>
            obtain ⟨-, hnone, hnode⟩ := hc.resolve_right (by simp)
            rw [hsilent hnone]
            refine iff_of_true ?_ trivial
            rcases hnode with rfl | rfl <;> rfl
        | true =>
            rw [acknowledgement_reports_iff hrole hpeer hreply hlen]
            constructor
            · intro hall _ _ i' hpeer'
              rw [hpeer, Option.some.injEq] at hpeer'
              rw [← Fin.ext hpeer']
              exact hall
            · exact fun hall => hall hrole rfl i hpeer

end RaftNode

namespace Cluster

variable {V : Membership} {s s' : Cluster} {i : NodeId} {action : Action} {A : Shadow}

-- What the `step` calls of node `i` return in one action.
def returned (s : Cluster) (i : NodeId) : Action → List LogEntry
  | .deliver position =>
      match s.sent[position]? with
      | none => []
      | some packet =>
          if packet.dst = i then
            ((s.node i).step packet.src packet.msg).elim [] fun result => result.1.toList
          else []
  | _ => []

-- The cluster after some actions, listed latest first, and all that `i` has returned.
def observed (V : Membership) (i : NodeId) : List Action → Option (Cluster × List LogEntry)
  | [] => some (start V, [])
  | action :: earlier => do
      let (s, reported) ← observed V i earlier
      let s' ← s.act V action
      return (s', reported ++ s.returned i action)

def Announced (s : Cluster) (i : NodeId) : Action → Prop
  | .deliver position => ∀ packet ∈ s.sent[position]?, packet.dst = i →
      (s.node i).Announces packet.src packet.msg
  | _ => True

instance (s : Cluster) (i : NodeId) : (action : Action) → Decidable (s.Announced i action)
  | .deliver _ => inferInstanceAs (Decidable (∀ packet ∈ _, _))
  | .startElection _ => inferInstanceAs (Decidable True)
  | .propose .. => inferInstanceAs (Decidable True)

-- In every state of the run, `i` has returned the entries up to its commit index.
def ReportsAll (V : Membership) (i : NodeId) : List Action → Prop
  | [] => True
  | action :: earlier => ReportsAll V i earlier ∧ ∀ result ∈ observed V i (action :: earlier),
      result.2 = (result.1.node i).log.toList.take (result.1.node i).commitIndex

-- Every step of the run meets the condition.
def AnnouncedAll (V : Membership) (i : NodeId) : List Action → Prop
  | [] => True
  | action :: earlier => AnnouncedAll V i earlier ∧
      ∀ result ∈ observed V i earlier, result.1.Announced i action

instance (V : Membership) (i : NodeId) : (actions : List Action) → Decidable (AnnouncedAll V i actions)
  | [] => inferInstanceAs (Decidable True)
  | _ :: earlier =>
      have : Decidable (AnnouncedAll V i earlier) := instDecidableAnnouncedAll V i earlier
      inferInstanceAs (Decidable (_ ∧ ∀ result ∈ _, _))

theorem observed_cons {actions : List Action} {reported : List LogEntry} :
    observed V i (action :: actions) = some (s', reported) ↔ ∃ s before,
      observed V i actions = some (s, before) ∧ s.act V action = some s' ∧
        reported = before ++ s.returned i action := by
  constructor
  · intro h
    obtain ⟨⟨s, before⟩, hrun, h⟩ := Option.bind_eq_some_iff.mp h
    obtain ⟨next, hact, h⟩ := Option.bind_eq_some_iff.mp h
    simp only [Option.pure_def, Option.some.injEq, Prod.mk.injEq] at h
    obtain ⟨rfl, rfl⟩ := h
    exact ⟨s, before, hrun, hact, rfl⟩
  · rintro ⟨s, before, hrun, hact, rfl⟩
    simp [observed, hrun, hact]

theorem returned_deliver {position : Nat} {src dst : NodeId} {msg : RaftMessage}
    {committed : Option LogEntry} {node : RaftNode} {out : Sent}
    (hsent : s.sent[position]? = some ⟨src, dst, msg⟩)
    (hrun : (s.node dst).step src msg = some (committed, node, out)) :
    s.returned i (.deliver position) = if dst = i then committed.toList else [] := by
  simp only [returned, hsent]
  split
  · rename_i hdst
    rw [← hdst, hrun]
    rfl
  · rfl

-- A member's settled entries stay where they are when it takes a message.
theorem deliver_stable (h : Tracks V s A) (hi : i ∈ V.members)
    (hsettled : Settled (Majority V) A (s.node i).currentTerm (s.node i).log.toList
      (s.node i).commitIndex) {position : Nat} {src : NodeId} {msg : RaftMessage}
    {committed : Option LogEntry} {node : RaftNode} {out : Sent}
    (hmail : s.Mail position src i msg)
    (hrun : (s.node i).step src msg = some (committed, node, out)) :
    (s.node i).commitIndex ≤ node.commitIndex ∧ node.commitIndex ≤ node.log.toList.length ∧
      node.log.toList.take (s.node i).commitIndex =
        (s.node i).log.toList.take (s.node i).commitIndex := by
  have hlen := hsettled.le_length
  by_cases hmsg : ∀ term leaderId prevLogIndex prevLogTerm entries leaderCommit,
      msg ≠ .appendEntries term leaderId prevLogIndex prevLogTerm entries leaderCommit
  · obtain ⟨hlog, hge, hle⟩ := RaftNode.step_log hrun hmsg
    rw [RaftNode.logLen_eq] at hle
    rw [hlog]
    exact ⟨hge, by omega, rfl⟩
  · push Not at hmsg
    obtain ⟨term, leaderId, prevLogIndex, prevLogTerm, entries, leaderCommit, rfl⟩ := hmsg
    obtain ⟨-, happ⟩ := RaftNode.step_appendEntries.mp hrun
    rcases RaftNode.onAppendEntries_cases happ with
      ⟨-, rfl, -⟩ | ⟨-, -, rfl, -⟩ | ⟨hle, hok, log, hlog, rfl, -⟩
    · exact ⟨Nat.le_refl _, hlen, rfl⟩
    · rw [RaftNode.follow_commitIndex, RaftNode.follow_log]
      exact ⟨Nat.le_refl _, hlen, rfl⟩
    · have htake := merged_take h hi hsettled hmail hle hok hlog
      have hlen' := le_length_of_take_eq htake hlen
      dsimp only
      rw [RaftLog.lastIndex_eq]
      refine ⟨?_, ?_, htake⟩ <;>
      · split <;> omega

-- One action, for a member that has peers.
theorem act_reports_iff (h : Tracks V s A) (hi : i ∈ V.members)
    (hpeers : (V.peerSet i).peers.toList ≠ [])
    (hsettled : Settled (Majority V) A (s.node i).currentTerm (s.node i).log.toList
      (s.node i).commitIndex) (hact : s.act V action = some s') :
    (s.node i).log.toList.take (s.node i).commitIndex ++ s.returned i action =
      (s'.node i).log.toList.take (s'.node i).commitIndex ↔ s.Announced i action := by
  have hlen := hsettled.le_length
  obtain ⟨j, -, mid, node, out, hmove, rfl⟩ := move_of_act hact
  rw [hmove.node_eq]
  cases hmove with
  | startElection hrun =>
      refine iff_of_true ((List.append_nil _).trans ?_) trivial
      split
      · rename_i hij
        subst hij
        rcases RaftNode.startElection_cases hrun with ⟨-, rfl, -⟩ | ⟨-, rfl, -⟩ <;> rfl
      · rfl
  | propose hrun =>
      refine iff_of_true ((List.append_nil _).trans ?_) trivial
      split
      · rename_i hij
        subst hij
        rcases RaftNode.propose_cases hrun with
          ⟨-, -, rfl, -⟩ | ⟨-, -, -, rfl, -⟩ | ⟨-, -, log, hlog, ⟨hnil, -⟩ | ⟨-, rfl, -⟩⟩
        · rfl
        · rfl
        · rw [h.posted.peers i] at hnil
          exact absurd hnil hpeers
        · dsimp only
          rw [hlog, take_append_of_le _ hlen]
      · rfl
  | @deliver position src msg committed _ _ _ hsent hrun =>
      rw [returned_deliver hsent hrun]
      have hcond : s.Announced i (.deliver position) ↔
          (j = i → (s.node i).Announces src msg) := by
        simp [Announced, hsent]
      rw [hcond]
      by_cases hji : j = i
      · subst hji
        rw [if_pos rfl, if_pos rfl]
        obtain ⟨hgrows, hlen', hstable⟩ := deliver_stable h hi hsettled hsent hrun
        rw [RaftNode.step_reports_iff hrun hlen hgrows hlen' hstable]
        simp
      · rw [if_neg hji, if_neg (Ne.symm hji), List.append_nil]
        exact iff_of_true rfl fun hij => absurd hij hji

theorem settled_of_announced (h : Tracks V s A) (hi : i ∈ V.members)
    (hsettled : Settled (Majority V) A (s.node i).currentTerm (s.node i).log.toList
      (s.node i).commitIndex) (hact : s.act V action = some s')
    (hann : s.Announced i action) {A' : Shadow} (hsteps : Steps (Majority V) A A')
    (h' : Tracks V s' A') :
    Settled (Majority V) A' (s'.node i).currentTerm (s'.node i).log.toList
      (s'.node i).commitIndex := by
  refine settled_step h hi hsettled hact hsteps h' ?_
  rintro position src term leaderId prevLogIndex prevLogTerm entries leaderCommit log rfl hmail
    hle hok hlog
  have htake := merged_take h hi hsettled hmail hle hok hlog
  refine ((hsettled.mono (Grows.refl A) hle).congr htake).le ?_
  -- the merged log does not reach beyond the commit index
  split
  · rename_i hlt
    obtain ⟨hheld, hcut⟩ := hann _ hmail rfl hle hok hlt
    have hmerged := congrArg List.length hlog
    have hcap := (s.node i).log.length_le
    rw [RaftNode.logLen_eq] at hheld
    rw [RaftLog.lastIndex_eq]
    by_cases hmeets : (s.node i).Meets prevLogIndex entries.toList
    · rw [List.length_take, splice_of_held (RaftNode.meets_iff.mp hmeets)] at hmerged
      have hbound := hheld hmeets
      omega
    · rw [List.length_take, length_splice_of_not_held hok.le_length
        (mt RaftNode.meets_iff.mpr hmeets)] at hmerged
      have hbound := hcut hmeets
      omega
  · exact Nat.le_refl _

theorem reported_of_announcedAll (hi : i ∈ V.members) (hpeers : (V.peerSet i).peers.toList ≠ [])
    {actions : List Action} {reported : List LogEntry} (hann : AnnouncedAll V i actions)
    (hrun : observed V i actions = some (s, reported)) :
    ∃ A, Tracks V s A ∧
      Settled (Majority V) A (s.node i).currentTerm (s.node i).log.toList
        (s.node i).commitIndex ∧
      reported = (s.node i).log.toList.take (s.node i).commitIndex := by
  induction actions generalizing s reported with
  | nil =>
      simp only [observed, Option.some.injEq, Prod.mk.injEq] at hrun
      obtain ⟨rfl, rfl⟩ := hrun
      exact ⟨Proto.start, Tracks.start V, Or.inl rfl, rfl⟩
  | cons action earlier ih =>
      obtain ⟨before, returned, hearlier, hact, rfl⟩ := observed_cons.mp hrun
      have hlast := hann.2 _ hearlier
      obtain ⟨A, h, hsettled, rfl⟩ := ih hann.1 hearlier
      obtain ⟨A', hsteps, h'⟩ := h.step ⟨action, hact⟩
      exact ⟨A', h', settled_of_announced h hi hsettled hact hlast hsteps h',
        (act_reports_iff h hi hpeers hsettled hact).mpr hlast⟩

-- In every state of a run all that `i` has committed has been returned exactly when every
-- step of the run meets the condition.
theorem commits_reported_iff (V : Membership) (i : NodeId) (hi : i ∈ V.members)
    (hpeers : (V.peerSet i).peers.toList ≠ []) (actions : List Action) (s : Cluster)
    (reported : List LogEntry) (hrun : observed V i actions = some (s, reported)) :
    ReportsAll V i actions ↔ AnnouncedAll V i actions := by
  induction actions generalizing s reported with
  | nil => exact Iff.rfl
  | cons action earlier ih =>
      obtain ⟨before, returned, hearlier, hact, rfl⟩ := observed_cons.mp hrun
      rw [ReportsAll, AnnouncedAll, ih before returned hearlier]
      refine and_congr_right fun hann => ?_
      obtain ⟨A, h, hsettled, rfl⟩ := reported_of_announcedAll hi hpeers hann hearlier
      simp only [hrun, hearlier, Option.mem_some_iff, forall_eq']
      exact act_reports_iff h hi hpeers hsettled hact

-- `node1` commits the first entry when `node3` acknowledges it, and returns it.
theorem commits_reported_trio : ∃ s reported,
    observed trio node1 (.deliver 5 :: trioReplicates.reverse) = some (s, reported) ∧
      (s.node node1).commitIndex = 1 ∧ reported = (s.node node1).log.toList.take 1 := by
  have heval : ∃ result ∈ observed trio node1 (.deliver 5 :: trioReplicates.reverse),
      (result.1.node node1).commitIndex = 1 := by decide +kernel
  have hann : AnnouncedAll trio node1 (.deliver 5 :: trioReplicates.reverse) := by decide +kernel
  obtain ⟨⟨s, reported⟩, hrun, hone⟩ := heval
  have hall := (commits_reported_iff trio node1 (by decide) (by decide) _ s reported hrun).mpr hann
  exact ⟨s, reported, hrun, hone, (hall.2 _ hrun).trans (by rw [hone])⟩

-- `node3` commits that entry with the next message and returns nothing. When `node3`
-- acknowledges two entries at once, `node1` returns the second one only.
theorem commits_unreported :
    (∃ result ∈ observed trio node3
        ([.deliver 7, .propose node1 node2 node3, .deliver 5] ++ trioReplicates.reverse),
      (result.1.node node3).commitIndex = 1 ∧ result.2 = []) ∧
    ∃ result ∈ observed trio node1
        ([.deliver 8, .deliver 7, .propose node1 node2 node3] ++ trioReplicates.reverse),
      (result.1.node node1).commitIndex = 2 ∧ result.2 = [⟨1, node2, node3⟩] := by
  decide +kernel

end Cluster

end LuxKernel.Consensus
