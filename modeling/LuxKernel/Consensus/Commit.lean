import LuxKernel.Consensus.Safety

namespace LuxKernel.Consensus

open Function Heapless Replication Replication.Proto

variable {V : Membership} {s s' : Cluster} {action : Action} {A A' : Shadow} {i j : NodeId}

-- `on_append_entries` moves the commit index to `min(leader_commit, last_index)`.
-- The entries of the message have been compared with the log, but whatever the
-- log holds after them has not. This is the situation in which the commit index
-- gets there: the message is accepted, its entries are all in place already, so
-- that nothing is cut off, the log is longer, and `leader_commit` is further on.
def Unverified (node : RaftNode) : RaftMessage → Prop
  | .appendEntries term _ prevLogIndex prevLogTerm entries leaderCommit =>
      node.currentTerm ≤ term ∧ node.PrevOk prevLogIndex prevLogTerm ∧
      (∀ k < entries.toList.length,
        node.log.termAt (prevLogIndex + k + 1) = (entries.toList[k]?).map LogEntry.term) ∧
      prevLogIndex + entries.toList.length < node.log.toList.length ∧
      prevLogIndex + entries.toList.length < leaderCommit ∧
      node.commitIndex < leaderCommit
  | _ => False

instance (node : RaftNode) (prevLogIndex prevLogTerm : Nat) :
    Decidable (node.PrevOk prevLogIndex prevLogTerm) := inferInstanceAs (Decidable (_ ∨ _))

instance (node : RaftNode) : (msg : RaftMessage) → Decidable (Unverified node msg)
  | .appendEntries .. => inferInstanceAs (Decidable (_ ∧ _))
  | .requestVote .. => inferInstanceAs (Decidable False)
  | .requestVoteReply .. => inferInstanceAs (Decidable False)
  | .appendEntriesReply .. => inferInstanceAs (Decidable False)

-- The action is not the delivery of such a message, or the receiver has committed its
-- log as a whole, so that the commit index has nowhere to go.
def Verified (s : Cluster) : Action → Prop
  | .deliver position =>
      ∀ packet ∈ s.sent[position]?, ¬Unverified (s.node packet.dst) packet.msg ∨
        (s.node packet.dst).logLen ≤ (s.node packet.dst).commitIndex
  | _ => True

instance (s : Cluster) : (action : Action) → Decidable (Verified s action)
  | .deliver _ => inferInstanceAs (Decidable (∀ packet ∈ _, _))
  | .startElection _ => inferInstanceAs (Decidable True)
  | .propose .. => inferInstanceAs (Decidable True)

def VerifiedStep (V : Membership) (s s' : Cluster) : Prop :=
  ∃ action, s.act V action = some s' ∧ Verified s action

abbrev VerifiedReaches (V : Membership) : Cluster → Cluster → Prop :=
  Relation.ReflTransGen (VerifiedStep V)

-- The property: whatever two nodes have both committed, they agree on.
def CommitsAgree (V : Membership) (s : Cluster) : Prop :=
  ∀ i ∈ V.members, ∀ j ∈ V.members, ∀ k, 1 ≤ k → k ≤ (s.node i).commitIndex →
    k ≤ (s.node j).commitIndex →
      ∃ e, (s.node i).log.get k = some e ∧ (s.node j).log.get k = some e

-- Committed entries are settled, and so is what messages say is committed.
structure Committed (V : Membership) (s : Cluster) (A : Shadow) : Prop where
  nodes : ∀ {i}, i ∈ V.members →
    Settled (Majority V) A (s.node i).currentTerm (s.node i).log.toList (s.node i).commitIndex
  appends : ∀ {k src dst term leaderId prevLogIndex prevLogTerm entries leaderCommit},
    s.Mail k src dst
      (.appendEntries term leaderId prevLogIndex prevLogTerm entries leaderCommit) →
    Settled (Majority V) A term (A.chronicle term) leaderCommit

theorem Committed.start (V : Membership) : Committed V (Cluster.start V) Proto.start where
  nodes _ := Or.inl rfl
  appends h := by cases h

-- An `AppendEntries` is sent by a leader and carries its commit index.
theorem Cluster.Move.out_append {mid : Cluster} {node : RaftNode} {out : Sent}
    (h : Cluster.Move s i action mid node out) {k term prevLogIndex prevLogTerm leaderCommit : Nat}
    {dst leaderId : NodeId} {entries : HVec LogEntry BATCH_CAPACITY}
    (ho : out[k]? = some
      (dst, .appendEntries term leaderId prevLogIndex prevLogTerm entries leaderCommit)) :
    node.role = .leader ∧ term = node.currentTerm ∧ leaderCommit = node.commitIndex := by
  cases h with
  | startElection h =>
      rcases RaftNode.startElection_cases h with ⟨-, -, rfl⟩ | ⟨-, -, rfl⟩
      · cases ho
      · simp at ho
  | propose h =>
      obtain ⟨idx, batch, hsend, hm⟩ := RaftNode.propose_sent h (List.mem_of_getElem? ho)
      have hrole : node.role = .leader := by
        rcases RaftNode.propose_cases h with ⟨-, -, -, rfl⟩ | ⟨hr, -, -, rfl, -⟩ | ⟨hr, -, _, -, hc⟩
        · cases ho
        · exact hr
        · rcases hc with ⟨-, -, rfl⟩ | ⟨-, rfl, -⟩ <;> exact hr
      rcases RaftNode.sendAeTo_eq_some hsend with ⟨-, rfl⟩ | ⟨_, _, _, _, -, -, -, -, rfl⟩
      · cases hm
      · simp only [List.mem_singleton, Prod.mk.injEq, RaftMessage.appendEntries.injEq] at hm
        exact ⟨hrole, hm.2.1, hm.2.2.2.2.2.2⟩
  | deliver _ _ h =>
      rcases (RaftNode.step_sent h ho).2.2 with ⟨_, _, heq, -⟩ | ⟨_, _, _, heq⟩ <;> cases heq

section Merged

variable {k : Nat} {src leaderId : NodeId} {term prevLogIndex prevLogTerm leaderCommit : Nat}
variable {entries : HVec LogEntry BATCH_CAPACITY} {log : RaftLog LOG_CAPACITY}

-- An accepted message splices a slice of the leader's log into the node's.
theorem splice_of_mail (h : Tracks V s A) (hi : i ∈ V.members)
    (hmail : s.Mail k src i
      (.appendEntries term leaderId prevLogIndex prevLogTerm entries leaderCommit))
    (hok : (s.node i).PrevOk prevLogIndex prevLogTerm) (hlog : log.toList =
      (splice (s.node i).log.toList prevLogIndex entries.toList).take LOG_CAPACITY) :
    prevLogIndex + entries.toList.length ≤ (A.chronicle term).length ∧
      Joined (A.log i) (A.chronicle term) prevLogIndex ∧
      log.toList = splice (A.log i) prevLogIndex
        (((A.chronicle term).drop prevLogIndex).take entries.toList.length) := by
  obtain ⟨-, -, -, -, hlen, hslice, hprev⟩ := h.mail hmail
  have hmirror := (h.mirrors hi).log
  have hj : Joined (A.log i) (A.chronicle term) prevLogIndex := by
    rw [hmirror]
    exact joined_of_prevOk hok hprev
  refine ⟨hlen, hj, ?_⟩
  have hfits := length_splice_le h.sound h.capacity
    (by rw [hmirror]; exact (s.node i).log.length_le) hlen hj
  rw [hlog, ← List.take_of_length_le hfits, hmirror, ← hslice]

-- What is settled survives the merge.
theorem merged_take (h : Tracks V s A) (hi : i ∈ V.members)
    (hsettled : Settled (Majority V) A (s.node i).currentTerm (s.node i).log.toList
      (s.node i).commitIndex)
    (hmail : s.Mail k src i
      (.appendEntries term leaderId prevLogIndex prevLogTerm entries leaderCommit))
    (hle : (s.node i).currentTerm ≤ term) (hok : (s.node i).PrevOk prevLogIndex prevLogTerm)
    (hlog : log.toList =
      (splice (s.node i).log.toList prevLogIndex entries.toList).take LOG_CAPACITY) :
    log.toList.take (s.node i).commitIndex =
      (s.node i).log.toList.take (s.node i).commitIndex := by
  obtain ⟨hlen, hj, hsplice⟩ := splice_of_mail h hi hmail hok hlog
  have hel : A.elected term = some src := (h.mail hmail).2.2.2.1
  have hnow : Settled (Majority V) A term (A.log i) (s.node i).commitIndex := by
    rw [(h.mirrors hi).log]
    exact hsettled.mono (Grows.refl A) hle
  have hleader := hnow.take_leader Majority.meet h.sound (by rw [hel]; exact Option.some_ne_none src)
  rw [hsplice, splice_take_of_take_eq (h.sound.chronicles.log_sound i)
    (h.sound.chronicles.chronicle_sound term) hlen hj hleader, ← hleader, (h.mirrors hi).log]

-- After an accepted message the log agrees with the leader's up to the new commit
-- index, unless the log has an unverified end that is not committed.
theorem settled_append (h : Tracks V s A) (hi : i ∈ V.members)
    (hsettled : Settled (Majority V) A (s.node i).currentTerm (s.node i).log.toList
      (s.node i).commitIndex)
    (hmail : s.Mail k src i
      (.appendEntries term leaderId prevLogIndex prevLogTerm entries leaderCommit))
    (hlead : Settled (Majority V) A term (A.chronicle term) leaderCommit)
    (hle : (s.node i).currentTerm ≤ term) (hok : (s.node i).PrevOk prevLogIndex prevLogTerm)
    (hver : ¬Unverified (s.node i)
        (.appendEntries term leaderId prevLogIndex prevLogTerm entries leaderCommit) ∨
      (s.node i).logLen ≤ (s.node i).commitIndex)
    (hlog : log.toList =
      (splice (s.node i).log.toList prevLogIndex entries.toList).take LOG_CAPACITY) :
    Settled (Majority V) A term log.toList (if leaderCommit > (s.node i).commitIndex
      then min leaderCommit log.lastIndex else (s.node i).commitIndex) := by
  split
  · rename_i hgt
    obtain ⟨-, -, -, -, -, hslice, -⟩ := h.mail hmail
    obtain ⟨hlen, hj, hsplice⟩ := splice_of_mail h hi hmail hok hlog
    have hmirror := (h.mirrors hi).log
    have hcons := h.sound.chronicles.log_sound i
    have hother := h.sound.chronicles.chronicle_sound term
    have hleader := hlead.le (Nat.min_le_left leaderCommit log.toList.length)
    rw [RaftLog.lastIndex_eq]
    obtain ⟨hpos, htake⟩ := hcons.take_eq_of_joined hother hj
    rcases splice_slice hcons hother _ _ hpos hlen htake with ⟨hsp, hagree⟩ | ⟨hsp, -⟩
    · -- nothing was cut off: the new commit index passes the entries only to stay where it is
      rw [hsp, hmirror] at hsplice
      rw [hmirror] at hagree
      rcases hver with hver | hwhole
      · refine hleader.congr ?_
        rw [hsplice]
        refine take_eq_of_le hagree (Nat.not_lt.mp fun hpast => hver ?_)
        refine ⟨hle, hok, ?_, by omega, by omega, hgt⟩
        intro m hm
        rw [RaftLog.termAt_succ, hslice, List.getElem?_take_of_lt hm, List.getElem?_drop,
          getElem?_eq_of_take_eq hagree (by omega)]
      · rw [RaftNode.logLen_eq] at hwhole
        rw [hsplice]
        exact (hsettled.mono (Grows.refl A) hle).le ((Nat.min_le_right _ _).trans hwhole)
    · refine hleader.congr ?_
      rw [hsplice, hsp, List.take_take]
      congr 1
      rw [List.length_take]
      omega
  · exact (hsettled.mono (Grows.refl A) hle).congr
      (merged_take h hi hsettled hmail hle hok hlog)

end Merged

-- What a member has committed stays settled in every step, as far as what it takes over
-- from a leader is.
theorem settled_step (h : Tracks V s A) (hj : j ∈ V.members)
    (hold : Settled (Majority V) A (s.node j).currentTerm (s.node j).log.toList
      (s.node j).commitIndex)
    (hact : s.act V action = some s') (hsteps : Steps (Majority V) A A') (h' : Tracks V s' A')
    (happend : ∀ {position src term leaderId prevLogIndex prevLogTerm entries leaderCommit}
      {log : RaftLog LOG_CAPACITY}, action = .deliver position →
      s.Mail position src j
        (.appendEntries term leaderId prevLogIndex prevLogTerm entries leaderCommit) →
      (s.node j).currentTerm ≤ term → (s.node j).PrevOk prevLogIndex prevLogTerm →
      log.toList = (splice (s.node j).log.toList prevLogIndex entries.toList).take LOG_CAPACITY →
      Settled (Majority V) A term log.toList (if leaderCommit > (s.node j).commitIndex
        then min leaderCommit log.lastIndex else (s.node j).commitIndex)) :
    Settled (Majority V) A' (s'.node j).currentTerm (s'.node j).log.toList
      (s'.node j).commitIndex := by
  have hgrows := (h.sound.steps Majority.meet hsteps).2
  obtain ⟨i, hi, mid, node, out, hmove, rfl⟩ := Cluster.move_of_act hact
  have hself := Cluster.post_node_self mid i node out
  by_cases hji : j = i
  · subst hji
    rcases hmove.commit_cases with ⟨hsame, hgrown⟩ | ⟨hr, hterm, hq⟩ |
      ⟨position, src, term, leaderId, prevLogIndex, prevLogTerm, entries, leaderCommit,
        rfl, hmail, hle, hok, log, hlog, rfl⟩
    · rw [hself, hsame]
      obtain ⟨extra, hx⟩ := hgrown
      refine (hold.mono hgrows hmove.continues.term).congr ?_
      rw [← hx, take_append_of_le extra hold.le_length]
    · rw [← hself] at hr hterm hq
      have hpos : 0 < ((mid.post j node out).node j).commitIndex := by
        rw [Nat.pos_iff_ne_zero]
        intro h0
        rw [h0] at hterm
        cases hterm
      rw [h'.leader_log hj hr]
      exact Settled.of_chosen (h'.chosen hj hr hpos hterm hq)
    · rw [hself]
      simp only [RaftNode.follow_currentTerm hle]
      exact (happend rfl hmail hle hok hlog).mono hgrows (Nat.le_refl term)
  · rw [hmove.node_eq, if_neg hji]
    exact hold.mono hgrows (Nat.le_refl _)

theorem Committed.step (h : Tracks V s A) (hc : Committed V s A) (hstep : VerifiedStep V s s')
    (hsteps : Steps (Majority V) A A') (h' : Tracks V s' A') : Committed V s' A' := by
  have hgrows := (h.sound.steps Majority.meet hsteps).2
  obtain ⟨action, hact, hver⟩ := hstep
  have hnodes : ∀ {j}, j ∈ V.members → Settled (Majority V) A' (s'.node j).currentTerm
      (s'.node j).log.toList (s'.node j).commitIndex := by
    intro j hj
    refine settled_step h hj (hc.nodes hj) hact hsteps h' ?_
    rintro position src term leaderId prevLogIndex prevLogTerm entries leaderCommit log rfl hmail
      hle hok hlog
    exact settled_append h hj (hc.nodes hj) hmail (hc.appends hmail) hle hok (hver _ hmail) hlog
  obtain ⟨i, hi, mid, node, out, hmove, rfl⟩ := Cluster.move_of_act hact
  have hself := Cluster.post_node_self mid i node out
  refine ⟨hnodes, ?_⟩
  intro k src dst term leaderId prevLogIndex prevLogTerm entries leaderCommit hmail
  rcases Cluster.mail_post hmail with hold | ⟨-, rfl, hnew⟩
  · have hlead := hc.appends (hmove.mail.mp hold)
    refine (hlead.mono hgrows (Nat.le_refl term)).congr ?_
    exact hgrows.chronicle_take hlead.le_length
  · obtain ⟨hr, rfl, rfl⟩ := hmove.out_append hnew
    rw [← hself] at hr
    have hlead := hnodes hi
    rw [h'.leader_log hi hr, hself] at hlead
    exact hlead

theorem exists_committed (hrun : VerifiedReaches V (Cluster.start V) s) :
    ∃ A, Tracks V s A ∧ Committed V s A := by
  induction hrun with
  | refl => exact ⟨Proto.start, Tracks.start V, Committed.start V⟩
  | tail _ hstep ih =>
      obtain ⟨A, h, hc⟩ := ih
      obtain ⟨action, hact, hver⟩ := hstep
      obtain ⟨A', hsteps, h'⟩ := h.step ⟨action, hact⟩
      exact ⟨A', h', hc.step h ⟨action, hact, hver⟩ hsteps h'⟩

-- State machine safety of the runs in which no unverified end gets committed.
theorem state_machine_safety_of_verified (hrun : VerifiedReaches V (Cluster.start V) s) :
    CommitsAgree V s := by
  intro i hi j hj k hk hki hkj
  obtain ⟨A, h, hc⟩ := exists_committed hrun
  have hsi := (hc.nodes hi).le hki
  have hsj := (hc.nodes hj).le hkj
  have hagree := hsi.agree Majority.meet h.sound hsj
  have hlen := hsi.le_length
  obtain ⟨m, rfl⟩ : ∃ m, k = m + 1 := ⟨k - 1, by omega⟩
  rw [RaftLog.get_succ, RaftLog.get_succ, ← getElem?_eq_of_take_eq hagree (Nat.lt_succ_self m)]
  exact ⟨_, List.getElem?_eq_getElem hlen, List.getElem?_eq_getElem hlen⟩

def runVerified (V : Membership) (s : Cluster) (actions : List Action) : Option Cluster :=
  actions.foldlM (fun s action => if Verified s action then s.act V action else none) s

theorem verifiedReaches_of_runVerified {actions : List Action}
    (h : runVerified V s actions = some s') : VerifiedReaches V s s' := by
  induction actions generalizing s with
  | nil =>
      simp only [runVerified, List.foldlM_nil, Option.pure_def, Option.some.injEq] at h
      rw [h]
  | cons action rest ih =>
      obtain ⟨s₁, h₁, h₂⟩ := Option.bind_eq_some_iff.mp h
      dsimp only at h₁
      split at h₁
      · rename_i hver
        exact Relation.ReflTransGen.head ⟨action, h₁, hver⟩ (ih h₂)
      · cases h₁

-- A run in which `node1` and `node3` both commit the first entry.
theorem state_machine_safety_of_verified_trio : ∃ s,
    VerifiedReaches trio (Cluster.start trio) s ∧ 1 ≤ (s.node node1).commitIndex ∧
      1 ≤ (s.node node3).commitIndex ∧ CommitsAgree trio s := by
  have heval : (runVerified trio (Cluster.start trio)
      (trioReplicates ++ [.deliver 5, .propose node1 node2 node3, .deliver 7])).any
        (fun s => decide (1 ≤ (s.node node1).commitIndex ∧ 1 ≤ (s.node node3).commitIndex)) =
      true := by decide +kernel
  obtain ⟨s, hs, hp⟩ := (Option.any_eq_true _ _).mp heval
  have hrun := verifiedReaches_of_runVerified hs
  obtain ⟨h1, h3⟩ := of_decide_eq_true hp
  exact ⟨s, hrun, h1, h3, state_machine_safety_of_verified hrun⟩

-- `node1` leads term 1, replicates sixteen entries and keeps a seventeenth to itself.
-- `node2` leads term 2 and puts another seventeenth into its own log. `node1` leads
-- term 3, proposes seventeen entries that `node2` refuses, and each refusal takes
-- its next index one back, to the start of the log. `node3` acknowledges up to 32. The
-- next message to `node2` carries the first sixteen entries and the commit index 32.
def divergingSchedule : List Action := List.flatten [
  [.startElection node1, .deliver 1, .deliver 2],
  List.replicate 16 (.propose node1 node1 node2),
  [.deliver 33, .deliver 34, .propose node1 node1 node2],
  [.startElection node2, .deliver 40, .deliver 41, .propose node2 node2 node1],
  [.startElection node1, .startElection node1, .deliver 47, .deliver 48],
  List.replicate 17 (.propose node1 node1 node2),
  (List.range 17).flatMap fun k => [.deliver (49 + 2 * k), .deliver (83 + k)],
  [.deliver 50, .deliver 100, .propose node1 node1 node2, .deliver 102, .deliver 103],
  [.propose node1 node1 node2, .deliver 104]]

theorem commits_diverge : ∃ s, Cluster.Reaches trio (Cluster.start trio) s ∧
    ¬CommitsAgree trio s := by
  obtain ⟨s, hrun, hp⟩ := Cluster.exists_reaches divergingSchedule (V := trio) (s := .start trio)
    (p := fun s => decide (17 ≤ (s.node node1).commitIndex ∧
      17 ≤ (s.node node2).commitIndex ∧
      (s.node node1).log.get 17 = some ⟨1, node1, node2⟩ ∧
      (s.node node2).log.get 17 = some ⟨2, node2, node1⟩)) (by decide +kernel)
  rw [decide_eq_true_eq] at hp
  obtain ⟨hc₁, hc₂, hl₁, hl₂⟩ := hp
  refine ⟨s, hrun, fun hagree => ?_⟩
  obtain ⟨e, he₁, he₂⟩ := hagree node1 (by decide) node2 (by decide) 17 (by decide) hc₁ hc₂
  rw [hl₁] at he₁
  rw [hl₂, ← he₁] at he₂
  exact absurd he₂ (by decide)

section Follower

variable {node node' : RaftNode} {sender leaderId : NodeId}
variable {term prevLogIndex prevLogTerm leaderCommit : Nat}
variable {entries : HVec LogEntry BATCH_CAPACITY} {committed : Option LogEntry} {sent : Sent}

theorem unverified_iff : Unverified node (.appendEntries term leaderId prevLogIndex prevLogTerm
      entries leaderCommit) ↔
    node.currentTerm ≤ term ∧ node.PrevOk prevLogIndex prevLogTerm ∧
      Held node.log.toList prevLogIndex entries.toList ∧
      prevLogIndex + entries.toList.length < node.log.toList.length ∧
      prevLogIndex + entries.toList.length < leaderCommit ∧ node.commitIndex < leaderCommit :=
  Iff.rfl

theorem step_of_accepted
    (hstep : node.step sender (.appendEntries term leaderId prevLogIndex prevLogTerm entries
      leaderCommit) = some (committed, node', sent))
    (haccept : ∃ replyTerm matchIndex,
      (sender, .appendEntriesReply replyTerm true matchIndex) ∈ sent) :
    node.currentTerm ≤ term ∧ node.PrevOk prevLogIndex prevLogTerm ∧
      ∃ log : RaftLog LOG_CAPACITY,
        log.toList = (splice node.log.toList prevLogIndex entries.toList).take LOG_CAPACITY ∧
        node'.commitIndex = if leaderCommit > node.commitIndex then min leaderCommit log.lastIndex
          else node.commitIndex := by
  obtain ⟨⟨next, out⟩, hrun, hsome⟩ := Option.bind_eq_some_iff.mp hstep
  simp only [Option.pure_def, Option.some.injEq, Prod.mk.injEq] at hsome
  obtain ⟨-, rfl, rfl⟩ := hsome
  obtain ⟨replyTerm, matchIndex, hmem⟩ := haccept
  rcases RaftNode.onAppendEntries_cases hrun with
    ⟨-, -, rfl⟩ | ⟨-, -, -, rfl⟩ | ⟨hterm, hprev, log, hlog, rfl, -⟩
  · simp at hmem
  · simp at hmem
  · exact ⟨hterm, hprev, log, hlog, rfl⟩

-- A message that is accepted moves the commit index past what it covers exactly when
-- its entries were all in place and the log has an uncommitted rest after them.
theorem commit_covered_iff (node node' : RaftNode) (sender leaderId : NodeId)
    (term prevLogIndex prevLogTerm leaderCommit : Nat) (entries : HVec LogEntry BATCH_CAPACITY)
    (committed : Option LogEntry) (sent : Sent)
    (hstep : node.step sender (.appendEntries term leaderId prevLogIndex prevLogTerm entries
      leaderCommit) = some (committed, node', sent))
    (haccept : ∃ replyTerm matchIndex,
      (sender, .appendEntriesReply replyTerm true matchIndex) ∈ sent) :
    node'.commitIndex ≤ max node.commitIndex (prevLogIndex + entries.toList.length) ↔
      ¬Unverified node (.appendEntries term leaderId prevLogIndex prevLogTerm entries
          leaderCommit) ∨
        node.logLen ≤ node.commitIndex := by
  obtain ⟨hterm, hprev, log, hlog, hcommit⟩ := step_of_accepted hstep haccept
  have hlen := congrArg List.length hlog
  have hcap := node.log.length_le
  rw [unverified_iff, hcommit, RaftNode.logLen_eq, RaftLog.lastIndex_eq]
  by_cases hheld : Held node.log.toList prevLogIndex entries.toList
  · rw [splice_of_held hheld, List.length_take] at hlen
    simp only [hterm, hprev, hheld, true_and]
    split <;> omega
  · rw [List.length_take, length_splice_of_not_held hprev.le_length hheld] at hlen
    simp only [hheld, false_and, and_false, not_false_eq_true, true_or, iff_true]
    split <;> omega

end Follower

def firstEdge : LogEntry := ⟨1, node1, node2⟩
def staleEdge : LogEntry := ⟨1, node1, node3⟩

-- A message of term 2 from `node3` with the first entry only, and its commit index 2.
def oneOfTwo : RaftMessage := .appendEntries 2 node3 0 0 ⟨[firstEdge], by decide⟩ 2

-- A fresh node takes the entry and commits it, and no more than it.
theorem commit_covered_fresh : ∃ result ∈ (RaftNode.new node1 .new).step node3 oneOfTwo,
    1 ≤ result.2.1.commitIndex ∧ result.2.1.commitIndex ≤ max 0 (0 + 1) := by
  have heval : ∃ result ∈ (RaftNode.new node1 .new).step node3 oneOfTwo,
      (node3, .appendEntriesReply 2 true 1) ∈ result.2.2 ∧ 1 ≤ result.2.1.commitIndex := by
    decide +kernel
  obtain ⟨⟨committed, node, sent⟩, hstep, hreply, hone⟩ := heval
  refine ⟨_, hstep, hone, ?_⟩
  exact (commit_covered_iff _ _ _ _ _ _ _ _ _ _ _ hstep ⟨2, 1, hreply⟩).mpr
    (Or.inl (by decide +kernel))

-- A node that has taken two entries of term 1 before commits the second with the first.
theorem commits_uncovered :
    ∃ before ∈ (RaftNode.new node1 .new).step node2
        (.appendEntries 1 node2 0 0 ⟨[firstEdge, staleEdge], by decide⟩ 0),
      ∃ result ∈ before.2.1.step node3 oneOfTwo,
        (node3, .appendEntriesReply 2 true 1) ∈ result.2.2 ∧
        before.2.1.commitIndex = 0 ∧ result.2.1.commitIndex = 2 ∧
        result.2.1.log.get 2 = some staleEdge := by
  decide +kernel

end LuxKernel.Consensus
