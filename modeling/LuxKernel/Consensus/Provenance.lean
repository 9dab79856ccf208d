import LuxKernel.Consensus.Safety

namespace LuxKernel.Consensus

open Function Heapless Replication

-- The entries that a message carries.
def RaftMessage.entries : RaftMessage → List LogEntry
  | .appendEntries _ _ _ _ entries _ => entries.toList
  | _ => []

theorem mem_of_mem_splice {log entries : List LogEntry} {pos : Nat} {e : LogEntry}
    (h : e ∈ splice log pos entries) : e ∈ log ∨ e ∈ entries := by
  induction entries generalizing pos with
  | nil => exact Or.inl h
  | cons entry rest ih =>
      unfold splice at h
      have htake (hmem : e ∈ log.take pos ++ entry :: rest) : e ∈ log ∨ e ∈ entry :: rest :=
        (List.mem_append.mp hmem).imp List.mem_of_mem_take id
      split at h
      · split at h
        · exact (ih h).imp id (List.mem_cons_of_mem entry)
        · exact htake h
      · exact htake h

namespace RaftNode

variable {node node' : RaftNode} {sender : NodeId} {sent : Sent} {msg : RaftMessage}
variable {committed : Option LogEntry} {e : LogEntry}

theorem mem_collectEntries {log : RaftLog LOG_CAPACITY} {fuel idx : Nat}
    {acc entries : HVec LogEntry BATCH_CAPACITY}
    (h : collectEntries log fuel idx acc = some entries) (he : e ∈ entries.toList) :
    e ∈ acc.toList ∨ e ∈ log.toList := by
  induction fuel generalizing idx acc with
  | zero =>
      rw [collectEntries, Option.some.injEq] at h
      exact Or.inl (h ▸ he)
  | succ fuel ih =>
      unfold collectEntries at h
      split at h
      · exact Or.inl (Option.some.inj h ▸ he)
      · rename_i entry hget
        split at h
        · exact Or.inl (Option.some.inj h ▸ he)
        · rename_i pushed hpush
          obtain ⟨next, -, h⟩ := Option.bind_eq_some_iff.mp h
          rcases ih h with hacc | hlog
          · rw [(HVec.push_eq_some_iff.mp hpush).2, List.mem_append, List.mem_singleton] at hacc
            rcases hacc with hold | rfl
            · exact Or.inl hold
            · right
              unfold RaftLog.get at hget
              split at hget
              · cases hget
              · exact List.mem_of_getElem? hget
          · exact Or.inr hlog

-- A leader sends what is in its log, to its peers and in its own term.
theorem propose_message {src dst : NodeId} {result : Result Unit}
    (h : node.propose src dst = some (result, node', sent)) {peer : NodeId}
    (hm : (peer, msg) ∈ sent) : peer ∈ node'.peers.toList ∧
      ∃ prevLogIndex prevLogTerm entries,
        msg = .appendEntries node'.currentTerm node'.id prevLogIndex prevLogTerm entries
          node'.commitIndex ∧
        ∀ e ∈ entries.toList, e ∈ node'.log.toList := by
  obtain ⟨idx, batch, hsend, hmem⟩ := propose_sent h hm
  unfold sendAeTo at hsend
  split at hsend
  · rw [← Option.some.inj hsend] at hmem
    cases hmem
  · rename_i target htarget
    obtain ⟨i, -, hsend⟩ := Option.bind_eq_some_iff.mp hsend
    obtain ⟨entries, hentries, hsend⟩ := Option.bind_eq_some_iff.mp hsend
    rw [← Option.some.inj hsend, List.mem_singleton, Prod.mk.injEq] at hmem
    obtain ⟨rfl, rfl⟩ := hmem
    refine ⟨List.mem_of_getElem? htarget, _, _, entries, rfl, fun e he => ?_⟩
    rcases mem_collectEntries hentries he with hnone | hlog
    · cases hnone
    · exact hlog

theorem propose_entries {src dst : NodeId} {result : Result Unit}
    (h : node.propose src dst = some (result, node', sent)) {peer : NodeId}
    (hm : (peer, msg) ∈ sent) (he : e ∈ msg.entries) : e ∈ node'.log.toList := by
  obtain ⟨-, prevLogIndex, prevLogTerm, entries, rfl, hentries⟩ := propose_message h hm
  exact hentries e he

theorem propose_log {src dst : NodeId} {result : Result Unit}
    (h : node.propose src dst = some (result, node', sent)) :
    node'.log = node.log ∨ (node.role = .leader ∧
      node'.log.toList = node.log.toList ++ [⟨node.currentTerm, src, dst⟩]) := by
  rcases propose_cases h with ⟨-, -, rfl, -⟩ | ⟨-, -, -, rfl, -⟩ | ⟨hrole, -, log, hlog, hcase⟩
  · exact Or.inl rfl
  · exact Or.inl rfl
  · rcases hcase with ⟨-, -, rfl⟩ | ⟨-, rfl, -⟩ <;> exact Or.inr ⟨hrole, hlog⟩

theorem startElection_log (h : node.startElection = some (node', sent)) :
    node'.log = node.log ∧ ∀ message ∈ sent, message.2.entries = [] := by
  rcases startElection_cases h with ⟨-, rfl, rfl⟩ | ⟨-, rfl, rfl⟩
  · exact ⟨rfl, by simp⟩
  · refine ⟨rfl, fun message hmem => ?_⟩
    obtain ⟨peer, -, rfl⟩ := List.mem_map.mp hmem
    rfl

-- What a step writes to the log came in the message, and no entry goes out again.
theorem step_entries (h : node.step sender msg = some (committed, node', sent)) :
    (∀ e ∈ node'.log.toList, e ∈ node.log.toList ∨ e ∈ msg.entries) ∧
      ∀ message ∈ sent, message.2.entries = [] := by
  refine ⟨fun e he => ?_, fun message hmem => ?_⟩
  · cases msg with
    | appendEntries term leaderId prevLogIndex prevLogTerm entries leaderCommit =>
        obtain ⟨-, happ⟩ := step_appendEntries.mp h
        rcases onAppendEntries_cases happ with
          ⟨-, rfl, -⟩ | ⟨-, -, rfl, -⟩ | ⟨-, -, log, hlog, rfl, -⟩
        · exact Or.inl he
        · rw [follow_log] at he
          exact Or.inl he
        · have hmem : e ∈ log.toList := he
          rw [hlog] at hmem
          exact mem_of_mem_splice (List.mem_of_mem_take hmem)
    | requestVote | requestVoteReply | appendEntriesReply =>
        rw [(step_log h (by simp)).1] at he
        exact Or.inl he
  · obtain ⟨j, hj⟩ := List.getElem?_of_mem hmem
    obtain ⟨-, -, ⟨term, granted, hreply, -⟩ | ⟨term, success, matchIndex, hreply⟩⟩ :=
      step_sent h hj
    · rw [hreply]
      rfl
    · rw [hreply]
      rfl

-- Within one term the lead is lost for good, and held only by appending to the log.
structure Tenure (node node' : RaftNode) : Prop where
  term_le : node.currentTerm ≤ node'.currentTerm
  kept : node'.currentTerm = node.currentTerm → node.role ≠ .candidate →
    node'.role ≠ .candidate ∧ (node'.role = .leader → node.role = .leader ∧
      ∃ own, node'.log.toList = node.log.toList ++ own ∧ ∀ e ∈ own, e.term = node.currentTerm)

theorem Tenure.refl (node : RaftNode) : Tenure node node where
  term_le := Nat.le_refl _
  kept _ hrole := ⟨hrole, fun hlead => ⟨hlead, [], by simp⟩⟩

theorem Tenure.trans {a b c : RaftNode} (hab : Tenure a b) (hbc : Tenure b c) : Tenure a c where
  term_le := hab.term_le.trans hbc.term_le
  kept hterm hrole := by
    have hle := hab.term_le
    have hle' := hbc.term_le
    obtain ⟨hrole₁, hkept₁⟩ := hab.kept (by omega) hrole
    obtain ⟨hrole₂, hkept₂⟩ := hbc.kept (by omega) hrole₁
    refine ⟨hrole₂, fun hlead => ?_⟩
    obtain ⟨hlead₁, own₂, hlog₂, hown₂⟩ := hkept₂ hlead
    obtain ⟨hlead₀, own₁, hlog₁, hown₁⟩ := hkept₁ hlead₁
    refine ⟨hlead₀, own₁ ++ own₂, by rw [hlog₂, hlog₁, List.append_assoc], fun e he => ?_⟩
    rcases List.mem_append.mp he with he | he
    · exact hown₁ e he
    · have hmid := hown₂ e he
      omega

theorem startElection_tenure (h : node.startElection = some (node', sent)) : Tenure node node' := by
  have hterm : node'.currentTerm = node.currentTerm + 1 := by
    rcases startElection_cases h with ⟨-, rfl, -⟩ | ⟨-, rfl, -⟩ <;> rfl
  exact ⟨by omega, fun hsame => by omega⟩

theorem propose_tenure {src dst : NodeId} {result : Result Unit}
    (h : node.propose src dst = some (result, node', sent)) : Tenure node node' := by
  rcases propose_cases h with ⟨-, -, rfl, -⟩ | ⟨-, -, -, rfl, -⟩ | ⟨hlead, -, log, hlog, hcase⟩
  · exact .refl node'
  · exact .refl node'
  · have hnode : node'.role = node.role ∧ node'.currentTerm = node.currentTerm ∧
        node'.log = log := by
      rcases hcase with ⟨-, -, rfl⟩ | ⟨-, rfl, -⟩ <;> exact ⟨rfl, rfl, rfl⟩
    obtain ⟨hrole, hterm, hlog'⟩ := hnode
    refine ⟨Nat.le_of_eq hterm.symm, fun _ hne => ⟨by rwa [hrole], fun _ => ?_⟩⟩
    refine ⟨hlead, [⟨node.currentTerm, src, dst⟩], by rw [hlog', hlog], fun e he => ?_⟩
    rw [List.mem_singleton.mp he]

theorem step_tenure (h : node.step sender msg = some (committed, node', sent)) :
    Tenure node node' := by
  refine ⟨(step_continues h).term, fun _ hne => ?_⟩
  rcases step_effect h with
    ⟨-, hrole⟩ | ⟨-, hrole, -, hlog, -⟩ | ⟨-, hrole, -⟩ | ⟨hrole, i, k, -, -, hcase⟩
  · simp [hrole]
  · rw [hrole, hlog]
    exact ⟨hne, fun hlead => ⟨hlead, [], by simp⟩⟩
  · exact absurd hrole hne
  · have hnode : node'.role = node.role ∧ node'.log = node.log := by
      rcases hcase with ⟨-, rfl⟩ | ⟨n, -, -, -, -, rfl⟩ <;> exact ⟨rfl, rfl⟩
    rw [hnode.1, hnode.2]
    exact ⟨hne, fun hlead => ⟨hlead, [], by simp⟩⟩

end RaftNode

namespace Cluster

variable {V : Membership} {s s' : Cluster} {e : LogEntry}

theorem Move.tenure {i : NodeId} {action : Action} {mid : Cluster} {node : RaftNode} {out : Sent}
    (h : Move s i action mid node out) : RaftNode.Tenure (s.node i) node := by
  cases h with
  | startElection h => exact RaftNode.startElection_tenure h
  | propose h => exact RaftNode.propose_tenure h
  | deliver _ _ h => exact RaftNode.step_tenure h

theorem Reaches.tenure (h : Reaches V s s') (j : NodeId) :
    RaftNode.Tenure (s.node j) (s'.node j) := by
  induction h with
  | refl => exact .refl _
  | tail _ hstep ih =>
      obtain ⟨i, -, action, mid, node, out, hmove, rfl⟩ := hstep.move
      refine ih.trans ?_
      rw [hmove.node_eq]
      split
      · rename_i heq
        rw [heq]
        exact hmove.tenure
      · exact .refl _

-- A leader that still leads in its term has led throughout, has taken nothing
-- back, and has added only entries of that term.
theorem leader_appends_only (V : Membership) {s mid s' : Cluster} (hmid : Reaches V s mid)
    (hs' : Reaches V mid s') (i : NodeId) (hlead : (s.node i).role = .leader)
    (hlead' : (s'.node i).role = .leader)
    (hterm : (s'.node i).currentTerm = (s.node i).currentTerm) :
    (mid.node i).role = .leader ∧ (mid.node i).currentTerm = (s.node i).currentTerm ∧
      ∃ own, (mid.node i).log.toList = (s.node i).log.toList ++ own ∧
        (∀ e ∈ own, e.term = (s.node i).currentTerm) ∧
        (mid.node i).log.toList <+: (s'.node i).log.toList := by
  have hfirst := hmid.tenure i
  have hrest := hs'.tenure i
  have hle := hfirst.term_le
  have hle' := hrest.term_le
  have hsame : (mid.node i).currentTerm = (s.node i).currentTerm := by omega
  obtain ⟨hrole, hkept⟩ := hfirst.kept hsame (by simp [hlead])
  obtain ⟨hmidLead, later, hlater, -⟩ := (hrest.kept (by omega) hrole).2 hlead'
  obtain ⟨-, own, hown, hterms⟩ := hkept hmidLead
  exact ⟨hmidLead, hsame, own, hown, hterms, later, hlater.symm⟩

-- `node1` keeps the lead of term 1 while it proposes a second edge and `node3` answers.
theorem leader_appends_only_trio : ∃ s s', Reaches trio s s' ∧
    (s.node node1).log.toList.length = 1 ∧ (s'.node node1).log.toList.length = 2 ∧
    (s.node node1).log.toList <+: (s'.node node1).log.toList := by
  let phases : Option (Cluster × Cluster) := do
    let s ← (start trio).runActions trio trioReplicates
    let s' ← s.runActions trio [.propose node1 node2 node3, .deliver 5]
    return (s, s')
  have heval : phases.any (fun (s, s') => decide ((s.node node1).role = .leader ∧
      (s'.node node1).role = .leader ∧
      (s'.node node1).currentTerm = (s.node node1).currentTerm ∧
      (s.node node1).log.toList.length = 1 ∧
      (s'.node node1).log.toList.length = 2)) = true := by decide +kernel
  obtain ⟨⟨s, s'⟩, hruns, hp⟩ := (Option.any_eq_true _ _).mp heval
  obtain ⟨_, -, hruns⟩ := Option.bind_eq_some_iff.mp hruns
  obtain ⟨_, hs', hruns⟩ := Option.bind_eq_some_iff.mp hruns
  simp only [Option.pure_def, Option.some.injEq, Prod.mk.injEq] at hruns
  obtain ⟨rfl, rfl⟩ := hruns
  obtain ⟨hlead, hlead', hterm, hone, htwo⟩ := of_decide_eq_true hp
  have hrun := reaches_of_runActions hs'
  obtain ⟨-, -, own, -, -, hle⟩ :=
    leader_appends_only trio .refl hrun node1 hlead hlead' hterm
  exact ⟨_, _, hrun, hone, htwo, hle⟩

-- The entry is in somebody's log or on its way.
def Carries (s : Cluster) (e : LogEntry) : Prop :=
  (∃ j, e ∈ (s.node j).log.toList) ∨ ∃ packet ∈ s.sent, e ∈ packet.msg.entries

-- Somebody proposed the entry's edge while leading in the entry's term.
def Proposed (V : Membership) (s : Cluster) (e : LogEntry) : Prop :=
  ∃ before after, ∃ i ∈ V.members, Reaches V (start V) before ∧
    (before.node i).role = .leader ∧ (before.node i).currentTerm = e.term ∧
    before.act V (.propose i e.src e.dst) = some after ∧
    e ∈ (after.node i).log.toList ∧ Reaches V after s

theorem Proposed.step (h : Proposed V s e) (hs : Step V s s') : Proposed V s' e := by
  obtain ⟨before, after, i, hi, hbefore, hrole, hterm, hact, hmem, hafter⟩ := h
  exact ⟨before, after, i, hi, hbefore, hrole, hterm, hact, hmem, hafter.tail hs⟩

-- One action brings no entry into the cluster but the one it proposes.
theorem carries_step (hreach : Reaches V (start V) s) (hs : Step V s s') (h : Carries s' e) :
    Carries s e ∨ Proposed V s' e := by
  obtain ⟨action, hact⟩ := hs
  obtain ⟨i, hi, mid, node, out, hmove, rfl⟩ := move_of_act hact
  have hnode : mid.node = s.node := hmove.mid_node.1
  have hsent : mid.sent = s.sent := hmove.mid_node.2
  -- an entry of the mover's new log, or of a message it sends
  have hnew (he : e ∈ node.log.toList ∨ ∃ message ∈ out, e ∈ message.2.entries) :
      Carries s e ∨ Proposed V (mid.post i node out) e := by
    cases hmove with
    | startElection hstart =>
        obtain ⟨hlog, hout⟩ := RaftNode.startElection_log hstart
        rcases he with he | ⟨message, hmem, he⟩
        · exact Or.inl (Or.inl ⟨i, hlog ▸ he⟩)
        · rw [hout message hmem] at he
          cases he
    | @propose src dst result _ _ hpropose =>
        have hmem : e ∈ node.log.toList := by
          rcases he with he | ⟨message, hmem, he⟩
          · exact he
          · exact RaftNode.propose_entries hpropose hmem he
        rcases RaftNode.propose_log hpropose with hlog | ⟨hrole, hlog⟩
        · exact Or.inl (Or.inl ⟨i, hlog ▸ hmem⟩)
        · rw [hlog, List.mem_append, List.mem_singleton] at hmem
          rcases hmem with hold | rfl
          · exact Or.inl (Or.inl ⟨i, hold⟩)
          · refine Or.inr ⟨s, _, i, hi, hreach, hrole, rfl, hact, ?_, .refl⟩
            rw [post_node_self, hlog]
            exact List.mem_append_right _ List.mem_cons_self
    | @deliver position src msg committed _ _ _ hpos hstep =>
        obtain ⟨hlog, hout⟩ := RaftNode.step_entries hstep
        rcases he with he | ⟨message, hmem, he⟩
        · rcases hlog e he with hold | hcame
          · exact Or.inl (Or.inl ⟨i, hold⟩)
          · exact Or.inl (Or.inr ⟨_, List.mem_of_getElem? hpos, hcame⟩)
        · rw [hout message hmem] at he
          cases he
  rcases h with ⟨j, hj⟩ | ⟨packet, hpacket, he⟩
  · by_cases hji : j = i
    · rw [hji, post_node_self] at hj
      exact hnew (Or.inl hj)
    · rw [post_node_of_ne mid node out hji, hnode] at hj
      exact Or.inl (Or.inl ⟨j, hj⟩)
  · rw [post, List.mem_append, hsent] at hpacket
    rcases hpacket with hold | hposted
    · exact Or.inl (Or.inr ⟨packet, hold, he⟩)
    · obtain ⟨message, hmem, rfl⟩ := List.mem_map.mp hposted
      exact hnew (Or.inr ⟨message, hmem, he⟩)

theorem proposed_of_carries (hs : Reaches V (start V) s) (h : Carries s e) : Proposed V s e := by
  induction hs with
  | refl =>
      rcases h with ⟨j, hj⟩ | ⟨packet, hpacket, -⟩
      · cases hj
      · cases hpacket
  | tail hreach hstep ih =>
      rcases carries_step hreach hstep h with hold | hnew
      · exact (ih hold).step hstep
      · exact hnew

-- Nothing gets into a log that no leader of its term has proposed.
theorem logs_proposed (V : Membership) {s : Cluster} (hs : Reaches V (start V) s) (j : NodeId)
    {e : LogEntry} (he : e ∈ (s.node j).log.toList) :
    ∃ before after, ∃ i ∈ V.members, Reaches V (start V) before ∧
      (before.node i).role = .leader ∧ (before.node i).currentTerm = e.term ∧
      before.act V (.propose i e.src e.dst) = some after ∧
      e ∈ (after.node i).log.toList ∧ Reaches V after s :=
  proposed_of_carries hs (Or.inl ⟨j, he⟩)

-- `node3` holds the edge that `node1` proposed.
theorem logs_proposed_trio : ∃ s, Reaches trio (start trio) s ∧
    ∃ e ∈ (s.node node3).log.toList, ∃ before after, ∃ i ∈ trio.members,
      Reaches trio (start trio) before ∧ (before.node i).role = .leader ∧
      before.act trio (.propose i e.src e.dst) = some after ∧ Reaches trio after s := by
  obtain ⟨s, hrun, hmem⟩ := exists_reaches trioReplicates (V := trio) (s := start trio)
    (p := fun s => decide (⟨1, node1, node2⟩ ∈ (s.node node3).log.toList)) (by decide +kernel)
  rw [decide_eq_true_eq] at hmem
  obtain ⟨before, after, i, hi, hbefore, hlead, -, hact, -, hafter⟩ :=
    logs_proposed trio hrun node3 hmem
  exact ⟨s, hrun, _, hmem, before, after, i, hi, hbefore, hlead, hact, hafter⟩

end Cluster

end LuxKernel.Consensus
