import LuxKernel.Consensus.NodeRuns

namespace LuxKernel.Consensus.RaftNode

open Function Heapless

-- A granted vote that is delivered: its sender and its term.
def Input.grant : Input → Option (NodeId × Nat)
  | .step sender (.requestVoteReply term true) => some (sender, term)
  | _ => none

def grants (inputs : List Input) : List (NodeId × Nat) := inputs.filterMap Input.grant

def grantsIn (inputs : List Input) (term : Nat) : Nat :=
  (grants inputs).countP fun grant => decide (grant.2 = term)

-- Each peer grants at most one vote in a term.
def OneGrantEach (peerSet : PeerSet) (inputs : List Input) : Prop :=
  ∀ peer ∈ peerSet.peers.toList, ∀ term, (grants inputs).count (peer, term) ≤ 1

-- An acknowledgement that counts names an index that the leader's log has.
def AckWithinLog (node : RaftNode) : Input → Prop
  | .step sender (.appendEntriesReply term true matchIndex) =>
      node.role = .leader → term = node.currentTerm → sender ∈ node.peers.toList →
        matchIndex ≤ node.logLen
  | _ => True

-- The property: votes and acknowledgements are compared with `quorum_threshold`. An
-- index that is not committed yet is committed by the call after which enough
-- members hold it.
structure UsesThreshold (peerSet : PeerSet) (inputs : List Input) (history : List Event)
    (node : RaftNode) : Prop where
  elected : node.role ≠ .follower →
    (node.role = .leader ↔
      peerSet.quorumThreshold ≤ 1 + grantsIn inputs node.currentTerm)
  committed : ∀ event ∈ history, event.after.role = .leader → ∀ n,
    event.before.commitIndex < n → n ≤ event.after.logLen →
    event.after.log.termAt n = some event.after.currentTerm →
      (n ≤ event.after.commitIndex ↔ peerSet.quorumThreshold ≤ event.after.ackCount n)

section Elections

variable {inputs : List Input} {node node' : RaftNode} {input : Input} {event : Event}
variable {grant : NodeId × Nat} {term : Nat}

theorem grants_cons_of_none (h : input.grant = none) : grants (input :: inputs) = grants inputs :=
  List.filterMap_cons_none h

theorem grants_cons_of_some (h : input.grant = some grant) :
    grants (input :: inputs) = grant :: grants inputs := List.filterMap_cons_some h

theorem grantsIn_cons_of_none (h : input.grant = none) (term : Nat) :
    grantsIn (input :: inputs) term = grantsIn inputs term := by
  rw [grantsIn, grants_cons_of_none h, grantsIn]

theorem grantsIn_cons_of_some (h : input.grant = some grant) (term : Nat) :
    grantsIn (input :: inputs) term = grantsIn inputs term + if grant.2 = term then 1 else 0 := by
  rw [grantsIn, grants_cons_of_some h, List.countP_cons, grantsIn]
  simp only [decide_eq_true_eq]

-- A candidate has counted the grants of its term, and a leader has had enough.
structure Tally (inputs : List Input) (node : RaftNode) : Prop where
  known : ∀ grant ∈ grants inputs, grant.2 ≤ node.currentTerm
  candidate : node.role = .candidate → node.votesGranted = 1 + grantsIn inputs node.currentTerm
  leader : node.role = .leader → node.quorum ≤ 1 + grantsIn inputs node.currentTerm

theorem Tally.new (id : NodeId) (peerSet : PeerSet) : Tally [] (.new id peerSet) where
  known grant h := by cases h
  candidate h := by cases h
  leader h := by cases h

-- A term that no grant has named yet.
theorem Tally.grantsIn_later (h : Tally inputs node) (hterm : node.currentTerm < term) :
    grantsIn inputs term = 0 := by
  apply List.countP_eq_zero.mpr
  intro grant hgrant
  have hle := h.known grant hgrant
  simp only [decide_eq_true_eq]
  omega

theorem Tally.keep (h : Tally inputs node) (hinput : input.grant = none)
    (hcont : Continues node node')
    (hkeep : node'.role = .follower ∨ (node'.role = node.role ∧
      node'.currentTerm = node.currentTerm ∧ node'.votesGranted = node.votesGranted)) :
    Tally (input :: inputs) node' := by
  have hknown : ∀ grant ∈ grants (input :: inputs), grant.2 ≤ node'.currentTerm := by
    intro grant hgrant
    rw [grants_cons_of_none hinput] at hgrant
    exact (h.known grant hgrant).trans hcont.term
  have hquorum : node'.quorum = node.quorum := by rw [quorum, hcont.peers, quorum]
  rcases hkeep with hfollower | ⟨hrole, hterm, hvotes⟩
  · refine ⟨hknown, fun hr => ?_, fun hr => ?_⟩
    · rw [hfollower] at hr
      cases hr
    · rw [hfollower] at hr
      cases hr
  · refine ⟨hknown, fun hr => ?_, fun hr => ?_⟩
    · rw [hvotes, hterm, grantsIn_cons_of_none hinput]
      exact h.candidate (hrole ▸ hr)
    · rw [hquorum, hterm, grantsIn_cons_of_none hinput]
      exact h.leader (hrole ▸ hr)

theorem Tally.startElection (h : Tally inputs node) {sent : Sent}
    (hrun : node.startElection = some (node', sent)) : Tally (.startElection :: inputs) node' := by
  have hnone : Input.startElection.grant = none := rfl
  have hterm := (startElection_continues hrun).2
  have hzero : grantsIn inputs (node.currentTerm + 1) = 0 :=
    h.grantsIn_later (Nat.lt_succ_self _)
  refine ⟨?_, fun hr => ?_, fun hr => ?_⟩
  · intro grant hgrant
    rw [grants_cons_of_none hnone] at hgrant
    have hle := h.known grant hgrant
    omega
  · rw [grantsIn_cons_of_none hnone, hterm, hzero]
    rcases startElection_cases hrun with ⟨-, rfl, -⟩ | ⟨-, rfl, -⟩ <;> rfl
  · rcases startElection_cases hrun with ⟨hnil, rfl, -⟩ | ⟨-, rfl, -⟩
    · simp [quorum, leading, standing, HVec.length_eq, hnil]
    · cases hr

theorem Tally.voteReply (h : Tally inputs node) {sender : NodeId} {granted : Bool}
    (hrun : node.onVoteReply term granted = some node') :
    Tally (.step sender (.requestVoteReply term granted) :: inputs) node' := by
  cases granted with
  | false =>
      have hnone : (Input.step sender (.requestVoteReply term false)).grant = none := rfl
      rcases onVoteReply_cases hrun with
        ⟨hlt, rfl⟩ | ⟨-, -, rfl⟩ | ⟨hr, rfl, votes, rfl, ⟨-, rfl⟩ | ⟨hquorum, rfl⟩⟩
      · exact h.keep hnone (.stepDown hlt.le) (Or.inl rfl)
      · exact h.keep hnone ⟨rfl, rfl, Nat.le_refl _⟩ (Or.inr ⟨rfl, rfl, rfl⟩)
      · exact h.keep hnone ⟨rfl, rfl, Nat.le_refl _⟩ (Or.inr ⟨rfl, rfl, rfl⟩)
      · refine ⟨?_, (fun hc => by cases hc), fun _ => ?_⟩
        · rw [grants_cons_of_none hnone]
          exact h.known
        · rw [grantsIn_cons_of_none hnone]
          exact hquorum.trans (Nat.le_of_eq (h.candidate hr))
  | true =>
      have hsome : (Input.step sender (.requestVoteReply term true)).grant = some (sender, term) :=
        rfl
      have hgrants : ∀ {after : RaftNode}, node.currentTerm ≤ after.currentTerm →
          term ≤ after.currentTerm →
          ∀ grant ∈ grants (.step sender (.requestVoteReply term true) :: inputs),
            grant.2 ≤ after.currentTerm := by
        intro after hle hterm grant hgrant
        rw [grants_cons_of_some hsome] at hgrant
        rcases List.mem_cons.mp hgrant with rfl | hold
        · exact hterm
        · exact (h.known grant hold).trans hle
      rcases onVoteReply_cases hrun with
        ⟨hlt, rfl⟩ | ⟨hle, hignored, rfl⟩ | ⟨hr, rfl, votes, rfl, hc⟩
      · exact ⟨hgrants hlt.le (Nat.le_refl _), (fun hc => by cases hc), fun hl => by cases hl⟩
      · refine ⟨hgrants (Nat.le_refl _) hle, fun hc => ?_, fun hl => ?_⟩
        · -- a candidate ignores only grants of earlier terms
          have hother := hignored.resolve_left fun hnot => hnot hc
          rw [grantsIn_cons_of_some hsome, if_neg hother, Nat.add_zero]
          exact h.candidate hc
        · have hleader := h.leader hl
          rw [grantsIn_cons_of_some hsome]
          omega
      · have hcount := h.candidate hr
        have hone : grantsIn (.step sender (.requestVoteReply node.currentTerm true) :: inputs)
            node.currentTerm = grantsIn inputs node.currentTerm + 1 := by
          rw [grantsIn_cons_of_some hsome, if_pos rfl]
        rcases hc with ⟨-, rfl⟩ | ⟨hquorum, rfl⟩
        · refine ⟨hgrants (Nat.le_refl _) (Nat.le_refl _), fun _ => ?_, fun hl => ?_⟩
          · dsimp only
            rw [hone, hcount, if_pos rfl, Nat.add_assoc]
          · rw [show node.role = .leader from hl] at hr
            cases hr
        · refine ⟨hgrants (Nat.le_refl _) (Nat.le_refl _), (fun hc => by cases hc), fun _ => ?_⟩
          have hterm : ∀ votes, ({ node with votesGranted := votes }.leading).currentTerm =
              node.currentTerm := fun _ => rfl
          rw [hterm, hone]
          rw [if_pos rfl, hcount] at hquorum
          exact hquorum.trans (Nat.le_of_eq (Nat.add_assoc _ _ _))

theorem Tally.perform (h : Tally inputs node) (hevent : node.perform input = some event) :
    Tally (input :: inputs) event.after := by
  cases input with
  | startElection =>
      obtain ⟨after, sent, hrun, rfl⟩ := perform_startElection.mp hevent
      exact h.startElection hrun
  | propose src dst =>
      obtain ⟨result, after, sent, hrun, rfl⟩ := perform_propose.mp hevent
      refine h.keep rfl (propose_continues hrun) (Or.inr ?_)
      rcases propose_cases hrun with ⟨-, -, rfl, -⟩ | ⟨-, -, -, rfl, -⟩ | ⟨-, -, log, -, hc⟩
      · exact ⟨rfl, rfl, rfl⟩
      · exact ⟨rfl, rfl, rfl⟩
      · rcases hc with ⟨-, -, rfl⟩ | ⟨-, rfl, -⟩ <;> exact ⟨rfl, rfl, rfl⟩
  | step sender msg =>
      obtain ⟨committed, after, sent, hrun, rfl⟩ := perform_step.mp hevent
      by_cases hmsg : ∀ term granted, msg ≠ .requestVoteReply term granted
      · refine h.keep ?_ (step_continues hrun) (step_keep hrun hmsg)
        cases msg with
        | requestVoteReply term granted => exact absurd rfl (hmsg term granted)
        | requestVote | appendEntries | appendEntriesReply => rfl
      · push Not at hmsg
        obtain ⟨term, granted, rfl⟩ := hmsg
        exact h.voteReply (step_requestVoteReply.mp hrun).2.2

end Elections

section Commits

variable {node node' : RaftNode} {input : Input} {event : Event}

theorem ackCount_of_lt {n : Nat} (h : ∀ k : Fin MAX_PEERS, k.val < node.peers.toList.length →
    node.matchIndex k < n) : node.ackCount n = 1 := by
  have hempty : node.ackSlots n = ∅ := by
    apply Finset.filter_eq_empty_iff.mpr
    intro k _ hk
    have hlt := h k hk.1
    omega
  rw [ackCount_eq, hempty, Finset.card_empty]

theorem two_le_quorum (h : node.peers.toList ≠ []) : 2 ≤ node.quorum := by
  have hpos := List.length_pos_iff.mpr h
  rw [quorum, HVec.length_eq]
  omega

-- A leader has committed everything of its term that enough peers hold, and no peer is
-- ahead of it.
structure CaughtUp (node : RaftNode) : Prop where
  matched : ∀ k : Fin MAX_PEERS, k.val < node.peers.toList.length →
    node.matchIndex k ≤ node.logLen
  committed : ∀ n, node.commitIndex < n → n ≤ node.logLen →
    node.log.termAt n = some node.currentTerm → node.ackCount n < node.quorum

theorem CaughtUp.congr (h : CaughtUp node) (hpeers : node'.peers = node.peers)
    (hterm : node'.currentTerm = node.currentTerm) (hlog : node'.log = node.log)
    (hcommit : node'.commitIndex = node.commitIndex)
    (hmatch : node'.matchIndex = node.matchIndex) : CaughtUp node' := by
  have hcount : ∀ n, node'.ackCount n = node.ackCount n := by
    intro n
    rw [ackCount, hmatch, hpeers, ackCount]
  constructor
  · rw [hpeers, hmatch, logLen, hlog]
    exact h.matched
  · intro n hlt hle hat
    rw [hcommit] at hlt
    rw [logLen, hlog] at hle
    rw [hlog, hterm] at hat
    rw [hcount, quorum, hpeers]
    exact h.committed n hlt hle hat

theorem CaughtUp.leading (node : RaftNode) (hpeers : node.peers.toList ≠ []) :
    CaughtUp node.leading := by
  have hzero : ∀ k : Fin MAX_PEERS, k.val < node.peers.toList.length →
      node.leading.matchIndex k = 0 := fun k hk => if_pos hk
  constructor
  · intro k hk
    rw [hzero k hk]
    exact Nat.zero_le _
  · intro n hlt _ _
    have hcount : node.leading.ackCount n = 1 := by
      apply ackCount_of_lt
      intro k hk
      rw [hzero k hk]
      omega
    have hquorum : 2 ≤ node.leading.quorum := two_le_quorum hpeers
    omega

-- The entry that a leader appends is one that nobody else holds.
theorem CaughtUp.append (h : CaughtUp node) (hpeers : node.peers.toList ≠ [])
    {log : RaftLog LOG_CAPACITY} {entry : LogEntry}
    (hlog : log.toList = node.log.toList ++ [entry]) : CaughtUp { node with log := log } := by
  have hlen : log.toList.length = node.log.toList.length + 1 := by
    rw [hlog, List.length_append, List.length_singleton]
  have hmatched : ∀ k : Fin MAX_PEERS, k.val < node.peers.toList.length →
      node.matchIndex k ≤ node.log.toList.length := h.matched
  constructor
  · intro k hk
    have hle := hmatched k hk
    simp only [logLen_eq]
    omega
  · intro n hlt hle hat
    simp only [logLen_eq] at hlt hle
    dsimp only at hat
    by_cases hnew : n = log.toList.length
    · have hcount : ({ node with log := log } : RaftNode).ackCount n = 1 := by
        apply ackCount_of_lt
        intro k hk
        have hmatch := hmatched k hk
        dsimp only
        omega
      have hquorum : 2 ≤ ({ node with log := log } : RaftNode).quorum := two_le_quorum hpeers
      omega
    · obtain ⟨m, rfl⟩ : ∃ m, n = m + 1 := ⟨n - 1, by omega⟩
      rw [RaftLog.termAt_succ, hlog, List.getElem?_append_left (by omega)] at hat
      exact h.committed (m + 1) hlt (by simp only [logLen_eq]; omega) hat

theorem CaughtUp.acknowledged (h : CaughtUp node) {sender : NodeId} {matchIndex : Nat}
    {i : Fin MAX_PEERS} {committed : Option LogEntry} (hrole : node.role = .leader)
    (hpeer : node.peerIndex sender = some i.val) (hack : matchIndex ≤ node.logLen)
    (hrun : node.onAeReply sender node.currentTerm true matchIndex = some (committed, node')) :
    CaughtUp node' := by
  obtain ⟨n, rfl, hn, hmax⟩ := onAeReply_success hrole hpeer hrun
  constructor
  · intro k hk
    show update node.matchIndex i matchIndex k ≤ node.logLen
    by_cases hki : k = i
    · rw [hki, update_self]
      exact hack
    · rw [update_of_ne hki]
      exact h.matched k hk
  · intro m hlt hle hat
    apply Nat.lt_of_not_le
    intro hquorum
    have hold : node.commitIndex ≤ n := by omega
    have hback := hmax m (by dsimp only at hlt; omega) hle hat hquorum
    dsimp only at hlt
    omega

theorem perform_caughtUp (hpeers : node.peers.toList ≠ [])
    (h : node.role = .leader → CaughtUp node) (hack : AckWithinLog node input)
    (hevent : node.perform input = some event) (hleads : event.after.role = .leader) :
    CaughtUp event.after := by
  cases input with
  | startElection =>
      obtain ⟨after, sent, hrun, rfl⟩ := perform_startElection.mp hevent
      rcases startElection_cases hrun with ⟨hnil, -⟩ | ⟨-, rfl, -⟩
      · exact absurd hnil hpeers
      · cases hleads
  | propose src dst =>
      obtain ⟨result, after, sent, hrun, rfl⟩ := perform_propose.mp hevent
      rcases propose_cases hrun with ⟨-, -, rfl, -⟩ | ⟨-, -, -, rfl, -⟩ | ⟨hr, -, log, hlog, hc⟩
      · exact h hleads
      · exact h hleads
      · rcases hc with ⟨hnil, -⟩ | ⟨-, rfl, -⟩
        · exact absurd hnil hpeers
        · exact (h hr).append hpeers hlog
  | step sender msg =>
      obtain ⟨committed, after, sent, hrun, rfl⟩ := perform_step.mp hevent
      dsimp only at hleads ⊢
      rcases step_effect hrun with ⟨-, hr⟩ | ⟨-, hr, hterm, hlog, hcommit, hmatch⟩ |
        ⟨-, -, votes, rfl⟩ | ⟨hr, i, matchIndex, rfl, hpeer, -⟩
      · rw [hr] at hleads
        cases hleads
      · rw [hr] at hleads
        exact (h hleads).congr (step_continues hrun).peers hterm hlog hcommit hmatch
      · exact CaughtUp.leading _ hpeers
      · have hwithin := hack hr rfl (mem_of_peerIndex hpeer)
        exact (h hr).acknowledged hr hpeer hwithin (step_appendEntriesReply.mp hrun).2

-- A leader's commit index moves to an index that enough peers hold.
theorem perform_raised (hpeers : node.peers.toList ≠ [])
    (hevent : node.perform input = some event) (hleads : event.after.role = .leader)
    (hraised : node.commitIndex < event.after.commitIndex) :
    event.after.quorum ≤ event.after.ackCount event.after.commitIndex := by
  cases input with
  | startElection =>
      obtain ⟨after, sent, hrun, rfl⟩ := perform_startElection.mp hevent
      rcases startElection_cases hrun with ⟨hnil, -⟩ | ⟨-, rfl, -⟩
      · exact absurd hnil hpeers
      · cases hleads
  | propose src dst =>
      obtain ⟨result, after, sent, hrun, rfl⟩ := perform_propose.mp hevent
      rcases propose_cases hrun with ⟨-, -, rfl, -⟩ | ⟨-, -, -, rfl, -⟩ | ⟨-, -, log, -, hc⟩
      · exact absurd hraised (Nat.lt_irrefl _)
      · exact absurd hraised (Nat.lt_irrefl _)
      · rcases hc with ⟨hnil, -⟩ | ⟨-, rfl, -⟩
        · exact absurd hnil hpeers
        · exact absurd hraised (Nat.lt_irrefl _)
  | step sender msg =>
      obtain ⟨committed, after, sent, hrun, rfl⟩ := perform_step.mp hevent
      dsimp only at hleads hraised ⊢
      rcases step_effect hrun with ⟨-, hr⟩ | ⟨-, -, -, -, hcommit, -⟩ | ⟨-, -, votes, rfl⟩ |
        ⟨-, i, matchIndex, -, -, ⟨-, rfl⟩ | ⟨n, -, -, hquorum, -, rfl⟩⟩
      · rw [hr] at hleads
        cases hleads
      · omega
      · exact absurd hraised (Nat.lt_irrefl _)
      · exact absurd hraised (Nat.lt_irrefl _)
      · exact hquorum

-- One call commits exactly what has become held by a quorum.
theorem perform_commits_iff (hpeers : node.peers.toList ≠ [])
    (h : node.role = .leader → CaughtUp node) (hack : AckWithinLog node input)
    (hevent : node.perform input = some event) (hleads : event.after.role = .leader) {n : Nat}
    (hlt : node.commitIndex < n) (hle : n ≤ event.after.logLen)
    (hat : event.after.log.termAt n = some event.after.currentTerm) :
    n ≤ event.after.commitIndex ↔ event.after.quorum ≤ event.after.ackCount n := by
  constructor
  · intro hcommitted
    have hquorum := perform_raised hpeers hevent hleads (by omega)
    exact hquorum.trans (ackCount_anti _ hcommitted)
  · intro hquorum
    apply Nat.le_of_not_lt
    intro hbehind
    have hcaught := (perform_caughtUp hpeers h hack hevent hleads).committed n hbehind hle hat
    omega

end Commits

section Thresholds

variable {id : NodeId} {peerSet : PeerSet} {inputs : List Input} {history : List Event}
variable {node : RaftNode}

-- The two formulas differ by one when the number of peers is odd.
theorem quorum_eq (hpeers : node.peers = peerSet.peers) (hne : peerSet.peers.toList ≠ []) :
    node.quorum = peerSet.quorumThreshold + peerSet.len % 2 := by
  have hfull : peerSet.peers.toList.isEmpty = false := by simpa using hne
  rw [quorum, PeerSet.quorumThreshold, hfull, PeerSet.len, hpeers]
  simp only [Bool.false_eq_true, if_false]
  omega

theorem run_inputs (h : run id peerSet inputs = some (history, node)) :
    history.map Event.input = inputs := by
  refine run_induction (P := fun inputs history _ => history.map Event.input = inputs) rfl ?_ h
  intro inputs earlier node input event hold hevent
  rw [List.map_cons, hold, (perform_input hevent).1]

-- Everything that the calls of a run have done so far, for a leader.
structure Audited (peerSet : PeerSet) (history : List Event) (node : RaftNode) : Prop where
  peers : node.peers = peerSet.peers
  caughtUp : node.role = .leader → CaughtUp node
  committed : ∀ event ∈ history, event.after.role = .leader → ∀ n,
    event.before.commitIndex < n → n ≤ event.after.logLen →
    event.after.log.termAt n = some event.after.currentTerm →
      (n ≤ event.after.commitIndex ↔ event.after.quorum ≤ event.after.ackCount n)
  members : ∀ event ∈ history, event.after.peers = peerSet.peers

theorem audited_run (hne : peerSet.peers.toList ≠ [])
    (h : run id peerSet inputs = some (history, node))
    (hacks : ∀ event ∈ history, AckWithinLog event.before event.input) :
    Audited peerSet history node := by
  revert hacks
  refine run_induction (P := fun _ history node =>
    (∀ event ∈ history, AckWithinLog event.before event.input) →
      Audited peerSet history node) ?_ ?_ h
  · intro _
    exact ⟨rfl, (fun hr => by cases hr), (fun event hevent => by cases hevent),
      fun event hevent => by cases hevent⟩
  · intro inputs earlier node input event ih hevent hacks
    obtain ⟨hpeers, hcaught, hcommitted, hmembers⟩ :=
      ih fun old hold => hacks old (List.mem_cons_of_mem _ hold)
    obtain ⟨hinput, hbefore⟩ := perform_input hevent
    have hack := hacks event List.mem_cons_self
    rw [hinput, hbefore] at hack
    have hnonempty : node.peers.toList ≠ [] := by rw [hpeers]; exact hne
    have hafter : event.after.peers = peerSet.peers :=
      (perform_continues hevent).peers.trans hpeers
    refine ⟨hafter, perform_caughtUp hnonempty hcaught hack hevent, ?_, ?_⟩
    · intro e he hleads n hlt hle hat
      rcases List.mem_cons.mp he with rfl | hold
      · rw [hbefore] at hlt
        exact perform_commits_iff hnonempty hcaught hack hevent hleads hlt hle hat
      · exact hcommitted e hold hleads n hlt hle hat
    · intro e he
      rcases List.mem_cons.mp he with rfl | hold
      · exact hafter
      · exact hmembers e hold

theorem usesThreshold_of_even (hne : peerSet.peers.toList ≠ []) (heven : peerSet.len % 2 = 0)
    (h : run id peerSet inputs = some (history, node))
    (hacks : ∀ event ∈ history, AckWithinLog event.before event.input) :
    UsesThreshold peerSet inputs history node := by
  have haudited := audited_run hne h hacks
  have htally : Tally inputs node :=
    run_induction (P := fun inputs _ node => Tally inputs node) (Tally.new id peerSet)
      (fun hold hevent => hold.perform hevent) h
  have hbounded := bounded_run h
  have hquorum : ∀ {n : RaftNode}, n.peers = peerSet.peers → n.quorum = peerSet.quorumThreshold := by
    intro n hpeers
    have heq := quorum_eq hpeers hne
    omega
  constructor
  · intro hactive
    rw [← hquorum haudited.peers]
    constructor
    · exact htally.leader
    · intro hreached
      cases hrole : node.role with
      | follower => exact absurd hrole hactive
      | leader => rfl
      | candidate =>
          have hcount := htally.candidate hrole
          have hbelow := hbounded.votes hrole
          omega
  · intro event hevent hleads n hlt hle hat
    rw [← hquorum (haudited.members event hevent)]
    exact haudited.committed event hevent hleads n hlt hle hat

-- The run in which the given peers grant their votes in term 1.
def campaign (voters : List NodeId) : List Input :=
  voters.map (fun v => .step v (.requestVoteReply 1 true)) ++ [.startElection]

theorem grants_campaign (voters : List NodeId) :
    grants (campaign voters) = voters.map fun v => (v, 1) := by
  induction voters with
  | nil => rfl
  | cons v rest ih =>
      have hsome : (Input.step v (.requestVoteReply 1 true)).grant = some (v, 1) := rfl
      rw [campaign, List.map_cons, List.cons_append, grants_cons_of_some hsome, List.map_cons]
      exact congrArg _ ih

theorem grantsIn_campaign (voters : List NodeId) :
    grantsIn (campaign voters) 1 = voters.length := by
  rw [grantsIn, grants_campaign, List.countP_map]
  simp [Function.comp_def]

theorem oneGrantEach_campaign {voters : List NodeId} (h : voters.Nodup) :
    OneGrantEach peerSet (campaign voters) := by
  intro peer _ term
  rw [grants_campaign]
  apply List.nodup_iff_count_le_one.mp
  exact h.map fun v w hvw => (Prod.mk.inj hvw).1

-- As long as the votes are fewer than a quorum the node stays a candidate.
theorem run_campaign (id : NodeId) (hne : peerSet.peers.toList ≠ []) (voters : List NodeId)
    (hfew : 1 + voters.length < (peerSet.len + 1) / 2 + 1) :
    ∃ history node, run id peerSet (campaign voters) = some (history, node) ∧
      node.role = .candidate ∧ node.currentTerm = 1 ∧ node.votesGranted = 1 + voters.length := by
  induction voters with
  | nil =>
      have hreturns : (RaftNode.new id peerSet).perform .startElection ≠ none := by
        rw [ne_eq, perform_eq_none (Bounded.new id peerSet)]
        exact Nat.not_le_of_gt (by decide : 0 + 1 < 2 ^ 64)
      obtain ⟨event, hevent⟩ := Option.ne_none_iff_exists'.mp hreturns
      refine ⟨[event], event.after, run_cons.mpr ⟨[], _, event, rfl, hevent, rfl, rfl⟩, ?_⟩
      obtain ⟨after, sent, hrun, rfl⟩ := perform_startElection.mp hevent
      rcases startElection_cases hrun with ⟨hnil, -⟩ | ⟨-, rfl, -⟩
      · exact absurd hnil hne
      · exact ⟨rfl, rfl, rfl⟩
  | cons v rest ih =>
      rw [List.length_cons] at hfew ⊢
      obtain ⟨history, node, hrun, hrole, hterm, hvotes⟩ := ih (by omega)
      have hquorum : node.quorum = (peerSet.len + 1) / 2 + 1 := by
        rw [quorum, run_peers hrun, PeerSet.len]
      have hreturns : node.perform (.step v (.requestVoteReply 1 true)) ≠ none := by
        rw [ne_eq, perform_eq_none (bounded_run hrun)]
        exact fun h => h
      obtain ⟨event, hevent⟩ := Option.ne_none_iff_exists'.mp hreturns
      refine ⟨event :: history, event.after,
        run_cons.mpr ⟨history, node, event, hrun, hevent, rfl, rfl⟩, ?_⟩
      obtain ⟨committed, after, sent, hstep, rfl⟩ := perform_step.mp hevent
      obtain ⟨-, -, hreply⟩ := step_requestVoteReply.mp hstep
      rcases onVoteReply_cases hreply with
        ⟨hlt, -⟩ | ⟨-, hignored, -⟩ | ⟨-, -, votes, rfl, ⟨-, rfl⟩ | ⟨hreached, -⟩⟩
      · omega
      · rcases hignored with hnot | hother
        · exact absurd hrole hnot
        · exact absurd hterm.symm hother
      · refine ⟨hrole, hterm, ?_⟩
        dsimp only
        rw [if_pos rfl]
        omega
      · rw [if_pos rfl] at hreached
        omega

theorem not_usesThreshold_of_odd (id : NodeId) (hnodup : peerSet.peers.toList.Nodup)
    (hodd : peerSet.len % 2 = 1) : ∃ inputs history node,
      run id peerSet inputs = some (history, node) ∧ OneGrantEach peerSet inputs ∧
      (∀ event ∈ history, AckWithinLog event.before event.input) ∧
      ¬UsesThreshold peerSet inputs history node := by
  have hlen : peerSet.len = peerSet.peers.toList.length := rfl
  have hne : peerSet.peers.toList ≠ [] := by
    intro hnil
    rw [hlen, hnil] at hodd
    cases hodd
  let voters := peerSet.peers.toList.take (peerSet.len / 2)
  have hvoters : voters.length = peerSet.len / 2 := by
    rw [List.length_take]
    omega
  obtain ⟨history, node, hrun, hrole, hterm, hvotes⟩ :=
    run_campaign id hne voters (by omega)
  refine ⟨campaign voters, history, node, hrun,
    oneGrantEach_campaign (hnodup.sublist (List.take_sublist _ _)), ?_, ?_⟩
  · intro event hevent
    have hinput : event.input ∈ campaign voters := by
      rw [← run_inputs hrun]
      exact List.mem_map_of_mem hevent
    rcases List.mem_append.mp hinput with hvote | hstart
    · obtain ⟨v, -, hv⟩ := List.mem_map.mp hvote
      rw [← hv]
      trivial
    · rw [List.mem_singleton.mp hstart]
      trivial
  · intro huses
    have hthreshold : peerSet.quorumThreshold ≤ 1 + grantsIn (campaign voters) node.currentTerm := by
      have hfull : peerSet.peers.toList.isEmpty = false := by simpa using hne
      rw [hterm, grantsIn_campaign, hvoters, PeerSet.quorumThreshold, hfull, PeerSet.len]
      simp only [Bool.false_eq_true, if_false]
      omega
    have hleads := (huses.elected (by rw [hrole]; decide)).mpr hthreshold
    rw [hrole] at hleads
    cases hleads

-- The documented quorum is the one in use for an even number of peers only.
theorem threshold_used_iff (peerSet : PeerSet) (id : NodeId) (hne : peerSet.peers.toList ≠ [])
    (hnodup : peerSet.peers.toList.Nodup) :
    (∀ inputs history node, run id peerSet inputs = some (history, node) →
      OneGrantEach peerSet inputs →
      (∀ event ∈ history, AckWithinLog event.before event.input) →
        UsesThreshold peerSet inputs history node) ↔
    peerSet.len % 2 = 0 := by
  constructor
  · intro huses
    by_contra heven
    obtain ⟨inputs, history, node, hrun, hone, hacks, hnot⟩ :=
      not_usesThreshold_of_odd id hnodup (by omega)
    exact hnot (huses inputs history node hrun hone hacks)
  · intro heven inputs history node hrun _ hacks
    exact usesThreshold_of_even hne heven hrun hacks

end Thresholds

def twoPeers : PeerSet := ⟨⟨[node2, node3], by decide⟩⟩

-- With two peers one vote is enough, by either formula.
theorem threshold_used_twoPeers : ∃ history node,
    run node1 twoPeers (campaign [node2]) = some (history, node) ∧
      node.role = .leader ∧ UsesThreshold twoPeers (campaign [node2]) history node := by
  have heval : ∃ result ∈ run node1 twoPeers (campaign [node2]), result.2.role = .leader ∧
      result.1.map Event.input = campaign [node2] := by decide +kernel
  obtain ⟨⟨history, node⟩, hrun, hleads, hinputs⟩ := heval
  refine ⟨history, node, hrun, hleads, ?_⟩
  refine (threshold_used_iff twoPeers node1 (by decide) (by decide)).mpr (by decide)
    _ history node hrun (oneGrantEach_campaign (by decide)) ?_
  intro event hevent
  have hinput : event.input ∈ campaign [node2] := hinputs ▸ List.mem_map_of_mem hevent
  simp only [campaign, List.map_cons, List.map_nil, List.cons_append, List.nil_append,
    List.mem_cons, List.not_mem_nil, or_false] at hinput
  rcases hinput with heq | heq <;>
  · rw [heq]
    trivial

-- With three peers the threshold is two and the node waits for three. An acknowledgement
-- ahead of the log counts only once another reply arrives, however many peers there are.
theorem threshold_not_used :
    (threePeers.quorumThreshold = 2 ∧
      ∃ result ∈ run node1 threePeers (campaign [node2]), result.2.role = .candidate ∧
        1 + grantsIn (campaign [node2]) result.2.currentTerm = 2) ∧
    twoPeers.quorumThreshold = 2 ∧
      ∃ result ∈ run node1 twoPeers ([.propose node1 node2,
          .step node2 (.appendEntriesReply 1 true 1)] ++ campaign [node2]),
        result.2.role = .leader ∧ result.2.logLen = 1 ∧ result.2.ackCount 1 = 2 ∧
          result.2.commitIndex = 0 := by
  decide +kernel

end LuxKernel.Consensus.RaftNode
