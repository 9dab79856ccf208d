import LuxKernel.Boot.Availability
import LuxKernel.Boot.FirstTerm

namespace LuxKernel.Boot

open Audit Consensus Function Heapless LuxKernel.Topology Replication

section Count

variable {node node' : RaftNode} {inbox rest : Inbox} {sent : Sent} {votes : Nat}

theorem grants_concat (inbox : Inbox) (message : NodeId × RaftMessage) :
    grants (inbox ++ [message]) = grants inbox + grants [message] := List.countP_append

-- Without enough votes the node of a call waits, or follows somebody.
structure Unelected (peerSet : PeerSet) (votes : Nat) (node : RaftNode) : Prop where
  peers : node.peers = peerSet.peers
  role : node.role = .follower ∨
    (node.role = .candidate ∧ node.currentTerm = 1 ∧ node.votesGranted ≤ 1 + votes)

theorem Unelected.not_leader {peerSet : PeerSet} (h : Unelected peerSet votes node) :
    node.role ≠ .leader := by
  rcases h.role with hrole | ⟨hrole, -⟩ <;> rw [hrole] <;> decide

theorem Unelected.step {peerSet : PeerSet} (h : Unelected peerSet votes node)
    {message : NodeId × RaftMessage} {committed : Option LogEntry}
    (hfew : votes + grants [message] < (peerSet.len + 1) / 2)
    (hstep : node.step message.1 message.2 = some (committed, node', sent)) :
    Unelected peerSet (votes + grants [message]) node' := by
  obtain ⟨sender, msg⟩ := message
  refine ⟨(RaftNode.step_continues hstep).peers.trans h.peers, ?_⟩
  have hkept : node.role = .follower ∨ (node.role = .candidate ∧ node.currentTerm = 1 ∧
      node.votesGranted ≤ 1 + (votes + grants [(sender, msg)])) :=
    h.role.imp_right fun hcand => ⟨hcand.1, hcand.2.1, by omega⟩
  cases msg with
  | requestVoteReply term granted =>
      obtain ⟨-, -, hreply⟩ := RaftNode.step_requestVoteReply.mp hstep
      rcases RaftNode.onVoteReply_cases hreply with
        ⟨-, rfl⟩ | ⟨-, -, rfl⟩ | ⟨hcand, hterm, total, htotal, hcase⟩
      · exact Or.inl rfl
      · exact hkept
      · obtain ⟨-, hone, hcount⟩ := h.role.resolve_left (by rw [hcand]; decide)
        have hvote : total ≤ 1 + (votes + grants [(sender, .requestVoteReply term granted)]) := by
          rw [htotal, hterm, hone]
          cases granted <;> simp [grants] <;> omega
        rcases hcase with ⟨-, rfl⟩ | ⟨hwon, -⟩
        · exact Or.inr ⟨hcand, hone, hvote⟩
        · rw [quorum_of_peers h.peers] at hwon
          omega
  | requestVote term candidateId lastLogIndex lastLogTerm =>
      obtain ⟨-, hvote⟩ := RaftNode.step_requestVote.mp hstep
      rcases node.onRequestVote_cases sender term candidateId lastLogIndex lastLogTerm with
        ⟨-, -, -, heq⟩ | heq <;>
      · rw [heq, Prod.mk.injEq] at hvote
        rw [← hvote.1]
        rcases node.observe_cases term with hfollower | hsame
        · exact Or.inl hfollower
        · rw [hsame]
          exact hkept
  | appendEntries term leaderId prevLogIndex prevLogTerm entries leaderCommit =>
      obtain ⟨-, happ⟩ := RaftNode.step_appendEntries.mp hstep
      rcases RaftNode.onAppendEntries_cases happ with
        ⟨-, rfl, -⟩ | ⟨-, -, rfl, -⟩ | ⟨-, -, log, -, rfl, -⟩
      · exact hkept
      · exact Or.inl (RaftNode.follow_role node term)
      · exact Or.inl (RaftNode.follow_role node term)
  | appendEntriesReply term success matchIndex =>
      obtain ⟨-, hreply⟩ := RaftNode.step_appendEntriesReply.mp hstep
      rcases RaftNode.onAeReply_cases hreply with ⟨-, -, rfl⟩ | ⟨-, -, -, rfl⟩ | ⟨hlead, -⟩
      · exact Or.inl rfl
      · exact hkept
      · exact absurd hlead h.not_leader

theorem Unelected.electionLoop {peerSet : PeerSet} (h : Unelected peerSet votes node)
    (hfew : votes + grants inbox < (peerSet.len + 1) / 2)
    (hrun : electionLoop node inbox = some (node', sent, rest)) : node'.role ≠ .leader := by
  induction inbox generalizing node votes sent with
  | nil =>
      cases hrun
      exact h.not_leader
  | cons message inbox ih =>
      obtain ⟨committed, node₁, first, hstep, hcase⟩ := electionLoop_cons hrun
      rw [grants_cons] at hfew
      have h₁ := h.step (by omega) hstep
      rcases hcase with ⟨hlead, -⟩ | ⟨-, later, hloop, -⟩
      · exact absurd hlead h₁.not_leader
      · exact ih h₁ (by omega) hloop

-- Too few votes, no leader.
theorem campaign_unvoted {localId : NodeId} {peerSet : PeerSet}
    (hfew : grants inbox < (peerSet.len + 1) / 2)
    (hrun : campaign localId peerSet inbox = some (node, sent, rest)) : node.role ≠ .leader := by
  obtain ⟨node₁, first, hstart, hcase⟩ := campaign_cases hrun
  rcases RaftNode.startElection_cases hstart with ⟨hnil, -⟩ | ⟨-, rfl, -⟩
  · have hlen : peerSet.len = 0 := List.length_eq_zero_iff.mpr hnil
    omega
  · rcases hcase with ⟨hlead, -⟩ | ⟨-, later, hloop, -⟩
    · cases hlead
    · have hstanding : Unelected peerSet 0 (RaftNode.new localId peerSet).standing :=
        ⟨rfl, Or.inr ⟨rfl, rfl, Nat.le_refl 1⟩⟩
      exact hstanding.electionLoop (by omega) hloop

end Count

section Bars

variable {V : Membership} {node node' : RaftNode} {sender self caller : NodeId}
variable {msg : RaftMessage} {committed : Option LogEntry} {out : Sent}

-- The member does not vote for the caller any more: its log holds something, which is more
-- than the log of a new node, or it has voted for somebody else in the only term there is.
def Barred (caller : NodeId) (node : RaftNode) : Prop :=
  node.log.toList ≠ [] ∨ (node.currentTerm = 1 ∧ ∃ other ∈ node.votedFor, other ≠ caller)

instance (caller : NodeId) (node : RaftNode) : Decidable (Barred caller node) :=
  inferInstanceAs (Decidable (_ ∨ _))

theorem splice_ne_nil {log entries : List LogEntry} {pos : Nat} (h : log ≠ []) :
    splice log pos entries ≠ [] := by
  induction entries generalizing pos with
  | nil => exact h
  | cons entry rest ih =>
      unfold splice
      split
      · split
        · exact ih
        · simp
      · simp

-- A log that holds something is never emptied again.
theorem step_log_ne_nil (hstep : node.step sender msg = some (committed, node', out))
    (h : node.log.toList ≠ []) : node'.log.toList ≠ [] := by
  cases msg with
  | appendEntries term leaderId prevLogIndex prevLogTerm entries leaderCommit =>
      obtain ⟨-, happ⟩ := RaftNode.step_appendEntries.mp hstep
      rcases RaftNode.onAppendEntries_cases happ with
        ⟨-, rfl, -⟩ | ⟨-, -, rfl, -⟩ | ⟨-, -, log, hlog, rfl, -⟩
      · exact h
      · rwa [RaftNode.follow_log]
      · show log.toList ≠ []
        rw [hlog, Ne, List.take_eq_nil_iff]
        rintro (hcap | hnil)
        · cases hcap
        · exact splice_ne_nil h hnil
  | _ => rwa [(RaftNode.step_log hstep (by simp)).1]

theorem Barred.step (h : Barred caller node) (hterm : node.currentTerm ≤ 1)
    (hplain : Plain V ⟨sender, self, msg⟩)
    (hstep : node.step sender msg = some (committed, node', out)) : Barred caller node' := by
  rcases h with hlog | ⟨hone, other, hvote, hother⟩
  · exact Or.inl (step_log_ne_nil hstep hlog)
  · have hle := step_term_le hterm hplain hstep
    rcases RaftNode.perform_votedFor (RaftNode.perform_step.mpr ⟨_, _, _, hstep, rfl⟩) with
      hlater | ⟨hsame, hkept⟩
    · have hlater : node.currentTerm < node'.currentTerm := hlater
      omega
    · exact Or.inr ⟨hsame.trans hone, other, hkept other hvote, hother⟩

-- It refuses whoever is barred.
theorem Barred.refuses (h : Barred sender node) (hterm : node.currentTerm ≤ 1)
    (hplain : Plain V ⟨sender, self, msg⟩)
    (hstep : node.step sender msg = some (committed, node', out)) :
    ∀ packet ∈ packets self out, packet.msg ≠ .requestVoteReply 1 true := by
  intro packet hmem hmsg
  obtain ⟨hempty, hfree⟩ := (step_answers hterm hplain hstep packet hmem).vote hmsg
  rcases h with hlog | ⟨hone, other, hvote, hother⟩
  · exact hlog hempty
  · rw [Option.mem_def] at hvote
    rcases hfree hone with hnone | hsender
    · rw [hnone] at hvote
      cases hvote
    · rw [hsender, Option.some.injEq] at hvote
      exact hother hvote.symm

end Bars

-- The votes for the caller that are on their way to it.
def Deployment.votesTo (s : Deployment) (caller : NodeId) : Finset Nat :=
  (Finset.range s.sent.length).filter fun position =>
    ∃ packet ∈ s.pending position, packet.dst = caller ∧ packet.msg = .requestVoteReply 1 true

-- A call of this caller with this inbox does not become leader any more: no other member
-- will vote for it, and the votes that it has heard or may still hear are too few. Every
-- call counts all votes that reach the caller, also those that an earlier call asked for.
def Hopeless (V : Membership) (s : Deployment) (caller : NodeId) (inbox : Inbox) : Prop :=
  (∀ j ∈ V.members, j ≠ caller → Barred caller (s.node j)) ∧
    grants inbox + (s.votesTo caller).card < ((V.peerSet caller).len + 1) / 2

instance (V : Membership) (s : Deployment) (caller : NodeId) (inbox : Inbox) :
    Decidable (Hopeless V s caller inbox) := inferInstanceAs (Decidable (_ ∧ _))

section Runs

variable {V : Membership} {s s' : Deployment} {caller : NodeId} {position : Nat}

theorem getElem?_set_cases {α : Type} {l : List α} {i k : Nat} {a b : α}
    (h : (l.set k b)[i]? = some a) : (k = i ∧ b = a) ∨ l[i]? = some a := by
  rw [List.getElem?_set] at h
  split at h
  · rename_i heq
    split at h
    · exact Or.inl ⟨heq, Option.some.inj h⟩
    · cases h
  · exact Or.inr h

theorem pending_lt {packet : Packet} (h : s.pending position = some packet) :
    position < s.sent.length :=
  (List.getElem?_eq_some_iff.mp (Deployment.pending_eq_some.mp h).2).1

theorem mem_votesTo : position ∈ s.votesTo caller ↔ ∃ packet,
    s.pending position = some packet ∧ packet.dst = caller ∧
      packet.msg = .requestVoteReply 1 true := by
  rw [Deployment.votesTo, Finset.mem_filter, Finset.mem_range, and_iff_right_of_imp]
  · rfl
  · rintro ⟨packet, hpending, -⟩
    exact pending_lt hpending

-- No vote is added, as long as none is among the new packets.
theorem votesTo_subset {more : List Packet} (hsent : s'.sent = s.sent ++ more)
    (hdelivered : s.delivered ⊆ s'.delivered)
    (hnone : ∀ packet ∈ more, packet.dst = caller → packet.msg ≠ .requestVoteReply 1 true) :
    s'.votesTo caller ⊆ s.votesTo caller := by
  intro position hmem
  obtain ⟨packet, hpending, hdst, hmsg⟩ := mem_votesTo.mp hmem
  rcases pending_cases hpending hsent hdelivered with hold | hnew
  · exact mem_votesTo.mpr ⟨packet, hold, hdst, hmsg⟩
  · exact absurd hmsg (hnone packet hnew hdst)

variable [Sha256] {boot : NodeId → BootState} {event : Event} {inbox : Inbox}
variable {allowed : Deployment → Event → Prop}

-- Whoever is barred by all others stays so, and no further vote is sent to it.
theorem barred_step (h : Orderly V s)
    (hbarred : ∀ j ∈ V.members, j ≠ caller → Barred caller (s.node j))
    (hrun : s.happen V boot event = some s') :
    (∀ j ∈ V.members, j ≠ caller → Barred caller (s'.node j)) ∧
      s'.votesTo caller ⊆ s.votesTo caller := by
  rcases Deployment.happen_cases hrun with
    ⟨position, packet, committed, node, out, -, hpending, hstep, rfl⟩ |
      ⟨c, src, dst, audit, outcome, -, hc, hout, rfl⟩ |
      ⟨k, position, packet, old, before, outcome, -, hpending, hk, -, hdst, -, hout, rfl⟩ |
      ⟨k, old, outcome, -, -, -, -, rfl⟩
  · have hplain := h.sent packet (pending_mem hpending)
    have hterm := h.terms packet.dst
    refine ⟨fun j hj hne => ?_, votesTo_subset rfl (List.subset_cons_self _ _) fun p hp hto => ?_⟩
    · show Barred caller (update s.node packet.dst node j)
      rw [update_apply]
      split
      · rename_i heq
        exact (heq ▸ hbarred j hj hne).step hterm hplain hstep
      · exact hbarred j hj hne
    · -- a vote would be for the sender, which is the caller
      have hasked : packet.src = caller :=
        (step_answers hterm hplain hstep p hp).back.symm.trans hto
      have hne : packet.dst ≠ caller := hasked ▸ hplain.2.2.1.symm
      have hrefuses : Barred packet.src (s.node packet.dst) :=
        hasked ▸ hbarred packet.dst hplain.2.1 hne
      exact hrefuses.refuses hterm hplain hstep p hp
  · refine ⟨hbarred, votesTo_subset rfl (List.Subset.refl _) fun p hp _ => ?_⟩
    exact (sends_of_outcome hout hc .nil p hp).2
  · have hmem := List.mem_of_getElem? hk
    have hears := h.hearing hmem (pending_mem hpending) hdst
    refine ⟨hbarred, votesTo_subset rfl (List.subset_cons_self _ _) fun p hp _ => ?_⟩
    exact ((sends_of_outcome hout (h.rounds old hmem).1 hears).drop _ p hp).2
  · exact ⟨hbarred, Finset.Subset.refl _⟩

theorem Hopeless.step (h : Hopeless V s caller inbox) (horderly : Orderly V s)
    (hrun : s.happen V boot event = some s') : Hopeless V s' caller inbox := by
  obtain ⟨hbarred, hsubset⟩ := barred_step horderly h.1 hrun
  have hcard := Finset.card_le_card hsubset
  have hfew := h.2
  exact ⟨hbarred, by omega⟩

-- A vote that is heard is not on its way any more.
theorem Hopeless.hear (h : Hopeless V s caller inbox) (horderly : Orderly V s) {k : Nat}
    (hrun : s.happen V boot (.hear k position) = some s') {packet : Packet}
    (hpending : s.pending position = some packet) (hdst : packet.dst = caller)
    (hdelivered : position ∈ s'.delivered) :
    Hopeless V s' caller (inbox ++ [(packet.src, packet.msg)]) := by
  obtain ⟨hbarred, hsubset⟩ := barred_step horderly h.1 hrun
  have hfew := h.2
  refine ⟨hbarred, ?_⟩
  rw [grants_concat]
  by_cases hmsg : packet.msg = .requestVoteReply 1 true
  · have hone : grants [(packet.src, packet.msg)] = 1 := by simp [grants, hmsg]
    have hthere : position ∈ s.votesTo caller := mem_votesTo.mpr ⟨packet, hpending, hdst, hmsg⟩
    have hgone : position ∉ s'.votesTo caller := by
      intro hmem
      obtain ⟨other, hother, -⟩ := mem_votesTo.mp hmem
      exact (Deployment.pending_eq_some.mp hother).1 hdelivered
    have hcard := Finset.card_lt_card ((Finset.ssubset_iff_of_subset hsubset).mpr
      ⟨position, hthere, hgone⟩)
    omega
  · have hzero : grants [(packet.src, packet.msg)] = 0 := by simp [grants, hmsg]
    have hcard := Finset.card_le_card hsubset
    omega

-- A call after an event: it has just been made, or it was there before with the same
-- arguments, unchanged if it had returned, and hopeless if it was so.
theorem round_step (h : Orderly V s) (hrun : s.happen V boot event = some s') {k : Nat}
    {round' : Round} (hk : s'.rounds[k]? = some round') :
    (∃ caller src dst audit, event = .call caller src dst audit ∧
      round' = ⟨caller, src, dst, audit, [], none⟩) ∨
    ∃ round, s.rounds[k]? = some round ∧ round'.caller = round.caller ∧
      round'.src = round.src ∧ round'.dst = round.dst ∧ round'.audit = round.audit ∧
      (round' = round ∨ round.returned.isNone = true) ∧
      (Hopeless V s round.caller round.inbox → Hopeless V s' round'.caller round'.inbox) := by
  have hkept (hopeless : Hopeless V s round'.caller round'.inbox) :
      Hopeless V s' round'.caller round'.inbox := hopeless.step h hrun
  rcases Deployment.happen_cases hrun with
    ⟨position, packet, committed, node, out, -, -, -, rfl⟩ |
      ⟨caller, src, dst, audit, outcome, hevent, -, -, rfl⟩ |
      ⟨i, position, packet, old, before, outcome, rfl, hpending, hi, hopen, hdst, -, -, rfl⟩ |
      ⟨i, old, outcome, -, hi, hopen, -, rfl⟩
  · exact Or.inr ⟨round', hk, rfl, rfl, rfl, rfl, Or.inl rfl, hkept⟩
  · rcases Nat.lt_or_ge k s.rounds.length with hlt | hge
    · rw [Deployment.post, List.getElem?_append_left hlt] at hk
      exact Or.inr ⟨round', hk, rfl, rfl, rfl, rfl, Or.inl rfl, hkept⟩
    · rw [Deployment.post, List.getElem?_append_right hge] at hk
      exact Or.inl ⟨caller, src, dst, audit, hevent,
        List.mem_singleton.mp (List.mem_of_getElem? hk)⟩
  · rcases getElem?_set_cases hk with ⟨rfl, rfl⟩ | hsame
    · exact Or.inr ⟨old, hi, rfl, rfl, rfl, rfl, Or.inr hopen, fun hopeless =>
        hopeless.hear h hrun hpending hdst List.mem_cons_self⟩
    · exact Or.inr ⟨round', hsame, rfl, rfl, rfl, rfl, Or.inl rfl, hkept⟩
  · rcases getElem?_set_cases hk with ⟨rfl, rfl⟩ | hsame
    · exact Or.inr ⟨old, hi, rfl, rfl, rfl, rfl, Or.inr hopen, hkept⟩
    · exact Or.inr ⟨round', hsame, rfl, rfl, rfl, rfl, Or.inl rfl, hkept⟩

theorem Hopeless.not_ok {round : Round} (h : Hopeless V s round.caller round.inbox)
    {outcome : Outcome} (hout : round.outcome V boot = some outcome) : outcome.result ≠ .ok () := by
  intro hok
  obtain ⟨-, leader, sent, replies, node, later, hcampaign, hlead, -⟩ :=
    runTopologyConsensus_ok hout hok
  have hfew := h.2
  exact campaign_unvoted (by omega) hcampaign hlead

-- A caller that no other member votes for, and its calls since the first `made` of all.
structure Spent (V : Membership) (caller : NodeId) (made : Nat) (s : Deployment) : Prop where
  orderly : Orderly V s
  silent : Hopeless V s caller []
  rounds : ∀ k round, made ≤ k → s.rounds[k]? = some round → round.caller = caller →
    Hopeless V s caller round.inbox

theorem Spent.step {made : Nat} (h : Spent V caller made s)
    (hrun : s.happen V boot event = some s') : Spent V caller made s' := by
  have hsilent := h.silent.step h.orderly hrun
  refine ⟨h.orderly.step hrun, hsilent, fun k round' hk hround hmine => ?_⟩
  rcases round_step h.orderly hrun hround with
    ⟨c, src, dst, audit, -, rfl⟩ | ⟨round, hround, hcaller, -, -, -, -, hstays⟩
  · exact hsilent
  · have hsame : round.caller = caller := hcaller.symm.trans hmine
    rw [← hmine]
    exact hstays (hsame ▸ h.rounds k round hk hround hsame)

theorem Spent.reaches {made : Nat} (h : Spent V caller made s)
    (hrun : Deployment.Reaches V boot allowed s s') : Spent V caller made s' :=
  Deployment.reaches_keeps Spent.step h hrun

end Runs

-- Once every other member has stored an edge and no vote is on its way to a member,
-- none of its later calls succeeds, whatever is sent, lost or delayed.
theorem consensus_spent [Sha256] (V : Membership) (boot : NodeId → BootState)
    (allowed : Deployment → Event → Prop) {s s' : Deployment}
    (hrun : Deployment.Reaches V boot allowed (Deployment.start V) s)
    (hlater : Deployment.Reaches V boot allowed s s')
    {caller j : NodeId} (hcaller : caller ∈ V.members) (hj : j ∈ V.members) (hne : j ≠ caller)
    (hstored : ∀ j ∈ V.members, j ≠ caller → (s.node j).log.toList ≠ [])
    (hdrained : ∀ position packet, s.pending position = some packet → packet.dst = caller →
      packet.msg ≠ .requestVoteReply 1 true)
    {k : Nat} (hk : s.rounds.length ≤ k) {round : Round} (hround : s'.rounds[k]? = some round)
    (hmine : round.caller = caller) : ¬round.ReturnsOk := by
  have hpos : 0 < (V.peerSet caller).len :=
    List.length_pos_of_mem ((V.mem_peers hcaller).mpr ⟨hj, hne⟩)
  have hnone : s.votesTo caller = ∅ := by
    rw [Finset.eq_empty_iff_forall_notMem]
    intro position hmem
    obtain ⟨packet, hpending, hdst, hmsg⟩ := mem_votesTo.mp hmem
    exact hdrained position packet hpending hdst hmsg
  have hsilent : Hopeless V s caller [] := by
    refine ⟨fun j hj hne => Or.inl (hstored j hj hne), ?_⟩
    rw [hnone, Finset.card_empty, grants, List.countP_nil]
    omega
  have hspent : Spent V caller s.rounds.length s := by
    refine ⟨.reaches hrun, hsilent, fun i r hi hr => ?_⟩
    rw [List.getElem?_eq_none hi] at hr
    cases hr
  have hlost := (hspent.reaches hlater).rounds k round hk hround hmine
  rintro ⟨outcome, hreturned, hok⟩
  have hout := Recorded.reaches (hrun.trans hlater) round (List.mem_of_getElem? hround) outcome
    hreturned
  exact Hopeless.not_ok (hmine ▸ hlost) hout hok

section ThreeNodes

attribute [local instance] Sha256.zero

-- `node1` calls, and both others vote for it and store its edge.
def heardByAll : List Event :=
  [.call node1 node1 node2 .new, .answer 0, .answer 1, .hear 0 2, .hear 0 3, .answer 4, .answer 5,
   .hear 0 6, .finish 0]

theorem consensus_spent_trio :
    ∃ s, Deployment.Reaches trio meshed anyEvent (Deployment.start trio) s ∧
      (∃ round ∈ s.rounds, round.ReturnsOk) ∧
      ∀ s', Deployment.Reaches trio meshed anyEvent s s' → ∀ k round, s.rounds.length ≤ k →
        s'.rounds[k]? = some round → round.caller = node1 → ¬round.ReturnsOk := by
  obtain ⟨s, hrun, hp⟩ := Deployment.exists_reaches trio meshed anyEvent heardByAll
    (s := .start trio)
    (p := fun s => decide ((∃ round ∈ s.rounds, round.ReturnsOk) ∧
      (∀ j ∈ [node1, node2, node3], j ≠ node1 → (s.node j).log.toList ≠ []) ∧
      ∀ position < s.sent.length, ∀ packet ∈ s.pending position, packet.dst = node1 →
        packet.msg ≠ .requestVoteReply 1 true)) (by decide +kernel)
  rw [decide_eq_true_eq] at hp
  obtain ⟨hok, hstored, hdrained⟩ := hp
  refine ⟨s, hrun, hok, fun s' hlater k round hk hround hmine => ?_⟩
  refine consensus_spent trio meshed anyEvent hrun hlater (j := node2) (by decide) (by decide)
    (by decide) (fun j hj => hstored j (List.mem_toFinset.mp hj)) ?_ hk hround hmine
  intro position packet hpending
  exact hdrained position (pending_lt hpending) packet hpending

end ThreeNodes

end LuxKernel.Boot
