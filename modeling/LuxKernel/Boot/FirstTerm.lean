import LuxKernel.Boot.Rounds
import LuxKernel.Consensus.NodeRuns
import LuxKernel.Consensus.Provenance

namespace LuxKernel.Boot

open Audit Consensus Function Heapless LuxKernel.Topology Replication

-- Every call starts with a new node, so nothing in a deployment is ever of a later
-- term than the first, and every request for votes is that of an empty log.
def Plain (V : Membership) (packet : Packet) : Prop :=
  packet.src ∈ V.members ∧ packet.dst ∈ V.members ∧ packet.src ≠ packet.dst ∧
    match packet.msg with
    | .requestVote term candidateId lastLogIndex lastLogTerm =>
        term = 1 ∧ candidateId = packet.src ∧ lastLogIndex = 0 ∧ lastLogTerm = 0
    | .requestVoteReply term _ => term ≤ 1
    | .appendEntries term _ _ _ _ _ => term ≤ 1
    | .appendEntriesReply term _ _ => term ≤ 1

section Answers

variable {V : Membership} {node node' : RaftNode} {sender self : NodeId} {msg : RaftMessage}
variable {committed : Option LogEntry} {out : Sent}

theorem follow_term_le {term : Nat} (h : node.currentTerm ≤ 1) (hterm : term ≤ 1) :
    (node.follow term).currentTerm ≤ 1 := by
  unfold RaftNode.follow
  split
  · exact hterm
  · exact h

theorem observe_term_le {term : Nat} (h : node.currentTerm ≤ 1) (hterm : term ≤ 1) :
    (node.observe term).currentTerm ≤ 1 := by
  rw [RaftNode.observe_currentTerm]
  omega

theorem step_term_le (hterm : node.currentTerm ≤ 1) (hplain : Plain V ⟨sender, self, msg⟩)
    (hstep : node.step sender msg = some (committed, node', out)) : node'.currentTerm ≤ 1 := by
  obtain ⟨-, -, -, hmsg⟩ := hplain
  cases msg with
  | requestVote term candidateId lastLogIndex lastLogTerm =>
      have hle := observe_term_le hterm (Nat.le_of_eq hmsg.1)
      obtain ⟨-, hvote⟩ := RaftNode.step_requestVote.mp hstep
      rcases node.onRequestVote_cases sender term candidateId lastLogIndex lastLogTerm with
        ⟨-, -, -, heq⟩ | heq <;>
      · rw [heq, Prod.mk.injEq] at hvote
        rw [← hvote.1]
        exact hle
  | requestVoteReply term granted =>
      obtain ⟨-, -, hreply⟩ := RaftNode.step_requestVoteReply.mp hstep
      rcases RaftNode.onVoteReply_cases hreply with
        ⟨-, rfl⟩ | ⟨-, -, rfl⟩ | ⟨-, -, votes, -, ⟨-, rfl⟩ | ⟨-, rfl⟩⟩
      · exact hmsg
      · exact hterm
      · exact hterm
      · exact hterm
  | appendEntries term leaderId prevLogIndex prevLogTerm entries leaderCommit =>
      have hle := follow_term_le hterm hmsg
      obtain ⟨-, happ⟩ := RaftNode.step_appendEntries.mp hstep
      rcases RaftNode.onAppendEntries_cases happ with
        ⟨-, rfl, -⟩ | ⟨-, -, rfl, -⟩ | ⟨-, -, log, -, rfl, -⟩
      · exact hterm
      · exact hle
      · exact hle
  | appendEntriesReply term success matchIndex =>
      obtain ⟨-, hreply⟩ := RaftNode.step_appendEntriesReply.mp hstep
      rcases RaftNode.onAeReply_cases hreply with
        ⟨-, -, rfl⟩ | ⟨-, -, -, rfl⟩ | ⟨-, -, i, -, ⟨-, -, rfl | rfl⟩ | ⟨-, -, rfl⟩ |
          ⟨-, n, -, -, -, -, -, rfl⟩⟩
      · exact hmsg
      · exact hterm
      · exact hterm
      · exact hterm
      · exact hterm
      · exact hterm

theorem upToDate_empty (h : node.logUpToDateFor 0 0 = true) : node.log.toList = [] := by
  simp only [RaftNode.logUpToDateFor, Bool.or_eq_true, Bool.and_eq_true, decide_eq_true_eq] at h
  rw [RaftLog.lastIndex_eq] at h
  apply List.eq_nil_of_length_eq_zero
  omega

-- A node answers the sender, in no later term, and votes only if its own log is
-- empty and its vote is free.
structure Answer (V : Membership) (node : RaftNode) (sender : NodeId) (packet : Packet) : Prop where
  plain : Plain V packet
  back : packet.dst = sender
  vote : packet.msg = .requestVoteReply 1 true → node.log.toList = [] ∧
    (node.currentTerm = 1 → node.votedFor = none ∨ node.votedFor = some sender)

theorem step_answers (hterm : node.currentTerm ≤ 1) (hplain : Plain V ⟨sender, self, msg⟩)
    (hstep : node.step sender msg = some (committed, node', out)) :
    ∀ packet ∈ packets self out, Answer V node sender packet := by
  obtain ⟨hsrc, hdst, hne, hmsg⟩ := hplain
  have hreply (reply : RaftMessage) (hle : Plain V ⟨self, sender, reply⟩)
      (hout : out = [(sender, reply)])
      (hgrant : reply = .requestVoteReply 1 true → node.log.toList = [] ∧
        (node.currentTerm = 1 → node.votedFor = none ∨ node.votedFor = some sender)) :
      ∀ packet ∈ packets self out, Answer V node sender packet := by
    intro packet hmem
    rw [hout, packets, List.map_singleton, List.mem_singleton] at hmem
    rw [hmem]
    exact ⟨hle, rfl, hgrant⟩
  cases msg with
  | requestVote term candidateId lastLogIndex lastLogTerm =>
      obtain ⟨rfl, hcandidate, rfl, rfl⟩ := hmsg
      have hle := observe_term_le hterm (Nat.le_refl 1)
      obtain ⟨-, hvote⟩ := RaftNode.step_requestVote.mp hstep
      rcases node.onRequestVote_cases sender 1 candidateId 0 0 with ⟨-, hup, hfree, heq⟩ | heq
      · rw [heq, Prod.mk.injEq] at hvote
        refine hreply _ ⟨hdst, hsrc, hne.symm, Nat.le_refl 1⟩ hvote.2.symm fun _ => ?_
        refine ⟨upToDate_empty hup, fun hone => ?_⟩
        rwa [RaftNode.observe, if_neg (by omega), hcandidate] at hfree
      · rw [heq, Prod.mk.injEq] at hvote
        exact hreply _ ⟨hdst, hsrc, hne.symm, hle⟩ hvote.2.symm (by simp)
  | requestVoteReply term granted =>
      obtain ⟨-, rfl, -⟩ := RaftNode.step_requestVoteReply.mp hstep
      intro packet hmem
      cases hmem
  | appendEntries term leaderId prevLogIndex prevLogTerm entries leaderCommit =>
      obtain ⟨-, happ⟩ := RaftNode.step_appendEntries.mp hstep
      rcases RaftNode.onAppendEntries_cases happ with
        ⟨-, -, hout⟩ | ⟨-, -, -, hout⟩ | ⟨-, -, log, -, -, hout⟩
      · exact hreply _ ⟨hdst, hsrc, hne.symm, hterm⟩ hout (by simp)
      · exact hreply _ ⟨hdst, hsrc, hne.symm, hmsg⟩ hout (by simp)
      · exact hreply _ ⟨hdst, hsrc, hne.symm, hmsg⟩ hout (by simp)
  | appendEntriesReply term success matchIndex =>
      obtain ⟨rfl, -⟩ := RaftNode.step_appendEntriesReply.mp hstep
      intro packet hmem
      cases hmem

end Answers

section Calls

variable {V : Membership} {caller src dst : NodeId} {node node' : RaftNode}
variable {inbox rest : Inbox} {sent : Sent}

-- The node of a call has voted for itself, and does so to the end.
structure Devoted (V : Membership) (caller : NodeId) (node : RaftNode) : Prop where
  peers : node.peers = (V.peerSet caller).peers
  term : node.currentTerm = 1
  vote : node.votedFor = some caller

-- The messages of a call, with no vote for anybody else among them.
def Sends (V : Membership) (caller : NodeId) (sent : Sent) : Prop :=
  ∀ packet ∈ packets caller sent, Plain V packet ∧ packet.msg ≠ .requestVoteReply 1 true

def Hears (V : Membership) (caller : NodeId) (inbox : Inbox) : Prop :=
  ∀ message ∈ inbox, Plain V ⟨message.1, caller, message.2⟩

theorem Sends.nil : Sends V caller [] := by
  intro packet hmem
  cases hmem

theorem Hears.nil : Hears V caller [] := by
  intro message hmem
  cases hmem

theorem Sends.drop (h : Sends V caller sent) (n : Nat) : Sends V caller (sent.drop n) := by
  intro packet hmem
  obtain ⟨message, hin, rfl⟩ := List.mem_map.mp hmem
  exact h _ (List.mem_map.mpr ⟨message, List.mem_of_mem_drop hin, rfl⟩)

theorem Sends.append {later : Sent} (h : Sends V caller sent) (hlater : Sends V caller later) :
    Sends V caller (sent ++ later) := by
  intro packet hmem
  rw [packets, List.map_append, List.mem_append] at hmem
  exact hmem.elim (h packet) (hlater packet)

theorem Devoted.start (hcaller : caller ∈ V.members)
    (hstart : (RaftNode.new caller (V.peerSet caller)).startElection = some (node, sent)) :
    Devoted V caller node ∧ Sends V caller sent := by
  rcases RaftNode.startElection_cases hstart with ⟨-, rfl, rfl⟩ | ⟨-, rfl, rfl⟩
  · exact ⟨⟨rfl, rfl, rfl⟩, .nil⟩
  · refine ⟨⟨rfl, rfl, rfl⟩, fun packet hmem => ?_⟩
    rw [packets, List.map_map] at hmem
    obtain ⟨peer, hpeer, rfl⟩ := List.mem_map.mp hmem
    obtain ⟨hmember, hne⟩ := (V.mem_peers hcaller).mp hpeer
    exact ⟨⟨hcaller, hmember, hne.symm, rfl, rfl, rfl, rfl⟩, by simp⟩

theorem Devoted.step (h : Devoted V caller node) {message : NodeId × RaftMessage}
    {committed : Option LogEntry} (hplain : Plain V ⟨message.1, caller, message.2⟩)
    (hstep : node.step message.1 message.2 = some (committed, node', sent)) :
    Devoted V caller node' ∧ Sends V caller sent := by
  have hterm := h.term
  have hle := step_term_le (Nat.le_of_eq hterm) hplain hstep
  have hpeers := (RaftNode.step_continues hstep).peers.trans h.peers
  constructor
  · rcases RaftNode.perform_votedFor (RaftNode.perform_step.mpr ⟨_, _, _, hstep, rfl⟩) with
      hlater | ⟨hsame, hkept⟩
    · have hlater : node.currentTerm < node'.currentTerm := hlater
      omega
    · exact ⟨hpeers, hsame.trans hterm, hkept caller h.vote⟩
  · intro packet hmem
    have hanswer := step_answers (Nat.le_of_eq hterm) hplain hstep packet hmem
    refine ⟨hanswer.plain, fun hmsg => ?_⟩
    obtain ⟨-, hfree⟩ := hanswer.vote hmsg
    rw [h.vote] at hfree
    rcases hfree hterm with hnone | hsome
    · cases hnone
    · exact hplain.2.2.1 (Option.some.inj hsome).symm

theorem Devoted.propose (h : Devoted V caller node) (hcaller : caller ∈ V.members)
    {result : Result Unit} (hpropose : node.propose src dst = some (result, node', sent)) :
    Devoted V caller node' ∧ Sends V caller sent := by
  have hnode : Devoted V caller node' := by
    rcases RaftNode.propose_cases hpropose with
      ⟨-, -, rfl, -⟩ | ⟨-, -, -, rfl, -⟩ | ⟨-, -, log, -, ⟨-, -, rfl⟩ | ⟨-, rfl, -⟩⟩
    · exact h
    · exact h
    · exact ⟨h.peers, h.term, h.vote⟩
    · exact ⟨h.peers, h.term, h.vote⟩
  refine ⟨hnode, fun packet hmem => ?_⟩
  obtain ⟨⟨peer, msg⟩, hmsg, rfl⟩ := List.mem_map.mp hmem
  obtain ⟨hpeer, prevLogIndex, prevLogTerm, entries, rfl, -⟩ :=
    RaftNode.propose_message hpropose hmsg
  rw [hnode.peers] at hpeer
  obtain ⟨hmember, hne⟩ := (V.mem_peers hcaller).mp hpeer
  exact ⟨⟨hcaller, hmember, hne.symm, Nat.le_of_eq hnode.term⟩, by simp⟩

theorem Devoted.electionLoop (h : Devoted V caller node) (hinbox : Hears V caller inbox)
    (hrun : electionLoop node inbox = some (node', sent, rest)) :
    Devoted V caller node' ∧ Sends V caller sent ∧ Hears V caller rest := by
  induction inbox generalizing node sent with
  | nil =>
      cases hrun
      exact ⟨h, .nil, hinbox⟩
  | cons message inbox ih =>
      obtain ⟨committed, node₁, first, hstep, hcase⟩ := electionLoop_cons hrun
      obtain ⟨hfirst, hrest⟩ := List.forall_mem_cons.mp hinbox
      obtain ⟨h₁, hsent⟩ := h.step hfirst hstep
      rcases hcase with ⟨-, rfl, rfl, rfl⟩ | ⟨-, later, hloop, rfl⟩
      · exact ⟨h₁, hsent, hrest⟩
      · obtain ⟨h₂, hlater, hheard⟩ := ih h₁ hrest hloop
        exact ⟨h₂, hsent.append hlater, hheard⟩

theorem Devoted.replicationLoop (h : Devoted V caller node) (hinbox : Hears V caller inbox)
    {done : Bool} (hrun : replicationLoop node inbox = some (done, node', sent)) :
    Sends V caller sent := by
  induction inbox generalizing node sent with
  | nil =>
      cases hrun
      exact .nil
  | cons message inbox ih =>
      obtain ⟨committed, node₁, first, hstep, hcase⟩ := replicationLoop_cons hrun
      obtain ⟨hfirst, hrest⟩ := List.forall_mem_cons.mp hinbox
      obtain ⟨h₁, hsent⟩ := h.step hfirst hstep
      rcases hcase with ⟨-, -, rfl, rfl⟩ | ⟨-, later, hloop, rfl⟩
      · exact hsent
      · exact hsent.append (ih h₁ hrest hloop)

theorem sends_of_run [Sha256] {state : BootState} {audit : AuditLog} {outcome : Outcome}
    (hcaller : caller ∈ V.members) (hlocal : state.localId = caller)
    (hinbox : Hears V caller inbox)
    (hrun : state.runTopologyConsensus (V.peerSet caller) src dst inbox audit = some outcome) :
    Sends V caller outcome.sent := by
  rcases runTopologyConsensus_cases hrun with
    ⟨-, -, hsent⟩ | ⟨-, node, sent, rest, hcampaign, hcase⟩
  · rw [hsent]
    exact .nil
  rw [hlocal] at hcampaign
  have helected : Devoted V caller node ∧ Sends V caller sent ∧ Hears V caller rest := by
    obtain ⟨node₁, first, hstart, hcase⟩ := campaign_cases hcampaign
    obtain ⟨h₁, hfirst⟩ := Devoted.start hcaller hstart
    rcases hcase with ⟨-, rfl, rfl, rfl⟩ | ⟨-, later, hloop, rfl⟩
    · exact ⟨h₁, hfirst, hinbox⟩
    · obtain ⟨h₂, hlater, hheard⟩ := h₁.electionLoop hinbox hloop
      exact ⟨h₂, hfirst.append hlater, hheard⟩
  obtain ⟨hnode, hsent, hrest⟩ := helected
  rcases hcase with ⟨-, -, heq⟩ | ⟨-, replicated, node', later, hreplicate, -, heq, -⟩
  · rw [heq]
    exact hsent
  · rw [heq]
    apply hsent.append
    obtain ⟨proposed, node₁, first, hpropose, hcase⟩ := replicateEdge_cases hreplicate
    obtain ⟨h₁, hfirst⟩ := hnode.propose hcaller hpropose
    rcases hcase with ⟨-, -, -, -, rfl⟩ | ⟨-, -, -, -, rfl⟩ | ⟨-, -, done, later, hloop, -, rfl⟩
    · exact hfirst
    · exact hfirst
    · exact hfirst.append (h₁.replicationLoop hrest hloop)

end Calls

section Runs

variable [Sha256] {V : Membership} {boot : NodeId → BootState} {s s' : Deployment}
variable {allowed : Deployment → Event → Prop} {event : Event}

structure Orderly (V : Membership) (s : Deployment) : Prop where
  terms : ∀ j, (s.node j).currentTerm ≤ 1
  sent : ∀ packet ∈ s.sent, Plain V packet
  rounds : ∀ round ∈ s.rounds, round.caller ∈ V.members ∧ Hears V round.caller round.inbox

omit [Sha256] in
theorem pending_mem {position : Nat} {packet : Packet} (h : s.pending position = some packet) :
    packet ∈ s.sent :=
  List.mem_of_getElem? (Deployment.pending_eq_some.mp h).2

theorem sends_of_outcome {round : Round} {outcome : Outcome}
    (hrun : round.outcome V boot = some outcome) (hcaller : round.caller ∈ V.members)
    (hinbox : Hears V round.caller round.inbox) : Sends V round.caller outcome.sent :=
  sends_of_run hcaller rfl hinbox hrun

omit [Sha256] in
theorem Orderly.hearing {round : Round} {packet : Packet} (h : Orderly V s)
    (hround : round ∈ s.rounds) (hpacket : packet ∈ s.sent) (hdst : packet.dst = round.caller) :
    Hears V round.caller (round.hearing (packet.src, packet.msg)).inbox := by
  intro message hmem
  rcases List.mem_append.mp hmem with hold | hnew
  · exact (h.rounds round hround).2 message hold
  · rw [List.mem_singleton.mp hnew, ← hdst]
    exact h.sent packet hpacket

theorem Orderly.step (h : Orderly V s) (hrun : s.happen V boot event = some s') :
    Orderly V s' := by
  rcases Deployment.happen_cases hrun with
    ⟨position, packet, committed, node, out, -, hpending, hstep, rfl⟩ |
      ⟨caller, src, dst, audit, outcome, -, hcaller, hout, rfl⟩ |
      ⟨k, position, packet, old, before, outcome, -, hpending, hk, -, hdst, -, hout, rfl⟩ |
      ⟨k, old, outcome, -, hk, -, -, rfl⟩
  · have hplain := h.sent packet (pending_mem hpending)
    refine ⟨fun j => ?_, List.forall_mem_append.mpr ⟨h.sent, fun p hp => ?_⟩, h.rounds⟩
    · show (update s.node packet.dst node j).currentTerm ≤ 1
      rw [update_apply]
      split
      · exact step_term_le (h.terms _) hplain hstep
      · exact h.terms j
    · exact (step_answers (h.terms _) hplain hstep p hp).plain
  · refine ⟨h.terms, List.forall_mem_append.mpr ⟨h.sent, fun p hp => ?_⟩,
      List.forall_mem_append.mpr ⟨h.rounds, fun r hr => ?_⟩⟩
    · exact (sends_of_outcome hout hcaller .nil p hp).1
    · rw [List.mem_singleton.mp hr]
      exact ⟨hcaller, .nil⟩
  · have hmem := List.mem_of_getElem? hk
    have hcaller := (h.rounds old hmem).1
    have hears := h.hearing hmem (pending_mem hpending) hdst
    refine ⟨h.terms, List.forall_mem_append.mpr ⟨h.sent, fun p hp => ?_⟩, fun r hr => ?_⟩
    · exact ((sends_of_outcome hout hcaller hears).drop _ p hp).1
    · rcases List.mem_or_eq_of_mem_set hr with hold | rfl
      · exact h.rounds r hold
      · exact ⟨hcaller, hears⟩
  · refine ⟨h.terms, h.sent, fun r hr => ?_⟩
    rcases List.mem_or_eq_of_mem_set hr with hold | rfl
    · exact h.rounds r hold
    · exact h.rounds old (List.mem_of_getElem? hk)

theorem Orderly.reaches (hrun : Deployment.Reaches V boot allowed (Deployment.start V) s) :
    Orderly V s :=
  Deployment.reaches_keeps Orderly.step
    ⟨fun _ => Nat.zero_le 1, by simp [Deployment.start], by simp [Deployment.start]⟩ hrun

omit [Sha256] in
-- A packet that is pending was so before, or has just been sent.
theorem pending_cases {more : List Packet} {position : Nat} {packet : Packet}
    (h : s'.pending position = some packet) (hsent : s'.sent = s.sent ++ more)
    (hdelivered : s.delivered ⊆ s'.delivered) :
    s.pending position = some packet ∨ packet ∈ more := by
  obtain ⟨hnew, hget⟩ := Deployment.pending_eq_some.mp h
  rw [hsent] at hget
  rcases Nat.lt_or_ge position s.sent.length with hlt | hge
  · rw [List.getElem?_append_left hlt] at hget
    exact Or.inl (Deployment.pending_eq_some.mpr ⟨fun hmem => hnew (hdelivered hmem), hget⟩)
  · rw [List.getElem?_append_right hge] at hget
    exact Or.inr (List.mem_of_getElem? hget)

end Runs

end LuxKernel.Boot
