import LuxKernel.Boot.Rounds
import LuxKernel.Consensus.NodeRuns

namespace LuxKernel.Boot

open Audit Consensus Function Heapless LuxKernel.Topology

-- A message that disturbs no call: it is of no later term, no other leader sends
-- it, and an acknowledgement names an index that a log can have.
def Quiet : RaftMessage → Prop
  | .requestVote term _ _ _ => term ≤ 1
  | .requestVoteReply term _ => term ≤ 1
  | .appendEntries term _ _ _ _ _ => term = 0
  | .appendEntriesReply term success matchIndex =>
      term ≤ 1 ∧ (success = true → 1 ≤ matchIndex ∧ matchIndex + 1 < 2 ^ 64)

instance : DecidablePred Quiet := fun msg => by
  cases msg <;> unfold Quiet <;> infer_instance

-- The votes that a call counts, whoever sends them.
def grants (inbox : Inbox) : Nat :=
  inbox.countP fun message => decide (message.2 = .requestVoteReply 1 true)

theorem grants_cons (message : NodeId × RaftMessage) (inbox : Inbox) :
    grants (message :: inbox) = grants [message] + grants inbox := by
  rw [← List.singleton_append, grants, List.countP_append, grants, grants]

section Election

variable {peerSet : PeerSet} {node : RaftNode} {votes : Nat} {inbox : Inbox}

-- The node of a call that has counted some votes, and not enough.
structure Polling (peerSet : PeerSet) (votes : Nat) (node : RaftNode) : Prop where
  campaigning : Campaigning peerSet node
  role : node.role = .candidate
  counted : node.votesGranted = 1 + votes
  short : votes < (peerSet.len + 1) / 2

theorem quorum_of_peers (h : node.peers = peerSet.peers) :
    node.quorum = (peerSet.len + 1) / 2 + 1 := by
  rw [RaftNode.quorum, h]
  rfl

theorem Polling.fresh (h : Polling peerSet votes node) :
    node.currentTerm = 1 ∧ node.log.toList = [] ∧ node.commitIndex = 0 :=
  h.campaigning.fresh (by rw [h.role]; decide)

theorem Polling.bounded (h : Polling peerSet votes node) : RaftNode.Bounded node where
  commitIndex := by
    rw [h.fresh.2.2]
    exact Nat.zero_le _
  votes _ := by
    have hquorum := quorum_of_peers h.campaigning.peers
    have hcounted := h.counted
    have hshort := h.short
    omega

theorem observe_of_le {term : Nat} (h : term ≤ node.currentTerm) : node.observe term = node := by
  rw [RaftNode.observe, if_neg (by omega)]

-- One message more, and the poll goes on or is won.
theorem Polling.step (h : Polling peerSet votes node) {message : NodeId × RaftMessage}
    (hquiet : Quiet message.2) :
    ∃ committed node' sent, node.step message.1 message.2 = some (committed, node', sent) ∧
      (Polling peerSet (votes + grants [message]) node' ∨
        ((peerSet.len + 1) / 2 ≤ votes + grants [message] ∧ node'.role = .leader ∧
          Campaigning peerSet node')) := by
  obtain ⟨sender, msg⟩ := message
  have hne : node.step sender msg ≠ none := by
    rw [Ne, RaftNode.step_eq_none h.bounded]
    cases msg with
    | appendEntriesReply term success matchIndex =>
        cases success <;> simp [RaftNode.Overflows, h.role]
    | _ => exact id
  obtain ⟨⟨committed, node', sent⟩, hstep⟩ := Option.ne_none_iff_exists'.mp hne
  have hterm := h.fresh.1
  have hcampaign := h.campaigning.step (by rw [h.role]; decide) hstep
  refine ⟨committed, node', sent, hstep, ?_⟩
  -- a message that is no vote for this call
  have hother (hgrant : msg ≠ .requestVoteReply 1 true) (hrole : node'.role = node.role)
      (hvotes : node'.votesGranted = node.votesGranted) :
      Polling peerSet (votes + grants [(sender, msg)]) node' := by
    have hzero : grants [(sender, msg)] = 0 := by simp [grants, hgrant]
    rw [hzero]
    exact ⟨hcampaign, hrole.trans h.role, hvotes.trans h.counted, h.short⟩
  cases msg with
  | requestVote term candidateId lastLogIndex lastLogTerm =>
      have hsame : node.observe term = node := observe_of_le (by rw [hterm]; exact hquiet)
      obtain ⟨-, hvote⟩ := RaftNode.step_requestVote.mp hstep
      rcases node.onRequestVote_cases sender term candidateId lastLogIndex lastLogTerm with
        ⟨-, -, -, heq⟩ | heq <;>
      · rw [heq, hsame, Prod.mk.injEq] at hvote
        refine Or.inl (hother (by simp) ?_ ?_) <;> rw [← hvote.1]
  | requestVoteReply term granted =>
      have hquiet : term ≤ 1 := hquiet
      obtain ⟨-, -, hreply⟩ := RaftNode.step_requestVoteReply.mp hstep
      rcases RaftNode.onVoteReply_cases hreply with
        ⟨hlater, -⟩ | ⟨-, hignored, rfl⟩ | ⟨-, hterm', total, htotal, hcase⟩
      · omega
      · refine Or.inl (hother ?_ rfl rfl)
        rintro heq
        obtain ⟨rfl, -⟩ := RaftMessage.requestVoteReply.inj heq
        rcases hignored with hrole | hne
        · exact hrole h.role
        · exact hne hterm.symm
      · have hcount : grants [(sender, .requestVoteReply term granted)] =
            if granted = true then 1 else 0 := by
          cases granted <;> simp [grants, hterm', hterm]
        have hquorum := quorum_of_peers h.campaigning.peers
        have hcounted := h.counted
        rcases hcase with ⟨hshort, rfl⟩ | ⟨hwon, rfl⟩
        · refine Or.inl ⟨hcampaign, h.role, ?_, ?_⟩
          · rw [hcount]
            dsimp only
            omega
          · rw [hcount]
            omega
        · refine Or.inr ⟨?_, rfl, hcampaign⟩
          rw [hcount]
          omega
  | appendEntries term leaderId prevLogIndex prevLogTerm entries leaderCommit =>
      have hquiet : term = 0 := hquiet
      obtain ⟨-, happ⟩ := RaftNode.step_appendEntries.mp hstep
      rcases RaftNode.onAppendEntries_cases happ with ⟨-, rfl, -⟩ | ⟨hle, -⟩ | ⟨hle, -⟩
      · exact Or.inl (hother (by simp) rfl rfl)
      · omega
      · omega
  | appendEntriesReply term success matchIndex =>
      obtain ⟨hquiet, -⟩ := hquiet
      obtain ⟨-, hreply⟩ := RaftNode.step_appendEntriesReply.mp hstep
      rcases RaftNode.onAeReply_cases hreply with ⟨hlater, -⟩ | ⟨-, -, -, rfl⟩ | ⟨hlead, -⟩
      · omega
      · exact Or.inl (hother (by simp) rfl rfl)
      · rw [h.role] at hlead
        cases hlead

-- The first loop ends at the vote that completes the majority, or with the inbox.
theorem Polling.electionLoop (h : Polling peerSet votes node)
    (hquiet : ∀ message ∈ inbox, Quiet message.2) :
    ∃ node' sent rest, electionLoop node inbox = some (node', sent, rest) ∧
      ((node'.role ≠ .leader ∧ votes + grants inbox < (peerSet.len + 1) / 2) ∨
        (node'.role = .leader ∧ Campaigning peerSet node' ∧
          (∃ heard, inbox = heard ++ rest ∧ (peerSet.len + 1) / 2 ≤ votes + grants heard) ∧
          ∀ enough replies, inbox = enough ++ replies →
            (peerSet.len + 1) / 2 ≤ votes + grants enough → replies <:+ rest)) := by
  have hshort := h.short
  induction inbox generalizing node votes with
  | nil => exact ⟨node, [], [], rfl, Or.inl ⟨by rw [h.role]; decide, hshort⟩⟩
  | cons message inbox ih =>
      obtain ⟨committed, node₁, first, hstep, hcase⟩ := h.step (hquiet message List.mem_cons_self)
      -- no split before the first message has enough votes
      have hlater {enough replies : Inbox} (heq : message :: inbox = enough ++ replies)
          (henough : (peerSet.len + 1) / 2 ≤ votes + grants enough) :
          ∃ rest, enough = message :: rest ∧ inbox = rest ++ replies := by
        rcases List.cons_eq_append_iff.mp heq with ⟨rfl, -⟩ | hcons
        · exact absurd henough (Nat.not_le.mpr hshort)
        · exact hcons
      rcases hcase with hpoll | ⟨hwon, hlead, hcampaign⟩
      · obtain ⟨node', later, rest, hloop, hcase⟩ :=
          ih hpoll (fun m hm => hquiet m (List.mem_cons_of_mem _ hm)) hpoll.short
        have hnot : node₁.isLeader = false := isLeader_eq_false.mpr (by rw [hpoll.role]; decide)
        refine ⟨node', first ++ later, rest, by simp [Boot.electionLoop, hstep, hnot, hloop], ?_⟩
        rcases hcase with ⟨hrole, hfew⟩ | ⟨hrole, hcampaign, ⟨heard, rfl, henough⟩, hleast⟩
        · refine Or.inl ⟨hrole, ?_⟩
          rw [grants_cons]
          omega
        · refine Or.inr ⟨hrole, hcampaign, ⟨message :: heard, rfl, ?_⟩, ?_⟩
          · rw [grants_cons]
            omega
          · intro enough replies heq hge
            obtain ⟨enough, rfl, htail⟩ := hlater heq hge
            rw [grants_cons] at hge
            exact hleast enough replies htail (by omega)
      · have hyes : node₁.isLeader = true := isLeader_iff.mpr hlead
        refine ⟨node₁, first, inbox, by simp [Boot.electionLoop, hstep, hyes], ?_⟩
        refine Or.inr ⟨hlead, hcampaign, ⟨[message], rfl, hwon⟩, fun enough replies heq hge => ?_⟩
        obtain ⟨enough, -, rfl⟩ := hlater heq hge
        exact List.suffix_append enough replies

-- The election of a call that nobody disturbs.
theorem campaign_quiet (localId : NodeId) (peerSet : PeerSet)
    (hquiet : ∀ message ∈ inbox, Quiet message.2) :
    ∃ node sent rest, campaign localId peerSet inbox = some (node, sent, rest) ∧
      ((node.role ≠ .leader ∧ grants inbox < (peerSet.len + 1) / 2) ∨
        (node.role = .leader ∧ Campaigning peerSet node ∧
          (∃ heard, inbox = heard ++ rest ∧ (peerSet.len + 1) / 2 ≤ grants heard) ∧
          ∀ enough replies, inbox = enough ++ replies →
            (peerSet.len + 1) / 2 ≤ grants enough → replies <:+ rest)) := by
  have hne : (RaftNode.new localId peerSet).startElection ≠ none := by
    have hterm : (RaftNode.new localId peerSet).currentTerm = 0 := rfl
    rw [Ne, RaftNode.startElection_eq_none]
    omega
  obtain ⟨⟨node, sent⟩, hstart⟩ := Option.ne_none_iff_exists'.mp hne
  have hcampaign := Campaigning.start hstart
  rcases RaftNode.startElection_cases hstart with ⟨hnil, rfl, rfl⟩ | ⟨hpeers, rfl, -⟩
  · have hlen : peerSet.len = 0 := List.length_eq_zero_iff.mpr hnil
    refine ⟨_, [], inbox, by rw [campaign, hstart]; rfl, Or.inr ⟨rfl, hcampaign, ⟨[], rfl, ?_⟩, ?_⟩⟩
    · rw [hlen]
      exact Nat.zero_le _
    · rintro enough replies rfl -
      exact List.suffix_append enough replies
  · have hpos : 0 < peerSet.len := List.length_pos_iff.mpr hpeers
    have hpoll : Polling peerSet 0 (RaftNode.new localId peerSet).standing :=
      ⟨hcampaign, rfl, rfl, by omega⟩
    obtain ⟨node', later, rest, hloop, hcase⟩ := hpoll.electionLoop hquiet
    simp only [Nat.zero_add] at hcase
    refine ⟨node', sent ++ later, rest, ?_, hcase⟩
    rw [campaign, hstart]
    simp only [Option.bind_eq_bind, Option.bind_some, hloop]
    rfl

end Election

section Acknowledgement

variable {peerSet : PeerSet} {src dst : NodeId} {node node' : RaftNode} {heard inbox : Inbox}

-- The leader of a call that has kept every acknowledgement, and has too few.
structure Collecting (peerSet : PeerSet) (src dst : NodeId) (heard : Inbox) (node : RaftNode) :
    Prop where
  leads : Leads peerSet src dst heard node
  kept : ∀ id ∈ peerSet.peers.toList, ∀ matchIndex,
    (id, .appendEntriesReply 1 true matchIndex) ∈ heard →
      ∃ k : Fin MAX_PEERS, node.peerIndex id = some k.val ∧ 1 ≤ node.matchIndex k
  short : node.ackCount 1 < node.quorum

theorem Collecting.bounded (h : Collecting peerSet src dst heard node) :
    RaftNode.Bounded node where
  commitIndex := by
    rw [h.leads.commit]
    exact Nat.zero_le _
  votes hr := by
    rw [h.leads.role] at hr
    cases hr

-- A message that the leader does not count.
theorem Collecting.hear (h : Collecting peerSet src dst heard node)
    (message : NodeId × RaftMessage)
    (hpeers : node'.peers = node.peers) (hrole : node'.role = node.role)
    (hterm : node'.currentTerm = node.currentTerm) (hlog : node'.log = node.log)
    (hcommit : node'.commitIndex = node.commitIndex) (hmatch : node'.matchIndex = node.matchIndex)
    (hnone : ∀ id ∈ peerSet.peers.toList, ∀ matchIndex,
      message ≠ (id, .appendEntriesReply 1 true matchIndex)) :
    Collecting peerSet src dst (message :: heard) node' where
  leads := h.leads.hear message hpeers hrole hterm hlog hcommit fun k => Or.inl (by rw [hmatch])
  kept id hid matchIndex hmem := by
    rcases List.mem_cons.mp hmem with heq | hold
    · exact absurd heq.symm (hnone id hid matchIndex)
    · obtain ⟨k, hk, hge⟩ := h.kept id hid matchIndex hold
      exact ⟨k, (peerIndex_congr hpeers id).trans hk, by rwa [hmatch]⟩
  short := by
    have hshort := h.short
    rw [RaftNode.ackCount_eq, RaftNode.ackSlots, RaftNode.quorum] at hshort ⊢
    rwa [hpeers, hmatch]

-- An acknowledgement from a peer is kept, and the first index goes through as soon
-- as there are enough.
theorem Collecting.acknowledge (h : Collecting peerSet src dst heard node) {sender : NodeId}
    {i : Fin MAX_PEERS} {matchIndex : Nat} {committed : Option LogEntry}
    (hi : node.peerIndex sender = some i.val) (hindex : 1 ≤ matchIndex)
    (hreply : node.onAeReply sender node.currentTerm true matchIndex = some (committed, node')) :
    committed.isSome = true ∨ (committed = none ∧ Collecting peerSet src dst
      ((sender, .appendEntriesReply node.currentTerm true matchIndex) :: heard) node') := by
  obtain ⟨n, rfl, hcase, hmax⟩ := RaftNode.onAeReply_success h.leads.role hi hreply
  rcases hcase with ⟨hn, hnone⟩ | ⟨hlt, hle, -, -, hentry⟩
  · right
    rw [h.leads.term]
    have hcommit := h.leads.commit
    have hslot (k : Fin MAX_PEERS) (hk : k = i ∨ 1 ≤ node.matchIndex k) :
        1 ≤ update node.matchIndex i matchIndex k := by
      rw [update_apply]
      split
      · exact hindex
      · exact hk.resolve_left ‹_›
    refine ⟨hnone, ?_, ?_, ?_⟩
    · refine h.leads.hear (sender, _) rfl rfl rfl rfl hn fun k => ?_
      by_cases hki : k = i
      · subst hki
        exact Or.inr ⟨matchIndex, update_self _ _ _, rfl, hi⟩
      · exact Or.inl (update_of_ne hki _ _)
    · intro id hid m hmem
      rcases List.mem_cons.mp hmem with heq | hold
      · obtain ⟨rfl, -⟩ := Prod.mk.inj heq
        exact ⟨i, hi, hslot i (Or.inl rfl)⟩
      · obtain ⟨k, hk, hge⟩ := h.kept id hid m hold
        exact ⟨k, hk, hslot k (Or.inr hge)⟩
    · apply Nat.lt_of_not_le
      intro hquorum
      have hlen : node.log.toList.length = 1 := by rw [h.leads.log]; rfl
      have hterm : node.log.termAt 1 = some node.currentTerm := by
        rw [RaftLog.termAt_succ, h.leads.log, h.leads.term]
        rfl
      have hone := hmax 1 (by omega) (by omega) hterm hquorum
      omega
  · left
    obtain ⟨m, rfl⟩ : ∃ m, n = m + 1 := ⟨n - 1, by omega⟩
    rw [hentry, RaftLog.get_succ, List.getElem?_eq_getElem (by omega)]
    rfl

-- One message more: the edge is committed, or the leader still waits.
theorem Collecting.step (h : Collecting peerSet src dst heard node)
    {message : NodeId × RaftMessage} (hquiet : Quiet message.2) :
    ∃ committed node' sent, node.step message.1 message.2 = some (committed, node', sent) ∧
      (committed.isSome = true ∨
        (committed = none ∧ Collecting peerSet src dst (message :: heard) node')) := by
  obtain ⟨sender, msg⟩ := message
  have hterm := h.leads.term
  have hne : node.step sender msg ≠ none := by
    rw [Ne, RaftNode.step_eq_none h.bounded]
    cases msg with
    | appendEntriesReply term success matchIndex =>
        cases success with
        | false => exact id
        | true =>
            rintro ⟨-, -, -, hbig⟩
            have hsmall := (hquiet.2 rfl).2
            omega
    | _ => exact id
  obtain ⟨⟨committed, node', sent⟩, hstep⟩ := Option.ne_none_iff_exists'.mp hne
  refine ⟨committed, node', sent, hstep, ?_⟩
  have hsame (hcommitted : committed = none) (heq : node' = node)
      (hnone : ∀ id ∈ peerSet.peers.toList, ∀ matchIndex,
        (sender, msg) ≠ (id, .appendEntriesReply 1 true matchIndex)) :
      committed = none ∧ Collecting peerSet src dst ((sender, msg) :: heard) node' := by
    rw [heq]
    exact ⟨hcommitted, h.hear (sender, msg) rfl rfl rfl rfl rfl rfl hnone⟩
  cases msg with
  | requestVote term candidateId lastLogIndex lastLogTerm =>
      have hobserve : node.observe term = node := observe_of_le (by rw [hterm]; exact hquiet)
      obtain ⟨rfl, hvote⟩ := RaftNode.step_requestVote.mp hstep
      refine Or.inr ⟨rfl, ?_⟩
      rcases node.onRequestVote_cases sender term candidateId lastLogIndex lastLogTerm with
        ⟨-, -, -, heq⟩ | heq <;>
      · rw [heq, hobserve, Prod.mk.injEq] at hvote
        rw [← hvote.1]
        exact h.hear _ rfl rfl rfl rfl rfl rfl (by simp)
  | requestVoteReply term granted =>
      have hquiet : term ≤ 1 := hquiet
      obtain ⟨hc, -, hreply⟩ := RaftNode.step_requestVoteReply.mp hstep
      rcases RaftNode.onVoteReply_cases hreply with ⟨hlater, -⟩ | ⟨-, -, heq⟩ | ⟨hcand, -⟩
      · omega
      · exact Or.inr (hsame hc heq (by simp))
      · rw [h.leads.role] at hcand
        cases hcand
  | appendEntries term leaderId prevLogIndex prevLogTerm entries leaderCommit =>
      have hquiet : term = 0 := hquiet
      obtain ⟨hc, happ⟩ := RaftNode.step_appendEntries.mp hstep
      rcases RaftNode.onAppendEntries_cases happ with ⟨-, heq, -⟩ | ⟨hle, -⟩ | ⟨hle, -⟩
      · exact Or.inr (hsame hc heq (by simp))
      · omega
      · omega
  | appendEntriesReply term success matchIndex =>
      obtain ⟨hquiet, hindex⟩ := hquiet
      obtain ⟨-, hreply⟩ := RaftNode.step_appendEntriesReply.mp hstep
      rcases RaftNode.onAeReply_cases hreply with
        ⟨hlater, -⟩ | ⟨-, hignored, hc, heq⟩ | ⟨-, rfl, i, hi, hcase⟩
      · omega
      · refine Or.inr (hsame hc heq ?_)
        rintro id hid m hmsg
        rw [Prod.mk.injEq, RaftMessage.appendEntriesReply.injEq] at hmsg
        obtain ⟨rfl, rfl, -⟩ := hmsg
        rcases hignored with hrole | hne | hpeer
        · exact hrole h.leads.role
        · exact hne hterm.symm
        · exact hpeer (by rwa [h.leads.peers])
      · have hpeer : sender ∈ peerSet.peers.toList := by
          rw [← h.leads.peers]
          exact List.mem_of_getElem? (RaftNode.peerIndex_eq_some hi).1
        cases success with
        | false =>
            rcases hcase with ⟨-, hc, hnode⟩ | ⟨hs, -⟩ | ⟨hs, -⟩
            · refine Or.inr ⟨hc, ?_⟩
              rcases hnode with rfl | rfl <;>
                exact h.hear _ rfl rfl rfl rfl rfl rfl (by simp)
            · cases hs
            · cases hs
        | true =>
            have hack := h.acknowledge hi (hindex rfl).1 hreply
            rwa [hterm] at hack ⊢

theorem Collecting.replicationLoop (h : Collecting peerSet src dst heard node)
    (hquiet : ∀ message ∈ inbox, Quiet message.2) :
    ∃ done node' sent, replicationLoop node inbox = some (done, node', sent) ∧
      (done = false → ∃ last, Collecting peerSet src dst (inbox.reverse ++ heard) last) := by
  induction inbox generalizing node heard with
  | nil => exact ⟨false, node, [], rfl, fun _ => ⟨node, h⟩⟩
  | cons message inbox ih =>
      obtain ⟨committed, node₁, first, hstep, hcase⟩ := h.step (hquiet message List.mem_cons_self)
      rcases hcase with hsome | ⟨rfl, h₁⟩
      · refine ⟨true, node₁, first, by simp [Boot.replicationLoop, hstep, hsome], ?_⟩
        intro hfalse
        cases hfalse
      · obtain ⟨done, node', later, hloop, hlast⟩ :=
          ih h₁ fun m hm => hquiet m (List.mem_cons_of_mem _ hm)
        refine ⟨done, node', first ++ later, by simp [Boot.replicationLoop, hstep, hloop], ?_⟩
        simpa using hlast

theorem Collecting.not_backed (h : Collecting peerSet src dst heard node) :
    ¬Backed peerSet heard := by
  rintro ⟨ids, hcard, hids⟩
  let peerAt : Fin MAX_PEERS → NodeId := fun k => (node.peers.toList[k.val]?).getD NodeId.MIN
  have hsub : ids ⊆ (node.ackSlots 1).image peerAt := by
    intro id hid
    obtain ⟨hpeer, m, -, hmem⟩ := hids id hid
    obtain ⟨k, hk, hge⟩ := h.kept id hpeer m hmem
    have hat : peerAt k = id := by
      simp only [peerAt, (RaftNode.peerIndex_eq_some hk).1, Option.getD_some]
    refine Finset.mem_image.mpr ⟨k, Finset.mem_filter.mpr ⟨Finset.mem_univ k, ?_, hge⟩, hat⟩
    exact RaftNode.peerIndex_lt hk
  have hle : ids.card ≤ (node.ackSlots 1).card :=
    (Finset.card_le_card hsub).trans Finset.card_image_le
  have hshort := h.short
  rw [RaftNode.ackCount_eq, quorum_of_peers h.leads.peers] at hshort
  omega

theorem Campaigning.collecting (h : Campaigning peerSet node) (hrole : node.role = .leader)
    (hpos : 0 < peerSet.len) {log : RaftLog LOG_CAPACITY}
    (hnew : log.toList = [⟨1, src, dst⟩]) :
    Collecting peerSet src dst [] { node with log := log } := by
  obtain ⟨hterm, -, hcommit⟩ := h.fresh (by rw [hrole]; decide)
  have hzero (k : Fin MAX_PEERS) (hk : k.val < peerSet.peers.toList.length) :
      ¬1 ≤ node.matchIndex k := by
    rw [h.unacknowledged hrole k hk]
    omega
  refine ⟨⟨hrole, h.peers, hterm, hnew, hcommit, fun k hk hge => absurd hge (hzero k hk)⟩,
    by simp, ?_⟩
  have hnone : ({ node with log := log } : RaftNode).ackSlots 1 = ∅ := by
    apply Finset.eq_empty_of_forall_notMem
    intro k hk
    obtain ⟨-, hlt, hge⟩ := Finset.mem_filter.mp hk
    exact hzero k (h.peers ▸ hlt) hge
  have hquorum : ({ node with log := log } : RaftNode).quorum = (peerSet.len + 1) / 2 + 1 :=
    quorum_of_peers h.peers
  rw [RaftNode.ackCount_eq, hnone, hquorum, Finset.card_empty]
  omega

-- The proposal of a leader that nobody disturbs.
theorem replicateEdge_quiet (src dst : NodeId) (h : Campaigning peerSet node)
    (hrole : node.role = .leader) (hquiet : ∀ message ∈ inbox, Quiet message.2) :
    ∃ done node' sent, replicateEdge node src dst inbox = some (.ok done, node', sent) ∧
      (done = true ↔ Backed peerSet inbox) := by
  suffices hdone : ∃ done node' sent,
      replicateEdge node src dst inbox = some (.ok done, node', sent) ∧
        (Backed peerSet inbox → done = true) by
    obtain ⟨done, node', sent, hrun, hback⟩ := hdone
    refine ⟨done, node', sent, hrun, fun htrue => ?_, hback⟩
    rw [htrue] at hrun
    rcases Nat.eq_zero_or_pos peerSet.len with hzero | hpos
    · exact ⟨∅, by omega, by simp⟩
    · exact (replicateEdge_spec h hrole hrun).1 hpos
  obtain ⟨hterm, hlog, hcommit⟩ := h.fresh (by rw [hrole]; decide)
  have hne : node.propose src dst ≠ none := RaftNode.propose_ne_none
  obtain ⟨⟨proposed, node₁, first⟩, hpropose⟩ := Option.ne_none_iff_exists'.mp hne
  rcases RaftNode.propose_cases hpropose with ⟨hn, -⟩ | ⟨-, hfull, -⟩ | ⟨-, rfl, log, hnew, hrest⟩
  · exact absurd hrole hn
  · rw [hlog] at hfull
    cases hfull
  rw [hlog, hterm, List.nil_append] at hnew
  rcases hrest with ⟨-, -, hnode⟩ | ⟨hpeers, hnode, -⟩
  · have hall : node₁.commitIndex ≥ node₁.logLen := by
      rw [hnode, RaftNode.logLen, RaftLog.lastIndex_eq, RaftLog.len_eq]
    refine ⟨true, node₁, first, ?_, fun _ => rfl⟩
    simp only [replicateEdge, hpropose, Option.bind_eq_bind, Option.bind_some, if_pos hall,
      Option.pure_def]
  · have hpos : 0 < peerSet.len := by
      rw [h.peers] at hpeers
      exact List.length_pos_iff.mpr hpeers
    obtain ⟨done, node', later, hloop, hlast⟩ :=
      (h.collecting hrole hpos hnew).replicationLoop hquiet
    have hlen : log.len = 1 := by rw [RaftLog.len_eq, hnew]; rfl
    have hwaits : ¬node₁.commitIndex ≥ node₁.logLen := by
      rw [hnode, RaftNode.logLen, hlen, hcommit]
      omega
    rw [← hnode] at hloop
    refine ⟨done, node', first ++ later, ?_, fun hback => ?_⟩
    · simp only [replicateEdge, hpropose, Option.bind_eq_bind, Option.bind_some, if_neg hwaits,
        hloop, Option.pure_def]
    · cases done with
      | true => rfl
      | false =>
          obtain ⟨last, hlast⟩ := hlast rfl
          exact absurd (hback.mono (by simp)) hlast.not_backed

end Acknowledgement

-- A call that nobody disturbs returns, and returns `Ok` exactly if the local graph
-- has the edge, the traversal can be recorded, and the inbox brings a majority of
-- votes and after it acknowledgements of a majority.
theorem consensus_reached_iff [Sha256] (state : BootState) (peerSet : PeerSet) (src dst : NodeId)
    (inbox : Inbox) (audit : AuditLog) (hquiet : ∀ message ∈ inbox, Quiet message.2) :
    ∃ outcome, state.runTopologyConsensus peerSet src dst inbox audit = some outcome ∧
      (outcome.result = .ok () ↔
        state.graph.traverseInner src dst = .ok () ∧ audit.isFull = false ∧
        ∃ votes replies, inbox = votes ++ replies ∧ (peerSet.len + 1) / 2 ≤ grants votes ∧
          Backed peerSet replies) := by
  obtain ⟨node, sent, rest, hcampaign, hcase⟩ :=
    campaign_quiet state.localId peerSet hquiet
  have hgate : (state.graph.traverse src dst audit).1 = .ok () ↔
      state.graph.traverseInner src dst = .ok () ∧ audit.isFull = false := gate_eq_ok
  rw [← and_assoc, ← hgate]
  unfold BootState.runTopologyConsensus
  generalize state.graph.traverse src dst audit = traversed
  obtain ⟨gate, audit₁⟩ := traversed
  cases gate with
  | error e => exact ⟨_, rfl, by simp⟩
  | ok =>
      simp only [hcampaign, Option.bind_eq_bind, Option.bind_some]
      rcases hcase with ⟨hrole, hfew⟩ | ⟨hrole, hcamp, ⟨heard, hheard, henough⟩, hleast⟩
      · rw [isLeader_eq_false.mpr hrole]
        refine ⟨_, rfl, by simp, ?_⟩
        rintro ⟨-, votes, replies, rfl, hvotes, -⟩
        have hmore : grants votes ≤ grants (votes ++ replies) :=
          List.Sublist.countP_le (List.sublist_append_left votes replies)
        omega
      · have hrest : ∀ message ∈ rest, Quiet message.2 := fun message hmem =>
          hquiet message (hheard ▸ List.mem_append_right heard hmem)
        obtain ⟨done, node', later, hreplicate, hdone⟩ :=
          replicateEdge_quiet src dst hcamp hrole hrest
        simp only [isLeader_iff.mpr hrole, Bool.true_eq_false, if_false, hreplicate,
          Option.bind_some]
        refine ⟨_, rfl, ?_⟩
        have hback : done = true ↔ ∃ votes replies, inbox = votes ++ replies ∧
            (peerSet.len + 1) / 2 ≤ grants votes ∧ Backed peerSet replies := by
          rw [hdone]
          refine ⟨fun hback => ⟨heard, rest, hheard, henough, hback⟩, ?_⟩
          rintro ⟨votes, replies, heq, hvotes, hback⟩
          exact hback.mono (hleast votes replies heq hvotes).subset
        cases done <;> simpa using hback

section Majority

attribute [local instance] Sha256.zero

-- One of two peers votes for the caller and stores the edge, the other refuses.
theorem consensus_reached_majority : ∃ outcome,
    (meshed node1).runTopologyConsensus (trio.peerSet node1) node1 node2
      [(node2, .requestVoteReply 1 true), (node3, .requestVoteReply 1 false),
        (node2, .appendEntriesReply 1 true 1)] .new = some outcome ∧ outcome.result = .ok () := by
  obtain ⟨outcome, hrun, hiff⟩ := consensus_reached_iff (meshed node1) (trio.peerSet node1)
    node1 node2 [(node2, .requestVoteReply 1 true), (node3, .requestVoteReply 1 false),
      (node2, .appendEntriesReply 1 true 1)] .new (by decide)
  refine ⟨outcome, hrun, hiff.mpr ⟨by decide +kernel, AuditLog.isFull_new,
    [(node2, .requestVoteReply 1 true)], _, rfl, by decide +kernel, {node2}, by decide +kernel, ?_⟩⟩
  intro id hid
  rw [Finset.mem_singleton.mp hid]
  exact ⟨by decide +kernel, 1, Nat.le_refl 1, by decide⟩

end Majority

end LuxKernel.Boot
