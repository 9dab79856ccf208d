import LuxKernel.Consensus.Decisions
import LuxKernel.Consensus.Provenance
import LuxKernel.Consensus.Votes

namespace LuxKernel.Consensus

open Function Heapless Replication Replication.Proto

-- The term of an append or of an acknowledgement.
def RaftMessage.appendTerm : RaftMessage → Option Nat
  | .appendEntries term _ _ _ _ _ => some term
  | .appendEntriesReply term true _ => some term
  | _ => none

namespace RaftNode

-- There is no snapshot and no compaction: a full log stays full.
theorem propose_of_full {node : RaftNode} (hrole : node.role = .leader)
    (hfull : LOG_CAPACITY ≤ node.log.toList.length) (src dst : NodeId) :
    node.propose src dst = some (.error (.quotaExceeded "raft log at capacity"), node, []) := by
  rw [propose, if_neg (not_not.mpr hrole), RaftLog.append_of_le hfull]

-- A step takes up an append or an acknowledgement only if it is of the node's own term.
theorem step_overtaken {node node' : RaftNode} {sender : NodeId} {msg : RaftMessage}
    {committed : Option LogEntry} {sent : Sent}
    (h : node.step sender msg = some (committed, node', sent))
    (hmsg : ∀ term ∈ msg.appendTerm, term < node.currentTerm) :
    node'.log = node.log ∧ node'.commitIndex = node.commitIndex ∧
      ∀ message ∈ sent, message.2.appendTerm = none := by
  cases msg with
  | requestVote term candidateId lastLogIndex lastLogTerm =>
      obtain ⟨-, hvote⟩ := step_requestVote.mp h
      rcases node.onRequestVote_cases sender term candidateId lastLogIndex lastLogTerm with
        ⟨-, -, -, heq⟩ | heq <;>
      · rw [heq, Prod.mk.injEq] at hvote
        rw [← hvote.1, ← hvote.2]
        refine ⟨node.observe_log term, node.observe_commitIndex term, fun message hmem => ?_⟩
        rw [List.mem_singleton.mp hmem]
        rfl
  | requestVoteReply term granted =>
      obtain ⟨-, rfl, hreply⟩ := step_requestVoteReply.mp h
      rcases onVoteReply_cases hreply with
        ⟨-, rfl⟩ | ⟨-, -, rfl⟩ | ⟨-, -, votes, -, ⟨-, rfl⟩ | ⟨-, rfl⟩⟩ <;>
        exact ⟨rfl, rfl, fun message hmem => by cases hmem⟩
  | appendEntries term leaderId prevLogIndex prevLogTerm entries leaderCommit =>
      have hlt : term < node.currentTerm := hmsg term rfl
      obtain ⟨-, happ⟩ := step_appendEntries.mp h
      rcases onAppendEntries_cases happ with ⟨-, rfl, rfl⟩ | ⟨hle, -⟩ | ⟨hle, -⟩
      · refine ⟨rfl, rfl, fun message hmem => ?_⟩
        rw [List.mem_singleton.mp hmem]
        rfl
      · omega
      · omega
  | appendEntriesReply term success matchIndex =>
      obtain ⟨rfl, hreply⟩ := step_appendEntriesReply.mp h
      have hnone : ∀ message ∈ ([] : Sent), message.2.appendTerm = none := by simp
      rcases onAeReply_cases hreply with
        ⟨-, -, rfl⟩ | ⟨-, -, -, rfl⟩ | ⟨-, hterm, i, -, ⟨-, -, rfl | rfl⟩ | ⟨rfl, -⟩ | ⟨rfl, -⟩⟩
      · exact ⟨rfl, rfl, hnone⟩
      · exact ⟨rfl, rfl, hnone⟩
      · exact ⟨rfl, rfl, hnone⟩
      · exact ⟨rfl, rfl, hnone⟩
      · exact absurd (hmsg term rfl) (by omega)
      · exact absurd (hmsg term rfl) (by omega)

end RaftNode

namespace Cluster

variable {V : Membership} {s s₁ s₂ : Cluster} {i j : NodeId}

-- What a leader has committed is chosen by the time it says so.
theorem Step.chosen {A₁ : Shadow} (hstep : Step V s s₁) (hA₁ : Tracks V s₁ A₁)
    (hi : i ∈ V.members) (hli : (s₁.node i).role = .leader)
    (hlt : (s.node i).commitIndex < (s₁.node i).commitIndex) :
    Chosen (Majority V) A₁ (s₁.node i).currentTerm (s₁.node i).commitIndex := by
  obtain ⟨m, hm, action, mid, node, out, hmove, rfl⟩ := hstep.move
  have hnode := hmove.node_eq i
  by_cases him : i = m
  · subst him
    rw [if_pos rfl] at hnode
    rw [hnode] at hlt hli
    obtain ⟨hat, hq⟩ := hmove.raised hli hlt
    rw [← hnode] at hat hq hlt hli
    exact hA₁.chosen hi hli (by omega) hat hq
  · rw [if_neg him] at hnode
    rw [hnode] at hlt
    exact absurd hlt (Nat.lt_irrefl _)

-- The committed part of a leader's log is at the start of the log of every later leader
-- whose term is not older, the same leader included.
theorem take_log_of_commit (hrun : Reaches V (start V) s) (hstep : Step V s s₁)
    (hlater : Reaches V s₁ s₂) (hi : i ∈ V.members) (hj : j ∈ V.members)
    (hli : (s₁.node i).role = .leader) (hlt : (s.node i).commitIndex < (s₁.node i).commitIndex)
    (hlj : (s₂.node j).role = .leader)
    (hterm : (s₁.node i).currentTerm ≤ (s₂.node j).currentTerm) :
    (s₁.node i).commitIndex ≤ (s₁.node i).log.toList.length ∧
      (s₂.node j).log.toList.take (s₁.node i).commitIndex =
        (s₁.node i).log.toList.take (s₁.node i).commitIndex := by
  obtain ⟨A, hA⟩ := exists_tracks hrun
  obtain ⟨A₁, -, hA₁⟩ := hA.step hstep
  obtain ⟨A₂, hsteps, hA₂⟩ := hA₁.reaches hlater
  have hgrows := (hA₁.sound.steps Majority.meet hsteps).2
  have hchosen := hstep.chosen hA₁ hi hli hlt
  have hn := hchosen.le_length
  rw [hA₁.leader_log hi hli, hA₂.leader_log hj hlj, ← hgrows.chronicle_take hn]
  refine ⟨hn, ?_⟩
  rcases Nat.lt_or_eq_of_le hterm with hnew | hsame
  · have hel : A₂.elected (s₂.node j).currentTerm ≠ none := by
      rw [(hA₂.mirrors hj).leader hlj]
      exact Option.some_ne_none j
    exact hA₂.sound.complete Majority.meet (hchosen.mono hgrows) hnew hel
  · rw [hsame]

-- A cluster decides at most 256 edges. When a leader has committed the last of them,
-- every later leader, except for those of older terms, holds the same log and turns
-- every proposal away.
theorem proposals_exhausted (V : Membership) (hrun : Reaches V (start V) s)
    (hstep : Step V s s₁) (hlater : Reaches V s₁ s₂) (hi : i ∈ V.members) (hj : j ∈ V.members)
    (hli : (s₁.node i).role = .leader)
    (hcommit : (s.node i).commitIndex < LOG_CAPACITY ∧ (s₁.node i).commitIndex = LOG_CAPACITY)
    (hlj : (s₂.node j).role = .leader)
    (hterm : (s₁.node i).currentTerm ≤ (s₂.node j).currentTerm) (src dst : NodeId) :
    (s₂.node j).log = (s₁.node i).log ∧
      (s₂.node j).propose src dst =
        some (.error (.quotaExceeded "raft log at capacity"), s₂.node j, []) := by
  obtain ⟨hlt, hcap⟩ := hcommit
  obtain ⟨hlen, htake⟩ := take_log_of_commit hrun hstep hlater hi hj hli (by omega) hlj hterm
  rw [hcap] at hlen htake
  have hmax₁ : (s₁.node i).log.toList.length ≤ LOG_CAPACITY := (s₁.node i).log.entries.length_le
  have hmax₂ : (s₂.node j).log.toList.length ≤ LOG_CAPACITY := (s₂.node j).log.entries.length_le
  rw [List.take_of_length_le hmax₁, List.take_of_length_le hmax₂] at htake
  refine ⟨congrArg RaftLog.mk (HVec.ext htake), RaftNode.propose_of_full hlj ?_ src dst⟩
  rw [htake]
  exact hlen

-- On the way from a state without a property to one with it there is a step that brings it.
theorem Reaches.exists_crossing {p : Cluster → Prop} (h : Reaches V s s₂) (hs : ¬p s)
    (hs₂ : p s₂) : ∃ a b, Reaches V s a ∧ Step V a b ∧ Reaches V b s₂ ∧ ¬p a ∧ p b := by
  induction h with
  | refl => exact absurd hs₂ hs
  | tail hreach hstep ih =>
      rename_i a b
      by_cases ha : p a
      · obtain ⟨c, d, hc, hcd, hd, hnot, hp⟩ := ih ha
        exact ⟨c, d, hc, hcd, hd.tail hstep, hnot, hp⟩
      · exact ⟨a, b, hreach, hstep, .refl, ha, hs₂⟩

-- Every cluster can get there.
theorem exists_exhausted (hne : V.members.Nonempty) :
    ∃ s s₁, ∃ i ∈ V.members, Reaches V (start V) s ∧ Step V s s₁ ∧
      (s₁.node i).role = .leader ∧ (s.node i).commitIndex < LOG_CAPACITY ∧
      (s₁.node i).commitIndex = LOG_CAPACITY ∧
      ∀ j ∈ V.members, (s₁.node j).currentTerm + 1 < 2 ^ 64 := by
  have hcap : LOG_CAPACITY = 256 := rfl
  obtain ⟨s₀, entries, hs₀, hagreed, hedges, hterms, -⟩ :=
    exists_agreed hne (List.replicate 255 (node1, node2)) (by rw [List.length_replicate]; omega)
  have hlen : entries.length = 255 := by
    rw [← List.length_map (fun e : LogEntry => (e.src, e.dst)), hedges, List.length_reverse,
      List.length_replicate]
  have hready := (Ready.start V).reaches hs₀
  simp only [List.length_replicate] at hterms
  obtain ⟨mid, i, hi, hmid, hfresh, hnew, ⟨m, hm, hterm⟩, hkept⟩ :=
    exists_leader hready hne fun j hj => by
      have := hterms j hj
      omega
  have hagreed' : Agreed V entries mid :=
    ⟨fun j hj => (hkept j).1 ▸ hagreed.log j hj, fun j hj => (hkept j).2 ▸ hagreed.commit j hj⟩
  obtain ⟨last, hlast, -, hrole, hcommit, hlate⟩ := exists_decided (hready.reaches hmid) hi hfresh
    hagreed' (fun j hj => (hnew j hj).2) (by omega) node1 node2
  have hbefore := hagreed'.commit i hi
  obtain ⟨a, b, ha, hab, hb, hless, hfull⟩ := hlast.exists_crossing
    (p := fun s => LOG_CAPACITY ≤ (s.node i).commitIndex) (by omega) (by omega)
  -- the leader has led its term from the election to the last entry
  have hled : (b.node i).role = .leader := by
    have hfirst := Reaches.tenure (ha.tail hab) i
    have hrest := hb.tenure i
    have hle := hfirst.term_le
    have hle' := hrest.term_le
    have htop := hlate i hi
    have hoffice := (hfirst.kept (by omega) (by rw [hfresh.1]; decide)).1
    exact ((hrest.kept (by omega) hoffice).2 hrole).1
  have hrun := (hs₀.trans hmid).trans ha
  have hwritten := (take_log_of_commit hrun hab .refl hi hi hled (by omega) hled (Nat.le_refl _)).1
  have hmax : (b.node i).log.toList.length ≤ LOG_CAPACITY := (b.node i).log.entries.length_le
  refine ⟨a, b, i, hi, hrun, hab, hled, by omega, by omega, fun j hj => ?_⟩
  have hsoon := (hb.tenure j).term_le
  have htop := hlate j hj
  have hfew := hterms m hm
  omega

-- Three members fill their logs. Whoever is elected then turns proposals away.
theorem proposals_exhausted_trio : ∃ s s₁ s₂, ∃ i ∈ trio.members, ∃ j ∈ trio.members,
    Reaches trio (start trio) s ∧ Step trio s s₁ ∧ Reaches trio s₁ s₂ ∧
    (s₁.node i).commitIndex = LOG_CAPACITY ∧
    (s₁.node i).currentTerm < (s₂.node j).currentTerm ∧
    (s₂.node j).propose node1 node1 =
      some (.error (.quotaExceeded "raft log at capacity"), s₂.node j, []) := by
  obtain ⟨s, s₁, i, hi, hrun, hstep, hli, hless, hfull, hroom⟩ :=
    exists_exhausted (V := trio) ⟨node1, by decide⟩
  obtain ⟨s₂, j, hj, hlater, hfresh, hnew, -⟩ :=
    exists_leader ((Ready.start trio).reaches (hrun.tail hstep)) ⟨node1, by decide⟩ hroom
  have hterm := (hnew i hi).1
  exact ⟨s, s₁, s₂, i, hi, j, hj, hrun, hstep, hlater, hfull, hterm,
    (proposals_exhausted trio hrun hstep hlater hi hj hli ⟨hless, hfull⟩ hfresh.1
      (Nat.le_of_lt hterm) node1 node1).2⟩

-- The members of `full` have no room left. Nobody else has a log as good as theirs, there
-- is no majority without one of them, and what was sent to extend a log comes too late.
structure Stalled (V : Membership) (full : Finset NodeId) (s : Cluster) : Prop where
  members : full ⊆ V.members
  blocking : V.members.card ≤ 2 * full.card
  logs : ∀ i ∈ full, LOG_CAPACITY ≤ (s.node i).log.toList.length
  behind : ∀ i ∈ full, ∀ j ∈ V.members, j ∉ full →
    (s.node i).logUpToDateFor (s.node j).log.lastIndex (s.node j).log.lastTerm = false
  idle : ∀ j ∈ V.members, j ∉ full → (s.node j).role = .follower
  overtaken : ∀ position packet, Pending s position packet →
    ∀ term ∈ packet.msg.appendTerm, term < (s.node packet.dst).currentTerm

-- What holds from the stalled state `s` on. Votes of `full` for the others date from before.
structure Frozen (V : Membership) (full : Finset NodeId) (s s₁ : Cluster) : Prop where
  kept : ∀ j, (s₁.node j).log = (s.node j).log ∧
    (s₁.node j).commitIndex = (s.node j).commitIndex
  terms : ∀ j, (s.node j).currentTerm ≤ (s₁.node j).currentTerm
  overtaken : ∀ position packet, Pending s₁ position packet →
    ∀ term ∈ packet.msg.appendTerm, term < (s₁.node packet.dst).currentTerm
  bids : ∀ {k c v t id li lt}, s₁.Mail k c v (.requestVote t id li lt) →
    (s.node c).currentTerm < t → li = (s.node c).log.lastIndex ∧ lt = (s.node c).log.lastTerm
  grants : ∀ {k v c t}, s₁.Mail k v c (.requestVoteReply t true) → v ∈ full → c ∉ full →
    t ≤ (s.node c).currentTerm
  office : ∀ j ∈ V.members, j ∉ full → (s₁.node j).role ≠ .leader ∧
    ((s₁.node j).role = .candidate → (s.node j).currentTerm < (s₁.node j).currentTerm)

theorem Stalled.frozen {full : Finset NodeId} (h : Stalled V full s) (hposted : Posted V s) :
    Frozen V full s s where
  kept _ := ⟨rfl, rfl⟩
  terms _ := Nat.le_refl _
  overtaken := h.overtaken
  bids hmail hlt := absurd hlt (Nat.not_lt.mpr (hposted.request_le hmail))
  grants hmail _ _ := by
    obtain ⟨_, -, _, _, _, hasked⟩ := hposted.grant_asked hmail
    exact hposted.request_le hasked
  office j hj hnot := by
    rw [h.idle j hj hnot]
    exact ⟨by decide, fun hcandidate => by cases hcandidate⟩

section Stalemate

variable {full : Finset NodeId} {action : Action} {mid : Cluster} {node : RaftNode} {out : Sent}

theorem Move.out_bid (h : Move s i action mid node out) {k t li lt : Nat} {v id : NodeId}
    (ho : out[k]? = some (v, .requestVote t id li lt)) :
    li = (s.node i).log.lastIndex ∧ lt = (s.node i).log.lastTerm := by
  cases h with
  | startElection h =>
      rcases RaftNode.startElection_cases h with ⟨-, -, rfl⟩ | ⟨-, -, rfl⟩
      · cases ho
      · rw [List.getElem?_map, Option.map_eq_some_iff] at ho
        obtain ⟨peer, -, heq⟩ := ho
        rw [Prod.mk.injEq, RaftMessage.requestVote.injEq] at heq
        exact ⟨heq.2.2.2.1.symm, heq.2.2.2.2.symm⟩
  | propose h =>
      obtain ⟨-, _, _, _, heq, -⟩ := RaftNode.propose_message h (List.mem_of_getElem? ho)
      cases heq
  | deliver _ _ h =>
      rcases (RaftNode.step_sent h ho).2.2 with ⟨_, _, heq, -⟩ | ⟨_, _, _, heq⟩ <;> cases heq

-- A vote goes to a candidate whose log, as it was at the request, is as good as the voter's.
theorem Move.out_vote (h : Move s i action mid node out) {k t : Nat} {c : NodeId}
    (ho : out[k]? = some (c, .requestVoteReply t true)) :
    ∃ position id li lt, s.Mail position c i (.requestVote t id li lt) ∧
      (s.node i).logUpToDateFor li lt = true := by
  cases h with
  | startElection h =>
      rcases RaftNode.startElection_cases h with ⟨-, -, rfl⟩ | ⟨-, -, rfl⟩
      · cases ho
      · simp at ho
  | propose h =>
      obtain ⟨-, _, _, _, heq, -⟩ := RaftNode.propose_message h (List.mem_of_getElem? ho)
      cases heq
  | @deliver position src msg _ _ _ _ hsent h =>
      obtain ⟨-, rfl, ⟨_, _, heq, hasked⟩ | ⟨_, _, _, heq⟩⟩ := RaftNode.step_sent h ho
      · obtain ⟨rfl, rfl⟩ := RaftMessage.requestVoteReply.inj heq
        obtain ⟨id, li, lt, rfl⟩ := hasked rfl
        refine ⟨position, id, li, lt, hsent, ?_⟩
        obtain ⟨-, hvote⟩ := RaftNode.step_requestVote.mp h
        rcases (s.node i).onRequestVote_cases c t id li lt with ⟨-, hup, -⟩ | hrefused
        · exact hup
        · rw [hrefused, Prod.mk.injEq] at hvote
          rw [← hvote.2] at ho
          simpa using List.mem_of_getElem? ho
      · cases heq

theorem card_supporters_le {t since : Nat} (hsub : full ⊆ V.members) (hnot : i ∉ full)
    (hgrants : ∀ {k v t}, s.Mail k v i (.requestVoteReply t true) → v ∈ full → t ≤ since)
    (ht : since < t) : (supporters V s i t).card + full.card ≤ V.members.card := by
  have hdisjoint : Disjoint (supporters V s i t) full := by
    apply Finset.disjoint_left.mpr
    intro v hv hfull
    obtain ⟨-, rfl | ⟨k, -, hmail⟩⟩ := mem_supporters.mp hv
    · exact hnot hfull
    · exact absurd (hgrants hmail hfull) (Nat.not_le.mpr ht)
  rw [← Finset.card_union_of_disjoint hdisjoint]
  exact Finset.card_le_card (Finset.union_subset (Finset.filter_subset _ _) hsub)

namespace Frozen

-- Without `full` there are too few votes.
theorem unelected (h : Frozen V full s s₁) (hstalled : Stalled V full s) {A : Shadow}
    (hA : Tracks V s₁ A) (hi : i ∈ V.members) (hnot : i ∉ full)
    (hrole : (s₁.node i).role = .candidate) {position : Nat} {src : NodeId} {granted : Bool}
    (hnew : position ∉ s₁.delivered)
    (hmail : s₁.Mail position src i (.requestVoteReply (s₁.node i).currentTerm granted)) :
    (s₁.node i).votesGranted + (if granted then 1 else 0) < (s₁.node i).quorum := by
  obtain ⟨-, -, hvotes⟩ := (hA.mirrors hi).candidate hrole
  have hterm := (h.office i hi hnot).2 hrole
  have hquorum : (s₁.node i).quorum = V.members.card / 2 + 1 := by
    rw [RaftNode.quorum, hA.posted.peers i, V.card_members hi]
    rfl
  have hblocking := hstalled.blocking
  rw [hquorum]
  cases granted with
  | false =>
      have hfew := card_supporters_le hstalled.members hnot
        (fun hmail hv => h.grants hmail hv hnot) hterm
      simp only [Bool.false_eq_true, if_false]
      omega
  | true =>
      let after := (s₁.receive position).post i (s₁.node i) []
      have hmore : (supporters V s₁ i (s₁.node i).currentTerm).card <
          (supporters V after i (s₁.node i).currentTerm).card := card_supporters_lt hA hnew hmail
      have hfew : (supporters V after i (s₁.node i).currentTerm).card + full.card ≤
          V.members.card := by
        refine card_supporters_le hstalled.members hnot (fun hm hv => ?_) hterm
        rcases mail_post hm with hold | ⟨-, -, hnone⟩
        · exact h.grants hold hv hnot
        · cases hnone
      simp only [if_true]
      omega

theorem move_office (h : Frozen V full s s₁) (hstalled : Stalled V full s) {A : Shadow}
    (hA : Tracks V s₁ A) (hi : i ∈ V.members) (hnot : i ∉ full)
    (hmove : Move s₁ i action mid node out) :
    node.role ≠ .leader ∧ (node.role = .candidate → (s.node i).currentTerm < node.currentTerm) := by
  obtain ⟨hlead, hcandidate⟩ := h.office i hi hnot
  have hterm := h.terms i
  cases hmove with
  | startElection hrun =>
      rcases RaftNode.startElection_cases hrun with ⟨hnil, -⟩ | ⟨-, rfl, -⟩
      · -- the only member is in `full`
        have hcard := V.card_members hi
        rw [hA.posted.peers i] at hnil
        rw [hnil] at hcard
        have hlt := Finset.card_lt_card
          ((Finset.ssubset_iff_of_subset hstalled.members).mpr ⟨i, hi, hnot⟩)
        have hblocking := hstalled.blocking
        simp only [List.length_nil] at hcard
        omega
      · refine ⟨by simp [RaftNode.standing], fun _ => ?_⟩
        exact Nat.lt_succ_of_le hterm
  | propose hrun =>
      rcases RaftNode.propose_cases hrun with ⟨-, -, rfl, -⟩ | ⟨hrole, -⟩ | ⟨hrole, -⟩
      · exact ⟨hlead, hcandidate⟩
      · exact absurd hrole hlead
      · exact absurd hrole hlead
  | @deliver position src msg _ _ _ hnew hsent hrun =>
      have hkept (hmsg : ∀ term granted, msg ≠ .requestVoteReply term granted) :
          node.role ≠ .leader ∧
            (node.role = .candidate → (s.node i).currentTerm < node.currentTerm) := by
        rcases RaftNode.step_keep hrun hmsg with hrole | ⟨hrole, hsame, -⟩
        · simp [hrole]
        · rw [hrole, hsame]
          exact ⟨hlead, hcandidate⟩
      cases msg with
      | requestVoteReply term granted =>
          obtain ⟨-, -, hreply⟩ := RaftNode.step_requestVoteReply.mp hrun
          rcases RaftNode.onVoteReply_cases hreply with
            ⟨-, rfl⟩ | ⟨-, -, rfl⟩ | ⟨hrole, rfl, votes, rfl, hcase⟩
          · simp [RaftNode.stepDown]
          · exact ⟨hlead, hcandidate⟩
          · have hfew := h.unelected hstalled hA hi hnot hrole hnew hsent
            rcases hcase with ⟨-, rfl⟩ | ⟨hwon, -⟩
            · exact ⟨hlead, hcandidate⟩
            · omega
      | requestVote | appendEntries | appendEntriesReply => exact hkept (by simp)

-- Whoever leads cannot write, and nobody can follow.
theorem move_kept (h : Frozen V full s s₁) (hstalled : Stalled V full s) (hi : i ∈ V.members)
    (hmove : Move s₁ i action mid node out) :
    node.log = (s₁.node i).log ∧ node.commitIndex = (s₁.node i).commitIndex ∧
      ∀ message ∈ out, message.2.appendTerm = none := by
  cases hmove with
  | startElection hrun =>
      rcases RaftNode.startElection_cases hrun with ⟨-, rfl, rfl⟩ | ⟨-, rfl, rfl⟩
      · exact ⟨rfl, rfl, by simp⟩
      · refine ⟨rfl, rfl, fun message hmem => ?_⟩
        obtain ⟨peer, -, rfl⟩ := List.mem_map.mp hmem
        rfl
  | propose hrun =>
      rcases RaftNode.propose_cases hrun with
        ⟨-, -, rfl, rfl⟩ | ⟨-, -, -, rfl, rfl⟩ | ⟨hrole, -, log, hlog, -⟩
      · exact ⟨rfl, rfl, by simp⟩
      · exact ⟨rfl, rfl, by simp⟩
      · by_cases hfull : i ∈ full
        · have hroom := log.entries.length_le
          have hlen := congrArg List.length hlog
          have hcap := hstalled.logs i hfull
          rw [← (h.kept i).1] at hcap
          rw [List.length_append, List.length_singleton] at hlen
          have hmax : log.toList.length ≤ LOG_CAPACITY := hroom
          omega
        · exact absurd hrole (h.office i hi hfull).1
  | deliver hnew hsent hrun => exact RaftNode.step_overtaken hrun (h.overtaken _ _ ⟨hsent, hnew⟩)

theorem step (h : Frozen V full s s₁) (hstalled : Stalled V full s) {A : Shadow}
    (hA : Tracks V s₁ A) (hstep : Step V s₁ s₂) : Frozen V full s s₂ := by
  obtain ⟨i, hi, action, mid, node, out, hmove, rfl⟩ := hstep.move
  obtain ⟨hlog, hcommit, hout⟩ := h.move_kept hstalled hi hmove
  have hmail {k : Nat} {src dst : NodeId} {msg : RaftMessage}
      (hm : (mid.post i node out).Mail k src dst msg) :
      s₁.Mail k src dst msg ∨ (src = i ∧ ∃ k : Nat, out[k]? = some (dst, msg)) := by
    rcases mail_post hm with hold | ⟨-, hsrc, hnew⟩
    · exact Or.inl (hmove.mail.mp hold)
    · exact Or.inr ⟨hsrc, _, hnew⟩
  refine ⟨fun j => ?_, fun j => (h.terms j).trans (hmove.term_le j), ?_, ?_, ?_, ?_⟩
  · rw [hmove.node_eq]
    split
    · rename_i heq
      rw [heq, hlog, hcommit]
      exact h.kept i
    · exact h.kept j
  · rintro position ⟨src, dst, msg⟩ ⟨hsent, hnew⟩ term hterm
    rcases hmail hsent with hold | ⟨-, k, hposted⟩
    · have hlt := h.overtaken position _
        ⟨hold, fun hmem => hnew (hmove.delivered_subset position hmem)⟩ term hterm
      exact hlt.trans_le (hmove.term_le dst)
    · rw [hout _ (List.mem_of_getElem? hposted)] at hterm
      cases hterm
  · intro k c v t id li lt hm hlt
    rcases hmail hm with hold | ⟨rfl, k, hposted⟩
    · exact h.bids hold hlt
    · rw [← (h.kept c).1]
      exact hmove.out_bid hposted
  · intro k v c t hm hv hc
    rcases hmail hm with hold | ⟨rfl, k, hposted⟩
    · exact h.grants hold hv hc
    · -- the candidate's log has not changed since its request
      obtain ⟨position, id, li, lt, hasked, hup⟩ := hmove.out_vote hposted
      by_contra hlater
      obtain ⟨rfl, rfl⟩ := h.bids hasked (Nat.not_le.mp hlater)
      have hbehind := hstalled.behind v hv c (hA.mail hasked).1 hc
      rw [RaftNode.logUpToDateFor, (h.kept v).1] at hup
      rw [RaftNode.logUpToDateFor, hup] at hbehind
      cases hbehind
  · intro j hj hnot
    rw [hmove.node_eq]
    split
    · rename_i heq
      subst heq
      exact h.move_office hstalled hA hj hnot hmove
    · exact h.office j hj hnot

theorem reaches (hrun : Reaches V (start V) s) (hstalled : Stalled V full s)
    (hlater : Reaches V s s₁) : Frozen V full s s₁ := by
  induction hlater with
  | refl =>
      obtain ⟨A, hA⟩ := exists_tracks hrun
      exact hstalled.frozen hA.posted
  | tail hreach hstep ih =>
      obtain ⟨A, hA⟩ := exists_tracks (hrun.trans hreach)
      exact ih.step hstalled hA hstep

end Frozen

end Stalemate

-- The log can be full of edges that are not committed. A leader sends its log only when it
-- proposes, and so nothing is decided any more, whoever is elected and whatever arrives.
theorem decisions_stall (V : Membership) (hrun : Reaches V (start V) s) {full : Finset NodeId}
    (hstalled : Stalled V full s) (hlater : Reaches V s s₁) (hj : j ∈ V.members)
    (src dst : NodeId) :
    (s₁.node j).log = (s.node j).log ∧ (s₁.node j).commitIndex = (s.node j).commitIndex ∧
      ∃ e, (s₁.node j).propose src dst = some (.error e, s₁.node j, []) := by
  have hfrozen := Frozen.reaches hrun hstalled hlater
  obtain ⟨hlog, hcommit⟩ := hfrozen.kept j
  refine ⟨hlog, hcommit, ?_⟩
  by_cases hrole : (s₁.node j).role = .leader
  · have hfull : j ∈ full := by
      by_contra hnot
      exact (hfrozen.office j hj hnot).1 hrole
    refine ⟨_, RaftNode.propose_of_full hrole ?_ src dst⟩
    rw [hlog]
    exact hstalled.logs j hfull
  · exact ⟨_, if_pos hrole⟩

def pair : Membership := .ofList [node1, node2] (by decide) (by decide)

-- `node1` fills its log while nothing reaches `node2`, and is elected again.
def pairStalls : List Action :=
  [.startElection node1, .deliver 0, .deliver 1] ++
    List.replicate 256 (.propose node1 node1 node2) ++
      [.startElection node2, .deliver 258, .startElection node1, .deliver 260, .deliver 261]

-- Two members get there without having decided anything.
theorem decisions_stall_pair : ∃ s, Reaches pair (start pair) s ∧
    (s.node node1).log.toList.length = LOG_CAPACITY ∧
    ∀ s₁, Reaches pair s s₁ → ∀ j ∈ pair.members, (s₁.node j).commitIndex = 0 ∧
      ∀ src dst, ∃ e, (s₁.node j).propose src dst = some (.error e, s₁.node j, []) := by
  obtain ⟨s, hrun, hp⟩ := exists_reaches pairStalls (V := pair) (s := start pair)
    (p := fun s => decide ((s.node node1).log.toList.length = LOG_CAPACITY ∧
      (s.node node1).logUpToDateFor (s.node node2).log.lastIndex (s.node node2).log.lastTerm =
        false ∧
      (s.node node2).role = .follower ∧
      (∀ j ∈ [node1, node2], (s.node j).commitIndex = 0) ∧
      ∀ packet ∈ s.sent, ∀ term ∈ packet.msg.appendTerm,
        term < (s.node packet.dst).currentTerm)) (by decide +kernel)
  rw [decide_eq_true_eq] at hp
  obtain ⟨hfull, hbehind, hrole, hzero, hlate⟩ := hp
  have hother : ∀ j ∈ pair.members, j ∉ ({node1} : Finset NodeId) → j = node2 := by decide
  have hstalled : Stalled pair {node1} s := by
    refine ⟨by decide, by decide, fun i hi => ?_, fun i hi j hj hnot => ?_, fun j hj hnot => ?_, ?_⟩
    · rw [Finset.mem_singleton.mp hi]
      exact Nat.le_of_eq hfull.symm
    · rw [Finset.mem_singleton.mp hi, hother j hj hnot]
      exact hbehind
    · rw [hother j hj hnot]
      exact hrole
    · exact fun position packet hpending => hlate packet (List.mem_of_getElem? hpending.1)
  refine ⟨s, hrun, hfull, fun s₁ hlater j hj => ⟨?_, fun src dst => ?_⟩⟩
  · rw [(decisions_stall pair hrun hstalled hlater hj node1 node2).2.1]
    exact hzero j (List.mem_toFinset.mp hj)
  · exact (decisions_stall pair hrun hstalled hlater hj src dst).2.2

end Cluster

end LuxKernel.Consensus
