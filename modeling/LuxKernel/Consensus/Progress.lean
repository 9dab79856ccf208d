import LuxKernel.Consensus.NodeRuns
import LuxKernel.Consensus.Cluster
import Mathlib.Data.Prod.Lex
import Mathlib.Data.Finset.Max

namespace LuxKernel.Consensus

open Function Heapless Replication

namespace RaftNode

variable {node : RaftNode} {sender : NodeId}

-- A node that has not reached the term of a request votes for any log that is as good
-- as its own.
theorem step_grant {term lastLogIndex lastLogTerm : Nat} {candidateId : NodeId}
    (hterm : node.currentTerm < term)
    (hlog : node.logUpToDateFor lastLogIndex lastLogTerm = true) :
    node.step sender (.requestVote term candidateId lastLogIndex lastLogTerm) =
      some (none, { node.stepDown term with votedFor := some candidateId },
        [(sender, .requestVoteReply term true)]) := by
  rw [step_requestVote]
  refine ⟨rfl, ?_⟩
  have hup : (node.stepDown term).logUpToDateFor lastLogIndex lastLogTerm = true := hlog
  have hvote : (node.stepDown term).votedFor = none := rfl
  have hcurrent : (node.stepDown term).currentTerm = term := rfl
  simp only [onRequestVote, if_pos hterm, hup, hvote, hcurrent, Option.elim_none, ge_iff_le,
    Nat.le_refl, decide_true, Bool.and_self, if_true]

theorem step_counted (hrole : node.role = .candidate) (hvotes : node.votesGranted + 1 < 2 ^ 64) :
    node.step sender (.requestVoteReply node.currentTerm true) =
      some (none, if node.quorum ≤ node.votesGranted + 1
        then { node with votesGranted := node.votesGranted + 1 }.leading
        else { node with votesGranted := node.votesGranted + 1 }, []) := by
  have hadd : addU64 node.votesGranted 1 = some (node.votesGranted + 1) :=
    addU64_eq_some.mpr ⟨hvotes, rfl⟩
  have hguard : ¬(node.role ≠ .candidate ∨ node.currentTerm ≠ node.currentTerm) := by
    simp [hrole]
  rw [step_requestVoteReply]
  refine ⟨rfl, rfl, ?_⟩
  rw [onVoteReply, if_neg (Nat.lt_irrefl _), if_neg hguard]
  simp only [if_true, hadd, Option.bind_eq_bind, Option.bind_some, becomeLeader_eq]
  have hquorum : ({ node with votesGranted := node.votesGranted + 1 } : RaftNode).quorum =
      node.quorum := rfl
  rw [hquorum]
  by_cases hq : node.quorum ≤ node.votesGranted + 1
  · rw [if_pos hq, if_pos hq]
  · rw [if_neg hq, if_neg hq]
    rfl

theorem step_uncounted (hrole : node.role = .leader) :
    node.step sender (.requestVoteReply node.currentTerm true) = some (none, node, []) := by
  have hguard : node.role ≠ .candidate ∨ node.currentTerm ≠ node.currentTerm := by
    simp [hrole]
  rw [step_requestVoteReply]
  refine ⟨rfl, rfl, ?_⟩
  rw [onVoteReply, if_neg (Nat.lt_irrefl _), if_pos hguard]

theorem exists_startElection (h : node.currentTerm + 1 < 2 ^ 64) :
    ∃ node' sent, node.startElection = some (node', sent) := by
  have hne : node.startElection ≠ none := by
    rw [Ne, startElection_eq_none]
    omega
  obtain ⟨⟨node', sent⟩, hstart⟩ := Option.ne_none_iff_exists'.mp hne
  exact ⟨node', sent, hstart⟩

-- A leader that has heard nothing yet.
def FreshLeader (node : RaftNode) : Prop :=
  node.role = .leader ∧ ∀ k : Fin MAX_PEERS, k.val < node.peers.length →
    node.nextIndex k = node.log.lastIndex + 1 ∧ node.matchIndex k = 0

theorem freshLeader_leading (node : RaftNode) : node.leading.FreshLeader := by
  refine ⟨rfl, fun k hk => ⟨?_, ?_⟩⟩
  · exact if_pos hk
  · exact if_pos hk

end RaftNode

namespace Cluster

variable {V : Membership} {s s' : Cluster} {i j : NodeId}

-- A packet that can still be delivered.
def Pending (s : Cluster) (position : Nat) (packet : Packet) : Prop :=
  s.sent[position]? = some packet ∧ position ∉ s.delivered

-- Only packets that were sent have been delivered.
def Sane (s : Cluster) : Prop := ∀ position ∈ s.delivered, position < s.sent.length

theorem Sane.step (h : Sane s) (hs : Step V s s') : Sane s' := by
  obtain ⟨i, -, action, mid, node, out, hmove, rfl⟩ := hs.move
  intro position hmem
  have hlen : (mid.post i node out).sent.length = s.sent.length + out.length := by
    simp [post, hmove.mid_node.2]
  rw [hlen]
  cases hmove with
  | startElection | propose => exact Nat.lt_add_right _ (h position hmem)
  | deliver _ hsent =>
      rcases List.mem_cons.mp hmem with rfl | hold
      · exact Nat.lt_add_right _ (List.getElem?_eq_some_iff.mp hsent).1
      · exact Nat.lt_add_right _ (h position hold)

theorem Sane.reaches (h : Sane s) (hs : Reaches V s s') : Sane s' := by
  induction hs with
  | refl => exact h
  | tail _ hstep ih => exact ih.step hstep

theorem step_startElection (hi : i ∈ V.members) {node : RaftNode} {out : Sent}
    (h : (s.node i).startElection = some (node, out)) : Step V s (s.post i node out) :=
  ⟨.startElection i, by simp [act, hi, h]⟩

theorem step_propose (hi : i ∈ V.members) {src dst : NodeId} {result : Result Unit}
    {node : RaftNode} {out : Sent} (h : (s.node i).propose src dst = some (result, node, out)) :
    Step V s (s.post i node out) :=
  ⟨.propose i src dst, by simp [act, hi, h]⟩

theorem step_deliver (hj : j ∈ V.members) {position : Nat} {msg : RaftMessage}
    {committed : Option LogEntry} {node : RaftNode} {out : Sent}
    (hp : Pending s position ⟨i, j, msg⟩)
    (h : (s.node j).step i msg = some (committed, node, out)) :
    Step V s ((s.receive position).post j node out) :=
  ⟨.deliver position, by simp [act, hp.1, hp.2, hj, h]⟩

theorem Pending.post {position : Nat} {packet : Packet} (h : Pending s position packet)
    (node : RaftNode) (out : Sent) : Pending (s.post i node out) position packet := by
  refine ⟨?_, h.2⟩
  have hlt := (List.getElem?_eq_some_iff.mp h.1).1
  simpa [Cluster.post, List.getElem?_append_left hlt] using h.1

theorem Pending.receive {position other : Nat} {packet : Packet} (h : Pending s position packet)
    (hne : position ≠ other) : Pending (s.receive other) position packet :=
  ⟨h.1, fun hmem => (List.mem_cons.mp hmem).elim hne h.2⟩

-- The packets just posted, at the end of the mail.
theorem pending_post (h : Sane s) {node : RaftNode} {out : Sent} {k : Nat} {dst : NodeId}
    {msg : RaftMessage} (hk : out[k]? = some (dst, msg)) :
    Pending (s.post i node out) (s.sent.length + k) ⟨i, dst, msg⟩ := by
  refine ⟨?_, fun hmem => ?_⟩
  · simp only [Cluster.post, List.getElem?_append_right (Nat.le_add_right _ _),
      Nat.add_sub_cancel_left, List.getElem?_map, hk, Option.map_some]
  · have hlt := h _ hmem
    omega

-- A request is delivered, and the answer to it after that.
theorem roundTrip (hsane : Sane s) (hi : i ∈ V.members) (hj : j ∈ V.members) (hij : i ≠ j)
    {position : Nat} {request reply : RaftMessage} {node peer : RaftNode}
    {committed committed' : Option LogEntry} (hp : Pending s position ⟨i, j, request⟩)
    (hrequest : (s.node j).step i request = some (committed, peer, [(i, reply)]))
    (hreply : (s.node i).step j reply = some (committed', node, [])) :
    ∃ s', Reaches V s s' ∧ s'.node = update (update s.node j peer) i node ∧
      ∀ other packet, other ≠ position → Pending s other packet → Pending s' other packet := by
  let mid := (s.receive position).post j peer [(i, reply)]
  have hmid : Step V s mid := step_deliver hj hp hrequest
  have hlast : Pending mid s.sent.length ⟨j, i, reply⟩ := by
    refine ⟨by simp [mid, post, receive], fun hmem => ?_⟩
    have hlt := (List.getElem?_eq_some_iff.mp hp.1).1
    rcases List.mem_cons.mp hmem with heq | hold
    · omega
    · exact Nat.lt_irrefl _ (hsane _ hold)
  have hself : mid.node i = s.node i := post_node_of_ne _ peer _ hij
  have hnext : Step V mid ((mid.receive s.sent.length).post i node []) :=
    step_deliver hi hlast (by rw [hself]; exact hreply)
  refine ⟨_, (Relation.ReflTransGen.single hmid).tail hnext, rfl, ?_⟩
  intro other packet hne hpending
  have hlt := (List.getElem?_eq_some_iff.mp hpending.1).1
  exact (((hpending.receive hne).post peer _).receive (Nat.ne_of_lt hlt)).post node _

-- Member `i` has one request for each of its peers under way. If each round trip turns
-- `Q d` into `Q (d + 1)`, all of them lead to the last of these.
theorem exchange {Q : Nat → Cluster → Prop} {peers : List NodeId} {base : Nat}
    {msg : RaftMessage}
    (hround : ∀ d s j, peers[d]? = some j → Sane s → Q d s → Pending s (base + d) ⟨i, j, msg⟩ →
      ∃ s', Reaches V s s' ∧ Q (d + 1) s' ∧
        ∀ other packet, other ≠ base + d → Pending s other packet → Pending s' other packet)
    (hsane : Sane s) (hstart : Q 0 s)
    (hpending : ∀ k j, peers[k]? = some j → Pending s (base + k) ⟨i, j, msg⟩) :
    ∃ s', Reaches V s s' ∧ Q peers.length s' := by
  have hall : ∀ d, d ≤ peers.length → ∃ s', Reaches V s s' ∧ Q d s' ∧
      ∀ k j, d ≤ k → peers[k]? = some j → Pending s' (base + k) ⟨i, j, msg⟩ := by
    intro d
    induction d with
    | zero => exact fun _ => ⟨s, .refl, hstart, fun k j _ => hpending k j⟩
    | succ d ih =>
        intro hd
        obtain ⟨mid, hreach, hQ, hrest⟩ := ih (by omega)
        have hpeer : peers[d]? = some peers[d] := List.getElem?_eq_getElem hd
        obtain ⟨s', hstep, hQ', hkeep⟩ := hround d mid peers[d] hpeer (hsane.reaches hreach) hQ
          (hrest d peers[d] (Nat.le_refl d) hpeer)
        refine ⟨s', hreach.trans hstep, hQ', fun k j hk hj => ?_⟩
        exact hkeep _ _ (by omega) (hrest k j (by omega) hj)
  obtain ⟨s', hreach, hQ, -⟩ := hall peers.length (Nat.le_refl _)
  exact ⟨s', hreach, hQ⟩

-- A member stands again and again, and nobody hears of it.
theorem exists_raised (hi : i ∈ V.members) (k : Nat) (hk : (s.node i).currentTerm + k < 2 ^ 64) :
    ∃ s', Reaches V s s' ∧ (∀ j, j ≠ i → s'.node j = s.node j) ∧
      (s'.node i).currentTerm = (s.node i).currentTerm + k ∧
      (s'.node i).log = (s.node i).log ∧ (s'.node i).commitIndex = (s.node i).commitIndex := by
  induction k with
  | zero => exact ⟨s, .refl, fun _ _ => rfl, rfl, rfl, rfl⟩
  | succ k ih =>
      obtain ⟨mid, hreach, hothers, hterm, hkept⟩ := ih (by omega)
      have hroom : (mid.node i).currentTerm + 1 < 2 ^ 64 := by omega
      obtain ⟨node, out, hstart⟩ := RaftNode.exists_startElection hroom
      refine ⟨_, hreach.tail (step_startElection hi hstart), fun j hj => ?_, ?_⟩
      · rw [post_node_of_ne _ node out hj]
        exact hothers j hj
      · rw [post_node_self]
        rcases RaftNode.startElection_cases hstart with ⟨-, rfl, -⟩ | ⟨-, rfl, -⟩
        · exact ⟨congrArg Nat.succ hterm, hkept⟩
        · exact ⟨congrArg Nat.succ hterm, hkept⟩

-- The candidacy of `i` after the first `d` of its peers have answered.
structure Canvassed (V : Membership) (i : NodeId) (term : Nat) (before : NodeId → RaftNode)
    (peers : List NodeId) (d : Nat) (s : Cluster) : Prop where
  peers_eq : (s.node i).peers.toList = peers
  term_eq : (s.node i).currentTerm = term
  kept : ∀ j, (s.node j).log = (before j).log ∧ (s.node j).commitIndex = (before j).commitIndex
  office : ((s.node i).role = .candidate ∧ (s.node i).votesGranted = 1 + d ∧
    1 + d < (s.node i).quorum) ∨ (s.node i).FreshLeader
  terms : ∀ j ∈ V.members, (s.node j).currentTerm ≤ term
  waiting : ∀ k j, d ≤ k → peers[k]? = some j → (s.node j).currentTerm < term

theorem Canvassed.round {term d base : Nat} {before : NodeId → RaftNode}
    {peers : List NodeId} (h : Canvassed V i term before peers d s) (hsane : Sane s)
    (hi : i ∈ V.members) (hnodup : peers.Nodup) (hpeer : peers[d]? = some j)
    (hj : j ∈ V.members) (hji : j ≠ i)
    (hup : (before j).logUpToDateFor (before i).log.lastIndex (before i).log.lastTerm = true)
    (hp : Pending s (base + d)
      ⟨i, j, .requestVote term i (before i).log.lastIndex (before i).log.lastTerm⟩) :
    ∃ s', Reaches V s s' ∧ Canvassed V i term before peers (d + 1) s' ∧
      ∀ other packet, other ≠ base + d → Pending s other packet → Pending s' other packet := by
  have hup' :
      (s.node j).logUpToDateFor (before i).log.lastIndex (before i).log.lastTerm = true := by
    rw [RaftNode.logUpToDateFor, (h.kept j).1]
    exact hup
  have hgrant : (s.node j).step i
      (.requestVote term i (before i).log.lastIndex (before i).log.lastTerm) = _ :=
    RaftNode.step_grant (h.waiting d j (Nat.le_refl d) hpeer) hup'
  -- what the answer makes of the candidate
  obtain ⟨node, hcount, hpeers, hterm, hkept, hoffice⟩ : ∃ node,
      (s.node i).step j (.requestVoteReply term true) = some (none, node, []) ∧
      node.peers = (s.node i).peers ∧ node.currentTerm = (s.node i).currentTerm ∧
      (node.log = (s.node i).log ∧ node.commitIndex = (s.node i).commitIndex) ∧
      ((node.role = .candidate ∧ node.votesGranted = 1 + (d + 1) ∧ 1 + (d + 1) < node.quorum) ∨
        node.FreshLeader) := by
    rw [← h.term_eq]
    rcases h.office with ⟨hrole, hvotes, hlt⟩ | hfresh
    · have hcap : (s.node i).quorum ≤ 16 := (s.node i).quorum_le
      refine ⟨_, RaftNode.step_counted hrole (by omega), ?_⟩
      split
      · exact ⟨rfl, rfl, ⟨rfl, rfl⟩, Or.inr (RaftNode.freshLeader_leading _)⟩
      · rename_i hq
        refine ⟨rfl, rfl, ⟨rfl, rfl⟩, Or.inl ⟨hrole, ?_, ?_⟩⟩
        · exact (congrArg Nat.succ hvotes).trans (by omega)
        · show 1 + (d + 1) < (s.node i).quorum
          omega
    · exact ⟨_, RaftNode.step_uncounted hfresh.1, rfl, rfl, ⟨rfl, rfl⟩, Or.inr hfresh⟩
  obtain ⟨s', hreach, hnode, hkeep⟩ := roundTrip hsane hi hj hji.symm hp hgrant hcount
  have hself : s'.node i = node := by rw [hnode, update_self]
  have hvoter : s'.node j = { (s.node j).stepDown term with votedFor := some i } := by
    rw [hnode, update_of_ne hji, update_self]
  have hother : ∀ k, k ≠ i → k ≠ j → s'.node k = s.node k := by
    intro k hki hkj
    rw [hnode, update_of_ne hki, update_of_ne hkj]
  refine ⟨s', hreach, ⟨?_, ?_, fun k => ?_, ?_, fun k hk => ?_, fun k l hdk hl => ?_⟩, hkeep⟩
  · rw [hself, hpeers]
    exact h.peers_eq
  · rw [hself, hterm]
    exact h.term_eq
  · by_cases hki : k = i
    · rw [hki, hself, hkept.1, hkept.2]
      exact h.kept i
    · by_cases hkj : k = j
      · rw [hkj, hvoter]
        exact h.kept j
      · rw [hother k hki hkj]
        exact h.kept k
  · rw [hself]
    exact hoffice
  · by_cases hki : k = i
    · rw [hki, hself, hterm, h.term_eq]
    · by_cases hkj : k = j
      · rw [hkj, hvoter]
        exact Nat.le_refl _
      · rw [hother k hki hkj]
        exact h.terms k hk
  · -- a peer further down the list is neither the candidate nor the one just asked
    have hlj : l ≠ j := by
      rintro rfl
      have hlt := (List.getElem?_eq_some_iff.mp hpeer).1
      have := (List.getElem?_inj hlt hnodup).mp (hpeer.trans hl.symm)
      omega
    have hli : l ≠ i := by
      rintro rfl
      have := h.waiting k l (by omega) hl
      rw [h.term_eq] at this
      exact Nat.lt_irrefl _ this
    rw [hother l hli hlj]
    exact h.waiting k l (by omega) hl

-- What every reachable state has.
structure Ready (V : Membership) (s : Cluster) : Prop where
  sane : Sane s
  posted : Posted V s

theorem Ready.reaches (h : Ready V s) (hs : Reaches V s s') : Ready V s' := by
  refine ⟨h.sane.reaches hs, ?_⟩
  induction hs with
  | refl => exact h.posted
  | tail _ hstep ih => exact ih.step hstep

theorem Ready.start (V : Membership) : Ready V (start V) :=
  ⟨fun _ hmem => (List.not_mem_nil hmem).elim, Posted.start V⟩

theorem mem_of_peer (hi : i ∈ V.members) {k : Nat}
    (hpeer : (V.peerSet i).peers.toList[k]? = some j) : j ∈ V.members ∧ j ≠ i :=
  (V.mem_peers hi).mp (List.mem_of_getElem? hpeer)

-- A member that has reached everybody's term, and whose log is as good as anybody's,
-- wins the next election if its peers answer.
theorem exists_won (h : Ready V s) (hi : i ∈ V.members)
    (hterm : ∀ j ∈ V.members, (s.node j).currentTerm ≤ (s.node i).currentTerm)
    (hroom : (s.node i).currentTerm + 1 < 2 ^ 64)
    (hbest : ∀ j ∈ V.members, (s.node j).logUpToDateFor (s.node i).log.lastIndex
      (s.node i).log.lastTerm = true) :
    ∃ s', Reaches V s s' ∧ (s'.node i).FreshLeader ∧
      (s'.node i).currentTerm = (s.node i).currentTerm + 1 ∧
      (∀ j ∈ V.members, (s'.node j).currentTerm ≤ (s.node i).currentTerm + 1) ∧
      ∀ j, (s'.node j).log = (s.node j).log ∧
        (s'.node j).commitIndex = (s.node j).commitIndex := by
  obtain ⟨node, out, hstart⟩ := RaftNode.exists_startElection hroom
  let mid := s.post i node out
  have hmid : Reaches V s mid := .single (step_startElection hi hstart)
  have hother : ∀ j, j ≠ i → mid.node j = s.node j := fun j hj => post_node_of_ne s node out hj
  have hself : mid.node i = node := post_node_self ..
  have hpeers := h.posted.peers i
  rcases RaftNode.startElection_cases hstart with ⟨-, rfl, -⟩ | ⟨hne, rfl, rfl⟩
  · -- the only member
    refine ⟨mid, hmid, ?_, by rw [hself]; rfl, fun j hj => ?_, fun j => ?_⟩
    · rw [hself]
      exact RaftNode.freshLeader_leading _
    · by_cases hji : j = i
      · rw [hji, hself]
        exact Nat.le_refl _
      · rw [hother j hji]
        exact Nat.le_succ_of_le (hterm j hj)
    · by_cases hji : j = i
      · rw [hji, hself]
        exact ⟨rfl, rfl⟩
      · rw [hother j hji]
        exact ⟨rfl, rfl⟩
  · let peers := (V.peerSet i).peers.toList
    have hcanvassed : Canvassed V i ((s.node i).currentTerm + 1) s.node peers 0 mid := by
      refine ⟨?_, by rw [hself]; rfl, fun j => ?_, Or.inl ?_, fun j hj => ?_, fun k j _ hj => ?_⟩
      · rw [hself]
        exact congrArg HVec.toList hpeers
      · by_cases hji : j = i
        · rw [hji, hself]
          exact ⟨rfl, rfl⟩
        · rw [hother j hji]
          exact ⟨rfl, rfl⟩
      · rw [hself]
        refine ⟨rfl, rfl, ?_⟩
        have hpos := List.length_pos_iff.mpr hne
        show 1 < ((s.node i).peers.length + 1) / 2 + 1
        rw [HVec.length_eq]
        omega
      · by_cases hji : j = i
        · rw [hji, hself]
          exact Nat.le_refl _
        · rw [hother j hji]
          exact Nat.le_succ_of_le (hterm j hj)
      · obtain ⟨hmem, hji⟩ := mem_of_peer hi hj
        rw [hother j hji]
        exact Nat.lt_succ_of_le (hterm j hmem)
    have hposted : ∀ k j, peers[k]? = some j → Pending mid (s.sent.length + k) ⟨i, j,
        .requestVote ((s.node i).currentTerm + 1) i (s.node i).log.lastIndex
          (s.node i).log.lastTerm⟩ := by
      intro k j hpeer
      apply pending_post h.sane
      rw [List.getElem?_map, hpeers, hpeer, Option.map_some, h.posted.id i]
    obtain ⟨s', hreach, hQ⟩ := exchange
      (Q := Canvassed V i ((s.node i).currentTerm + 1) s.node peers)
      (fun d t j hpeer hsane hQ hpending => by
        obtain ⟨hmem, hji⟩ := mem_of_peer hi hpeer
        exact hQ.round hsane hi (V.nodup hi) hpeer hmem hji (hbest j hmem) hpending)
      (h.reaches hmid).sane hcanvassed hposted
    refine ⟨s', hmid.trans hreach, ?_, hQ.term_eq, hQ.terms, hQ.kept⟩
    rcases hQ.office with ⟨-, -, hlt⟩ | hfresh
    · -- all peers have answered, and they are enough
      rw [RaftNode.quorum, HVec.length_eq, hQ.peers_eq] at hlt
      omega
    · exact hfresh

-- The member with the best log.
theorem exists_best (hne : V.members.Nonempty) (s : Cluster) : ∃ i ∈ V.members,
    ∀ j ∈ V.members, (s.node j).logUpToDateFor (s.node i).log.lastIndex
      (s.node i).log.lastTerm = true := by
  obtain ⟨i, hi, hmax⟩ := Finset.exists_max_image V.members
    (fun j => toLex ((s.node j).log.lastTerm, (s.node j).log.lastIndex)) hne
  refine ⟨i, hi, fun j hj => ?_⟩
  have hle := Prod.Lex.toLex_le_toLex.mp (hmax j hj)
  simp only [RaftNode.logUpToDateFor, Bool.or_eq_true, Bool.and_eq_true, decide_eq_true_eq]
  rcases hle with hlt | ⟨heq, hle⟩
  · exact Or.inl hlt
  · exact Or.inr ⟨heq.symm, hle⟩

-- No member has a log or a term that could keep the best one from winning.
theorem exists_leader (h : Ready V s) (hne : V.members.Nonempty)
    (hroom : ∀ j ∈ V.members, (s.node j).currentTerm + 1 < 2 ^ 64) :
    ∃ s', ∃ i ∈ V.members, Reaches V s s' ∧ (s'.node i).FreshLeader ∧
      (∀ j ∈ V.members, (s.node j).currentTerm < (s'.node i).currentTerm ∧
        (s'.node j).currentTerm ≤ (s'.node i).currentTerm) ∧
      (∃ m ∈ V.members, (s'.node i).currentTerm = (s.node m).currentTerm + 1) ∧
      ∀ j, (s'.node j).log = (s.node j).log ∧
        (s'.node j).commitIndex = (s.node j).commitIndex := by
  obtain ⟨i, hi, hbest⟩ := exists_best hne s
  obtain ⟨m, hm, hmax⟩ := Finset.exists_max_image V.members (fun j => (s.node j).currentTerm) hne
  have hlimit := hroom m hm
  have hle := hmax i hi
  obtain ⟨mid, hreach, hothers, hterm, hlog, hcommit⟩ :=
    exists_raised (s := s) hi ((s.node m).currentTerm - (s.node i).currentTerm) (by omega)
  have hkept : ∀ j, (mid.node j).log = (s.node j).log ∧
      (mid.node j).commitIndex = (s.node j).commitIndex := by
    intro j
    by_cases hji : j = i
    · exact hji ▸ ⟨hlog, hcommit⟩
    · rw [hothers j hji]
      exact ⟨rfl, rfl⟩
  have htop : (mid.node i).currentTerm = (s.node m).currentTerm := by omega
  obtain ⟨s', hwin, hfresh, hnew, hterms, hsame⟩ := exists_won (h.reaches hreach) hi
    (fun j hj => by
      rw [htop]
      by_cases hji : j = i
      · rw [hji, htop]
      · rw [hothers j hji]
        exact hmax j hj)
    (by omega)
    (fun j hj => by
      rw [RaftNode.logUpToDateFor, (hkept j).1, (hkept i).1]
      exact hbest j hj)
  refine ⟨s', i, hi, hreach.trans hwin, hfresh, fun j hj => ⟨?_, ?_⟩, ⟨m, hm, ?_⟩, fun j => ?_⟩
  · have := hmax j hj
    omega
  · have := hterms j hj
    omega
  · omega
  · exact ⟨(hsame j).1.trans (hkept j).1, (hsame j).2.trans (hkept j).2⟩

-- No reachable state is a dead end: whatever was lost, and whoever leads or believes to
-- lead, some member can still win an election, in a term above all others.
theorem election_possible (V : Membership) (hne : V.members.Nonempty) {s : Cluster}
    (hs : Reaches V (start V) s)
    (hroom : ∀ j ∈ V.members, (s.node j).currentTerm + 1 < 2 ^ 64) :
    ∃ s', ∃ i ∈ V.members, Reaches V s s' ∧ (s'.node i).role = .leader ∧
      (∀ j ∈ V.members, (s.node j).currentTerm < (s'.node i).currentTerm) ∧
      ∀ j, (s'.node j).log = (s.node j).log := by
  obtain ⟨s', i, hi, hreach, hfresh, hterms, -, hkept⟩ :=
    exists_leader ((Ready.start V).reaches hs) hne hroom
  exact ⟨s', i, hi, hreach, hfresh.1, fun j hj => (hterms j hj).1, fun j => (hkept j).1⟩

-- Nodes 1 and 2 have both stood and voted for themselves.
theorem election_possible_split : ∃ s, Reaches trio (start trio) s ∧
    (s.node node1).votedFor = some node1 ∧ (s.node node2).votedFor = some node2 ∧
    ∃ s', ∃ i ∈ trio.members, Reaches trio s s' ∧ (s'.node i).role = .leader := by
  obtain ⟨s, hs, hvotes⟩ := exists_reaches (V := trio) (s := start trio)
    [.startElection node1, .startElection node2]
    (p := fun s => decide ((s.node node1).votedFor = some node1 ∧
      (s.node node2).votedFor = some node2 ∧
      ∀ j ∈ trio.members, (s.node j).currentTerm + 1 < 2 ^ 64)) (by decide +kernel)
  obtain ⟨hone, htwo, hroom⟩ := of_decide_eq_true hvotes
  obtain ⟨s', i, hi, hreach, hrole, -⟩ := election_possible trio ⟨node1, by decide⟩ hs hroom
  exact ⟨s, hs, hone, htwo, s', i, hi, hreach, hrole⟩

end Cluster

end LuxKernel.Consensus
