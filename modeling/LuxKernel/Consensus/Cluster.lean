import LuxKernel.Consensus.Transitions
import Mathlib.Data.Finset.Card
import Mathlib.Data.Finset.Dedup
import Mathlib.Logic.Relation

namespace LuxKernel.Consensus

open Function Heapless

namespace RaftNode

variable {node node' : RaftNode} {sender : NodeId} {sent : Sent} {committed : Option LogEntry}
variable {msg : RaftMessage}

-- What no method of a node changes, and that its term never falls.
structure Continues (node node' : RaftNode) : Prop where
  id : node'.id = node.id
  peers : node'.peers = node.peers
  term : node.currentTerm ≤ node'.currentTerm

theorem Continues.stepDown {term : Nat} (h : node.currentTerm ≤ term) :
    Continues node (node.stepDown term) := ⟨rfl, rfl, h⟩

theorem Continues.observe (node : RaftNode) (term : Nat) : Continues node (node.observe term) := by
  unfold RaftNode.observe
  split
  · exact .stepDown (by omega)
  · exact ⟨rfl, rfl, Nat.le_refl _⟩

theorem Continues.follow (node : RaftNode) (term : Nat) : Continues node (node.follow term) := by
  unfold RaftNode.follow
  split
  · exact .stepDown (by omega)
  · exact ⟨rfl, rfl, Nat.le_refl _⟩

theorem startElection_continues (h : node.startElection = some (node', sent)) :
    Continues node node' ∧ node'.currentTerm = node.currentTerm + 1 := by
  rcases startElection_cases h with ⟨-, rfl, -⟩ | ⟨-, rfl, -⟩ <;>
    exact ⟨⟨rfl, rfl, Nat.le_succ _⟩, rfl⟩

theorem propose_continues {src dst : NodeId} {result : Result Unit}
    (h : node.propose src dst = some (result, node', sent)) : Continues node node' := by
  rcases propose_cases h with ⟨-, -, rfl, -⟩ | ⟨-, -, -, rfl, -⟩ | ⟨-, -, log, -, hrest⟩
  · exact ⟨rfl, rfl, Nat.le_refl _⟩
  · exact ⟨rfl, rfl, Nat.le_refl _⟩
  · rcases hrest with ⟨-, -, rfl⟩ | ⟨-, rfl, -⟩ <;> exact ⟨rfl, rfl, Nat.le_refl _⟩

theorem step_continues (h : node.step sender msg = some (committed, node', sent)) :
    Continues node node' := by
  cases msg with
  | requestVote term candidateId lastLogIndex lastLogTerm =>
      obtain ⟨-, h⟩ := step_requestVote.mp h
      have hobs := Continues.observe node term
      rcases node.onRequestVote_cases sender term candidateId lastLogIndex lastLogTerm with
        ⟨-, -, -, heq⟩ | heq <;>
      · rw [heq, Prod.mk.injEq] at h
        rw [← h.1]
        exact ⟨hobs.id, hobs.peers, hobs.term⟩
  | requestVoteReply term voteGranted =>
      obtain ⟨-, -, hreply⟩ := step_requestVoteReply.mp h
      rcases onVoteReply_cases hreply with ⟨hlt, rfl⟩ | ⟨-, -, rfl⟩ | ⟨-, -, votes, -, hv⟩
      · exact .stepDown hlt.le
      · exact ⟨rfl, rfl, Nat.le_refl _⟩
      · rcases hv with ⟨-, rfl⟩ | ⟨-, rfl⟩ <;> exact ⟨rfl, rfl, Nat.le_refl _⟩
  | appendEntries term leaderId prevLogIndex prevLogTerm entries leaderCommit =>
      obtain ⟨-, happ⟩ := step_appendEntries.mp h
      have hfol := Continues.follow node term
      rcases onAppendEntries_cases happ with ⟨-, rfl, -⟩ | ⟨-, -, rfl, -⟩ | ⟨-, -, log, -, rfl, -⟩
      · exact ⟨rfl, rfl, Nat.le_refl _⟩
      · exact hfol
      · exact ⟨hfol.id, hfol.peers, hfol.term⟩
  | appendEntriesReply term success matchIndex =>
      obtain ⟨-, hreply⟩ := step_appendEntriesReply.mp h
      rcases onAeReply_cases hreply with ⟨hlt, -, rfl⟩ | ⟨-, -, -, rfl⟩ | ⟨-, -, i, -, hr⟩
      · exact .stepDown hlt.le
      · exact ⟨rfl, rfl, Nat.le_refl _⟩
      · rcases hr with ⟨-, -, rfl | rfl⟩ | ⟨-, -, rfl⟩ | ⟨-, n, -, -, -, -, -, rfl⟩ <;>
          exact ⟨rfl, rfl, Nat.le_refl _⟩

-- A node sends at most one answer, to the sender of the message, and it grants a
-- vote only in answer to a request of that term.
theorem step_sent (h : node.step sender msg = some (committed, node', sent)) {j : Nat}
    {peer : NodeId} {reply : RaftMessage} (hr : sent[j]? = some (peer, reply)) :
    j = 0 ∧ peer = sender ∧
      ((∃ term granted, reply = .requestVoteReply term granted ∧ (granted = true →
          ∃ candidateId lastLogIndex lastLogTerm,
            msg = .requestVote term candidateId lastLogIndex lastLogTerm)) ∨
        ∃ term success matchIndex, reply = .appendEntriesReply term success matchIndex) := by
  have hone : ∀ {only : NodeId × RaftMessage}, [only][j]? = some (peer, reply) →
      j = 0 ∧ only = (peer, reply) := by
    intro only ho
    cases j with
    | zero => exact ⟨rfl, by simpa using ho⟩
    | succ j => simp at ho
  cases msg with
  | requestVote term candidateId lastLogIndex lastLogTerm =>
      obtain ⟨-, h⟩ := step_requestVote.mp h
      rcases node.onRequestVote_cases sender term candidateId lastLogIndex lastLogTerm with
        ⟨-, -, -, heq⟩ | heq <;>
      · rw [heq, Prod.mk.injEq] at h
        rw [← h.2] at hr
        obtain ⟨hj, heq⟩ := hone hr
        rw [Prod.mk.injEq] at heq
        exact ⟨hj, heq.1.symm, Or.inl ⟨_, _, heq.2.symm, by simp⟩⟩
  | requestVoteReply term voteGranted =>
      obtain ⟨-, rfl, -⟩ := step_requestVoteReply.mp h
      cases hr
  | appendEntries term leaderId prevLogIndex prevLogTerm entries leaderCommit =>
      obtain ⟨-, happ⟩ := step_appendEntries.mp h
      rcases onAppendEntries_cases happ with ⟨-, -, rfl⟩ | ⟨-, -, -, rfl⟩ | ⟨-, -, log, -, -, rfl⟩ <;>
      · obtain ⟨hj, heq⟩ := hone hr
        rw [Prod.mk.injEq] at heq
        exact ⟨hj, heq.1.symm, Or.inr ⟨_, _, _, heq.2.symm⟩⟩
  | appendEntriesReply term success matchIndex =>
      obtain ⟨rfl, -⟩ := step_appendEntriesReply.mp h
      cases hr

theorem mem_flatten_sendAeTo {indices : List Nat} {batches : List Sent}
    {message : NodeId × RaftMessage} (h : indices.mapM node.sendAeTo = some batches)
    (hm : message ∈ batches.flatten) :
    ∃ idx batch, node.sendAeTo idx = some batch ∧ message ∈ batch := by
  obtain ⟨batch, hb, hmem⟩ := List.mem_flatten.mp hm
  clear hm
  induction indices generalizing batches with
  | nil =>
      simp only [List.mapM_nil, Option.pure_def, Option.some.injEq] at h
      rw [← h] at hb
      cases hb
  | cons idx rest ih =>
      rw [List.mapM_cons] at h
      obtain ⟨first, hfirst, h⟩ := Option.bind_eq_some_iff.mp h
      obtain ⟨others, hothers, h⟩ := Option.bind_eq_some_iff.mp h
      simp only [Option.pure_def, Option.some.injEq] at h
      rw [← h] at hb
      rcases List.mem_cons.mp hb with rfl | hb
      · exact ⟨idx, batch, hfirst, hmem⟩
      · exact ih hothers hb

theorem propose_sent {src dst : NodeId} {result : Result Unit}
    (h : node.propose src dst = some (result, node', sent)) {peer : NodeId} {msg : RaftMessage}
    (hm : (peer, msg) ∈ sent) :
    ∃ idx batch, node'.sendAeTo idx = some batch ∧ (peer, msg) ∈ batch := by
  rcases propose_cases h with ⟨-, -, -, rfl⟩ | ⟨-, -, -, -, rfl⟩ | ⟨-, -, log, -, hr⟩
  · cases hm
  · cases hm
  rcases hr with ⟨-, rfl, -⟩ | ⟨-, -, batches, hb, rfl⟩
  · cases hm
  · exact mem_flatten_sendAeTo hb hm

end RaftNode

-- A message on its way, with its true sender.
structure Packet where
  src : NodeId
  dst : NodeId
  msg : RaftMessage
deriving DecidableEq

-- A cluster, with the peer set of each member: all other members, in any order.
structure Membership where
  members : Finset NodeId
  peerSet : NodeId → PeerSet
  nodup : ∀ {i}, i ∈ members → (peerSet i).peers.toList.Nodup
  mem_peers : ∀ {i j}, i ∈ members → (j ∈ (peerSet i).peers.toList ↔ j ∈ members ∧ j ≠ i)

-- Any list of up to seventeen distinct nodes forms a cluster.
def Membership.ofList (ids : List NodeId) (hids : ids.Nodup) (hlen : ids.length ≤ MAX_PEERS + 1) :
    Membership where
  members := ids.toFinset
  peerSet i := ⟨⟨(ids.erase i).take MAX_PEERS, List.length_take_le _ _⟩⟩
  nodup _ := (hids.erase _).sublist (List.take_sublist _ _)
  mem_peers := by
    intro i j hi
    have hshort : (ids.erase i).length ≤ MAX_PEERS := by
      rw [List.length_erase_of_mem (List.mem_toFinset.mp hi)]
      omega
    dsimp only
    rw [List.take_of_length_le hshort, hids.mem_erase_iff, List.mem_toFinset]
    exact And.comm

def trio : Membership := .ofList [node1, node2, node3] (by decide) (by decide)

-- All packets ever sent, and the positions of those delivered so far. A packet
-- that is never delivered is lost, and the order of delivery is free.
structure Cluster where
  node : NodeId → RaftNode
  sent : List Packet
  delivered : List Nat

inductive Action where
  | startElection (id : NodeId)
  | propose (id src dst : NodeId)
  | deliver (position : Nat)
deriving DecidableEq

namespace Cluster

def start (V : Membership) : Cluster where
  node i := RaftNode.new i (V.peerSet i)
  sent := []
  delivered := []

-- A member has moved to a new state and handed messages to the transport.
def post (s : Cluster) (id : NodeId) (node : RaftNode) (out : Sent) : Cluster :=
  { s with
    node := update s.node id node
    sent := s.sent ++ out.map fun message => ⟨id, message.1, message.2⟩ }

def receive (s : Cluster) (position : Nat) : Cluster :=
  { s with delivered := position :: s.delivered }

-- `none` when the action is not possible: the node is no member, the packet
-- does not exist or was delivered before, or the process would abort.
def act (V : Membership) (s : Cluster) : Action → Option Cluster
  | .startElection id =>
      if id ∈ V.members then do
        let (node, out) ← (s.node id).startElection
        return s.post id node out
      else none
  | .propose id src dst =>
      if id ∈ V.members then do
        let (_, node, out) ← (s.node id).propose src dst
        return s.post id node out
      else none
  | .deliver position =>
      if position ∈ s.delivered then none
      else
        match s.sent[position]? with
        | none => none
        | some packet =>
            if packet.dst ∈ V.members then do
              let (_, node, out) ← (s.node packet.dst).step packet.src packet.msg
              return (s.receive position).post packet.dst node out
            else none

def Step (V : Membership) (s s' : Cluster) : Prop := ∃ action, s.act V action = some s'

abbrev Reaches (V : Membership) : Cluster → Cluster → Prop := Relation.ReflTransGen (Step V)

def runActions (V : Membership) (s : Cluster) (actions : List Action) : Option Cluster :=
  actions.foldlM (fun s action => s.act V action) s

variable {V : Membership} {s s' : Cluster} {i : NodeId} {action : Action}

theorem reaches_of_runActions {actions : List Action} (h : s.runActions V actions = some s') :
    Reaches V s s' := by
  induction actions generalizing s with
  | nil =>
      simp only [runActions, List.foldlM_nil, Option.pure_def, Option.some.injEq] at h
      rw [h]
  | cons action rest ih =>
      obtain ⟨s₁, h₁, h₂⟩ := Option.bind_eq_some_iff.mp h
      exact Relation.ReflTransGen.head ⟨action, h₁⟩ (ih h₂)

theorem exists_reaches (actions : List Action) {p : Cluster → Bool}
    (h : (s.runActions V actions).any p = true) : ∃ s', Reaches V s s' ∧ p s' = true := by
  obtain ⟨s', hs', hp⟩ := (Option.any_eq_true _ _).mp h
  exact ⟨s', reaches_of_runActions hs', hp⟩

-- How member `i` moves from `s` to the state `node`, sending `out`.
inductive Move (s : Cluster) (i : NodeId) : Action → Cluster → RaftNode → Sent → Prop
  | startElection {node out} (h : (s.node i).startElection = some (node, out)) :
      Move s i (.startElection i) s node out
  | propose {src dst result node out}
      (h : (s.node i).propose src dst = some (result, node, out)) :
      Move s i (.propose i src dst) s node out
  | deliver {position src msg committed node out} (hnew : position ∉ s.delivered)
      (hsent : s.sent[position]? = some ⟨src, i, msg⟩)
      (h : (s.node i).step src msg = some (committed, node, out)) :
      Move s i (.deliver position) (s.receive position) node out

theorem move_of_act (h : s.act V action = some s') : ∃ i ∈ V.members, ∃ mid node out,
    Move s i action mid node out ∧ s' = mid.post i node out := by
  cases action with
  | startElection id =>
      simp only [act] at h
      split at h
      · rename_i hid
        obtain ⟨⟨node, out⟩, hrun, h⟩ := Option.bind_eq_some_iff.mp h
        exact ⟨id, hid, s, node, out, .startElection hrun, (Option.some.inj h).symm⟩
      · cases h
  | propose id src dst =>
      simp only [act] at h
      split at h
      · rename_i hid
        obtain ⟨⟨result, node, out⟩, hrun, h⟩ := Option.bind_eq_some_iff.mp h
        exact ⟨id, hid, s, node, out, .propose hrun, (Option.some.inj h).symm⟩
      · cases h
  | deliver position =>
      simp only [act] at h
      split at h
      · cases h
      rename_i hnew
      split at h
      · cases h
      rename_i packet hsent
      split at h
      · rename_i hdst
        obtain ⟨⟨committed, node, out⟩, hrun, h⟩ := Option.bind_eq_some_iff.mp h
        exact ⟨packet.dst, hdst, _, node, out, .deliver hnew hsent hrun, (Option.some.inj h).symm⟩
      · cases h

theorem Step.move (h : Step V s s') : ∃ i ∈ V.members, ∃ action mid node out,
    Move s i action mid node out ∧ s' = mid.post i node out := by
  obtain ⟨action, h⟩ := h
  obtain ⟨i, hi, hmove⟩ := move_of_act h
  exact ⟨i, hi, action, hmove⟩

@[simp] theorem post_node_self (s : Cluster) (id : NodeId) (node : RaftNode) (out : Sent) :
    (s.post id node out).node id = node := update_self ..

theorem post_node_of_ne (s : Cluster) {id : NodeId} (node : RaftNode) (out : Sent)
    (h : i ≠ id) : (s.post id node out).node i = s.node i := update_of_ne h ..

theorem Move.mid_node {mid : Cluster} {node : RaftNode} {out : Sent} (h : Move s i action mid node out) :
    mid.node = s.node ∧ mid.sent = s.sent := by
  cases h <;> exact ⟨rfl, rfl⟩

theorem Move.delivered_subset {mid : Cluster} {node : RaftNode} {out : Sent}
    (h : Move s i action mid node out) : ∀ k ∈ s.delivered, k ∈ mid.delivered := by
  cases h with
  | startElection | propose => exact fun _ hk => hk
  | deliver => exact fun _ hk => List.mem_cons_of_mem _ hk

theorem Move.continues {mid : Cluster} {node : RaftNode} {out : Sent}
    (h : Move s i action mid node out) : RaftNode.Continues (s.node i) node := by
  cases h with
  | startElection h => exact (RaftNode.startElection_continues h).1
  | propose h => exact RaftNode.propose_continues h
  | deliver _ _ h => exact RaftNode.step_continues h

-- The packet at a position of the mail.
def Mail (s : Cluster) (k : Nat) (src dst : NodeId) (msg : RaftMessage) : Prop :=
  s.sent[k]? = some ⟨src, dst, msg⟩

-- A packet of the new state was there before or is one of those just sent.
theorem mail_post {k : Nat} {src dst : NodeId} {msg : RaftMessage} {node : RaftNode} {out : Sent}
    (h : (s.post i node out).Mail k src dst msg) :
    s.Mail k src dst msg ∨
      (s.sent.length ≤ k ∧ src = i ∧ out[k - s.sent.length]? = some (dst, msg)) := by
  unfold Mail at h ⊢
  by_cases hk : k < s.sent.length
  · left
    simpa [post, List.getElem?_append_left hk] using h
  · right
    simp only [post, List.getElem?_append_right (Nat.not_lt.mp hk), List.getElem?_map,
      Option.map_eq_some_iff, Packet.mk.injEq] at h
    obtain ⟨message, hm, rfl, rfl, rfl⟩ := h
    exact ⟨Nat.not_lt.mp hk, rfl, hm⟩

theorem Mail.post {k : Nat} {src dst : NodeId} {msg : RaftMessage} (node : RaftNode) (out : Sent)
    (h : s.Mail k src dst msg) : (s.post i node out).Mail k src dst msg := by
  have hk := (List.getElem?_eq_some_iff.mp h).1
  unfold Mail at h ⊢
  simpa [Cluster.post, List.getElem?_append_left hk] using h

theorem Move.mail {mid : Cluster} {node : RaftNode} {out : Sent} (h : Move s i action mid node out)
    {k : Nat} {src dst : NodeId} {msg : RaftMessage} :
    mid.Mail k src dst msg ↔ s.Mail k src dst msg := by
  unfold Mail
  rw [h.mid_node.2]

-- What a vote request among the new packets says.
theorem Move.out_request {mid : Cluster} {node : RaftNode} {out : Sent}
    (h : Move s i action mid node out) {j : Nat} {v id : NodeId} {t li lt : Nat}
    (ho : out[j]? = some (v, .requestVote t id li lt)) :
    t = (s.node i).currentTerm + 1 ∧ node.currentTerm = t ∧
      (s.node i).peers.toList[j]? = some v := by
  cases h with
  | startElection h =>
      have hterm := (RaftNode.startElection_continues h).2
      rcases RaftNode.startElection_cases h with ⟨-, -, rfl⟩ | ⟨-, -, rfl⟩
      · cases ho
      · rw [List.getElem?_map, Option.map_eq_some_iff] at ho
        obtain ⟨peer, hpeer, heq⟩ := ho
        simp only [Prod.mk.injEq, RaftMessage.requestVote.injEq] at heq
        obtain ⟨rfl, rfl, -⟩ := heq
        exact ⟨rfl, hterm, hpeer⟩
  | propose h =>
      obtain ⟨idx, batch, hsend, hm⟩ := RaftNode.propose_sent h (List.mem_of_getElem? ho)
      rcases RaftNode.sendAeTo_eq_some hsend with ⟨-, rfl⟩ | ⟨_, _, _, _, -, -, -, -, rfl⟩
      · cases hm
      · simp at hm
  | deliver _ _ h =>
      rcases (RaftNode.step_sent h ho).2.2 with ⟨_, _, heq, -⟩ | ⟨_, _, _, heq⟩ <;> cases heq

-- What a granted vote among the new packets says.
theorem Move.out_grant {mid : Cluster} {node : RaftNode} {out : Sent}
    (h : Move s i action mid node out) {j t : Nat} {c : NodeId}
    (ho : out[j]? = some (c, .requestVoteReply t true)) :
    j = 0 ∧ ∃ position, position ∉ s.delivered ∧ position ∈ mid.delivered ∧
      ∃ id li lt, s.Mail position c i (.requestVote t id li lt) := by
  cases h with
  | startElection h =>
      rcases RaftNode.startElection_cases h with ⟨-, -, rfl⟩ | ⟨-, -, rfl⟩
      · cases ho
      · simp at ho
  | propose h =>
      obtain ⟨idx, batch, hsend, hm⟩ := RaftNode.propose_sent h (List.mem_of_getElem? ho)
      rcases RaftNode.sendAeTo_eq_some hsend with ⟨-, rfl⟩ | ⟨_, _, _, _, -, -, -, -, rfl⟩
      · cases hm
      · simp at hm
  | @deliver position src msg _ _ _ hnew hsent h =>
      obtain ⟨hj, rfl, ⟨_, _, heq, hasked⟩ | ⟨_, _, _, heq⟩⟩ := RaftNode.step_sent h ho
      · simp only [RaftMessage.requestVoteReply.injEq] at heq
        obtain ⟨rfl, rfl⟩ := heq
        obtain ⟨id, li, lt, rfl⟩ := hasked rfl
        exact ⟨hj, position, hnew, List.mem_cons_self, id, li, lt, hsent⟩
      · cases heq

-- Facts about the mail that hold whatever the nodes decide. A candidate asks a
-- voter once in a term, and a voter grants its vote to a candidate once in a term
-- and only after it was asked.
structure Posted (V : Membership) (s : Cluster) : Prop where
  id : ∀ i, (s.node i).id = i
  peers : ∀ i, (s.node i).peers = (V.peerSet i).peers
  request_le : ∀ {k c v t id li lt}, s.Mail k c v (.requestVote t id li lt) →
    t ≤ (s.node c).currentTerm
  request_once : ∀ {k k' c v t id li lt id' li' lt'}, s.Mail k c v (.requestVote t id li lt) →
    s.Mail k' c v (.requestVote t id' li' lt') → k = k'
  grant_asked : ∀ {k c v t}, s.Mail k v c (.requestVoteReply t true) →
    ∃ j ∈ s.delivered, ∃ id li lt, s.Mail j c v (.requestVote t id li lt)
  grant_once : ∀ {k k' c v t}, s.Mail k v c (.requestVoteReply t true) →
    s.Mail k' v c (.requestVoteReply t true) → k = k'

theorem Posted.start (V : Membership) : Posted V (Cluster.start V) where
  id _ := rfl
  peers _ := rfl
  request_le h := by cases h
  request_once h := by cases h
  grant_asked h := by cases h
  grant_once h := by cases h

theorem Move.node_eq {mid : Cluster} {node : RaftNode} {out : Sent} (h : Move s i action mid node out)
    (c : NodeId) : (mid.post i node out).node c = if c = i then node else s.node c := by
  split
  · rename_i heq
    rw [heq, post_node_self]
  · rename_i hne
    rw [post_node_of_ne mid node out hne, h.mid_node.1]

theorem Move.term_le {mid : Cluster} {node : RaftNode} {out : Sent} (h : Move s i action mid node out)
    (c : NodeId) :
    (s.node c).currentTerm ≤ ((mid.post i node out).node c).currentTerm := by
  rw [h.node_eq]
  split
  · rename_i heq
    rw [heq]
    exact h.continues.term
  · exact Nat.le_refl _

-- A request just sent is for a term the sender has not asked about before.
theorem Posted.request_fresh (h : Posted V s) {mid : Cluster} {node : RaftNode} {out : Sent}
    (hmove : Move s i action mid node out) {v id id' : NodeId} {k j t li lt li' lt' : Nat}
    (hold : s.Mail k i v (.requestVote t id li lt)) :
    out[j]? ≠ some (v, .requestVote t id' li' lt') := by
  intro hnew
  have hle := h.request_le hold
  have hterm := (hmove.out_request hnew).1
  omega

-- A vote just granted answers a request that was delivered only now.
theorem Posted.grant_fresh (h : Posted V s) {mid : Cluster} {node : RaftNode} {out : Sent}
    (hmove : Move s i action mid node out) {c : NodeId} {k j t : Nat}
    (hold : s.Mail k i c (.requestVoteReply t true)) :
    out[j]? ≠ some (c, .requestVoteReply t true) := by
  intro hnew
  obtain ⟨-, position, hpos, -, id, li, lt, hreq⟩ := hmove.out_grant hnew
  obtain ⟨j', hj', id', li', lt', hreq'⟩ := h.grant_asked hold
  exact hpos (h.request_once hreq hreq' ▸ hj')

theorem Posted.step (h : Posted V s) (hs : Step V s s') : Posted V s' := by
  obtain ⟨i, hi, action, mid, node, out, hmove, rfl⟩ := hs.move
  have hcont := hmove.continues
  refine ⟨?_, ?_, ?_, ?_, ?_, ?_⟩
  · intro c
    rw [hmove.node_eq]
    split
    · rename_i heq
      rw [hcont.id, h.id, heq]
    · exact h.id c
  · intro c
    rw [hmove.node_eq]
    split
    · rename_i heq
      rw [hcont.peers, h.peers, heq]
    · exact h.peers c
  · intro k c v t id li lt hmail
    rcases mail_post hmail with hold | ⟨-, rfl, hnew⟩
    · exact (h.request_le (hmove.mail.mp hold)).trans (hmove.term_le c)
    · rw [post_node_self, (hmove.out_request hnew).2.1]
  · intro k k' c v t id li lt id' li' lt' hmail hmail'
    rcases mail_post hmail with hold | ⟨hk, rfl, hnew⟩ <;>
      rcases mail_post hmail' with hold' | ⟨hk', heq, hnew'⟩
    · exact h.request_once (hmove.mail.mp hold) (hmove.mail.mp hold')
    · subst heq
      exact absurd hnew' (h.request_fresh hmove (hmove.mail.mp hold))
    · exact absurd hnew (h.request_fresh hmove (hmove.mail.mp hold'))
    · have hnodup : (s.node c).peers.toList.Nodup := by
        rw [h.peers]
        exact V.nodup hi
      have hat := (hmove.out_request hnew).2.2
      have hat' := (hmove.out_request hnew').2.2
      have hlt := (List.getElem?_eq_some_iff.mp hat).1
      have := (List.getElem?_inj hlt hnodup).mp (hat.trans hat'.symm)
      omega
  · intro k c v t hmail
    rcases mail_post hmail with hold | ⟨-, rfl, hnew⟩
    · obtain ⟨j, hj, id, li, lt, hreq⟩ := h.grant_asked (hmove.mail.mp hold)
      exact ⟨j, hmove.delivered_subset j hj, id, li, lt, (hmove.mail.mpr hreq).post node out⟩
    · obtain ⟨-, position, -, hpos, id, li, lt, hreq⟩ := hmove.out_grant hnew
      exact ⟨position, hpos, id, li, lt, (hmove.mail.mpr hreq).post node out⟩
  · intro k k' c v t hmail hmail'
    rcases mail_post hmail with hold | ⟨hk, rfl, hnew⟩ <;>
      rcases mail_post hmail' with hold' | ⟨hk', heq, hnew'⟩
    · exact h.grant_once (hmove.mail.mp hold) (hmove.mail.mp hold')
    · subst heq
      exact absurd hnew' (h.grant_fresh hmove (hmove.mail.mp hold))
    · exact absurd hnew (h.grant_fresh hmove (hmove.mail.mp hold'))
    · have h0 := (hmove.out_grant hnew).1
      have h0' := (hmove.out_grant hnew').1
      omega

end Cluster

end LuxKernel.Consensus
