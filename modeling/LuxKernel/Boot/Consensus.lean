import LuxKernel.Boot.Initialise
import LuxKernel.Consensus.Cluster

namespace LuxKernel.Boot

open Audit Consensus Function Heapless LuxKernel.Topology

-- What `transport.recv` returns, one message after the other, until it returns
-- `None`. Neither loop calls it again after that.
abbrev Inbox := List (NodeId × RaftMessage)

-- The receive loop before the node is leader.
def electionLoop (node : RaftNode) : Inbox → Option (RaftNode × Sent × Inbox)
  | [] => some (node, [], [])
  | (sender, msg) :: inbox => do
      let (_, node, sent) ← node.step sender msg
      if node.isLeader then return (node, sent, inbox)
      else do
        let (node, later, inbox) ← electionLoop node inbox
        return (node, sent ++ later, inbox)

-- The receive loop after the proposal.
def replicationLoop (node : RaftNode) : Inbox → Option (Bool × RaftNode × Sent)
  | [] => some (false, node, [])
  | (sender, msg) :: inbox => do
      let (committed, node, sent) ← node.step sender msg
      if committed.isSome then return (true, node, sent)
      else do
        let (committed, node, later) ← replicationLoop node inbox
        return (committed, node, sent ++ later)

-- From `RaftNode::new` to the end of the first loop, with the messages not yet
-- received.
def campaign (localId : NodeId) (peerSet : PeerSet) (inbox : Inbox) :
    Option (RaftNode × Sent × Inbox) := do
  let (node, sent) ← (RaftNode.new localId peerSet).startElection
  if node.isLeader then return (node, sent, inbox)
  else do
    let (node, later, inbox) ← electionLoop node inbox
    return (node, sent ++ later, inbox)

-- From `propose` to the end of the second loop.
def replicateEdge (node : RaftNode) (src dst : NodeId) (inbox : Inbox) :
    Option (Result Bool × RaftNode × Sent) := do
  let (proposed, node, sent) ← node.propose src dst
  match proposed with
  | .error e => return (.error e, node, sent)
  | .ok () =>
      if node.commitIndex ≥ node.logLen then return (.ok true, node, sent)
      else do
        let (committed, node, later) ← replicationLoop node inbox
        return (.ok committed, node, sent ++ later)

-- What a call returns, writes and sends. Its node is dropped when it returns, and
-- is kept here for what it has committed.
structure Outcome where
  result : Result Unit
  audit : AuditLog
  sent : Sent
  node : Option RaftNode

def notReached : Option (DenialClass × String) := some (.halt, "topology consensus not reached")

def BootState.runTopologyConsensus [Sha256] (state : BootState) (peerSet : PeerSet)
    (src dst : NodeId) (inbox : Inbox) (audit : AuditLog) : Option Outcome :=
  let violation : Result Unit := .error (.topologyViolation src.get dst.get)
  match state.graph.traverse src dst audit with
  | (.error _, audit) => some ⟨violation, audit, [], none⟩
  | (.ok (), audit) => do
      let (node, sent, inbox) ← campaign state.localId peerSet inbox
      if node.isLeader = false then
        let (_, audit) := audit.append .topologyChange src.get UNTIMED notReached
        return ⟨violation, audit, sent, some node⟩
      else do
        let (replicated, node, later) ← replicateEdge node src dst inbox
        match replicated with
        | .error e => return ⟨.error e, audit, sent ++ later, some node⟩
        | .ok committed =>
            let denial := if committed then none else notReached
            let (_, audit) := audit.append .topologyChange src.get UNTIMED denial
            return ⟨if committed then .ok () else violation, audit, sent ++ later, some node⟩

section Campaign

variable {peerSet : PeerSet} {node node' : RaftNode} {inbox rest : Inbox} {sent : Sent}

theorem isLeader_iff : node.isLeader = true ↔ node.role = .leader := by
  rw [RaftNode.isLeader, decide_eq_true_eq]

theorem isLeader_eq_false : node.isLeader = false ↔ node.role ≠ .leader := by
  rw [RaftNode.isLeader, decide_eq_false_iff_not]

-- A node that has just become leader stops receiving.
private theorem leader_or_loop {first : Sent}
    (hrun : (if node.isLeader then pure (node, first, inbox) else do
      let (node, later, inbox) ← electionLoop node inbox
      return (node, first ++ later, inbox)) = some (node', sent, rest)) :
    (node.role = .leader ∧ node' = node ∧ sent = first ∧ rest = inbox) ∨
      (node.role ≠ .leader ∧ ∃ later, electionLoop node inbox = some (node', later, rest) ∧
        sent = first ++ later) := by
  cases hl : node.isLeader with
  | true =>
      simp only [hl, if_true, Option.pure_def, Option.some.injEq, Prod.mk.injEq] at hrun
      exact Or.inl ⟨isLeader_iff.mp hl, hrun.1.symm, hrun.2.1.symm, hrun.2.2.symm⟩
  | false =>
      simp only [hl, Bool.false_eq_true, if_false] at hrun
      obtain ⟨⟨node₂, later, rest₂⟩, hloop, hrun⟩ := Option.bind_eq_some_iff.mp hrun
      simp only [Option.pure_def, Option.some.injEq, Prod.mk.injEq] at hrun
      obtain ⟨rfl, rfl, rfl⟩ := hrun
      exact Or.inr ⟨isLeader_eq_false.mp hl, later, hloop, rfl⟩

theorem electionLoop_cons {sender : NodeId} {msg : RaftMessage}
    (hrun : electionLoop node ((sender, msg) :: inbox) = some (node', sent, rest)) :
    ∃ committed node₁ first, node.step sender msg = some (committed, node₁, first) ∧
      ((node₁.role = .leader ∧ node' = node₁ ∧ sent = first ∧ rest = inbox) ∨
        (node₁.role ≠ .leader ∧ ∃ later, electionLoop node₁ inbox = some (node', later, rest) ∧
          sent = first ++ later)) := by
  obtain ⟨⟨committed, node₁, first⟩, hstep, hrun⟩ := Option.bind_eq_some_iff.mp hrun
  exact ⟨committed, node₁, first, hstep, leader_or_loop hrun⟩

theorem campaign_cases {localId : NodeId}
    (hrun : campaign localId peerSet inbox = some (node, sent, rest)) :
    ∃ node₁ first, (RaftNode.new localId peerSet).startElection = some (node₁, first) ∧
      ((node₁.role = .leader ∧ node = node₁ ∧ sent = first ∧ rest = inbox) ∨
        (node₁.role ≠ .leader ∧ ∃ later, electionLoop node₁ inbox = some (node, later, rest) ∧
          sent = first ++ later)) := by
  obtain ⟨⟨node₁, first⟩, hstart, hrun⟩ := Option.bind_eq_some_iff.mp hrun
  exact ⟨node₁, first, hstart, leader_or_loop hrun⟩

-- The node of a call before it proposes. Whatever it has taken from others, it has
-- become a follower then, and it will not stand again.
structure Campaigning (peerSet : PeerSet) (node : RaftNode) : Prop where
  peers : node.peers = peerSet.peers
  fresh : node.role ≠ .follower →
    node.currentTerm = 1 ∧ node.log.toList = [] ∧ node.commitIndex = 0
  unacknowledged : node.role = .leader → ∀ k : Fin MAX_PEERS,
    k.val < peerSet.peers.toList.length → node.matchIndex k = 0

theorem Campaigning.start {localId : NodeId}
    (h : (RaftNode.new localId peerSet).startElection = some (node, sent)) :
    Campaigning peerSet node := by
  rcases RaftNode.startElection_cases h with ⟨-, rfl, -⟩ | ⟨-, rfl, -⟩
  · refine ⟨rfl, fun _ => ⟨rfl, rfl, rfl⟩, fun _ k hk => ?_⟩
    exact if_pos hk
  · exact ⟨rfl, fun _ => ⟨rfl, rfl, rfl⟩, fun hr => by cases hr⟩

theorem Campaigning.step (h : Campaigning peerSet node) (hr : node.role ≠ .leader)
    {sender : NodeId} {msg : RaftMessage} {committed : Option LogEntry}
    (hstep : node.step sender msg = some (committed, node', sent)) : Campaigning peerSet node' := by
  have hpeers := (RaftNode.step_continues hstep).peers.trans h.peers
  rcases RaftNode.step_effect hstep with
    ⟨-, hf⟩ | ⟨-, hrole, hterm, hlog, hcommit, -⟩ | ⟨-, hcand, votes, rfl⟩ | ⟨hlead, -⟩
  · exact ⟨hpeers, fun hn => absurd hf hn, fun hl => by rw [hf] at hl; cases hl⟩
  · refine ⟨hpeers, fun hn => ?_, fun hl => absurd (hrole ▸ hl) hr⟩
    rw [hterm, hlog, hcommit]
    exact h.fresh (hrole ▸ hn)
  · refine ⟨hpeers, fun _ => h.fresh (by rw [hcand]; decide), fun _ k hk => ?_⟩
    rw [← h.peers] at hk
    exact if_pos hk
  · exact absurd hlead hr

theorem Campaigning.electionLoop (h : Campaigning peerSet node) (hr : node.role ≠ .leader)
    (hrun : electionLoop node inbox = some (node', sent, rest)) :
    Campaigning peerSet node' ∧ rest <:+ inbox := by
  induction inbox generalizing node sent with
  | nil =>
      cases hrun
      exact ⟨h, List.suffix_refl _⟩
  | cons first inbox ih =>
      obtain ⟨committed, node₁, sent₁, hstep, hcase⟩ := electionLoop_cons hrun
      have h₁ := h.step hr hstep
      rcases hcase with ⟨-, rfl, -, rfl⟩ | ⟨hr₁, later, hloop, -⟩
      · exact ⟨h₁, List.suffix_cons _ _⟩
      · obtain ⟨h₂, hsuffix⟩ := ih h₁ hr₁ hloop
        exact ⟨h₂, hsuffix.trans (List.suffix_cons _ _)⟩

theorem campaign_spec {localId : NodeId}
    (hrun : campaign localId peerSet inbox = some (node, sent, rest)) :
    Campaigning peerSet node ∧ rest <:+ inbox := by
  obtain ⟨node₁, first, hstart, hcase⟩ := campaign_cases hrun
  have h₁ := Campaigning.start hstart
  rcases hcase with ⟨-, rfl, -, rfl⟩ | ⟨hr₁, later, hloop, -⟩
  · exact ⟨h₁, List.suffix_refl _⟩
  · exact h₁.electionLoop hr₁ hloop

end Campaign

section Replication

variable {peerSet : PeerSet} {src dst : NodeId} {node node' : RaftNode} {heard inbox : Inbox}
variable {sent : Sent}

-- Enough distinct peers have acknowledged the proposal.
def Backed (peerSet : PeerSet) (replies : Inbox) : Prop :=
  ∃ ids : Finset NodeId, (peerSet.len + 1) / 2 ≤ ids.card ∧ ∀ id ∈ ids,
    id ∈ peerSet.peers.toList ∧
      ∃ matchIndex, 1 ≤ matchIndex ∧ (id, .appendEntriesReply 1 true matchIndex) ∈ replies

-- The node of a call while it waits for acknowledgements. A slot is filled only by
-- the first peer at its position, so distinct slots stand for distinct peers.
structure Leads (peerSet : PeerSet) (src dst : NodeId) (heard : Inbox) (node : RaftNode) :
    Prop where
  role : node.role = .leader
  peers : node.peers = peerSet.peers
  term : node.currentTerm = 1
  log : node.log.toList = [⟨1, src, dst⟩]
  commit : node.commitIndex = 0
  slots : ∀ k : Fin MAX_PEERS, k.val < peerSet.peers.toList.length → 1 ≤ node.matchIndex k →
    ∃ id matchIndex, 1 ≤ matchIndex ∧ (id, .appendEntriesReply 1 true matchIndex) ∈ heard ∧
      node.peerIndex id = some k.val

theorem peerIndex_congr (h : node'.peers = node.peers) (id : NodeId) :
    node'.peerIndex id = node.peerIndex id := by
  rw [RaftNode.peerIndex, h, RaftNode.peerIndex]

theorem Leads.hear (h : Leads peerSet src dst heard node) (message : NodeId × RaftMessage)
    (hpeers : node'.peers = node.peers) (hrole : node'.role = node.role)
    (hterm : node'.currentTerm = node.currentTerm) (hlog : node'.log = node.log)
    (hcommit : node'.commitIndex = node.commitIndex)
    (hmatch : ∀ k, node'.matchIndex k = node.matchIndex k ∨
      ∃ matchIndex, node'.matchIndex k = matchIndex ∧
        message.2 = .appendEntriesReply 1 true matchIndex ∧
        node.peerIndex message.1 = some k.val) :
    Leads peerSet src dst (message :: heard) node' := by
  refine ⟨hrole.trans h.role, hpeers.trans h.peers, hterm.trans h.term, hlog ▸ h.log,
    hcommit.trans h.commit, fun k hk hge => ?_⟩
  rcases hmatch k with hold | ⟨matchIndex, hnew, hmsg, hidx⟩
  · obtain ⟨id, m, hm, hmem, hidx⟩ := h.slots k hk (hold ▸ hge)
    exact ⟨id, m, hm, List.mem_cons_of_mem _ hmem, (peerIndex_congr hpeers id).trans hidx⟩
  · refine ⟨message.1, matchIndex, hnew ▸ hge, ?_, (peerIndex_congr hpeers _).trans hidx⟩
    rw [← hmsg]
    exact List.mem_cons_self

theorem Leads.backed (h : Leads peerSet src dst heard node)
    (hq : node.quorum ≤ node.ackCount 1) : Backed peerSet heard := by
  have hlen : peerSet.len = node.peers.toList.length := by rw [h.peers]; rfl
  let peerAt : Fin MAX_PEERS → NodeId := fun k => (node.peers.toList[k.val]?).getD NodeId.MIN
  have hslot : ∀ k ∈ node.ackSlots 1, ∃ matchIndex, 1 ≤ matchIndex ∧
      (peerAt k, .appendEntriesReply 1 true matchIndex) ∈ heard ∧
      node.peerIndex (peerAt k) = some k.val := by
    intro k hk
    obtain ⟨hlt, hge⟩ := (Finset.mem_filter.mp hk).2
    obtain ⟨id, m, hm, hmem, hidx⟩ := h.slots k (h.peers ▸ hlt) hge
    have hat : peerAt k = id := by
      simp only [peerAt, (RaftNode.peerIndex_eq_some hidx).1, Option.getD_some]
    exact ⟨m, hm, hat ▸ hmem, hat ▸ hidx⟩
  have hinj : Set.InjOn peerAt (node.ackSlots 1) := by
    intro k hk l hl heq
    obtain ⟨-, -, -, hkidx⟩ := hslot k hk
    obtain ⟨-, -, -, hlidx⟩ := hslot l hl
    rw [heq, hlidx] at hkidx
    exact Fin.ext (Option.some.inj hkidx).symm
  refine ⟨(node.ackSlots 1).image peerAt, ?_, fun id hid => ?_⟩
  · rw [Finset.card_image_of_injOn hinj, hlen]
    rw [RaftNode.ackCount_eq, RaftNode.quorum, HVec.length_eq] at hq
    omega
  · obtain ⟨k, hk, rfl⟩ := Finset.mem_image.mp hid
    obtain ⟨m, hm, hmem, hidx⟩ := hslot k hk
    refine ⟨?_, m, hm, hmem⟩
    rw [← h.peers]
    exact List.mem_of_getElem? (RaftNode.peerIndex_eq_some hidx).1

theorem replicationLoop_cons {sender : NodeId} {msg : RaftMessage} {done : Bool}
    (hrun : replicationLoop node ((sender, msg) :: inbox) = some (done, node', sent)) :
    ∃ committed node₁ first, node.step sender msg = some (committed, node₁, first) ∧
      ((committed.isSome = true ∧ done = true ∧ node' = node₁ ∧ sent = first) ∨
        (committed = none ∧ ∃ later, replicationLoop node₁ inbox = some (done, node', later) ∧
          sent = first ++ later)) := by
  obtain ⟨⟨committed, node₁, first⟩, hstep, hrun⟩ := Option.bind_eq_some_iff.mp hrun
  refine ⟨committed, node₁, first, hstep, ?_⟩
  cases committed with
  | some entry =>
      simp only [Option.isSome_some, if_true, Option.pure_def, Option.some.injEq,
        Prod.mk.injEq] at hrun
      exact Or.inl ⟨rfl, hrun.1.symm, hrun.2.1.symm, hrun.2.2.symm⟩
  | none =>
      simp only [Option.isSome_none, Bool.false_eq_true, if_false] at hrun
      obtain ⟨⟨done₂, node₂, later⟩, hloop, hrun⟩ := Option.bind_eq_some_iff.mp hrun
      simp only [Option.pure_def, Option.some.injEq, Prod.mk.injEq] at hrun
      obtain ⟨rfl, rfl, rfl⟩ := hrun
      exact Or.inr ⟨rfl, later, hloop, rfl⟩

-- A node that has stepped down commits nothing any more.
theorem replicationLoop_follower {done : Bool} (hr : node.role = .follower)
    (hrun : replicationLoop node inbox = some (done, node', sent)) : done = false := by
  induction inbox generalizing node sent with
  | nil =>
      cases hrun
      rfl
  | cons first inbox ih =>
      obtain ⟨committed, node₁, sent₁, hstep, hcase⟩ := replicationLoop_cons hrun
      have hstay : committed = none ∧ node₁.role = .follower := by
        rcases RaftNode.step_effect hstep with
          ⟨hn, hf⟩ | ⟨hn, hrole, -⟩ | ⟨-, hcand, -⟩ | ⟨hlead, -⟩
        · exact ⟨hn, hf⟩
        · exact ⟨hn, hrole.trans hr⟩
        · rw [hr] at hcand
          cases hcand
        · rw [hr] at hlead
          cases hlead
      rcases hcase with ⟨hsome, -⟩ | ⟨-, later, hloop, -⟩
      · rw [hstay.1] at hsome
        cases hsome
      · exact ih hstay.2 hloop

theorem Backed.mono {replies replies' : Inbox} (h : Backed peerSet replies)
    (hsub : replies ⊆ replies') : Backed peerSet replies' := by
  obtain ⟨ids, hcard, hids⟩ := h
  refine ⟨ids, hcard, fun id hid => ?_⟩
  obtain ⟨hpeer, m, hm, hmem⟩ := hids id hid
  exact ⟨hpeer, m, hm, hsub hmem⟩

-- One message received by the leader: it steps down, or goes on, or the only index
-- to commit, the first, has its quorum.
theorem Leads.step (h : Leads peerSet src dst heard node) {message : NodeId × RaftMessage}
    {committed : Option LogEntry}
    (hstep : node.step message.1 message.2 = some (committed, node', sent)) :
    (committed = none ∧ node'.role = .follower) ∨
    (committed = none ∧ Leads peerSet src dst (message :: heard) node') ∨
    (committed.isSome = true ∧ Backed peerSet (message :: heard) ∧
      node'.log.toList = [⟨1, src, dst⟩] ∧ node'.commitIndex = 1) := by
  rcases RaftNode.step_effect hstep with
    ⟨hn, hf⟩ | ⟨hn, hrole, hterm, hlog, hcommit, hmatch⟩ | ⟨-, hcand, -⟩ |
      ⟨-, i, matchIndex, hmsg, hidx, hcase⟩
  · exact Or.inl ⟨hn, hf⟩
  · have hpeers := (RaftNode.step_continues hstep).peers
    exact Or.inr (Or.inl ⟨hn, h.hear message hpeers hrole hterm hlog hcommit fun k =>
      Or.inl (by rw [hmatch])⟩)
  · rw [h.role] at hcand
    cases hcand
  · rw [h.term] at hmsg
    have hack : Leads peerSet src dst (message :: heard) (node.acknowledged i matchIndex) := by
      refine h.hear message rfl rfl rfl rfl rfl fun k => ?_
      by_cases hk : k = i
      · subst hk
        exact Or.inr ⟨matchIndex, update_self _ _ _, hmsg, hidx⟩
      · exact Or.inl (update_of_ne hk _ _)
    rcases hcase with ⟨hn, rfl⟩ | ⟨n, hlt, hle, hq, hentry, rfl⟩
    · exact Or.inr (Or.inl ⟨hn, hack⟩)
    · rw [h.commit] at hlt
      rw [h.log, List.length_singleton] at hle
      obtain rfl : n = 1 := by omega
      have hsome : committed.isSome = true := by
        rw [hentry, RaftLog.get_succ, h.log]
        rfl
      exact Or.inr (Or.inr ⟨hsome, hack.backed hq, h.log, rfl⟩)

theorem Leads.replicationLoop (h : Leads peerSet src dst heard node)
    (hrun : replicationLoop node inbox = some (true, node', sent)) :
    Backed peerSet (inbox.reverse ++ heard) ∧ node'.log.toList = [⟨1, src, dst⟩] ∧
      node'.commitIndex = 1 := by
  induction inbox generalizing node heard sent with
  | nil => cases hrun
  | cons first inbox ih =>
      obtain ⟨committed, node₁, sent₁, hstep, hcase⟩ := replicationLoop_cons hrun
      rw [List.reverse_cons, List.append_assoc, List.singleton_append]
      rcases h.step hstep with ⟨rfl, hf⟩ | ⟨rfl, h₁⟩ | ⟨hsome, hback, hlog, hcommit⟩
      · rcases hcase with ⟨hsome, -⟩ | ⟨-, later, hloop, -⟩
        · cases hsome
        · cases replicationLoop_follower hf hloop
      · rcases hcase with ⟨hsome, -⟩ | ⟨-, later, hloop, -⟩
        · cases hsome
        · exact ih h₁ hloop
      · rcases hcase with ⟨-, -, rfl, -⟩ | ⟨rfl, -⟩
        · exact ⟨hback.mono (List.subset_append_right _ _), hlog, hcommit⟩
        · cases hsome

theorem replicateEdge_cases {replicated : Result Bool}
    (hrun : replicateEdge node src dst inbox = some (replicated, node', sent)) :
    ∃ proposed node₁ first, node.propose src dst = some (proposed, node₁, first) ∧
      ((∃ e, proposed = .error e ∧ replicated = .error e ∧ node' = node₁ ∧ sent = first) ∨
        (proposed = .ok () ∧ node₁.logLen ≤ node₁.commitIndex ∧ replicated = .ok true ∧
          node' = node₁ ∧ sent = first) ∨
        (proposed = .ok () ∧ node₁.commitIndex < node₁.logLen ∧ ∃ done later,
          replicationLoop node₁ inbox = some (done, node', later) ∧ replicated = .ok done ∧
          sent = first ++ later)) := by
  obtain ⟨⟨proposed, node₁, first⟩, hpropose, hrun⟩ := Option.bind_eq_some_iff.mp hrun
  refine ⟨proposed, node₁, first, hpropose, ?_⟩
  cases proposed with
  | error e =>
      simp only [Option.pure_def, Option.some.injEq, Prod.mk.injEq] at hrun
      exact Or.inl ⟨e, rfl, hrun.1.symm, hrun.2.1.symm, hrun.2.2.symm⟩
  | ok =>
      right
      dsimp only at hrun
      split at hrun
      · rename_i hge
        simp only [Option.pure_def, Option.some.injEq, Prod.mk.injEq] at hrun
        exact Or.inl ⟨rfl, hge, hrun.1.symm, hrun.2.1.symm, hrun.2.2.symm⟩
      · rename_i hlt
        obtain ⟨⟨done, node₂, later⟩, hloop, hrun⟩ := Option.bind_eq_some_iff.mp hrun
        simp only [Option.pure_def, Option.some.injEq, Prod.mk.injEq] at hrun
        obtain ⟨rfl, rfl, rfl⟩ := hrun
        exact Or.inr ⟨rfl, Nat.lt_of_not_le hlt, done, later, hloop, rfl, rfl⟩

theorem replicateEdge_spec (h : Campaigning peerSet node) (hr : node.role = .leader)
    (hrun : replicateEdge node src dst inbox = some (.ok true, node', sent)) :
    (0 < peerSet.len → Backed peerSet inbox) ∧ node'.log.toList = [⟨1, src, dst⟩] ∧
      node'.commitIndex = 1 := by
  obtain ⟨hterm, hlog, hcommit⟩ := h.fresh (by rw [hr]; decide)
  obtain ⟨proposed, node₁, first, hpropose, hcase⟩ := replicateEdge_cases hrun
  rcases RaftNode.propose_cases hpropose with
    ⟨hn, -⟩ | ⟨-, hfull, -⟩ | ⟨-, rfl, log, hnew, hrest⟩
  · exact absurd hr hn
  · rw [hlog] at hfull
    cases hfull
  rw [hlog, hterm, List.nil_append] at hnew
  have hlen : log.len = 1 := by rw [RaftLog.len_eq, hnew]; rfl
  rcases hrest with ⟨hnil, -, rfl⟩ | ⟨-, rfl, -⟩
  · -- no peers: committed at once
    have hall : log.lastIndex = 1 := by rw [RaftLog.lastIndex_eq, hnew]; rfl
    rcases hcase with ⟨e, he, -⟩ | ⟨-, -, -, rfl, -⟩ | ⟨-, hlt, -⟩
    · cases he
    · refine ⟨fun hpos => ?_, hnew, hall⟩
      rw [h.peers] at hnil
      simp [PeerSet.len, HVec.length_eq, hnil] at hpos
    · simp only [RaftNode.logLen, hall, hlen] at hlt
      cases Nat.lt_irrefl _ hlt
  · rcases hcase with ⟨e, he, -⟩ | ⟨-, hge, -⟩ | ⟨-, -, done, later, hloop, hdone, -⟩
    · cases he
    · simp only [RaftNode.logLen, hcommit, hlen] at hge
      cases hge
    · cases hdone
      have hleads : Leads peerSet src dst [] { node with log := log } := by
        refine ⟨hr, h.peers, hterm, hnew, hcommit, fun k hk hge => ?_⟩
        have hzero : ({ node with log := log } : RaftNode).matchIndex k = 0 :=
          h.unacknowledged hr k hk
        rw [hzero] at hge
        cases hge
      obtain ⟨hback, hlog', hcommit'⟩ := hleads.replicationLoop hloop
      exact ⟨fun _ => hback.mono (by simp), hlog', hcommit'⟩

end Replication

section Call

variable [Sha256] {state : BootState} {peerSet : PeerSet} {src dst : NodeId} {inbox : Inbox}
variable {audit : AuditLog} {outcome : Outcome}

-- How far a call gets: to the local gate, to the end of the election, or to the
-- end of the replication.
theorem runTopologyConsensus_cases
    (hrun : state.runTopologyConsensus peerSet src dst inbox audit = some outcome) :
    ((state.graph.traverse src dst audit).1 ≠ .ok () ∧ outcome.result ≠ .ok () ∧
      outcome.sent = []) ∨
    ((state.graph.traverse src dst audit).1 = .ok () ∧ ∃ node sent rest,
      campaign state.localId peerSet inbox = some (node, sent, rest) ∧
      ((node.role ≠ .leader ∧ outcome.result ≠ .ok () ∧ outcome.sent = sent) ∨
        (node.role = .leader ∧ ∃ replicated node' later,
          replicateEdge node src dst rest = some (replicated, node', later) ∧
          (outcome.result = .ok () → replicated = .ok true ∧ outcome.audit =
            ((state.graph.traverse src dst audit).2.append .topologyChange src.get UNTIMED none).2) ∧
          outcome.sent = sent ++ later ∧ outcome.node = some node'))) := by
  unfold BootState.runTopologyConsensus at hrun
  generalize state.graph.traverse src dst audit = traversed at hrun ⊢
  obtain ⟨gate, audit₁⟩ := traversed
  cases gate with
  | error e =>
      simp only [Option.some.injEq] at hrun
      subst hrun
      exact Or.inl ⟨by simp, by simp, rfl⟩
  | ok =>
      obtain ⟨⟨node, sent, rest⟩, hcampaign, hrun⟩ := Option.bind_eq_some_iff.mp hrun
      refine Or.inr ⟨rfl, node, sent, rest, hcampaign, ?_⟩
      cases hl : node.isLeader with
      | false =>
          simp only [hl, if_true, Option.pure_def, Option.some.injEq] at hrun
          subst hrun
          exact Or.inl ⟨isLeader_eq_false.mp hl, by simp, rfl⟩
      | true =>
          simp only [hl, Bool.true_eq_false, if_false] at hrun
          obtain ⟨⟨replicated, node', later⟩, hrep, hrun⟩ := Option.bind_eq_some_iff.mp hrun
          refine Or.inr ⟨isLeader_iff.mp hl, replicated, node', later, hrep, ?_⟩
          cases replicated with
          | error e =>
              simp only [Option.pure_def, Option.some.injEq] at hrun
              subst hrun
              exact ⟨by simp, rfl, rfl⟩
          | ok committed =>
              simp only [Option.pure_def, Option.some.injEq] at hrun
              subst hrun
              cases committed with
              | false => exact ⟨by simp, rfl, rfl⟩
              | true => exact ⟨fun _ => ⟨rfl, rfl⟩, rfl, rfl⟩

theorem runTopologyConsensus_ok
    (hrun : state.runTopologyConsensus peerSet src dst inbox audit = some outcome)
    (hok : outcome.result = .ok ()) :
    state.graph.traverseInner src dst = .ok () ∧ ∃ leader sent replies node later,
      campaign state.localId peerSet inbox = some (leader, sent, replies) ∧
      leader.role = .leader ∧
      replicateEdge leader src dst replies = some (.ok true, node, later) ∧
      outcome.node = some node := by
  rcases runTopologyConsensus_cases hrun with
    ⟨-, hnot, -⟩ | ⟨hgate, leader, sent, replies, hcampaign, hcase⟩
  · exact absurd hok hnot
  · rw [OperationalGraph.traverse_eq_ok, ← OperationalGraph.traverseInner_eq_ok] at hgate
    rcases hcase with ⟨-, hnot, -⟩ | ⟨hl, replicated, node, later, hrep, hdone, -, hnode⟩
    · exact absurd hok hnot
    · rw [(hdone hok).1] at hrep
      exact ⟨hgate.1, leader, sent, replies, node, later, hcampaign, hl, hrep, hnode⟩

theorem runTopologyConsensus_audit
    (hrun : state.runTopologyConsensus peerSet src dst inbox audit = some outcome)
    (hok : outcome.result = .ok ()) :
    (state.graph.traverse src dst audit).1 = .ok () ∧ outcome.audit =
      ((state.graph.traverse src dst audit).2.append .topologyChange src.get UNTIMED none).2 := by
  rcases runTopologyConsensus_cases hrun with ⟨-, hnot, -⟩ | ⟨hgate, _, _, _, -, hcase⟩
  · exact absurd hok hnot
  · rcases hcase with ⟨-, hnot, -⟩ | ⟨-, _, _, _, -, hdone, -⟩
    · exact absurd hok hnot
    · exact ⟨hgate, (hdone hok).2⟩

theorem runTopologyConsensus_denied
    (hrun : state.runTopologyConsensus peerSet src dst inbox audit = some outcome)
    (hdenied : state.graph.traverseInner src dst ≠ .ok ()) : outcome.sent = [] := by
  rcases runTopologyConsensus_cases hrun with ⟨-, -, hsent⟩ | ⟨hgate, -⟩
  · exact hsent
  · rw [OperationalGraph.traverse_eq_ok, ← OperationalGraph.traverseInner_eq_ok] at hgate
    exact absurd hgate.1 hdenied

-- No commit without the local graph and a majority of distinct acknowledgements,
-- and no message without the local graph.
theorem runTopologyConsensus_safe (state : BootState) (peerSet : PeerSet) (src dst : NodeId)
    (inbox : Inbox) (audit : AuditLog) :
    (∀ outcome, state.runTopologyConsensus peerSet src dst inbox audit = some outcome →
      outcome.result = .ok () →
        state.graph.traverseInner src dst = .ok () ∧
        ∃ leader sent replies,
          campaign state.localId peerSet inbox = some (leader, sent, replies) ∧
          leader.isLeader = true ∧ replies <:+ inbox ∧
          (0 < peerSet.len → ∃ ids : Finset NodeId, (peerSet.len + 1) / 2 ≤ ids.card ∧
            ∀ id ∈ ids, id ∈ peerSet.peers.toList ∧ ∃ matchIndex, 1 ≤ matchIndex ∧
              (id, .appendEntriesReply 1 true matchIndex) ∈ replies)) ∧
    ∀ outcome, state.runTopologyConsensus peerSet src dst inbox audit = some outcome →
      state.graph.traverseInner src dst ≠ .ok () → outcome.sent = [] := by
  refine ⟨fun outcome hrun hok => ?_, fun outcome => runTopologyConsensus_denied⟩
  obtain ⟨hlocal, leader, sent, replies, node, later, hcampaign, hl, hrep, -⟩ :=
    runTopologyConsensus_ok hrun hok
  obtain ⟨hcamp, hsuffix⟩ := campaign_spec hcampaign
  have hspec := replicateEdge_spec hcamp hl hrep
  exact ⟨hlocal, leader, sent, replies, hcampaign, isLeader_iff.mpr hl, hsuffix, hspec.1⟩

-- What a call that returns `Ok` has committed: its edge, at index 1.
theorem runTopologyConsensus_committed
    (hrun : state.runTopologyConsensus peerSet src dst inbox audit = some outcome)
    (hok : outcome.result = .ok ()) :
    ∃ node, outcome.node = some node ∧ node.log.toList = [⟨1, src, dst⟩] ∧
      node.commitIndex = 1 := by
  obtain ⟨-, leader, sent, replies, node, later, hcampaign, hl, hrep, hnode⟩ :=
    runTopologyConsensus_ok hrun hok
  have hspec := replicateEdge_spec (campaign_spec hcampaign).1 hl hrep
  exact ⟨node, hnode, hspec.2⟩

end Call

end LuxKernel.Boot
