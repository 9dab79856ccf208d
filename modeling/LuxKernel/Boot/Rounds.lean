import LuxKernel.Boot.Consensus

namespace LuxKernel.Boot

open Audit Consensus Function Heapless LuxKernel.Topology

-- A call of `run_topology_consensus`, with what it has received so far and, when it
-- has returned, with how it ended.
structure Round where
  caller : NodeId
  src : NodeId
  dst : NodeId
  audit : AuditLog
  inbox : Inbox
  returned : Option Outcome

-- The members' long-lived nodes, all packets ever sent with the positions of those
-- delivered, and the calls in the order in which they were made.
structure Deployment where
  node : NodeId → RaftNode
  sent : List Packet
  delivered : List Nat
  rounds : List Round

inductive Event where
  | answer (position : Nat)
  | call (caller src dst : NodeId) (audit : AuditLog)
  | hear (round position : Nat)
  | finish (round : Nat)

def packets (sender : NodeId) (out : Sent) : List Packet :=
  out.map fun message => ⟨sender, message.1, message.2⟩

def Round.hearing (round : Round) (message : NodeId × RaftMessage) : Round :=
  { round with inbox := round.inbox ++ [message] }

namespace Deployment

def start (V : Membership) : Deployment where
  node i := RaftNode.new i (V.peerSet i)
  sent := []
  delivered := []
  rounds := []

def post (s : Deployment) (sender : NodeId) (out : Sent) : Deployment :=
  { s with sent := s.sent ++ packets sender out }

def pending (s : Deployment) (position : Nat) : Option Packet :=
  if position ∈ s.delivered then none else s.sent[position]?

theorem pending_eq_some {s : Deployment} {position : Nat} {packet : Packet} :
    s.pending position = some packet ↔
      position ∉ s.delivered ∧ s.sent[position]? = some packet :=
  Option.ite_none_left_eq_some

end Deployment

section System

variable [Sha256] (V : Membership) (boot : NodeId → BootState)

-- What the call returns if it receives nothing more.
def Round.outcome (round : Round) : Option Outcome :=
  ((boot round.caller).withLocalId round.caller).runTopologyConsensus (V.peerSet round.caller)
    round.src round.dst round.inbox round.audit

-- A member answers a packet with its long-lived node, or calls, or receives a
-- packet within a call, or returns from it. A packet may be lost or late.
def Deployment.happen (s : Deployment) : Event → Option Deployment
  | .answer position => do
      let packet ← s.pending position
      let (_, node, out) ← (s.node packet.dst).step packet.src packet.msg
      return ({ s with
        node := update s.node packet.dst node
        delivered := position :: s.delivered } : Deployment).post packet.dst out
  | .call caller src dst audit =>
      if caller ∈ V.members then do
        let round : Round := ⟨caller, src, dst, audit, [], none⟩
        let outcome ← round.outcome V boot
        return ({ s with rounds := s.rounds ++ [round] } : Deployment).post caller outcome.sent
      else none
  | .hear k position => do
      let packet ← s.pending position
      let round ← s.rounds[k]?
      if round.returned.isNone ∧ packet.dst = round.caller then do
        let before ← round.outcome V boot
        let round := round.hearing (packet.src, packet.msg)
        let outcome ← round.outcome V boot
        return ({ s with
          delivered := position :: s.delivered
          rounds := s.rounds.set k round } : Deployment).post round.caller
            (outcome.sent.drop before.sent.length)
      else none
  | .finish k => do
      let round ← s.rounds[k]?
      if round.returned.isNone then do
        let outcome ← round.outcome V boot
        return { s with rounds := s.rounds.set k { round with returned := some outcome } }
      else none

-- Steps whose event is allowed in the state in which it happens.
def Deployment.Step (allowed : Deployment → Event → Prop) (s s' : Deployment) : Prop :=
  ∃ event, s.happen V boot event = some s' ∧ allowed s event

abbrev Deployment.Reaches (allowed : Deployment → Event → Prop) :
    Deployment → Deployment → Prop :=
  Relation.ReflTransGen (Deployment.Step V boot allowed)

def anyEvent (_ : Deployment) (_ : Event) : Prop := True

end System

def Round.ReturnsOk (round : Round) : Prop :=
  ∃ outcome ∈ round.returned, outcome.result = .ok ()

-- The call has returned `Ok`, and this was its node.
def Round.Commits (round : Round) (node : RaftNode) : Prop :=
  ∃ outcome ∈ round.returned, outcome.result = .ok () ∧ outcome.node = some node

-- The property: two calls do not commit different edges at the same index.
def RoundsAgree (s : Deployment) : Prop :=
  ∀ a ∈ s.rounds, ∀ b ∈ s.rounds, ∀ node node', a.Commits node → b.Commits node' →
    ∀ k, k ≤ node.commitIndex → k ≤ node'.commitIndex →
      ∀ x y, node.log.get k = some x → node'.log.get k = some y → x.src = y.src ∧ x.dst = y.dst

section Wire

variable {peerSet : PeerSet} {localId src dst : NodeId} {node node' node₂ : RaftNode}
variable {inbox rest rest₂ : Inbox} {sent sent₂ : Sent}

-- What has been sent stays sent: with a longer inbox a stage that had ended ends as
-- before, and one that had not goes on.
def Continues (more : Inbox) (node node₂ : RaftNode) (sent sent₂ : Sent) (rest rest₂ : Inbox) :
    Prop :=
  sent <+: sent₂ ∧
    (node.role = .leader → node₂ = node ∧ sent₂ = sent ∧ rest₂ = rest ++ more)

theorem Continues.after {more : Inbox} (first : Sent)
    (h : Continues more node node₂ sent sent₂ rest rest₂) :
    Continues more node node₂ (first ++ sent) (first ++ sent₂) rest rest₂ := by
  refine ⟨(List.prefix_append_right_inj _).mpr h.1, fun hlead => ?_⟩
  obtain ⟨hnode, hsent, hrest⟩ := h.2 hlead
  exact ⟨hnode, by rw [hsent], hrest⟩

theorem electionLoop_append (more : Inbox) (hl : node.role ≠ .leader)
    (hrun : electionLoop node inbox = some (node', sent, rest))
    (hrun₂ : electionLoop node (inbox ++ more) = some (node₂, sent₂, rest₂)) :
    Continues more node' node₂ sent sent₂ rest rest₂ := by
  induction inbox generalizing node sent sent₂ with
  | nil =>
      cases hrun
      exact ⟨List.nil_prefix, fun hlead => absurd hlead hl⟩
  | cons message inbox ih =>
      obtain ⟨committed, node₁, first, hstep, hcase⟩ := electionLoop_cons hrun
      obtain ⟨committed₁, node₁', first', hstep', hcase₂⟩ := electionLoop_cons hrun₂
      rw [hstep, Option.some.injEq, Prod.mk.injEq, Prod.mk.injEq] at hstep'
      obtain ⟨rfl, rfl, rfl⟩ := hstep'
      rcases hcase with ⟨hl₁, rfl, rfl, rfl⟩ | ⟨hl₁, later, hloop, rfl⟩
      · rcases hcase₂ with ⟨-, rfl, rfl, rfl⟩ | ⟨hl₂, -⟩
        · exact ⟨List.prefix_refl _, fun _ => ⟨rfl, rfl, rfl⟩⟩
        · exact absurd hl₁ hl₂
      · rcases hcase₂ with ⟨hl₂, -⟩ | ⟨-, later₂, hloop₂, rfl⟩
        · exact absurd hl₂ hl₁
        · exact (ih hl₁ hloop hloop₂).after first

theorem campaign_append (more : Inbox)
    (hrun : campaign localId peerSet inbox = some (node, sent, rest))
    (hrun₂ : campaign localId peerSet (inbox ++ more) = some (node₂, sent₂, rest₂)) :
    Continues more node node₂ sent sent₂ rest rest₂ := by
  obtain ⟨node₁, first, hstart, hcase⟩ := campaign_cases hrun
  obtain ⟨node₁', first', hstart', hcase₂⟩ := campaign_cases hrun₂
  rw [hstart, Option.some.injEq, Prod.mk.injEq] at hstart'
  obtain ⟨rfl, rfl⟩ := hstart'
  rcases hcase with ⟨hl, rfl, rfl, rfl⟩ | ⟨hl, later, hloop, rfl⟩
  · rcases hcase₂ with ⟨-, rfl, rfl, rfl⟩ | ⟨hl₂, -⟩
    · exact ⟨List.prefix_refl _, fun _ => ⟨rfl, rfl, rfl⟩⟩
    · exact absurd hl hl₂
  · rcases hcase₂ with ⟨hl₂, -⟩ | ⟨-, later₂, hloop₂, rfl⟩
    · exact absurd hl₂ hl
    · exact (electionLoop_append more hl hloop hloop₂).after first

theorem replicationLoop_append {done done₂ : Bool} (more : Inbox)
    (hrun : replicationLoop node inbox = some (done, node', sent))
    (hrun₂ : replicationLoop node (inbox ++ more) = some (done₂, node₂, sent₂)) :
    sent <+: sent₂ := by
  induction inbox generalizing node sent sent₂ with
  | nil =>
      cases hrun
      exact List.nil_prefix
  | cons message inbox ih =>
      obtain ⟨committed, node₁, first, hstep, hcase⟩ := replicationLoop_cons hrun
      obtain ⟨committed₁, node₁', first', hstep', hcase₂⟩ := replicationLoop_cons hrun₂
      rw [hstep, Option.some.injEq, Prod.mk.injEq, Prod.mk.injEq] at hstep'
      obtain ⟨rfl, rfl, rfl⟩ := hstep'
      rcases hcase with ⟨-, -, -, rfl⟩ | ⟨rfl, later, hloop, rfl⟩
      · rcases hcase₂ with ⟨-, -, -, rfl⟩ | ⟨-, later₂, -, rfl⟩
        · exact List.prefix_refl _
        · exact List.prefix_append _ _
      · rcases hcase₂ with ⟨hsome, -⟩ | ⟨-, later₂, hloop₂, rfl⟩
        · cases hsome
        · exact (List.prefix_append_right_inj _).mpr (ih hloop hloop₂)

theorem replicateEdge_append {replicated replicated₂ : Result Bool} (more : Inbox)
    (hrun : replicateEdge node src dst inbox = some (replicated, node', sent))
    (hrun₂ : replicateEdge node src dst (inbox ++ more) = some (replicated₂, node₂, sent₂)) :
    sent <+: sent₂ := by
  obtain ⟨proposed, node₁, first, hpropose, hcase⟩ := replicateEdge_cases hrun
  obtain ⟨proposed₁, node₁', first', hpropose', hcase₂⟩ := replicateEdge_cases hrun₂
  rw [hpropose, Option.some.injEq, Prod.mk.injEq, Prod.mk.injEq] at hpropose'
  obtain ⟨rfl, rfl, rfl⟩ := hpropose'
  have hfirst : first <+: sent₂ := by
    rcases hcase₂ with ⟨-, -, -, -, rfl⟩ | ⟨-, -, -, -, rfl⟩ | ⟨-, -, -, later, -, -, rfl⟩
    · exact List.prefix_refl _
    · exact List.prefix_refl _
    · exact List.prefix_append _ _
  rcases hcase with ⟨-, -, -, -, rfl⟩ | ⟨-, -, -, -, rfl⟩ | ⟨hok, hlt, done, later, hloop, -, rfl⟩
  · exact hfirst
  · exact hfirst
  · rcases hcase₂ with ⟨e, he, -⟩ | ⟨-, hge, -⟩ | ⟨-, -, done₂, later₂, hloop₂, -, rfl⟩
    · rw [hok] at he
      cases he
    · exact absurd hlt (Nat.not_lt.mpr hge)
    · exact (List.prefix_append_right_inj _).mpr (replicationLoop_append more hloop hloop₂)

theorem runTopologyConsensus_append [Sha256] {state : BootState} {audit : AuditLog}
    {outcome outcome₂ : Outcome} (more : Inbox)
    (hrun : state.runTopologyConsensus peerSet src dst inbox audit = some outcome)
    (hrun₂ : state.runTopologyConsensus peerSet src dst (inbox ++ more) audit = some outcome₂) :
    outcome.sent <+: outcome₂.sent := by
  rcases runTopologyConsensus_cases hrun with
    ⟨-, -, hsent⟩ | ⟨hgate, node, sent, rest, hcampaign, hcase⟩
  · rw [hsent]
    exact List.nil_prefix
  rcases runTopologyConsensus_cases hrun₂ with
    ⟨hgate₂, -⟩ | ⟨-, node₂, sent₂, rest₂, hcampaign₂, hcase₂⟩
  · exact absurd hgate hgate₂
  obtain ⟨hsofar, hdone⟩ := campaign_append more hcampaign hcampaign₂
  rcases hcase with ⟨-, -, hsent⟩ | ⟨hl, _, _, later, hrep, -, hsent, -⟩
  · rw [hsent]
    rcases hcase₂ with ⟨-, -, hsent₂⟩ | ⟨-, -, -, later₂, -, -, hsent₂, -⟩
    · exact hsent₂ ▸ hsofar
    · exact hsent₂ ▸ hsofar.trans (List.prefix_append _ _)
  · obtain ⟨rfl, rfl, rfl⟩ := hdone hl
    rcases hcase₂ with ⟨hl₂, -⟩ | ⟨-, _, _, later₂, hrep₂, -, hsent₂, -⟩
    · exact absurd hl hl₂
    · rw [hsent, hsent₂]
      exact (List.prefix_append_right_inj _).mpr (replicateEdge_append more hrep hrep₂)

end Wire

section Agreement

variable [Sha256] {V : Membership} {boot : NodeId → BootState} {s s' : Deployment}
variable {round round' : Round} {node : RaftNode}

-- What a call returned is what it returns on what it has received.
def Recorded (V : Membership) (boot : NodeId → BootState) (s : Deployment) : Prop :=
  ∀ round ∈ s.rounds, ∀ outcome ∈ round.returned, round.outcome V boot = some outcome

theorem Round.Commits.log (hrec : ∀ outcome ∈ round.returned, round.outcome V boot = some outcome)
    (h : round.Commits node) :
    node.log.toList = [⟨1, round.src, round.dst⟩] ∧ node.commitIndex = 1 := by
  obtain ⟨outcome, hret, hok, hnode⟩ := h
  obtain ⟨node₁, hnode₁, hspec⟩ := runTopologyConsensus_committed (hrec outcome hret) hok
  rw [hnode₁, Option.some.injEq] at hnode
  exact hnode ▸ hspec

theorem Round.returnsOk_iff
    (hrec : ∀ outcome ∈ round.returned, round.outcome V boot = some outcome) :
    round.ReturnsOk ↔ ∃ node, round.Commits node := by
  constructor
  · rintro ⟨outcome, hret, hok⟩
    obtain ⟨node, hnode, -⟩ := runTopologyConsensus_committed (hrec outcome hret) hok
    exact ⟨node, outcome, hret, hok, hnode⟩
  · rintro ⟨node, outcome, hret, hok, -⟩
    exact ⟨outcome, hret, hok⟩

-- Every call commits at index 1, so agreement is about what was asked for.
theorem Recorded.roundsAgree_iff (hrec : Recorded V boot s) :
    RoundsAgree s ↔ ∀ a ∈ s.rounds, ∀ b ∈ s.rounds,
      a.ReturnsOk → b.ReturnsOk → a.src = b.src ∧ a.dst = b.dst := by
  constructor
  · intro h a ha b hb hoka hokb
    obtain ⟨node, hnode⟩ := (Round.returnsOk_iff (hrec a ha)).mp hoka
    obtain ⟨node', hnode'⟩ := (Round.returnsOk_iff (hrec b hb)).mp hokb
    obtain ⟨hlog, hcommit⟩ := hnode.log (hrec a ha)
    obtain ⟨hlog', hcommit'⟩ := hnode'.log (hrec b hb)
    have hfirst : node.log.get 1 = some ⟨1, a.src, a.dst⟩ := by
      rw [RaftLog.get_succ, hlog]
      rfl
    have hsecond : node'.log.get 1 = some ⟨1, b.src, b.dst⟩ := by
      rw [RaftLog.get_succ, hlog']
      rfl
    exact h a ha b hb node node' hnode hnode' 1 hcommit.ge hcommit'.ge _ _ hfirst hsecond
  · intro h a ha b hb node node' hnode hnode' k _ _ x y hx hy
    have hentry : ∀ {round : Round} {node : RaftNode} {entry : LogEntry},
        node.log.toList = [⟨1, round.src, round.dst⟩] → node.log.get k = some entry →
          entry = ⟨1, round.src, round.dst⟩ := by
      intro round node entry hlog hget
      cases k with
      | zero => cases hget
      | succ k =>
          rw [RaftLog.get_succ, hlog] at hget
          exact List.mem_singleton.mp (List.mem_of_getElem? hget)
    rw [hentry (hnode.log (hrec a ha)).1 hx, hentry (hnode'.log (hrec b hb)).1 hy]
    exact h a ha b hb ((Round.returnsOk_iff (hrec a ha)).mpr ⟨node, hnode⟩)
      ((Round.returnsOk_iff (hrec b hb)).mpr ⟨node', hnode'⟩)

-- What an event does: a node answers, a call is made, or an open call receives a packet
-- or returns.
theorem Deployment.happen_cases {event : Event} (hrun : s.happen V boot event = some s') :
    (∃ position packet committed node out, event = .answer position ∧
      s.pending position = some packet ∧
      (s.node packet.dst).step packet.src packet.msg = some (committed, node, out) ∧
      s' = ({ s with
        node := update s.node packet.dst node
        delivered := position :: s.delivered } : Deployment).post packet.dst out) ∨
    (∃ caller src dst audit outcome, event = .call caller src dst audit ∧ caller ∈ V.members ∧
      Round.outcome V boot ⟨caller, src, dst, audit, [], none⟩ = some outcome ∧
      s' = ({ s with rounds := s.rounds ++ [⟨caller, src, dst, audit, [], none⟩] } :
        Deployment).post caller outcome.sent) ∨
    (∃ k position packet old before outcome, event = .hear k position ∧
      s.pending position = some packet ∧ s.rounds[k]? = some old ∧
      old.returned.isNone = true ∧ packet.dst = old.caller ∧ old.outcome V boot = some before ∧
      (old.hearing (packet.src, packet.msg)).outcome V boot = some outcome ∧
      s' = ({ s with
        delivered := position :: s.delivered
        rounds := s.rounds.set k (old.hearing (packet.src, packet.msg)) } : Deployment).post
          old.caller (outcome.sent.drop before.sent.length)) ∨
    ∃ k old outcome, event = .finish k ∧ s.rounds[k]? = some old ∧
      old.returned.isNone = true ∧ old.outcome V boot = some outcome ∧
      s' = { s with rounds := s.rounds.set k { old with returned := some outcome } } := by
  cases event with
  | answer position =>
      obtain ⟨packet, hpending, hrun⟩ := Option.bind_eq_some_iff.mp hrun
      obtain ⟨⟨committed, node, out⟩, hstep, hrun⟩ := Option.bind_eq_some_iff.mp hrun
      cases hrun
      exact Or.inl ⟨position, packet, committed, node, out, rfl, hpending, hstep, rfl⟩
  | call caller src dst audit =>
      simp only [Deployment.happen] at hrun
      split at hrun
      · rename_i hcaller
        obtain ⟨outcome, hout, hrun⟩ := Option.bind_eq_some_iff.mp hrun
        cases hrun
        exact Or.inr (Or.inl ⟨caller, src, dst, audit, outcome, rfl, hcaller, hout, rfl⟩)
      · cases hrun
  | hear k position =>
      obtain ⟨packet, hpending, hrun⟩ := Option.bind_eq_some_iff.mp hrun
      obtain ⟨old, hold, hrun⟩ := Option.bind_eq_some_iff.mp hrun
      split at hrun
      · rename_i hopen
        obtain ⟨before, hbefore, hrun⟩ := Option.bind_eq_some_iff.mp hrun
        obtain ⟨outcome, hout, hrun⟩ := Option.bind_eq_some_iff.mp hrun
        cases hrun
        exact Or.inr (Or.inr (Or.inl ⟨k, position, packet, old, before, outcome, rfl, hpending,
          hold, hopen.1, hopen.2, hbefore, hout, rfl⟩))
      · cases hrun
  | finish k =>
      obtain ⟨old, hold, hrun⟩ := Option.bind_eq_some_iff.mp hrun
      split at hrun
      · rename_i hopen
        obtain ⟨outcome, hout, hrun⟩ := Option.bind_eq_some_iff.mp hrun
        cases hrun
        exact Or.inr (Or.inr (Or.inr ⟨k, old, outcome, rfl, hold, hopen, hout, rfl⟩))
      · cases hrun

-- What holds at the start and is kept by each event holds at the end of every run.
theorem Deployment.reaches_keeps {allowed : Deployment → Event → Prop} {P : Deployment → Prop}
    (hstep : ∀ {s event s'}, P s → s.happen V boot event = some s' → P s') (h : P s)
    (hrun : Deployment.Reaches V boot allowed s s') : P s' := by
  induction hrun with
  | refl => exact h
  | tail _ hlast ih =>
      obtain ⟨event, hevent, -⟩ := hlast
      exact hstep ih hevent

-- Every message that a call has sent is on the wire.
def Wired (V : Membership) (boot : NodeId → BootState) (s : Deployment) : Prop :=
  ∀ round ∈ s.rounds, ∀ outcome ∈ round.outcome V boot,
    packets round.caller outcome.sent ⊆ s.sent

theorem Wired.step {event : Event} (h : Wired V boot s) (hrun : s.happen V boot event = some s') :
    Wired V boot s' := by
  rcases Deployment.happen_cases hrun with
    ⟨position, packet, committed, node, out, -, -, -, rfl⟩ |
      ⟨caller, src, dst, audit, first, -, -, hout, rfl⟩ |
      ⟨k, position, packet, old, before, new, -, -, hk, -, -, hbefore, hout, rfl⟩ |
      ⟨k, old, new, -, hk, -, -, rfl⟩
  · intro round hround outcome houtcome
    exact List.subset_append_of_subset_left _ (h round hround outcome houtcome)
  · intro round hround outcome houtcome
    rcases List.mem_append.mp hround with hround | hround
    · exact List.subset_append_of_subset_left _ (h round hround outcome houtcome)
    · rw [List.mem_singleton.mp hround, Option.mem_def, hout, Option.some.injEq] at houtcome
      rw [List.mem_singleton.mp hround, ← houtcome]
      exact List.subset_append_right _ _
  · intro round hround outcome houtcome
    rcases List.mem_or_eq_of_mem_set hround with hround | rfl
    · exact List.subset_append_of_subset_left _ (h round hround outcome houtcome)
    · -- what the call had sent before, and what it has added since
      rw [Option.mem_def, hout, Option.some.injEq] at houtcome
      subst houtcome
      obtain ⟨added, hadded⟩ := runTopologyConsensus_append [(packet.src, packet.msg)] hbefore hout
      have hold := h old (List.mem_of_getElem? hk) before hbefore
      rw [← hadded, List.drop_left, packets, List.map_append]
      exact List.append_subset.mpr ⟨List.subset_append_of_subset_left _ hold,
        List.subset_append_right _ _⟩
  · intro round hround outcome houtcome
    rcases List.mem_or_eq_of_mem_set hround with hround | rfl
    · exact h round hround outcome houtcome
    · exact h old (List.mem_of_getElem? hk) outcome houtcome

theorem Wired.reaches {allowed : Deployment → Event → Prop}
    (hrun : Deployment.Reaches V boot allowed (Deployment.start V) s) : Wired V boot s :=
  Deployment.reaches_keeps Wired.step (fun round hround => by cases hround) hrun

theorem Recorded.step {event : Event} (h : Recorded V boot s)
    (hrun : s.happen V boot event = some s') : Recorded V boot s' := by
  rcases Deployment.happen_cases hrun with
    ⟨position, packet, committed, node, out, -, -, -, rfl⟩ |
      ⟨caller, src, dst, audit, first, -, -, -, rfl⟩ |
      ⟨k, position, packet, old, before, new, -, -, -, hopen, -, -, -, rfl⟩ |
      ⟨k, old, new, -, -, -, hout, rfl⟩
  · exact h
  · intro round hround outcome hret
    rcases List.mem_append.mp hround with hround | hround
    · exact h round hround outcome hret
    · rw [List.mem_singleton.mp hround] at hret
      cases hret
  · intro round hround outcome hret
    rcases List.mem_or_eq_of_mem_set hround with hround | rfl
    · exact h round hround outcome hret
    · have hnone : old.returned = some outcome := hret
      rw [hnone] at hopen
      cases hopen
  · intro round hround outcome hret
    rcases List.mem_or_eq_of_mem_set hround with hround | rfl
    · exact h round hround outcome hret
    · cases hret
      exact hout

theorem Recorded.reaches {allowed : Deployment → Event → Prop}
    (hrun : Deployment.Reaches V boot allowed (Deployment.start V) s) : Recorded V boot s :=
  Deployment.reaches_keeps Recorded.step (fun round hround => by cases hround) hrun

end Agreement

section Runs

variable [Sha256] (V : Membership) (boot : NodeId → BootState)
variable (allowed : Deployment → Event → Prop) [∀ s event, Decidable (allowed s event)]

def Deployment.runEvents (s : Deployment) (events : List Event) : Option Deployment :=
  events.foldlM (fun s event => if allowed s event then s.happen V boot event else none) s

theorem Deployment.exists_reaches {s : Deployment} (events : List Event) {p : Deployment → Bool}
    (h : (s.runEvents V boot allowed events).any p = true) :
    ∃ s', Deployment.Reaches V boot allowed s s' ∧ p s' = true := by
  obtain ⟨s', hrun, hp⟩ := (Option.any_eq_true _ _).mp h
  refine ⟨s', ?_, hp⟩
  clear h
  induction events generalizing s with
  | nil =>
      cases hrun
      exact .refl
  | cons event rest ih =>
      obtain ⟨s₁, h₁, h₂⟩ := Option.bind_eq_some_iff.mp hrun
      dsimp only at h₁
      split at h₁
      · rename_i hallowed
        exact .head ⟨event, h₁, hallowed⟩ (ih h₂)
      · cases h₁

end Runs

instance (s : Deployment) (event : Event) : Decidable (anyEvent s event) :=
  inferInstanceAs (Decidable True)

instance (round : Round) : Decidable round.ReturnsOk :=
  inferInstanceAs (Decidable (∃ outcome ∈ round.returned, _))

-- Three nodes, every edge between them declared.
def meshed (id : NodeId) : BootState where
  graph := ⟨7, fun _ => 7⟩
  ledger := .new
  policy := .new ⟨0⟩
  attestation := Vector.replicate 64 0
  manifestHash := Vector.replicate 32 0
  localId := id

end LuxKernel.Boot
