import LuxKernel.Boot.Rounds
import LuxKernel.Audit.Saturation

namespace LuxKernel.Boot

open Audit Consensus Heapless LuxKernel.Topology

-- A permission of this kind on record for a node.
def Grants (kind : EventKind) (node : NodeId) (event : AuditEvent) : Prop :=
  event.kind = kind ∧ event.actor = node.get ∧ event.outcome = .permitted

section

variable [Sha256]

theorem append_grant (kind : EventKind) (node : NodeId) {log : AuditLog}
    (hroom : log.isFull = false) :
    ∃ event, Grants kind node event ∧ (log.append kind node.get UNTIMED none).2.events.toList =
      log.events.toList ++ [event] := by
  obtain ⟨events, hevents, happend⟩ :=
    AuditLog.append_of_room kind node.get UNTIMED none hroom
  refine ⟨log.eventFor kind node.get UNTIMED none, ⟨rfl, rfl, rfl⟩, ?_⟩
  rw [happend]
  exact hevents

variable {state : BootState} {peerSet : PeerSet} {src dst : NodeId} {inbox : Inbox}
variable {audit : AuditLog} {outcome : Outcome}

-- The traversal is always on record. The change follows it if there is room for both.
theorem record_of_ok
    (hrun : state.runTopologyConsensus peerSet src dst inbox audit = some outcome)
    (hok : outcome.result = .ok ()) :
    ∃ traversal, Grants .topologyTraverse src traversal ∧
      ((audit.len + 1 = MAX_AUDIT_EVENTS ∧
          outcome.audit.events.toList = audit.events.toList ++ [traversal]) ∨
        ∃ change, Grants .topologyChange src change ∧
          outcome.audit.events.toList = audit.events.toList ++ [traversal, change]) := by
  obtain ⟨hgate, haudit⟩ := runTopologyConsensus_audit hrun hok
  obtain ⟨hinner, hroom⟩ := gate_eq_ok.mp hgate
  have htraverse : (state.graph.traverse src dst audit).2 =
      (audit.append .topologyTraverse src.get UNTIMED none).2 := by
    rw [OperationalGraph.traverse, gate_log, hinner]
    rfl
  rw [htraverse] at haudit
  obtain ⟨traversal, hgrant, hevents⟩ := append_grant .topologyTraverse src hroom
  refine ⟨traversal, hgrant, ?_⟩
  rw [haudit]
  generalize (audit.append .topologyTraverse src.get UNTIMED none).2 = traversed at hevents
  cases hfull : traversed.isFull with
  | true =>
      have hlen := traversed.events.length_le
      have hmax := AuditLog.isFull_iff.mp hfull
      rw [hevents, List.length_append, List.length_singleton] at hlen hmax
      rw [AuditLog.append_of_full hfull]
      exact Or.inl ⟨Nat.le_antisymm hlen hmax, hevents⟩
  | false =>
      obtain ⟨change, hchange, hboth⟩ := append_grant .topologyChange src hfull
      refine Or.inr ⟨change, hchange, ?_⟩
      rw [hboth, hevents, List.append_assoc]
      rfl

end

-- The change that a call reports as committed is on record exactly when the log had
-- room for two events.
theorem topologyChange_recorded_iff [Sha256] (state : BootState) (peerSet : PeerSet)
    (src dst : NodeId) (inbox : Inbox) (audit : AuditLog) (outcome : Outcome)
    (hrun : state.runTopologyConsensus peerSet src dst inbox audit = some outcome)
    (hok : outcome.result = .ok ()) :
    (∃ traversal change, Grants .topologyTraverse src traversal ∧
      Grants .topologyChange src change ∧
      outcome.audit.events.toList = audit.events.toList ++ [traversal, change]) ↔
    audit.len + 2 ≤ MAX_AUDIT_EVENTS := by
  constructor
  · rintro ⟨traversal, change, -, -, hevents⟩
    have hlen := outcome.audit.events.length_le
    rw [hevents, List.length_append] at hlen
    exact hlen
  · intro hroom
    obtain ⟨traversal, hgrant, ⟨hlast, -⟩ | ⟨change, hchange, hevents⟩⟩ := record_of_ok hrun hok
    · omega
    · exact ⟨traversal, change, hgrant, hchange, hevents⟩

section SingleNode

attribute [local instance] Sha256.zero

-- A deployment of one node, which commits without any message.
def commitAlone (audit : AuditLog) : Option Outcome :=
  (meshed node1).runTopologyConsensus .new node1 node2 [] audit

theorem commitAlone_ok {audit : AuditLog} (hroom : audit.isFull = false) :
    ∃ outcome, commitAlone audit = some outcome ∧ outcome.result = .ok () := by
  have hgate : ((meshed node1).graph.traverse node1 node2 audit).1 = .ok () :=
    gate_eq_ok.mpr ⟨by decide +kernel, hroom⟩
  unfold commitAlone BootState.runTopologyConsensus
  generalize (meshed node1).graph.traverse node1 node2 audit = traversed at hgate
  obtain ⟨gate, audit₁⟩ := traversed
  obtain rfl : gate = .ok () := hgate
  exact ⟨_, rfl, rfl⟩

theorem topologyChange_recorded_alone :
    ∃ outcome, commitAlone .new = some outcome ∧ outcome.result = .ok () ∧
      ∃ traversal change, Grants .topologyTraverse node1 traversal ∧
        Grants .topologyChange node1 change ∧
        outcome.audit.events.toList = AuditLog.new.events.toList ++ [traversal, change] := by
  obtain ⟨outcome, hrun, hok⟩ := commitAlone_ok AuditLog.isFull_new
  refine ⟨outcome, hrun, hok, ?_⟩
  exact (topologyChange_recorded_iff _ _ _ _ _ _ outcome hrun hok).mpr (by decide)

-- With one place left in the log the traversal takes it, and the change is committed
-- without a record.
theorem topologyChange_unrecorded :
    ∃ outcome, commitAlone (AuditLog.filled 511) = some outcome ∧ outcome.result = .ok () ∧
      ∀ event ∈ outcome.audit.events.toList, event.kind ≠ .topologyChange := by
  have hlen : (AuditLog.filled 511).len = 511 := by
    rw [AuditLog.len_filled]
    rfl
  have hroom : (AuditLog.filled 511).isFull = false := by
    rw [AuditLog.isFull_filled]
    rfl
  obtain ⟨outcome, hrun, hok⟩ := commitAlone_ok hroom
  refine ⟨outcome, hrun, hok, fun event hmem => ?_⟩
  obtain ⟨traversal, hgrant, ⟨-, hevents⟩ | ⟨change, -, hevents⟩⟩ := record_of_ok hrun hok
  · rw [hevents, List.mem_append, List.mem_singleton] at hmem
    rcases hmem with hold | rfl
    · rw [AuditLog.kind_filled 511 event hold]
      decide
    · rw [hgrant.1]
      decide
  · have hle := outcome.audit.events.length_le
    have hmax : MAX_AUDIT_EVENTS = 512 := rfl
    rw [hevents, List.length_append, List.length_cons, List.length_singleton] at hle
    rw [AuditLog.len, HVec.length_eq] at hlen
    omega

end SingleNode

end LuxKernel.Boot
