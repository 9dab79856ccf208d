import LuxKernel.Auth.Policy
import LuxKernel.Topology.Graph
import LuxKernel.Metabolism.Quota

namespace LuxKernel.Audit

open Auth Metabolism
open LuxKernel.Topology

-- What the log shows of a call to a gate: one event that agrees with the answer, or,
-- when there is no room for it, nothing and no permission.
structure Recorded {α : Type} (before : AuditLog) (kind : EventKind) (actor : UInt32)
    (result : Result α) (after : AuditLog) : Prop where
  room : before.isFull = false → ∃ event,
    after.events.toList = before.events.toList ++ [event] ∧
    event.kind = kind ∧ event.actor = actor ∧
    (event.outcome = .permitted ↔ ∃ a, result = .ok a) ∧
    ∀ e, result = .error e →
      event.denialClass = some e.denialClass ∧ event.denialReason = some e.denialReasonStr
  full : before.isFull = true → after = before ∧ ∀ a, result ≠ .ok a

section

variable {α : Type} {log : AuditLog} {kind : EventKind} {actor : UInt32} {result : Result α}

theorem Recorded.of_full (h : log.isFull = true) (hdenied : ∀ a, result ≠ .ok a) :
    Recorded log kind actor result log := by
  refine ⟨fun hroom => ?_, fun _ => ⟨rfl, hdenied⟩⟩
  rw [h] at hroom
  cases hroom

variable [Sha256]

-- The event of an answer says what the answer says.
theorem Recorded.of_room (result : Result α) (h : log.isFull = false) :
    Recorded log kind actor result (log.append kind actor UNTIMED (denialOf result)).2 := by
  obtain ⟨events, hevents, happend⟩ :=
    AuditLog.append_of_room kind actor UNTIMED (denialOf result) h
  refine ⟨fun _ => ⟨log.eventFor kind actor UNTIMED (denialOf result), ?_, rfl, rfl, ?_, ?_⟩,
    fun hfull => ?_⟩
  · rw [happend]
    exact hevents
  · cases result <;> simp [AuditLog.eventFor, denialOf]
  · rintro e rfl
    exact ⟨rfl, rfl⟩
  · rw [h] at hfull
    cases hfull

theorem recorded_gate (result : Result Unit) :
    Recorded log kind actor (gate log kind actor result).1 (gate log kind actor result).2 := by
  rw [gate_log]
  cases hfull : log.isFull with
  | true =>
      rw [AuditLog.append_of_full hfull]
      apply Recorded.of_full hfull
      intro a hok
      have hroom := (gate_eq_ok.mp hok).2
      rw [hfull] at hroom
      cases hroom
  | false =>
      have hsame : (gate log kind actor result).1 = result := by
        cases hres : result with
        | error e => exact gate_error rfl
        | ok => exact gate_of_room rfl hfull
      rw [hsame]
      exact Recorded.of_room result hfull

theorem recorded_deduct (ledger : Ledger) (node : NodeId) (amount : UInt64) (resource : String) :
    Recorded log .resourceDeduction node.get
      (QuotaEnforcer.deduct ledger node amount resource log).1
      (QuotaEnforcer.deduct ledger node amount resource log).2.2 := by
  cases hfull : log.isFull with
  | true =>
      rw [QuotaEnforcer.deduct_of_full ledger node amount resource hfull]
      apply Recorded.of_full hfull
      intro a hok
      cases hok
  | false =>
      rw [(QuotaEnforcer.deduct_of_room ledger node amount resource hfull).2.2]
      exact Recorded.of_room _ hfull

-- The kinds and actors in the log, oldest first.
def AuditLog.entries (log : AuditLog) : List (EventKind × UInt32) :=
  log.events.toList.map fun event => (event.kind, event.actor)

omit [Sha256] in
theorem Recorded.entries {after : AuditLog} (h : Recorded log kind actor result after) :
    after.entries = (log.entries ++ [(kind, actor)]).take MAX_AUDIT_EVENTS := by
  have hlen : log.entries.length = log.events.toList.length := List.length_map _
  have hle := log.events.length_le
  cases hfull : log.isFull with
  | true =>
      have hmax := AuditLog.isFull_iff.mp hfull
      rw [(h.full hfull).1, List.take_append_of_le_length (by omega), List.take_of_length_le]
      omega
  | false =>
      obtain ⟨event, hevents, hkind, hactor, -⟩ := h.room hfull
      have hlen' := after.events.length_le
      rw [hevents, List.length_append, List.length_singleton] at hlen'
      rw [List.take_of_length_le, AuditLog.entries, hevents, List.map_append, hkind.symm,
        hactor.symm]
      · rfl
      · rw [List.length_append, List.length_singleton]
        omega

end

-- The parts of the kernel that write to one log.
structure Gates where
  policy : Policy
  graph : OperationalGraph
  ledger : Ledger
  audit : AuditLog

inductive Call where
  | check (cap : Capability) (right : CapabilitySet)
  | traverse (src dst : NodeId)
  | deduct (node : NodeId) (amount : UInt64) (resource : String)
  | revoke (tokenId : UInt64)
  | rotate

-- The kind and the actor under which a gate logs the call.
def Call.entry : Call → Option (EventKind × UInt32)
  | .check cap _ => some (.capabilityCheck, cap.target.get)
  | .traverse src _ => some (.topologyTraverse, src.get)
  | .deduct node _ _ => some (.resourceDeduction, node.get)
  | .revoke _ => none
  | .rotate => none

inductive Reply where
  | verdict (result : Result Unit)
  | remaining (result : Result UInt64)
  | revoked (accepted : Bool)
  | rotated

structure Step where
  call : Call
  before : AuditLog
  reply : Reply
  after : AuditLog

def Step.Accounted (step : Step) : Prop :=
  match step.call.entry, step.reply with
  | some (kind, actor), .verdict result => Recorded step.before kind actor result step.after
  | some (kind, actor), .remaining result => Recorded step.before kind actor result step.after
  | some _, _ => False
  | none, _ => step.after = step.before

namespace Gates

section

variable [Sha256]

def perform (gates : Gates) : Call → Reply × Gates
  | .check cap right =>
      let (result, policy, audit) := gates.policy.check cap right gates.audit
      (.verdict result, { gates with policy := policy, audit := audit })
  | .traverse src dst =>
      let (result, audit) := gates.graph.traverse src dst gates.audit
      (.verdict result, { gates with audit := audit })
  | .deduct node amount resource =>
      let (result, ledger, audit) :=
        QuotaEnforcer.deduct gates.ledger node amount resource gates.audit
      (.remaining result, { gates with ledger := ledger, audit := audit })
  | .revoke tokenId =>
      let (accepted, policy) := gates.policy.revokeCapability tokenId
      (.revoked accepted, { gates with policy := policy })
  | .rotate => (.rotated, { gates with policy := gates.policy.rotateGeneration })

-- The calls of a run, earliest first, with the log before and after each.
def trace (gates : Gates) : List Call → List Step
  | [] => []
  | call :: later =>
      let (reply, next) := gates.perform call
      ⟨call, gates.audit, reply, next.audit⟩ :: next.trace later

theorem perform_accounted (gates : Gates) (call : Call) :
    Step.Accounted ⟨call, gates.audit, (gates.perform call).1, (gates.perform call).2.audit⟩ := by
  cases call with
  | check cap right => exact recorded_gate _
  | traverse src dst => exact recorded_gate _
  | deduct node amount resource => exact recorded_deduct gates.ledger node amount resource
  | revoke tokenId => rfl
  | rotate => rfl

def run (gates : Gates) (calls : List Call) : Gates :=
  calls.foldl (fun gates call => (gates.perform call).2) gates

theorem entries_perform (gates : Gates) (call : Call) : (gates.perform call).2.audit.entries =
    (gates.audit.entries ++ call.entry.toList).take MAX_AUDIT_EVENTS := by
  have hlen : gates.audit.entries.length ≤ MAX_AUDIT_EVENTS := by
    rw [AuditLog.entries, List.length_map]
    exact gates.audit.events.length_le
  have hstep := gates.perform_accounted call
  cases call with
  | check cap right => exact Recorded.entries hstep
  | traverse src dst => exact Recorded.entries hstep
  | deduct node amount resource => exact Recorded.entries hstep
  | revoke tokenId =>
      show gates.audit.entries = (gates.audit.entries ++ []).take _
      rw [List.append_nil, List.take_of_length_le hlen]
  | rotate =>
      show gates.audit.entries = (gates.audit.entries ++ []).take _
      rw [List.append_nil, List.take_of_length_le hlen]

-- Over a whole run, the log gains the gate calls in their order, each once, for as
-- long as it has room.
theorem entries_run (gates : Gates) (calls : List Call) : (gates.run calls).audit.entries =
    (gates.audit.entries ++ calls.filterMap Call.entry).take MAX_AUDIT_EVENTS := by
  induction calls generalizing gates with
  | nil =>
      rw [List.filterMap_nil, List.append_nil, List.take_of_length_le]
      · rfl
      · rw [AuditLog.entries, List.length_map]
        exact gates.audit.events.length_le
  | cons call later ih =>
      have hrun : gates.run (call :: later) = (gates.perform call).2.run later := rfl
      have hentries : (call :: later).filterMap Call.entry =
          call.entry.toList ++ later.filterMap Call.entry := by
        cases hentry : call.entry <;> simp [hentry]
      rw [hrun, ih, entries_perform, hentries, ← List.append_assoc,
        Heapless.take_take_append]

-- No gate answers without a record, in any interleaving and at any fill level.
theorem gates_accounted (gates : Gates) (calls : List Call) :
    ∀ step ∈ gates.trace calls, step.Accounted := by
  induction calls generalizing gates with
  | nil => simp [trace]
  | cons call later ih =>
      intro step hstep
      rcases List.mem_cons.mp hstep with rfl | hlater
      · exact gates.perform_accounted call
      · exact ih (gates.perform call).2 step hlater

end

section

attribute [local instance] Sha256.zero

def bare : Gates := ⟨Policy.new ⟨0⟩, BootingGraph.new.sealed, Ledger.new, AuditLog.new⟩

-- An undeclared edge after a rotation: the denial is on record.
theorem gates_accounted_bare :
    ∃ step ∈ bare.trace [.rotate, .traverse node1 node2],
      step.call.entry = some (.topologyTraverse, 1) ∧ step.Accounted := by
  have hmem : (bare.trace [.rotate, .traverse node1 node2])[1] ∈
      bare.trace [.rotate, .traverse node1 node2] := List.getElem_mem _
  exact ⟨_, hmem, rfl, gates_accounted bare _ _ hmem⟩

end

end Gates

end LuxKernel.Audit
