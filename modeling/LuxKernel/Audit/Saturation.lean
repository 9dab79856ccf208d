import LuxKernel.Audit.Chain
import LuxKernel.Audit.Gates
import LuxKernel.Auth.History

namespace LuxKernel.Audit

open Heapless Auth Metabolism
open LuxKernel.Topology

-- A log after so many permitted checks.
def AuditLog.filled [Sha256] (count : Nat) : AuditLog :=
  appendAll (List.replicate count ⟨.capabilityCheck, 1, UNTIMED, none⟩)

theorem AuditLog.len_filled [Sha256] (count : Nat) :
    (filled count).len = min count MAX_AUDIT_EVENTS := by
  rw [filled, len_appendAll, List.length_replicate]

theorem AuditLog.isFull_filled [Sha256] (count : Nat) :
    (filled count).isFull = decide (MAX_AUDIT_EVENTS ≤ count) := by
  rw [filled, isFull_appendAll, List.length_replicate]

theorem AuditLog.kind_filled [Sha256] (count : Nat) :
    ∀ event ∈ (filled count).events.toList, event.kind = .capabilityCheck := by
  intro event h
  have hkind := List.mem_map_of_mem (f := AuditEvent.kind) h
  rw [filled, map_appendAll AuditEvent.kind Append.kind (fun _ _ => rfl), List.map_take] at hkind
  have hmem := List.mem_of_mem_take hkind
  simp only [List.reverse_replicate, List.map_replicate] at hmem
  exact List.eq_of_mem_replicate hmem

theorem AuditLog.isFull_filled_max [Sha256] : (filled MAX_AUDIT_EVENTS).isFull = true := by
  rw [isFull_filled, decide_eq_true_eq]

end LuxKernel.Audit

namespace LuxKernel.Auth

open Audit Heapless

section Denials

variable [Sha256] {policy : Policy} {cap : Capability} {right : CapabilitySet} {audit : AuditLog}

-- The answers to a continuation, earliest first.
def Policy.answers (policy : Policy) : List Op → List Event
  | [] => []
  | op :: later =>
      let (event, policy) := policy.perform op
      event :: policy.answers later

theorem Policy.check_of_full (hadm : policy.Admits cap right) (hfull : audit.isFull = true) :
    (policy.check cap right audit).1 = .error .auditFull := by
  rcases policy.checkInner_cases cap right with ⟨-, hok, -⟩ | ⟨hdenied, -⟩
  · exact gate_of_full hok hfull
  · exact absurd hadm hdenied

-- The nonce is used up whatever the log does with the verdict.
theorem Policy.check_ne_of_admits (hadm : policy.Admits cap right) (audit : AuditLog) :
    (policy.check cap right audit).2.1 ≠ policy := by
  rw [check_policy]
  rcases policy.checkInner_cases cap right with ⟨-, -, usedNonces, hused, hpolicy⟩ | ⟨hdenied, -⟩
  · intro hsame
    have hlist : (policy.checkInner cap right).2.usedNonces.toList = policy.usedNonces.toList := by
      rw [hsame]
    rw [hpolicy] at hlist
    simp [hused] at hlist
  · exact absurd hadm hdenied

theorem Policy.check_eq_of_not_admits (hdenied : ¬policy.Admits cap right) (audit : AuditLog) :
    (policy.check cap right audit).2.1 = policy := by
  rcases policy.checkInner_cases cap right with ⟨hadm, -⟩ | ⟨-, hpolicy, -⟩
  · exact absurd hadm hdenied
  · exact hpolicy

-- A denied check leaves the policy and all later answers alone, except when the tests
-- pass and the log has no room.
theorem denied_check_inert_iff (policy : Policy) (cap : Capability) (right : CapabilitySet)
    (audit : AuditLog) :
    (∀ e, (policy.check cap right audit).1 = .error e →
      (policy.check cap right audit).2.1 = policy ∧
      ∀ ops, (policy.check cap right audit).2.1.answers ops = policy.answers ops) ↔
    audit.isFull = false ∨ ¬policy.Admits cap right := by
  constructor
  · intro hinert
    by_contra hcond
    rw [not_or, not_not, Bool.not_eq_false] at hcond
    obtain ⟨hfull, hadm⟩ := hcond
    exact Policy.check_ne_of_admits hadm audit (hinert _ (Policy.check_of_full hadm hfull)).1
  · intro hcond e herr
    have hdenied : ¬policy.Admits cap right := by
      rcases hcond with hroom | hdenied
      · intro hadm
        rw [Policy.check_eq_ok.mpr ⟨hadm, hroom⟩] at herr
        cases herr
      · exact hdenied
    rw [Policy.check_eq_of_not_admits hdenied audit]
    exact ⟨rfl, fun _ => rfl⟩

end Denials

section

attribute [local instance] Sha256.zero

def unspent : Capability := ⟨node1, node1, .SCHEDULE, ⟨0⟩, 7⟩

-- A valid token meets a full log. The check is denied, and so is the next one with the
-- token, on a log that has room.
theorem denied_check_spends_nonce :
    let policy := Policy.new ⟨0⟩
    let denied := policy.check unspent .SCHEDULE (AuditLog.filled MAX_AUDIT_EVENTS)
    denied.1 = .error .auditFull ∧ denied.2.1 ≠ policy ∧
    policy.answers [.check unspent .SCHEDULE .new] = [.checked unspent .SCHEDULE .new (.ok ())] ∧
    denied.2.1.answers [.check unspent .SCHEDULE .new] =
      [.checked unspent .SCHEDULE .new (.error (.capabilityDenied "nonce replayed"))] := by
  have hadm : (Policy.new ⟨0⟩).Admits unspent .SCHEDULE :=
    ⟨rfl, by decide, by decide, by decide, by decide⟩
  have hok : ((Policy.new ⟨0⟩).check unspent .SCHEDULE AuditLog.new).1 = .ok () :=
    Policy.check_eq_ok.mpr ⟨hadm, by decide⟩
  have hreplayed : (((Policy.new ⟨0⟩).checkInner unspent .SCHEDULE).2.check unspent .SCHEDULE
      AuditLog.new).1 = .error (.capabilityDenied "nonce replayed") := by
    rw [Policy.check_result]
    exact gate_error (by decide +kernel)
  refine ⟨Policy.check_of_full hadm AuditLog.isFull_filled_max,
    Policy.check_ne_of_admits hadm _, ?_, ?_⟩
  · simp only [Policy.answers, Policy.perform, hok]
  · rw [Policy.check_policy]
    simp only [Policy.answers, Policy.perform, hreplayed]

end

end LuxKernel.Auth

namespace LuxKernel.Audit

open Auth Metabolism
open LuxKernel.Topology

-- What the answer of a gate becomes when there is no room to log it.
def saturate {α : Type} : Result α → Result α
  | .ok _ => .error .auditFull
  | .error e => .error e

def Reply.saturated : Reply → Reply
  | .verdict result => .verdict (saturate result)
  | .remaining result => .remaining (saturate result)
  | .revoked accepted => .revoked accepted
  | .rotated => .rotated

-- The deductions that the balance covers, and every other call.
def Call.Covered (ledger : Ledger) : Call → Prop
  | .deduct node amount _ => ∃ balance, ledger.balance node = some balance ∧ amount ≤ balance
  | _ => True

section Saturation

variable [Sha256] {full room : AuditLog}

theorem gate_saturated (hfull : full.isFull = true) (hroom : room.isFull = false)
    (kind : EventKind) (actor : UInt32) (result : Result Unit) :
    (gate full kind actor result).1 = saturate (gate room kind actor result).1 := by
  cases hresult : result with
  | error e => rw [gate_error rfl, gate_error rfl, saturate]
  | ok => rw [gate_of_full rfl hfull, gate_of_room rfl hroom, saturate]

theorem deduct_saturated_iff (hfull : full.isFull = true) (hroom : room.isFull = false)
    (ledger : Ledger) (node : NodeId) (amount : UInt64) (resource : String) :
    (QuotaEnforcer.deduct ledger node amount resource full).1 =
        saturate (QuotaEnforcer.deduct ledger node amount resource room).1 ↔
      ∃ balance, ledger.balance node = some balance ∧ amount ≤ balance := by
  rw [QuotaEnforcer.deduct_of_full ledger node amount resource hfull,
    (QuotaEnforcer.deduct_of_room ledger node amount resource hroom).1]
  rcases ledger.deduct_cases node amount with ⟨held, hheld, hle, hsome, -⟩ | ⟨hshort, hnone⟩
  · simp [hsome, saturate, hheld, hle]
  · constructor
    · intro hsame
      simp [hnone, saturate] at hsame
    · rintro ⟨held, hheld, hle⟩
      exact absurd (hshort held hheld) (UInt64.not_lt.mpr hle)

theorem perform_deduct (gates : Gates) (node : NodeId) (amount : UInt64) (resource : String) :
    (gates.perform (.deduct node amount resource)).1 =
      .remaining (QuotaEnforcer.deduct gates.ledger node amount resource gates.audit).1 := rfl

-- The three gates with a full log and, in the same state, with one that has room.
theorem saturation_masks_nothing_iff (gates : Gates) (call : Call) (full room : AuditLog)
    (hfull : full.isFull = true) (hroom : room.isFull = false) :
    ({ gates with audit := full }.perform call).1 =
        ({ gates with audit := room }.perform call).1.saturated ↔
      call.Covered gates.ledger := by
  cases call with
  | check cap right =>
      refine iff_of_true (congrArg Reply.verdict ?_) trivial
      exact gate_saturated hfull hroom _ _ _
  | traverse src dst =>
      refine iff_of_true (congrArg Reply.verdict ?_) trivial
      exact gate_saturated hfull hroom _ _ _
  | deduct node amount resource =>
      rw [perform_deduct, perform_deduct, Reply.saturated, Reply.remaining.injEq]
      exact deduct_saturated_iff hfull hroom gates.ledger node amount resource
  | revoke tokenId => exact iff_of_true rfl trivial
  | rotate => exact iff_of_true rfl trivial

end Saturation

section

attribute [local instance] Sha256.zero

-- One node with five units.
def funded : Gates := { Gates.bare with ledger := (Ledger.new.seed node1 ⟨5⟩).2 }

theorem saturation_masks_nothing_funded :
    ({ funded with audit := AuditLog.filled MAX_AUDIT_EVENTS }.perform
        (.deduct node1 5 "compute")).1 =
      ({ funded with audit := AuditLog.new }.perform (.deduct node1 5 "compute")).1.saturated :=
  (saturation_masks_nothing_iff funded (.deduct node1 5 "compute") _ _
    AuditLog.isFull_filled_max (by decide)).mpr ⟨5, by decide +kernel, by decide⟩

-- Six units are too many with any log, and the full log hides it.
theorem overdraft_masked :
    ({ funded with audit := AuditLog.filled MAX_AUDIT_EVENTS }.perform
        (.deduct node1 6 "compute")).1 = .remaining (.error .auditFull) ∧
      ({ funded with audit := AuditLog.new }.perform (.deduct node1 6 "compute")).1 =
        .remaining (.error (.quotaExceeded "compute")) := by
  constructor
  · rw [perform_deduct, QuotaEnforcer.deduct_of_full _ _ _ _ AuditLog.isFull_filled_max]
  · rw [perform_deduct, (QuotaEnforcer.deduct_of_room _ _ _ _ (by decide)).1]
    exact congrArg Reply.remaining (by decide +kernel)

end

end LuxKernel.Audit
