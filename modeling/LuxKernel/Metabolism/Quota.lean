import LuxKernel.Metabolism.Ledger
import LuxKernel.Audit.Log

namespace LuxKernel.Metabolism

open Audit

namespace QuotaEnforcer

-- Unlike `gate`, the deduction is refused before it is made when it cannot be logged:
-- made first, it would leave a change of the balance without a record.
def deduct [Sha256] (ledger : Ledger) (node : NodeId) (amount : UInt64) (resource : String)
    (audit : AuditLog) : Result UInt64 × Ledger × AuditLog :=
  if audit.isFull = true then (.error .auditFull, ledger, audit)
  else
    let (remaining, ledger) := ledger.deduct node amount
    let result : Result UInt64 := remaining.elim (.error (.quotaExceeded resource)) .ok
    let (_, audit) := audit.append .resourceDeduction node.get UNTIMED (denialOf result)
    (result, ledger, audit)

variable [Sha256] {audit : AuditLog}

theorem deduct_of_full (ledger : Ledger) (node : NodeId) (amount : UInt64) (resource : String)
    (h : audit.isFull = true) :
    deduct ledger node amount resource audit = (.error .auditFull, ledger, audit) := by
  rw [deduct, if_pos h]

theorem deduct_of_room (ledger : Ledger) (node : NodeId) (amount : UInt64) (resource : String)
    (h : audit.isFull = false) :
    (deduct ledger node amount resource audit).1 =
        (ledger.deduct node amount).1.elim (.error (.quotaExceeded resource)) .ok ∧
      (deduct ledger node amount resource audit).2.1 = (ledger.deduct node amount).2 ∧
      (deduct ledger node amount resource audit).2.2 =
        (audit.append .resourceDeduction node.get UNTIMED
          (denialOf (deduct ledger node amount resource audit).1)).2 := by
  have hroom : ¬audit.isFull = true := by simp [h]
  simp only [deduct, if_neg hroom, and_self]

end QuotaEnforcer

end LuxKernel.Metabolism
