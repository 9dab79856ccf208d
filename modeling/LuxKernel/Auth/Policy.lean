import LuxKernel.Auth.Capability
import LuxKernel.Audit.Log

namespace LuxKernel.Auth

open Audit Heapless

structure RevocationLedger where
  revoked : IndexSet UInt64 MAX_REVOCATIONS
  epoch : UInt64
deriving DecidableEq

namespace RevocationLedger

def new : RevocationLedger := ⟨IndexSet.empty, 0⟩

def revoke (ledger : RevocationLedger) (tokenId : UInt64) : Bool × RevocationLedger :=
  match ledger.revoked.insert tokenId with
  | some (_, revoked) => (true, ⟨revoked, saturatingSucc ledger.epoch⟩)
  | none => (false, ledger)

def isRevoked (ledger : RevocationLedger) (tokenId : UInt64) : Bool :=
  ledger.revoked.contains tokenId

def clear (_ : RevocationLedger) : RevocationLedger := ⟨IndexSet.empty, 0⟩

@[simp] theorem isRevoked_new (tokenId : UInt64) : new.isRevoked tokenId = false := rfl

-- A revocation that is reported as done is in effect, and none is lost.
theorem isRevoked_revoke (ledger : RevocationLedger) (tokenId n : UInt64) :
    (ledger.revoke tokenId).2.isRevoked n = true ↔
      ((ledger.revoke tokenId).1 = true ∧ n = tokenId) ∨ ledger.isRevoked n = true := by
  unfold revoke isRevoked IndexSet.contains
  cases h : ledger.revoked.insert tokenId with
  | none => simp
  | some result =>
      obtain ⟨fresh, revoked⟩ := result
      simp [IndexSet.mem_of_insert h]

end RevocationLedger

structure Policy where
  currentGeneration : Generation
  usedNonces : HVec UInt64 NONCE_WINDOW
  revocation : RevocationLedger
deriving DecidableEq

namespace Policy

def new (generation : Generation) : Policy := ⟨generation, HVec.empty, .new⟩

def checkInner (policy : Policy) (cap : Capability) (requiredRight : CapabilitySet) :
    Result Unit × Policy :=
  if cap.authorises requiredRight policy.currentGeneration = false then
    (.error (.capabilityDenied "token expired, insufficient rights, or wrong generation"), policy)
  else if policy.revocation.isRevoked cap.nonce = true then
    (.error (.capabilityDenied "capability revoked"), policy)
  else if cap.nonce ∈ policy.usedNonces.toList then
    (.error (.capabilityDenied "nonce replayed"), policy)
  else
    match policy.usedNonces.push cap.nonce with
    | none => (.error (.capabilityDenied "nonce window exhausted; rotate generation"), policy)
    | some usedNonces => (.ok (), { policy with usedNonces := usedNonces })

def check [Sha256] (policy : Policy) (cap : Capability) (requiredRight : CapabilitySet)
    (audit : AuditLog) : Result Unit × Policy × AuditLog :=
  let (result, policy) := policy.checkInner cap requiredRight
  let (result, audit) := gate audit .capabilityCheck cap.target.get result
  (result, policy, audit)

def revokeCapability (policy : Policy) (tokenId : UInt64) : Bool × Policy :=
  let (revoked, ledger) := policy.revocation.revoke tokenId
  (revoked, { policy with revocation := ledger })

def rotateGeneration (policy : Policy) : Policy :=
  { currentGeneration := ⟨saturatingSucc policy.currentGeneration.val⟩
    usedNonces := HVec.empty
    revocation := policy.revocation.clear }

-- The four tests of `check_inner`.
structure Admits (policy : Policy) (cap : Capability) (right : CapabilitySet) : Prop where
  generation : cap.generation = policy.currentGeneration
  rights : cap.rights.contains right = true
  unrevoked : policy.revocation.isRevoked cap.nonce = false
  unused : cap.nonce ∉ policy.usedNonces.toList
  room : policy.usedNonces.toList.length < NONCE_WINDOW

variable {policy : Policy} {cap : Capability} {right : CapabilitySet}

-- Either all tests pass and the nonce is used up, or the check is denied and the
-- policy stays as it was.
theorem checkInner_cases (policy : Policy) (cap : Capability) (right : CapabilitySet) :
    (policy.Admits cap right ∧ (policy.checkInner cap right).1 = .ok () ∧
      ∃ usedNonces, usedNonces.toList = policy.usedNonces.toList ++ [cap.nonce] ∧
        (policy.checkInner cap right).2 = { policy with usedNonces := usedNonces }) ∨
    (¬policy.Admits cap right ∧ (policy.checkInner cap right).2 = policy ∧
      ∃ reason, (policy.checkInner cap right).1 = .error (.capabilityDenied reason)) := by
  unfold checkInner
  split
  · rename_i hauth
    refine Or.inr ⟨fun hadm => ?_, rfl, _, rfl⟩
    simp [Capability.authorises, hadm.generation, hadm.rights] at hauth
  rename_i hauth
  rw [Bool.not_eq_false, Capability.authorises, Bool.and_eq_true, decide_eq_true_eq] at hauth
  split
  · rename_i hrev
    refine Or.inr ⟨fun hadm => ?_, rfl, _, rfl⟩
    rw [hadm.unrevoked] at hrev
    cases hrev
  rename_i hrev
  rw [Bool.not_eq_true] at hrev
  split
  · rename_i hused
    exact Or.inr ⟨fun hadm => hadm.unused hused, rfl, _, rfl⟩
  rename_i hused
  cases hpush : policy.usedNonces.push cap.nonce with
  | none =>
      have hfull := HVec.push_eq_none_iff.mp hpush
      exact Or.inr ⟨fun hadm => Nat.not_lt.mpr hfull hadm.room, rfl, _, rfl⟩
  | some usedNonces =>
      obtain ⟨hroom, hlist⟩ := HVec.push_eq_some_iff.mp hpush
      exact Or.inl ⟨⟨hauth.1, hauth.2, hrev, hused, hroom⟩, rfl, usedNonces, hlist, rfl⟩

variable [Sha256] {audit : AuditLog}

theorem check_result : (policy.check cap right audit).1 =
    (gate audit .capabilityCheck cap.target.get (policy.checkInner cap right).1).1 := rfl

theorem check_policy : (policy.check cap right audit).2.1 = (policy.checkInner cap right).2 := rfl

theorem check_eq_ok : (policy.check cap right audit).1 = .ok () ↔
    policy.Admits cap right ∧ audit.isFull = false := by
  rw [check_result, gate_eq_ok]
  rcases policy.checkInner_cases cap right with ⟨hadm, hok, -⟩ | ⟨hadm, -, reason, herr⟩
  · simp [hadm, hok]
  · simp [hadm, herr]

-- The nonce is used up exactly when the tests pass, logged or not.
theorem check_uses (policy : Policy) (cap : Capability) (right : CapabilitySet)
    (audit : AuditLog) : (policy.check cap right audit).1 = .ok () ∨
    (policy.check cap right audit).1 = .error .auditFull ↔ policy.Admits cap right := by
  rcases policy.checkInner_cases cap right with ⟨hadm, hok, -⟩ | ⟨hadm, -, reason, herr⟩
  · rw [check_result]
    cases hfull : audit.isFull with
    | true => simp [hadm, gate_of_full hok hfull]
    | false => simp [hadm, gate_of_room hok hfull]
  · simp [check_result, hadm, gate_error herr]

-- A check keeps everything that the policy has recorded.
theorem check_keeps (policy : Policy) (cap : Capability) (right : CapabilitySet)
    (audit : AuditLog) :
    (policy.check cap right audit).2.1.currentGeneration = policy.currentGeneration ∧
      (policy.check cap right audit).2.1.revocation = policy.revocation ∧
      policy.usedNonces.toList ⊆ (policy.check cap right audit).2.1.usedNonces.toList := by
  rw [check_policy]
  rcases policy.checkInner_cases cap right with ⟨-, -, usedNonces, hused, hpolicy⟩ | ⟨-, hpolicy, -⟩
  · rw [hpolicy]
    exact ⟨rfl, rfl, hused ▸ List.subset_append_left _ _⟩
  · rw [hpolicy]
    exact ⟨rfl, rfl, List.Subset.refl _⟩

-- An accepted check records its nonce.
theorem nonce_used_of_check (h : (policy.check cap right audit).1 = .ok ()) :
    cap.nonce ∈ (policy.check cap right audit).2.1.usedNonces.toList := by
  rw [check_policy]
  rcases policy.checkInner_cases cap right with ⟨-, -, usedNonces, hused, hpolicy⟩ | ⟨hdenied, -⟩
  · rw [hpolicy]
    exact hused ▸ List.mem_append_right _ (List.mem_singleton_self _)
  · exact absurd (check_eq_ok.mp h).1 hdenied

end Policy

end LuxKernel.Auth
