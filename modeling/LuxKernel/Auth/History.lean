import LuxKernel.Auth.Policy

namespace LuxKernel.Auth

open Audit Heapless

inductive Op where
  | check (cap : Capability) (right : CapabilitySet) (audit : AuditLog)
  | revoke (tokenId : UInt64)
  | rotate
deriving DecidableEq

-- A call together with what it returned.
inductive Event where
  | checked (cap : Capability) (right : CapabilitySet) (audit : AuditLog) (result : Result Unit)
  | revoked (tokenId : UInt64) (accepted : Bool)
  | rotated

def generationAfter (generation : Generation) : List Event → Generation
  | [] => generation
  | .rotated :: earlier => ⟨saturatingSucc (generationAfter generation earlier).val⟩
  | _ :: earlier => generationAfter generation earlier

def sinceRotation : List Event → List Event
  | [] => []
  | .rotated :: _ => []
  | event :: earlier => event :: sinceRotation earlier

-- The nonce of a check that returned `Ok`.
def accepted : Event → Option UInt64
  | .checked cap _ _ (.ok ()) => some cap.nonce
  | _ => none

-- The nonce of a check that returned `Ok` or `Err(AuditFull)`.
def consumed : Event → Option UInt64
  | .checked cap _ _ (.ok ()) => some cap.nonce
  | .checked cap _ _ (.error .auditFull) => some cap.nonce
  | _ => none

-- What the policy knows of its history since the last rotation: all of it that
-- a verdict can depend on.
structure Remembers (generation : Generation) (history : List Event) (policy : Policy) : Prop where
  generation : policy.currentGeneration = generationAfter generation history
  used : policy.usedNonces.toList.reverse = (sinceRotation history).filterMap consumed
  revoked : ∀ n, policy.revocation.isRevoked n = true ↔ .revoked n true ∈ sinceRotation history

variable {generation : Generation} {history : List Event} {policy : Policy}

theorem Remembers.new (generation : Generation) :
    Remembers generation [] (Policy.new generation) where
  generation := rfl
  used := rfl
  revoked n := by simp [Policy.new, sinceRotation]

theorem Remembers.revoke (h : Remembers generation history policy) (tokenId : UInt64) :
    Remembers generation (.revoked tokenId (policy.revokeCapability tokenId).1 :: history)
      (policy.revokeCapability tokenId).2 := by
  refine ⟨h.generation, ?_, fun n => ?_⟩
  · simp only [sinceRotation, List.filterMap_cons, consumed]
    exact h.used
  · have hrev := policy.revocation.isRevoked_revoke tokenId n
    simp only [sinceRotation, List.mem_cons, Event.revoked.injEq, ← h.revoked n]
    refine hrev.trans (or_congr ?_ Iff.rfl)
    exact ⟨fun hn => ⟨hn.2, hn.1.symm⟩, fun hn => ⟨hn.2.symm, hn.1⟩⟩

theorem Remembers.rotate (h : Remembers generation history policy) :
    Remembers generation (.rotated :: history) policy.rotateGeneration where
  generation := by simp only [Policy.rotateGeneration, generationAfter, h.generation]
  used := rfl
  revoked n := by
    simp [Policy.rotateGeneration, RevocationLedger.clear, RevocationLedger.isRevoked,
      IndexSet.contains, sinceRotation]

-- The verdict of a check, from the history alone.
structure Allowed (generation : Generation) (history : List Event) (cap : Capability)
    (right : CapabilitySet) : Prop where
  generation : cap.generation = generationAfter generation history
  rights : cap.rights.contains right = true
  unrevoked : .revoked cap.nonce true ∉ sinceRotation history
  unused : ∀ event ∈ sinceRotation history, consumed event ≠ some cap.nonce
  room : ((sinceRotation history).filterMap consumed).length < NONCE_WINDOW

theorem Remembers.admits_iff (h : Remembers generation history policy) (cap : Capability)
    (right : CapabilitySet) : policy.Admits cap right ↔ Allowed generation history cap right := by
  have hunused : cap.nonce ∉ policy.usedNonces.toList ↔
      ∀ event ∈ sinceRotation history, consumed event ≠ some cap.nonce := by
    rw [← List.mem_reverse, h.used, List.mem_filterMap]
    exact ⟨fun hn e he hc => hn ⟨e, he, hc⟩, fun hn ⟨e, he, hc⟩ => hn e he hc⟩
  have hunrevoked : policy.revocation.isRevoked cap.nonce = false ↔
      .revoked cap.nonce true ∉ sinceRotation history := by
    rw [← h.revoked, Bool.not_eq_true]
  have hroom : policy.usedNonces.toList.length =
      ((sinceRotation history).filterMap consumed).length := by
    rw [← h.used, List.length_reverse]
  constructor
  · intro hadm
    exact ⟨hadm.generation.trans h.generation, hadm.rights, hunrevoked.mp hadm.unrevoked,
      hunused.mp hadm.unused, hroom ▸ hadm.room⟩
  · intro hall
    exact ⟨hall.generation.trans h.generation.symm, hall.rights, hunrevoked.mpr hall.unrevoked,
      hunused.mpr hall.unused, hroom ▸ hall.room⟩

theorem consumed_of_accepted {event : Event} {n : UInt64} (h : accepted event = some n) :
    consumed event = some n := by
  unfold accepted at h
  split at h
  · exact h
  · cases h

variable [Sha256]

def Policy.perform (policy : Policy) : Op → Event × Policy
  | .check cap right audit =>
      let (result, policy, _) := policy.check cap right audit
      (.checked cap right audit result, policy)
  | .revoke tokenId =>
      let (accepted, policy) := policy.revokeCapability tokenId
      (.revoked tokenId accepted, policy)
  | .rotate => (.rotated, policy.rotateGeneration)

-- A run from a fresh policy. Calls and events are listed latest first.
def Policy.run (generation : Generation) : List Op → List Event × Policy
  | [] => ([], Policy.new generation)
  | op :: earlier =>
      let (history, policy) := Policy.run generation earlier
      let (event, policy) := policy.perform op
      (event :: history, policy)

theorem Remembers.check (h : Remembers generation history policy) (cap : Capability)
    (right : CapabilitySet) (audit : AuditLog) :
    Remembers generation (.checked cap right audit (policy.check cap right audit).1 :: history)
      (policy.check cap right audit).2.1 := by
  have huses := Policy.check_uses policy cap right audit
  rw [Policy.check_policy]
  generalize (policy.check cap right audit).1 = result at huses
  have hrevoked : ∀ n, Event.revoked n true ∈
      sinceRotation (.checked cap right audit result :: history) ↔
        .revoked n true ∈ sinceRotation history := by simp [sinceRotation]
  rcases policy.checkInner_cases cap right with ⟨hadm, -, used, hused, hpol⟩ | ⟨hadm, hpol, -⟩
  · have hcon : consumed (.checked cap right audit result) = some cap.nonce := by
      rcases huses.mpr hadm with rfl | rfl <;> rfl
    rw [hpol]
    refine ⟨h.generation, ?_, fun n => (h.revoked n).trans (hrevoked n).symm⟩
    simp only [sinceRotation, List.filterMap_cons, hcon]
    rw [hused, List.reverse_append, List.reverse_singleton, List.singleton_append, h.used]
  · have hcon : consumed (.checked cap right audit result) = none := by
      cases result with
      | ok => exact absurd (huses.mp (Or.inl rfl)) hadm
      | error e =>
          cases e with
          | auditFull => exact absurd (huses.mp (Or.inr rfl)) hadm
          | _ => rfl
    rw [hpol]
    refine ⟨h.generation, ?_, fun n => (h.revoked n).trans (hrevoked n).symm⟩
    simp only [sinceRotation, List.filterMap_cons, hcon]
    exact h.used

theorem Remembers.perform (h : Remembers generation history policy) (op : Op) :
    Remembers generation ((policy.perform op).1 :: history) (policy.perform op).2 := by
  cases op with
  | check cap right audit => exact h.check cap right audit
  | revoke tokenId => exact h.revoke tokenId
  | rotate => exact h.rotate

theorem remembers_run (generation : Generation) (ops : List Op) :
    Remembers generation (Policy.run generation ops).1 (Policy.run generation ops).2 := by
  induction ops with
  | nil => exact Remembers.new generation
  | cons op earlier ih => exact ih.perform op

theorem check_iff_allowed (generation : Generation) (ops : List Op) (cap : Capability)
    (right : CapabilitySet) (audit : AuditLog) :
    ((Policy.run generation ops).2.check cap right audit).1 = .ok () ↔
      Allowed generation (Policy.run generation ops).1 cap right ∧ audit.isFull = false := by
  rw [Policy.check_eq_ok, (remembers_run generation ops).admits_iff]

-- A later event `newer` does not accept what an earlier one has used or revoked.
def Respects (newer older : Event) : Prop :=
  ∀ n, accepted newer = some n → accepted older ≠ some n ∧ older ≠ .revoked n true

theorem perform_respects (generation : Generation) (earlier : List Op) (op : Op) (older : Event)
    (holder : older ∈ sinceRotation (Policy.run generation earlier).1) :
    Respects ((Policy.run generation earlier).2.perform op).1 older := by
  intro n hacc
  cases op with
  | revoke tokenId => cases hacc
  | rotate => cases hacc
  | check cap right audit =>
      simp only [Policy.perform] at hacc
      generalize hres : ((Policy.run generation earlier).2.check cap right audit).1 = result at hacc
      cases result with
      | error e => cases hacc
      | ok =>
          cases hacc
          have hall := ((check_iff_allowed generation earlier cap right audit).mp hres).1
          exact ⟨fun ha => hall.unused older holder (consumed_of_accepted ha),
            fun hrev => hall.unrevoked (hrev ▸ holder)⟩

theorem run_respects (generation : Generation) (ops : List Op) :
    (sinceRotation (Policy.run generation ops).1).Pairwise Respects := by
  induction ops with
  | nil => exact List.Pairwise.nil
  | cons op earlier ih =>
      have hop := perform_respects generation earlier op
      cases op with
      | rotate => exact List.Pairwise.nil
      | check cap right audit => exact List.pairwise_cons.mpr ⟨hop, ih⟩
      | revoke tokenId => exact List.pairwise_cons.mpr ⟨hop, ih⟩

-- The history characterisation of the policy gate.
theorem check_history (generation : Generation) (ops : List Op) :
    (∀ cap right audit,
      ((Policy.run generation ops).2.check cap right audit).1 = .ok () ↔
        cap.generation = generationAfter generation (Policy.run generation ops).1 ∧
        cap.rights.contains right = true ∧
        .revoked cap.nonce true ∉ sinceRotation (Policy.run generation ops).1 ∧
        (∀ event ∈ sinceRotation (Policy.run generation ops).1, consumed event ≠ some cap.nonce) ∧
        ((sinceRotation (Policy.run generation ops).1).filterMap consumed).length < NONCE_WINDOW ∧
        audit.isFull = false) ∧
    (sinceRotation (Policy.run generation ops).1).Pairwise Respects := by
  refine ⟨fun cap right audit => ?_, run_respects generation ops⟩
  rw [check_iff_allowed]
  constructor
  · rintro ⟨h, hfull⟩
    exact ⟨h.generation, h.rights, h.unrevoked, h.unused, h.room, hfull⟩
  · rintro ⟨hgen, hrights, hrev, hused, hroom, hfull⟩
    exact ⟨⟨hgen, hrights, hrev, hused, hroom⟩, hfull⟩

end LuxKernel.Auth
