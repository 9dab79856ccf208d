import LuxKernel.Spec.Refinement

namespace LuxKernel.Spec

open Audit Auth Boot Heapless Metabolism Transition
open LuxKernel.Topology

section Grants

variable {s : System} {maxCaps : Nat} {edges : Finset (NodeId × NodeId)}

theorem useCap_enabled {token : Token} {r : Fin 32} :
    (machine (constants edges maxCaps)).Enabled s.abs (.useCap token.record r) ↔
      token.record ∈ s.abs.issuedCaps ∧ s.abs.IsValidCap token.record ∧
        r ∈ rightsOf token.cap.rights := by
  constructor
  · rintro ⟨s', hstep⟩
    exact (Option.ite_none_right_eq_some.mp hstep).1
  · intro h
    exact ⟨_, if_pos h⟩

-- `delegate` looks at the rights only. The rest of what the specification demands is left
-- to the caller.
theorem delegate_enabled {token : Token} {newTarget : NodeId} {subset : CapabilitySet}
    (nonce : UInt64) :
    (machine (constants edges maxCaps)).Enabled s.abs
        (.delegate token.record newTarget (rightsOf subset)) ↔
      (∃ cap, token.cap.delegate newTarget subset nonce = some cap) ∧
        token.record ∈ s.abs.issuedCaps ∧ s.Valid token ∧ subset.bits ≠ 0 ∧
        s.nextNonce < UInt64.size ∧ s.abs.issuedCaps.card < maxCaps := by
  constructor
  · rintro ⟨s', hstep⟩
    obtain ⟨hissued, hvalid, hright, hsub, hne, hnonce, hcard⟩ :=
      (Option.ite_none_right_eq_some.mp hstep).1
    exact ⟨⟨_, Capability.delegate_eq_some.mpr
        ⟨delegate_mem_iff.mpr hright, contains_iff_subset.mpr hsub, rfl⟩⟩,
      hissued, (valid_iff token (bits_ne_zero hright)).mp hvalid, rightsOf_ne_empty.mp hne,
      Nat.lt_succ_of_le hnonce, hcard⟩
  · rintro ⟨⟨cap, hcap⟩, hissued, hvalid, hne, hnonce, hcard⟩
    obtain ⟨hright, hsub, -⟩ := Capability.delegate_eq_some.mp hcap
    have hmem := delegate_mem_iff.mp hright
    exact ⟨_, if_pos ⟨hissued, (valid_iff token (bits_ne_zero hmem)).mpr hvalid, hmem,
      contains_iff_subset.mp hsub, rightsOf_ne_empty.mpr hne, Nat.le_of_lt_succ hnonce, hcard⟩⟩

variable [Sha256]

-- The kernel does not know which tokens were handed out.
theorem check_granted {token : Token} {right : CapabilitySet} (hright : right.bits ≠ 0) :
    ((s.gates.perform (.check token.cap right)).1 = .verdict (.ok ()) ∧
        token.record ∈ s.abs.issuedCaps) ↔
      (∀ r ∈ rightsOf right,
        (machine (constants edges maxCaps)).Enabled s.abs (.useCap token.record r)) ∧
      s.gates.policy.usedNonces.length < NONCE_WINDOW ∧ s.gates.audit.isFull = false := by
  have hreply : (s.gates.perform (.check token.cap right)).1 = .verdict (.ok ()) ↔
      s.gates.policy.Admits token.cap right ∧ s.gates.audit.isFull = false := by
    rw [← Policy.check_eq_ok]
    exact ⟨fun h => by injection h, fun h => congrArg Reply.verdict h⟩
  obtain ⟨r, hr⟩ := Finset.nonempty_iff_ne_empty.mpr (rightsOf_ne_empty.mpr hright)
  rw [hreply]
  constructor
  · rintro ⟨⟨hadm, hroom⟩, hissued⟩
    have hsub := contains_iff_subset.mp hadm.rights
    have hvalid := (valid_iff token (bits_ne_zero (hsub hr))).mpr
      ⟨hadm.generation, hadm.unrevoked, hadm.unused⟩
    exact ⟨fun r hr => useCap_enabled.mpr ⟨hissued, hvalid, hsub hr⟩, hadm.room, hroom⟩
  · rintro ⟨hall, hwindow, hroom⟩
    have hsub : rightsOf right ⊆ rightsOf token.cap.rights := fun r hr =>
      (useCap_enabled.mp (hall r hr)).2.2
    obtain ⟨hissued, hvalid, -⟩ := useCap_enabled.mp (hall r hr)
    obtain ⟨hgen, hunrevoked, hunused⟩ := (valid_iff token (bits_ne_zero (hsub hr))).mp hvalid
    exact ⟨⟨⟨hgen, contains_iff_subset.mpr hsub, hunrevoked, hunused, hwindow⟩, hroom⟩, hissued⟩

theorem traverse_granted (h : s.Permits edges) {src dst : NodeId} :
    (s.gates.perform (.traverse src dst)).1 = .verdict (.ok ()) ↔
      (machine (P := NodeId) (constants edges maxCaps)).Enabled s.abs (.traverseEdge src dst) ∧
        s.gates.audit.isFull = false := by
  have hreply : (s.gates.perform (.traverse src dst)).1 = .verdict (.ok ()) ↔
      s.gates.graph.traverseInner src dst = .ok () ∧ s.gates.audit.isFull = false := by
    have hgate : (s.gates.graph.traverse src dst s.gates.audit).1 = .ok () ↔ _ := gate_eq_ok
    exact ⟨fun h => hgate.mp (by injection h), fun h => congrArg Reply.verdict (hgate.mpr h)⟩
  have henabled : (machine (P := NodeId) (constants edges maxCaps)).Enabled s.abs
      (.traverseEdge src dst) ↔ (src, dst) ∈ edges := by
    constructor
    · rintro ⟨s', hstep⟩
      exact (Option.ite_none_right_eq_some.mp hstep).1
    · intro h
      exact ⟨_, if_pos h⟩
  rw [hreply, henabled, h src dst]

theorem deduct_granted {node : NodeId} {amount : UInt64} {resource : String} (hpos : amount ≠ 0) :
    (∃ left, (s.gates.perform (.deduct node amount resource)).1 = .remaining (.ok left)) ↔
      (machine (constants edges maxCaps)).Enabled s.abs (.deductResource node amount.toNat) ∧
        s.gates.audit.isFull = false := by
  have henabled : (machine (constants edges maxCaps)).Enabled s.abs
      (.deductResource node amount.toNat) ↔
        ∃ held, s.gates.ledger.balance node = some held ∧ amount ≤ held := by
    constructor
    · rintro ⟨s', hstep⟩
      have hle : amount.toNat ≤ (s.gates.ledger.balance node).elim 0 UInt64.toNat :=
        (Option.ite_none_right_eq_some.mp hstep).1.2.2
      cases hheld : s.gates.ledger.balance node with
      | none =>
          have hone := one_le_toNat hpos
          rw [hheld, Option.elim_none] at hle
          omega
      | some held =>
          rw [hheld] at hle
          exact ⟨held, rfl, hle⟩
    · rintro ⟨held, hheld, hle⟩
      have hle' : amount.toNat ≤ s.abs.balances node := by
        simp only [System.abs, hheld]
        exact hle
      exact ⟨_, if_pos ⟨one_le_toNat hpos, toNat_le_max amount, hle'⟩⟩
  have hreply (left : UInt64) :
      (s.gates.perform (.deduct node amount resource)).1 = .remaining (.ok left) ↔
        (QuotaEnforcer.deduct s.gates.ledger node amount resource s.gates.audit).1 = .ok left :=
    ⟨fun h => by injection h, fun h => congrArg Reply.remaining h⟩
  simp only [hreply]
  rw [henabled]
  cases hfull : s.gates.audit.isFull with
  | true =>
      rw [QuotaEnforcer.deduct_of_full s.gates.ledger node amount resource hfull]
      simp
  | false =>
      rw [(QuotaEnforcer.deduct_of_room s.gates.ledger node amount resource hfull).1]
      rcases s.gates.ledger.deduct_cases node amount with
        ⟨held, hheld, hle, hsome, -⟩ | ⟨hshort, hnone⟩
      · simp [hsome, hheld, hle]
      · simp only [hnone, Option.elim_none, reduceCtorEq, exists_false, and_true, false_iff]
        rintro ⟨held, hheld, hle⟩
        exact absurd (hshort held hheld) (UInt64.not_lt.mpr hle)

-- What the kernel grants and what the specification enables, after any calls, whether or
-- not the callers have kept to their side.
theorem kernel_grants_spec {T : Type} [Minicbor] [Tpm.TpmProvider T] {raw : Bytes}
    {credentials : BootCredentials} {tpm : T} {state : BootState}
    (hboot : (BootState.initialiseWithTpm raw credentials tpm).1 = .ok state)
    (audit : AuditLog) (maxCaps : Nat) {moves : List SystemMove}
    (hrun : System.machine.run (System.boot state audit) moves = some s) :
    ∃ manifest, ManifestDecoder.decode raw credentials = .ok manifest ∧
      (∀ (token : Token) (right : CapabilitySet), right.bits ≠ 0 →
        (((s.gates.perform (.check token.cap right)).1 = .verdict (.ok ()) ∧
            token.record ∈ s.abs.issuedCaps) ↔
          (∀ r ∈ rightsOf right, (machine (specOf manifest maxCaps)).Enabled s.abs
            (.useCap token.record r)) ∧
          s.gates.policy.usedNonces.length < NONCE_WINDOW ∧ s.gates.audit.isFull = false)) ∧
      (∀ src dst, (s.gates.perform (.traverse src dst)).1 = .verdict (.ok ()) ↔
        (machine (P := NodeId) (specOf manifest maxCaps)).Enabled s.abs (.traverseEdge src dst) ∧
          s.gates.audit.isFull = false) ∧
      (∀ node amount resource, amount ≠ 0 →
        ((∃ left, (s.gates.perform (.deduct node amount resource)).1 = .remaining (.ok left)) ↔
          (machine (specOf manifest maxCaps)).Enabled s.abs (.deductResource node amount.toNat) ∧
            s.gates.audit.isFull = false)) ∧
      ∀ (token : Token) newTarget subset nonce,
        ((machine (specOf manifest maxCaps)).Enabled s.abs
            (.delegate token.record newTarget (rightsOf subset)) ↔
          (∃ cap, token.cap.delegate newTarget subset nonce = some cap) ∧
            token.record ∈ s.abs.issuedCaps ∧ s.Valid token ∧ subset.bits ≠ 0 ∧
            s.nextNonce < UInt64.size ∧ s.abs.issuedCaps.card < maxCaps) := by
  obtain ⟨manifest, hdecode, hreal, -⟩ := initialiseWithTpm_realised hboot
  have hpermits := permits_run (permits_boot audit hreal) hrun
  exact ⟨manifest, hdecode, fun _ _ hright => check_granted hright,
    fun _ _ => traverse_granted hpermits, fun _ _ _ hpos => deduct_granted hpos,
    fun _ _ _ nonce => delegate_enabled nonce⟩

end Grants

section

attribute [local instance] Sha256.zero Cbor.reader

-- The root token was revoked. `delegate` still makes another token of it, with a nonce that
-- is in use, and the specification does not.
theorem kernel_grants_spec_revoked : ∃ state s manifest, bootOneEdge = .ok state ∧
    System.machine.run (System.boot state AuditLog.new)
      (sampleMoves ++ [.delegate rootToken node2 .SCHEDULE 1]) = some s ∧
    s.issued.length = 3 ∧
    ¬(machine (specOf manifest 4)).Enabled s.abs
      (.delegate rootToken.record node2 (rightsOf .SCHEDULE)) := by
  have hrun : (match bootOneEdge with
      | .ok state =>
          (System.machine.run (System.boot state AuditLog.new)
            (sampleMoves ++ [.delegate rootToken node2 .SCHEDULE 1])).any fun s =>
              decide (s.issued.length = 3 ∧ ¬s.Valid rootToken)
      | .error _ => false) = true := by decide +kernel
  split at hrun
  · rename_i state hboot
    obtain ⟨s, hs, hdone⟩ := (Option.any_eq_true _ _).mp hrun
    obtain ⟨hthree, hrevoked⟩ := of_decide_eq_true hdone
    obtain ⟨manifest, -, -, -, -, hdelegate⟩ := kernel_grants_spec hboot AuditLog.new 4 hs
    refine ⟨state, s, manifest, hboot, hs, hthree, fun henabled => ?_⟩
    exact hrevoked ((hdelegate rootToken node2 .SCHEDULE 1).mp henabled).2.2.1
  · cases hrun

end

end LuxKernel.Spec
