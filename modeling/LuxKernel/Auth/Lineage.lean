import LuxKernel.Auth.History

namespace LuxKernel.Auth

open Audit

-- A chain of successful `delegate` calls. The list holds the proper ancestors of the
-- last token, its parent first.
inductive Lineage (root : Capability) : List Capability → Capability → Prop where
  | root : Lineage root [] root
  | delegate {ancestors : List Capability} {parent child : Capability} {newTarget : NodeId}
      {subset : CapabilitySet} {nonce : UInt64} (line : Lineage root ancestors parent)
      (step : parent.delegate newTarget subset nonce = some child) :
      Lineage root (parent :: ancestors) child

namespace Lineage

variable {root cap : Capability} {ancestors : List Capability}

theorem generation_eq (h : Lineage root ancestors cap) : cap.generation = root.generation := by
  induction h with
  | root => rfl
  | delegate _ step ih =>
      obtain ⟨-, -, rfl⟩ := Capability.delegate_eq_some.mp step
      exact ih

theorem contains_rights (h : Lineage root ancestors cap) :
    ∀ ancestor ∈ root :: ancestors, ancestor.rights.contains cap.rights = true := by
  induction h with
  | root =>
      intro ancestor hmem
      obtain rfl := List.mem_singleton.mp hmem
      exact CapabilitySet.contains_self _
  | @delegate ancestors parent child newTarget subset nonce _ step ih =>
      obtain ⟨-, hsubset, rfl⟩ := Capability.delegate_eq_some.mp step
      intro ancestor hmem
      -- The parent itself, or one of its own ancestors.
      have hcases : ancestor = parent ∨ ancestor ∈ root :: ancestors := by
        simp only [List.mem_cons] at hmem ⊢
        tauto
      rcases hcases with rfl | hold
      · exact hsubset
      · exact CapabilitySet.contains_trans (ih ancestor hold) hsubset

theorem ancestors_delegate (h : Lineage root ancestors cap) :
    ∀ ancestor ∈ ancestors, ancestor.rights.contains .DELEGATE = true := by
  induction h with
  | root => simp
  | delegate _ step ih =>
      obtain ⟨hright, -, -⟩ := Capability.delegate_eq_some.mp step
      intro ancestor hmem
      rcases List.mem_cons.mp hmem with rfl | hold
      · exact hright
      · exact ih ancestor hold

theorem root_mem (h : Lineage root ancestors cap) : ancestors = [] ∨ root ∈ ancestors := by
  induction h with
  | root => exact Or.inl rfl
  | delegate line _ ih =>
      right
      rcases ih with rfl | hmem
      · cases line
        exact List.mem_cons_self
      · exact List.mem_cons_of_mem _ hmem

theorem issuer_eq {parent : Capability} (h : Lineage root (parent :: ancestors) cap) :
    cap.issuer = parent.target := by
  cases h with
  | delegate _ step =>
      obtain ⟨-, -, rfl⟩ := Capability.delegate_eq_some.mp step
      rfl

end Lineage

section

variable [Sha256]

-- The state after further calls, listed latest first, on a policy in any state.
def Policy.after (policy : Policy) (ops : List Op) : Policy :=
  ops.foldr (fun op policy => (policy.perform op).2) policy

theorem Policy.generation_le_perform (policy : Policy) (op : Op) :
    policy.currentGeneration.val.toNat ≤ (policy.perform op).2.currentGeneration.val.toNat := by
  cases op with
  | revoke tokenId => exact Nat.le_refl _
  | rotate => exact le_saturatingSucc _
  | check cap right audit =>
      show _ ≤ (policy.checkInner cap right).2.currentGeneration.val.toNat
      rcases policy.checkInner_cases cap right with ⟨-, -, used, -, hpol⟩ | ⟨-, hpol, -⟩
      · rw [hpol]
      · rw [hpol]

theorem Policy.generation_le_after (policy : Policy) (ops : List Op) :
    policy.currentGeneration.val.toNat ≤ (policy.after ops).currentGeneration.val.toNat := by
  induction ops with
  | nil => exact Nat.le_refl _
  | cons op ops ih => exact ih.trans ((policy.after ops).generation_le_perform op)

variable {root cap : Capability} {ancestors : List Capability} {policy : Policy}

theorem Lineage.root_of_check (h : Lineage root ancestors cap) {right : CapabilitySet}
    {audit : AuditLog} (hok : (policy.check cap right audit).1 = .ok ()) :
    root.rights.contains right = true ∧ root.generation = policy.currentGeneration := by
  obtain ⟨hadm, -⟩ := Policy.check_eq_ok.mp hok
  have hroot := h.contains_rights root List.mem_cons_self
  exact ⟨CapabilitySet.contains_trans hroot hadm.rights,
    h.generation_eq.symm.trans hadm.generation⟩

-- One rotation puts the whole tree behind the counter, for good.
theorem Lineage.denied_of_rotated (h : Lineage root ancestors cap)
    (hgen : root.generation = policy.currentGeneration)
    (hmax : policy.currentGeneration.val ≠ U64_MAX) (later : List Op) (right : CapabilitySet)
    (audit : AuditLog) : ((policy.rotateGeneration.after later).check cap right audit).1 ≠ .ok () := by
  intro hok
  have hlt : policy.currentGeneration.val.toNat <
      policy.rotateGeneration.currentGeneration.val.toNat := lt_saturatingSucc hmax
  have hle := policy.rotateGeneration.generation_le_after later
  rw [← (h.root_of_check hok).2, hgen] at hle
  omega

-- Whatever is delegated stays within its root.
theorem delegation_confined (root cap : Capability) (ancestors : List Capability)
    (h : Lineage root ancestors cap) :
    (∀ ancestor ∈ root :: ancestors, ancestor.rights.contains cap.rights = true) ∧
    (∀ ancestor ∈ ancestors, ancestor.rights.contains .DELEGATE = true) ∧
    cap.generation = root.generation ∧
    (∀ parent, ancestors.head? = some parent → cap.issuer = parent.target) ∧
    (∀ (policy : Policy) right audit, (policy.check cap right audit).1 = .ok () →
      root.rights.contains right = true ∧ root.generation = policy.currentGeneration) ∧
    (∀ policy : Policy, root.generation = policy.currentGeneration →
      policy.currentGeneration.val ≠ U64_MAX → ∀ later right audit,
        ((policy.rotateGeneration.after later).check cap right audit).1 ≠ .ok ()) := by
  refine ⟨h.contains_rights, h.ancestors_delegate, h.generation_eq, fun parent hparent => ?_,
    fun _ _ _ => h.root_of_check, fun _ => h.denied_of_rotated⟩
  obtain ⟨rest, rfl⟩ := List.head?_eq_some_iff.mp hparent
  exact h.issuer_eq

end

section

attribute [local instance] Sha256.zero

-- Node 1 hands scheduling to node 2, which hands it on to node 3.
def treeRoot : Capability := ⟨node1, node1, ⟨12⟩, ⟨0⟩, 1⟩
def treeChild : Capability := ⟨node1, node2, ⟨12⟩, ⟨0⟩, 2⟩
def treeLeaf : Capability := ⟨node2, node3, .SCHEDULE, ⟨0⟩, 3⟩

theorem lineage_treeLeaf : Lineage treeRoot [treeChild, treeRoot] treeLeaf := by
  have hchild : Lineage treeRoot [treeRoot] treeChild :=
    .delegate .root (show treeRoot.delegate node2 ⟨12⟩ 2 = some treeChild from rfl)
  exact .delegate hchild (show treeChild.delegate node3 .SCHEDULE 3 = some treeLeaf from rfl)

theorem delegation_confined_treeLeaf :
    ((Policy.new ⟨0⟩).check treeLeaf .SCHEDULE .new).1 = .ok () ∧
      treeRoot.rights.contains .SCHEDULE = true ∧
      ((Policy.new ⟨0⟩).rotateGeneration.check treeLeaf .SCHEDULE .new).1 ≠ .ok () := by
  obtain ⟨-, -, -, -, hroot, hrotated⟩ :=
    delegation_confined treeRoot treeLeaf [treeChild, treeRoot] lineage_treeLeaf
  have hok : ((Policy.new ⟨0⟩).check treeLeaf .SCHEDULE .new).1 = .ok () := by decide +kernel
  exact ⟨hok, (hroot _ _ _ hok).1, hrotated (Policy.new ⟨0⟩) rfl (by decide) [] _ _⟩

end

end LuxKernel.Auth
