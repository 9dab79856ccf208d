import LuxKernel.Spec.System

namespace LuxKernel.Spec

open Audit Auth Boot Function Heapless Metabolism Transition
open LuxKernel.Topology

section Follow

variable {s : System} {maxCaps : Nat} {edges : Finset (NodeId × NodeId)}

theorem revoke_enabled (n : UInt64) :
    (machine (constants edges maxCaps)).run s.abs [.revokeCap n.toNat] =
      some (s.abs.revoke n.toNat) := by
  rw [Machine.run_singleton]
  exact if_pos (toNat_le_max n)

-- A token that is presented is found among those handed out.
theorem exists_find {cap : Capability} {right : CapabilitySet}
    (h : s.Disciplined maxCaps (.call (.check cap right))) :
    ∃ token ∈ s.issued, token.cap = cap ∧
      (s.issued.find? fun token => decide (token.cap = cap)) = some token := by
  obtain ⟨presented, hpresented, heq⟩ := h
  have hsome : (s.issued.find? fun token => decide (token.cap = cap)).isSome = true :=
    List.find?_isSome.mpr ⟨presented, hpresented, decide_eq_true heq⟩
  obtain ⟨token, hfind⟩ := Option.isSome_iff_exists.mp hsome
  exact ⟨token, List.mem_of_find?_eq_some hfind, by simpa using List.find?_some hfind, hfind⟩

theorem balances_deduct {node : NodeId} {amount held : UInt64} (hle : amount ≤ held)
    (hbalance : ∀ n, (s.gates.ledger.deduct node amount).2.balance n =
      if n = node then some (held - amount) else s.gates.ledger.balance n) :
    (fun n => ((s.gates.ledger.deduct node amount).2.balance n).elim 0 UInt64.toNat) =
      update s.abs.balances node (held.toNat - amount.toNat) := by
  funext n
  rw [hbalance n]
  by_cases hn : n = node
  · subst hn
    rw [if_pos rfl, update_self]
    exact UInt64.toNat_sub_of_le _ _ hle
  · rw [if_neg hn, update_of_ne hn]
    rfl

variable [Sha256]

-- The graph permits these edges and no others, and no call changes it.
def System.Permits (edges : Finset (NodeId × NodeId)) (s : System) : Prop :=
  ∀ src dst, s.gates.graph.traverseInner src dst = .ok () ↔ (src, dst) ∈ edges

-- What the system's calls do to the specification's state.
def Follows (edges : Finset (NodeId × NodeId)) (maxCaps : Nat) (s : System) (move : SystemMove) :
    Prop :=
  (machine (constants edges maxCaps)).run s.abs (s.label move).toList = some (s.perform move).abs

theorem follows_issue {cap : Capability} (h : s.Disciplined maxCaps (.issue cap)) :
    Follows edges maxCaps s (.issue cap) := by
  obtain ⟨hissuer, hrights, hgen, hnonce, hlen⟩ := h
  have hle : s.abs.nextNonce ≤ U64_MAX.toNat :=
    (Nat.le_of_eq hnonce.symm).trans (toNat_le_max cap.nonce)
  refine (Machine.run_singleton).trans ?_
  rw [System.perform, abs_handOut ⟨cap, cap.rights⟩ hgen hnonce, hissuer]
  exact if_pos ⟨rightsOf_ne_empty.mpr hrights, hle, card_issued hlen⟩

theorem follows_delegate {token : Token} {newTarget : NodeId} {subset : CapabilitySet}
    {nonce : UInt64} (h : s.Disciplined maxCaps (.delegate token newTarget subset nonce)) :
    Follows edges maxCaps s (.delegate token newTarget subset nonce) := by
  obtain ⟨hissued, hvalid, hsubset, hnonce, hlen⟩ := h
  have hle : s.abs.nextNonce ≤ U64_MAX.toNat :=
    (Nat.le_of_eq hnonce.symm).trans (toNat_le_max nonce)
  simp only [Follows, System.label, System.perform]
  cases hdel : token.cap.delegate newTarget subset nonce with
  | none => rfl
  | some cap =>
      obtain ⟨hright, hcontains, rfl⟩ := Capability.delegate_eq_some.mp hdel
      have hmem := delegate_mem_iff.mp hright
      let child : Token :=
        ⟨⟨token.cap.target, newTarget, subset, token.cap.generation, nonce⟩, token.root⟩
      refine (Machine.run_singleton).trans (Eq.trans ?_
        (congrArg some (abs_handOut child hvalid.1 hnonce).symm))
      exact if_pos ⟨record_mem hissued, (valid_iff token (bits_ne_zero hmem)).mpr hvalid, hmem,
        contains_iff_subset.mp hcontains, rightsOf_ne_empty.mpr hsubset, hle, card_issued hlen⟩

-- An admitted check uses up the nonce, whether or not it is then granted.
theorem abs_after_admitted {cap : Capability} {right : CapabilitySet}
    (h : s.gates.policy.Admits cap right) :
    (s.after (.check cap right)).abs = s.abs.revoke cap.nonce.toNat := by
  rcases s.gates.policy.checkInner_cases cap right with
    ⟨-, -, used, hused, hpolicy⟩ | ⟨hnot, -⟩
  · have hgates : (s.after (.check cap right)).gates.policy =
        { s.gates.policy with usedNonces := used } := hpolicy
    refine State.ext rfl ?_ ?_ rfl rfl rfl
    · rw [System.abs, hgates]
      refine spent_eq_insert fun n => ?_
      rw [hused, List.mem_append, List.mem_singleton, or_right_comm, or_comm (b := n = _)]
    · rw [System.abs, hgates]
      rfl
  · exact absurd h hnot

theorem abs_after_denied {cap : Capability} {right : CapabilitySet}
    (h : ¬s.gates.policy.Admits cap right) : (s.after (.check cap right)).abs = s.abs := by
  rcases s.gates.policy.checkInner_cases cap right with ⟨hadm, -⟩ | ⟨-, hpolicy, -⟩
  · exact absurd hadm h
  · have hgates : (s.after (.check cap right)).gates.policy = s.gates.policy := hpolicy
    refine State.ext rfl ?_ ?_ rfl rfl rfl
    · rw [System.abs, hgates]
      rfl
    · rw [System.abs, hgates]
      rfl

-- A check that does not use up its nonce stands for nothing.
theorem callLabel_denied {cap : Capability} {right : CapabilitySet}
    (h : ¬s.gates.policy.Admits cap right) :
    callLabel s.issued (.check cap right)
      (.verdict (s.gates.policy.check cap right s.gates.audit).1) = none := by
  have huses := Policy.check_uses s.gates.policy cap right s.gates.audit
  generalize (s.gates.policy.check cap right s.gates.audit).1 = result at huses
  cases result with
  | ok => exact absurd (huses.mp (Or.inl rfl)) h
  | error e =>
      cases e with
      | auditFull => exact absurd (huses.mp (Or.inr rfl)) h
      | _ => rfl

theorem follows_check {cap : Capability} {right : CapabilitySet}
    (h : s.Disciplined maxCaps (.call (.check cap right))) :
    Follows edges maxCaps s (.call (.check cap right)) := by
  have hreply : (s.gates.perform (.check cap right)).1 =
      .verdict (s.gates.policy.check cap right s.gates.audit).1 := rfl
  simp only [Follows, System.label, System.perform, hreply]
  by_cases hadm : s.gates.policy.Admits cap right
  · rw [abs_after_admitted hadm]
    rcases (Policy.check_uses s.gates.policy cap right s.gates.audit).mpr hadm with hok | hfull
    · obtain ⟨token, hmem, hcap, hfind⟩ := exists_find h
      rw [hok, callLabel, hfind, Option.map_some]
      cases hright : firstRight right with
      | none => exact revoke_enabled cap.nonce
      | some r =>
          -- the record is there, still valid, and holds the right
          have hheld := contains_iff_subset.mp hadm.rights (firstRight_mem hright)
          subst hcap
          have hvalid := (valid_iff token (bits_ne_zero hheld)).mpr
            ⟨hadm.generation, hadm.unrevoked, hadm.unused⟩
          refine (Machine.run_singleton).trans ?_
          exact if_pos ⟨record_mem hmem, hvalid, hheld⟩
    · rw [hfull]
      exact revoke_enabled cap.nonce
  · rw [abs_after_denied hadm, callLabel_denied hadm]
    rfl

theorem follows_traverse (h : s.Permits edges) {src dst : NodeId} :
    Follows edges maxCaps s (.call (.traverse src dst)) := by
  have hreply : (s.gates.perform (.traverse src dst)).1 =
      .verdict (s.gates.graph.traverse src dst s.gates.audit).1 := rfl
  simp only [Follows, System.label, System.perform, System.after, hreply]
  cases hresult : (s.gates.graph.traverse src dst s.gates.audit).1 with
  | error e => rfl
  | ok =>
      rw [OperationalGraph.traverse, gate_eq_ok] at hresult
      exact (Machine.run_singleton).trans (if_pos ((h src dst).mp hresult.1))

theorem abs_after_deduct {node : NodeId} {amount : UInt64} {resource : String} {ledger : Ledger}
    (h : (QuotaEnforcer.deduct s.gates.ledger node amount resource s.gates.audit).2.1 = ledger) :
    (s.after (.deduct node amount resource)).abs =
      { s.abs with balances := fun n => (ledger.balance n).elim 0 UInt64.toNat } := by
  rw [← h]
  rfl

theorem follows_deduct {node : NodeId} {amount : UInt64} {resource : String} :
    Follows edges maxCaps s (.call (.deduct node amount resource)) := by
  have hreply : (s.gates.perform (.deduct node amount resource)).1 =
      .remaining (QuotaEnforcer.deduct s.gates.ledger node amount resource s.gates.audit).1 := rfl
  simp only [Follows, System.label, System.perform, hreply]
  cases hfull : s.gates.audit.isFull with
  | true =>
      have hsame := QuotaEnforcer.deduct_of_full s.gates.ledger node amount resource hfull
      rw [abs_after_deduct (congrArg (fun r => r.2.1) hsame), hsame]
      rfl
  | false =>
      obtain ⟨hresult, hledger, -⟩ :=
        QuotaEnforcer.deduct_of_room s.gates.ledger node amount resource hfull
      rw [abs_after_deduct hledger, hresult]
      rcases s.gates.ledger.deduct_cases node amount with
        ⟨held, hheld, hle, hsome, hbalance⟩ | ⟨-, hnone⟩
      · have hbal : s.abs.balances node = held.toNat := by
          simp only [System.abs, hheld, Option.elim_some]
        have hle' : amount.toNat ≤ held.toNat := hle
        rw [hsome, balances_deduct hle hbalance]
        simp only [Option.elim_some, callLabel]
        by_cases hzero : amount = 0
        · subst hzero
          have hkeep :
              update s.abs.balances node (held.toNat - UInt64.toNat 0) = s.abs.balances := by
            rw [UInt64.toNat_zero, Nat.sub_zero, ← hbal, update_eq_self]
          rw [if_pos rfl, hkeep]
          rfl
        · rw [if_neg hzero, ← hbal]
          refine (Machine.run_singleton).trans ?_
          exact if_pos ⟨one_le_toNat hzero, toNat_le_max amount, hbal ▸ hle'⟩
      · rw [hnone]
        rfl

theorem follows_revoke {tokenId : UInt64} :
    Follows edges maxCaps s (.call (.revoke tokenId)) := by
  have hrevoked := s.gates.policy.revocation.isRevoked_revoke tokenId
  have hreply : (s.gates.perform (.revoke tokenId)).1 =
      .revoked (s.gates.policy.revocation.revoke tokenId).1 := rfl
  simp only [Follows, System.label, System.perform, hreply]
  cases hdone : (s.gates.policy.revocation.revoke tokenId).1 with
  | true =>
      have hspent : spent (s.after (.revoke tokenId)).gates.policy =
          insert tokenId.toNat (spent s.gates.policy) := by
        refine spent_eq_insert fun n => ?_
        refine (or_congr Iff.rfl (hrevoked n)).trans ?_
        rw [hdone]
        tauto
      have habs : (s.after (.revoke tokenId)).abs = s.abs.revoke tokenId.toNat :=
        State.ext rfl hspent rfl rfl rfl rfl
      rw [habs]
      exact revoke_enabled tokenId
  | false =>
      have hsame : (s.gates.policy.revocation.revoke tokenId).2 = s.gates.policy.revocation := by
        unfold RevocationLedger.revoke at hdone ⊢
        split at hdone
        · cases hdone
        · rfl
      have hpolicy : (s.after (.revoke tokenId)).gates.policy = s.gates.policy := by
        show ({ s.gates.policy with
          revocation := (s.gates.policy.revocation.revoke tokenId).2 } : Policy) = _
        rw [hsame]
      have habs : (s.after (.revoke tokenId)).abs = s.abs :=
        State.ext rfl (congrArg spent hpolicy) rfl rfl rfl rfl
      rw [habs]
      rfl

theorem follows_rotate (h : s.Disciplined maxCaps (.call .rotate)) :
    Follows edges maxCaps s (.call .rotate) := by
  have hne : s.gates.policy.currentGeneration.val ≠ U64_MAX := h
  have hlt := lt_saturatingSucc hne
  have hmax := toNat_le_max (saturatingSucc s.gates.policy.currentGeneration.val)
  have hsize : U64_MAX.toNat + 1 = UInt64.size := rfl
  have hsucc : (saturatingSucc s.gates.policy.currentGeneration.val).toNat =
      s.gates.policy.currentGeneration.val.toNat + 1 := toNat_saturatingSucc (by omega)
  refine (Machine.run_singleton).trans ?_
  have hepoch : s.abs.epoch < (constants edges maxCaps).maxEpoch := Nat.lt_of_lt_of_le hlt hmax
  refine (if_pos hepoch).trans (congrArg some (State.ext rfl rfl hsucc.symm rfl rfl rfl))

theorem follows (h : s.Permits edges) {move : SystemMove} (hmove : s.Disciplined maxCaps move) :
    Follows edges maxCaps s move := by
  cases move with
  | issue cap => exact follows_issue hmove
  | delegate token newTarget subset nonce => exact follows_delegate hmove
  | call call =>
      cases call with
      | check cap right => exact follows_check hmove
      | traverse src dst => exact follows_traverse h
      | deduct node amount resource => exact follows_deduct
      | revoke tokenId => exact follows_revoke
      | rotate => exact follows_rotate hmove

-- The graph is sealed.
theorem graph_perform (s : System) (move : SystemMove) :
    (s.perform move).gates.graph = s.gates.graph := by
  cases move with
  | issue cap => rfl
  | delegate token newTarget subset nonce =>
      simp only [System.perform]
      split <;> rfl
  | call call => cases call <;> rfl

theorem permits_step (h : s.Permits edges) {move : SystemMove} {s' : System}
    (hstep : System.machine.step s move = some s') : s'.Permits edges := by
  rw [← Option.some.inj hstep, System.Permits, graph_perform]
  exact h

theorem permits_run (h : s.Permits edges) {moves : List SystemMove} {s' : System}
    (hrun : System.machine.run s moves = some s') : s'.Permits edges :=
  Machine.run_invariant (fun _ _ _ h hstep => permits_step h hstep) h hrun

-- The kernel, as its callers are told to use it, and the specification.
def simulation (edges : Finset (NodeId × NodeId)) (maxCaps : Nat) :
    Simulation (System.disciplined maxCaps) (machine (P := NodeId) (constants edges maxCaps)) where
  abs := System.abs
  Inv := System.Permits edges
  label := System.label
  keeps h hstep := permits_step h (Machine.step_restrict.mp hstep).2
  follows h hstep := by
    obtain ⟨hmove, hstep⟩ := Machine.step_restrict.mp hstep
    rw [← Option.some.inj hstep]
    exact follows h hmove

end Follow

section Boot

instance : Finite NodeId :=
  Finite.of_injective (fun id => (⟨id.get.toNat, id.get.toNat_lt⟩ : Fin (2 ^ 32))) fun _ _ h =>
    NodeId.ext (UInt32.toNat_inj.mp (congrArg Fin.val h))

def manifestEdges (manifest : Manifest) : Finset (NodeId × NodeId) :=
  (manifest.edges.toList.map fun edge => (edge.src, edge.dst)).toFinset

theorem mem_manifestEdges {manifest : Manifest} {src dst : NodeId} :
    (src, dst) ∈ manifestEdges manifest ↔
      ∃ edge ∈ manifest.edges.toList, src = edge.src ∧ dst = edge.dst := by
  simp [manifestEdges, Prod.ext_iff, eq_comm]

variable {state : BootState} {manifest : Manifest}

theorem permits_boot (audit : AuditLog) (h : manifest.Realised state.graph state.ledger) :
    (System.boot state audit).Permits (manifestEdges manifest) := by
  intro src dst
  rw [mem_manifestEdges, ← Manifest.permitsEdge_iff]
  exact h.traverseInner_eq_ok src dst

-- In the specification every principal starts with the same balance. The quotas of a
-- manifest are reached from there by deductions.
theorem exists_seeding (audit : AuditLog) (hpolicy : state.policy = Policy.new ⟨0⟩)
    (c : Constants NodeId (Fin 32)) (hmax : c.maxResources = U64_MAX.toNat) :
    ∃ seeding : List (Action NodeId NodeId (Fin 32)),
      (∀ action ∈ seeding, ∃ p n, action = .deductResource p n) ∧
      (machine c).run (init c) seeding = some (System.boot state audit).abs := by
  have := Fintype.ofFinite NodeId
  have habs : (System.boot state audit).abs =
      { init c with balances := (System.boot state audit).abs.balances } := by
    refine State.ext rfl ?_ ?_ rfl rfl rfl
    · rw [System.abs, System.boot, hpolicy]
      rfl
    · rw [System.abs, System.boot, hpolicy]
      rfl
  rw [habs]
  refine exists_deductions Finset.univ (fun p => ?_) (fun p => Nat.le_refl _)
    fun p hp => absurd (Finset.mem_univ p) hp
  have hle : (state.ledger.balance p).elim 0 UInt64.toNat ≤ U64_MAX.toNat := by
    cases state.ledger.balance p with
    | none => exact Nat.zero_le _
    | some held => exact toNat_le_max held
  exact hle.trans_eq hmax.symm

variable [Sha256]

-- The specification for a manifest, and the actions that a run stands for.
def specOf (manifest : Manifest) (maxCaps : Nat) : Constants NodeId (Fin 32) :=
  constants (manifestEdges manifest) maxCaps

def actionsOf (manifest : Manifest) (maxCaps : Nat) (s : System) (moves : List SystemMove) :
    List (Action NodeId NodeId (Fin 32)) :=
  (simulation (manifestEdges manifest) maxCaps).labels s moves

section

variable {T : Type} [Minicbor] [Tpm.TpmProvider T] {raw : Bytes}
variable {credentials : BootCredentials} {tpm : T}

end

end Boot

section

attribute [local instance] Sha256.zero Cbor.reader

-- One edge, from node 1 to node 2, and five units for node 1.
def oneEdge : Bytes :=
  List.replicate 64 0 ++ [0x83, 0x01, 0x81, 0x82, 0x01, 0x02, 0x81, 0x82, 0x01, 0x05]

def anySignature : BootCredentials := ⟨fun _ _ => .ok ()⟩

def rootToken : Token := ⟨⟨node1, node1, ⟨12⟩, ⟨0⟩, 0⟩, ⟨12⟩⟩
def childToken : Token := ⟨⟨node1, node2, .SCHEDULE, ⟨0⟩, 1⟩, ⟨12⟩⟩

def sampleMoves : List SystemMove :=
  [.issue rootToken.cap, .delegate rootToken node2 .SCHEDULE 1,
    .call (.check childToken.cap .SCHEDULE), .call (.traverse node1 node2),
    .call (.deduct node1 3 "cpu"), .call (.revoke 0)]

def bootOneEdge : Result BootState := BootState.initialise oneEdge anySignature

theorem exists_sampleRun : ∃ state s, bootOneEdge = .ok state ∧
    (System.disciplined 2).run (System.boot state AuditLog.new) sampleMoves = some s ∧
    rootToken ∈ s.issued ∧ s.abs.executedTraversals = {(node1, node2)} := by
  have hrun : (match bootOneEdge with
      | .ok state =>
          ((System.disciplined 2).run (System.boot state AuditLog.new) sampleMoves).any fun s =>
            decide (rootToken ∈ s.issued ∧ s.crossed = {(node1, node2)})
      | .error _ => false) = true := by decide +kernel
  split at hrun
  · rename_i state hboot
    obtain ⟨s, hs, hdone⟩ := (Option.any_eq_true _ _).mp hrun
    exact ⟨state, s, hboot, hs, of_decide_eq_true hdone⟩
  · cases hrun

end

end LuxKernel.Spec
