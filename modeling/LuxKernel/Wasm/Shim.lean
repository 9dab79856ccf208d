import LuxKernel.Auth.Policy
import LuxKernel.Boot.Initialise
import LuxKernel.Metabolism.Quota
import LuxKernel.Topology.Graph

namespace LuxKernel.Wasm

open Audit Auth Boot Heapless Metabolism LuxKernel.Topology

def MAX_WASM_CAPS : Nat := 64

def RC_PERMITTED : Int := 0
def RC_CAP_DENIED : Int := 1
def RC_QUOTA_EXCEEDED : Int := 2
def RC_TOPO_VIOLATION : Int := 3
def RC_INVALID_HANDLE : Int := -1

structure WasmShim where
  policy : Policy
  ledger : Ledger
  graph : OperationalGraph
  audit : AuditLog
  capTable : HVec (Option Capability) MAX_WASM_CAPS

namespace WasmShim

def fromParts (policy : Policy) (ledger : Ledger) (graph : OperationalGraph) : WasmShim :=
  ⟨policy, ledger, graph, AuditLog.new, HVec.empty⟩

-- It builds the same record from the parts of the boot state.
def fromBootState (boot : BootState) : WasmShim := fromParts boot.policy boot.ledger boot.graph

-- The table has at most 64 entries, so that its length is a `u32`.
def registerCap (shim : WasmShim) (cap : Capability) : Option UInt32 × WasmShim :=
  let idx := UInt32.ofNat shim.capTable.toList.length
  match shim.capTable.push (some cap) with
  | none => (none, shim)
  | some capTable => (some idx, { shim with capTable := capTable })

section HostFunctions

variable [Sha256]

def policyCheck (shim : WasmShim) (capHandle rightBits : UInt32) : Int × WasmShim :=
  match shim.capTable.toList[capHandle.toNat]? with
  | none => (RC_INVALID_HANDLE, shim)
  | some none => (RC_INVALID_HANDLE, shim)
  | some (some cap) =>
      let required := CapabilitySet.fromBitsTruncate rightBits
      let (result, policy, audit) := shim.policy.check cap required shim.audit
      let shim := { shim with policy := policy, audit := audit }
      match result with
      | .ok () => (RC_PERMITTED, shim)
      | .error _ => (RC_CAP_DENIED, shim)

def ledgerDeduct (shim : WasmShim) (nodeId : UInt32) (amount : UInt64) : Int × WasmShim :=
  match NodeId.new nodeId with
  | none => (RC_INVALID_HANDLE, shim)
  | some node =>
      let (result, ledger, audit) :=
        QuotaEnforcer.deduct shim.ledger node amount "wasm" shim.audit
      let shim := { shim with ledger := ledger, audit := audit }
      match result with
      | .ok _ => (RC_PERMITTED, shim)
      | .error _ => (RC_QUOTA_EXCEEDED, shim)

def topologyTraverse (shim : WasmShim) (srcId dstId : UInt32) : Int × WasmShim :=
  match NodeId.new srcId, NodeId.new dstId with
  | some src, some dst =>
      let (result, audit) := shim.graph.traverse src dst shim.audit
      let shim := { shim with audit := audit }
      match result with
      | .ok () => (RC_PERMITTED, shim)
      | .error _ => (RC_TOPO_VIOLATION, shim)
  | _, _ => (RC_INVALID_HANDLE, shim)

inductive Call where
  | registerCap (cap : Capability)
  | policyCheck (capHandle rightBits : UInt32)
  | ledgerDeduct (nodeId : UInt32) (amount : UInt64)
  | topologyTraverse (srcId dstId : UInt32)

-- A call together with what it returned.
inductive Event where
  | registered (cap : Capability) (handle : Option UInt32)
  | checked (capHandle rightBits : UInt32) (code : Int)
  | deducted (nodeId : UInt32) (amount : UInt64) (code : Int)
  | traversed (srcId dstId : UInt32) (code : Int)

def perform (shim : WasmShim) : Call → Event × WasmShim
  | .registerCap cap =>
      let (handle, shim) := shim.registerCap cap
      (.registered cap handle, shim)
  | .policyCheck capHandle rightBits =>
      let (code, shim) := shim.policyCheck capHandle rightBits
      (.checked capHandle rightBits code, shim)
  | .ledgerDeduct nodeId amount =>
      let (code, shim) := shim.ledgerDeduct nodeId amount
      (.deducted nodeId amount code, shim)
  | .topologyTraverse srcId dstId =>
      let (code, shim) := shim.topologyTraverse srcId dstId
      (.traversed srcId dstId code, shim)

-- Calls and events are listed latest first.
def run (shim : WasmShim) : List Call → List Event × WasmShim
  | [] => ([], shim)
  | call :: earlier =>
      let (history, shim) := run shim earlier
      let (event, shim) := shim.perform call
      (event :: history, shim)

end HostFunctions

-- The capability that a handle stands for.
def capAt (shim : WasmShim) (handle : UInt32) : Option Capability :=
  shim.capTable.toList[handle.toNat]?.join

section Steps

variable {shim : WasmShim} {cap : Capability} {handle : UInt32}

-- A new capability gets the next index, which no handle had before.
theorem registerCap_cases (shim : WasmShim) (cap : Capability) :
    (∃ next after, shim.registerCap cap = (some next, after) ∧ after.policy = shim.policy ∧
      shim.capAt next = none ∧ ∀ handle,
        after.capAt handle = if handle = next then some cap else shim.capAt handle) ∨
    shim.registerCap cap = (none, shim) := by
  unfold registerCap
  cases hpush : shim.capTable.push (some cap) with
  | none => exact Or.inr rfl
  | some capTable =>
      obtain ⟨hroom, hlist⟩ := HVec.push_eq_some_iff.mp hpush
      have hmax : MAX_WASM_CAPS = 64 := rfl
      have hnext : (UInt32.ofNat shim.capTable.toList.length).toNat = shim.capTable.toList.length := by
        apply UInt32.toNat_ofNat_of_lt'
        show shim.capTable.toList.length < 2 ^ 32
        omega
      refine Or.inl ⟨_, _, rfl, rfl, ?_, fun handle => ?_⟩
      · rw [capAt, hnext, List.getElem?_eq_none (Nat.le_refl _)]
        rfl
      · unfold capAt
        dsimp only
        rw [hlist]
        split
        · rename_i heq
          rw [heq, hnext, List.getElem?_concat_length]
          rfl
        · rename_i hne
          have hindex : handle.toNat ≠ shim.capTable.toList.length := by
            intro heq
            apply hne
            apply UInt32.toNat_inj.mp
            rw [heq, hnext]
          by_cases hold : handle.toNat < shim.capTable.toList.length
          · rw [List.getElem?_append_left hold]
          · have hlong : (shim.capTable.toList ++ [some cap]).length ≤ handle.toNat := by
              rw [List.length_append, List.length_singleton]
              omega
            rw [List.getElem?_eq_none hlong, List.getElem?_eq_none (Nat.not_lt.mp hold)]

variable [Sha256]

theorem policyCheck_cases (shim : WasmShim) (handle rightBits : UInt32) :
    (∃ cap, shim.capAt handle = some cap ∧
      ((shim.policyCheck handle rightBits).1 = RC_PERMITTED ↔
        (shim.policy.check cap (.fromBitsTruncate rightBits) shim.audit).1 = .ok ()) ∧
      (shim.policyCheck handle rightBits).2 =
        { shim with
          policy := (shim.policy.check cap (.fromBitsTruncate rightBits) shim.audit).2.1
          audit := (shim.policy.check cap (.fromBitsTruncate rightBits) shim.audit).2.2 }) ∨
    shim.policyCheck handle rightBits = (RC_INVALID_HANDLE, shim) := by
  unfold policyCheck capAt
  cases hentry : shim.capTable.toList[handle.toNat]? with
  | none => exact Or.inr rfl
  | some entry =>
      cases entry with
      | none => exact Or.inr rfl
      | some cap =>
          refine Or.inl ⟨cap, rfl, ?_⟩
          dsimp only
          cases (shim.policy.check cap (.fromBitsTruncate rightBits) shim.audit).1 with
          | ok done => exact ⟨iff_of_true rfl rfl, rfl⟩
          | error e =>
              have hdenied : RC_CAP_DENIED ≠ RC_PERMITTED := by decide
              exact ⟨iff_of_false hdenied (by simp), rfl⟩

theorem ledgerDeduct_keeps (shim : WasmShim) (nodeId : UInt32) (amount : UInt64) :
    (shim.ledgerDeduct nodeId amount).2.capTable = shim.capTable ∧
      (shim.ledgerDeduct nodeId amount).2.policy = shim.policy := by
  unfold ledgerDeduct
  split
  · exact ⟨rfl, rfl⟩
  · dsimp only
    split <;> exact ⟨rfl, rfl⟩

theorem topologyTraverse_keeps (shim : WasmShim) (srcId dstId : UInt32) :
    (shim.topologyTraverse srcId dstId).2.capTable = shim.capTable ∧
      (shim.topologyTraverse srcId dstId).2.policy = shim.policy := by
  unfold topologyTraverse
  split
  · dsimp only
    split <;> exact ⟨rfl, rfl⟩
  · exact ⟨rfl, rfl⟩

end Steps

-- The handle table and the used nonces against the history.
structure Tracks (history : List Event) (shim : WasmShim) : Prop where
  table : ∀ handle cap, shim.capAt handle = some cap ↔ .registered cap (some handle) ∈ history
  used : ∀ handle rightBits, .checked handle rightBits RC_PERMITTED ∈ history →
    ∃ cap, shim.capAt handle = some cap ∧ cap.nonce ∈ shim.policy.usedNonces.toList

section Runs

variable {history : List Event} {shim shim' : WasmShim} {event : Event}

theorem Tracks.fromParts (policy : Policy) (ledger : Ledger) (graph : OperationalGraph) :
    Tracks [] (fromParts policy ledger graph) where
  table handle cap := by simp [capAt, WasmShim.fromParts]
  used handle rightBits h := by cases h

-- A call that registers nothing: the table stays, no nonce is forgotten, and a check that
-- is permitted has used one.
theorem Tracks.other (h : Tracks history shim) (htable : shim'.capTable = shim.capTable)
    (hnonces : shim.policy.usedNonces.toList ⊆ shim'.policy.usedNonces.toList)
    (hevent : ∀ handle cap, event ≠ .registered cap (some handle))
    (hnew : ∀ handle rightBits, event = .checked handle rightBits RC_PERMITTED →
      ∃ cap, shim.capAt handle = some cap ∧ cap.nonce ∈ shim'.policy.usedNonces.toList) :
    Tracks (event :: history) shim' := by
  have hcap : ∀ handle, shim'.capAt handle = shim.capAt handle := by
    intro handle
    rw [capAt, htable, capAt]
  constructor
  · intro handle cap
    rw [hcap, h.table, List.mem_cons, or_iff_right (Ne.symm (hevent handle cap))]
  · intro handle rightBits hmem
    rw [hcap]
    rcases List.mem_cons.mp hmem with heq | hold
    · exact hnew handle rightBits heq.symm
    · obtain ⟨cap, hat, hused⟩ := h.used handle rightBits hold
      exact ⟨cap, hat, hnonces hused⟩

-- A call that changes neither the table nor the policy, and that permits nothing.
theorem Tracks.idle (h : Tracks history shim) (htable : shim'.capTable = shim.capTable)
    (hpolicy : shim'.policy = shim.policy)
    (hevent : ∀ handle cap, event ≠ .registered cap (some handle))
    (hrefused : ∀ handle rightBits, event ≠ .checked handle rightBits RC_PERMITTED) :
    Tracks (event :: history) shim' := by
  apply h.other htable _ hevent
  · exact fun handle rightBits heq => absurd heq (hrefused handle rightBits)
  · rw [hpolicy]
    exact List.Subset.refl _

variable [Sha256]

theorem Tracks.registerCap (h : Tracks history shim) (cap : Capability) :
    Tracks ((shim.perform (.registerCap cap)).1 :: history)
      (shim.perform (.registerCap cap)).2 := by
  simp only [WasmShim.perform]
  rcases shim.registerCap_cases cap with ⟨next, after, hok, hpolicy, hfresh, hat⟩ | hfull
  · rw [hok]
    constructor
    · intro handle other
      dsimp only
      rw [hat, List.mem_cons]
      split
      · rename_i heq
        subst heq
        constructor
        · intro hcap
          exact Or.inl (by rw [Option.some.inj hcap])
        · rintro (heq | hold)
          · rw [(Event.registered.inj heq).1]
          · rw [← h.table, hfresh] at hold
            cases hold
      · rename_i hne
        rw [h.table, or_iff_right]
        intro heq
        exact hne (Option.some.inj (Event.registered.inj heq).2)
    · intro handle rightBits hmem
      rcases List.mem_cons.mp hmem with heq | hold
      · cases heq
      · obtain ⟨other, hother, hused⟩ := h.used handle rightBits hold
        refine ⟨other, ?_, hpolicy ▸ hused⟩
        dsimp only
        rw [hat, if_neg, hother]
        intro heq
        rw [heq, hfresh] at hother
        cases hother
  · rw [hfull]
    apply h.idle rfl rfl <;> simp

theorem Tracks.policyCheck (h : Tracks history shim) (capHandle rightBits : UInt32) :
    Tracks ((shim.perform (.policyCheck capHandle rightBits)).1 :: history)
      (shim.perform (.policyCheck capHandle rightBits)).2 := by
  simp only [WasmShim.perform]
  rcases shim.policyCheck_cases capHandle rightBits with ⟨cap, hat, hcode, hstate⟩ | hinvalid
  · rw [hstate]
    refine h.other rfl ?_ ?_ ?_
    · exact (shim.policy.check_keeps cap (.fromBitsTruncate rightBits) shim.audit).2.2
    · intro handle other heq
      cases heq
    · intro handle bits heq
      obtain ⟨rfl, rfl, hpermitted⟩ := Event.checked.inj heq
      exact ⟨cap, hat, Policy.nonce_used_of_check (hcode.mp hpermitted)⟩
  · rw [hinvalid]
    apply h.idle rfl rfl <;> simp [RC_INVALID_HANDLE, RC_PERMITTED]

theorem Tracks.perform (h : Tracks history shim) (call : Call) :
    Tracks ((shim.perform call).1 :: history) (shim.perform call).2 := by
  cases call with
  | registerCap cap => exact h.registerCap cap
  | policyCheck capHandle rightBits => exact h.policyCheck capHandle rightBits
  | ledgerDeduct nodeId amount =>
      obtain ⟨htable, hpolicy⟩ := shim.ledgerDeduct_keeps nodeId amount
      apply h.idle htable hpolicy
      · exact fun handle cap => Event.noConfusion
      · exact fun handle bits => Event.noConfusion
  | topologyTraverse srcId dstId =>
      obtain ⟨htable, hpolicy⟩ := shim.topologyTraverse_keeps srcId dstId
      apply h.idle htable hpolicy
      · exact fun handle cap => Event.noConfusion
      · exact fun handle bits => Event.noConfusion

theorem tracks_run (policy : Policy) (ledger : Ledger) (graph : OperationalGraph)
    (calls : List Call) : Tracks (run (fromParts policy ledger graph) calls).1
      (run (fromParts policy ledger graph) calls).2 := by
  induction calls with
  | nil => exact .fromParts policy ledger graph
  | cons call earlier ih => exact ih.perform call

end Runs

-- What a permitted check is to mean, after `history` has led to `shim`: all the bits that
-- the guest asked for are rights of the capability under that handle.
def Grants (history : List Event) (shim : WasmShim) (handle rightBits : UInt32) : Prop :=
  ∃ cap, .registered cap (some handle) ∈ history ∧
    (∀ i, rightBits.toNat.testBit i = true → cap.rights.bits.toNat.testBit i = true) ∧
    cap.generation = shim.policy.currentGeneration ∧
    ∀ other otherHandle otherBits, .registered other (some otherHandle) ∈ history →
      .checked otherHandle otherBits RC_PERMITTED ∈ history → other.nonce ≠ cap.nonce

-- The bits without a name never reach the policy. All the rest is as it should be.
theorem permitted_grants_iff [Sha256] (policy : Policy) (ledger : Ledger) (graph : OperationalGraph)
    (earlier : List Call) (handle rightBits : UInt32)
    (hpermitted : ((run (fromParts policy ledger graph) earlier).2.policyCheck handle rightBits).1 =
      RC_PERMITTED) :
    Grants (run (fromParts policy ledger graph) earlier).1
        (run (fromParts policy ledger graph) earlier).2 handle rightBits ↔
      ∀ cap, .registered cap (some handle) ∈ (run (fromParts policy ledger graph) earlier).1 →
        ∀ i, 5 ≤ i → rightBits.toNat.testBit i = true →
          cap.rights.bits.toNat.testBit i = true := by
  have htracks := tracks_run policy ledger graph earlier
  generalize run (fromParts policy ledger graph) earlier = state at hpermitted htracks ⊢
  obtain ⟨history, shim⟩ := state
  dsimp only at hpermitted htracks ⊢
  rcases shim.policyCheck_cases handle rightBits with ⟨cap, hat, hcode, -⟩ | hinvalid
  · have hadmits := (Policy.check_eq_ok.mp (hcode.mp hpermitted)).1
    have hsame : ∀ other, .registered other (some handle) ∈ history → other = cap := by
      intro other hother
      rw [← htracks.table, hat] at hother
      exact (Option.some.inj hother).symm
    have hbits := CapabilitySet.contains_iff_truncate hadmits.rights
    rw [CapabilitySet.contains_iff_testBit] at hbits
    constructor
    · rintro ⟨other, hother, hheld, -⟩ again hagain
      obtain rfl := hsame other hother
      obtain rfl := hsame again hagain
      exact hbits.mp hheld
    · intro hhigh
      have hregistered := (htracks.table handle cap).mp hat
      refine ⟨cap, hregistered, hbits.mpr (hhigh cap hregistered), hadmits.generation, ?_⟩
      intro other otherHandle otherBits hother hearlier hnonce
      obtain ⟨used, hused, hmem⟩ := htracks.used otherHandle otherBits hearlier
      rw [(htracks.table otherHandle other).mpr hother] at hused
      obtain rfl := Option.some.inj hused
      exact hadmits.unused (hnonce ▸ hmem)
  · rw [hinvalid] at hpermitted
    have hrefused : RC_INVALID_HANDLE ≠ RC_PERMITTED := by decide
    exact absurd hpermitted hrefused

section

attribute [local instance] Sha256.zero

def bareShim : WasmShim := fromParts (Policy.new ⟨0⟩) Ledger.new BootingGraph.new.sealed

def schedulingCap : Capability := ⟨node1, node1, .SCHEDULE, ⟨0⟩, 7⟩

theorem permitted_grants_iff_schedule :
    ((run bareShim [.registerCap schedulingCap]).2.policyCheck 0 4).1 = RC_PERMITTED ∧
      Grants (run bareShim [.registerCap schedulingCap]).1
        (run bareShim [.registerCap schedulingCap]).2 0 4 := by
  have hpermitted : ((run bareShim [.registerCap schedulingCap]).2.policyCheck 0 4).1 =
      RC_PERMITTED := by decide +kernel
  refine ⟨hpermitted, (permitted_grants_iff (Policy.new ⟨0⟩) Ledger.new BootingGraph.new.sealed
    [.registerCap schedulingCap] 0 4 hpermitted).mpr ?_⟩
  intro cap _ i hi hbit
  have hsmall : (4 : UInt32).toNat < 2 ^ i :=
    Nat.lt_of_lt_of_le (show 4 < 2 ^ 5 by decide) (Nat.pow_le_pow_right (by decide) hi)
  rw [Nat.testBit_lt_two_pow hsmall] at hbit
  cases hbit

-- A capability without any right, and a request for a right that has no name.
theorem unnamed_bit_permitted :
    ((run bareShim [.registerCap ⟨node1, node1, ⟨0⟩, ⟨0⟩, 7⟩]).2.policyCheck 0 0x80).1 = RC_PERMITTED ∧
      (0x80 : UInt32).toNat.testBit 7 = true ∧ (0 : UInt32).toNat.testBit 7 = false := by
  decide +kernel

end

end WasmShim

end LuxKernel.Wasm
