import LuxKernel.Wasm.Executor
import Mathlib.Data.List.Perm.Subperm

namespace LuxKernel.Wasm

open Audit Auth Heapless Metabolism LuxKernel.Topology

namespace WasmShim.Event

-- What a permitted deduction has taken from `node`.
def spent (node : NodeId) : WasmShim.Event → Nat
  | .deducted nodeId amount code =>
      if code = RC_PERMITTED ∧ nodeId = node.get then amount.toNat else 0
  | _ => 0

def permittedHandle : WasmShim.Event → Option UInt32
  | .checked capHandle _ code => if code = RC_PERMITTED then some capHandle else none
  | _ => none

theorem permittedHandle_eq_some {event : WasmShim.Event} {handle : UInt32} :
    event.permittedHandle = some handle ↔
      ∃ rightBits, event = .checked handle rightBits RC_PERMITTED := by
  cases event <;> simp [permittedHandle, and_comm]

end WasmShim.Event

-- What the policy has done for the guests, against the policy that it started as: a right
-- that a guest was shown to have is one that the policy admits from the start, and no
-- handle serves twice. The shim cannot rotate and cannot revoke.
structure Confined (policy : Policy) (history : List WasmShim.Event) (shim : WasmShim) : Prop where
  tracks : WasmShim.Tracks history shim
  generation : shim.policy.currentGeneration = policy.currentGeneration
  revocation : shim.policy.revocation = policy.revocation
  nonces : policy.usedNonces.toList <+: shim.policy.usedNonces.toList
  admitted : ∀ handle rightBits, .checked handle rightBits RC_PERMITTED ∈ history →
    ∃ cap, shim.capAt handle = some cap ∧ policy.Admits cap (.fromBitsTruncate rightBits)
  once : (history.filterMap WasmShim.Event.permittedHandle).Nodup

section Confinement

variable {policy : Policy} {history : List WasmShim.Event} {shim : WasmShim}

theorem Confined.admits (h : Confined policy history shim) {cap : Capability}
    {right : CapabilitySet} (hadm : shim.policy.Admits cap right) : policy.Admits cap right where
  generation := hadm.generation.trans h.generation
  rights := hadm.rights
  unrevoked := h.revocation ▸ hadm.unrevoked
  unused hmem := hadm.unused (h.nonces.subset hmem)
  room := Nat.lt_of_le_of_lt h.nonces.length_le hadm.room

-- All handles come from the table.
theorem Confined.handles_length (h : Confined policy history shim) :
    (history.filterMap WasmShim.Event.permittedHandle).length ≤ MAX_WASM_CAPS := by
  have hsub : (history.filterMap WasmShim.Event.permittedHandle).map UInt32.toNat ⊆
      List.range shim.capTable.toList.length := by
    intro index hindex
    obtain ⟨handle, hhandle, rfl⟩ := List.mem_map.mp hindex
    obtain ⟨event, hevent, heq⟩ := List.mem_filterMap.mp hhandle
    obtain ⟨rightBits, rfl⟩ := WasmShim.Event.permittedHandle_eq_some.mp heq
    obtain ⟨cap, hat, -⟩ := h.admitted _ _ hevent
    rw [List.mem_range]
    by_contra hge
    rw [WasmShim.capAt, List.getElem?_eq_none (Nat.not_lt.mp hge)] at hat
    cases hat
  have hnodup := h.once.map (fun _ _ => UInt32.toNat_inj.mp)
  have hle := (hnodup.subperm hsub).length_le
  rw [List.length_map, List.length_range] at hle
  exact Nat.le_trans hle shim.capTable.length_le

theorem Confined.fromParts (policy : Policy) (ledger : Ledger) (graph : OperationalGraph) :
    Confined policy [] (WasmShim.fromParts policy ledger graph) where
  tracks := .fromParts policy ledger graph
  generation := rfl
  revocation := rfl
  nonces := List.prefix_refl _
  admitted handle rightBits h := by cases h
  once := List.nodup_nil

-- A permitted check needs a nonce that is not used, and a handle that was permitted
-- before has used its own.
theorem Confined.unspent (h : Confined policy history shim) {handle rightBits : UInt32}
    {cap : Capability} (hat : shim.capAt handle = some cap)
    (hadm : shim.policy.Admits cap (.fromBitsTruncate rightBits)) :
    handle ∉ history.filterMap WasmShim.Event.permittedHandle := by
  intro hmem
  obtain ⟨event, hevent, heq⟩ := List.mem_filterMap.mp hmem
  obtain ⟨earlierBits, rfl⟩ := WasmShim.Event.permittedHandle_eq_some.mp heq
  obtain ⟨other, hother, hused⟩ := h.tracks.used handle earlierBits hevent
  rw [hat] at hother
  obtain rfl := Option.some.inj hother
  exact hadm.unused hused

theorem Confined.extend {after : WasmShim} {event : WasmShim.Event}
    (h : Confined policy history shim) (htracks : WasmShim.Tracks (event :: history) after)
    (hgeneration : after.policy.currentGeneration = shim.policy.currentGeneration)
    (hrevocation : after.policy.revocation = shim.policy.revocation)
    (hnonces : shim.policy.usedNonces.toList <+: after.policy.usedNonces.toList)
    (hcaps : ∀ handle cap, shim.capAt handle = some cap → after.capAt handle = some cap)
    (hnew : ∀ handle rightBits, event = .checked handle rightBits RC_PERMITTED →
      ∃ cap, shim.capAt handle = some cap ∧
        shim.policy.Admits cap (.fromBitsTruncate rightBits)) :
    Confined policy (event :: history) after where
  tracks := htracks
  generation := hgeneration.trans h.generation
  revocation := hrevocation.trans h.revocation
  nonces := h.nonces.trans hnonces
  admitted handle rightBits hmem := by
    rcases List.mem_cons.mp hmem with heq | hold
    · obtain ⟨cap, hat, hadm⟩ := hnew handle rightBits heq.symm
      exact ⟨cap, hcaps handle cap hat, h.admits hadm⟩
    · obtain ⟨cap, hat, hadm⟩ := h.admitted handle rightBits hold
      exact ⟨cap, hcaps handle cap hat, hadm⟩
  once := by
    cases hhandle : event.permittedHandle with
    | none =>
        rw [List.filterMap_cons_none hhandle]
        exact h.once
    | some handle =>
        rw [List.filterMap_cons_some hhandle]
        obtain ⟨rightBits, heq⟩ := WasmShim.Event.permittedHandle_eq_some.mp hhandle
        obtain ⟨cap, hat, hadm⟩ := hnew handle rightBits heq
        exact List.nodup_cons.mpr ⟨h.unspent hat hadm, h.once⟩

variable [Sha256]

theorem Confined.policyCheck (h : Confined policy history shim) (capHandle rightBits : UInt32) :
    Confined policy ((shim.perform (.policyCheck capHandle rightBits)).1 :: history)
      (shim.perform (.policyCheck capHandle rightBits)).2 := by
  have htracks := h.tracks.policyCheck capHandle rightBits
  have hcaps : ∀ handle cap, shim.capAt handle = some cap →
      (shim.perform (.policyCheck capHandle rightBits)).2.capAt handle = some cap :=
    fun _ _ => capAt_perform shim _
  simp only [WasmShim.perform] at htracks hcaps ⊢
  rcases shim.policyCheck_cases capHandle rightBits with ⟨cap, hat, hcode, hstate⟩ | hinvalid
  · obtain ⟨hgeneration, hrevocation, -⟩ :=
      shim.policy.check_keeps cap (.fromBitsTruncate rightBits) shim.audit
    refine h.extend htracks ?_ ?_ ?_ hcaps ?_
    · rw [hstate]
      exact hgeneration
    · rw [hstate]
      exact hrevocation
    · rw [hstate]
      dsimp only
      rw [Policy.check_policy]
      rcases shim.policy.checkInner_cases cap (.fromBitsTruncate rightBits) with
        ⟨-, -, usedNonces, hused, hpolicy⟩ | ⟨-, hpolicy, -⟩
      · rw [hpolicy]
        exact hused ▸ List.prefix_append _ _
      · rw [hpolicy]
    · intro handle bits heq
      obtain ⟨rfl, rfl, hpermitted⟩ := WasmShim.Event.checked.inj heq
      exact ⟨cap, hat, (Policy.check_eq_ok.mp (hcode.mp hpermitted)).1⟩
  · rw [hinvalid] at htracks hcaps ⊢
    refine h.extend htracks rfl rfl (List.prefix_refl _) hcaps ?_
    intro handle bits heq
    cases (WasmShim.Event.checked.inj heq).2.2

theorem Confined.perform (h : Confined policy history shim) (call : WasmShim.Call) :
    Confined policy ((shim.perform call).1 :: history) (shim.perform call).2 := by
  have hidle : (shim.perform call).2.policy = shim.policy →
      (∀ handle bits, (shim.perform call).1 ≠ .checked handle bits RC_PERMITTED) →
      Confined policy ((shim.perform call).1 :: history) (shim.perform call).2 := by
    intro hpolicy hevent
    refine h.extend (h.tracks.perform call) ?_ ?_ ?_ (fun _ _ => capAt_perform shim call)
      fun handle bits heq => absurd heq (hevent handle bits)
    · rw [hpolicy]
    · rw [hpolicy]
    · rw [hpolicy]
  cases call with
  | registerCap cap =>
      apply hidle
      · rcases shim.registerCap_cases cap with ⟨next, after, hok, hpolicy, -⟩ | hfull
        · simp only [WasmShim.perform, hok]
          exact hpolicy
        · simp only [WasmShim.perform, hfull]
      · exact fun handle bits => WasmShim.Event.noConfusion
  | policyCheck capHandle rightBits => exact h.policyCheck capHandle rightBits
  | ledgerDeduct nodeId amount =>
      apply hidle (shim.ledgerDeduct_keeps nodeId amount).2
      exact fun handle bits => WasmShim.Event.noConfusion
  | topologyTraverse srcId dstId =>
      apply hidle (shim.topologyTraverse_keeps srcId dstId).2
      exact fun handle bits => WasmShim.Event.noConfusion

theorem Traced.confined {before after : WasmShim} {events : List WasmShim.Event}
    (h : Traced before events after) (hbefore : Confined policy history before) :
    Confined policy (events.reverse ++ history) after := by
  induction h generalizing history with
  | nil => exact hbefore
  | cons call _ ih =>
      rw [List.reverse_cons, List.append_assoc]
      exact ih (hbefore.perform call)

end Confinement

section Limits

variable (node : NodeId) (caps : UInt32 → Option Capability)

theorem spent_deducted {nodeId : UInt32} {payer : NodeId} (hnode : NodeId.new nodeId = some payer)
    (amount : UInt64) (code : Int) :
    WasmShim.Event.spent node (.deducted nodeId amount code) =
      payment node (.deduct payer amount "wasm",
        (WasmShim.Event.deducted nodeId amount code).permitted) := by
  obtain rfl := NodeId.new_eq_some.mp hnode
  have hsame : payer.get = node.get ↔ payer = node := ⟨NodeId.ext, congrArg NodeId.get⟩
  simp only [WasmShim.Event.spent, WasmShim.Event.permitted, WasmShim.Event.code,
    Option.some.injEq]
  by_cases hcode : code = RC_PERMITTED
  · simp [hcode, payment, hsame]
  · simp [hcode, payment]

theorem spent_eq (event : WasmShim.Event) :
    event.spent node = (event.answer caps).elim 0 (payment node) := by
  by_cases hinvalid : event.code = some RC_INVALID_HANDLE
  · rw [WasmShim.Event.answer, if_pos hinvalid]
    cases event with
    | deducted nodeId amount code =>
        obtain rfl := Option.some.inj hinvalid
        have hcode : RC_INVALID_HANDLE ≠ RC_PERMITTED := by decide
        simp [WasmShim.Event.spent, hcode]
    | registered => rfl
    | checked => rfl
    | traversed => rfl
  · rw [WasmShim.Event.answer, if_neg hinvalid]
    cases event with
    | deducted nodeId amount code =>
        rw [WasmShim.Event.gateCall]
        cases hnode : NodeId.new nodeId with
        | none =>
            apply if_neg
            rintro ⟨-, rfl⟩
            rw [NodeId.new_eq_some.mpr rfl] at hnode
            cases hnode
        | some payer => exact spent_deducted node hnode amount code
    | registered => rfl
    | checked capHandle rightBits code =>
        simp only [WasmShim.Event.spent, WasmShim.Event.gateCall, Option.map_map]
        cases caps capHandle <;> rfl
    | traversed srcId dstId code =>
        simp only [WasmShim.Event.spent, WasmShim.Event.gateCall]
        cases NodeId.new srcId with
        | none => rfl
        | some src => cases NodeId.new dstId <;> rfl

theorem sum_payment (events : List WasmShim.Event) :
    ((events.filterMap (WasmShim.Event.answer caps)).map (payment node)).sum =
      (events.map (WasmShim.Event.spent node)).sum := by
  induction events with
  | nil => rfl
  | cons event later ih =>
      rw [List.map_cons, List.sum_cons, spent_eq node caps, ← ih]
      cases hanswer : event.answer caps with
      | none =>
          rw [List.filterMap_cons_none hanswer, Option.elim_none]
          omega
      | some answer =>
          rw [List.filterMap_cons_some hanswer, List.map_cons, List.sum_cons, Option.elim_some]

end Limits

section Results

variable [Sha256] {before after : WasmShim} {events : List WasmShim.Event}

theorem Traced.countP_permitted (h : Traced before events after) :
    events.countP WasmShim.Event.permitted = (before.gates.trace
      ((answers events after).map Prod.fst)).countP Step.granted := by
  obtain ⟨-, htrace, hall⟩ := h.refines
  have hgranted : (Step.granted) = Prod.snd ∘ Step.answer := rfl
  rw [hgranted, ← List.countP_map, htrace, answers, List.countP_filterMap]
  apply List.countP_congr
  intro event hevent
  rw [hall event hevent]
  cases event.answer after.capAt <;> simp

theorem Traced.balances (h : Traced before events after) (node : NodeId) :
    (before.ledger.balance node).map UInt64.toNat = (after.ledger.balance node).map fun left =>
      left.toNat + (events.map (WasmShim.Event.spent node)).sum := by
  obtain ⟨hgates, htrace, -⟩ := h.refines
  have hbudget := (before.gates.budgeted_run ((answers events after).map Prod.fst)).balances node
  have hpaid : (Step.paid node) = payment node ∘ Step.answer := rfl
  rw [hpaid, ← List.map_map, htrace, answers, sum_payment, ← answers, ← hgates] at hbudget
  exact hbudget

theorem Traced.traversed (h : Traced before events after) {srcId dstId : UInt32}
    (hmem : .traversed srcId dstId RC_PERMITTED ∈ events) :
    ∃ src dst : NodeId, src.get = srcId ∧ dst.get = dstId ∧
      before.graph.traverseInner src dst = .ok () := by
  obtain ⟨-, htrace, hall⟩ := h.refines
  have hpermitted := hall _ hmem
  have hanswer : WasmShim.Event.answer after.capAt (.traversed srcId dstId RC_PERMITTED) =
      ((NodeId.new srcId).bind fun src => (NodeId.new dstId).map fun dst =>
        Audit.Call.traverse src dst).map fun call => (call, true) := rfl
  cases hsrc : NodeId.new srcId with
  | none =>
      rw [hanswer, hsrc] at hpermitted
      cases hpermitted
  | some src =>
      cases hdst : NodeId.new dstId with
      | none =>
          rw [hanswer, hsrc, hdst] at hpermitted
          cases hpermitted
      | some dst =>
          rw [hsrc, hdst] at hanswer
          have hin : (Audit.Call.traverse src dst, true) ∈ answers events after :=
            List.mem_filterMap.mpr ⟨_, hmem, hanswer⟩
          rw [← htrace] at hin
          obtain ⟨step, hstep, heq⟩ := List.mem_map.mp hin
          refine ⟨src, dst, (NodeId.new_eq_some.mp hsrc).symm,
            (NodeId.new_eq_some.mp hdst).symm, ?_⟩
          exact (before.gates.budgeted_run _).edges step hstep src dst (congrArg Prod.fst heq)
            (congrArg Prod.snd heq)

end Results

namespace WasmExecutor

-- What guests can get out of a shim, however many there are and whatever they do.
theorem guests_confined [Sha256] [Engine] (policy : Policy) (ledger : Ledger)
    (graph : OperationalGraph) (ops : List Op) :
    let events := ((new (.fromParts policy ledger graph)).run ops).1
    let last := ((new (.fromParts policy ledger graph)).run ops).2.store
    events.countP WasmShim.Event.permitted ≤ MAX_AUDIT_EVENTS ∧
      (events.filterMap WasmShim.Event.permittedHandle).Nodup ∧
      (events.filterMap WasmShim.Event.permittedHandle).length ≤ MAX_WASM_CAPS ∧
      (∀ handle rightBits, .checked handle rightBits RC_PERMITTED ∈ events →
        ∃ cap, .registered cap (some handle) ∈ events ∧
          policy.Admits cap (.fromBitsTruncate rightBits)) ∧
      (∀ srcId dstId, .traversed srcId dstId RC_PERMITTED ∈ events →
        ∃ src dst : NodeId, src.get = srcId ∧ dst.get = dstId ∧
          graph.traverseInner src dst = .ok ()) ∧
      ∀ node, (ledger.balance node).map UInt64.toNat = (last.ledger.balance node).map fun left =>
        left.toNat + (events.map (WasmShim.Event.spent node)).sum := by
  intro events last
  have htraced : Traced (.fromParts policy ledger graph) events last :=
    (new (.fromParts policy ledger graph)).traced_run ops
  have hconfined := htraced.confined (.fromParts policy ledger graph)
  rw [List.append_nil] at hconfined
  have honce := hconfined.once
  have hlength := hconfined.handles_length
  rw [List.filterMap_reverse] at honce hlength
  rw [List.length_reverse] at hlength
  refine ⟨?_, List.nodup_reverse.mp honce, hlength, fun handle rightBits hmem => ?_,
    fun srcId dstId => htraced.traversed, htraced.balances⟩
  · obtain ⟨recorded, hrecorded, hcount⟩ :=
      ((WasmShim.fromParts policy ledger graph).gates.budgeted_run
        ((answers events last).map Prod.fst)).recorded
    have hle : recorded.countP AuditEvent.permitted ≤ recorded.length := List.countP_le_length
    have hmax := ((WasmShim.fromParts policy ledger graph).gates.run
        ((answers events last).map Prod.fst)).audit.events.length_le
    rw [hrecorded, List.length_append] at hmax
    rw [htraced.countP_permitted, ← hcount]
    omega
  · obtain ⟨cap, hat, hadm⟩ := hconfined.admitted handle rightBits (List.mem_reverse.mpr hmem)
    exact ⟨cap, List.mem_reverse.mp ((hconfined.tracks.table handle cap).mp hat), hadm⟩

end WasmExecutor

end LuxKernel.Wasm
