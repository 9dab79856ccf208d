import LuxKernel.Wasm.Shim
import LuxKernel.Audit.Budget

namespace LuxKernel.Wasm

open Audit Auth Heapless Metabolism LuxKernel.Topology

-- The imports of the module `lux`, with the arguments as the guest passes them.
inductive HostCall where
  | luxPolicyCheck (capHandle rightBits : Int32)
  | luxLedgerDeduct (nodeId : Int32) (amount : Int64)
  | luxTopologyTraverse (srcId dstId : Int32)

-- What the shim sees of code in the sandbox: the calls that the code makes, each of which
-- may depend on the codes returned before, and how it ends. Code that never ends never
-- hands the executor back and is left out.
inductive Guest (α : Type) where
  | finish (value : α)
  | trap
  | invoke (call : HostCall) (next : Int → Guest α)

-- The exported functions of type `() -> i32`.
structure Instance where
  getTypedFunc : String → Option (Guest Int32)

-- `none` is an import that the linker does not have, or a store that takes no further
-- instance. A start function runs while the module is instantiated, and what it leaves in
-- memory is seen by the exports.
structure Module (Held : Type) where
  instantiate : Held → Option (Guest Instance) × Held

-- Wasmtime is a black box. A store keeps all instances that are made in it: `Held` is what
-- it has beside the shim. `compile` is `Module::new`, with `none` for bytes that do not
-- compile.
class Engine where
  Held : Type
  fresh : Held
  compile : Bytes → Option (Module Held)

namespace HostCall

variable [Sha256]

-- The closures that `new` registers, with their `as u32` and `as u64`.
def perform (shim : WasmShim) : HostCall → Int × WasmShim
  | .luxPolicyCheck capHandle rightBits =>
      shim.policyCheck capHandle.toUInt32 rightBits.toUInt32
  | .luxLedgerDeduct nodeId amount => shim.ledgerDeduct nodeId.toUInt32 amount.toUInt64
  | .luxTopologyTraverse srcId dstId => shim.topologyTraverse srcId.toUInt32 dstId.toUInt32

omit [Sha256] in
def event (code : Int) : HostCall → WasmShim.Event
  | .luxPolicyCheck capHandle rightBits => .checked capHandle.toUInt32 rightBits.toUInt32 code
  | .luxLedgerDeduct nodeId amount => .deducted nodeId.toUInt32 amount.toUInt64 code
  | .luxTopologyTraverse srcId dstId => .traversed srcId.toUInt32 dstId.toUInt32 code

end HostCall

-- The calls that were made with the codes returned, earliest first. The value is missing
-- after a trap, and the state is the one that the trap left.
def Guest.run [Sha256] {α : Type} : Guest α → WasmShim → List WasmShim.Event × Option α × WasmShim
  | .finish value, shim => ([], some value, shim)
  | .trap, shim => ([], none, shim)
  | .invoke call next, shim =>
      let (code, shim) := call.perform shim
      let (events, value, shim) := (next code).run shim
      (call.event code :: events, value, shim)

-- The engine and the linker do not change. No call uses an instance of an earlier one.
structure WasmExecutor [Engine] where
  store : WasmShim
  held : Engine.Held

namespace WasmExecutor

section

variable [Engine]

-- The three names are different, so that none fails to register.
def new (shim : WasmShim) : WasmExecutor := ⟨shim, Engine.fresh⟩

variable [Sha256]

def callNullary (executor : WasmExecutor) (wasmBytes : Bytes) (funcName : String) :
    Result Int32 × List WasmShim.Event × WasmExecutor :=
  match Engine.compile wasmBytes with
  | none => (.error (.wasmFault "failed to compile WASM module"), [], executor)
  | some module =>
      match module.instantiate executor.held with
      | (none, held) =>
          (.error (.wasmFault "failed to instantiate WASM module"), [], ⟨executor.store, held⟩)
      | (some start, held) =>
          match start.run executor.store with
          | (events, none, shim) =>
              (.error (.wasmFault "failed to instantiate WASM module"), events, ⟨shim, held⟩)
          | (events, some exports, shim) =>
              match exports.getTypedFunc funcName with
              | none =>
                  (.error (.wasmFault "WASM function not found or wrong type"), events,
                    ⟨shim, held⟩)
              | some func =>
                  match func.run shim with
                  | (later, none, shim) =>
                      (.error (.wasmFault "WASM guest trapped"), events ++ later, ⟨shim, held⟩)
                  | (later, some value, shim) => (.ok value, events ++ later, ⟨shim, held⟩)

-- The owner of an executor runs guests, and through `shim_mut` has the methods of the
-- shim. Its fields are private.
inductive Op where
  | onShim (call : WasmShim.Call)
  | callNullary (wasmBytes : Bytes) (funcName : String)

def perform (executor : WasmExecutor) : Op → List WasmShim.Event × WasmExecutor
  | .onShim call =>
      let (event, shim) := executor.store.perform call
      ([event], { executor with store := shim })
  | .callNullary wasmBytes funcName => (executor.callNullary wasmBytes funcName).2

def run (executor : WasmExecutor) : List Op → List WasmShim.Event × WasmExecutor
  | [] => ([], executor)
  | op :: later =>
      let (events, executor) := executor.perform op
      let (more, executor) := executor.run later
      (events ++ more, executor)

end

end WasmExecutor

-- The events of successive calls to the shim.
inductive Traced [Sha256] : WasmShim → List WasmShim.Event → WasmShim → Prop where
  | nil (shim : WasmShim) : Traced shim [] shim
  | cons {shim after : WasmShim} {events : List WasmShim.Event} (call : WasmShim.Call)
      (later : Traced (shim.perform call).2 events after) :
      Traced shim ((shim.perform call).1 :: events) after

section Tracing

variable [Sha256] {before mid after : WasmShim} {events later : List WasmShim.Event}

theorem Traced.trans (h : Traced before events mid) (h' : Traced mid later after) :
    Traced before (events ++ later) after := by
  induction h with
  | nil => exact h'
  | cons call _ ih => exact .cons call (ih h')

theorem traced_perform (shim : WasmShim) (call : HostCall) :
    ∃ shimCall,
      shim.perform shimCall = (call.event (call.perform shim).1, (call.perform shim).2) := by
  cases call with
  | luxPolicyCheck capHandle rightBits =>
      exact ⟨.policyCheck capHandle.toUInt32 rightBits.toUInt32, rfl⟩
  | luxLedgerDeduct nodeId amount =>
      exact ⟨.ledgerDeduct nodeId.toUInt32 amount.toUInt64, rfl⟩
  | luxTopologyTraverse srcId dstId =>
      exact ⟨.topologyTraverse srcId.toUInt32 dstId.toUInt32, rfl⟩

theorem traced_guest {α : Type} (guest : Guest α) (shim : WasmShim) :
    Traced shim (guest.run shim).1 (guest.run shim).2.2 := by
  induction guest generalizing shim with
  | finish value => exact .nil shim
  | trap => exact .nil shim
  | invoke call next ih =>
      obtain ⟨shimCall, hcall⟩ := traced_perform shim call
      have hlater := ih (call.perform shim).1 (call.perform shim).2
      have hafter : Traced (shim.perform shimCall).2 ((next (call.perform shim).1).run
          (call.perform shim).2).1 ((next (call.perform shim).1).run (call.perform shim).2).2.2 := by
        rw [hcall]
        exact hlater
      have hcons := Traced.cons shimCall hafter
      rw [hcall] at hcons
      exact hcons

namespace WasmExecutor

variable [Engine]

-- Whatever a call ends with, the shim was changed by calls to the shim only, and the
-- changes before a fault stay.
theorem traced_callNullary (executor : WasmExecutor) (wasmBytes : Bytes) (funcName : String) :
    Traced executor.store (executor.callNullary wasmBytes funcName).2.1
      (executor.callNullary wasmBytes funcName).2.2.store := by
  unfold callNullary
  cases Engine.compile wasmBytes with
  | none => exact .nil _
  | some module =>
      rcases hinst : module.instantiate executor.held with ⟨_ | start, held⟩
      · simp only [hinst]
        exact .nil _
      · simp only [hinst]
        have hstart := traced_guest start executor.store
        generalize start.run executor.store = started at hstart ⊢
        obtain ⟨events, value, shim⟩ := started
        cases value with
        | none => exact hstart
        | some exports =>
            dsimp only at hstart ⊢
            cases exports.getTypedFunc funcName with
            | none => exact hstart
            | some func =>
                dsimp only
                have hfunc := traced_guest func shim
                generalize func.run shim = called at hfunc ⊢
                obtain ⟨later, value, last⟩ := called
                cases value with
                | none => exact hstart.trans hfunc
                | some value => exact hstart.trans hfunc

theorem traced_run (executor : WasmExecutor) (ops : List Op) :
    Traced executor.store (executor.run ops).1 (executor.run ops).2.store := by
  induction ops generalizing executor with
  | nil => exact .nil _
  | cons op rest ih =>
      have hfirst : Traced executor.store (executor.perform op).1
          (executor.perform op).2.store := by
        cases op with
        | onShim call => exact .cons call (.nil _)
        | callNullary wasmBytes funcName => exact executor.traced_callNullary wasmBytes funcName
      exact hfirst.trans (ih (executor.perform op).2)

end WasmExecutor

end Tracing

-- The gates behind the shim.
def WasmShim.gates (shim : WasmShim) : Gates := ⟨shim.policy, shim.graph, shim.ledger, shim.audit⟩

namespace WasmShim.Event

def code : WasmShim.Event → Option Int
  | .registered _ _ => none
  | .checked _ _ code => some code
  | .deducted _ _ code => some code
  | .traversed _ _ code => some code

def permitted (event : WasmShim.Event) : Bool := decide (event.code = some RC_PERMITTED)

-- The call that an event has made at a gate, if its handle or nodes were valid.
def gateCall (caps : UInt32 → Option Capability) : WasmShim.Event → Option Audit.Call
  | .registered _ _ => none
  | .checked capHandle rightBits _ =>
      (caps capHandle).map fun cap => .check cap (.fromBitsTruncate rightBits)
  | .deducted nodeId amount _ => (NodeId.new nodeId).map fun node => .deduct node amount "wasm"
  | .traversed srcId dstId _ =>
      (NodeId.new srcId).bind fun src => (NodeId.new dstId).map fun dst => .traverse src dst

-- A gate call with its verdict. A handle that was not valid then may be valid later, which
-- is why the code is looked at first.
def answer (caps : UInt32 → Option Capability) (event : WasmShim.Event) :
    Option (Audit.Call × Bool) :=
  if event.code = some RC_INVALID_HANDLE then none
  else (event.gateCall caps).map fun call => (call, event.permitted)

end WasmShim.Event

-- What one call to the shim does to the gates: nothing, or one call to one of them, with
-- the gate's verdict as its code. The table may have grown since.
inductive Gated [Sha256] (shim : WasmShim) (event : WasmShim.Event) (after : WasmShim) : Prop where
  | aside (unanswered : ∀ caps, event.answer caps = none) (refused : event.permitted = false)
      (same : after.gates = shim.gates)
  | through (call : Audit.Call) (permitted : event.permitted = (shim.gates.step call).granted)
      (answered : ∀ caps, (∀ handle cap, shim.capAt handle = some cap → caps handle = some cap) →
        event.answer caps = some (shim.gates.step call).answer)
      (next : after.gates = (shim.gates.perform call).2)

section Gating

variable [Sha256]

omit [Sha256] in
theorem permitted_code {event : WasmShim.Event} {granted : Bool} {denied : Int}
    (hdenied : denied ≠ RC_PERMITTED)
    (hcode : event.code = some (if granted = true then RC_PERMITTED else denied)) :
    event.permitted = granted := by
  rw [WasmShim.Event.permitted, hcode]
  cases granted <;> simp [hdenied]

omit [Sha256] in
-- The code of a gate is never the one of an invalid handle.
theorem gate_code_ne {granted : Bool} {denied : Int} (h : denied ≠ RC_INVALID_HANDLE) :
    (if granted = true then RC_PERMITTED else denied) ≠ RC_INVALID_HANDLE := by
  split
  · decide
  · exact h

theorem Gated.of_gate {shim after : WasmShim} {event : WasmShim.Event} (call : Audit.Call)
    (denied : Int) (hdenied : denied ≠ RC_PERMITTED) (hvalid : denied ≠ RC_INVALID_HANDLE)
    (hcode : event.code =
      some (if (shim.gates.step call).granted = true then RC_PERMITTED else denied))
    (hcall : ∀ caps, (∀ handle cap, shim.capAt handle = some cap → caps handle = some cap) →
      event.gateCall caps = some call)
    (next : after.gates = (shim.gates.perform call).2) : Gated shim event after := by
  have hpermitted := permitted_code hdenied hcode
  refine .through call hpermitted (fun caps hcaps => ?_) next
  have hreached : event.code ≠ some RC_INVALID_HANDLE := by
    rw [hcode, Ne, Option.some.injEq]
    exact gate_code_ne hvalid
  rw [WasmShim.Event.answer, if_neg hreached, hcall caps hcaps, hpermitted]
  rfl

theorem Gated.of_invalid {shim : WasmShim} {event : WasmShim.Event}
    (hcode : event.code = some RC_INVALID_HANDLE) : Gated shim event shim := by
  refine .aside (fun caps => if_pos hcode) ?_ rfl
  rw [WasmShim.Event.permitted, hcode]
  decide

theorem gated_registerCap (shim : WasmShim) (cap : Capability) :
    Gated shim (shim.perform (.registerCap cap)).1 (shim.perform (.registerCap cap)).2 := by
  refine .aside (fun caps => rfl) rfl ?_
  simp only [WasmShim.perform, WasmShim.registerCap]
  split <;> rfl

-- The three host functions past their look at the handle or the nodes.
theorem WasmShim.policyCheck_eq {shim : WasmShim} {capHandle : UInt32} {cap : Capability}
    (hat : shim.capAt capHandle = some cap) (rightBits : UInt32) :
    shim.policyCheck capHandle rightBits =
      (if (shim.policy.check cap (.fromBitsTruncate rightBits) shim.audit).1.isOk = true then
          RC_PERMITTED else RC_CAP_DENIED,
        { shim with
          policy := (shim.policy.check cap (.fromBitsTruncate rightBits) shim.audit).2.1
          audit := (shim.policy.check cap (.fromBitsTruncate rightBits) shim.audit).2.2 }) := by
  have hentry : shim.capTable.toList[capHandle.toNat]? = some (some cap) :=
    Option.join_eq_some_iff.mp hat
  unfold WasmShim.policyCheck
  rw [hentry]
  dsimp only
  cases (shim.policy.check cap (.fromBitsTruncate rightBits) shim.audit).1 <;> rfl

theorem WasmShim.policyCheck_of_none {shim : WasmShim} {capHandle : UInt32}
    (hat : shim.capAt capHandle = none) (rightBits : UInt32) :
    shim.policyCheck capHandle rightBits = (RC_INVALID_HANDLE, shim) := by
  rcases shim.policyCheck_cases capHandle rightBits with ⟨cap, hcap, -⟩ | hinvalid
  · rw [hat] at hcap
    cases hcap
  · exact hinvalid

theorem WasmShim.ledgerDeduct_eq {nodeId : UInt32} {node : NodeId}
    (hnode : NodeId.new nodeId = some node) (shim : WasmShim) (amount : UInt64) :
    shim.ledgerDeduct nodeId amount =
      (if (QuotaEnforcer.deduct shim.ledger node amount "wasm" shim.audit).1.isOk = true then
          RC_PERMITTED else RC_QUOTA_EXCEEDED,
        { shim with
          ledger := (QuotaEnforcer.deduct shim.ledger node amount "wasm" shim.audit).2.1
          audit := (QuotaEnforcer.deduct shim.ledger node amount "wasm" shim.audit).2.2 }) := by
  unfold WasmShim.ledgerDeduct
  rw [hnode]
  dsimp only
  cases (QuotaEnforcer.deduct shim.ledger node amount "wasm" shim.audit).1 <;> rfl

theorem WasmShim.topologyTraverse_eq {srcId dstId : UInt32} {src dst : NodeId}
    (hsrc : NodeId.new srcId = some src) (hdst : NodeId.new dstId = some dst) (shim : WasmShim) :
    shim.topologyTraverse srcId dstId =
      (if (shim.graph.traverse src dst shim.audit).1.isOk = true then
          RC_PERMITTED else RC_TOPO_VIOLATION,
        { shim with audit := (shim.graph.traverse src dst shim.audit).2 }) := by
  unfold WasmShim.topologyTraverse
  rw [hsrc, hdst]
  dsimp only
  cases (shim.graph.traverse src dst shim.audit).1 <;> rfl

theorem gated_policyCheck (shim : WasmShim) (capHandle rightBits : UInt32) :
    Gated shim (shim.perform (.policyCheck capHandle rightBits)).1
      (shim.perform (.policyCheck capHandle rightBits)).2 := by
  rcases shim.policyCheck_cases capHandle rightBits with ⟨cap, hat, -, -⟩ | hinvalid
  · simp only [WasmShim.perform, WasmShim.policyCheck_eq hat rightBits, ← granted_verdict]
    refine .of_gate (.check cap (.fromBitsTruncate rightBits)) RC_CAP_DENIED (by decide) (by decide)
      rfl (fun caps hcaps => ?_) rfl
    show (caps capHandle).map _ = _
    rw [hcaps capHandle cap hat]
    rfl
  · simp only [WasmShim.perform, hinvalid]
    exact .of_invalid rfl

theorem gated_ledgerDeduct (shim : WasmShim) (nodeId : UInt32) (amount : UInt64) :
    Gated shim (shim.perform (.ledgerDeduct nodeId amount)).1
      (shim.perform (.ledgerDeduct nodeId amount)).2 := by
  cases hnode : NodeId.new nodeId with
  | none =>
      simp only [WasmShim.perform, WasmShim.ledgerDeduct, hnode]
      exact .of_invalid rfl
  | some node =>
      simp only [WasmShim.perform, WasmShim.ledgerDeduct_eq hnode, ← granted_remaining]
      refine .of_gate (.deduct node amount "wasm") RC_QUOTA_EXCEEDED (by decide) (by decide)
        rfl (fun caps _ => ?_) rfl
      show (NodeId.new nodeId).map _ = _
      rw [hnode]
      rfl

theorem gated_topologyTraverse (shim : WasmShim) (srcId dstId : UInt32) :
    Gated shim (shim.perform (.topologyTraverse srcId dstId)).1
      (shim.perform (.topologyTraverse srcId dstId)).2 := by
  simp only [WasmShim.perform]
  cases hsrc : NodeId.new srcId with
  | none =>
      simp only [WasmShim.topologyTraverse, hsrc]
      exact .of_invalid rfl
  | some src =>
      cases hdst : NodeId.new dstId with
      | none =>
          simp only [WasmShim.topologyTraverse, hsrc, hdst]
          exact .of_invalid rfl
      | some dst =>
          simp only [WasmShim.topologyTraverse_eq hsrc hdst, ← granted_verdict]
          refine .of_gate (.traverse src dst) RC_TOPO_VIOLATION (by decide) (by decide)
            rfl (fun caps _ => ?_) rfl
          show (NodeId.new srcId).bind _ = _
          rw [hsrc, hdst]
          rfl

theorem gated_perform (shim : WasmShim) (call : WasmShim.Call) :
    Gated shim (shim.perform call).1 (shim.perform call).2 := by
  cases call with
  | registerCap cap => exact gated_registerCap shim cap
  | policyCheck capHandle rightBits => exact gated_policyCheck shim capHandle rightBits
  | ledgerDeduct nodeId amount => exact gated_ledgerDeduct shim nodeId amount
  | topologyTraverse srcId dstId => exact gated_topologyTraverse shim srcId dstId

-- A handle keeps its capability.
theorem capAt_perform (shim : WasmShim) (call : WasmShim.Call) {handle : UInt32}
    {cap : Capability} (h : shim.capAt handle = some cap) :
    (shim.perform call).2.capAt handle = some cap := by
  cases call with
  | registerCap new =>
      rcases shim.registerCap_cases new with ⟨next, after, hok, -, hfresh, hat⟩ | hfull
      · simp only [WasmShim.perform, hok]
        rw [hat, if_neg, h]
        intro heq
        rw [heq, hfresh] at h
        cases h
      · simp only [WasmShim.perform, hfull]
        exact h
  | policyCheck capHandle rightBits =>
      rcases shim.policyCheck_cases capHandle rightBits with ⟨_, -, -, hstate⟩ | hinvalid
      · simp only [WasmShim.perform, hstate]
        exact h
      · simp only [WasmShim.perform, hinvalid]
        exact h
  | ledgerDeduct nodeId amount =>
      show (shim.ledgerDeduct nodeId amount).2.capAt handle = some cap
      rw [WasmShim.capAt, (shim.ledgerDeduct_keeps nodeId amount).1]
      exact h
  | topologyTraverse srcId dstId =>
      show (shim.topologyTraverse srcId dstId).2.capAt handle = some cap
      rw [WasmShim.capAt, (shim.topologyTraverse_keeps srcId dstId).1]
      exact h

variable {before after : WasmShim} {events : List WasmShim.Event}

theorem Traced.capAt (h : Traced before events after) {handle : UInt32} {cap : Capability}
    (hat : before.capAt handle = some cap) : after.capAt handle = some cap := by
  induction h with
  | nil => exact hat
  | cons call _ ih => exact ih (capAt_perform _ call hat)

-- The gate calls of a run with their verdicts, earliest first.
def answers (events : List WasmShim.Event) (shim : WasmShim) : List (Audit.Call × Bool) :=
  events.filterMap (WasmShim.Event.answer shim.capAt)

theorem Traced.refines (h : Traced before events after) :
    after.gates = before.gates.run ((answers events after).map Prod.fst) ∧
      (before.gates.trace ((answers events after).map Prod.fst)).map Step.answer =
        answers events after ∧
      ∀ event ∈ events, event.permitted = (event.answer after.capAt).any Prod.snd := by
  induction h with
  | nil shim => exact ⟨rfl, rfl, fun event h => by cases h⟩
  | @cons shim last events call later ih =>
      obtain ⟨hgates, htrace, hall⟩ := ih
      have hcaps : ∀ handle cap, shim.capAt handle = some cap → last.capAt handle = some cap :=
        fun handle cap hat => later.capAt (capAt_perform shim call hat)
      cases gated_perform shim call with
      | aside unanswered refused same =>
          have hsame : answers ((shim.perform call).1 :: events) last = answers events last :=
            List.filterMap_cons_none (unanswered last.capAt)
          rw [hsame]
          rw [same] at hgates htrace
          refine ⟨hgates, htrace, fun event hmem => ?_⟩
          rcases List.mem_cons.mp hmem with rfl | hlater
          · rw [refused, unanswered, Option.any_none]
          · exact hall event hlater
      | through gateCall permitted answered next =>
          have hnew := answered last.capAt hcaps
          have hcons : answers ((shim.perform call).1 :: events) last =
              (shim.gates.step gateCall).answer :: answers events last :=
            List.filterMap_cons_some hnew
          rw [hcons, List.map_cons]
          rw [next] at hgates htrace
          refine ⟨hgates, ?_, fun event hmem => ?_⟩
          · exact congrArg ((shim.gates.step gateCall).answer :: ·) htrace
          · rcases List.mem_cons.mp hmem with rfl | hlater
            · rw [hnew, permitted]
              rfl
            · exact hall event hlater

end Gating

namespace WasmExecutor

section

-- Every export of every module pays three units for node 1 and traps.
@[reducible] def Engine.payAndTrap : Engine where
  Held := Unit
  fresh := ()
  compile _ := some ⟨fun held =>
    (some (.finish ⟨fun _ => some (.invoke (.luxLedgerDeduct 1 3) fun _ => .trap)⟩), held)⟩

attribute [local instance] Sha256.zero Engine.payAndTrap

def fundedExecutor : WasmExecutor := new (.fromParts (Policy.new ⟨0⟩)
  (Ledger.new.seed node1 ⟨5⟩).2 BootingGraph.new.sealed)

example : (fundedExecutor.callNullary [] "run").1 = .error (.wasmFault "WASM guest trapped") ∧
    (fundedExecutor.callNullary [] "run").2.2.store.ledger.balance node1 = some 2 := by
  decide +kernel

end

end WasmExecutor

end LuxKernel.Wasm
