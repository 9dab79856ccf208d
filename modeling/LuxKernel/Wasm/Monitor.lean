import LuxKernel.Wasm.Guests
import LuxKernel.Boot.Attestation

namespace LuxKernel.Wasm

open Audit Auth Boot Heapless Metabolism Tpm LuxKernel.Topology

namespace WasmShim.Event

def call : WasmShim.Event → WasmShim.Call
  | .registered cap _ => .registerCap cap
  | .checked capHandle rightBits _ => .policyCheck capHandle rightBits
  | .deducted nodeId amount _ => .ledgerDeduct nodeId amount
  | .traversed srcId dstId _ => .topologyTraverse srcId dstId

theorem call_perform [Sha256] (shim : WasmShim) (call : WasmShim.Call) :
    (shim.perform call).1.call = call := by
  cases call <;> rfl

def entered : WasmShim.Event → Option Capability
  | .registered cap (some _) => some cap
  | _ => none

-- The call has come as far as a gate, which has logged it if there was room.
def atGate (event : WasmShim.Event) : Bool :=
  event.code.any fun code => decide (code ≠ RC_INVALID_HANDLE)

end WasmShim.Event

-- What a sandbox is given: the policy as it is handed over, and quotas and edges.
structure Endowment where
  policy : Policy
  quota : NodeId → Option UInt64
  permits : NodeId → NodeId → Bool

-- A reference monitor for guests. It has no log, no ledger, no graph and no table: it
-- looks at what it was given and at the events so far.
namespace Monitor

section

variable (past : List WasmShim.Event)

def table : List Capability := past.filterMap WasmShim.Event.entered

def capFor (handle : UInt32) : Option Capability := (table past)[handle.toNat]?

def logged : Nat := past.countP WasmShim.Event.atGate

def spent (node : NodeId) : Nat := (past.map (WasmShim.Event.spent node)).sum

def nonceOf (event : WasmShim.Event) : Option UInt64 :=
  (event.permittedHandle.bind (capFor past)).map Capability.nonce

def used : List UInt64 := past.filterMap (nonceOf past)

variable (given : Endowment)

def Clears (cap : Capability) (right : CapabilitySet) : Prop :=
  cap.generation = given.policy.currentGeneration ∧ cap.rights.contains right = true ∧
    given.policy.revocation.isRevoked cap.nonce = false ∧
    cap.nonce ∉ given.policy.usedNonces.toList ++ used past ∧
    (given.policy.usedNonces.toList ++ used past).length < NONCE_WINDOW

instance (cap : Capability) (right : CapabilitySet) : Decidable (Clears past given cap right) :=
  inferInstanceAs (Decidable (_ ∧ _ ∧ _ ∧ _ ∧ _))

def Affords (node : NodeId) (amount : UInt64) : Prop :=
  ∃ ceiling ∈ given.quota node, spent past node + amount.toNat ≤ ceiling.toNat

instance (node : NodeId) (amount : UInt64) : Decidable (Affords past given node amount) :=
  inferInstanceAs (Decidable (∃ ceiling ∈ given.quota node, _))

-- Nothing is permitted once the log is full.
def verdict (permitted : Prop) [Decidable permitted] (denied : Int) : Int :=
  if permitted ∧ logged past < MAX_AUDIT_EVENTS then RC_PERMITTED else denied

def respond : WasmShim.Call → WasmShim.Event
  | .registerCap cap =>
      .registered cap (if (table past).length < MAX_WASM_CAPS then
        some (UInt32.ofNat (table past).length) else none)
  | .policyCheck capHandle rightBits =>
      .checked capHandle rightBits <|
        match capFor past capHandle with
        | none => RC_INVALID_HANDLE
        | some cap =>
            verdict past (Clears past given cap (.fromBitsTruncate rightBits)) RC_CAP_DENIED
  | .ledgerDeduct nodeId amount =>
      .deducted nodeId amount <|
        match NodeId.new nodeId with
        | none => RC_INVALID_HANDLE
        | some node => verdict past (Affords past given node amount) RC_QUOTA_EXCEEDED
  | .topologyTraverse srcId dstId =>
      .traversed srcId dstId <|
        match NodeId.new srcId, NodeId.new dstId with
        | some src, some dst =>
            verdict past (given.permits src dst = true) RC_TOPO_VIOLATION
        | _, _ => RC_INVALID_HANDLE

end

-- The state of the shim against the history. Once the log is full the policy still uses up
-- nonces, which is why they are followed only until then.
structure Simulates (given : Endowment) (past : List WasmShim.Event) (shim : WasmShim) : Prop where
  logged : shim.audit.events.toList.length = min (logged past) MAX_AUDIT_EVENTS
  table : shim.capTable.toList = (table past).map some
  edges : ∀ src dst, shim.graph.traverseInner src dst = .ok () ↔ given.permits src dst = true
  balances : ∀ node, (given.quota node).map UInt64.toNat =
    (shim.ledger.balance node).map fun left => left.toNat + spent past node
  generation : shim.policy.currentGeneration = given.policy.currentGeneration
  revocation : shim.policy.revocation = given.policy.revocation
  nonces : Monitor.logged past < MAX_AUDIT_EVENTS →
    shim.policy.usedNonces.toList = given.policy.usedNonces.toList ++ used past
  handles : ∀ event ∈ past, ∀ handle, event.permittedHandle = some handle →
    handle.toNat < (Monitor.table past).length

section

variable {given : Endowment} {past : List WasmShim.Event} {shim after : WasmShim}
variable {event : WasmShim.Event}

theorem filterMap_concat {α β : Type} (f : α → Option β) (l : List α) (a : α) :
    (l ++ [a]).filterMap f = l.filterMap f ++ (f a).toList := by
  rw [List.filterMap_append]
  cases h : f a with
  | none => rw [List.filterMap_cons_none h, List.filterMap_nil, Option.toList_none]
  | some b => rw [List.filterMap_cons_some h, List.filterMap_nil, Option.toList_some]

theorem table_concat : table (past ++ [event]) = table past ++ event.entered.toList :=
  filterMap_concat _ past event

theorem logged_concat : logged (past ++ [event]) = logged past + if event.atGate then 1 else 0 := by
  rw [logged, List.countP_append, List.countP_singleton]
  rfl

theorem spent_concat (node : NodeId) :
    spent (past ++ [event]) node = spent past node + event.spent node := by
  simp [spent]

-- A handle keeps its capability.
theorem capFor_concat {handle : UInt32} (h : handle.toNat < (table past).length) :
    capFor (past ++ [event]) handle = capFor past handle := by
  rw [capFor, table_concat, List.getElem?_append_left h]
  rfl

theorem used_concat (hold : ∀ e ∈ past, ∀ handle, e.permittedHandle = some handle →
      handle.toNat < (table past).length)
    (hnew : ∀ handle, event.permittedHandle = some handle → handle.toNat < (table past).length) :
    used (past ++ [event]) = used past ++ (nonceOf past event).toList := by
  have hsame : ∀ e, (∀ handle, e.permittedHandle = some handle →
      handle.toNat < (table past).length) → nonceOf (past ++ [event]) e = nonceOf past e := by
    intro e hhandle
    rw [nonceOf, nonceOf]
    cases heq : e.permittedHandle with
    | none => rfl
    | some handle => rw [Option.bind_some, Option.bind_some, capFor_concat (hhandle handle heq)]
  rw [used, filterMap_concat, hsame event hnew]
  congr 1
  apply List.filterMap_congr
  exact fun e he => hsame e (hold e he)

theorem atGate_of_code {granted : Bool} {denied : Int}
    (hcode : event.code = some (if granted = true then RC_PERMITTED else denied))
    (hdenied : denied ≠ RC_INVALID_HANDLE) : event.atGate = true := by
  rw [WasmShim.Event.atGate, hcode]
  exact decide_eq_true (gate_code_ne hdenied)

theorem isOk_iff {result : Result Unit} : result.isOk = true ↔ result = .ok () := by
  cases result <;> simp [Except.isOk, Except.toBool]

theorem deduct_isOk [Sha256] {ledger : Ledger} {node : NodeId} {amount : UInt64}
    {resource : String} {audit : AuditLog} :
    (QuotaEnforcer.deduct ledger node amount resource audit).1.isOk = true ↔
      (∃ balance, ledger.balance node = some balance ∧ amount ≤ balance) ∧
        audit.isFull = false := by
  cases hfull : audit.isFull with
  | true =>
      rw [QuotaEnforcer.deduct_of_full ledger node amount resource hfull]
      simp [Except.isOk, Except.toBool]
  | false =>
      rw [(QuotaEnforcer.deduct_of_room ledger node amount resource hfull).1]
      rcases ledger.deduct_cases node amount with ⟨balance, hheld, hle, hpaid, -⟩ | ⟨hshort, hfail⟩
      · rw [hpaid]
        exact iff_of_true rfl ⟨⟨balance, hheld, hle⟩, rfl⟩
      · rw [hfail]
        refine iff_of_false Bool.false_ne_true ?_
        rintro ⟨⟨balance, hheld, hle⟩, -⟩
        exact UInt64.not_lt.mpr hle (hshort balance hheld)

namespace Simulates

theorem isFull_eq_false (h : Simulates given past shim) :
    shim.audit.isFull = false ↔ Monitor.logged past < MAX_AUDIT_EVENTS := by
  have hlogged := h.logged
  rw [← Bool.not_eq_true, AuditLog.isFull_iff]
  omega

theorem capAt (h : Simulates given past shim) (handle : UInt32) :
    shim.capAt handle = capFor past handle := by
  rw [WasmShim.capAt, h.table, List.getElem?_map, capFor]
  cases (Monitor.table past)[handle.toNat]? <;> rfl

theorem admits_iff (h : Simulates given past shim)
    (hroom : Monitor.logged past < MAX_AUDIT_EVENTS) {cap : Capability} {right : CapabilitySet} :
    shim.policy.Admits cap right ↔ Clears past given cap right := by
  have hnonces := h.nonces hroom
  constructor
  · intro hadm
    exact ⟨h.generation ▸ hadm.generation, hadm.rights, h.revocation ▸ hadm.unrevoked,
      hnonces ▸ hadm.unused, hnonces ▸ hadm.room⟩
  · rintro ⟨hgeneration, hrights, hrevoked, hunused, hwindow⟩
    exact ⟨h.generation ▸ hgeneration, hrights, h.revocation ▸ hrevoked, hnonces ▸ hunused,
      hnonces ▸ hwindow⟩

theorem affords_iff (h : Simulates given past shim) (node : NodeId) (amount : UInt64) :
    Affords past given node amount ↔
      ∃ balance, shim.ledger.balance node = some balance ∧ amount ≤ balance := by
  have hbalance := h.balances node
  cases hheld : shim.ledger.balance node with
  | none =>
      rw [hheld, Option.map_none, Option.map_eq_none_iff] at hbalance
      simp [Affords, hbalance]
  | some balance =>
      rw [hheld, Option.map_some, Option.map_eq_some_iff] at hbalance
      obtain ⟨ceiling, hceiling, heq⟩ := hbalance
      simp only [Affords, hceiling, Option.mem_some, exists_eq_left', Option.some.injEq]
      rw [UInt64.le_iff_toNat_le]
      omega

-- What one event adds to the history, whatever the call was.
theorem extend (h : Simulates given past shim)
    (hlogged : after.audit.events.toList.length =
      min (shim.audit.events.toList.length + if event.atGate then 1 else 0) MAX_AUDIT_EVENTS)
    (htable : after.capTable.toList = shim.capTable.toList ++ (event.entered.map some).toList)
    (hgraph : after.graph = shim.graph)
    (hbalances : ∀ node, (shim.ledger.balance node).map UInt64.toNat =
      (after.ledger.balance node).map fun left => left.toNat + event.spent node)
    (hgeneration : after.policy.currentGeneration = shim.policy.currentGeneration)
    (hrevocation : after.policy.revocation = shim.policy.revocation)
    (hnonces : Monitor.logged past < MAX_AUDIT_EVENTS → after.policy.usedNonces.toList =
      shim.policy.usedNonces.toList ++ (nonceOf past event).toList)
    (hhandle : ∀ handle, event.permittedHandle = some handle →
      handle.toNat < (Monitor.table past).length) :
    Simulates given (past ++ [event]) after where
  logged := by
    rw [hlogged, h.logged, logged_concat]
    omega
  table := by
    rw [htable, h.table, table_concat, List.map_append]
    cases event.entered <;> rfl
  edges := hgraph ▸ h.edges
  balances node := by
    rw [spent_concat]
    exact balance_trans (h.balances node) (hbalances node)
  generation := hgeneration.trans h.generation
  revocation := hrevocation.trans h.revocation
  nonces hroom := by
    rw [logged_concat] at hroom
    have hearlier : Monitor.logged past < MAX_AUDIT_EVENTS := by omega
    rw [hnonces hearlier, h.nonces hearlier, used_concat h.handles hhandle, List.append_assoc]
  handles e hmem handle heq := by
    have hlength : (Monitor.table past).length ≤ (Monitor.table (past ++ [event])).length := by
      rw [table_concat, List.length_append]
      omega
    rcases List.mem_append.mp hmem with hold | hnew
    · exact Nat.lt_of_lt_of_le (h.handles e hold handle heq) hlength
    · obtain rfl := List.mem_singleton.mp hnew
      exact Nat.lt_of_lt_of_le (hhandle handle heq) hlength

-- A call that is turned away before any gate.
theorem aside (h : Simulates given past shim) (hcode : event.code = some RC_INVALID_HANDLE)
    (hentered : event.entered = none) (hspent : ∀ node, event.spent node = 0)
    (hpermitted : event.permittedHandle = none) : Simulates given (past ++ [event]) shim := by
  have hgate : event.atGate = false := by simp [WasmShim.Event.atGate, hcode]
  have hmax := shim.audit.events.length_le
  apply h.extend
  · rw [hgate]
    simp only [Bool.false_eq_true, if_false]
    omega
  · simp [hentered]
  · rfl
  · simp [hspent]
  · rfl
  · rfl
  · simp [nonceOf, hpermitted]
  · simp [hpermitted]

theorem registered (h : Simulates given past shim) (cap : Capability) (handle : Option UInt32)
    {capTable : HVec (Option Capability) MAX_WASM_CAPS}
    (htable : capTable.toList = shim.capTable.toList ++
      ((WasmShim.Event.registered cap handle).entered.map some).toList) :
    Simulates given (past ++ [.registered cap handle]) { shim with capTable := capTable } := by
  have hmax := shim.audit.events.length_le
  apply h.extend
  · simp only [WasmShim.Event.atGate, WasmShim.Event.code, Option.any_none,
      Bool.false_eq_true, if_false]
    omega
  · exact htable
  · rfl
  · simp [WasmShim.Event.spent]
  · rfl
  · rfl
  · simp [nonceOf, WasmShim.Event.permittedHandle]
  · simp [WasmShim.Event.permittedHandle]

theorem fromParts (policy : Policy) (ledger : Ledger) (graph : OperationalGraph)
    (hedges : ∀ src dst, graph.traverseInner src dst = .ok () ↔ given.permits src dst = true)
    (hquota : ∀ node, ledger.balance node = given.quota node) (hpolicy : policy = given.policy) :
    Simulates given [] (.fromParts policy ledger graph) where
  logged := rfl
  table := rfl
  edges := hedges
  balances node := by simp [WasmShim.fromParts, hquota, spent]
  generation := congrArg Policy.currentGeneration hpolicy
  revocation := congrArg Policy.revocation hpolicy
  nonces _ := by simp [WasmShim.fromParts, hpolicy, used]
  handles event h := by cases h

variable [Sha256]

theorem registerCap (h : Simulates given past shim) (cap : Capability) :
    (shim.perform (.registerCap cap)).1 = respond past given (.registerCap cap) ∧
      Simulates given (past ++ [(shim.perform (.registerCap cap)).1])
        (shim.perform (.registerCap cap)).2 := by
  have hlength : shim.capTable.toList.length = (Monitor.table past).length := by
    rw [h.table, List.length_map]
  simp only [WasmShim.perform, WasmShim.registerCap, respond]
  cases hpush : shim.capTable.push (some cap) with
  | none =>
      have hfull := HVec.push_eq_none_iff.mp hpush
      exact ⟨by rw [if_neg (by omega)], h.registered cap none (List.append_nil _).symm⟩
  | some capTable =>
      obtain ⟨hroom, hlist⟩ := HVec.push_eq_some_iff.mp hpush
      exact ⟨by rw [if_pos (by omega), hlength], h.registered cap _ hlist⟩

theorem policyCheck (h : Simulates given past shim) (capHandle rightBits : UInt32) :
    (shim.perform (.policyCheck capHandle rightBits)).1 =
        respond past given (.policyCheck capHandle rightBits) ∧
      Simulates given (past ++ [(shim.perform (.policyCheck capHandle rightBits)).1])
        (shim.perform (.policyCheck capHandle rightBits)).2 := by
  have hat := h.capAt capHandle
  simp only [WasmShim.perform, respond]
  cases hcap : capFor past capHandle with
  | none =>
      rw [hcap] at hat
      rw [WasmShim.policyCheck_of_none hat]
      exact ⟨rfl, h.aside rfl rfl (fun _ => rfl) rfl⟩
  | some cap =>
      rw [hcap] at hat
      rw [WasmShim.policyCheck_eq hat]
      have hpermitted : (shim.policy.check cap (.fromBitsTruncate rightBits) shim.audit).1.isOk =
          true ↔ Clears past given cap (.fromBitsTruncate rightBits) ∧
            Monitor.logged past < MAX_AUDIT_EVENTS := by
        rw [isOk_iff, Policy.check_eq_ok, h.isFull_eq_false]
        exact and_congr_left fun hroom => h.admits_iff hroom
      obtain ⟨hgeneration, hrevocation, -⟩ :=
        shim.policy.check_keeps cap (.fromBitsTruncate rightBits) shim.audit
      refine ⟨congrArg (WasmShim.Event.checked capHandle rightBits)
        (if_congr hpermitted rfl rfl), ?_⟩
      apply h.extend
      · rw [atGate_of_code rfl (by decide), if_pos rfl]
        exact (recorded_gate _).length
      · exact (List.append_nil _).symm
      · rfl
      · exact fun node => rfl
      · exact hgeneration
      · exact hrevocation
      · intro hroom
        dsimp only
        rw [Policy.check_policy, nonceOf, WasmShim.Event.permittedHandle]
        rcases shim.policy.checkInner_cases cap (.fromBitsTruncate rightBits) with
          ⟨hadm, -, usedNonces, hused, hpolicy⟩ | ⟨hadm, hpolicy, -⟩
        · have hok := hpermitted.mpr ⟨(h.admits_iff hroom).mp hadm, hroom⟩
          rw [if_pos hok, if_pos rfl, hpolicy, Option.bind_some, hcap]
          exact hused
        · have hdenied := mt hpermitted.mp fun hclear => hadm ((h.admits_iff hroom).mpr hclear.1)
          rw [if_neg hdenied, hpolicy]
          exact (List.append_nil _).symm
      · intro handle heq
        obtain ⟨bits, hevent⟩ := WasmShim.Event.permittedHandle_eq_some.mp heq
        obtain ⟨rfl, -⟩ := WasmShim.Event.checked.inj hevent
        exact (List.getElem?_eq_some_iff.mp hcap).1

theorem ledgerDeduct (h : Simulates given past shim) (nodeId : UInt32) (amount : UInt64) :
    (shim.perform (.ledgerDeduct nodeId amount)).1 =
        respond past given (.ledgerDeduct nodeId amount) ∧
      Simulates given (past ++ [(shim.perform (.ledgerDeduct nodeId amount)).1])
        (shim.perform (.ledgerDeduct nodeId amount)).2 := by
  simp only [WasmShim.perform, respond]
  cases hnode : NodeId.new nodeId with
  | none =>
      simp only [WasmShim.ledgerDeduct, hnode]
      exact ⟨trivial, h.aside rfl rfl (fun _ => by simp [WasmShim.Event.spent, RC_INVALID_HANDLE,
        RC_PERMITTED]) rfl⟩
  | some node =>
      rw [WasmShim.ledgerDeduct_eq hnode]
      have hpermitted : (QuotaEnforcer.deduct shim.ledger node amount "wasm" shim.audit).1.isOk =
          true ↔ Affords past given node amount ∧ Monitor.logged past < MAX_AUDIT_EVENTS := by
        rw [h.affords_iff, ← h.isFull_eq_false]
        exact deduct_isOk
      refine ⟨congrArg (WasmShim.Event.deducted nodeId amount) (if_congr hpermitted rfl rfl), ?_⟩
      apply h.extend
      · rw [atGate_of_code rfl (by decide), if_pos rfl]
        exact (recorded_deduct shim.ledger node amount "wasm").length
      · exact (List.append_nil _).symm
      · rfl
      · intro other
        rw [spent_deducted other hnode, permitted_code (by decide) rfl]
        exact balance_of_effect (shim.ledger.effect_enforce node amount "wasm" shim.audit) "wasm"
          other
      · rfl
      · rfl
      · intro _
        exact (List.append_nil _).symm
      · intro handle heq
        cases heq

theorem topologyTraverse (h : Simulates given past shim) (srcId dstId : UInt32) :
    (shim.perform (.topologyTraverse srcId dstId)).1 =
        respond past given (.topologyTraverse srcId dstId) ∧
      Simulates given (past ++ [(shim.perform (.topologyTraverse srcId dstId)).1])
        (shim.perform (.topologyTraverse srcId dstId)).2 := by
  simp only [WasmShim.perform, respond]
  cases hsrc : NodeId.new srcId with
  | none =>
      simp only [WasmShim.topologyTraverse, hsrc]
      exact ⟨trivial, h.aside rfl rfl (fun _ => rfl) rfl⟩
  | some src =>
      cases hdst : NodeId.new dstId with
      | none =>
          simp only [WasmShim.topologyTraverse, hsrc, hdst]
          exact ⟨trivial, h.aside rfl rfl (fun _ => rfl) rfl⟩
      | some dst =>
          rw [WasmShim.topologyTraverse_eq hsrc hdst]
          have hpermitted : (shim.graph.traverse src dst shim.audit).1.isOk = true ↔
              given.permits src dst = true ∧ Monitor.logged past < MAX_AUDIT_EVENTS := by
            rw [isOk_iff, OperationalGraph.traverse, gate_eq_ok, h.edges, h.isFull_eq_false]
          refine ⟨congrArg (WasmShim.Event.traversed srcId dstId) (if_congr hpermitted rfl rfl), ?_⟩
          apply h.extend
          · rw [atGate_of_code rfl (by decide), if_pos rfl]
            exact (recorded_gate _).length
          · exact (List.append_nil _).symm
          · rfl
          · exact fun node => rfl
          · rfl
          · rfl
          · intro _
            exact (List.append_nil _).symm
          · intro handle heq
            cases heq

theorem perform (h : Simulates given past shim) (call : WasmShim.Call) :
    (shim.perform call).1 = respond past given call ∧
      Simulates given (past ++ [(shim.perform call).1]) (shim.perform call).2 := by
  cases call with
  | registerCap cap => exact h.registerCap cap
  | policyCheck capHandle rightBits => exact h.policyCheck capHandle rightBits
  | ledgerDeduct nodeId amount => exact h.ledgerDeduct nodeId amount
  | topologyTraverse srcId dstId => exact h.topologyTraverse srcId dstId

end Simulates

variable [Sha256]

-- Each event of a run is the monitor's answer to the call, from the events before it.
theorem responds {events : List WasmShim.Event} (h : Traced shim events after)
    (hsim : Simulates given past shim) {earlier later : List WasmShim.Event}
    (hsplit : events = earlier ++ event :: later) :
    event = respond (past ++ earlier) given event.call := by
  induction h generalizing past earlier with
  | nil => simp at hsplit
  | @cons shim last events call _ ih =>
      obtain ⟨hanswer, hnext⟩ := hsim.perform call
      cases earlier with
      | nil =>
          obtain ⟨rfl, -⟩ := List.cons.inj hsplit
          rw [List.append_nil, WasmShim.Event.call_perform]
          exact hanswer
      | cons first rest =>
          obtain ⟨rfl, hrest⟩ := List.cons.inj hsplit
          rw [List.append_cons]
          exact ih hnext hrest

end

end Monitor

namespace WasmExecutor

-- From the bytes of the manifest to what a guest is told: every code is decided by the
-- manifest, by the policy and by the calls so far. `policy_mut` lends out the policy of a
-- booted state, so that it may be any by then; nothing lends out the graph or the ledger.
theorem booted_guests_monitored {T : Type} [Minicbor] [Sha256] [TpmProvider T] [Engine]
    (rawManifest : Bytes) (credentials : BootCredentials) (tpm tpm' : T) (state : BootState)
    (hboot : BootState.initialiseWithTpm rawManifest credentials tpm = (.ok state, tpm'))
    (policy : Policy) (ops : List Op) :
    ∃ manifest, ManifestDecoder.decode rawManifest credentials = .ok manifest ∧
      ∀ past event later,
        ((new (.fromBootState { state with policy := policy })).run ops).1 =
          past ++ event :: later →
        event = Monitor.respond past
          ⟨policy, fun node => (manifest.quotaFor node).map Quota.ceiling, manifest.permitsEdge⟩
            event.call := by
  obtain ⟨manifest, hdecode, hreal, -⟩ := initialiseWithTpm_realised (congrArg Prod.fst hboot)
  refine ⟨manifest, hdecode, fun past event later hsplit => ?_⟩
  have hstart : Monitor.Simulates
      ⟨policy, fun node => (manifest.quotaFor node).map Quota.ceiling, manifest.permitsEdge⟩ []
      (.fromBootState { state with policy := policy }) :=
    .fromParts policy state.ledger state.graph hreal.traverseInner_eq_ok hreal.balance rfl
  exact Monitor.responds (traced_run _ ops) hstart hsplit

section

attribute [local instance] Sha256.zero Cbor.reader Engine.payAndTrap

-- One edge from node 1 to node 2, and five units for node 1.
def smallManifest : Bytes :=
  List.replicate 64 0 ++ [0x83, 0x00, 0x81, 0x82, 0x01, 0x02, 0x81, 0x82, 0x01, 0x05]

def twoGuests : List Op := [.callNullary [] "run", .callNullary [] "run"]

-- The quota covers the first guest and not the second.
theorem booted_guests_monitored_pay : ∃ state manifest first second,
    BootState.initialise smallManifest acceptAll = .ok state ∧
    ManifestDecoder.decode smallManifest acceptAll = .ok manifest ∧
    ((new (.fromBootState state)).run twoGuests).1 = [first, second] ∧
    first.code = some RC_PERMITTED ∧ second.code = some RC_QUOTA_EXCEEDED ∧
    second = Monitor.respond [first] ⟨state.policy,
      fun node => (manifest.quotaFor node).map Quota.ceiling, manifest.permitsEdge⟩
        second.call := by
  have hcodes : (BootState.initialise smallManifest acceptAll).toOption.map (fun state =>
      ((new (.fromBootState state)).run twoGuests).1.map WasmShim.Event.code) =
        some [some RC_PERMITTED, some RC_QUOTA_EXCEEDED] := by decide +kernel
  obtain ⟨state, hstate, hevents⟩ := Option.map_eq_some_iff.mp hcodes
  have hboot : BootState.initialise smallManifest acceptAll = .ok state := by
    cases hresult : BootState.initialise smallManifest acceptAll with
    | error e =>
        rw [hresult] at hstate
        cases hstate
    | ok other =>
        rw [hresult] at hstate
        rw [Option.some.inj hstate]
  obtain ⟨first, rest, hsplit, hfirst, hrest⟩ := List.map_eq_cons_iff.mp hevents
  obtain ⟨second, last, rfl, hsecond, hlast⟩ := List.map_eq_cons_iff.mp hrest
  obtain rfl := List.map_eq_nil_iff.mp hlast
  obtain ⟨manifest, hdecode, hanswers⟩ := booted_guests_monitored smallManifest acceptAll
    NullTpm.mk _ state (Prod.ext hboot rfl) state.policy twoGuests
  exact ⟨state, manifest, first, second, hboot, hdecode, hsplit, hfirst, hsecond,
    hanswers [first] second [] hsplit⟩

end

end WasmExecutor

end LuxKernel.Wasm
