import LuxKernel.Audit.Log
import Mathlib.Data.Fin.Basic
import Mathlib.Logic.Function.Basic

namespace LuxKernel.Topology

open Audit Function

-- `node_idx`: node `n` has index `n - 1`, which must be one of the 64 columns.
def nodeIdx (id : NodeId) : Result (Fin MAX_NODES) :=
  let idx := id.get.toNat - 1
  if h : idx < MAX_NODES then .ok ⟨idx, h⟩ else .error (.topologyViolation id.get 0)

-- `1u64 << idx`.
def bit (idx : Fin MAX_NODES) : UInt64 := 1 <<< idx.val.toUInt64

-- `(row >> idx) & 1 == 1`.
def hasBit (row : UInt64) (idx : Fin MAX_NODES) : Bool :=
  decide ((row >>> idx.val.toUInt64) &&& 1 = 1)

-- The two typestates hold the same data. A booting graph can be written to, an
-- operational graph only read.
structure BootingGraph where
  activeNodes : UInt64
  edgeMatrix : Fin MAX_NODES → UInt64

structure OperationalGraph where
  activeNodes : UInt64
  edgeMatrix : Fin MAX_NODES → UInt64

namespace BootingGraph

def new : BootingGraph := ⟨0, fun _ => 0⟩

def activate (graph : BootingGraph) (id : NodeId) : Result Unit × BootingGraph :=
  match nodeIdx id with
  | .error e => (.error e, graph)
  | .ok idx => (.ok (), { graph with activeNodes := graph.activeNodes ||| bit idx })

def permitEdge (graph : BootingGraph) (src dst : NodeId) : Result Unit × BootingGraph :=
  match nodeIdx src with
  | .error e => (.error e, graph)
  | .ok si =>
      match nodeIdx dst with
      | .error e => (.error e, graph)
      | .ok di =>
          if hasBit graph.activeNodes si = false then
            (.error (.topologyViolation src.get dst.get), graph)
          else if hasBit graph.activeNodes di = false then
            (.error (.topologyViolation src.get dst.get), graph)
          else
            (.ok (), { graph with
              edgeMatrix := update graph.edgeMatrix si (graph.edgeMatrix si ||| bit di) })

-- `seal`, which consumes the booting graph.
def sealed (graph : BootingGraph) : OperationalGraph := ⟨graph.activeNodes, graph.edgeMatrix⟩

end BootingGraph

namespace OperationalGraph

def traverseInner (graph : OperationalGraph) (src dst : NodeId) : Result Unit := do
  let si ← nodeIdx src
  let di ← nodeIdx dst
  if hasBit graph.activeNodes si = false ∨ hasBit graph.activeNodes di = false then
    .error (.topologyViolation src.get dst.get)
  else if hasBit (graph.edgeMatrix si) di = false then
    .error (.topologyViolation src.get dst.get)
  else
    .ok ()

def traverse [Sha256] (graph : OperationalGraph) (src dst : NodeId) (audit : AuditLog) :
    Result Unit × AuditLog :=
  gate audit .topologyTraverse src.get (graph.traverseInner src dst)

def isActive (graph : OperationalGraph) (id : NodeId) : Bool :=
  match nodeIdx id with
  | .ok idx => hasBit graph.activeNodes idx
  | .error _ => false

end OperationalGraph

section Bits

private theorem toNat_column (idx : Fin MAX_NODES) : (idx.val.toUInt64).toNat = idx.val := by
  have h : idx.val < 64 := idx.isLt
  simp only [Nat.toUInt64, UInt64.toNat_ofNat']
  omega

theorem hasBit_eq (row : UInt64) (idx : Fin MAX_NODES) :
    hasBit row idx = row.toNat.testBit idx.val := by
  have h : idx.val < 64 := idx.isLt
  have hnat : ((row >>> idx.val.toUInt64) &&& 1 = 1) ↔
      ((row >>> idx.val.toUInt64) &&& 1).toNat = 1 := by
    rw [← UInt64.toNat_inj]
    rfl
  unfold hasBit
  rw [Bool.eq_iff_iff, decide_eq_true_eq, hnat, UInt64.toNat_and, UInt64.toNat_shiftRight,
    toNat_column, Nat.mod_eq_of_lt h, Nat.testBit]
  simp [Nat.and_comm]

theorem hasBit_or_bit (row : UInt64) (i j : Fin MAX_NODES) :
    hasBit (row ||| bit j) i = (hasBit row i || decide (i = j)) := by
  have hj : j.val < 64 := j.isLt
  have hpow : 2 ^ j.val < 2 ^ 64 := Nat.pow_lt_pow_right (by decide) hj
  have hbit : (bit j).toNat = 2 ^ j.val := by
    rw [bit, UInt64.toNat_shiftLeft, toNat_column, Nat.mod_eq_of_lt hj, UInt64.toNat_one,
      Nat.one_shiftLeft, Nat.mod_eq_of_lt hpow]
  rw [hasBit_eq, hasBit_eq, UInt64.toNat_or, Nat.testBit_or, hbit, Nat.testBit_two_pow]
  congr 1
  rw [Bool.eq_iff_iff, decide_eq_true_eq, decide_eq_true_eq, Fin.ext_iff]
  exact eq_comm

@[simp] theorem hasBit_zero (idx : Fin MAX_NODES) : hasBit 0 idx = false := by
  rw [hasBit_eq]
  simp

end Bits

theorem nodeIdx_eq_ok {id : NodeId} {idx : Fin MAX_NODES} :
    nodeIdx id = .ok idx ↔ idx.val + 1 = id.get.toNat := by
  have hpos := id.toNat_pos
  unfold nodeIdx
  simp only
  split
  · rw [Except.ok.injEq, Fin.ext_iff]
    simp only
    omega
  · rename_i hlt
    have := idx.isLt
    simp only [reduceCtorEq, false_iff]
    omega

theorem exists_nodeIdx {id : NodeId} : (∃ idx, nodeIdx id = .ok idx) ↔ id.get.toNat ≤ MAX_NODES := by
  have hpos := id.toNat_pos
  constructor
  · rintro ⟨idx, h⟩
    have := idx.isLt
    rw [nodeIdx_eq_ok] at h
    omega
  · intro h
    exact ⟨⟨id.get.toNat - 1, by omega⟩, nodeIdx_eq_ok.mpr (by simp only; omega)⟩

theorem nodeIdx_inj {a b : NodeId} {idx : Fin MAX_NODES} (ha : nodeIdx a = .ok idx)
    (hb : nodeIdx b = .ok idx) : a = b := by
  rw [nodeIdx_eq_ok] at ha hb
  exact NodeId.ext (UInt32.toNat_inj.mp (ha.symm.trans hb))

-- What the two bitmasks say about nodes and edges.
def Active (activeNodes : UInt64) (id : NodeId) : Prop :=
  ∃ idx, nodeIdx id = .ok idx ∧ hasBit activeNodes idx = true

def Declared (edgeMatrix : Fin MAX_NODES → UInt64) (src dst : NodeId) : Prop :=
  ∃ si di, nodeIdx src = .ok si ∧ nodeIdx dst = .ok di ∧ hasBit (edgeMatrix si) di = true

namespace BootingGraph

variable {graph graph' : BootingGraph} {id src dst : NodeId}

theorem activate_eq_ok : graph.activate id = (.ok (), graph') ↔ ∃ idx, nodeIdx id = .ok idx ∧
    graph' = { graph with activeNodes := graph.activeNodes ||| bit idx } := by
  unfold activate
  cases h : nodeIdx id with
  | error e => simp
  | ok idx => simp [eq_comm]

theorem permitEdge_eq_ok : graph.permitEdge src dst = (.ok (), graph') ↔ ∃ si di,
    nodeIdx src = .ok si ∧ nodeIdx dst = .ok di ∧ hasBit graph.activeNodes si = true ∧
    hasBit graph.activeNodes di = true ∧ graph' =
      { graph with edgeMatrix := update graph.edgeMatrix si (graph.edgeMatrix si ||| bit di) } := by
  unfold permitEdge
  cases hs : nodeIdx src with
  | error e => simp
  | ok si =>
      cases hd : nodeIdx dst with
      | error e => simp
      | ok di =>
          cases hsi : hasBit graph.activeNodes si with
          | false => simp [hsi]
          | true =>
              cases hdi : hasBit graph.activeNodes di with
              | false => simp [hsi, hdi]
              | true =>
                  simp only [hsi, hdi, Bool.true_eq_false, if_false, Prod.mk.injEq, true_and,
                    Except.ok.injEq]
                  constructor
                  · rintro rfl
                    exact ⟨si, di, rfl, rfl, hsi, hdi, rfl⟩
                  · rintro ⟨_, _, rfl, rfl, -, -, rfl⟩
                    rfl

-- Neither call writes before its last test.
theorem activate_error {e : Error} (h : graph.activate id = (.error e, graph')) :
    graph' = graph := by
  unfold activate at h
  split at h <;> cases h
  rfl

theorem permitEdge_error {e : Error} (h : graph.permitEdge src dst = (.error e, graph')) :
    graph' = graph := by
  unfold permitEdge at h
  split at h
  · cases h
    rfl
  split at h
  · cases h
    rfl
  split_ifs at h <;> cases h <;> rfl

theorem activate_spec (h : graph.activate id = (.ok (), graph')) :
    (∀ n, Active graph'.activeNodes n ↔ Active graph.activeNodes n ∨ n = id) ∧
      graph'.edgeMatrix = graph.edgeMatrix := by
  obtain ⟨idx, hidx, rfl⟩ := activate_eq_ok.mp h
  refine ⟨fun n => ?_, rfl⟩
  simp only [Active, hasBit_or_bit, Bool.or_eq_true, decide_eq_true_eq]
  constructor
  · rintro ⟨i, hi, hbit | rfl⟩
    · exact Or.inl ⟨i, hi, hbit⟩
    · exact Or.inr (nodeIdx_inj hi hidx)
  · rintro (⟨i, hi, hbit⟩ | rfl)
    · exact ⟨i, hi, Or.inl hbit⟩
    · exact ⟨idx, hidx, Or.inr rfl⟩

theorem permitEdge_spec (h : graph.permitEdge src dst = (.ok (), graph')) :
    (∀ a b, Declared graph'.edgeMatrix a b ↔
      Declared graph.edgeMatrix a b ∨ (a = src ∧ b = dst)) ∧
      graph'.activeNodes = graph.activeNodes := by
  obtain ⟨si, di, hsi, hdi, -, -, rfl⟩ := permitEdge_eq_ok.mp h
  refine ⟨fun a b => ?_, rfl⟩
  simp only [Declared]
  constructor
  · rintro ⟨ai, bi, hai, hbi, hbit⟩
    by_cases heq : ai = si
    · subst heq
      rw [update_self, hasBit_or_bit, Bool.or_eq_true, decide_eq_true_eq] at hbit
      rcases hbit with hbit | rfl
      · exact Or.inl ⟨ai, bi, hai, hbi, hbit⟩
      · exact Or.inr ⟨nodeIdx_inj hai hsi, nodeIdx_inj hbi hdi⟩
    · rw [update_of_ne heq] at hbit
      exact Or.inl ⟨ai, bi, hai, hbi, hbit⟩
  · rintro (⟨ai, bi, hai, hbi, hbit⟩ | ⟨rfl, rfl⟩)
    · refine ⟨ai, bi, hai, hbi, ?_⟩
      by_cases heq : ai = si
      · subst heq
        rw [update_self, hasBit_or_bit, hbit, Bool.true_or]
      · rw [update_of_ne heq]
        exact hbit
    · refine ⟨si, di, hsi, hdi, ?_⟩
      rw [update_self, hasBit_or_bit, decide_eq_true rfl, Bool.or_true]

end BootingGraph

namespace OperationalGraph

variable {graph : OperationalGraph} {id src dst : NodeId}

theorem isActive_iff : graph.isActive id = true ↔ Active graph.activeNodes id := by
  unfold isActive Active
  cases h : nodeIdx id with
  | error e => simp
  | ok idx => simp

theorem traverseInner_eq_ok : graph.traverseInner src dst = .ok () ↔
    Active graph.activeNodes src ∧ Active graph.activeNodes dst ∧
      Declared graph.edgeMatrix src dst := by
  unfold traverseInner Active Declared
  cases hs : nodeIdx src with
  | error e => simp [bind, Except.bind]
  | ok si =>
      cases hd : nodeIdx dst with
      | error e => simp [bind, Except.bind]
      | ok di =>
          cases hsi : hasBit graph.activeNodes si <;> cases hdi : hasBit graph.activeNodes di <;>
            cases he : hasBit (graph.edgeMatrix si) di <;> simp [bind, Except.bind, hsi, hdi, he]

theorem traverse_eq_ok [Sha256] {audit : AuditLog} : (graph.traverse src dst audit).1 = .ok () ↔
    (Active graph.activeNodes src ∧ Active graph.activeNodes dst ∧
      Declared graph.edgeMatrix src dst) ∧ audit.isFull = false := by
  rw [traverse, gate_eq_ok, traverseInner_eq_ok]

end OperationalGraph

end LuxKernel.Topology
