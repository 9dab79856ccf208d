import LuxKernel.Topology.Graph

namespace LuxKernel.Topology

open Audit

-- The two calls that write to a booting graph.
inductive Declaration where
  | activate (id : NodeId)
  | permitEdge (src dst : NodeId)
deriving DecidableEq

namespace BootingGraph

def perform (graph : BootingGraph) : Declaration → Result Unit × BootingGraph
  | .activate id => graph.activate id
  | .permitEdge src dst => graph.permitEdge src dst

theorem perform_error {graph graph' : BootingGraph} {call : Declaration} {e : Error}
    (h : graph.perform call = (.error e, graph')) : graph' = graph := by
  cases call with
  | activate id => exact activate_error h
  | permitEdge src dst => exact permitEdge_error h

end BootingGraph

-- The graph after a sequence of calls, the latest of which comes first.
def declareAll : List Declaration → BootingGraph
  | [] => .new
  | call :: earlier => ((declareAll earlier).perform call).2

-- What the calls declare: ids within the matrix, and an edge that is named after both
-- of its ends.
def Activated (calls : List Declaration) (id : NodeId) : Prop :=
  .activate id ∈ calls ∧ id.get.toNat ≤ MAX_NODES

def Permitted (calls : List Declaration) (src dst : NodeId) : Prop :=
  ∃ later earlier, calls = later ++ .permitEdge src dst :: earlier ∧
    Activated earlier src ∧ Activated earlier dst

-- A call that names neither the edge nor one of its ends.
def Foreign (src dst : NodeId) : Declaration → Prop
  | .activate id => id ≠ src ∧ id ≠ dst
  | .permitEdge a b => ¬(a = src ∧ b = dst)

section Calls

variable {calls : List Declaration} {call : Declaration} {id src dst : NodeId}

theorem activated_cons : Activated (call :: calls) id ↔
    (call = .activate id ∧ id.get.toNat ≤ MAX_NODES) ∨ Activated calls id := by
  unfold Activated
  rw [List.mem_cons, or_and_right, eq_comm]

theorem permitted_cons : Permitted (call :: calls) src dst ↔
    (call = .permitEdge src dst ∧ Activated calls src ∧ Activated calls dst) ∨
      Permitted calls src dst := by
  constructor
  · rintro ⟨later, earlier, heq, hends⟩
    cases later with
    | nil =>
        obtain ⟨rfl, rfl⟩ := List.cons.inj heq
        exact Or.inl ⟨rfl, hends⟩
    | cons newest later =>
        obtain ⟨-, rfl⟩ := List.cons.inj heq
        exact Or.inr ⟨later, earlier, rfl, hends⟩
  · rintro (⟨rfl, hends⟩ | ⟨later, earlier, rfl, hends⟩)
    · exact ⟨[], calls, rfl, hends⟩
    · exact ⟨call :: later, earlier, rfl, hends⟩

-- The ends of a permitted edge stay active.
theorem Permitted.activated (h : Permitted calls src dst) :
    Activated calls src ∧ Activated calls dst := by
  obtain ⟨later, earlier, rfl, hsrc, hdst⟩ := h
  have hmem : ∀ call ∈ earlier, call ∈ later ++ .permitEdge src dst :: earlier := by
    intro call hcall
    exact List.mem_append_right _ (List.mem_cons_of_mem _ hcall)
  exact ⟨⟨hmem _ hsrc.1, hsrc.2⟩, ⟨hmem _ hdst.1, hdst.2⟩⟩

-- A foreign call may be made or left out at any point of the sequence.
theorem permitted_insert (later : List Declaration) (hforeign : Foreign src dst call) :
    Permitted (later ++ call :: calls) src dst ↔ Permitted (later ++ calls) src dst := by
  have hends : ∀ later : List Declaration, ∀ id, id = src ∨ id = dst →
      (Activated (later ++ call :: calls) id ↔ Activated (later ++ calls) id) := by
    intro later id hid
    have hother : call ≠ .activate id := by
      rintro rfl
      rcases hid with rfl | rfl
      · exact hforeign.1 rfl
      · exact hforeign.2 rfl
    simp [Activated, hother.symm]
  induction later with
  | nil =>
      rw [List.nil_append, List.nil_append, permitted_cons]
      refine ⟨fun h => h.resolve_left ?_, Or.inr⟩
      rintro ⟨rfl, -⟩
      exact hforeign ⟨rfl, rfl⟩
  | cons newest later ih =>
      rw [List.cons_append, List.cons_append, permitted_cons, permitted_cons,
        hends later src (Or.inl rfl), hends later dst (Or.inr rfl)]
      exact or_congr_right ih

-- One call adds what it declares to the bitmasks, and nothing else.
theorem active_perform (graph : BootingGraph) (call : Declaration) (id : NodeId) :
    Active (graph.perform call).2.activeNodes id ↔
      (call = .activate id ∧ id.get.toNat ≤ MAX_NODES) ∨ Active graph.activeNodes id := by
  rcases hcall : graph.perform call with ⟨e | ⟨⟩, graph'⟩
  · obtain rfl := BootingGraph.perform_error hcall
    refine ⟨Or.inr, fun h => h.resolve_left ?_⟩
    rintro ⟨rfl, hrange⟩
    obtain ⟨idx, hidx⟩ := exists_nodeIdx.mpr hrange
    cases hcall.symm.trans (BootingGraph.activate_eq_ok.mpr ⟨idx, hidx, rfl⟩)
  · cases call with
    | activate new =>
        obtain ⟨idx, hidx, -⟩ := BootingGraph.activate_eq_ok.mp hcall
        have hrange := exists_nodeIdx.mp ⟨idx, hidx⟩
        rw [Declaration.activate.injEq, (BootingGraph.activate_spec hcall).1, or_comm]
        refine or_congr_left ⟨?_, fun h => h.1.symm⟩
        rintro rfl
        exact ⟨rfl, hrange⟩
    | permitEdge a b => simp [(BootingGraph.permitEdge_spec hcall).2]

theorem declared_perform (graph : BootingGraph) (call : Declaration) (src dst : NodeId) :
    Declared (graph.perform call).2.edgeMatrix src dst ↔
      (call = .permitEdge src dst ∧ Active graph.activeNodes src ∧ Active graph.activeNodes dst) ∨
        Declared graph.edgeMatrix src dst := by
  rcases hcall : graph.perform call with ⟨e | ⟨⟩, graph'⟩
  · obtain rfl := BootingGraph.perform_error hcall
    refine ⟨Or.inr, fun h => h.resolve_left ?_⟩
    rintro ⟨rfl, ⟨si, hsi, hsrc⟩, ⟨di, hdi, hdst⟩⟩
    cases hcall.symm.trans
      (BootingGraph.permitEdge_eq_ok.mpr ⟨si, di, hsi, hdi, hsrc, hdst, rfl⟩)
  · cases call with
    | activate new => simp [(BootingGraph.activate_spec hcall).2]
    | permitEdge a b =>
        obtain ⟨si, di, hsi, hdi, hsrc, hdst, -⟩ := BootingGraph.permitEdge_eq_ok.mp hcall
        rw [Declaration.permitEdge.injEq, (BootingGraph.permitEdge_spec hcall).1, or_comm]
        refine or_congr_left ⟨?_, fun h => ⟨h.1.1.symm, h.1.2.symm⟩⟩
        rintro ⟨rfl, rfl⟩
        exact ⟨⟨rfl, rfl⟩, ⟨si, hsi, hsrc⟩, ⟨di, hdi, hdst⟩⟩

theorem active_declareAll (calls : List Declaration) (id : NodeId) :
    Active (declareAll calls).activeNodes id ↔ Activated calls id := by
  induction calls with
  | nil => simp [declareAll, BootingGraph.new, Active, Activated]
  | cons call earlier ih => rw [declareAll, active_perform, activated_cons, ih]

theorem declared_declareAll (calls : List Declaration) (src dst : NodeId) :
    Declared (declareAll calls).edgeMatrix src dst ↔ Permitted calls src dst := by
  induction calls with
  | nil => simp [declareAll, BootingGraph.new, Declared, Permitted]
  | cons call earlier ih =>
      rw [declareAll, declared_perform, permitted_cons, ih, active_declareAll, active_declareAll]

theorem traverseInner_declareAll (calls : List Declaration) (src dst : NodeId) :
    (declareAll calls).sealed.traverseInner src dst = .ok () ↔ Permitted calls src dst := by
  rw [OperationalGraph.traverseInner_eq_ok, BootingGraph.sealed, active_declareAll,
    active_declareAll, declared_declareAll]
  exact ⟨fun h => h.2.2, fun h => ⟨h.activated.1, h.activated.2, h⟩⟩

end Calls

namespace OperationalGraph

-- The error of a refused traversal depends on the two ids only.
theorem traverseInner_refused (src dst : NodeId) : ∃ e, ∀ graph : OperationalGraph,
    graph.traverseInner src dst = .ok () ∨ graph.traverseInner src dst = .error e := by
  unfold traverseInner
  cases nodeIdx src with
  | error e => exact ⟨e, fun graph => Or.inr rfl⟩
  | ok si =>
      cases nodeIdx dst with
      | error e => exact ⟨e, fun graph => Or.inr rfl⟩
      | ok di =>
          refine ⟨.topologyViolation src.get dst.get, fun graph => ?_⟩
          simp only [bind, Except.bind]
          split
          · exact Or.inr rfl
          · split
            · exact Or.inr rfl
            · exact Or.inl rfl

theorem traverseInner_congr {graph graph' : OperationalGraph} {src dst : NodeId}
    (h : graph.traverseInner src dst = .ok () ↔ graph'.traverseInner src dst = .ok ()) :
    graph.traverseInner src dst = graph'.traverseInner src dst := by
  obtain ⟨e, hcases⟩ := traverseInner_refused src dst
  rcases hcases graph with hok | herr
  · rw [hok, h.mp hok]
  · rcases hcases graph' with hok' | herr'
    · rw [hok', h.mpr hok']
    · rw [herr, herr']

end OperationalGraph

theorem traverse_congr [Sha256] {calls calls' : List Declaration} {src dst : NodeId}
    (h : Permitted calls src dst ↔ Permitted calls' src dst) (audit : AuditLog) :
    (declareAll calls).sealed.traverse src dst audit =
      (declareAll calls').sealed.traverse src dst audit := by
  rw [OperationalGraph.traverse, OperationalGraph.traverse,
    OperationalGraph.traverseInner_congr]
  rw [traverseInner_declareAll, traverseInner_declareAll, h]

-- The sealed graph is what was declared. The last two parts are about the verdict for
-- an edge: a later call changes it only by naming the edge, and a call at any point
-- changes it only by naming the edge or one of its ends.
theorem sealed_exactly_declared [Sha256] (calls : List Declaration) :
    (∀ src dst audit, audit.isFull = false →
      (((declareAll calls).sealed.traverse src dst audit).1 = .ok () ↔
        ∃ later earlier, calls = later ++ .permitEdge src dst :: earlier ∧
          .activate src ∈ earlier ∧ .activate dst ∈ earlier ∧
          src.get.toNat ≤ MAX_NODES ∧ dst.get.toNat ≤ MAX_NODES)) ∧
    (∀ call e, ((declareAll calls).perform call).1 = .error e →
      ((declareAll calls).perform call).2 = declareAll calls) ∧
    (∀ src dst call audit, call ≠ .permitEdge src dst →
      (declareAll (call :: calls)).sealed.traverse src dst audit =
        (declareAll calls).sealed.traverse src dst audit) ∧
    (∀ src dst call later audit, Foreign src dst call →
      (declareAll (later ++ call :: calls)).sealed.traverse src dst audit =
        (declareAll (later ++ calls)).sealed.traverse src dst audit) := by
  refine ⟨?_, ?_, ?_, ?_⟩
  · intro src dst audit hroom
    rw [OperationalGraph.traverse, gate_eq_ok, traverseInner_declareAll]
    simp only [Permitted, Activated, hroom, and_true]
    refine exists₂_congr fun later earlier => and_congr_right fun _ => ?_
    constructor
    · rintro ⟨⟨hs, hsr⟩, hd, hdr⟩
      exact ⟨hs, hd, hsr, hdr⟩
    · rintro ⟨hs, hd, hsr, hdr⟩
      exact ⟨⟨hs, hsr⟩, hd, hdr⟩
  · intro call e hfails
    exact BootingGraph.perform_error (Prod.ext hfails rfl)
  · intro src dst call audit hother
    apply traverse_congr
    rw [permitted_cons]
    exact ⟨fun h => h.resolve_left fun hnew => hother hnew.1, Or.inr⟩
  · intro src dst call later audit hforeign
    exact traverse_congr (permitted_insert later hforeign) audit

end LuxKernel.Topology
