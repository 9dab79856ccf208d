import LuxKernel.Boot.Manifest
import LuxKernel.Topology.Graph
import LuxKernel.Metabolism.Ledger
import LuxKernel.Tpm.Software
import LuxKernel.Auth.Policy

namespace LuxKernel.Boot

open Audit Auth Heapless Metabolism Tpm Function LuxKernel.Topology

structure BootState where
  graph : OperationalGraph
  ledger : Ledger
  policy : Policy
  attestation : TpmQuote
  manifestHash : Digest
  localId : NodeId

def BootState.withLocalId (state : BootState) (id : NodeId) : BootState :=
  { state with localId := id }

-- The bodies of the two seeding loops.
def seedEdge (booting : BootingGraph) (edge : EdgeDecl) : Result Unit × BootingGraph :=
  andThen (booting.activate edge.src) fun booting =>
    andThen (booting.activate edge.dst) fun booting => booting.permitEdge edge.src edge.dst

def seedQuota (ledger : Ledger) (q : QuotaDecl) : Result Unit × Ledger :=
  ledger.seed q.node q.ceiling

-- The steps before the first side effect on the TPM.
def prepare [Minicbor] (rawManifest : Bytes) (credentials : BootCredentials) :
    Result (OperationalGraph × Ledger) := do
  let manifest ← ManifestDecoder.decode rawManifest credentials
  let (seeded, booting) := forEach seedEdge manifest.edges.toList BootingGraph.new
  seeded
  let (seeded, ledger) := forEach seedQuota manifest.quotas.toList Ledger.new
  seeded
  return (booting.sealed, ledger)

def BootState.initialiseWithTpm {T : Type} [Minicbor] [Sha256] [TpmProvider T] (rawManifest : Bytes)
    (credentials : BootCredentials) (tpm : T) : Result BootState × T :=
  let manifestHash := Sha256.digest rawManifest
  match prepare rawManifest credentials with
  | .error e => (.error e, tpm)
  | .ok (graph, ledger) =>
      match TpmProvider.extendPcr tpm 0 rawManifest with
      | (.error e, tpm) => (.error e, tpm)
      | (.ok (), tpm) =>
          match TpmProvider.quote tpm 0 (Vector.replicate 32 0) with
          | .error e => (.error e, tpm)
          | .ok attestation =>
              (.ok
                { graph := graph
                  ledger := ledger
                  policy := Policy.new ⟨0⟩
                  attestation := attestation
                  manifestHash := manifestHash
                  localId := NodeId.MIN }, tpm)

def BootState.initialise [Minicbor] [Sha256] (rawManifest : Bytes) (credentials : BootCredentials) :
    Result BootState :=
  (initialiseWithTpm rawManifest credentials NullTpm.mk).1

section Edges

variable {booting booting' : BootingGraph} {edge : EdgeDecl} {edges : List EdgeDecl}

-- Both endpoints fit into the 64 columns of the graph.
def EdgeDecl.Fits (edge : EdgeDecl) : Prop :=
  edge.src.get.toNat ≤ MAX_NODES ∧ edge.dst.get.toNat ≤ MAX_NODES

def EdgeDecl.Touches (edge : EdgeDecl) (n : NodeId) : Prop := n = edge.src ∨ n = edge.dst

theorem seedEdge_spec (h : seedEdge booting edge = (.ok (), booting')) :
    edge.Fits ∧
    (∀ n, Active booting'.activeNodes n ↔ Active booting.activeNodes n ∨ edge.Touches n) ∧
    ∀ a b, Declared booting'.edgeMatrix a b ↔
      Declared booting.edgeMatrix a b ∨ (a = edge.src ∧ b = edge.dst) := by
  obtain ⟨first, hfirst, h⟩ := andThen_eq_ok.mp h
  obtain ⟨second, hsecond, hpermit⟩ := andThen_eq_ok.mp h
  obtain ⟨si, hsi, -⟩ := BootingGraph.activate_eq_ok.mp hfirst
  obtain ⟨di, hdi, -⟩ := BootingGraph.activate_eq_ok.mp hsecond
  obtain ⟨hact₁, hmat₁⟩ := BootingGraph.activate_spec hfirst
  obtain ⟨hact₂, hmat₂⟩ := BootingGraph.activate_spec hsecond
  obtain ⟨hdecl, hact₃⟩ := BootingGraph.permitEdge_spec hpermit
  refine ⟨⟨exists_nodeIdx.mp ⟨si, hsi⟩, exists_nodeIdx.mp ⟨di, hdi⟩⟩, fun n => ?_, fun a b => ?_⟩
  · rw [hact₃, hact₂, hact₁, or_assoc]
    rfl
  · rw [hdecl, hmat₂, hmat₁]

-- Activation comes first, so `permit_edge` has nothing left to refuse.
theorem seedEdge_ok (booting : BootingGraph) (hfits : edge.Fits) :
    ∃ booting', seedEdge booting edge = (.ok (), booting') := by
  obtain ⟨si, hsi⟩ := exists_nodeIdx.mpr hfits.1
  obtain ⟨di, hdi⟩ := exists_nodeIdx.mpr hfits.2
  refine ⟨_, andThen_eq_ok.mpr ⟨_, BootingGraph.activate_eq_ok.mpr ⟨si, hsi, rfl⟩,
    andThen_eq_ok.mpr ⟨_, BootingGraph.activate_eq_ok.mpr ⟨di, hdi, rfl⟩,
    BootingGraph.permitEdge_eq_ok.mpr ⟨si, di, hsi, hdi, ?_, ?_, rfl⟩⟩⟩⟩
  · simp only [hasBit_or_bit, decide_true, Bool.or_true, Bool.true_or]
  · simp only [hasBit_or_bit, decide_true, Bool.or_true]

theorem seedEdges_spec (h : forEach seedEdge edges booting = (.ok (), booting')) :
    (∀ edge ∈ edges, edge.Fits) ∧
    (∀ n, Active booting'.activeNodes n ↔
      Active booting.activeNodes n ∨ ∃ edge ∈ edges, edge.Touches n) ∧
    ∀ a b, Declared booting'.edgeMatrix a b ↔
      Declared booting.edgeMatrix a b ∨ ∃ edge ∈ edges, a = edge.src ∧ b = edge.dst := by
  induction edges generalizing booting with
  | nil =>
      cases h
      simp
  | cons edge rest ih =>
      obtain ⟨next, hnext, h⟩ := andThen_eq_ok.mp h
      obtain ⟨hfits, hact, hdecl⟩ := seedEdge_spec hnext
      obtain ⟨hfits', hact', hdecl'⟩ := ih h
      refine ⟨List.forall_mem_cons.mpr ⟨hfits, hfits'⟩, fun n => ?_, fun a b => ?_⟩
      · rw [hact', hact, or_assoc, List.exists_mem_cons_iff]
      · rw [hdecl', hdecl, or_assoc, List.exists_mem_cons_iff]

theorem seedEdges_ok (booting : BootingGraph) (hfits : ∀ edge ∈ edges, edge.Fits) :
    ∃ booting', forEach seedEdge edges booting = (.ok (), booting') := by
  induction edges generalizing booting with
  | nil => exact ⟨booting, rfl⟩
  | cons edge rest ih =>
      obtain ⟨hedge, hrest⟩ := List.forall_mem_cons.mp hfits
      obtain ⟨next, hnext⟩ := seedEdge_ok booting hedge
      obtain ⟨last, hlast⟩ := ih next hrest
      exact ⟨last, andThen_eq_ok.mpr ⟨next, hnext, hlast⟩⟩

end Edges

section Quotas

variable {ledger ledger' : Ledger} {quotas : List QuotaDecl}

def declaredCeiling (quotas : List QuotaDecl) (n : NodeId) : Option UInt64 :=
  (quotas.find? fun q => decide (q.node = n)).map fun q => q.ceiling.ceiling

theorem declaredCeiling_cons (q : QuotaDecl) (quotas : List QuotaDecl) (n : NodeId) :
    declaredCeiling (q :: quotas) n =
      if q.node = n then some q.ceiling.ceiling else declaredCeiling quotas n := by
  unfold declaredCeiling
  by_cases h : q.node = n <;> simp [h]

theorem declaredCeiling_eq_none {quotas : List QuotaDecl} {n : NodeId}
    (h : n ∉ quotas.map QuotaDecl.node) : declaredCeiling quotas n = none := by
  unfold declaredCeiling
  rw [Option.map_eq_none_iff, List.find?_eq_none]
  intro q hq heq
  exact h (List.mem_map.mpr ⟨q, hq, of_decide_eq_true heq⟩)

theorem seedQuotas_spec (h : forEach seedQuota quotas ledger = (.ok (), ledger')) :
    (quotas.map QuotaDecl.node).Nodup ∧
    (∀ q ∈ quotas, ledger.balance q.node = none) ∧
    ∀ n, ledger'.balance n = (declaredCeiling quotas n).or (ledger.balance n) := by
  induction quotas generalizing ledger with
  | nil =>
      cases h
      simp [declaredCeiling]
  | cons q rest ih =>
      obtain ⟨next, hnext, h⟩ := andThen_eq_ok.mp h
      obtain ⟨hnone, hbalance, -⟩ := Ledger.seed_spec hnext
      obtain ⟨hnodup, hunseeded, hlast⟩ := ih h
      -- a second entry for `q.node` would have been refused
      have hfresh : ∀ r ∈ rest, r.node ≠ q.node := by
        intro r hr heq
        have hseeded := hbalance r.node
        rw [if_pos heq, hunseeded r hr] at hseeded
        cases hseeded
      have hnotMem : q.node ∉ rest.map QuotaDecl.node := by
        intro hmem
        obtain ⟨r, hr, heq⟩ := List.mem_map.mp hmem
        exact hfresh r hr heq
      refine ⟨List.nodup_cons.mpr ⟨hnotMem, hnodup⟩, List.forall_mem_cons.mpr ⟨hnone, ?_⟩, ?_⟩
      · intro r hr
        have hsame := hbalance r.node
        rw [if_neg (hfresh r hr), hunseeded r hr] at hsame
        exact hsame.symm
      · intro n
        rw [hlast, hbalance, declaredCeiling_cons]
        by_cases hn : q.node = n
        · subst hn
          simp [declaredCeiling_eq_none hnotMem]
        · rw [if_neg (Ne.symm hn), if_neg hn]

theorem seedQuotas_ok (hnodup : (quotas.map QuotaDecl.node).Nodup)
    (hnone : ∀ q ∈ quotas, ledger.balance q.node = none)
    (hroom : ledger.balances.entries.length + quotas.length ≤ MAX_NODES) :
    ∃ ledger', forEach seedQuota quotas ledger = (.ok (), ledger') := by
  induction quotas generalizing ledger with
  | nil => exact ⟨ledger, rfl⟩
  | cons q rest ih =>
      rw [List.length_cons] at hroom
      obtain ⟨hq, hrest⟩ := List.forall_mem_cons.mp hnone
      obtain ⟨hnotMem, hnodup⟩ := List.nodup_cons.mp hnodup
      obtain ⟨next, hnext⟩ := Ledger.seed_ok q.ceiling hq (by omega)
      obtain ⟨-, hbalance, hlength⟩ := Ledger.seed_spec hnext
      have hnone' : ∀ r ∈ rest, next.balance r.node = none := by
        intro r hr
        have hne : r.node ≠ q.node := fun heq => hnotMem (heq ▸ List.mem_map_of_mem hr)
        rw [hbalance, if_neg hne]
        exact hrest r hr
      obtain ⟨last, hlast⟩ := ih hnodup hnone' (by omega)
      exact ⟨last, andThen_eq_ok.mpr ⟨next, hnext, hlast⟩⟩

end Quotas

-- What a manifest must satisfy beyond being well formed.
structure Manifest.Bootable (manifest : Manifest) : Prop where
  fits : ∀ edge ∈ manifest.edges.toList, edge.Fits
  nodup : (manifest.quotas.toList.map QuotaDecl.node).Nodup

-- The state that boot builds says what the manifest says.
structure Manifest.Realised (manifest : Manifest) (graph : OperationalGraph) (ledger : Ledger) :
    Prop where
  active : ∀ n, Active graph.activeNodes n ↔ ∃ edge ∈ manifest.edges.toList, edge.Touches n
  declared : ∀ src dst, Declared graph.edgeMatrix src dst ↔ manifest.permitsEdge src dst = true
  balance : ∀ n, ledger.balance n = (manifest.quotaFor n).map Quota.ceiling

theorem Manifest.permitsEdge_iff {manifest : Manifest} {src dst : NodeId} :
    manifest.permitsEdge src dst = true ↔
      ∃ edge ∈ manifest.edges.toList, src = edge.src ∧ dst = edge.dst := by
  simp only [Manifest.permitsEdge, List.any_eq_true, Bool.and_eq_true, decide_eq_true_eq]
  simp only [eq_comm]

theorem prepare_spec [Minicbor] {rawManifest : Bytes} {credentials : BootCredentials}
    {graph : OperationalGraph} {ledger : Ledger}
    (h : prepare rawManifest credentials = .ok (graph, ledger)) :
    ∃ manifest, ManifestDecoder.decode rawManifest credentials = .ok manifest ∧
      manifest.Bootable ∧ manifest.Realised graph ledger := by
  obtain ⟨manifest, hdecode, h⟩ := bind_eq_ok.mp h
  obtain ⟨_, hedges, h⟩ := bind_eq_ok.mp h
  obtain ⟨_, hquotas, h⟩ := bind_eq_ok.mp h
  cases h
  obtain ⟨hfits, hact, hdecl⟩ := seedEdges_spec (Prod.ext hedges rfl)
  obtain ⟨hnodup, -, hbalance⟩ := seedQuotas_spec (Prod.ext hquotas rfl)
  have hblank : ∀ n, ¬Active BootingGraph.new.activeNodes n := by
    rintro n ⟨idx, -, hbit⟩
    simp [BootingGraph.new] at hbit
  have hbare : ∀ a b, ¬Declared BootingGraph.new.edgeMatrix a b := by
    rintro a b ⟨si, di, -, -, hbit⟩
    simp [BootingGraph.new] at hbit
  refine ⟨manifest, hdecode, ⟨hfits, hnodup⟩, fun n => ?_, fun src dst => ?_, fun n => ?_⟩
  · exact (hact n).trans (or_iff_right (hblank n))
  · rw [Manifest.permitsEdge_iff]
    exact (hdecl src dst).trans (or_iff_right (hbare src dst))
  · rw [hbalance, Ledger.balance_new, Option.or_none, Manifest.quotaFor, Option.map_map]
    rfl

theorem prepare_ok [Minicbor] {rawManifest : Bytes} {credentials : BootCredentials} {manifest : Manifest}
    (hdecode : ManifestDecoder.decode rawManifest credentials = .ok manifest)
    (hboot : manifest.Bootable) : ∃ result, prepare rawManifest credentials = .ok result := by
  obtain ⟨booting, hedges⟩ := seedEdges_ok BootingGraph.new hboot.fits
  obtain ⟨ledger, hquotas⟩ := seedQuotas_ok hboot.nodup
    (fun q _ => Ledger.balance_new q.node)
    (by simpa [Ledger.new, LinearMap.empty] using manifest.quotas.length_le)
  exact ⟨_, bind_eq_ok.mpr ⟨manifest, hdecode, bind_eq_ok.mpr ⟨(), congrArg Prod.fst hedges,
    bind_eq_ok.mpr ⟨(), congrArg Prod.fst hquotas, rfl⟩⟩⟩⟩

theorem Manifest.Realised.traverseInner_eq_ok {manifest : Manifest} {graph : OperationalGraph}
    {ledger : Ledger} (h : manifest.Realised graph ledger) (src dst : NodeId) :
    graph.traverseInner src dst = .ok () ↔ manifest.permitsEdge src dst = true := by
  rw [OperationalGraph.traverseInner_eq_ok, h.active, h.active, h.declared]
  constructor
  · exact fun hedge => hedge.2.2
  · intro hpermits
    obtain ⟨edge, hedge, hsrc, hdst⟩ := Manifest.permitsEdge_iff.mp hpermits
    exact ⟨⟨edge, hedge, Or.inl hsrc⟩, ⟨edge, hedge, Or.inr hdst⟩, hpermits⟩

-- Whatever the TPM does, a boot that succeeds has these parts.
theorem initialiseWithTpm_realised [Minicbor] [Sha256] {T : Type} [TpmProvider T] {rawManifest : Bytes}
    {credentials : BootCredentials} {tpm : T} {state : BootState}
    (h : (BootState.initialiseWithTpm rawManifest credentials tpm).1 = .ok state) :
    ∃ manifest, ManifestDecoder.decode rawManifest credentials = .ok manifest ∧
      manifest.Realised state.graph state.ledger ∧ state.policy = Policy.new ⟨0⟩ := by
  unfold BootState.initialiseWithTpm at h
  dsimp only at h
  split at h
  · cases h
  rename_i hprep
  obtain ⟨manifest, hdecode, -, hreal⟩ := prepare_spec hprep
  split at h
  · cases h
  split at h
  · cases h
  · cases h
    exact ⟨manifest, hdecode, hreal, rfl⟩

section SoftwareTpm

variable [Minicbor] [Sha256]

-- PCR 0 exists, so neither of the two TPM calls of the boot sequence can fail.
theorem initialiseWithTpm_cases (rawManifest : Bytes) (credentials : BootCredentials)
    (tpm : SoftwareTpm) :
    (∃ graph ledger state, prepare rawManifest credentials = .ok (graph, ledger) ∧
      BootState.initialiseWithTpm rawManifest credentials tpm = (.ok state,
        ⟨update tpm.pcrs 0 (Sha256.digest ((tpm.pcrs 0).toList ++ rawManifest))⟩) ∧
      state.graph = graph ∧ state.ledger = ledger ∧ state.policy = Policy.new ⟨0⟩) ∨
    ∃ e, prepare rawManifest credentials = .error e ∧
      BootState.initialiseWithTpm rawManifest credentials tpm = (.error e, tpm) := by
  unfold BootState.initialiseWithTpm
  cases hprep : prepare rawManifest credentials with
  | error e => exact Or.inr ⟨e, rfl, rfl⟩
  | ok result =>
      obtain ⟨graph, ledger⟩ := result
      exact Or.inl ⟨graph, ledger, ⟨graph, ledger, _, _, _, _⟩, rfl, rfl, rfl, rfl, rfl⟩

-- Boot is exact and all or nothing.
theorem initialiseWithTpm_exact (rawManifest : Bytes) (credentials : BootCredentials)
    (tpm : SoftwareTpm) :
    ((∃ state, (BootState.initialiseWithTpm rawManifest credentials tpm).1 = .ok state) ↔
      ∃ manifest, ManifestDecoder.decode rawManifest credentials = .ok manifest ∧
        (∀ edge ∈ manifest.edges.toList, edge.src.get.toNat ≤ 64 ∧ edge.dst.get.toNat ≤ 64) ∧
        (manifest.quotas.toList.map QuotaDecl.node).Nodup) ∧
    (∀ state, (BootState.initialiseWithTpm rawManifest credentials tpm).1 = .ok state →
      ∃ manifest, ManifestDecoder.decode rawManifest credentials = .ok manifest ∧
        (∀ src dst audit, audit.isFull = false →
          ((state.graph.traverse src dst audit).1 = .ok () ↔
            manifest.permitsEdge src dst = true)) ∧
        (∀ n, state.graph.isActive n = true ↔
          ∃ edge ∈ manifest.edges.toList, n = edge.src ∨ n = edge.dst) ∧
        (∀ n, state.ledger.balance n = (manifest.quotaFor n).map Quota.ceiling) ∧
        state.policy.currentGeneration = ⟨0⟩ ∧
        (BootState.initialiseWithTpm rawManifest credentials tpm).2.pcrs =
          update tpm.pcrs 0 (Sha256.digest ((tpm.pcrs 0).toList ++ rawManifest))) ∧
    ∀ e, (BootState.initialiseWithTpm rawManifest credentials tpm).1 = .error e →
      (BootState.initialiseWithTpm rawManifest credentials tpm).2 = tpm := by
  rcases initialiseWithTpm_cases rawManifest credentials tpm with
    ⟨graph, ledger, built, hprep, hrun, rfl, rfl, hpolicy⟩ | ⟨e, hprep, hrun⟩
  · obtain ⟨manifest, hdecode, hboot, hreal⟩ := prepare_spec hprep
    rw [hrun]
    refine ⟨⟨fun _ => ⟨manifest, hdecode, hboot.fits, hboot.nodup⟩, fun _ => ⟨built, rfl⟩⟩, ?_,
      fun e he => by cases he⟩
    intro state hstate
    cases hstate
    refine ⟨manifest, hdecode, fun src dst audit haudit => ?_, fun n => ?_, hreal.balance,
      by rw [hpolicy]; rfl, rfl⟩
    · rw [OperationalGraph.traverse_eq_ok, hreal.active, hreal.active, hreal.declared,
        Manifest.permitsEdge_iff]
      constructor
      · exact fun h => h.1.2.2
      · rintro ⟨edge, hedge, hsrc, hdst⟩
        exact ⟨⟨⟨edge, hedge, Or.inl hsrc⟩, ⟨edge, hedge, Or.inr hdst⟩, edge, hedge, hsrc, hdst⟩,
          haudit⟩
    · rw [OperationalGraph.isActive_iff, hreal.active]
      rfl
  · rw [hrun]
    refine ⟨⟨?_, ?_⟩, (fun state hstate => by cases hstate), fun _ _ => rfl⟩
    · rintro ⟨state, hstate⟩
      cases hstate
    · rintro ⟨manifest, hdecode, hfits, hnodup⟩
      obtain ⟨result, hok⟩ := prepare_ok hdecode ⟨hfits, hnodup⟩
      rw [hprep] at hok
      cases hok

end SoftwareTpm

end LuxKernel.Boot
