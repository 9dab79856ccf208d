import LuxKernel.Spec.Kernel
import LuxKernel.Audit.Gates
import LuxKernel.Boot.Initialise

namespace LuxKernel.Spec

open Audit Auth Boot Function Heapless Metabolism Transition
open LuxKernel.Topology

-- The bits of a `CapabilitySet`, named or not, are the rights of the specification.
def rightsOf (set : CapabilitySet) : Finset (Fin 32) :=
  Finset.univ.filter fun i => set.bits.toNat.testBit i.val = true

theorem mem_rightsOf {set : CapabilitySet} {i : Fin 32} :
    i ∈ rightsOf set ↔ set.bits.toNat.testBit i.val = true := by
  simp [rightsOf]

-- There is no bit beyond the 32 of the word.
theorem lt_of_testBit {bits : UInt32} {i : Nat} (h : bits.toNat.testBit i = true) : i < 32 := by
  by_contra hge
  have hlt : bits.toNat < 2 ^ i :=
    Nat.lt_of_lt_of_le bits.toNat_lt (Nat.pow_le_pow_right (by decide) (Nat.not_lt.mp hge))
  rw [Nat.testBit_lt_two_pow hlt] at h
  cases h

theorem contains_iff_subset {set other : CapabilitySet} :
    set.contains other = true ↔ rightsOf other ⊆ rightsOf set := by
  rw [CapabilitySet.contains_iff_testBit]
  constructor
  · intro h i hi
    exact mem_rightsOf.mpr (h i (mem_rightsOf.mp hi))
  · intro h i hi
    exact mem_rightsOf.mp (h (mem_rightsOf (i := ⟨i, lt_of_testBit hi⟩).mpr hi))

theorem rightsOf_ne_empty {set : CapabilitySet} : rightsOf set ≠ ∅ ↔ set.bits ≠ 0 := by
  constructor
  · rintro h hzero
    apply h
    simp [rightsOf, hzero]
  · intro h hempty
    apply h
    apply UInt32.toNat_inj.mp
    apply Nat.eq_of_testBit_eq
    intro i
    rw [UInt32.toNat_zero, Nat.zero_testBit, Bool.eq_false_iff]
    intro hi
    have hmem : (⟨i, lt_of_testBit hi⟩ : Fin 32) ∈ rightsOf set := mem_rightsOf.mpr hi
    rw [hempty] at hmem
    cases hmem

theorem bits_ne_zero {set : CapabilitySet} {i : Fin 32} (h : i ∈ rightsOf set) : set.bits ≠ 0 :=
  rightsOf_ne_empty.mp (Finset.ne_empty_of_mem h)

theorem delegate_mem_iff {set : CapabilitySet} :
    set.contains .DELEGATE = true ↔ 3 ∈ rightsOf set := by
  have hsingle : rightsOf .DELEGATE = {3} := by decide
  rw [contains_iff_subset, hsingle, Finset.singleton_subset_iff]

-- One of the rights that a check asks for.
def firstRight (right : CapabilitySet) : Option (Fin 32) :=
  (List.finRange 32).find? fun i => right.bits.toNat.testBit i.val

theorem firstRight_mem {right : CapabilitySet} {i : Fin 32} (h : firstRight right = some i) :
    i ∈ rightsOf right := by
  rw [firstRight] at h
  exact mem_rightsOf.mpr (List.find?_some (p := fun i : Fin 32 => right.bits.toNat.testBit i.val) h)

-- A token with the rights of the boot token that it descends from.
structure Token where
  cap : Capability
  root : CapabilitySet
deriving DecidableEq

def Token.record (token : Token) : CapRecord NodeId (Fin 32) where
  issuer := token.cap.issuer
  owner := token.cap.target
  rights := rightsOf token.cap.rights
  gen := token.cap.generation.val.toNat
  nonce := token.cap.nonce.toNat
  rootRights := rightsOf token.root

-- The kernel with what its callers know: the tokens handed out, the counter for their
-- nonces, and the edges crossed.
structure System where
  gates : Gates
  issued : List Token
  nextNonce : Nat
  crossed : Finset (NodeId × NodeId)

-- Tokens are handed out with whatever fields and nonces the callers choose: neither the
-- kernel nor `delegate` keeps a register of them.
inductive SystemMove where
  | issue (cap : Capability)
  | delegate (token : Token) (newTarget : NodeId) (subset : CapabilitySet) (nonce : UInt64)
  | call (call : Audit.Call)

namespace System

-- The tests that `Policy::check` would make, all but those of the right and the room.
def Valid (s : System) (token : Token) : Prop :=
  token.cap.generation = s.gates.policy.currentGeneration ∧
    s.gates.policy.revocation.isRevoked token.cap.nonce = false ∧
    token.cap.nonce ∉ s.gates.policy.usedNonces.toList

instance (s : System) (token : Token) : Decidable (s.Valid token) :=
  inferInstanceAs (Decidable (_ ∧ _ ∧ _))

-- What the specification takes for granted and the kernel leaves to its callers. A new
-- token has some right and takes the next nonce of the generation; what is delegated was
-- handed out and is still valid; what is presented was handed out; there is a bound on the
-- number of tokens, and the generation counter does not run out.
def Disciplined (maxCaps : Nat) (s : System) : SystemMove → Prop
  | .issue cap =>
      cap.issuer = cap.target ∧ cap.rights.bits ≠ 0 ∧
        cap.generation = s.gates.policy.currentGeneration ∧ cap.nonce.toNat = s.nextNonce ∧
        s.issued.length < maxCaps
  | .delegate token _ subset nonce =>
      token ∈ s.issued ∧ s.Valid token ∧ subset.bits ≠ 0 ∧ nonce.toNat = s.nextNonce ∧
        s.issued.length < maxCaps
  | .call (.check cap _) => ∃ token ∈ s.issued, token.cap = cap
  | .call .rotate => s.gates.policy.currentGeneration.val ≠ U64_MAX
  | .call _ => True

instance (maxCaps : Nat) (s : System) (move : SystemMove) :
    Decidable (s.Disciplined maxCaps move) :=
  match move with
  | .issue _ => inferInstanceAs (Decidable (_ ∧ _ ∧ _ ∧ _ ∧ _))
  | .delegate _ _ _ _ => inferInstanceAs (Decidable (_ ∧ _ ∧ _ ∧ _ ∧ _))
  | .call (.check cap _) => inferInstanceAs (Decidable (∃ token ∈ s.issued, token.cap = cap))
  | .call .rotate => inferInstanceAs (Decidable (_ ≠ _))
  | .call (.traverse _ _) => inferInstanceAs (Decidable True)
  | .call (.deduct _ _ _) => inferInstanceAs (Decidable True)
  | .call (.revoke _) => inferInstanceAs (Decidable True)

def handOut (s : System) (token : Token) : System :=
  { s with issued := token :: s.issued, nextNonce := s.nextNonce + 1 }

variable [Sha256]

-- What the callers note of an answer: the edge that was crossed, and that a new
-- generation starts with new nonces.
def after (s : System) (call : Audit.Call) : System :=
  let (reply, gates) := s.gates.perform call
  { s with
    gates := gates
    nextNonce := match call with
      | .rotate => 0
      | _ => s.nextNonce
    crossed := match call, reply with
      | .traverse src dst, .verdict (.ok ()) => insert (src, dst) s.crossed
      | _, _ => s.crossed }

def perform (s : System) : SystemMove → System
  | .issue cap => s.handOut ⟨cap, cap.rights⟩
  | .delegate token newTarget subset nonce =>
      match token.cap.delegate newTarget subset nonce with
      | some cap => s.handOut ⟨cap, token.root⟩
      | none => s
  | .call call => s.after call

-- Every move can be made at any time.
def machine : Machine System SystemMove where
  step s move := some (s.perform move)

-- The moves of callers that keep to their side.
def disciplined (maxCaps : Nat) : Machine System SystemMove :=
  machine.restrict (Disciplined maxCaps)

def boot (state : BootState) (audit : AuditLog) : System where
  gates := ⟨state.policy, state.graph, state.ledger, audit⟩
  issued := []
  nextNonce := 0
  crossed := ∅

end System

-- The nonces that the policy turns away.
def spent (policy : Policy) : Finset Nat :=
  ((policy.usedNonces.toList ++ policy.revocation.revoked.keys).map UInt64.toNat).toFinset

theorem mem_spent {policy : Policy} {n : UInt64} :
    n.toNat ∈ spent policy ↔
      n ∈ policy.usedNonces.toList ∨ policy.revocation.isRevoked n = true := by
  simp only [spent, List.mem_toFinset, List.mem_map, List.mem_append, UInt64.toNat_inj,
    exists_eq_right, RevocationLedger.isRevoked, IndexSet.contains, decide_eq_true_eq]

theorem exists_of_mem_spent {policy : Policy} {x : Nat} (h : x ∈ spent policy) :
    ∃ n : UInt64, n.toNat = x := by
  obtain ⟨n, -, hn⟩ := List.mem_map.mp (List.mem_toFinset.mp h)
  exact ⟨n, hn⟩

-- Two policies turn away the same nonces, but for one.
theorem spent_eq_insert {policy policy' : Policy} {m : UInt64}
    (h : ∀ n, (n ∈ policy'.usedNonces.toList ∨ policy'.revocation.isRevoked n = true) ↔
      n = m ∨ n ∈ policy.usedNonces.toList ∨ policy.revocation.isRevoked n = true) :
    spent policy' = insert m.toNat (spent policy) := by
  ext x
  rw [Finset.mem_insert]
  constructor
  · intro hx
    obtain ⟨n, rfl⟩ := exists_of_mem_spent hx
    rw [UInt64.toNat_inj, mem_spent]
    exact (h n).mp (mem_spent.mp hx)
  · rintro (rfl | hx)
    · exact mem_spent.mpr ((h m).mpr (Or.inl rfl))
    · obtain ⟨n, rfl⟩ := exists_of_mem_spent hx
      exact mem_spent.mpr ((h n).mpr (Or.inr (mem_spent.mp hx)))

def System.abs (s : System) : State NodeId NodeId (Fin 32) where
  issuedCaps := (s.issued.map Token.record).toFinset
  revokedNonces := spent s.gates.policy
  epoch := s.gates.policy.currentGeneration.val.toNat
  nextNonce := s.nextNonce
  balances n := (s.gates.ledger.balance n).elim 0 UInt64.toNat
  executedTraversals := s.crossed

-- The bounds of the specification are those of `u64`.
def constants (edges : Finset (NodeId × NodeId)) (maxCaps : Nat) : Constants NodeId (Fin 32) where
  delegateRight := 3
  maxNonce := U64_MAX.toNat
  maxResources := U64_MAX.toNat
  maxEpoch := U64_MAX.toNat
  maxCaps := maxCaps
  bootEdges := edges

-- The action that a call and its answer stand for. A check that is permitted but cannot
-- be logged has used up its nonce and grants nothing, and so has a check for no right.
def callLabel (issued : List Token) : Audit.Call → Reply → Option (Action NodeId NodeId (Fin 32))
  | .check cap right, .verdict (.ok ()) =>
      (issued.find? fun token => decide (token.cap = cap)).map fun token =>
        (firstRight right).elim (.revokeCap cap.nonce.toNat) (.useCap token.record)
  | .check cap _, .verdict (.error .auditFull) => some (.revokeCap cap.nonce.toNat)
  | .traverse src dst, .verdict (.ok ()) => some (.traverseEdge src dst)
  | .deduct node amount _, .remaining (.ok _) =>
      if amount = 0 then none else some (.deductResource node amount.toNat)
  | .revoke tokenId, .revoked true => some (.revokeCap tokenId.toNat)
  | .rotate, _ => some .rotateEpoch
  | _, _ => none

def System.label [Sha256] (s : System) : SystemMove → Option (Action NodeId NodeId (Fin 32))
  | .issue cap => some (.bootIssueCap cap.target (rightsOf cap.rights))
  | .delegate token newTarget subset nonce =>
      (token.cap.delegate newTarget subset nonce).map fun _ =>
        .delegate token.record newTarget (rightsOf subset)
  | .call call => callLabel s.issued call (s.gates.perform call).1

section Image

variable {s : System} {maxCaps : Nat} {edges : Finset (NodeId × NodeId)}

theorem toNat_le_max (n : UInt64) : n.toNat ≤ U64_MAX.toNat := by
  have hlt := n.toNat_lt_size
  have hmax : U64_MAX.toNat + 1 = UInt64.size := rfl
  omega

theorem one_le_toNat {n : UInt64} (h : n ≠ 0) : 1 ≤ n.toNat := by
  apply Nat.pos_of_ne_zero
  intro hzero
  exact h (UInt64.toNat_inj.mp hzero)

theorem valid_iff (token : Token) (hrights : token.cap.rights.bits ≠ 0) :
    s.abs.IsValidCap token.record ↔ s.Valid token := by
  have hgen : token.record.gen = s.abs.epoch ↔
      token.cap.generation = s.gates.policy.currentGeneration := by
    constructor
    · intro h
      have hval := UInt64.toNat_inj.mp h
      cases hcap : token.cap.generation
      cases hpol : s.gates.policy.currentGeneration
      rw [hcap, hpol] at hval
      exact congrArg _ hval
    · intro h
      exact congrArg (fun g : Generation => g.val.toNat) h
  have hspent : token.record.nonce ∉ s.abs.revokedNonces ↔
      s.gates.policy.revocation.isRevoked token.cap.nonce = false ∧
        token.cap.nonce ∉ s.gates.policy.usedNonces.toList := by
    rw [← Bool.not_eq_true]
    exact (not_congr mem_spent).trans (not_or.trans And.comm)
  have hne : token.record.rights ≠ ∅ := rightsOf_ne_empty.mpr hrights
  rw [State.IsValidCap, System.Valid, hgen, hspent]
  exact ⟨fun h => ⟨h.1, h.2.1⟩, fun h => ⟨h.1, h.2, hne⟩⟩

theorem record_mem {token : Token} (h : token ∈ s.issued) : token.record ∈ s.abs.issuedCaps :=
  List.mem_toFinset.mpr (List.mem_map_of_mem h)

theorem card_issued (hlen : s.issued.length < maxCaps) : s.abs.issuedCaps.card < maxCaps := by
  have hle := List.toFinset_card_le (s.issued.map Token.record)
  rw [List.length_map] at hle
  exact Nat.lt_of_le_of_lt hle hlen

-- A token handed out is a record issued.
theorem abs_handOut (token : Token)
    (hgen : token.cap.generation = s.gates.policy.currentGeneration)
    (hnonce : token.cap.nonce.toNat = s.nextNonce) :
    (s.handOut token).abs = s.abs.issue token.cap.issuer token.cap.target
      (rightsOf token.cap.rights) (rightsOf token.root) := by
  have hrecord : token.record = ⟨token.cap.issuer, token.cap.target, rightsOf token.cap.rights,
      s.abs.epoch, s.abs.nextNonce, rightsOf token.root⟩ := by
    rw [Token.record, hnonce, hgen]
    rfl
  have hissued : (s.handOut token).abs.issuedCaps = insert token.record s.abs.issuedCaps := by
    simp only [System.abs, System.handOut, List.map_cons, List.toFinset_cons]
  rw [hrecord] at hissued
  exact State.ext hissued rfl rfl rfl rfl rfl

end Image

end LuxKernel.Spec
