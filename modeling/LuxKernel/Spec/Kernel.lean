import LuxKernel.Transition.Machine
import Mathlib.Data.Finset.Card
import Mathlib.Algebra.Order.Group.Nat
import Mathlib.Algebra.Ring.Nat
import Mathlib.Algebra.BigOperators.Group.List.Basic
import Mathlib.Logic.Function.Basic

namespace LuxKernel.Spec

open Function Transition

-- The constants of `LuxKernel.tla`. Principals, nodes and rights are the elements of
-- three types.
structure Constants (N R : Type) where
  delegateRight : R
  maxNonce : Nat
  maxResources : Nat
  maxEpoch : Nat
  maxCaps : Nat
  bootEdges : Finset (N × N)

structure CapRecord (P R : Type) where
  issuer : P
  owner : P
  rights : Finset R
  gen : Nat
  nonce : Nat
  rootRights : Finset R
deriving DecidableEq

@[ext]
structure State (P N R : Type) where
  issuedCaps : Finset (CapRecord P R)
  revokedNonces : Finset Nat
  epoch : Nat
  nextNonce : Nat
  balances : P → Nat
  executedTraversals : Finset (N × N)

inductive Action (P N R : Type) where
  | bootIssueCap (p : P) (rts : Finset R)
  | delegate (cap : CapRecord P R) (q : P) (newRights : Finset R)
  | revokeCap (nonce : Nat)
  | useCap (cap : CapRecord P R) (right : R)
  | deductResource (p : P) (amount : Nat)
  | traverseEdge (src dst : N)
  | rotateEpoch

variable {P N R : Type}

def State.IsValidCap (s : State P N R) (cap : CapRecord P R) : Prop :=
  cap.gen = s.epoch ∧ cap.nonce ∉ s.revokedNonces ∧ cap.rights ≠ ∅

def init (c : Constants N R) : State P N R where
  issuedCaps := ∅
  revokedNonces := ∅
  epoch := 0
  nextNonce := 0
  balances _ := c.maxResources
  executedTraversals := ∅

section

variable [DecidableEq P] [DecidableEq N] [DecidableEq R]

instance (s : State P N R) (cap : CapRecord P R) : Decidable (s.IsValidCap cap) :=
  inferInstanceAs (Decidable (_ ∧ _ ∧ _))

-- Both ways to come by a capability take the next nonce of the epoch.
def State.issue (s : State P N R) (issuer owner : P) (rights rootRights : Finset R) : State P N R :=
  { s with
    issuedCaps := insert ⟨issuer, owner, rights, s.epoch, s.nextNonce, rootRights⟩ s.issuedCaps
    nextNonce := s.nextNonce + 1 }

def State.revoke (s : State P N R) (nonce : Nat) : State P N R :=
  { s with revokedNonces := insert nonce s.revokedNonces }

def next (c : Constants N R) (s : State P N R) : Action P N R → Option (State P N R)
  | .bootIssueCap p rts =>
      if rts ≠ ∅ ∧ s.nextNonce ≤ c.maxNonce ∧ s.issuedCaps.card < c.maxCaps then
        some (s.issue p p rts rts)
      else none
  | .delegate cap q newRights =>
      if cap ∈ s.issuedCaps ∧ s.IsValidCap cap ∧ c.delegateRight ∈ cap.rights ∧
          newRights ⊆ cap.rights ∧ newRights ≠ ∅ ∧ s.nextNonce ≤ c.maxNonce ∧
          s.issuedCaps.card < c.maxCaps then
        some (s.issue cap.owner q newRights cap.rootRights)
      else none
  | .revokeCap nonce => if nonce ≤ c.maxNonce then some (s.revoke nonce) else none
  | .useCap cap right =>
      if cap ∈ s.issuedCaps ∧ s.IsValidCap cap ∧ right ∈ cap.rights then
        some (s.revoke cap.nonce)
      else none
  | .deductResource p amount =>
      if 1 ≤ amount ∧ amount ≤ c.maxResources ∧ amount ≤ s.balances p then
        some { s with balances := update s.balances p (s.balances p - amount) }
      else none
  | .traverseEdge src dst =>
      if (src, dst) ∈ c.bootEdges then
        some { s with executedTraversals := insert (src, dst) s.executedTraversals }
      else none
  | .rotateEpoch =>
      if s.epoch < c.maxEpoch then
        some { s with epoch := s.epoch + 1, revokedNonces := ∅, nextNonce := 0 }
      else none

def machine (c : Constants N R) : Machine (State P N R) (Action P N R) := ⟨next c⟩

end

-- The capability that an action uses up.
def Action.used? : Action P N R → Option (CapRecord P R)
  | .useCap cap _ => some cap
  | _ => none

-- What an action takes from the balance of `p`.
def Action.taken [DecidableEq P] (p : P) : Action P N R → Nat
  | .deductResource q amount => if q = p then amount else 0
  | _ => 0

-- The invariants of `LuxKernel.tla` and `CostModel.tla`, and what the actions made so
-- far have to do with the state.
structure Secure [DecidableEq P] (c : Constants N R) (past : List (Action P N R))
    (s : State P N R) : Prop where
  epoch_le : s.epoch ≤ c.maxEpoch
  nextNonce_le : s.nextNonce ≤ c.maxNonce + 1
  revoked_le : ∀ nonce ∈ s.revokedNonces, nonce ≤ c.maxNonce
  gen_le : ∀ cap ∈ s.issuedCaps, cap.gen ≤ s.epoch
  nonce_le : ∀ cap ∈ s.issuedCaps, cap.nonce ≤ c.maxNonce
  card_le : s.issuedCaps.card ≤ c.maxCaps
  nonEscalation : ∀ cap ∈ s.issuedCaps, cap.rights ⊆ cap.rootRights
  nonce_lt : ∀ cap ∈ s.issuedCaps, cap.gen = s.epoch → cap.nonce < s.nextNonce
  unique : ∀ c₁ ∈ s.issuedCaps, ∀ c₂ ∈ s.issuedCaps,
    c₁.gen = c₂.gen → c₁.nonce = c₂.nonce → c₁ = c₂
  used_issued : ∀ cap ∈ past.filterMap Action.used?, cap ∈ s.issuedCaps
  used_spent : ∀ cap ∈ past.filterMap Action.used?, ¬s.IsValidCap cap
  used_once : (past.filterMap Action.used?).Nodup
  conserved : ∀ p, s.balances p + (past.map (Action.taken p)).sum = c.maxResources
  topologyBoundedness : s.executedTraversals ⊆ c.bootEdges

theorem Secure.start [DecidableEq P] (c : Constants N R) : Secure c [] (init c : State P N R) := by
  constructor <;> simp [init]

section Steps

variable [DecidableEq P] {c : Constants N R} {past : List (Action P N R)} {s s' : State P N R}

-- An action that neither uses a capability nor takes resources leaves no trace.
theorem Secure.quiet (h : Secure c past s) {action : Action P N R} (hused : action.used? = none)
    (htaken : ∀ p, action.taken p = 0) : Secure c (past ++ [action]) s := by
  have hsame : (past ++ [action]).filterMap Action.used? = past.filterMap Action.used? := by
    rw [List.filterMap_append, List.filterMap_cons, hused, List.filterMap_nil, List.append_nil]
  have hsum (p : P) : ((past ++ [action]).map (Action.taken p)).sum =
      (past.map (Action.taken p)).sum := by
    rw [List.map_append, List.sum_append, List.map_singleton, List.sum_singleton, htaken,
      Nat.add_zero]
  exact { h with
    used_issued := hsame ▸ h.used_issued
    used_spent := hsame ▸ h.used_spent
    used_once := hsame ▸ h.used_once
    conserved := fun p => (hsum p).symm ▸ h.conserved p }

theorem Secure.issue [DecidableEq R] (h : Secure c past s) {issuer owner : P}
    {rights rootRights : Finset R} (hrights : rights ⊆ rootRights) (hnonce : s.nextNonce ≤ c.maxNonce)
    (hcard : s.issuedCaps.card < c.maxCaps) :
    Secure c past (s.issue issuer owner rights rootRights) := by
  -- the new capability, or one that was there
  have hmem {cap : CapRecord P R}
      (hcap : cap ∈ (s.issue issuer owner rights rootRights).issuedCaps) :
      cap = ⟨issuer, owner, rights, s.epoch, s.nextNonce, rootRights⟩ ∨ cap ∈ s.issuedCaps :=
    Finset.mem_insert.mp hcap
  exact { h with
    nextNonce_le := Nat.succ_le_succ hnonce
    gen_le := by
      intro cap hcap
      rcases hmem hcap with rfl | hold
      · exact Nat.le_refl _
      · exact h.gen_le cap hold
    nonce_le := by
      intro cap hcap
      rcases hmem hcap with rfl | hold
      · exact hnonce
      · exact h.nonce_le cap hold
    card_le := (Finset.card_insert_le _ _).trans hcard
    nonEscalation := by
      intro cap hcap
      rcases hmem hcap with rfl | hold
      · exact hrights
      · exact h.nonEscalation cap hold
    nonce_lt := by
      intro cap hcap hgen
      rcases hmem hcap with rfl | hold
      · exact Nat.lt_succ_self _
      · exact Nat.lt_succ_of_lt (h.nonce_lt cap hold hgen)
    unique := by
      intro c₁ h₁ c₂ h₂ hgen hsame
      rcases hmem h₁ with rfl | hold₁ <;> rcases hmem h₂ with rfl | hold₂
      · rfl
      · have hlt := h.nonce_lt c₂ hold₂ hgen.symm
        dsimp only at hsame
        omega
      · have hlt := h.nonce_lt c₁ hold₁ hgen
        dsimp only at hsame
        omega
      · exact h.unique c₁ hold₁ c₂ hold₂ hgen hsame
    used_issued := fun cap hcap => Finset.mem_insert_of_mem (h.used_issued cap hcap) }

theorem Secure.revoke (h : Secure c past s) {nonce : Nat} (hnonce : nonce ≤ c.maxNonce) :
    Secure c past (s.revoke nonce) :=
  { h with
    revoked_le := by
      intro n hn
      rcases Finset.mem_insert.mp hn with rfl | hold
      · exact hnonce
      · exact h.revoked_le n hold
    used_spent := by
      rintro cap hcap ⟨hgen, hfresh, hrights⟩
      exact h.used_spent cap hcap ⟨hgen, mt Finset.mem_insert_of_mem hfresh, hrights⟩ }

theorem Secure.use (h : Secure c past s) {cap : CapRecord P R} {right : R}
    (hcap : cap ∈ s.issuedCaps) (hvalid : s.IsValidCap cap) :
    Secure c (past ++ [.useCap cap right]) (s.revoke cap.nonce) := by
  have hused : (past ++ [Action.useCap cap right]).filterMap Action.used? =
      past.filterMap Action.used? ++ [cap] := by
    rw [List.filterMap_append]
    rfl
  have hrevoked := h.revoke (h.nonce_le cap hcap)
  have hfresh : cap ∉ past.filterMap Action.used? := fun hmem => h.used_spent cap hmem hvalid
  exact { hrevoked with
    used_issued := by
      intro used hmem
      rw [hused, List.mem_append, List.mem_singleton] at hmem
      rcases hmem with hold | rfl
      · exact h.used_issued used hold
      · exact hcap
    used_spent := by
      intro used hmem
      rw [hused, List.mem_append, List.mem_singleton] at hmem
      rcases hmem with hold | rfl
      · exact hrevoked.used_spent used hold
      · exact fun hstill => hstill.2.1 (Finset.mem_insert_self _ _)
    used_once := by
      rw [hused]
      exact List.nodup_append.mpr ⟨h.used_once, List.nodup_singleton _, by
        intro a ha b hb heq
        obtain rfl := List.mem_singleton.mp hb
        exact hfresh (heq ▸ ha)⟩
    conserved := by
      intro p
      rw [List.map_append, List.sum_append]
      exact hrevoked.conserved p }

theorem Secure.deduct (h : Secure c past s) {p : P} {amount : Nat} (hle : amount ≤ s.balances p) :
    Secure c (past ++ [.deductResource p amount])
      { s with balances := update s.balances p (s.balances p - amount) } := by
  have hused : (past ++ [Action.deductResource p amount]).filterMap Action.used? =
      past.filterMap Action.used? := by
    rw [List.filterMap_append]
    exact List.append_nil _
  exact { h with
    used_issued := hused ▸ h.used_issued
    used_spent := hused ▸ h.used_spent
    used_once := hused ▸ h.used_once
    conserved := by
      intro q
      have hold := h.conserved q
      rw [List.map_append, List.sum_append, List.map_singleton, List.sum_singleton, Action.taken]
      dsimp only
      by_cases hq : p = q
      · subst hq
        rw [update_self, if_pos rfl]
        omega
      · rw [update_of_ne (Ne.symm hq), if_neg hq]
        omega }

theorem Secure.rotate (h : Secure c past s) (hlt : s.epoch < c.maxEpoch) :
    Secure c past { s with epoch := s.epoch + 1, revokedNonces := ∅, nextNonce := 0 } :=
  { h with
    epoch_le := hlt
    nextNonce_le := Nat.zero_le _
    revoked_le := by simp
    gen_le := fun cap hcap => Nat.le_succ_of_le (h.gen_le cap hcap)
    nonce_lt := by
      intro cap hcap hgen
      have hle := h.gen_le cap hcap
      dsimp only at hgen
      omega
    used_spent := by
      rintro cap hcap ⟨hgen, -⟩
      have hle := h.gen_le cap (h.used_issued cap hcap)
      dsimp only at hgen
      omega }

variable [DecidableEq N]

theorem Secure.traverse (h : Secure c past s) {src dst : N} (hedge : (src, dst) ∈ c.bootEdges) :
    Secure c past { s with executedTraversals := insert (src, dst) s.executedTraversals } :=
  { h with topologyBoundedness := Finset.insert_subset hedge h.topologyBoundedness }

variable [DecidableEq R]

theorem Secure.next (h : Secure c past s) {action : Action P N R}
    (hnext : next c s action = some s') : Secure c (past ++ [action]) s' := by
  cases action <;> simp only [Spec.next, Option.ite_none_right_eq_some, Option.some.injEq] at hnext
  case bootIssueCap p rts =>
    obtain ⟨⟨-, hnonce, hcard⟩, rfl⟩ := hnext
    exact (h.issue (Finset.Subset.refl _) hnonce hcard).quiet rfl fun _ => rfl
  case delegate cap q newRights =>
    obtain ⟨⟨hcap, -, -, hsub, -, hnonce, hcard⟩, rfl⟩ := hnext
    exact (h.issue (hsub.trans (h.nonEscalation cap hcap)) hnonce hcard).quiet rfl fun _ => rfl
  case revokeCap nonce =>
    obtain ⟨hnonce, rfl⟩ := hnext
    exact (h.revoke hnonce).quiet rfl fun _ => rfl
  case useCap cap right =>
    obtain ⟨⟨hcap, hvalid, -⟩, rfl⟩ := hnext
    exact h.use hcap hvalid
  case deductResource p amount =>
    obtain ⟨⟨-, -, hle⟩, rfl⟩ := hnext
    exact h.deduct hle
  case traverseEdge src dst =>
    obtain ⟨hedge, rfl⟩ := hnext
    exact (h.traverse hedge).quiet rfl fun _ => rfl
  case rotateEpoch =>
    obtain ⟨hlt, rfl⟩ := hnext
    exact (h.rotate hlt).quiet rfl fun _ => rfl

-- A capability that is no longer valid stays so, in this epoch and in all later ones.
theorem Secure.stays_invalid (h : Secure c past s) {action : Action P N R}
    (hnext : Spec.next c s action = some s') {cap : CapRecord P R} (hcap : cap ∈ s.issuedCaps)
    (hinvalid : ¬s.IsValidCap cap) : cap ∈ s'.issuedCaps ∧ ¬s'.IsValidCap cap := by
  have hle := h.gen_le cap hcap
  cases action <;> simp only [Spec.next, Option.ite_none_right_eq_some, Option.some.injEq] at hnext
  case bootIssueCap | delegate =>
    obtain ⟨-, rfl⟩ := hnext
    exact ⟨Finset.mem_insert_of_mem hcap, hinvalid⟩
  case revokeCap | useCap =>
    obtain ⟨-, rfl⟩ := hnext
    refine ⟨hcap, fun hvalid => hinvalid ⟨hvalid.1, fun hold => ?_, hvalid.2.2⟩⟩
    exact hvalid.2.1 (Finset.mem_insert_of_mem hold)
  case deductResource | traverseEdge =>
    obtain ⟨-, rfl⟩ := hnext
    exact ⟨hcap, hinvalid⟩
  case rotateEpoch =>
    obtain ⟨-, rfl⟩ := hnext
    refine ⟨hcap, fun hvalid => ?_⟩
    have hgen := hvalid.1
    dsimp only at hgen
    omega

-- Only a valid capability is used.
theorem isValidCap_of_used {action : Action P N R} (hnext : Spec.next c s action = some s')
    {cap : CapRecord P R} (hused : action.used? = some cap) : s.IsValidCap cap := by
  cases action with
  | useCap used right =>
      obtain rfl := Option.some.inj hused
      exact (Option.ite_none_right_eq_some.mp hnext).1.2.1
  | _ => cases hused

-- From then on nobody uses it.
theorem Secure.stays_invalid_run (h : Secure c past s) {later : List (Action P N R)}
    (hlater : (machine c).run s later = some s') {cap : CapRecord P R} (hcap : cap ∈ s.issuedCaps)
    (hinvalid : ¬s.IsValidCap cap) :
    ¬s'.IsValidCap cap ∧ cap ∉ later.filterMap Action.used? := by
  induction later generalizing past s with
  | nil =>
      obtain rfl := Machine.run_nil.mp hlater
      exact ⟨hinvalid, List.not_mem_nil⟩
  | cons action rest ih =>
      obtain ⟨mid, hstep, hrest⟩ := Machine.run_cons.mp hlater
      obtain ⟨hissued, hstill⟩ := h.stays_invalid hstep hcap hinvalid
      obtain ⟨hend, hunused⟩ := ih (h.next hstep) hrest hissued hstill
      refine ⟨hend, fun hmem => ?_⟩
      obtain ⟨move, hmove, hused⟩ := List.mem_filterMap.mp hmem
      rcases List.mem_cons.mp hmove with rfl | hmove
      · exact hinvalid (isValidCap_of_used hstep hused)
      · exact hunused (List.mem_filterMap.mpr ⟨move, hmove, hused⟩)

theorem secure_run {actions : List (Action P N R)}
    (hrun : (machine c).run (init c) actions = some s) : Secure c actions s :=
  Machine.run_history (P := Secure c) (fun _ _ _ _ h hstep => h.next hstep) (Secure.start c) hrun

-- From any state, deductions lead to any lower balances of finitely many principals.
theorem exists_deductions (principals : Finset P) {balances : P → Nat}
    (hle : ∀ p, balances p ≤ s.balances p) (hmax : ∀ p, s.balances p ≤ c.maxResources)
    (hsame : ∀ p ∉ principals, balances p = s.balances p) :
    ∃ actions : List (Action P N R), (∀ action ∈ actions, ∃ p n, action = .deductResource p n) ∧
      (machine c).run s actions = some { s with balances := balances } := by
  induction principals using Finset.induction_on generalizing s with
  | empty =>
      have heq : balances = s.balances := funext fun p => hsame p (Finset.notMem_empty p)
      exact ⟨[], by simp, by rw [heq]; rfl⟩
  | insert p rest _ ih =>
      by_cases hp : balances p = s.balances p
      · refine ih hle hmax fun q hq => ?_
        by_cases hqp : q = p
        · rw [hqp, hp]
        · exact hsame q (by simp [hqp, hq])
      · -- first lower the balance of `p`, then go on with the others
        have hlt := Nat.lt_of_le_of_ne (hle p) hp
        have hbound := hmax p
        let lowered : State P N R := { s with balances := update s.balances p (balances p) }
        have hother (q : P) (hq : q ≠ p) : lowered.balances q = s.balances q := update_of_ne hq _ _
        have hself : lowered.balances p = balances p := update_self ..
        have hstep : (machine c).step s (.deductResource p (s.balances p - balances p)) =
            some lowered := by
          have hguard : 1 ≤ s.balances p - balances p ∧
              s.balances p - balances p ≤ c.maxResources ∧
              s.balances p - balances p ≤ s.balances p := by omega
          have hleft : s.balances p - (s.balances p - balances p) = balances p := by omega
          simp only [machine, next, if_pos hguard, hleft, lowered]
        obtain ⟨actions, hall, hrun⟩ := ih (s := lowered)
          (fun q => by
            by_cases hq : q = p
            · rw [hq, hself]
            · exact hother q hq ▸ hle q)
          (fun q => by
            by_cases hq : q = p
            · rw [hq, hself]
              omega
            · exact hother q hq ▸ hmax q)
          (fun q hq => by
            by_cases hqp : q = p
            · rw [hqp, hself]
            · rw [hother q hqp]
              exact hsame q (by simp [hqp, hq]))
        refine ⟨_ :: actions, ?_, Machine.run_cons.mpr ⟨lowered, hstep, hrun⟩⟩
        intro action hmem
        rcases List.mem_cons.mp hmem with rfl | hmem
        · exact ⟨_, _, rfl⟩
        · exact hall action hmem

-- For every choice of the constants, of which TLC has checked one.
theorem spec_secure (c : Constants N R) {earlier later : List (Action P N R)}
    {mid : State P N R} (hmid : (machine c).run (init c) earlier = some mid)
    (hlater : (machine c).run mid later = some s) :
    Secure c (earlier ++ later) s ∧
    (∀ c₁ ∈ s.issuedCaps, ∀ c₂ ∈ s.issuedCaps, c₁.rootRights = c₂.rootRights →
      c₁.rights ∪ c₂.rights ⊆ c₁.rootRights) ∧
    (∀ p, s.balances p ≤ mid.balances p) ∧
    ∀ cap ∈ mid.issuedCaps, ¬mid.IsValidCap cap →
      ¬s.IsValidCap cap ∧ cap ∉ later.filterMap Action.used? := by
  have hsecure := secure_run (Machine.run_append.mpr ⟨mid, hmid, hlater⟩)
  have hbefore := secure_run hmid
  refine ⟨hsecure, fun c₁ h₁ c₂ h₂ hroot => ?_, fun p => ?_, fun cap hcap hinvalid => ?_⟩
  · apply Finset.union_subset (hsecure.nonEscalation c₁ h₁)
    rw [hroot]
    exact hsecure.nonEscalation c₂ h₂
  · have hmid := hbefore.conserved p
    have hend := hsecure.conserved p
    rw [List.map_append, List.sum_append] at hend
    omega
  · exact hbefore.stays_invalid_run hlater hcap hinvalid

end Steps

-- The instance of `MC.tla`, with the two principals and nodes as `false` and `true`, and
-- `true` for the right to delegate.
def mc : Constants Bool Bool where
  delegateRight := true
  maxNonce := 2
  maxResources := 2
  maxEpoch := 1
  maxCaps := 3
  bootEdges := {(false, true)}

def mcRoot : CapRecord Bool Bool := ⟨false, false, {false, true}, 0, 0, {false, true}⟩

def mcUsed : State Bool Bool Bool :=
  (((init mc).issue false false {false, true} {false, true}).issue false true {false}
    {false, true}).revoke 0

-- A token is delegated and used, then the epoch ends.
theorem spec_secure_mc : ∃ s,
    (machine mc).run (init mc) [.bootIssueCap false {false, true}, .delegate mcRoot true {false},
      .useCap mcRoot true] = some mcUsed ∧
    (machine mc).run mcUsed [.deductResource true 1, .rotateEpoch] = some s ∧
    mcRoot ∈ mcUsed.issuedCaps ∧ ¬mcUsed.IsValidCap mcRoot ∧ ¬s.IsValidCap mcRoot := by
  have hmid : (machine mc).run (init mc) [.bootIssueCap false {false, true},
      .delegate mcRoot true {false}, .useCap mcRoot true] = some mcUsed := rfl
  have hlater : (machine mc).run mcUsed [.deductResource true 1, .rotateEpoch] = some _ := rfl
  have hissued : mcRoot ∈ mcUsed.issuedCaps := by decide
  have hspent : ¬mcUsed.IsValidCap mcRoot := by decide
  exact ⟨_, hmid, hlater, hissued, hspent,
    ((spec_secure mc hmid hlater).2.2.2 mcRoot hissued hspent).1⟩

end LuxKernel.Spec
