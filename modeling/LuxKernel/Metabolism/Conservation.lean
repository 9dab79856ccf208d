import LuxKernel.Metabolism.Quota

namespace LuxKernel.Metabolism

open Audit

inductive Op where
  | seed (node : NodeId) (ceiling : Quota)
  | deduct (node : NodeId) (amount : UInt64)
  | enforce (node : NodeId) (amount : UInt64) (resource : String) (audit : AuditLog)
deriving DecidableEq

-- A call together with what it returned.
inductive Event where
  | seeded (node : NodeId) (ceiling : Quota) (result : Result Unit)
  | deducted (node : NodeId) (amount : UInt64) (remaining : Option UInt64)
  | enforced (node : NodeId) (amount : UInt64) (result : Result UInt64)

-- The node that a deduction is made on.
def Op.payer : Op → Option NodeId
  | .seed _ _ => none
  | .deduct node _ => some node
  | .enforce node _ _ _ => some node

def Event.failed : Event → Bool
  | .seeded _ _ (.error _) => true
  | .deducted _ _ none => true
  | .enforced _ _ (.error _) => true
  | _ => false

-- The ceiling of a seed of `node` that succeeded.
def seedOf (node : NodeId) : Event → Option UInt64
  | .seeded n ceiling (.ok ()) => if n = node then some ceiling.ceiling else none
  | _ => none

-- The amount of a deduction on `node` that succeeded.
def spentOn (node : NodeId) : Event → Nat
  | .deducted n amount (some _) => if n = node then amount.toNat else 0
  | .enforced n amount (.ok _) => if n = node then amount.toNat else 0
  | _ => 0

-- The sums are taken over the naturals, where nothing wraps around.
def totalSpent (node : NodeId) (history : List Event) : Nat := (history.map (spentOn node)).sum

-- What the ledger holds for a node, against the history of calls.
def Accounts (history : List Event) (node : NodeId) : Option UInt64 → Prop
  | none => history.filterMap (seedOf node) = [] ∧ totalSpent node history = 0
  | some balance => ∃ ceiling, history.filterMap (seedOf node) = [ceiling] ∧
      balance.toNat + totalSpent node history = ceiling.toNat

-- What one call can do: open an account, take from one, or nothing at all.
inductive Effect (ledger ledger' : Ledger) (event : Event) : Prop where
  | opened (node : NodeId) (ceiling : UInt64) (succeeded : event.failed = false)
      (fresh : ledger.balance node = none)
      (seeds : ∀ n, seedOf n event = if n = node then some ceiling else none)
      (spends : ∀ n, spentOn n event = 0)
      (balances : ∀ n, ledger'.balance n = if n = node then some ceiling else ledger.balance n)
  | paid (node : NodeId) (amount balance : UInt64) (succeeded : event.failed = false)
      (held : ledger.balance node = some balance) (covered : amount ≤ balance)
      (seeds : ∀ n, seedOf n event = none)
      (spends : ∀ n, spentOn n event = if n = node then amount.toNat else 0)
      (balances : ∀ n, ledger'.balance n =
        if n = node then some (balance - amount) else ledger.balance n)
  | refused (seeds : ∀ n, seedOf n event = none) (spends : ∀ n, spentOn n event = 0)
      (same : ledger' = ledger)

theorem Accounts.of_untouched {history : List Event} {event : Event} {node : NodeId}
    {held : Option UInt64} (h : Accounts history node held) (hseed : seedOf node event = none)
    (hspent : spentOn node event = 0) : Accounts (event :: history) node held := by
  have hseeds : (event :: history).filterMap (seedOf node) = history.filterMap (seedOf node) :=
    List.filterMap_cons_none hseed
  have htotal : totalSpent node (event :: history) = totalSpent node history := by
    simp only [totalSpent, List.map_cons, List.sum_cons, hspent, Nat.zero_add]
  unfold Accounts at h ⊢
  rw [hseeds, htotal]
  exact h

theorem Effect.accounts {ledger ledger' : Ledger} {event : Event} {history : List Event}
    (heff : Effect ledger ledger' event)
    (h : ∀ node, Accounts history node (ledger.balance node)) (node : NodeId) :
    Accounts (event :: history) node (ledger'.balance node) := by
  have hnode := h node
  cases heff with
  | refused seeds spends same =>
      rw [same]
      exact hnode.of_untouched (seeds node) (spends node)
  | opened opener ceiling _ fresh seeds spends balances =>
      rw [balances]
      by_cases heq : node = opener
      · subst heq
        rw [fresh] at hnode
        rw [if_pos rfl]
        refine ⟨ceiling, ?_, ?_⟩
        · rw [List.filterMap_cons_some ((seeds node).trans (if_pos rfl)), hnode.1]
        · simp only [totalSpent, List.map_cons, List.sum_cons, spends]
          have hzero := hnode.2
          unfold totalSpent at hzero
          omega
      · rw [if_neg heq]
        exact hnode.of_untouched ((seeds node).trans (if_neg heq)) (spends node)
  | paid payer amount balance _ held covered seeds spends balances =>
      rw [balances]
      by_cases heq : node = payer
      · subst heq
        rw [held] at hnode
        obtain ⟨ceiling, hseeds, htotal⟩ := hnode
        rw [if_pos rfl]
        refine ⟨ceiling, ?_, ?_⟩
        · rw [List.filterMap_cons_none (seeds node), hseeds]
        · have hcovered := UInt64.le_iff_toNat_le.mp covered
          simp only [totalSpent, List.map_cons, List.sum_cons, spends, if_pos] at htotal ⊢
          rw [UInt64.toNat_sub_of_le _ _ covered]
          omega
      · rw [if_neg heq]
        exact hnode.of_untouched (seeds node) ((spends node).trans (if_neg heq))

theorem Effect.same_of_failed {ledger ledger' : Ledger} {event : Event}
    (heff : Effect ledger ledger' event) (h : event.failed = true) : ledger' = ledger := by
  cases heff with
  | refused _ _ same => exact same
  | opened _ _ succeeded => simp [succeeded] at h
  | paid _ _ _ succeeded => simp [succeeded] at h

section

variable [Sha256]

def Ledger.perform (ledger : Ledger) : Op → Event × Ledger
  | .seed node ceiling =>
      let (result, ledger) := ledger.seed node ceiling
      (.seeded node ceiling result, ledger)
  | .deduct node amount =>
      let (remaining, ledger) := ledger.deduct node amount
      (.deducted node amount remaining, ledger)
  | .enforce node amount resource audit =>
      let (result, ledger, _) := QuotaEnforcer.deduct ledger node amount resource audit
      (.enforced node amount result, ledger)

-- A run from an empty ledger. Calls and events are listed latest first.
def Ledger.run : List Op → List Event × Ledger
  | [] => ([], Ledger.new)
  | op :: earlier =>
      let (history, ledger) := Ledger.run earlier
      let (event, ledger) := ledger.perform op
      (event :: history, ledger)

theorem Ledger.effect_seed (ledger : Ledger) (node : NodeId) (ceiling : Quota) :
    Effect ledger (ledger.perform (.seed node ceiling)).2
      (ledger.perform (.seed node ceiling)).1 := by
  simp only [perform]
  rcases hseed : ledger.seed node ceiling with ⟨e | ⟨⟩, seeded⟩
  · exact .refused (fun _ => rfl) (fun _ => rfl) (seed_error hseed)
  · obtain ⟨hfresh, hbalances, -⟩ := seed_spec hseed
    refine .opened node ceiling.ceiling rfl hfresh (fun n => ?_) (fun _ => rfl) hbalances
    simp only [seedOf, eq_comm]

theorem Ledger.effect_deduct (ledger : Ledger) (node : NodeId) (amount : UInt64) :
    Effect ledger (ledger.perform (.deduct node amount)).2
      (ledger.perform (.deduct node amount)).1 := by
  show Effect ledger (ledger.deduct node amount).2
    (.deducted node amount (ledger.deduct node amount).1)
  rcases ledger.deduct_cases node amount with ⟨balance, hheld, hle, hrem, hbal⟩ | ⟨-, hfail⟩
  · rw [hrem]
    refine .paid node amount balance rfl hheld hle (fun _ => rfl) (fun n => ?_) hbal
    simp only [spentOn, eq_comm]
  · rw [hfail]
    exact .refused (fun _ => rfl) (fun _ => rfl) rfl

theorem Ledger.effect_enforce (ledger : Ledger) (node : NodeId) (amount : UInt64)
    (resource : String) (audit : AuditLog) :
    Effect ledger (ledger.perform (.enforce node amount resource audit)).2
      (ledger.perform (.enforce node amount resource audit)).1 := by
  show Effect ledger (QuotaEnforcer.deduct ledger node amount resource audit).2.1
    (.enforced node amount (QuotaEnforcer.deduct ledger node amount resource audit).1)
  cases hfull : audit.isFull with
  | true =>
      rw [QuotaEnforcer.deduct_of_full ledger node amount resource hfull]
      exact .refused (fun _ => rfl) (fun _ => rfl) rfl
  | false =>
      obtain ⟨hres, hled, -⟩ := QuotaEnforcer.deduct_of_room ledger node amount resource hfull
      rw [hres, hled]
      rcases ledger.deduct_cases node amount with ⟨balance, hheld, hle, hrem, hbal⟩ | ⟨-, hfail⟩
      · rw [hrem]
        refine .paid node amount balance rfl hheld hle (fun _ => rfl) (fun n => ?_) hbal
        simp only [Option.elim_some, spentOn, eq_comm]
      · rw [hfail]
        exact .refused (fun _ => rfl) (fun _ => rfl) rfl

theorem Ledger.effect_perform (ledger : Ledger) (op : Op) :
    Effect ledger (ledger.perform op).2 (ledger.perform op).1 := by
  cases op with
  | seed node ceiling => exact ledger.effect_seed node ceiling
  | deduct node amount => exact ledger.effect_deduct node amount
  | enforce node amount resource audit => exact ledger.effect_enforce node amount resource audit

theorem Ledger.balance_perform_other (ledger : Ledger) {op : Op} {payer node : NodeId}
    (hpayer : op.payer = some payer) (hne : node ≠ payer) :
    (ledger.perform op).2.balance node = ledger.balance node := by
  cases op with
  | seed => cases hpayer
  | deduct _ amount =>
      cases hpayer
      exact ledger.balance_deduct_other amount hne
  | enforce _ amount resource audit =>
      cases hpayer
      show (QuotaEnforcer.deduct ledger payer amount resource audit).2.1.balance node = _
      cases hfull : audit.isFull with
      | true => rw [QuotaEnforcer.deduct_of_full ledger payer amount resource hfull]
      | false =>
          rw [(QuotaEnforcer.deduct_of_room ledger payer amount resource hfull).2.1]
          exact ledger.balance_deduct_other amount hne

theorem accounts_run (ops : List Op) (node : NodeId) :
    Accounts (Ledger.run ops).1 node ((Ledger.run ops).2.balance node) := by
  induction ops generalizing node with
  | nil => exact ⟨rfl, rfl⟩
  | cons op earlier ih => exact ((Ledger.run earlier).2.effect_perform op).accounts ih node

-- Every unit of a node's one ceiling is in its balance or in a deduction that
-- succeeded, at every point of every run.
theorem resources_conserved (ops : List Op) :
    (∀ node, (Ledger.run ops).2.balance node = none ↔
      (Ledger.run ops).1.filterMap (seedOf node) = []) ∧
    (∀ node balance, (Ledger.run ops).2.balance node = some balance →
      ∃ ceiling, (Ledger.run ops).1.filterMap (seedOf node) = [ceiling] ∧
        balance.toNat + totalSpent node (Ledger.run ops).1 = ceiling.toNat) ∧
    (∀ op, ((Ledger.run ops).2.perform op).1.failed = true →
      ∀ node, ((Ledger.run ops).2.perform op).2.balance node = (Ledger.run ops).2.balance node) ∧
    (∀ op payer, op.payer = some payer → ∀ node, node ≠ payer →
      ((Ledger.run ops).2.perform op).2.balance node = (Ledger.run ops).2.balance node) ∧
    (∀ node amount remaining, ((Ledger.run ops).2.deduct node amount).1 = some remaining ↔
      ∃ balance, (Ledger.run ops).2.balance node = some balance ∧ amount ≤ balance ∧
        remaining = balance - amount) := by
  refine ⟨fun node => ?_, fun node balance hbal => ?_, fun op hfailed node => ?_,
    fun op payer hpayer node hne => ?_, fun node amount remaining => Ledger.deduct_eq_some⟩
  · have hacc := accounts_run ops node
    cases hbal : (Ledger.run ops).2.balance node with
    | none =>
        rw [hbal] at hacc
        exact ⟨fun _ => hacc.1, fun _ => rfl⟩
    | some balance =>
        rw [hbal] at hacc
        obtain ⟨ceiling, hseeds, -⟩ := hacc
        simp [hseeds]
  · have hacc := accounts_run ops node
    rw [hbal] at hacc
    exact hacc
  · rw [((Ledger.run ops).2.effect_perform op).same_of_failed hfailed]
  · exact (Ledger.run ops).2.balance_perform_other hpayer hne

end

end LuxKernel.Metabolism
