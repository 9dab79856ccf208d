import LuxKernel.Types
import LuxKernel.Heapless.Containers

namespace LuxKernel.Metabolism

open Heapless

structure Ledger where
  balances : LinearMap UInt32 UInt64 MAX_NODES
deriving DecidableEq

namespace Ledger

def new : Ledger := ⟨LinearMap.empty⟩

def seed (ledger : Ledger) (node : NodeId) (ceiling : Quota) : Result Unit × Ledger :=
  if ledger.balances.containsKey node.get then
    (.error (.manifestInvalid "duplicate node quota in manifest"), ledger)
  else
    match ledger.balances.insert node.get ceiling.ceiling with
    | some (_, balances) => (.ok (), ⟨balances⟩)
    | none => (.error (.manifestInvalid "ledger node capacity exceeded (MAX_NODES)"), ledger)

-- `checked_sub` refuses an amount above the balance, and the ledger is then unchanged.
def deduct (ledger : Ledger) (node : NodeId) (amount : UInt64) : Option UInt64 × Ledger :=
  match ledger.balances.get node.get with
  | none => (none, ledger)
  | some balance =>
      if amount ≤ balance then
        (some (balance - amount), ⟨ledger.balances.setValue node.get (balance - amount)⟩)
      else (none, ledger)

def balance (ledger : Ledger) (node : NodeId) : Option UInt64 := ledger.balances.get node.get

variable {ledger ledger' : Ledger} {node : NodeId} {ceiling : Quota}

@[simp] theorem balance_new (node : NodeId) : new.balance node = none := rfl

-- A successful seed adds one entry for a node that had none.
theorem seed_spec (h : ledger.seed node ceiling = (.ok (), ledger')) :
    ledger.balance node = none ∧
      (∀ n, ledger'.balance n = if n = node then some ceiling.ceiling else ledger.balance n) ∧
      ledger'.balances.entries.length = ledger.balances.entries.length + 1 := by
  unfold seed at h
  split at h
  · cases h
  rename_i hfresh
  rw [Bool.not_eq_true] at hfresh
  split at h
  · rename_i balances hins
    cases h
    refine ⟨?_, fun n => ?_, LinearMap.length_of_insert_fresh hfresh hins⟩
    · rw [LinearMap.containsKey_eq_isSome] at hfresh
      simpa [balance] using hfresh
    · rw [balance, LinearMap.get_of_insert_fresh hfresh hins]
      by_cases hn : n = node
      · simp [hn]
      · have hget : n.get ≠ node.get := fun heq => hn (NodeId.ext heq)
        simp [hn, hget, balance]
  · cases h

-- `insert` fails before it writes.
theorem seed_error {e : Error} (h : ledger.seed node ceiling = (.error e, ledger')) :
    ledger' = ledger := by
  unfold seed at h
  split at h
  · cases h
    rfl
  · split at h <;> cases h
    rfl

theorem seed_ok (ceiling : Quota) (hnone : ledger.balance node = none)
    (hroom : ledger.balances.entries.length < MAX_NODES) :
    ∃ ledger', ledger.seed node ceiling = (.ok (), ledger') := by
  have hfresh : ledger.balances.containsKey node.get = false := by
    rw [LinearMap.containsKey_eq_isSome]
    simpa [balance] using hnone
  unfold seed
  rw [hfresh]
  simp only [Bool.false_eq_true, if_false]
  split
  · exact ⟨_, rfl⟩
  · rename_i hfull
    rw [LinearMap.insert_fresh_eq_none_iff hfresh] at hfull
    omega

-- A deduction is covered by the balance and taken from it, or it changes nothing.
theorem deduct_cases (ledger : Ledger) (node : NodeId) (amount : UInt64) :
    (∃ balance, ledger.balance node = some balance ∧ amount ≤ balance ∧
      (ledger.deduct node amount).1 = some (balance - amount) ∧
      ∀ n, (ledger.deduct node amount).2.balance n =
        if n = node then some (balance - amount) else ledger.balance n) ∨
    ((∀ balance, ledger.balance node = some balance → balance < amount) ∧
      ledger.deduct node amount = (none, ledger)) := by
  unfold deduct
  cases hget : ledger.balances.get node.get with
  | none => exact Or.inr ⟨by simp [balance, hget], rfl⟩
  | some held =>
      by_cases hle : amount ≤ held
      · simp only [if_pos hle]
        refine Or.inl ⟨held, hget, hle, rfl, fun n => ?_⟩
        rw [balance, LinearMap.get_setValue hget]
        by_cases hn : n = node
        · rw [if_pos hn, if_pos (congrArg NodeId.get hn)]
        · rw [if_neg hn, if_neg fun heq => hn (NodeId.ext heq), balance]
      · simp only [if_neg hle]
        refine Or.inr ⟨fun held' hheld => ?_, trivial⟩
        obtain rfl := Option.some.inj (hget.symm.trans hheld)
        exact UInt64.not_le.mp hle

theorem deduct_eq_some {amount remaining : UInt64} :
    (ledger.deduct node amount).1 = some remaining ↔
      ∃ balance, ledger.balance node = some balance ∧ amount ≤ balance ∧
        remaining = balance - amount := by
  rcases ledger.deduct_cases node amount with ⟨held, hheld, hle, hrem, -⟩ | ⟨hshort, hfail⟩
  · rw [hrem, hheld]
    constructor
    · intro heq
      exact ⟨held, rfl, hle, (Option.some.inj heq).symm⟩
    · rintro ⟨balance, hbal, -, rfl⟩
      rw [Option.some.inj hbal]
  · rw [hfail]
    constructor
    · intro heq
      cases heq
    · rintro ⟨balance, hbal, hle, -⟩
      exact absurd (hshort balance hbal) (UInt64.not_lt.mpr hle)

theorem balance_deduct_other (ledger : Ledger) (amount : UInt64) {other : NodeId}
    (h : other ≠ node) : (ledger.deduct node amount).2.balance other = ledger.balance other := by
  rcases ledger.deduct_cases node amount with ⟨held, -, -, -, hbal⟩ | ⟨-, hfail⟩
  · rw [hbal, if_neg h]
  · rw [hfail]

end Ledger

end LuxKernel.Metabolism
