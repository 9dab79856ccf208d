import LuxKernel.Heapless.Containers
import Mathlib.Data.List.Sort
import Mathlib.Data.Multiset.AddSub

namespace LuxKernel.Heapless

abbrev Below {α : Type} [Ord α] (x y : α) : Prop := (compare x y).isLE = true

-- `heapless::BinaryHeap<T, Min, N>` as its documentation describes it: a bag of at most
-- `N` items, from which `pop` takes a least one. `push` refuses an item when the heap
-- is full, and the heap is then as it was.
class BinaryHeap (H : Type) (α : outParam Type) [Ord α] (N : outParam Nat) where
  new : H
  push : H → α → Option H
  pop : H → Option (α × H)
  items : H → Multiset α
  card_items_le : ∀ heap, (items heap).card ≤ N
  items_new : items new = 0
  push_eq_none : ∀ {heap x}, push heap x = none ↔ N ≤ (items heap).card
  items_push : ∀ {heap heap' x}, push heap x = some heap' → items heap' = x ::ₘ items heap
  pop_eq_none : ∀ {heap}, pop heap = none ↔ items heap = 0
  items_pop : ∀ {heap heap' x}, pop heap = some (x, heap') → items heap = x ::ₘ items heap'
  least_pop : ∀ {heap heap' x}, pop heap = some (x, heap') →
    ∀ y ∈ items heap, Below x y

namespace BinaryHeap

variable {H α : Type} [Ord α] {N : Nat} [BinaryHeap H α N]

-- Pops until nothing is left. The vector has the capacity of the heap, and the source
-- ignores the overflow that cannot happen.
def drain (heap : H) (out : HVec α N) : HVec α N × H :=
  match _h : pop heap with
  | none => (out, heap)
  | some (x, rest) => drain rest ((out.push x).getD out)
termination_by (items heap).card
decreasing_by
  rw [items_pop _h, Multiset.card_cons]
  exact Nat.lt_succ_self _

theorem drain_of_none {heap : H} (h : pop heap = none) (out : HVec α N) :
    drain heap out = (out, heap) := by
  rw [drain]
  split <;> simp_all

theorem drain_of_some {heap rest : H} {x : α} (h : pop heap = some (x, rest)) (out : HVec α N) :
    drain heap out = drain rest ((out.push x).getD out) := by
  rw [drain]
  split <;> simp_all

-- Everything comes out, least first, and nothing is left.
theorem drain_spec (heap : H) (out : HVec α N)
    (hroom : out.toList.length + (items heap).card ≤ N)
    (hsorted : out.toList.Pairwise Below)
    (hbelow : ∀ x ∈ out.toList, ∀ y ∈ items heap, Below x y) :
    ((drain heap out).1.toList : Multiset α) = out.toList + items heap ∧
      (drain heap out).1.toList.Pairwise Below ∧ items (drain heap out).2 = 0 := by
  induction hcard : (items heap).card generalizing heap out with
  | zero =>
      have hnil := Multiset.card_eq_zero.mp hcard
      rw [drain_of_none (pop_eq_none.mpr hnil), hnil, Multiset.add_zero]
      exact ⟨rfl, hsorted, rfl⟩
  | succ n ih =>
      cases hpop : pop heap with
      | none => simp [pop_eq_none.mp hpop] at hcard
      | some popped =>
          obtain ⟨x, rest⟩ := popped
          have hitems := items_pop hpop
          have hleast := least_pop hpop
          rw [hitems, Multiset.card_cons] at hroom hcard
          cases hpush : out.push x with
          | none =>
              have hfull := HVec.push_eq_none_iff.mp hpush
              omega
          | some out' =>
              have hlist := (HVec.push_eq_some_iff.mp hpush).2
              have hspec := ih rest out' (by rw [hlist, List.length_append, List.length_singleton]; omega)
                ?_ ?_ (by omega)
              · rw [drain_of_some hpop, hpush, Option.getD_some, hitems]
                refine ⟨hspec.1.trans ?_, hspec.2⟩
                rw [hlist, ← Multiset.coe_add, Multiset.add_assoc, Multiset.coe_singleton,
                  Multiset.singleton_add]
              · rw [hlist, List.pairwise_append]
                refine ⟨hsorted, List.pairwise_singleton _ _, fun a ha b hb => ?_⟩
                obtain rfl := List.mem_singleton.mp hb
                exact hbelow a ha b (hitems ▸ Multiset.mem_cons_self _ _)
              · intro a ha b hb
                have hmem : b ∈ items heap := hitems ▸ Multiset.mem_cons_of_mem hb
                rw [hlist, List.mem_append, List.mem_singleton] at ha
                rcases ha with ha | rfl
                · exact hbelow a ha b hmem
                · exact hleast b hmem

end BinaryHeap

section Sorted

variable {α : Type} [Ord α] {N : Nat}

-- The simplest heap: a list kept in order.
structure SortedHeap (α : Type) [Ord α] (N : Nat) where
  list : List α
  sorted : list.Pairwise Below
  length_le : list.length ≤ N

variable [Std.TransOrd α]

instance : Std.Total (Below : α → α → Prop) := ⟨fun x y => by
  have hswap : compare y x = (compare x y).swap := Std.OrientedCmp.eq_swap
  rw [Below, Below, hswap]
  cases compare x y <;> decide⟩

instance : IsTrans α Below := ⟨fun _ _ _ => Std.TransCmp.isLE_trans⟩

namespace SortedHeap

def push (heap : SortedHeap α N) (x : α) : Option (SortedHeap α N) :=
  if h : heap.list.length < N then
    some ⟨heap.list.orderedInsert Below x, heap.sorted.orderedInsert x _, by
      rw [List.orderedInsert_length]
      exact h⟩
  else none

omit [Std.TransOrd α] in
def pop : SortedHeap α N → Option (α × SortedHeap α N)
  | ⟨[], _, _⟩ => none
  | ⟨x :: rest, sorted, length_le⟩ =>
      some (x, ⟨rest, (List.pairwise_cons.mp sorted).2, Nat.le_of_succ_le length_le⟩)

instance : BinaryHeap (SortedHeap α N) α N where
  new := ⟨[], List.Pairwise.nil, Nat.zero_le N⟩
  push := push
  pop := pop
  items heap := heap.list
  card_items_le heap := heap.length_le
  items_new := rfl
  push_eq_none {heap x} := by
    unfold push
    split <;> simp_all
  items_push {heap heap' x} h := by
    unfold push at h
    split at h
    · cases h
      exact Multiset.coe_eq_coe.mpr (List.perm_orderedInsert _ x heap.list)
    · cases h
  pop_eq_none {heap} := by
    obtain ⟨_ | ⟨x, rest⟩, sorted, length_le⟩ := heap <;> simp [pop]
  items_pop {heap heap' x} h := by
    obtain ⟨_ | ⟨first, rest⟩, sorted, length_le⟩ := heap
    · cases h
    · cases h
      rfl
  least_pop {heap heap' x} h y hy := by
    obtain ⟨_ | ⟨first, rest⟩, sorted, length_le⟩ := heap
    · cases h
    · cases h
      rcases List.mem_cons.mp hy with rfl | hrest
      · exact or_self_iff.mp (Std.Total.total (r := Below) y y)
      · exact (List.pairwise_cons.mp sorted).1 y hrest

end SortedHeap

end Sorted

end LuxKernel.Heapless
