import LuxKernel.Heapless.BinaryHeap
import LuxKernel.Auth.Policy

namespace LuxKernel.Scheduling

open Audit Auth Heapless

structure WorkItem where
  priority : UInt8
  target : NodeId
  payload : UInt64
deriving DecidableEq, Repr

-- `impl Ord for WorkItem` compares the priorities alone.
instance : Ord WorkItem := ⟨compareOn WorkItem.priority⟩

instance : Std.TransOrd WorkItem := inferInstanceAs (Std.TransCmp (compareOn WorkItem.priority))

theorem WorkItem.below_iff {a b : WorkItem} : Below a b ↔ a.priority ≤ b.priority :=
  Std.LawfulOrderOrd.isLE_compare a.priority b.priority

-- The heap of a queue of capacity `N` is any implementation of the `heapless` one.
structure WorkQueue (H : Type) where
  inner : H
deriving DecidableEq

namespace WorkQueue

variable {H : Type} {N : Nat} [BinaryHeap H WorkItem N]

def new : WorkQueue H := ⟨BinaryHeap.new⟩

def enqueue (queue : WorkQueue H) (item : WorkItem) : Result Unit × WorkQueue H :=
  match BinaryHeap.push queue.inner item with
  | some inner => (.ok (), ⟨inner⟩)
  | none => (.error (.schedulerInvariant "queue capacity exhausted"), queue)

def dequeue (queue : WorkQueue H) : Option WorkItem × WorkQueue H :=
  match BinaryHeap.pop queue.inner with
  | some (item, inner) => (some item, ⟨inner⟩)
  | none => (none, queue)

def drainOrdered (queue : WorkQueue H) : HVec WorkItem N × WorkQueue H :=
  let (out, inner) := BinaryHeap.drain queue.inner HVec.empty
  (out, ⟨inner⟩)

def items (queue : WorkQueue H) : Multiset WorkItem := BinaryHeap.items queue.inner

theorem items_new : (new : WorkQueue H).items = 0 := BinaryHeap.items_new

theorem enqueue_cases (queue : WorkQueue H) (item : WorkItem) :
    ((queue.enqueue item).1 = .ok () ∧ (queue.enqueue item).2.items = item ::ₘ queue.items ∧
      queue.items.card < N) ∨
    (queue.enqueue item = (.error (.schedulerInvariant "queue capacity exhausted"), queue) ∧
      queue.items.card = N) := by
  unfold enqueue
  cases hpush : BinaryHeap.push queue.inner item with
  | none =>
      have hfull := BinaryHeap.push_eq_none.mp hpush
      exact Or.inr ⟨rfl, Nat.le_antisymm (BinaryHeap.card_items_le queue.inner) hfull⟩
  | some inner =>
      refine Or.inl ⟨rfl, BinaryHeap.items_push hpush, Nat.not_le.mp fun hfull => ?_⟩
      rw [BinaryHeap.push_eq_none.mpr hfull] at hpush
      cases hpush

theorem dequeue_cases (queue : WorkQueue H) :
    (∃ item, (queue.dequeue).1 = some item ∧ queue.items = item ::ₘ (queue.dequeue).2.items ∧
      ∀ other ∈ queue.items, item.priority ≤ other.priority) ∨
    (queue.dequeue = (none, queue) ∧ queue.items = 0) := by
  unfold dequeue
  cases hpop : BinaryHeap.pop queue.inner with
  | none => exact Or.inr ⟨rfl, BinaryHeap.pop_eq_none.mp hpop⟩
  | some popped =>
      obtain ⟨item, inner⟩ := popped
      refine Or.inl ⟨item, rfl, BinaryHeap.items_pop hpop, fun other hother => ?_⟩
      exact WorkItem.below_iff.mp (BinaryHeap.least_pop hpop other hother)

theorem least_of_dequeue {queue : WorkQueue H} {item : WorkItem}
    (h : (queue.dequeue).1 = some item) :
    item ∈ queue.items ∧ ∀ other ∈ queue.items, item.priority ≤ other.priority := by
  rcases queue.dequeue_cases with ⟨first, hsome, hitems, hleast⟩ | ⟨hnone, -⟩
  · obtain rfl : first = item := Option.some.inj (hsome.symm.trans h)
    refine ⟨?_, hleast⟩
    rw [hitems]
    exact Multiset.mem_cons_self _ _
  · rw [hnone] at h
    cases h

theorem empty_of_dequeue {queue : WorkQueue H} (h : (queue.dequeue).1 = none) :
    queue.items = 0 := by
  rcases queue.dequeue_cases with ⟨first, hsome, -⟩ | ⟨-, hempty⟩
  · cases hsome.symm.trans h
  · exact hempty

-- A drain hands out every item once, the most urgent first.
theorem drainOrdered_spec (queue : WorkQueue H) :
    (queue.drainOrdered.1.toList : Multiset WorkItem) = queue.items ∧
      queue.drainOrdered.1.toList.Pairwise (fun a b => a.priority ≤ b.priority) ∧
      queue.drainOrdered.2.items = 0 := by
  have hroom : (HVec.empty : HVec WorkItem N).toList.length +
      (BinaryHeap.items queue.inner).card ≤ N := by
    rw [HVec.toList_empty, List.length_nil, Nat.zero_add]
    exact BinaryHeap.card_items_le queue.inner
  obtain ⟨hitems, hsorted, hrest⟩ := BinaryHeap.drain_spec queue.inner HVec.empty hroom
    List.Pairwise.nil (fun x hx => by cases hx)
  refine ⟨hitems.trans (Multiset.zero_add _), hsorted.imp WorkItem.below_iff.mp, hrest⟩

end WorkQueue

-- The capability-gated scheduler.
structure Scheduler (H : Type) where
  queue : WorkQueue H
deriving DecidableEq

namespace Scheduler

variable {H : Type} {N : Nat} [BinaryHeap H WorkItem N]

def new : Scheduler H := ⟨.new⟩

def schedule [Sha256] (scheduler : Scheduler H) (item : WorkItem) (cap : Capability)
    (policy : Policy) (audit : AuditLog) : Result Unit × Scheduler H × Policy × AuditLog :=
  match policy.check cap .SCHEDULE audit with
  | (.error e, policy, audit) => (.error e, scheduler, policy, audit)
  | (.ok (), policy, audit) =>
      let (result, queue) := scheduler.queue.enqueue item
      (result, ⟨queue⟩, policy, audit)

def dequeue (scheduler : Scheduler H) : Option WorkItem × Scheduler H :=
  let (item, queue) := scheduler.queue.dequeue
  (item, ⟨queue⟩)

variable [Sha256] (scheduler : Scheduler H) (item : WorkItem) (cap : Capability) (policy : Policy)
variable (audit : AuditLog)

theorem schedule_policy : (scheduler.schedule item cap policy audit).2.2.1 =
    (policy.check cap .SCHEDULE audit).2.1 := by
  unfold schedule
  generalize policy.check cap .SCHEDULE audit = checked
  obtain ⟨_ | _, policy', audit'⟩ := checked <;> rfl

-- Both steps succeed and the item is queued, or the queue is left alone.
theorem schedule_cases :
    ((scheduler.schedule item cap policy audit).1 = .ok () ∧
      (policy.check cap .SCHEDULE audit).1 = .ok () ∧
      (scheduler.schedule item cap policy audit).2.1.queue.items =
        item ::ₘ scheduler.queue.items) ∨
    ((∃ e, (scheduler.schedule item cap policy audit).1 = .error e) ∧
      (scheduler.schedule item cap policy audit).2.1 = scheduler) := by
  unfold schedule
  generalize policy.check cap .SCHEDULE audit = checked
  obtain ⟨e | _, policy', audit'⟩ := checked
  · exact Or.inr ⟨⟨e, rfl⟩, rfl⟩
  · rcases scheduler.queue.enqueue_cases item with ⟨hok, hitems, -⟩ | ⟨hfull, -⟩
    · exact Or.inl ⟨hok, rfl, hitems⟩
    · dsimp only
      rw [hfull]
      exact Or.inr ⟨⟨_, rfl⟩, rfl⟩

variable {scheduler item cap policy audit}

theorem schedule_of_error {e : Error} (h : (scheduler.schedule item cap policy audit).1 = .error e) :
    (scheduler.schedule item cap policy audit).2.1 = scheduler := by
  rcases scheduler.schedule_cases item cap policy audit with ⟨hok, -⟩ | ⟨-, hsame⟩
  · cases hok.symm.trans h
  · exact hsame

theorem check_of_schedule (h : (scheduler.schedule item cap policy audit).1 = .ok ()) :
    (policy.check cap .SCHEDULE audit).1 = .ok () := by
  rcases scheduler.schedule_cases item cap policy audit with ⟨-, hcheck, -⟩ | ⟨⟨e, herr⟩, -⟩
  · exact hcheck
  · cases h.symm.trans herr

end Scheduler

end LuxKernel.Scheduling
