import LuxKernel.Scheduler.Queue

namespace LuxKernel.Scheduling

open Audit Auth Heapless

inductive Op where
  | schedule (item : WorkItem) (cap : Capability) (audit : AuditLog)
  | dequeue
  | revoke (tokenId : UInt64)
  | rotate
deriving DecidableEq

-- A call together with what it returned.
inductive Event where
  | scheduled (item : WorkItem) (cap : Capability) (audit : AuditLog) (result : Result Unit)
  | dequeued (item : Option WorkItem)
  | revoked (tokenId : UInt64) (accepted : Bool)
  | rotated

-- The item of a call of `schedule` that returned `Ok`.
def submitted : Event → Option WorkItem
  | .scheduled item _ _ (.ok ()) => some item
  | _ => none

def taken : Event → Option WorkItem
  | .dequeued item => item
  | _ => none

-- The nonce of a call of `schedule` that returned `Ok`.
def spent : Event → Option UInt64
  | .scheduled _ cap _ (.ok ()) => some cap.nonce
  | _ => none

def sinceRotation : List Event → List Event
  | [] => []
  | .rotated :: _ => []
  | event :: earlier => event :: sinceRotation earlier

def generationAfter (generation : Generation) : List Event → Generation
  | [] => generation
  | .rotated :: earlier => ⟨saturatingSucc (generationAfter generation earlier).val⟩
  | _ :: earlier => generationAfter generation earlier

-- The scheduler and the policy that gates it.
structure State (H : Type) where
  scheduler : Scheduler H
  policy : Policy

section

variable {H : Type} {N : Nat} [BinaryHeap H WorkItem N] [Sha256]

def State.perform (state : State H) : Op → Event × State H
  | .schedule item cap audit =>
      let (result, scheduler, policy, _) := state.scheduler.schedule item cap state.policy audit
      (.scheduled item cap audit result, ⟨scheduler, policy⟩)
  | .dequeue =>
      let (item, scheduler) := state.scheduler.dequeue
      (.dequeued item, { state with scheduler := scheduler })
  | .revoke tokenId =>
      let (accepted, policy) := state.policy.revokeCapability tokenId
      (.revoked tokenId accepted, { state with policy := policy })
  | .rotate => (.rotated, { state with policy := state.policy.rotateGeneration })

-- A run from an empty scheduler, with any policy. Calls and events are listed latest
-- first.
def run (H : Type) [BinaryHeap H WorkItem N] (start : Policy) : List Op → List Event × State H
  | [] => ([], ⟨.new, start⟩)
  | op :: earlier =>
      let (history, state) := run H start earlier
      let (event, state) := state.perform op
      (event :: history, state)

end

section Histories

variable {history : List Event} {event : Event}

theorem sinceRotation_cons (h : event ≠ .rotated) :
    sinceRotation (event :: history) = event :: sinceRotation history := by
  cases event <;> first | rfl | exact absurd rfl h

theorem generationAfter_cons (generation : Generation) (h : event ≠ .rotated) :
    generationAfter generation (event :: history) = generationAfter generation history := by
  cases event <;> first | rfl | exact absurd rfl h

end Histories

-- What the policy remembers of the calls since the last rotation.
structure Remembers (start : Policy) (history : List Event) (policy : Policy) : Prop where
  generation : policy.currentGeneration = generationAfter start.currentGeneration history
  used : ∀ n ∈ (sinceRotation history).filterMap spent, n ∈ policy.usedNonces.toList
  distinct : ((sinceRotation history).filterMap spent).Nodup
  revoked : ∀ n, .revoked n true ∈ sinceRotation history → policy.revocation.isRevoked n = true

section Policies

variable {start policy policy' : Policy} {history : List Event} {event : Event}

theorem Remembers.new (start : Policy) : Remembers start [] start where
  generation := rfl
  used n hn := by cases hn
  distinct := List.nodup_nil
  revoked n hn := by cases hn

theorem Remembers.rotate (h : Remembers start history policy) :
    Remembers start (.rotated :: history) policy.rotateGeneration where
  generation := by simp only [Policy.rotateGeneration, generationAfter, h.generation]
  used n hn := by cases hn
  distinct := List.nodup_nil
  revoked n hn := by cases hn

-- A call that spends no nonce.
theorem Remembers.other (h : Remembers start history policy) (hevent : event ≠ .rotated)
    (hspent : spent event = none)
    (hgeneration : policy'.currentGeneration = policy.currentGeneration)
    (hused : policy.usedNonces.toList ⊆ policy'.usedNonces.toList)
    (hrevoked : ∀ n, policy.revocation.isRevoked n = true ∨ event = .revoked n true →
      policy'.revocation.isRevoked n = true) : Remembers start (event :: history) policy' := by
  have hsame : (sinceRotation (event :: history)).filterMap spent =
      (sinceRotation history).filterMap spent := by
    rw [sinceRotation_cons hevent, List.filterMap_cons_none hspent]
  refine ⟨?_, ?_, ?_, fun n hn => hrevoked n ?_⟩
  · rw [generationAfter_cons _ hevent, hgeneration, h.generation]
  · rw [hsame]
    exact fun n hn => hused (h.used n hn)
  · rw [hsame]
    exact h.distinct
  · rw [sinceRotation_cons hevent, List.mem_cons] at hn
    exact hn.symm.imp (h.revoked n) Eq.symm

theorem Remembers.revoke (h : Remembers start history policy) (tokenId : UInt64) :
    Remembers start (.revoked tokenId (policy.revokeCapability tokenId).1 :: history)
      (policy.revokeCapability tokenId).2 := by
  refine h.other (by simp) rfl rfl (List.Subset.refl _) fun n hn => ?_
  refine (policy.revocation.isRevoked_revoke tokenId n).mpr (hn.symm.imp (fun heq => ?_) id)
  obtain ⟨hid, haccepted⟩ := Event.revoked.inj heq
  exact ⟨haccepted, hid.symm⟩

variable [Sha256]

theorem Remembers.refused (h : Remembers start history policy) (item : WorkItem) (cap : Capability)
    (audit : AuditLog) (e : Error) :
    Remembers start (.scheduled item cap audit (.error e) :: history)
      (policy.check cap .SCHEDULE audit).2.1 := by
  obtain ⟨hgeneration, hrevocation, hused⟩ := policy.check_keeps cap .SCHEDULE audit
  refine h.other (by simp) rfl hgeneration hused fun n hn => ?_
  rw [hrevocation]
  exact hn.resolve_right (by simp)

theorem Remembers.admitted (h : Remembers start history policy) (item : WorkItem)
    (cap : Capability) (audit : AuditLog) (hok : (policy.check cap .SCHEDULE audit).1 = .ok ()) :
    Remembers start (.scheduled item cap audit (.ok ()) :: history)
      (policy.check cap .SCHEDULE audit).2.1 := by
  have hunused := (Policy.check_eq_ok.mp hok).1.unused
  obtain ⟨hgeneration, hrevocation, hused⟩ := policy.check_keeps cap .SCHEDULE audit
  have hspent : (sinceRotation (.scheduled item cap audit (.ok ()) :: history)).filterMap spent =
      cap.nonce :: (sinceRotation history).filterMap spent := rfl
  refine ⟨hgeneration.trans h.generation, fun n hn => ?_, ?_, fun n hn => ?_⟩
  · rw [hspent, List.mem_cons] at hn
    rcases hn with rfl | hold
    · exact Policy.nonce_used_of_check hok
    · exact hused (h.used n hold)
  · rw [hspent]
    exact List.nodup_cons.mpr ⟨fun hmem => hunused (h.used _ hmem), h.distinct⟩
  · rw [hrevocation]
    exact h.revoked n ((List.mem_cons.mp hn).resolve_left (by simp))

end Policies

section Runs

variable {H : Type} {N : Nat} [BinaryHeap H WorkItem N]

-- Every item that was accepted is in the queue or has been handed out.
def Balanced (history : List Event) (scheduler : Scheduler H) : Prop :=
  (history.filterMap taken : Multiset WorkItem) + scheduler.queue.items =
    (history.filterMap submitted : Multiset WorkItem)

structure Tracks (start : Policy) (history : List Event) (state : State H) : Prop where
  balanced : Balanced history state.scheduler
  remembers : Remembers start history state.policy

variable {start : Policy} {history : List Event} {event : Event} {state : State H}
variable {scheduler scheduler' : Scheduler H}

theorem Balanced.new : Balanced [] (.new : Scheduler H) :=
  (Multiset.zero_add _).trans WorkQueue.items_new

theorem Balanced.other (h : Balanced history scheduler) (htaken : taken event = none)
    (hsubmitted : submitted event = none) : Balanced (event :: history) scheduler := by
  rw [Balanced, List.filterMap_cons_none htaken, List.filterMap_cons_none hsubmitted]
  exact h

theorem Balanced.submit (h : Balanced history scheduler) {item : WorkItem}
    (htaken : taken event = none) (hsubmitted : submitted event = some item)
    (hitems : scheduler'.queue.items = item ::ₘ scheduler.queue.items) :
    Balanced (event :: history) scheduler' := by
  rw [Balanced, List.filterMap_cons_none htaken, List.filterMap_cons_some hsubmitted, hitems,
    Multiset.add_cons, h, Multiset.cons_coe]

theorem Balanced.take (h : Balanced history scheduler) {item : WorkItem}
    (htaken : taken event = some item) (hsubmitted : submitted event = none)
    (hitems : scheduler.queue.items = item ::ₘ scheduler'.queue.items) :
    Balanced (event :: history) scheduler' := by
  rw [Balanced, List.filterMap_cons_some htaken, List.filterMap_cons_none hsubmitted, ← h, hitems,
    Multiset.add_cons, ← Multiset.cons_coe, Multiset.cons_add]

variable [Sha256]

theorem Tracks.perform (h : Tracks start history state) (op : Op) :
    Tracks start ((state.perform op).1 :: history) (state.perform op).2 := by
  cases op with
  | schedule item cap audit =>
      have hpolicy := state.scheduler.schedule_policy item cap state.policy audit
      rcases state.scheduler.schedule_cases item cap state.policy audit with
        ⟨hok, hcheck, hitems⟩ | ⟨⟨e, herr⟩, hsame⟩
      · simp only [State.perform, hok]
        refine ⟨h.balanced.submit rfl rfl hitems, ?_⟩
        rw [hpolicy]
        exact h.remembers.admitted item cap audit hcheck
      · simp only [State.perform, herr]
        refine ⟨?_, ?_⟩
        · rw [hsame]
          exact h.balanced.other rfl rfl
        · rw [hpolicy]
          exact h.remembers.refused item cap audit e
  | dequeue =>
      have hpolicy : Remembers start (.dequeued state.scheduler.dequeue.1 :: history)
          state.policy :=
        h.remembers.other (by simp) rfl rfl (List.Subset.refl _)
          fun n hn => hn.resolve_right (by simp)
      refine ⟨?_, hpolicy⟩
      rcases state.scheduler.queue.dequeue_cases with ⟨item, hsome, hitems, -⟩ | ⟨hnone, -⟩
      · exact h.balanced.take hsome rfl hitems
      · simp only [State.perform, Scheduler.dequeue, hnone]
        exact h.balanced.other rfl rfl
  | revoke tokenId => exact ⟨h.balanced.other rfl rfl, h.remembers.revoke tokenId⟩
  | rotate => exact ⟨h.balanced.other rfl rfl, h.remembers.rotate⟩

theorem tracks_run (H : Type) [BinaryHeap H WorkItem N] (start : Policy) (ops : List Op) :
    Tracks start (run H start ops).1 (run H start ops).2 := by
  induction ops with
  | nil => exact ⟨Balanced.new, Remembers.new start⟩
  | cons op earlier ih => exact ih.perform op

-- Scheduling over whole runs: at every point, what has been handed out and what is
-- queued, the next `dequeue`, and the next `schedule`.
theorem scheduling_gated_lossless (H : Type) [BinaryHeap H WorkItem N] (start : Policy)
    (ops : List Op) :
    let history := (run H start ops).1
    let state := (run H start ops).2
    let queued := state.scheduler.queue.items
    (history.filterMap taken : Multiset WorkItem) + queued =
      (history.filterMap submitted : Multiset WorkItem) ∧
    (∀ item, state.scheduler.dequeue.1 = some item →
      item ∈ queued ∧ ∀ other ∈ queued, item.priority ≤ other.priority) ∧
    (state.scheduler.dequeue.1 = none → queued = 0) ∧
    (∀ item cap audit e, (state.scheduler.schedule item cap state.policy audit).1 = .error e →
      (state.scheduler.schedule item cap state.policy audit).2.1 = state.scheduler) ∧
    ((sinceRotation history).filterMap spent).Nodup ∧
    ∀ item cap audit, (state.scheduler.schedule item cap state.policy audit).1 = .ok () →
      cap.generation = generationAfter start.currentGeneration history ∧
      cap.rights.contains .SCHEDULE = true ∧
      state.policy.revocation.isRevoked cap.nonce = false ∧
      .revoked cap.nonce true ∉ sinceRotation history ∧
      cap.nonce ∉ (sinceRotation history).filterMap spent := by
  intro history state queued
  obtain ⟨hbalanced, hremembers⟩ := tracks_run H start ops
  refine ⟨hbalanced, fun item => WorkQueue.least_of_dequeue, WorkQueue.empty_of_dequeue,
    fun item cap audit e => Scheduler.schedule_of_error, hremembers.distinct,
    fun item cap audit hok => ?_⟩
  have hadm := (Policy.check_eq_ok.mp (Scheduler.check_of_schedule hok)).1
  refine ⟨hadm.generation.trans hremembers.generation, hadm.rights, hadm.unrevoked,
    fun hrevoked => ?_, fun hspent => hadm.unused (hremembers.used _ hspent)⟩
  cases hadm.unrevoked.symm.trans (hremembers.revoked _ hrevoked)

end Runs

section TwoPlaces

attribute [local instance] Sha256.zero

def job (priority : UInt8) (payload : UInt64) : WorkItem := ⟨priority, node1, payload⟩

def ticket (nonce : UInt64) : Capability := ⟨node1, node1, .SCHEDULE, ⟨0⟩, nonce⟩

-- A queue of two places. The third item does not fit, the second ticket is used twice,
-- and the more urgent item leaves first.
def crowded : List Op :=
  [.dequeue, .schedule (job 1 40) (ticket 2) .new, .schedule (job 1 30) (ticket 3) .new,
    .schedule (job 4 20) (ticket 2) .new, .schedule (job 9 10) (ticket 1) .new]

theorem scheduling_gated_lossless_crowded :
    let run := run (SortedHeap WorkItem 2) (.new ⟨0⟩) crowded
    run.1.filterMap taken = [job 4 20] ∧ run.1.filterMap submitted = [job 4 20, job 9 10] ∧
      run.2.scheduler.queue.items = {job 9 10} := by
  obtain ⟨hbalance, -⟩ := scheduling_gated_lossless (SortedHeap WorkItem 2) (.new ⟨0⟩) crowded
  have htaken : (run (SortedHeap WorkItem 2) (.new ⟨0⟩) crowded).1.filterMap taken = [job 4 20] := by
    decide +kernel
  have hsubmitted : (run (SortedHeap WorkItem 2) (.new ⟨0⟩) crowded).1.filterMap submitted =
      [job 4 20, job 9 10] := by decide +kernel
  refine ⟨htaken, hsubmitted, ?_⟩
  rw [htaken, hsubmitted] at hbalance
  exact Multiset.add_right_inj.mp hbalance

end TwoPlaces

end LuxKernel.Scheduling
