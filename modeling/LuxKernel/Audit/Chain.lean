import LuxKernel.Audit.Log
import LuxKernel.Crypto.HashChain

namespace LuxKernel.Audit

open Heapless Crypto

def GENESIS : Digest := Vector.replicate 32 0

-- The hash that `verify_chain` expects in an event.
def AuditEvent.expected [Sha256] (prev : Digest) (event : AuditEvent) : Digest :=
  computeHash prev event.kind event.actor event.seq event.timestamp event.outcome
    event.denialClass event.denialReason

namespace AuditLog

-- The loop of `verify_chain`.
def verifyFrom [Sha256] (prev : Digest) : List AuditEvent → Bool
  | [] => true
  | event :: rest =>
      if event.expected prev ≠ event.hash then false else verifyFrom event.hash rest

def verifyChain [Sha256] (log : AuditLog) : Bool := verifyFrom GENESIS log.events.toList

def len (log : AuditLog) : Nat := log.events.length

def headHash (log : AuditLog) : Digest := log.lastHash

end AuditLog

-- The arguments of a call of `append`.
structure Append where
  kind : EventKind
  actor : UInt32
  timestamp : UInt64
  denial : Option (DenialClass × String)
deriving DecidableEq

-- An event says three times whether it was a denial.
def AuditEvent.Consistent (event : AuditEvent) : Prop :=
  (event.outcome = .denied ↔ event.denialClass.isSome = true) ∧
    (event.outcome = .denied ↔ event.denialReason.isSome = true)

-- The parts of a log that `append` keeps in step with one another.
structure AuditLog.Linked [Sha256] (log : AuditLog) : Prop where
  verified : HashChain.Verified AuditEvent.expected AuditEvent.hash GENESIS log.events.toList
  head : log.lastHash = HashChain.head AuditEvent.hash GENESIS log.events.toList
  nextSeq : log.nextSeq.toNat = log.events.toList.length
  numbered : ∀ (i : Nat) (event : AuditEvent), log.events.toList[i]? = some event → event.seq.toNat = i
  consistent : ∀ event ∈ log.events.toList, event.Consistent

section

variable [Sha256]

theorem AuditLog.verifyFrom_iff (prev : Digest) (events : List AuditEvent) :
    verifyFrom prev events = true ↔
      HashChain.Verified AuditEvent.expected AuditEvent.hash prev events := by
  induction events generalizing prev with
  | nil => simp [verifyFrom, HashChain.Verified]
  | cons event rest ih =>
      rw [verifyFrom, HashChain.Verified, ← ih]
      by_cases h : event.expected prev = event.hash <;> simp [h]

def AuditLog.appendAll : List Append → AuditLog
  | [] => AuditLog.new
  | call :: earlier =>
      ((appendAll earlier).append call.kind call.actor call.timestamp call.denial).2

theorem AuditLog.linked_new : AuditLog.new.Linked where
  verified := trivial
  head := rfl
  nextSeq := rfl
  numbered i event h := by simp [AuditLog.new] at h
  consistent event h := by simp [AuditLog.new] at h

variable {log : AuditLog}

theorem AuditLog.Linked.append (h : log.Linked) (kind : EventKind) (actor : UInt32)
    (timestamp : UInt64) (denial : Option (DenialClass × String)) :
    (log.append kind actor timestamp denial).2.Linked := by
  cases hfull : log.isFull with
  | true =>
      rw [append_of_full hfull]
      exact h
  | false =>
      obtain ⟨events, hevents, happend⟩ := append_of_room kind actor timestamp denial hfull
      have hlen := events.length_le
      have hnext := h.nextSeq
      rw [happend]
      refine ⟨?_, ?_, ?_, fun i event hi => ?_, fun event hmem => ?_⟩
      · show HashChain.Verified _ _ _ events.toList
        rw [hevents, HashChain.verified_append_singleton, ← h.head]
        exact ⟨h.verified, rfl⟩
      · show _ = HashChain.head _ _ events.toList
        rw [hevents, HashChain.head_append_singleton]
      · show (saturatingSucc log.nextSeq).toNat = events.toList.length
        rw [hevents, List.length_append, List.length_singleton] at hlen ⊢
        have hsize : MAX_AUDIT_EVENTS < UInt64.size := by decide
        rw [toNat_saturatingSucc (by omega), hnext]
      · change events.toList[i]? = some event at hi
        rw [hevents, List.getElem?_append] at hi
        split at hi
        · exact h.numbered i event hi
        · rename_i hge
          -- The new event is the only one past the old end.
          obtain ⟨hlt, rfl⟩ := List.getElem?_eq_some_iff.mp hi
          rw [List.length_singleton] at hlt
          simp only [List.getElem_singleton]
          show log.nextSeq.toNat = i
          omega
      · change event ∈ events.toList at hmem
        rw [hevents, List.mem_append, List.mem_singleton] at hmem
        rcases hmem with hold | rfl
        · exact h.consistent event hold
        · cases denial <;> simp [AuditEvent.Consistent, eventFor]

theorem AuditLog.linked_appendAll (calls : List Append) : (appendAll calls).Linked := by
  induction calls with
  | nil => exact linked_new
  | cons call earlier ih => exact ih.append call.kind call.actor call.timestamp call.denial

theorem AuditLog.events_append (log : AuditLog) (kind : EventKind) (actor : UInt32)
    (timestamp : UInt64) (denial : Option (DenialClass × String)) :
    log.events.toList <+: (log.append kind actor timestamp denial).2.events.toList := by
  rw [toList_append, List.prefix_take_iff]
  exact ⟨List.prefix_append _ _, log.events.length_le⟩

theorem AuditLog.events_appendAll (later earlier : List Append) :
    (appendAll earlier).events.toList <+: (appendAll (later ++ earlier)).events.toList := by
  induction later with
  | nil => exact List.prefix_rfl
  | cons call rest ih => exact ih.trans (events_append _ _ _ _ _)

theorem AuditLog.append_eq_false (log : AuditLog) (kind : EventKind) (actor : UInt32)
    (timestamp : UInt64) (denial : Option (DenialClass × String)) :
    (log.append kind actor timestamp denial).1 = false ↔ log.len = MAX_AUDIT_EVENTS := by
  rw [append_fst, Bool.not_eq_false_eq_eq_true, isFull_iff, len, HVec.length_eq]
  have hlen := log.events.length_le
  omega

-- A call that returns `true` has added its event, and no other.
theorem AuditLog.append_eq_true {log : AuditLog} {kind : EventKind} {actor : UInt32}
    {timestamp : UInt64} {denial : Option (DenialClass × String)}
    (h : (log.append kind actor timestamp denial).1 = true) :
    (log.append kind actor timestamp denial).2.events.toList =
      log.events.toList ++ [log.eventFor kind actor timestamp denial] := by
  rw [append_fst, Bool.not_eq_true'] at h
  obtain ⟨events, hevents, happend⟩ := append_of_room kind actor timestamp denial h
  rw [happend, hevents]

-- What the events of a log say is what the calls said that found room.
theorem AuditLog.map_appendAll {α : Type} (view : AuditEvent → α) (said : Append → α)
    (hview : ∀ (log : AuditLog) (call : Append),
      view (log.eventFor call.kind call.actor call.timestamp call.denial) = said call)
    (calls : List Append) :
    (appendAll calls).events.toList.map view =
      (calls.reverse.take MAX_AUDIT_EVENTS).map said := by
  induction calls with
  | nil => rfl
  | cons call earlier ih =>
      rw [appendAll, toList_append, List.map_take, List.map_append, ih, List.map_singleton, hview,
        List.map_take, take_take_append, List.reverse_cons, List.map_take, List.map_append,
        List.map_singleton]

theorem AuditLog.len_appendAll (calls : List Append) :
    (appendAll calls).len = min calls.length MAX_AUDIT_EVENTS := by
  have hlen := congrArg List.length (map_appendAll (fun _ => ()) (fun _ => ()) (fun _ _ => rfl) calls)
  rw [List.length_map, List.length_map, List.length_take, List.length_reverse] at hlen
  rw [len, HVec.length_eq, hlen, Nat.min_comm]

theorem AuditLog.isFull_appendAll (calls : List Append) :
    (appendAll calls).isFull = decide (MAX_AUDIT_EVENTS ≤ calls.length) := by
  have hfull : (appendAll calls).isFull = decide (MAX_AUDIT_EVENTS ≤ (appendAll calls).len) := rfl
  rw [hfull, len_appendAll, decide_eq_decide]
  omega

-- A call that finds no room leaves no trace.
theorem AuditLog.appendAll_cons_of_full {calls : List Append}
    (h : MAX_AUDIT_EVENTS ≤ calls.length) (call : Append) :
    appendAll (call :: calls) = appendAll calls := by
  have hfull : (appendAll calls).isFull = true := by rw [isFull_appendAll, decide_eq_true h]
  rw [appendAll, append_of_full hfull]

-- What holds of a log after any calls of `append`, listed latest first, and of the
-- next call.
theorem append_invariant (calls : List Append) :
    (AuditLog.appendAll calls).verifyChain = true ∧
    (∀ (i : Nat) (event : AuditEvent),
      (AuditLog.appendAll calls).events.toList[i]? = some event → event.seq.toNat = i) ∧
    (AuditLog.appendAll calls).len ≤ MAX_AUDIT_EVENTS ∧
    (AuditLog.appendAll calls).headHash =
      ((AuditLog.appendAll calls).events.toList.getLast?.map AuditEvent.hash).getD
        (Vector.replicate 32 0) ∧
    (∀ event ∈ (AuditLog.appendAll calls).events.toList,
      (event.outcome = .denied ↔ event.denialClass.isSome = true) ∧
      (event.outcome = .denied ↔ event.denialReason.isSome = true)) ∧
    (∀ kind actor timestamp denial,
      (((AuditLog.appendAll calls).append kind actor timestamp denial).1 = false ↔
        (AuditLog.appendAll calls).len = MAX_AUDIT_EVENTS) ∧
      (((AuditLog.appendAll calls).append kind actor timestamp denial).1 = false →
        ((AuditLog.appendAll calls).append kind actor timestamp denial).2 =
          AuditLog.appendAll calls) ∧
      (((AuditLog.appendAll calls).append kind actor timestamp denial).1 = true →
        ∃ event, ((AuditLog.appendAll calls).append kind actor timestamp denial).2.events.toList =
            (AuditLog.appendAll calls).events.toList ++ [event] ∧
          event.kind = kind ∧ event.actor = actor ∧ event.timestamp = timestamp ∧
          event.denialClass = denial.map Prod.fst ∧ event.denialReason = denial.map Prod.snd)) ∧
    (∀ later, (AuditLog.appendAll calls).events.toList <+:
      (AuditLog.appendAll (later ++ calls)).events.toList) := by
  have hlinked := AuditLog.linked_appendAll calls
  refine ⟨?_, hlinked.numbered, ?_, ?_, hlinked.consistent, fun kind actor timestamp denial => ?_,
    fun later => AuditLog.events_appendAll later calls⟩
  · exact (AuditLog.verifyFrom_iff _ _).mpr hlinked.verified
  · exact (AuditLog.appendAll calls).events.length_le
  · exact hlinked.head.trans (HashChain.head_eq _ _ _)
  · refine ⟨AuditLog.append_eq_false _ _ _ _ _, fun hfalse => ?_, fun htrue => ?_⟩
    · rw [AuditLog.append_fst, Bool.not_eq_false_eq_eq_true] at hfalse
      rw [AuditLog.append_of_full hfalse]
    · exact ⟨_, AuditLog.append_eq_true htrue, rfl, rfl, rfl, rfl, rfl⟩

end

end LuxKernel.Audit
