import LuxKernel.Types
import LuxKernel.Heapless.Containers

namespace LuxKernel.Audit

open Heapless

inductive EventKind where
  | capabilityCheck
  | capabilityRevoked
  | resourceDeduction
  | topologyTraverse
  | topologyChange
  | hiringDecision
  | policyGateCheck
deriving DecidableEq, Repr

-- The `#[repr(u8)]` discriminants.
def EventKind.code : EventKind → UInt8
  | capabilityCheck => 0
  | capabilityRevoked => 1
  | resourceDeduction => 2
  | topologyTraverse => 3
  | topologyChange => 4
  | hiringDecision => 5
  | policyGateCheck => 6

inductive Outcome where
  | permitted
  | denied
deriving DecidableEq, Repr

def Outcome.code : Outcome → UInt8
  | permitted => 0
  | denied => 1

structure AuditEvent where
  kind : EventKind
  actor : UInt32
  seq : UInt64
  timestamp : UInt64
  outcome : Outcome
  denialClass : Option DenialClass
  denialReason : Option String
  hash : Digest
deriving DecidableEq

-- Timestamp of the events whose caller has no clock.
def UNTIMED : UInt64 := 0

def le32 (n : UInt32) : Bytes :=
  [n.toUInt8, (n >>> 8).toUInt8, (n >>> 16).toUInt8, (n >>> 24).toUInt8]

def le64 (n : UInt64) : Bytes :=
  [n.toUInt8, (n >>> 8).toUInt8, (n >>> 16).toUInt8, (n >>> 24).toUInt8,
    (n >>> 32).toUInt8, (n >>> 40).toUInt8, (n >>> 48).toUInt8, (n >>> 56).toUInt8]

def classByte : Option DenialClass → UInt8
  | none => 0
  | some .halt => 1
  | some .failure => 2

def computeHash [Sha256] (prev : Digest) (kind : EventKind) (actor : UInt32) (seq timestamp : UInt64)
    (outcome : Outcome) (denialClass : Option DenialClass) (denialReason : Option String) : Digest :=
  Sha256.digest (prev.toList ++ [kind.code] ++ le32 actor ++ le64 seq ++ le64 timestamp ++
    [outcome.code] ++ [classByte denialClass] ++
    denialReason.elim [] fun reason => reason.toUTF8.data.toList)

structure AuditLog where
  events : HVec AuditEvent MAX_AUDIT_EVENTS
  lastHash : Digest
  nextSeq : UInt64
deriving DecidableEq

namespace AuditLog

def new : AuditLog := ⟨HVec.empty, Vector.replicate 32 0, 0⟩

-- The event that `append` builds for the current end of the log.
def eventFor [Sha256] (log : AuditLog) (kind : EventKind) (actor : UInt32) (timestamp : UInt64)
    (denial : Option (DenialClass × String)) : AuditEvent :=
  let outcome := if denial.isSome then .denied else .permitted
  let denialClass := denial.map Prod.fst
  let denialReason := denial.map Prod.snd
  { kind := kind
    actor := actor
    seq := log.nextSeq
    timestamp := timestamp
    outcome := outcome
    denialClass := denialClass
    denialReason := denialReason
    hash := computeHash log.lastHash kind actor log.nextSeq timestamp outcome denialClass
      denialReason }

-- The flag is `false` when the log is full, and the log is then unchanged.
def append [Sha256] (log : AuditLog) (kind : EventKind) (actor : UInt32) (timestamp : UInt64)
    (denial : Option (DenialClass × String)) : Bool × AuditLog :=
  let event := log.eventFor kind actor timestamp denial
  match log.events.push event with
  | some events => (true, ⟨events, event.hash, saturatingSucc log.nextSeq⟩)
  | none => (false, log)

def isFull (log : AuditLog) : Bool := decide (log.events.length ≥ MAX_AUDIT_EVENTS)

theorem isFull_new : new.isFull = false := rfl

theorem isFull_iff {log : AuditLog} :
    log.isFull = true ↔ MAX_AUDIT_EVENTS ≤ log.events.toList.length := by
  rw [isFull, decide_eq_true_eq, HVec.length_eq]

variable [Sha256] {log : AuditLog} {kind : EventKind} {actor : UInt32} {timestamp : UInt64}
variable {denial : Option (DenialClass × String)}

theorem append_of_full (h : log.isFull = true) :
    log.append kind actor timestamp denial = (false, log) := by
  rw [append, HVec.push_eq_none_iff.mpr (isFull_iff.mp h)]

theorem append_of_room (kind : EventKind) (actor : UInt32) (timestamp : UInt64)
    (denial : Option (DenialClass × String)) (h : log.isFull = false) :
    ∃ events, events.toList = log.events.toList ++ [log.eventFor kind actor timestamp denial] ∧
      log.append kind actor timestamp denial =
        (true, ⟨events, (log.eventFor kind actor timestamp denial).hash,
          saturatingSucc log.nextSeq⟩) := by
  have hroom : log.events.toList.length < MAX_AUDIT_EVENTS := by
    rw [← Nat.not_le, ← isFull_iff, h]
    exact Bool.false_ne_true
  obtain ⟨events, hpush⟩ := Option.ne_none_iff_exists'.mp
    (mt (HVec.push_eq_none_iff (x := log.eventFor kind actor timestamp denial)).mp
      (Nat.not_le.mpr hroom))
  refine ⟨events, (HVec.push_eq_some_iff.mp hpush).2, ?_⟩
  rw [append, hpush]

theorem toList_append (log : AuditLog) (kind : EventKind) (actor : UInt32) (timestamp : UInt64)
    (denial : Option (DenialClass × String)) :
    (log.append kind actor timestamp denial).2.events.toList =
      (log.events.toList ++ [log.eventFor kind actor timestamp denial]).take MAX_AUDIT_EVENTS := by
  cases hfull : log.isFull with
  | true =>
      rw [append_of_full hfull, List.take_append_of_le_length (isFull_iff.mp hfull),
        List.take_of_length_le log.events.length_le]
  | false =>
      obtain ⟨events, hevents, happend⟩ := append_of_room kind actor timestamp denial hfull
      rw [happend, ← hevents, List.take_of_length_le events.length_le]

theorem append_fst : (log.append kind actor timestamp denial).1 = !log.isFull := by
  cases hfull : log.isFull with
  | true => rw [append_of_full hfull, Bool.not_true]
  | false =>
      obtain ⟨events, -, happend⟩ := append_of_room kind actor timestamp denial hfull
      rw [happend, Bool.not_false]

end AuditLog

-- `check`, `traverse` and their like: the verdict is logged, and an operation that
-- is permitted but cannot be logged is denied.
def gate [Sha256] (log : AuditLog) (kind : EventKind) (actor : UInt32) (result : Result Unit) :
    Result Unit × AuditLog :=
  let (appended, log) := log.append kind actor UNTIMED (denialOf result)
  if !appended && result.isOk then (.error .auditFull, log) else (result, log)

section Gate

variable [Sha256] {log : AuditLog} {kind : EventKind} {actor : UInt32} {result : Result Unit}

theorem gate_log : (gate log kind actor result).2 =
    (log.append kind actor UNTIMED (denialOf result)).2 := by
  unfold gate
  dsimp only
  split <;> rfl

theorem gate_error {e : Error} (h : result = .error e) :
    (gate log kind actor result).1 = .error e := by
  simp [gate, h, Except.isOk, Except.toBool]

theorem gate_of_full (h : result = .ok ()) (hfull : log.isFull = true) :
    (gate log kind actor result).1 = .error .auditFull := by
  simp [gate, h, AuditLog.append_fst, hfull, Except.isOk, Except.toBool]

theorem gate_of_room (h : result = .ok ()) (hfull : log.isFull = false) :
    (gate log kind actor result).1 = .ok () := by
  simp [gate, h, AuditLog.append_fst, hfull]

theorem gate_eq_ok : (gate log kind actor result).1 = .ok () ↔
    result = .ok () ∧ log.isFull = false := by
  cases h : result with
  | error e => simp [gate_error]
  | ok =>
      cases hf : log.isFull with
      | true => simp [gate_of_full, hf]
      | false => simp [gate_of_room, hf]

end Gate

end LuxKernel.Audit
