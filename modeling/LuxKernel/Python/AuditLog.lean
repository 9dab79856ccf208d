import LuxKernel.Audit.Export
import LuxKernel.Python.PolicyGate

namespace LuxKernel.Python

open Audit Formats

def KNOWN_REASONS : List String :=
  ["protected attribute in feature vector", "aliased protected attribute in feature vector",
    "unapproved feature in feature vector", "policy violation"]

def mapDenialReason (s : String) : String :=
  (KNOWN_REASONS.find? fun k => decide (k = s)).getD "policy violation"

-- `debug` is `{:?}` for a string.
def parseKind (debug : String → String) (s : String) : Except PyError EventKind :=
  match s with
  | "hiring_decision" => .ok .hiringDecision
  | "policy_gate_check" => .ok .policyGateCheck
  | "capability_check" => .ok .capabilityCheck
  | "cap_revoked" => .ok .capabilityRevoked
  | "resource_deduct" => .ok .resourceDeduction
  | "topo_traverse" => .ok .topologyTraverse
  | "topo_change" => .ok .topologyChange
  | other => .error (.valueError ("unknown EventKind " ++ debug other ++
      "; accepted: hiring_decision, policy_gate_check, capability_check, cap_revoked, " ++
      "resource_deduct, topo_traverse, topo_change"))

def parseDenialClass (debug : String → String) (s : String) : Except PyError DenialClass :=
  match s with
  | "halt" => .ok .halt
  | "failure" => .ok .failure
  | other => .error (.valueError ("unknown DenialClass " ++ debug other ++
      "; use \"halt\" or \"failure\""))

-- The arguments of `PyAuditLog.append`.
structure Record where
  kind : String
  actor : UInt64
  timestamp : UInt64
  denialClass : Option String
  denialReason : Option String
deriving DecidableEq, Repr

-- `u32::try_from(actor).unwrap_or(u32::MAX)`.
def actorOf (actor : UInt64) : UInt32 :=
  if actor.toNat < UInt32.size then actor.toUInt32 else 0xffffffff

-- A reason without a class is dropped.
def denialOf (debug : String → String) (denialClass denialReason : Option String) :
    Except PyError (Option (DenialClass × String)) :=
  match denialClass with
  | none => .ok none
  | some clsStr => do
      let cls ← parseDenialClass debug clsStr
      return some (cls, denialReason.elim "policy violation" mapDenialReason)

-- The call of the kernel's `append` that a record turns into.
def Record.call (debug : String → String) (record : Record) : Except PyError Append := do
  let kind ← parseKind debug record.kind
  let denial ← denialOf debug record.denialClass record.denialReason
  return ⟨kind, actorOf record.actor, record.timestamp, denial⟩

structure PyAuditLog where
  inner : AuditLog
deriving DecidableEq

namespace PyAuditLog

def new : PyAuditLog := ⟨AuditLog.new⟩

def exportJson (log : PyAuditLog) : String := log.inner.exportJson

def headHash (log : PyAuditLog) : String := hexStr log.inner.headHash

def hashes (log : PyAuditLog) : List Digest := log.inner.events.toList.map AuditEvent.hash

variable [Sha256]

def append (debug : String → String) (log : PyAuditLog) (record : Record) :
    Except PyError (Bool × PyAuditLog) := do
  let call ← record.call debug
  let (appended, inner) := log.inner.append call.kind call.actor call.timestamp call.denial
  return (appended, ⟨inner⟩)

-- A sequence of calls of `append`, as long as they all return `True`.
def appendAll (debug : String → String) (log : PyAuditLog) : List Record → Option PyAuditLog
  | [] => some log
  | record :: rest =>
      match log.append debug record with
      | .ok (true, log) => log.appendAll debug rest
      | _ => none

end PyAuditLog

-- Reading an export back: `json.loads`, and the five keys of each record. Python keeps
-- the last of several values of a key.
def field (members : List (String × Json)) (name : String) : Option Json :=
  (Json.valuesOf members name).getLast?

def stringOf : Json → Option String
  | .string s => some s
  | _ => none

def u64Of : Json → Option UInt64
  | .number (.ofNat n) 0 => if n < UInt64.size then some (UInt64.ofNat n) else none
  | _ => none

def optionalOf : Json → Option (Option String)
  | .null => some none
  | .string s => some (some s)
  | _ => none

def recordOf : Json → Option Record
  | .object members => do
      let kind ← (field members "kind").bind stringOf
      let actor ← (field members "actor").bind u64Of
      let ts ← (field members "ts").bind u64Of
      let cls ← (field members "class").bind optionalOf
      let reason ← (field members "reason").bind optionalOf
      return ⟨kind, actor, ts, cls, reason⟩
  | _ => none

def recordsOf (text : String) : Option (List Record) :=
  match Json.parse text with
  | some (.array objects) => objects.mapM recordOf
  | _ => none

-- What an event is exported as.
def exported (event : AuditEvent) : Record :=
  ⟨event.kindStr, event.actor.toUInt64, event.timestamp, event.denialClassStr, event.denialReason⟩

section Reading

theorem u64Of_nat {n : Nat} (h : n < UInt64.size) :
    u64Of (.number n 0) = some (UInt64.ofNat n) := if_pos h

theorem optionalOf_elim (s : Option String) : optionalOf (s.elim .null .string) = some s := by
  cases s <;> rfl

theorem recordOf_toJson (event : AuditEvent) : recordOf event.toJson = some (exported event) := by
  have hfields : ∀ name value, (name, value) ∈ event.header ++ [("reason", event.reasonJson)] →
      field (event.header ++ [("reason", event.reasonJson), ("hash", .string (hexStr event.hash))])
        name = some value := by
    intro name value hmem
    rw [field, describes_toJson event (name, value) hmem]
    rfl
  have hkind := hfields "kind" (.string event.kindStr) (by simp [AuditEvent.header])
  have hactorField := hfields "actor" (.number event.actor.toNat 0) (by simp [AuditEvent.header])
  have hts := hfields "ts" (.number event.timestamp.toNat 0) (by simp [AuditEvent.header])
  have hclass := hfields "class" (event.denialClassStr.elim .null .string)
    (by simp [AuditEvent.header])
  have hreason := hfields "reason" event.reasonJson (by simp)
  have hoptional : optionalOf event.reasonJson = some event.denialReason := optionalOf_elim _
  have hsmall : event.actor.toNat < UInt64.size :=
    Nat.lt_trans event.actor.toNat_lt (by decide)
  unfold recordOf AuditEvent.toJson
  simp only [hkind, hactorField, hts, hclass, hreason, Option.bind_some, stringOf, u64Of_nat hsmall,
    u64Of_nat event.timestamp.toNat_lt_size, optionalOf_elim, hoptional]
  rw [UInt64.ofNat_toNat, UInt64.ofNat_uInt32ToNat]
  rfl

theorem mapM_recordOf (events : List AuditEvent) :
    (events.map AuditEvent.toJson).mapM recordOf = some (events.map exported) := by
  induction events with
  | nil => rfl
  | cons event rest ih =>
      rw [List.map_cons, List.mapM_cons, recordOf_toJson, ih]
      rfl

end Reading

section Parsing

variable {debug : String → String} {record : Record} {call : Append}

theorem mapDenialReason_mem (s : String) : mapDenialReason s ∈ KNOWN_REASONS := by
  unfold mapDenialReason
  cases hfind : KNOWN_REASONS.find? fun k => decide (k = s) with
  | none => decide
  | some k => exact List.mem_of_find?_eq_some hfind

theorem mapDenialReason_of_mem {s : String} (h : s ∈ KNOWN_REASONS) : mapDenialReason s = s := by
  unfold mapDenialReason
  cases hfind : KNOWN_REASONS.find? fun k => decide (k = s) with
  | none => simpa using List.find?_eq_none.mp hfind s h
  | some k => simpa using List.find?_some hfind

theorem parseKind_capabilityCheck {s : String} {kind : EventKind}
    (h : parseKind debug s = .ok kind) : kind = .capabilityCheck ↔ s = "capability_check" := by
  unfold parseKind at h
  split at h
  all_goals first
    | cases h
      decide
    | cases h

theorem denial_known {cls reason : Option String} {denial : Option (DenialClass × String)}
    (h : denialOf debug cls reason = .ok denial) : ∀ d ∈ denial, d.2 ∈ KNOWN_REASONS := by
  intro d hd
  cases cls with
  | none =>
      obtain rfl := Except.ok.inj h
      cases hd
  | some clsStr =>
      obtain ⟨parsed, -, hreturn⟩ := bind_eq_ok.mp h
      obtain rfl := Except.ok.inj hreturn
      obtain rfl := Option.some.inj hd
      cases reason with
      | none => exact List.mem_of_getLast? rfl
      | some reason => exact mapDenialReason_mem reason

-- A call that came from a record: its kind is the record's, and its reason is one of
-- the table.
theorem call_spec (h : record.call debug = .ok call) :
    (call.kind = .capabilityCheck ↔ record.kind = "capability_check") ∧
      ∀ denial ∈ call.denial, denial.2 ∈ KNOWN_REASONS := by
  obtain ⟨kind, hkind, h⟩ := bind_eq_ok.mp h
  obtain ⟨denial, hdenial, h⟩ := bind_eq_ok.mp h
  obtain rfl := Except.ok.inj h
  exact ⟨parseKind_capabilityCheck hkind, denial_known hdenial⟩

-- The calls that a list of records turns into.
abbrev Yields (debug : String → String) (records : List Record) (calls : List Append) : Prop :=
  List.Forall₂ (fun record call => record.call debug = .ok call) records calls

theorem yields_spec {records : List Record} {calls : List Append} (h : Yields debug records calls) :
    (∀ call ∈ calls, ∀ denial ∈ call.denial, denial.2 ∈ KNOWN_REASONS) ∧
      ((∀ call ∈ calls, call.kind ≠ .capabilityCheck) ↔
        ∀ record ∈ records, record.kind ≠ "capability_check") := by
  induction h with
  | nil => simp
  | cons hcall _ ih =>
      obtain ⟨hkind, hreasons⟩ := call_spec hcall
      simp only [List.forall_mem_cons]
      exact ⟨⟨hreasons, ih.1⟩, and_congr (not_congr hkind) ih.2⟩

theorem actorOf_toUInt64 (actor : UInt32) : actorOf actor.toUInt64 = actor := by
  have hsmall : actor.toUInt64.toNat < UInt32.size := by
    rw [UInt32.toNat_toUInt64]
    exact actor.toNat_lt_size
  rw [actorOf, if_pos hsmall, UInt32.toUInt32_toUInt64]

variable [Sha256]

-- The record that the event of a call is exported as.
def said (call : Append) : Record :=
  exported (AuditLog.new.eventFor call.kind call.actor call.timestamp call.denial)

-- The exporter writes one kind under a name that `parse_kind` does not know.
theorem parseKind_said (call : Append) : parseKind debug (said call).kind =
    if call.kind = .capabilityCheck then parseKind debug "cap_check" else .ok call.kind := by
  obtain ⟨kind, actor, timestamp, denial⟩ := call
  cases kind <;> rfl

theorem denialOf_said (h : ∀ denial ∈ call.denial, denial.2 ∈ KNOWN_REASONS) :
    denialOf debug (said call).denialClass (said call).denialReason = .ok call.denial := by
  obtain ⟨kind, actor, timestamp, denial⟩ := call
  cases denial with
  | none => rfl
  | some denial =>
      obtain ⟨cls, reason⟩ := denial
      have hreason := mapDenialReason_of_mem (h (cls, reason) rfl)
      cases cls <;> simp [said, exported, AuditEvent.denialClassStr, AuditLog.eventFor, denialOf,
        parseDenialClass, hreason]

theorem call_said (h : ∀ denial ∈ call.denial, denial.2 ∈ KNOWN_REASONS) {other : Append} :
    (said call).call debug = .ok other ↔ call.kind ≠ .capabilityCheck ∧ other = call := by
  unfold Record.call
  rw [parseKind_said, denialOf_said h]
  split
  · rename_i hkind
    refine iff_of_false (fun hok => ?_) fun hne => hne.1 hkind
    cases hok
  · rename_i hkind
    have hactor : actorOf (said call).actor = call.actor := actorOf_toUInt64 call.actor
    rw [hactor]
    constructor
    · exact fun hok => ⟨hkind, (Except.ok.inj hok).symm⟩
    · rintro ⟨-, rfl⟩
      rfl

end Parsing

section Replay

variable [Sha256] {debug : String → String} {records : List Record} {log : PyAuditLog}

theorem append_eq_ok {record : Record} {log' : PyAuditLog} :
    log.append debug record = .ok (true, log') ↔ ∃ call, record.call debug = .ok call ∧
      log.inner.isFull = false ∧
        log'.inner = (log.inner.append call.kind call.actor call.timestamp call.denial).2 := by
  unfold PyAuditLog.append
  constructor
  · intro h
    obtain ⟨call, hcall, h⟩ := bind_eq_ok.mp h
    have hpair : ((log.inner.append call.kind call.actor call.timestamp call.denial).1,
        PyAuditLog.mk (log.inner.append call.kind call.actor call.timestamp call.denial).2) =
          (true, log') := Except.ok.inj h
    obtain ⟨happended, hlog⟩ := Prod.mk.inj hpair
    rw [AuditLog.append_fst, Bool.not_eq_true'] at happended
    exact ⟨call, hcall, happended, by rw [← hlog]⟩
  · rintro ⟨call, hcall, hroom, hinner⟩
    refine bind_eq_ok.mpr ⟨call, hcall, congrArg Except.ok (Prod.ext ?_ ?_)⟩
    · show (log.inner.append _ _ _ _).1 = true
      rw [AuditLog.append_fst, hroom, Bool.not_false]
    · exact congrArg PyAuditLog.mk hinner.symm

-- The records that are appended, and the calls of the kernel that they turn into. `done`
-- are the calls so far, latest first.
theorem appendAll_eq_some {done : List Append} (hdone : done.length ≤ MAX_AUDIT_EVENTS) :
    PyAuditLog.appendAll debug ⟨AuditLog.appendAll done⟩ records = some log ↔
      ∃ calls, Yields debug records calls ∧
        done.length + calls.length ≤ MAX_AUDIT_EVENTS ∧
        log.inner = AuditLog.appendAll (calls.reverse ++ done) := by
  have hfull : ∀ done : List Append, (AuditLog.appendAll done).isFull = false ↔
      done.length < MAX_AUDIT_EVENTS := by
    intro done
    have hlen := AuditLog.len_appendAll done
    rw [← Bool.not_eq_true, AuditLog.isFull_iff]
    change (AuditLog.appendAll done).events.toList.length = _ at hlen
    omega
  induction records generalizing done with
  | nil =>
      constructor
      · intro h
        obtain rfl := Option.some.inj h
        exact ⟨[], .nil, hdone, rfl⟩
      · rintro ⟨calls, hcalls, -, hinner⟩
        obtain rfl := List.forall₂_nil_left_iff.mp hcalls
        exact congrArg some (congrArg PyAuditLog.mk hinner.symm)
  | cons record rest ih =>
      rw [PyAuditLog.appendAll]
      constructor
      · intro h
        split at h
        · rename_i next hnext
          obtain ⟨call, hcall, hroom, hinner⟩ := append_eq_ok.mp hnext
          obtain rfl : next = ⟨AuditLog.appendAll (call :: done)⟩ := congrArg PyAuditLog.mk hinner
          have hlen : (call :: done).length ≤ MAX_AUDIT_EVENTS := (hfull done).mp hroom
          obtain ⟨calls, hcalls, hlength, hlog⟩ := (ih hlen).mp h
          refine ⟨call :: calls, .cons hcall hcalls, ?_, ?_⟩
          · rw [List.length_cons] at hlength ⊢
            omega
          · rw [hlog, List.reverse_cons, List.append_assoc, List.singleton_append]
        · cases h
      · rintro ⟨calls, hcalls, hlength, hlog⟩
        obtain ⟨call, later, hcall, hlater, rfl⟩ := List.forall₂_cons_left_iff.mp hcalls
        rw [List.length_cons] at hlength
        have hroom : done.length < MAX_AUDIT_EVENTS := by omega
        have hlen : (call :: done).length ≤ MAX_AUDIT_EVENTS := hroom
        have hnext : PyAuditLog.append debug ⟨AuditLog.appendAll done⟩ record =
            .ok (true, ⟨AuditLog.appendAll (call :: done)⟩) :=
          append_eq_ok.mpr ⟨call, hcall, (hfull done).mpr hroom, rfl⟩
        rw [hnext]
        refine (ih hlen).mpr ⟨later, hlater, ?_, ?_⟩
        · rw [List.length_cons]
          omega
        · rw [hlog, List.reverse_cons, List.append_assoc, List.singleton_append]

theorem appendAll_new : PyAuditLog.new.appendAll debug records = some log ↔
    ∃ calls, Yields debug records calls ∧
      calls.length ≤ MAX_AUDIT_EVENTS ∧ log.inner = AuditLog.appendAll calls.reverse := by
  show PyAuditLog.appendAll debug ⟨AuditLog.appendAll []⟩ records = some log ↔ _
  rw [appendAll_eq_some (Nat.zero_le _)]
  simp only [List.length_nil, Nat.zero_add, List.append_nil]

theorem yields_said {calls others : List Append}
    (hknown : ∀ call ∈ calls, ∀ denial ∈ call.denial, denial.2 ∈ KNOWN_REASONS) :
    Yields debug (calls.map said) others ↔
      (∀ call ∈ calls, call.kind ≠ .capabilityCheck) ∧ others = calls := by
  induction calls generalizing others with
  | nil => simp
  | cons call rest ih =>
      rw [List.forall_mem_cons] at hknown ⊢
      rw [List.map_cons, Yields, List.forall₂_cons_left_iff]
      constructor
      · rintro ⟨first, later, hfirst, hlater, rfl⟩
        obtain ⟨hkind, rfl⟩ := (call_said hknown.1).mp hfirst
        obtain ⟨hkinds, rfl⟩ := (ih hknown.2).mp hlater
        exact ⟨⟨hkind, hkinds⟩, rfl⟩
      · rintro ⟨⟨hkind, hkinds⟩, rfl⟩
        exact ⟨call, rest, (call_said hknown.1).mpr ⟨hkind, rfl⟩,
          (ih hknown.2).mpr ⟨hkinds, rfl⟩, rfl⟩

-- The export of a log that the calls built gives these calls back.
theorem recordsOf_exportJson {calls : List Append} (hlength : calls.length ≤ MAX_AUDIT_EVENTS)
    (hknown : ∀ call ∈ calls, ∀ denial ∈ call.denial, denial.2 ∈ KNOWN_REASONS)
    (hlog : log.inner = AuditLog.appendAll calls.reverse) :
    recordsOf log.exportJson = some (calls.map said) := by
  have hsaid : log.inner.events.toList.map exported = calls.map said := by
    rw [hlog, AuditLog.map_appendAll exported said (fun _ _ => rfl), List.reverse_reverse,
      List.take_of_length_le hlength]
  have hconsistent : ∀ event ∈ log.inner.events.toList, event.Consistent := by
    rw [hlog]
    exact (AuditLog.linked_appendAll _).consistent
  have hplain : ∀ event ∈ log.inner.events.toList, event.PlainReason := by
    rw [hlog, plainReason_appendAll, List.reverse_reverse]
    intro call hcall denial hdenial
    have hreasons : ∀ reason ∈ KNOWN_REASONS, Json.Plain reason := by decide +kernel
    exact hreasons _ (hknown call (List.mem_of_mem_take hcall) denial hdenial)
  rw [recordsOf, PyAuditLog.exportJson, parse_exportJson hconsistent hplain]
  dsimp only
  rw [mapM_recordOf, hsaid]

-- An export can be replayed exactly when it holds no capability check: the exporter calls
-- it `cap_check`, and `append` knows only `capability_check`.
theorem replay_iff (debug : String → String) (records : List Record) (log : PyAuditLog)
    (hlog : PyAuditLog.new.appendAll debug records = some log) :
    (∃ replayed copy, recordsOf log.exportJson = some replayed ∧
      PyAuditLog.new.appendAll debug replayed = some copy ∧ copy.hashes = log.hashes ∧
        copy.headHash = log.headHash) ↔
      ∀ record ∈ records, record.kind ≠ "capability_check" := by
  obtain ⟨calls, hcalls, hlength, hinner⟩ := appendAll_new.mp hlog
  obtain ⟨hknown, hkinds⟩ := yields_spec hcalls
  have hexport := recordsOf_exportJson hlength hknown hinner
  constructor
  · rintro ⟨replayed, copy, hreplayed, hcopy, -, -⟩
    rw [hexport] at hreplayed
    obtain rfl := Option.some.inj hreplayed
    obtain ⟨others, hothers, -, -⟩ := appendAll_new.mp hcopy
    exact hkinds.mp ((yields_said hknown).mp hothers).1
  · intro hrecords
    have hreplay : Yields debug (calls.map said) calls :=
      (yields_said hknown).mpr ⟨hkinds.mpr hrecords, rfl⟩
    exact ⟨calls.map said, log, hexport, appendAll_new.mpr ⟨calls, hreplay, hlength, hinner⟩, rfl,
      rfl⟩

end Replay

section Labels

attribute [local instance] Sha256.zero

-- `{:?}` for strings without anything to escape.
def quoted (s : String) : String := "\"" ++ s ++ "\""

def refusal : Record :=
  ⟨"hiring_decision", 7, 5, some "halt", some "unapproved feature in feature vector"⟩

def refusalLog : PyAuditLog :=
  ⟨AuditLog.appendAll [⟨.hiringDecision, 7, 5, some (.halt, "unapproved feature in feature vector")⟩]⟩

theorem replay_iff_refusal :
    ∃ replayed copy, recordsOf refusalLog.exportJson = some replayed ∧
      PyAuditLog.new.appendAll quoted replayed = some copy ∧ copy.hashes = refusalLog.hashes ∧
        copy.headHash = refusalLog.headHash := by
  have hlog : PyAuditLog.new.appendAll quoted [refusal] = some refusalLog := by decide +kernel
  exact (replay_iff quoted [refusal] refusalLog hlog).mpr (by decide)

def checkLog : PyAuditLog := ⟨AuditLog.appendAll [⟨.capabilityCheck, 1, 0, none⟩]⟩

-- Accepted as `capability_check`, exported as `cap_check`, and refused under that name.
theorem exported_check_refused :
    PyAuditLog.new.appendAll quoted [⟨"capability_check", 1, 0, none, none⟩] = some checkLog ∧
      recordsOf checkLog.exportJson = some [⟨"cap_check", 1, 0, none, none⟩] ∧
      PyAuditLog.new.append quoted ⟨"cap_check", 1, 0, none, none⟩ = .error (.valueError
        ("unknown EventKind \"cap_check\"; accepted: hiring_decision, policy_gate_check, " ++
          "capability_check, cap_revoked, resource_deduct, topo_traverse, topo_change")) := by
  have hlog : checkLog.inner = AuditLog.appendAll [⟨.capabilityCheck, 1, 0, none⟩].reverse := rfl
  refine ⟨by decide +kernel, ?_, by decide +kernel⟩
  exact recordsOf_exportJson (by decide) (by simp) hlog

end Labels

end LuxKernel.Python
