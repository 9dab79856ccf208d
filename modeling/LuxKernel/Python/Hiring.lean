import LuxKernel.Python.AuditLog
import LuxKernel.Formats.Binary64

namespace LuxKernel.Python.Hiring

open Audit Formats

-- What `append` raises: an error of the kernel, or one of the two overflow errors for an
-- integer that is no `u64`.
inductive Raised where
  | kernel (error : PyError)
  | negative
  | tooBig
deriving DecidableEq, Repr

-- What the two languages supply: formatting, lowercasing, rounding to six places, the
-- text of a time and the text of an exception.
structure Host where
  debug : String → String
  toLowercase : String → String
  lower : String → String
  roundSix : Binary64 → Binary64
  isoformat : UInt64 → String
  describe : Raised → String

structure AuditEntry where
  seq : Nat
  candidateId : Int
  decision : String
  confidence : Binary64
  policyAllowed : Bool
  policyReason : String
  timestampNs : UInt64
  timestampIso : String
  entryHash : String
deriving DecidableEq, Repr

-- The wrapper: the kernel's log, and the entries of the report.
structure AuditLog where
  inner : PyAuditLog
  domain : List AuditEntry

structure Decision where
  candidateId : Int
  decision : String
  hireProbability : Binary64
  featuresUsed : List String
deriving DecidableEq, Repr

-- A Python integer that the binding takes as a `u64`.
def Representable (n : Int) : Prop := 0 ≤ n ∧ n.toNat < UInt64.size

instance (n : Int) : Decidable (Representable n) := inferInstanceAs (Decidable (_ ∧ _))

def u64Argument (n : Int) : Except Raised UInt64 :=
  if n < 0 then .error .negative
  else if UInt64.size ≤ n.toNat then .error .tooBig
  else .ok (UInt64.ofNat n.toNat)

theorem u64Argument_of_representable {n : Int} (h : Representable n) :
    u64Argument n = .ok (UInt64.ofNat n.toNat) := by
  rw [u64Argument, if_neg (Int.not_lt.mpr h.1), if_neg (Nat.not_le.mpr h.2)]

theorem u64Argument_of_not_representable {n : Int} (h : ¬Representable n) :
    ∃ e, u64Argument n = .error e := by
  unfold u64Argument
  split_ifs with hneg hbig
  · exact ⟨_, rfl⟩
  · exact ⟨_, rfl⟩
  · exact absurd ⟨Int.not_lt.mp hneg, Nat.not_le.mp hbig⟩ h

def noHash : String := String.ofList (List.replicate 64 '0')

-- `kernel_events[-1]["hash"]` of the export.
def latestHash (text : String) : String :=
  match Json.parse text with
  | some (.array events) =>
      match events.getLast? with
      | some (.object members) => ((field members "hash").bind stringOf).getD noHash
      | _ => noHash
  | _ => noHash

section Model

variable [Sha256] (host : Host)

def AuditLog.new : AuditLog := ⟨PyAuditLog.new, []⟩

-- The entry of the report for a decision that the kernel's log has taken in.
def entryOf (log : AuditLog) (inner : PyAuditLog) (now : UInt64) (candidateId : Int)
    (decision : String) (confidence : Binary64) (policyAllowed : Bool) (policyReason : String) :
    AuditEntry :=
  { seq := log.domain.length + 1
    candidateId := candidateId
    decision := decision
    confidence := host.roundSix confidence
    policyAllowed := policyAllowed
    policyReason := policyReason
    timestampNs := now
    timestampIso := host.isoformat now
    entryHash := latestHash inner.exportJson }

def AuditLog.append (log : AuditLog) (now : UInt64) (candidateId : Int) (decision : String)
    (confidence : Binary64) (policyAllowed : Bool) (policyReason : String) :
    Except Raised (Bool × AuditLog) := do
  let denialClass := if policyAllowed then none else some "halt"
  let denialReason := if policyAllowed then none else some policyReason
  let actor ← u64Argument candidateId
  match log.inner.append host.debug ⟨"hiring_decision", actor, now, denialClass, denialReason⟩ with
  | .error e => .error (.kernel e)
  | .ok (false, inner) => return (false, ⟨inner, log.domain⟩)
  | .ok (true, inner) =>
      let entry := entryOf host log inner now candidateId decision confidence policyAllowed
        policyReason
      return (true, ⟨inner, log.domain ++ [entry]⟩)

-- The state of the loop in step 2 of `run_phase2`.
structure Step2 where
  gate : PolicyGate
  log : AuditLog
  gateResults : List PolicyResult
  appendFailures : Nat
  errors : List String

def Step2.start (gate : PolicyGate) : Step2 := ⟨gate, .new, [], 0, []⟩

-- One turn of the loop. The gate has counted its check before `append` can raise.
def Step2.process (state : Step2) (now : UInt64) (d : Decision) : Step2 :=
  let (result, gate) := state.gate.check host.toLowercase host.lower d.featuresUsed
  let judged := { state with gate := gate, gateResults := state.gateResults ++ [result] }
  match judged.log.append host now d.candidateId d.decision d.hireProbability result.allowed
      result.reason with
  | .ok (true, log) => { judged with log := log }
  | .ok (false, log) =>
      { judged with
        log := log
        appendFailures := judged.appendFailures + 1
        errors := judged.errors ++ ["Audit log full at candidate " ++ toString d.candidateId] }
  | .error e =>
      { judged with
        errors := judged.errors ++ ["[FAIL] Gate/audit for candidate " ++ toString d.candidateId ++
          ": " ++ host.describe e] }

-- Step 2, the loop, with what the clock shows at each turn. The exports and the bias
-- tests of the later steps, which may add errors of their own, are no part of it.
def step2 (gate : PolicyGate) (work : List (UInt64 × Decision)) : Step2 :=
  work.foldl (fun state item => state.process host item.1 item.2) (.start gate)

end Model

-- An entry of the report and the kernel's event for it.
structure Reports (entry : AuditEntry) (event : AuditEvent) : Prop where
  kind : event.kind = .hiringDecision
  actor : event.actor = actorOf (UInt64.ofNat entry.candidateId.toNat)
  timestamp : event.timestamp = entry.timestampNs
  outcome : event.outcome = .permitted ↔ entry.policyAllowed = true
  reason : event.denialReason =
    if entry.policyAllowed then none else some (mapDenialReason entry.policyReason)
  numbered : event.seq.toNat + 1 = entry.seq
  hash : hexStr event.hash = entry.entryHash

-- The two lists of the wrapper run side by side.
structure Mirrored [Sha256] (log : AuditLog) : Prop where
  linked : log.inner.inner.Linked
  plain : ∀ event ∈ log.inner.inner.events.toList, event.PlainReason
  reports : List.Forall₂ Reports log.domain log.inner.inner.events.toList

section Wrapper

variable [Sha256] {host : Host} {log : AuditLog}

theorem Mirrored.new : Mirrored .new where
  linked := AuditLog.linked_new
  plain := by simp [AuditLog.new, PyAuditLog.new, Audit.AuditLog.new, Heapless.HVec.empty]
  reports := .nil

omit [Sha256] in
theorem plain_known {reason : String} (h : reason ∈ KNOWN_REASONS) : Json.Plain reason := by
  have hreasons : ∀ reason ∈ KNOWN_REASONS, Json.Plain reason := by decide +kernel
  exact hreasons reason h

-- What the wrapper reads back from the export is the hash of the event just appended.
theorem latestHash_exportJson {inner : Audit.AuditLog} {events : List AuditEvent}
    {event : AuditEvent} (hevents : inner.events.toList = events ++ [event])
    (hlinked : inner.Linked) (hplain : ∀ event ∈ inner.events.toList, event.PlainReason) :
    latestHash inner.exportJson = hexStr event.hash := by
  have hhash : field (event.header ++ [("reason", event.reasonJson),
      ("hash", .string (hexStr event.hash))]) "hash" = some (.string (hexStr event.hash)) := by
    simp [field, AuditEvent.header, Json.valuesOf]
  rw [latestHash, parse_exportJson hlinked.consistent hplain, hevents, List.map_append,
    List.map_singleton]
  dsimp only
  rw [List.getLast?_concat, AuditEvent.toJson]
  dsimp only
  rw [hhash]
  rfl

-- The call of the kernel for a decision.
def callOf (now : UInt64) (candidateId : Int) (policyAllowed : Bool) (policyReason : String) :
    Append :=
  ⟨.hiringDecision, actorOf (UInt64.ofNat candidateId.toNat), now,
    if policyAllowed then none else some (.halt, mapDenialReason policyReason)⟩

omit [Sha256] in
theorem call_record (debug : String → String) (now : UInt64) (candidateId : Int)
    (policyAllowed : Bool) (policyReason : String) :
    Record.call debug ⟨"hiring_decision", UInt64.ofNat candidateId.toNat, now,
      if policyAllowed then none else some "halt",
      if policyAllowed then none else some policyReason⟩ =
        .ok (callOf now candidateId policyAllowed policyReason) := by
  cases policyAllowed <;> rfl

variable {now : UInt64} {candidateId : Int} {decision : String} {confidence : Binary64}
variable {policyAllowed : Bool} {policyReason : String}

theorem append_overflow (host : Host) (log : AuditLog) (now : UInt64) (decision : String)
    (confidence : Binary64) (policyAllowed : Bool) (policyReason : String)
    (h : ¬Representable candidateId) :
    ∃ e, log.append host now candidateId decision confidence policyAllowed policyReason =
      .error e := by
  obtain ⟨e, he⟩ := u64Argument_of_not_representable h
  rw [AuditLog.append, he]
  exact ⟨e, rfl⟩

theorem append_full (h : Representable candidateId) (hfull : log.inner.inner.isFull = true) :
    log.append host now candidateId decision confidence policyAllowed policyReason =
      .ok (false, log) := by
  have hinner : log.inner.append host.debug ⟨"hiring_decision", UInt64.ofNat candidateId.toNat, now,
      if policyAllowed then none else some "halt",
      if policyAllowed then none else some policyReason⟩ = .ok (false, log.inner) := by
    rw [PyAuditLog.append, call_record]
    dsimp only [bind, Except.bind]
    rw [Audit.AuditLog.append_of_full hfull]
    rfl
  rw [AuditLog.append, u64Argument_of_representable h]
  dsimp only [bind, Except.bind]
  rw [hinner]
  rfl

-- With room in the kernel's log a decision is entered on both sides.
theorem append_room (host : Host) (now : UInt64) (decision : String) (confidence : Binary64)
    (policyAllowed : Bool) (policyReason : String) (hlog : Mirrored log)
    (h : Representable candidateId) (hroom : log.inner.inner.isFull = false) :
    ∃ inner, log.append host now candidateId decision confidence policyAllowed policyReason =
        .ok (true, ⟨inner, log.domain ++ [entryOf host log inner now candidateId decision confidence
          policyAllowed policyReason]⟩) ∧
      Mirrored ⟨inner, log.domain ++ [entryOf host log inner now candidateId decision confidence
        policyAllowed policyReason]⟩ := by
  let call := callOf now candidateId policyAllowed policyReason
  let event := log.inner.inner.eventFor call.kind call.actor call.timestamp call.denial
  let after := (log.inner.inner.append call.kind call.actor call.timestamp call.denial).2
  have hinner : log.inner.append host.debug ⟨"hiring_decision", UInt64.ofNat candidateId.toNat, now,
      if policyAllowed then none else some "halt",
      if policyAllowed then none else some policyReason⟩ = .ok (true, ⟨after⟩) :=
    append_eq_ok.mpr ⟨call, call_record host.debug now candidateId policyAllowed policyReason,
      hroom, rfl⟩
  have hevents : after.events.toList = log.inner.inner.events.toList ++ [event] := by
    obtain ⟨events, hevents, happend⟩ :=
      Audit.AuditLog.append_of_room call.kind call.actor call.timestamp call.denial hroom
    rw [← hevents]
    exact congrArg (fun result => result.2.events.toList) happend
  have hlinked : after.Linked :=
    hlog.linked.append call.kind call.actor call.timestamp call.denial
  have hplain : ∀ e ∈ after.events.toList, e.PlainReason := by
    intro e he
    rw [hevents, List.mem_append, List.mem_singleton] at he
    rcases he with hold | rfl
    · exact hlog.plain e hold
    · intro reason hreason
      cases policyAllowed with
      | true => cases hreason
      | false =>
          obtain rfl := Option.some.inj hreason
          exact plain_known (mapDenialReason_mem policyReason)
  have hhash := latestHash_exportJson hevents hlinked hplain
  refine ⟨⟨after⟩, ?_, ?_⟩
  · rw [AuditLog.append, u64Argument_of_representable h]
    dsimp only [bind, Except.bind]
    rw [hinner]
    rfl
  · refine ⟨hlinked, hplain, ?_⟩
    show List.Forall₂ Reports _ after.events.toList
    rw [hevents]
    refine List.rel_append hlog.reports (.cons ?_ .nil)
    have hnumber : event.seq.toNat = log.domain.length := by
      rw [hlog.reports.length_eq, ← hlog.linked.nextSeq]
      rfl
    refine ⟨rfl, rfl, rfl, ?_, ?_, ?_, hhash.symm⟩
    · cases policyAllowed <;> simp [event, call, callOf, Audit.AuditLog.eventFor, entryOf]
    · cases policyAllowed <;> rfl
    · show event.seq.toNat + 1 = log.domain.length + 1
      rw [hnumber]

end Wrapper

-- Every feature of the decision is one of the approved.
def Approved (d : Decision) : Prop := ∀ name ∈ d.featuresUsed, name ∈ APPROVED_FEATURES

instance (d : Decision) : Decidable (Approved d) := inferInstanceAs (Decidable (∀ name ∈ _, _))

-- The decisions that the log takes in: those whose number is a `u64`, up to its capacity.
def accepted (work : List (UInt64 × Decision)) : List (UInt64 × Decision) :=
  work.filter fun item => decide (Representable item.2.candidateId)

def onRecord (work : List (UInt64 × Decision)) : List (UInt64 × Decision) :=
  (accepted work).take MAX_AUDIT_EVENTS

-- The entry that a decision leaves in the report.
structure Entered (host : Host) (item : UInt64 × Decision) (entry : AuditEntry) : Prop where
  candidate : entry.candidateId = item.2.candidateId
  decision : entry.decision = item.2.decision
  confidence : entry.confidence = host.roundSix item.2.hireProbability
  timestamp : entry.timestampNs = item.1
  verdict : entry.policyAllowed = true ↔ Approved item.2
  reason : entry.policyAllowed = false → entry.policyReason ∈ KNOWN_REASONS

-- The loop after some decisions: each is judged, and is on record or among the errors.
structure Accounted [Sha256] (host : Host) (inner : PyPolicyGate) (work : List (UInt64 × Decision))
    (state : Step2) : Prop where
  gate : state.gate.inner = inner
  checks : state.gate.checks = work.length
  denied : state.gate.denied = work.countP fun item => decide ¬Approved item.2
  results : List.Forall₂ (fun item result => result.allowed = true ↔ Approved item.2) work
    state.gateResults
  mirrored : Mirrored state.log
  entered : List.Forall₂ (Entered host) (onRecord work) state.log.domain
  errors : state.errors.length + state.log.domain.length = work.length
  failures : state.appendFailures = (accepted work).length - MAX_AUDIT_EVENTS

section Loop

variable [Sha256] {host : Host} {inner : PyPolicyGate} {work : List (UInt64 × Decision)}
variable {state : Step2} {item : UInt64 × Decision}

omit [Sha256] in
theorem accepted_concat (work : List (UInt64 × Decision)) (item : UInt64 × Decision) :
    accepted (work ++ [item]) =
      accepted work ++ if Representable item.2.candidateId then [item] else [] := by
  rw [accepted, List.filter_append, List.filter_singleton]
  simp [accepted]

omit [Sha256] in
-- A verdict that is no permission comes with a reason that the kernel knows.
theorem reason_known (toLowercase : String → String) (gate : PyPolicyGate) (names : List String)
    (h : (gate.check toLowercase names).allowed = false) :
    (gate.check toLowercase names).reason ∈ KNOWN_REASONS := by
  unfold PyPolicyGate.check at h ⊢
  split_ifs at h ⊢
  · decide
  · decide
  · decide

omit [Sha256] in
theorem check_spec (hrust : ∀ name ∈ APPROVED_FEATURES, host.toLowercase name = name)
    (hnew : PyPolicyGate.new host.debug APPROVED_FEATURES.mergeSort PROTECTED_SUBSTRINGS = .ok inner)
    {gate : PolicyGate} (hgate : gate.inner = inner) (d : Decision) :
    ∃ result, gate.check host.toLowercase host.lower d.featuresUsed =
        (result, ⟨inner, gate.checks + 1, gate.denied + if Approved d then 0 else 1⟩) ∧
      (result.allowed = true ↔ Approved d) ∧
      (result.allowed = false → result.reason ∈ KNOWN_REASONS) := by
  subst hgate
  have hallowed : (gate.inner.check host.toLowercase d.featuresUsed).allowed = true ↔ Approved d :=
    PolicyGate.hiring_check_allowed hrust hnew
  have hknown := reason_known host.toLowercase gate.inner d.featuresUsed
  cases hverdict : (gate.inner.check host.toLowercase d.featuresUsed).allowed with
  | false =>
      have hnot : ¬Approved d := by
        rw [← hallowed, hverdict]
        decide
      refine ⟨⟨false, (gate.inner.check host.toLowercase d.featuresUsed).reason,
        d.featuresUsed.filter fun k => !isApproved host.lower k⟩, ?_, by simp [hnot],
        fun _ => hknown hverdict⟩
      simp only [PolicyGate.check, hverdict, if_true, if_neg hnot]
  | true =>
      have hyes := hallowed.mp hverdict
      refine ⟨⟨true, (gate.inner.check host.toLowercase d.featuresUsed).reason, []⟩, ?_,
        by simp [hyes], by simp⟩
      simp only [PolicyGate.check, hverdict, Bool.true_eq_false, if_false, if_pos hyes,
        Nat.add_zero]

theorem Accounted.start : Accounted host inner [] (.start ⟨inner, 0, 0⟩) where
  gate := rfl
  checks := rfl
  denied := rfl
  results := .nil
  mirrored := .new
  entered := .nil
  errors := rfl
  failures := rfl

theorem Accounted.isFull_iff (h : Accounted host inner work state) :
    state.log.inner.inner.isFull = true ↔ MAX_AUDIT_EVENTS ≤ (accepted work).length := by
  have hlength := h.entered.length_eq
  rw [onRecord, List.length_take] at hlength
  rw [Audit.AuditLog.isFull_iff, ← h.mirrored.reports.length_eq, ← hlength]
  omega

-- What one decision adds to the account, on whichever way it leaves the loop.
theorem Accounted.extend (h : Accounted host inner work state) {result : PolicyResult}
    (hresult : result.allowed = true ↔ Approved item.2) {log : AuditLog} {failures : Nat}
    {errors : List String} (hlog : Mirrored log)
    (hentered : List.Forall₂ (Entered host) (onRecord (work ++ [item])) log.domain)
    (herrors : errors.length + log.domain.length = work.length + 1)
    (hfailures : failures = (accepted (work ++ [item])).length - MAX_AUDIT_EVENTS) :
    Accounted host inner (work ++ [item])
      ⟨⟨inner, state.gate.checks + 1, state.gate.denied + if Approved item.2 then 0 else 1⟩, log,
        state.gateResults ++ [result], failures, errors⟩ where
  gate := rfl
  checks := by rw [h.checks, List.length_append, List.length_singleton]
  denied := by
    rw [h.denied, List.countP_append, List.countP_singleton]
    split <;> simp_all
  results := List.rel_append h.results (.cons hresult .nil)
  mirrored := hlog
  entered := hentered
  errors := by rw [herrors, List.length_append, List.length_singleton]
  failures := hfailures

theorem Accounted.process (h : Accounted host inner work state)
    (hrust : ∀ name ∈ APPROVED_FEATURES, host.toLowercase name = name)
    (hnew : PyPolicyGate.new host.debug APPROVED_FEATURES.mergeSort PROTECTED_SUBSTRINGS =
      .ok inner) :
    Accounted host inner (work ++ [item]) (state.process host item.1 item.2) := by
  obtain ⟨result, hcheck, hverdict, hreason⟩ := check_spec hrust hnew h.gate item.2
  have hlength := h.entered.length_eq
  rw [onRecord, List.length_take] at hlength
  have herrors := h.errors
  have hfailures := h.failures
  have haccepted := accepted_concat work item
  unfold Step2.process
  rw [hcheck]
  dsimp only
  by_cases hnumber : Representable item.2.candidateId
  · rw [if_pos hnumber] at haccepted
    have hmore : (accepted (work ++ [item])).length = (accepted work).length + 1 := by
      rw [haccepted, List.length_append, List.length_singleton]
    cases hfull : state.log.inner.inner.isFull with
    | true =>
        have hcap := h.isFull_iff.mp hfull
        rw [append_full hnumber hfull]
        dsimp only
        refine h.extend hverdict h.mirrored ?_ ?_ (by omega)
        · rw [onRecord, haccepted, List.take_append_of_le_length hcap]
          exact h.entered
        · rw [List.length_append, List.length_singleton]
          omega
    | false =>
        have hroom : (accepted work).length < MAX_AUDIT_EVENTS := by
          rw [← Nat.not_le, ← h.isFull_iff, hfull]
          exact Bool.false_ne_true
        obtain ⟨after, happend, hmirrored⟩ := append_room host item.1 item.2.decision
          item.2.hireProbability result.allowed result.reason h.mirrored hnumber hfull
        rw [happend]
        dsimp only
        refine h.extend hverdict hmirrored ?_ ?_ (by omega)
        · have htake : onRecord (work ++ [item]) = onRecord work ++ [item] := by
            rw [onRecord, onRecord, haccepted, List.take_of_length_le (by simp; omega),
              List.take_of_length_le (by omega)]
          rw [htake]
          exact List.rel_append h.entered (.cons ⟨rfl, rfl, rfl, rfl, hverdict, hreason⟩ .nil)
        · rw [List.length_append, List.length_singleton]
          omega
  · rw [if_neg hnumber, List.append_nil] at haccepted
    obtain ⟨e, happend⟩ := append_overflow host state.log item.1 item.2.decision
      item.2.hireProbability result.allowed result.reason hnumber
    rw [happend]
    dsimp only
    refine h.extend hverdict h.mirrored ?_ ?_ (by rw [haccepted]; exact hfailures)
    · rw [onRecord, haccepted]
      exact h.entered
    · rw [List.length_append, List.length_singleton]
      omega

theorem accounted_step2 (hrust : ∀ name ∈ APPROVED_FEATURES, host.toLowercase name = name)
    (hnew : PyPolicyGate.new host.debug APPROVED_FEATURES.mergeSort PROTECTED_SUBSTRINGS =
      .ok inner) (work : List (UInt64 × Decision)) :
    Accounted host inner work (step2 host ⟨inner, 0, 0⟩ work) := by
  induction work using List.reverseRecOn with
  | nil => exact .start
  | append_singleton work item ih =>
      rw [step2, List.foldl_append]
      exact ih.process hrust hnew

end Loop

-- Every decision is judged by its features; it is entered in the report and, in the same
-- place, in the kernel's log, or it is among the errors. There are no errors exactly if
-- there are at most 512 decisions with proper numbers.
theorem step2_accounts [Sha256] (host : Host)
    (hrust : ∀ name ∈ APPROVED_FEATURES, host.toLowercase name = name)
    (work : List (UInt64 × Decision)) :
    ∃ gate, PolicyGate.init host.debug = .ok gate ∧
      Accounted host gate.inner work (step2 host gate work) ∧
      (step2 host gate work).log.inner.inner.verifyChain = true ∧
      ((step2 host gate work).errors = [] ↔
        work.length ≤ MAX_AUDIT_EVENTS ∧ ∀ item ∈ work, Representable item.2.candidateId) := by
  obtain ⟨inner, hnew, hinit⟩ := PolicyGate.init_ok host.debug
  have h := accounted_step2 hrust hnew work
  refine ⟨⟨inner, 0, 0⟩, hinit, h, ?_, ?_⟩
  · exact (AuditLog.verifyFrom_iff _ _).mpr h.mirrored.linked.verified
  · have hlength := h.entered.length_eq
    rw [onRecord, List.length_take] at hlength
    have herrors := h.errors
    have hle : (accepted work).length ≤ work.length := List.length_filter_le _ _
    have hall : (accepted work).length = work.length ↔
        ∀ item ∈ work, Representable item.2.candidateId := by
      rw [accepted, List.length_filter_eq_length_iff]
      simp
    rw [← hall, ← List.length_eq_zero_iff]
    omega

section Sample

attribute [local instance] Sha256.zero

def plainHost : Host := ⟨id, id, id, id, fun _ => "", fun _ => ""⟩

-- One candidate with approved features, one judged by race, and one with a number that
-- is no `u64`.
def threeDecisions : List (UInt64 × Decision) :=
  [(5, ⟨1, "HIRE", .one, ["fit_score"]⟩), (6, ⟨2, "REJECT", .zero, ["fit_score", "race"]⟩),
    (7, ⟨-1, "REJECT", .zero, ["fit_score"]⟩)]

theorem step2_accounts_three : ∃ gate, PolicyGate.init plainHost.debug = .ok gate ∧
    (step2 plainHost gate threeDecisions).gate.denied = 1 ∧
    (step2 plainHost gate threeDecisions).log.domain.length = 2 ∧
    (step2 plainHost gate threeDecisions).errors ≠ [] := by
  obtain ⟨gate, hinit, haccount, -, herrors⟩ :=
    step2_accounts plainHost (fun _ _ => rfl) threeDecisions
  refine ⟨gate, hinit, haccount.denied, haccount.entered.length_eq.symm, fun hnone => ?_⟩
  have hall := (herrors.mp hnone).2
  revert hall
  decide

end Sample

end LuxKernel.Python.Hiring
