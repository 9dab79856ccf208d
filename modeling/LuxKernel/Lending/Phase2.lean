import LuxKernel.Lending.AuditLog
import LuxKernel.Python.PolicyGate

namespace LuxKernel.Lending

open Formats

def PROTECTED_ATTRS : List String := ["age", "gender", "race", "marital_status", "disability"]

def PROTECTED_SUBSTRINGS : List String :=
  ["age", "gender", "race", "ethnicity", "sex", "marital", "disability", "handicap"]

def APPROVED_FEATURES : List String :=
  ["income", "credit_score", "employment_history", "debt_to_income", "collateral_value"]

-- What Python supplies: `str.lower`, a list in an f-string and the text of an exception.
structure Host where
  lower : String → String
  showList : List String → String
  describe : PyException → String

structure PolicyResult where
  allowed : Bool
  reason : String
  violations : List String
deriving DecidableEq, Repr

namespace PolicyGate

def deny (host : Host) (text : String) (violations : List String) : PolicyResult :=
  ⟨false, text ++ host.showList violations, violations⟩

-- The features are a dictionary, of which only the keys are looked at.
def check (host : Host) (featuresUsed : List String) : PolicyResult :=
  let protectedViolations := featuresUsed.filter fun k => decide (k ∈ PROTECTED_ATTRS)
  if protectedViolations ≠ [] then
    deny host "Protected attribute(s) in features: " protectedViolations
  else
    let aliasViolations := featuresUsed.filter fun k =>
      PROTECTED_SUBSTRINGS.any fun sub => Python.contains (host.lower k) sub
    if aliasViolations ≠ [] then
      deny host "Alias of protected attribute detected: " aliasViolations
    else
      let unknown := featuresUsed.filter fun k => decide (k ∉ APPROVED_FEATURES)
      if unknown ≠ [] then deny host "Unknown / unapproved feature(s): " unknown
      else
        ⟨true, "All features present in approved set; no protected attributes detected.", []⟩

end PolicyGate

structure Decision where
  applicantId : Int
  decision : String
  confidence : Binary64
  featuresUsed : List String

-- A line of `decisions.csv`.
structure Row where
  applicantId : Int
  decision : String
  confidence : Binary64
  policyAllowed : Bool
  policyReason : String
deriving DecidableEq, Repr

-- The state of the loop of `main`, and at its end what is exported.
structure Phase2 where
  audit : AuditLog
  rows : List Row
  allAllowed : Bool

def Phase2.start : Phase2 := ⟨AuditLog.init, [], true⟩

section

variable [Sha256] (host : Host)

-- One turn of the loop, with what the clock shows. A failed append ends `main`, with the
-- text that it logs.
def Phase2.process (state : Phase2) (item : Int × Decision) : Except String Phase2 :=
  let (now, d) := item
  let pr := PolicyGate.check host d.featuresUsed
  let (ok, audit) := state.audit.append
    ⟨d.applicantId, d.decision, d.confidence, pr.allowed, pr.reason, now⟩
  if ok = false then .error ("Audit append failed for applicant " ++ toString d.applicantId)
  else
    .ok
      { audit := audit
        rows := state.rows ++ [⟨d.applicantId, d.decision, d.confidence, pr.allowed, pr.reason⟩]
        allAllowed := state.allAllowed && pr.allowed }

-- `main` as far as the exports. Nothing has been written when it fails.
def phase2 (work : List (Int × Decision)) : Except String Phase2 := do
  let state ← work.foldlM (Phase2.process host) .start
  match state.audit.verifyChain with
  | .error e => .error ("phase2 failed: " ++ host.describe e)
  | .ok false => .error "CRITICAL: Audit chain verification FAILED"
  | .ok true => .ok state

end

def Approved (d : Decision) : Prop := ∀ name ∈ d.featuresUsed, name ∈ APPROVED_FEATURES

theorem approved_unprotected : ∀ name ∈ APPROVED_FEATURES, name ∉ PROTECTED_ATTRS ∧
    ∀ sub ∈ PROTECTED_SUBSTRINGS, Python.contains name sub = false := by
  decide +kernel

-- The first two rules refuse nothing that the third would let pass.
theorem check_allowed {host : Host} (hlower : ∀ name ∈ APPROVED_FEATURES, host.lower name = name)
    (d : Decision) : (PolicyGate.check host d.featuresUsed).allowed = true ↔ Approved d := by
  have hnone : ∀ p : String → Bool, ¬d.featuresUsed.filter p ≠ [] ↔
      ∀ name ∈ d.featuresUsed, p name = false := by
    intro p
    simp [List.filter_eq_nil_iff]
  constructor
  · intro hallowed
    unfold PolicyGate.check at hallowed
    dsimp only at hallowed
    split at hallowed
    · cases hallowed
    split at hallowed
    · cases hallowed
    split at hallowed
    · cases hallowed
    rename_i hunknown
    intro name hname
    have hknown := (hnone _).mp hunknown name hname
    simpa using hknown
  · intro happroved
    have hclear : ∀ name ∈ d.featuresUsed, name ∉ PROTECTED_ATTRS ∧
        (PROTECTED_SUBSTRINGS.any fun sub => Python.contains (host.lower name) sub) = false := by
      intro name hname
      obtain ⟨hattr, hsub⟩ := approved_unprotected name (happroved name hname)
      refine ⟨hattr, ?_⟩
      rw [hlower name (happroved name hname), List.any_eq_false]
      intro sub hmem
      rw [hsub sub hmem]
      exact Bool.false_ne_true
    unfold PolicyGate.check
    rw [if_neg, if_neg, if_neg]
    · apply (hnone _).mpr
      intro name hname
      simpa using happroved name hname
    · apply (hnone _).mpr
      exact fun name hname => (hclear name hname).2
    · apply (hnone _).mpr
      intro name hname
      simpa using (hclear name hname).1

-- What an entry keeps of the call that made it, and the row that goes with it.
def AuditEntry.call (e : AuditEntry) : Call :=
  ⟨e.applicantId, e.decision, e.confidence, e.policyAllowed, e.policyReason, e.timestampNs⟩

def AuditEntry.row (e : AuditEntry) : Row :=
  ⟨e.applicantId, e.decision, e.confidence, e.policyAllowed, e.policyReason⟩

-- The call of `append` for a decision.
def callOf (host : Host) (item : Int × Decision) : Call :=
  ⟨item.2.applicantId, item.2.decision, item.2.confidence,
    (PolicyGate.check host item.2.featuresUsed).allowed,
    (PolicyGate.check host item.2.featuresUsed).reason, item.1⟩

-- The applicant's number is packed as a `u32` and the time as a `u64`.
def Packable (item : Int × Decision) : Prop :=
  (0 ≤ item.2.applicantId ∧ item.2.applicantId < 2 ^ 32) ∧ 0 ≤ item.1 ∧ item.1 < 2 ^ 64

instance (item : Int × Decision) : Decidable (Packable item) :=
  inferInstanceAs (Decidable ((_ ∧ _) ∧ _ ∧ _))

section

variable [Sha256] {host : Host} {item : Int × Decision}

theorem append_spec (host : Host) (log : AuditLog) (item : Int × Decision) :
    (Packable item ∧ log.entries.length < 2 ^ 64 ∧ ∃ (entry : AuditEntry) (audit : AuditLog),
      log.append (callOf host item) = (true, audit) ∧ audit.entries = log.entries ++ [entry] ∧
      entry.seq = log.entries.length ∧ entry.call = callOf host item) ∨
    ((¬Packable item ∨ 2 ^ 64 ≤ log.entries.length) ∧
      log.append (callOf host item) = (false, log)) := by
  let call := callOf host item
  let entry : AuditEntry := ⟨log.entries.length, call.applicantId, call.decision, call.confidence,
    call.policyAllowed, call.policyReason, call.tsNs, "", ""⟩
  have hfits : (∃ p, entry.payload = .ok p) ↔ Packable item ∧ log.entries.length < 2 ^ 64 := by
    rw [exists_payload_iff]
    constructor
    · intro h
      have hseq := h.seq.2
      refine ⟨⟨h.applicantId, h.timestampNs⟩, ?_⟩
      simp only [entry] at hseq
      omega
    · rintro ⟨⟨hid, htime⟩, hlength⟩
      refine ⟨?_, hid, htime⟩
      simp only [entry]
      omega
  unfold AuditLog.append
  dsimp only
  cases hpack : pack log.entries.length call.applicantId call.decision call.confidence
      call.policyAllowed call.tsNs with
  | error e =>
      right
      refine ⟨?_, rfl⟩
      by_contra hnot
      rw [not_or, not_not, Nat.not_le] at hnot
      obtain ⟨p, hp⟩ := hfits.mpr hnot
      rw [AuditEntry.payload, hpack] at hp
      cases hp
  | ok p =>
      left
      obtain ⟨hpackable, hlength⟩ := hfits.mp ⟨p, hpack⟩
      exact ⟨hpackable, hlength, _, _, rfl, rfl, rfl, rfl⟩

-- The loop after some decisions.
structure Audited (host : Host) (work : List (Int × Decision)) (state : Phase2) : Prop where
  packable : ∀ item ∈ work, Packable item
  short : work.length ≤ 2 ^ 64
  log : state.audit = AuditLog.run (work.map (callOf host)).reverse
  calls : state.audit.entries.map AuditEntry.call = work.map (callOf host)
  numbered : state.audit.entries.map AuditEntry.seq = (List.range work.length).map Int.ofNat
  rows : state.rows = state.audit.entries.map AuditEntry.row
  allAllowed : state.allAllowed = work.all fun item => (callOf host item).policyAllowed

theorem Audited.start : Audited host [] .start where
  packable item h := by cases h
  short := Nat.zero_le _
  log := rfl
  calls := rfl
  numbered := rfl
  rows := rfl
  allAllowed := rfl

variable {work : List (Int × Decision)} {state : Phase2}

theorem Audited.length_entries (h : Audited host work state) :
    state.audit.entries.length = work.length := by
  have hlength := congrArg List.length h.calls
  simpa using hlength

theorem Audited.process (h : Audited host work state) (item : Int × Decision) :
    (∃ next, state.process host item = .ok next ∧ Audited host (work ++ [item]) next) ∨
    ((¬Packable item ∨ 2 ^ 64 ≤ work.length) ∧ state.process host item =
      .error ("Audit append failed for applicant " ++ toString item.2.applicantId)) := by
  have hprocess : state.process host item =
      if (state.audit.append (callOf host item)).1 = false then
        .error ("Audit append failed for applicant " ++ toString item.2.applicantId)
      else .ok ⟨(state.audit.append (callOf host item)).2,
        state.rows ++ [⟨item.2.applicantId, item.2.decision, item.2.confidence,
          (callOf host item).policyAllowed, (callOf host item).policyReason⟩],
        state.allAllowed && (callOf host item).policyAllowed⟩ := rfl
  have hlength := h.length_entries
  rw [hprocess]
  rcases append_spec host state.audit item with
    ⟨hpackable, hroom, entry, audit, happend, hentries, hseq, hcall⟩ | ⟨hunfit, happend⟩
  · left
    rw [happend]
    refine ⟨_, rfl, ?_, ?_, ?_, ?_, ?_, ?_, ?_⟩
    · exact List.forall_mem_append.mpr ⟨h.packable, List.forall_mem_singleton.mpr hpackable⟩
    · simp only [List.length_append, List.length_singleton]
      omega
    · rw [List.map_append, List.reverse_append, List.map_singleton, List.reverse_singleton,
        List.singleton_append, AuditLog.run, ← h.log, happend]
    · simp only [hentries, List.map_append, List.map_singleton, h.calls, hcall]
    · simp only [hentries, List.map_append, List.map_singleton, h.numbered, hseq, hlength,
        List.length_append, List.length_singleton, List.range_succ]
      rfl
    · have hrow : entry.row = ⟨item.2.applicantId, item.2.decision, item.2.confidence,
          (callOf host item).policyAllowed, (callOf host item).policyReason⟩ :=
        congrArg (fun call : Call => Row.mk call.applicantId call.decision call.confidence
          call.policyAllowed call.policyReason) hcall
      simp only [hentries, List.map_append, List.map_singleton, h.rows, hrow]
    · simp only [List.all_append, h.allAllowed, List.all_cons, List.all_nil, Bool.and_true]
  · right
    rw [happend, if_pos rfl]
    exact ⟨hlength ▸ hunfit, rfl⟩

-- The loop takes in everything, or it stops at the first decision that does not fit.
theorem Audited.fold (h : Audited host work state) (more : List (Int × Decision)) :
    (∃ last, more.foldlM (Phase2.process host) state = .ok last ∧
      Audited host (work ++ more) last) ∨
    ∃ before item after, more = before ++ item :: after ∧ (∀ earlier ∈ before, Packable earlier) ∧
      (¬Packable item ∨ 2 ^ 64 ≤ (work ++ before).length) ∧
      more.foldlM (Phase2.process host) state =
        .error ("Audit append failed for applicant " ++ toString item.2.applicantId) := by
  induction more generalizing work state with
  | nil => exact Or.inl ⟨state, rfl, (List.append_nil work).symm ▸ h⟩
  | cons item rest ih =>
      rw [List.foldlM_cons]
      rcases h.process item with ⟨next, hnext, haudited⟩ | ⟨hunfit, herror⟩
      · rw [hnext]
        rcases ih haudited with
          ⟨last, hlast, hdone⟩ | ⟨before, bad, after, rfl, hearlier, hbad, herr⟩
        · left
          refine ⟨last, hlast, ?_⟩
          rwa [List.append_assoc, List.singleton_append] at hdone
        · right
          have hfirst := haudited.packable item (by simp)
          refine ⟨item :: before, bad, after, rfl, ?_, ?_, herr⟩
          · exact List.forall_mem_cons.mpr ⟨hfirst, hearlier⟩
          · rwa [List.append_assoc, List.singleton_append] at hbad
      · rw [herror]
        right
        refine ⟨[], item, rest, rfl, by simp, ?_, rfl⟩
        rwa [List.append_nil]

end

-- The exports are complete or there are none. What is exported is every decision in its
-- order, judged by its features, with the same verdict in both files and a chain that
-- verifies; the check before the export cannot fail. Otherwise the first decision that
-- does not fit the format is named.
theorem phase2_exports [Sha256] (host : Host)
    (hlower : ∀ name ∈ APPROVED_FEATURES, host.lower name = name) (work : List (Int × Decision)) :
    ((∃ out, phase2 host work = .ok out) ↔
      work.length ≤ 2 ^ 64 ∧ ∀ item ∈ work, Packable item) ∧
    (∀ out, phase2 host work = .ok out →
      out.audit.entries.map AuditEntry.call = work.map (callOf host) ∧
      out.audit.entries.map AuditEntry.seq = (List.range work.length).map Int.ofNat ∧
      out.rows = out.audit.entries.map AuditEntry.row ∧
      out.audit.verifyChain = .ok true ∧
      (∀ item ∈ work, (callOf host item).policyAllowed = true ↔ Approved item.2) ∧
      (out.allAllowed = true ↔ ∀ item ∈ work, Approved item.2)) ∧
    ∀ message, phase2 host work = .error message →
      ∃ before item after, work = before ++ item :: after ∧
        (∀ earlier ∈ before, Packable earlier) ∧ (¬Packable item ∨ 2 ^ 64 ≤ before.length) ∧
        message = "Audit append failed for applicant " ++ toString item.2.applicantId := by
  have hverdict : ∀ item : Int × Decision, (callOf host item).policyAllowed = true ↔
      Approved item.2 := fun item => check_allowed hlower item.2
  have hstart : Audited host [] .start := .start
  rcases hstart.fold work with ⟨last, hlast, haudited⟩ |
    ⟨before, item, after, hsplit, hearlier, hunfit, herror⟩
  · rw [List.nil_append] at haudited
    have hchain : last.audit.verifyChain = .ok true := by
      rw [haudited.log]
      exact AuditLog.verifyChain_run _
    have hdone : phase2 host work = .ok last := by
      rw [phase2, hlast]
      dsimp only [bind, Except.bind]
      rw [hchain]
    refine ⟨iff_of_true ⟨last, hdone⟩ ⟨haudited.short, haudited.packable⟩, ?_, ?_⟩
    · intro out hout
      obtain rfl := Except.ok.inj (hdone.symm.trans hout)
      refine ⟨haudited.calls, haudited.numbered, haudited.rows, hchain,
        fun item _ => hverdict item, ?_⟩
      rw [haudited.allAllowed, List.all_eq_true]
      exact forall₂_congr fun item _ => hverdict item
    · intro message hmessage
      rw [hdone] at hmessage
      cases hmessage
  · have hfailed : phase2 host work =
        .error ("Audit append failed for applicant " ++ toString item.2.applicantId) := by
      rw [phase2, herror]
      rfl
    refine ⟨iff_of_false ?_ ?_, ?_, ?_⟩
    · rintro ⟨out, hout⟩
      rw [hfailed] at hout
      cases hout
    · rintro ⟨hshort, hall⟩
      rw [hsplit, List.length_append, List.length_cons] at hshort
      rcases hunfit with hnot | hlong
      · exact hnot (hall item (by simp [hsplit]))
      · rw [List.nil_append] at hlong
        omega
    · intro out hout
      rw [hfailed] at hout
      cases hout
    · intro message hmessage
      rw [hfailed] at hmessage
      exact ⟨before, item, after, hsplit, hearlier, hunfit, (Except.error.inj hmessage).symm⟩

section

attribute [local instance] Sha256.zero

def plainHost : Host := ⟨id, fun _ => "", fun _ => ""⟩

-- One decision on approved features and one on age.
def twoApplicants : List (Int × Decision) :=
  [(5, ⟨1, "APPROVE", .one, ["income"]⟩), (6, ⟨2, "DENY", .zero, ["income", "age"]⟩)]

theorem phase2_exports_two : ∃ out, phase2 plainHost twoApplicants = .ok out ∧
    out.rows.length = 2 ∧ out.allAllowed = false := by
  obtain ⟨hiff, hexports, -⟩ := phase2_exports plainHost (fun _ _ => rfl) twoApplicants
  obtain ⟨out, hout⟩ := hiff.mpr (by decide)
  obtain ⟨hcalls, -, hrows, -, -, hall⟩ := hexports out hout
  refine ⟨out, hout, ?_, ?_⟩
  · have hlength := congrArg List.length hcalls
    rw [List.length_map, List.length_map] at hlength
    rw [hrows, List.length_map, hlength]
    rfl
  · rw [← Bool.not_eq_true, hall]
    intro happroved
    have hage := happroved (6, ⟨2, "DENY", .zero, ["income", "age"]⟩) (by simp [twoApplicants])
      "age" (by simp)
    revert hage
    decide

end

end LuxKernel.Lending
