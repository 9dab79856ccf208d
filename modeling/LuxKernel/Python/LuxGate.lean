import LuxKernel.Formats.Binary64
import LuxKernel.Python.PolicyGate

namespace LuxKernel.Python

open Formats

def KNOWN_EVENT_TYPES : List String :=
  ["add_edge", "remove_edge", "add_agent", "remove_agent", "update_capabilities", "execute_task",
    "decompose_goal", "delegate"]

def REASON_AUTHORIZED : String := "authorized"
def REASON_NO_PARTICIPANTS : String := "no participants in CE"
def REASON_UNKNOWN_EVENT : String := "unknown event type"
def REASON_INSUFFICIENT_AUTHORITY : String := "insufficient authority"
def REASON_ADD_AGENT_AUTHORITY : String := "add_agent requires elevated authority"
def REASON_TOPOLOGY_BOUND : String := "topology bound exceeded"
def REASON_PROPOSER_UNKNOWN : String := "proposer not in authority scores"

-- `(0.0..=1.0).contains(&x)`.
def InUnit (x : Binary64) : Prop := Binary64.zero ≤ x ∧ x ≤ Binary64.one

instance (x : Binary64) : Decidable (InUnit x) := inferInstanceAs (Decidable (_ ∧ _))

structure PyLuxGate where
  authorityThreshold : Binary64
  addAgentThreshold : Binary64
  maxAgents : UInt64
  authority_inUnit : InUnit authorityThreshold
  addAgent_inUnit : InUnit addAgentThreshold
  ordered : ¬addAgentThreshold < authorityThreshold

structure CheckResult where
  approved : Bool
  reason : String
  denialClass : Option String
deriving DecidableEq, Repr

namespace PyLuxGate

def new (authorityThreshold addAgentThreshold : Binary64) (maxAgents : UInt64) :
    Except PyError PyLuxGate :=
  if hauthority : InUnit authorityThreshold then
    if haddAgent : InUnit addAgentThreshold then
      if hordered : addAgentThreshold < authorityThreshold then
        .error (.valueError "add_agent_threshold must be >= authority_threshold")
      else .ok ⟨authorityThreshold, addAgentThreshold, maxAgents, hauthority, haddAgent, hordered⟩
    else .error (.valueError "add_agent_threshold must be in [0.0, 1.0]")
  else .error (.valueError "authority_threshold must be in [0.0, 1.0]")

def refuse (reason : String) : CheckResult := ⟨false, reason, some "halt"⟩

-- The map of scores is read through `get` only.
def check (gate : PyLuxGate) (eventType : String) (participants : List String)
    (authorityScores : String → Option Binary64) (graphSize : UInt64) : CheckResult :=
  if KNOWN_EVENT_TYPES.contains eventType = false then refuse REASON_UNKNOWN_EVENT
  else match participants with
    | [] => refuse REASON_NO_PARTICIPANTS
    | proposer :: _ =>
        match authorityScores proposer with
        | none => refuse REASON_PROPOSER_UNKNOWN
        | some proposerAuthority =>
            if eventType = "add_agent" ∧ graphSize ≥ gate.maxAgents then
              refuse REASON_TOPOLOGY_BOUND
            else if eventType = "add_agent" ∧ proposerAuthority < gate.addAgentThreshold then
              refuse REASON_ADD_AGENT_AUTHORITY
            else if proposerAuthority < gate.authorityThreshold then
              refuse REASON_INSUFFICIENT_AUTHORITY
            else ⟨true, REASON_AUTHORIZED, none⟩

section Approval

variable (gate : PyLuxGate) (eventType : String) (participants : List String)
variable (authorityScores : String → Option Binary64) (graphSize : UInt64)

theorem new_eq_ok {authorityThreshold addAgentThreshold : Binary64} {maxAgents : UInt64}
    {gate : PyLuxGate} : new authorityThreshold addAgentThreshold maxAgents = .ok gate ↔
      gate.authorityThreshold = authorityThreshold ∧ gate.addAgentThreshold = addAgentThreshold ∧
        gate.maxAgents = maxAgents := by
  unfold new
  constructor
  · intro h
    split_ifs at h
    obtain rfl := Except.ok.inj h
    exact ⟨rfl, rfl, rfl⟩
  · rintro ⟨rfl, rfl, rfl⟩
    rw [dif_pos gate.authority_inUnit, dif_pos gate.addAgent_inUnit, dif_neg gate.ordered]

-- What an approval is documented to mean.
def Authorised : Prop :=
  eventType ∈ KNOWN_EVENT_TYPES ∧ ∃ proposer score, participants.head? = some proposer ∧
    authorityScores proposer = some score ∧ gate.authorityThreshold ≤ score ∧
      (eventType = "add_agent" → gate.addAgentThreshold ≤ score ∧ graphSize < gate.maxAgents)

-- What it means: no test of the cascade has hit.
theorem approved_iff : (gate.check eventType participants authorityScores graphSize).approved = true ↔
    eventType ∈ KNOWN_EVENT_TYPES ∧ ∃ proposer score, participants.head? = some proposer ∧
      authorityScores proposer = some score ∧ ¬score < gate.authorityThreshold ∧
        (eventType = "add_agent" → ¬score < gate.addAgentThreshold ∧ graphSize < gate.maxAgents) := by
  unfold check
  cases hknown : KNOWN_EVENT_TYPES.contains eventType with
  | false =>
      refine iff_of_false Bool.false_ne_true fun h => ?_
      rw [List.contains_iff_mem.mpr h.1] at hknown
      cases hknown
  | true =>
      rw [if_neg (by simp), and_iff_right (List.contains_iff_mem.mp hknown)]
      cases participants with
      | nil => simp [refuse]
      | cons proposer rest =>
          dsimp only
          cases hscore : authorityScores proposer with
          | none => simp [refuse, hscore]
          | some score =>
              simp only [List.head?_cons, Option.some.injEq, exists_and_left, exists_eq_left',
                hscore]
              split_ifs with hfull hadd hlow
              · refine iff_of_false Bool.false_ne_true fun h => ?_
                exact UInt64.not_lt.mpr hfull.2 (h.2 hfull.1).2
              · exact iff_of_false Bool.false_ne_true fun h => (h.2 hadd.1).1 hadd.2
              · exact iff_of_false Bool.false_ne_true fun h => h.1 hlow
              · refine iff_of_true rfl ⟨hlow, fun hevent => ⟨?_, ?_⟩⟩
                · exact fun hless => hadd ⟨hevent, hless⟩
                · exact UInt64.not_le.mp fun hge => hfull ⟨hevent, hge⟩

-- A score that is no number passes every test for being too low. Otherwise an approval
-- means what it should.
theorem approval_authorised_iff :
    ((gate.check eventType participants authorityScores graphSize).approved = true →
      gate.Authorised eventType participants authorityScores graphSize) ↔
    (eventType ∈ KNOWN_EVENT_TYPES → (eventType = "add_agent" → graphSize < gate.maxAgents) →
      ∀ proposer score, participants.head? = some proposer → authorityScores proposer = some score →
        score.isNaN = false) := by
  have hauthority := Binary64.not_isNaN_right gate.authority_inUnit.1
  have haddAgent := Binary64.not_isNaN_right gate.addAgent_inUnit.1
  rw [approved_iff]
  constructor
  · intro h hknown hroom proposer score hproposer hscore
    apply Bool.eq_false_of_not_eq_true
    intro hnan
    obtain ⟨-, other, otherScore, hother, hotherScore, hle, -⟩ := h ⟨hknown, proposer, score,
      hproposer, hscore, (Binary64.not_lt_iff hauthority).mpr (Or.inl hnan), fun hevent =>
        ⟨(Binary64.not_lt_iff haddAgent).mpr (Or.inl hnan), hroom hevent⟩⟩
    obtain rfl : proposer = other := Option.some.inj (hproposer.symm.trans hother)
    obtain rfl : score = otherScore := Option.some.inj (hscore.symm.trans hotherScore)
    rw [Binary64.not_isNaN_right hle] at hnan
    cases hnan
  · rintro h ⟨hknown, proposer, score, hproposer, hscore, hlow, hadd⟩
    have hnumber := h hknown (fun hevent => (hadd hevent).2) proposer score hproposer hscore
    have hreaches : ∀ {threshold : Binary64}, threshold.isNaN = false → ¬score < threshold →
        threshold ≤ score := by
      intro threshold hthreshold hless
      apply ((Binary64.not_lt_iff hthreshold).mp hless).resolve_left
      rw [hnumber]
      exact Bool.false_ne_true
    refine ⟨hknown, proposer, score, hproposer, hscore, hreaches hauthority hlow, ?_⟩
    exact fun hevent => ⟨hreaches haddAgent (hadd hevent).1, (hadd hevent).2⟩

end Approval

-- The defaults of the constructor: 0.3, 0.6 and 20.
def withDefaults : PyLuxGate where
  authorityThreshold := ⟨0x3fd3333333333333⟩
  addAgentThreshold := ⟨0x3fe3333333333333⟩
  maxAgents := 20
  authority_inUnit := by decide +kernel
  addAgent_inUnit := by decide +kernel
  ordered := by decide +kernel

theorem nan_approved :
    (withDefaults.check "add_agent" ["agent_0"] (fun _ => some Binary64.nan) 5).approved = true ∧
      ¬withDefaults.Authorised "add_agent" ["agent_0"] (fun _ => some Binary64.nan) 5 := by
  refine ⟨by decide +kernel, ?_⟩
  rintro ⟨-, proposer, score, -, hscore, hle, -⟩
  obtain rfl := Option.some.inj hscore
  revert hle
  decide +kernel

end PyLuxGate

end LuxKernel.Python
