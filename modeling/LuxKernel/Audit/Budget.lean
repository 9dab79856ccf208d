import LuxKernel.Audit.Gates
import LuxKernel.Metabolism.Conservation

namespace LuxKernel.Audit

open Auth Metabolism
open LuxKernel.Topology

def Reply.granted : Reply → Bool
  | .verdict (.ok _) => true
  | .remaining (.ok _) => true
  | _ => false

def Step.granted (step : Step) : Bool := step.reply.granted

def Step.answer (step : Step) : Call × Bool := (step.call, step.granted)

-- What an answer takes from the balance of `node`.
def payment (node : NodeId) : Call × Bool → Nat
  | (.deduct payer amount _, true) => if payer = node then amount.toNat else 0
  | _ => 0

def Step.paid (node : NodeId) (step : Step) : Nat := payment node step.answer

def AuditEvent.permitted (event : AuditEvent) : Bool := decide (event.outcome = .permitted)

-- What the steps between two states have cost: an event for each step that was granted,
-- and from each balance what was paid. The graph is only read.
structure Budgeted (before : Gates) (steps : List Step) (after : Gates) : Prop where
  recorded : ∃ events, after.audit.events.toList = before.audit.events.toList ++ events ∧
    events.countP AuditEvent.permitted = steps.countP Step.granted
  balances : ∀ node, (before.ledger.balance node).map UInt64.toNat =
    (after.ledger.balance node).map fun left => left.toNat + (steps.map (Step.paid node)).sum
  graph : after.graph = before.graph
  edges : ∀ step ∈ steps, ∀ src dst, step.call = .traverse src dst → step.granted = true →
    before.graph.traverseInner src dst = .ok ()

theorem balance_trans {first mid last : Option UInt64} {m n : Nat}
    (hmid : first.map UInt64.toNat = mid.map fun left => left.toNat + m)
    (hlast : mid.map UInt64.toNat = last.map fun left => left.toNat + n) :
    first.map UInt64.toNat = last.map fun left => left.toNat + (m + n) := by
  cases last with
  | none =>
      rw [Option.map_none, Option.map_eq_none_iff] at hlast
      rw [hmid, hlast, Option.map_none, Option.map_none]
  | some left =>
      rw [Option.map_some, Option.map_eq_some_iff] at hlast
      obtain ⟨held, hheld, heq⟩ := hlast
      rw [hmid, hheld, Option.map_some, Option.map_some, heq]
      congr 1
      omega

section

variable {before mid after : Gates} {steps later : List Step}

theorem Budgeted.refl (gates : Gates) : Budgeted gates [] gates where
  recorded := ⟨[], (List.append_nil _).symm, rfl⟩
  balances node := rfl
  graph := rfl
  edges step h := by cases h

theorem Budgeted.trans (h : Budgeted before steps mid) (h' : Budgeted mid later after) :
    Budgeted before (steps ++ later) after := by
  obtain ⟨events, hevents, hcount⟩ := h.recorded
  obtain ⟨more, hmore, hcount'⟩ := h'.recorded
  refine ⟨⟨events ++ more, ?_, ?_⟩, fun node => ?_, h'.graph.trans h.graph, ?_⟩
  · rw [hmore, hevents, List.append_assoc]
  · rw [List.countP_append, List.countP_append, hcount, hcount']
  · rw [List.map_append, List.sum_append]
    exact balance_trans (h.balances node) (h'.balances node)
  · intro step hstep
    rcases List.mem_append.mp hstep with hearlier | hlater
    · exact h.edges step hearlier
    · rw [← h.graph]
      exact h'.edges step hlater

end

theorem granted_verdict (result : Result Unit) : (Reply.verdict result).granted = result.isOk := by
  cases result <;> rfl

theorem granted_remaining (result : Result UInt64) :
    (Reply.remaining result).granted = result.isOk := by
  cases result <;> rfl

theorem Recorded.length {α : Type} {before after : AuditLog} {kind : EventKind} {actor : UInt32}
    {result : Result α} (h : Recorded before kind actor result after) :
    after.events.toList.length = min (before.events.toList.length + 1) MAX_AUDIT_EVENTS := by
  have hlength := congrArg List.length h.entries
  simp only [AuditLog.entries, List.length_take, List.length_append, List.length_map,
    List.length_singleton] at hlength
  omega

theorem Recorded.budget {α : Type} {before after : AuditLog} {kind : EventKind} {actor : UInt32}
    {result : Result α} (h : Recorded before kind actor result after) {step : Step}
    (hgranted : step.granted = result.isOk) :
    ∃ events, after.events.toList = before.events.toList ++ events ∧
      events.countP AuditEvent.permitted = [step].countP Step.granted := by
  rw [List.countP_singleton, hgranted]
  cases hfull : before.isFull with
  | true =>
      obtain ⟨hsame, hdenied⟩ := h.full hfull
      refine ⟨[], by rw [hsame, List.append_nil], ?_⟩
      cases hresult : result with
      | ok a => exact absurd hresult (hdenied a)
      | error e => rfl
  | false =>
      obtain ⟨event, hevents, -, -, houtcome, -⟩ := h.room hfull
      refine ⟨[event], hevents, ?_⟩
      have hsame : event.permitted = result.isOk := by
        rw [AuditEvent.permitted, Bool.eq_iff_iff, decide_eq_true_eq, houtcome]
        cases result <;> simp [Except.isOk, Except.toBool]
      rw [List.countP_singleton, hsame]

-- A deduction never opens an account.
theorem balance_of_effect {ledger ledger' : Ledger} {payer : NodeId} {amount : UInt64}
    {result : Result UInt64} (h : Effect ledger ledger' (.enforced payer amount result))
    (resource : String) (node : NodeId) : (ledger.balance node).map UInt64.toNat =
      (ledger'.balance node).map fun left =>
        left.toNat + payment node (.deduct payer amount resource, result.isOk) := by
  have hpaid : payment node (.deduct payer amount resource, result.isOk) =
      spentOn node (.enforced payer amount result) := by
    cases result <;> rfl
  rw [hpaid]
  cases h with
  | opened opener ceiling _ _ seeds =>
      have hseed := seeds opener
      rw [if_pos rfl] at hseed
      cases hseed
  | paid spender spent balance _ held covered _ spends balances =>
      rw [spends, balances]
      by_cases heq : node = spender
      · have hcovered := UInt64.le_iff_toNat_le.mp covered
        rw [if_pos heq, if_pos heq, heq, held, Option.map_some, Option.map_some,
          UInt64.toNat_sub_of_le _ _ covered]
        congr 1
        omega
      · rw [if_neg heq, if_neg heq]
        rfl
  | refused _ spends same =>
      rw [spends, same]
      rfl

namespace Gates

variable [Sha256]

def step (gates : Gates) (call : Call) : Step :=
  ⟨call, gates.audit, (gates.perform call).1, (gates.perform call).2.audit⟩

theorem trace_cons (gates : Gates) (call : Call) (later : List Call) :
    gates.trace (call :: later) = [gates.step call] ++ (gates.perform call).2.trace later := rfl

theorem edge_of_granted (gates : Gates) {src dst : NodeId}
    (h : (gates.step (.traverse src dst)).granted = true) :
    gates.graph.traverseInner src dst = .ok () := by
  rw [Step.granted, Gates.step, perform, granted_verdict] at h
  cases hresult : (gates.graph.traverse src dst gates.audit).1 with
  | ok => exact (gate_eq_ok.mp hresult).1
  | error e =>
      rw [hresult] at h
      cases h

theorem budgeted_step (gates : Gates) (call : Call) :
    Budgeted gates [gates.step call] (gates.perform call).2 := by
  have hedges : ∀ step ∈ [gates.step call], ∀ src dst, step.call = .traverse src dst →
      step.granted = true → gates.graph.traverseInner src dst = .ok () := by
    intro step hmem src dst hcall hgranted
    rw [List.mem_singleton.mp hmem] at hcall hgranted
    have hcall : call = .traverse src dst := hcall
    rw [hcall] at hgranted
    exact gates.edge_of_granted hgranted
  cases call with
  | check | traverse =>
      exact ⟨(recorded_gate _).budget (granted_verdict _), fun node => rfl, rfl, hedges⟩
  | deduct node amount resource =>
      refine ⟨(recorded_deduct gates.ledger node amount resource).budget (granted_remaining _),
        fun other => ?_, rfl, hedges⟩
      have hbalance := balance_of_effect
        (gates.ledger.effect_enforce node amount resource gates.audit) resource other
      rw [← granted_remaining] at hbalance
      exact hbalance
  | revoke | rotate =>
      exact ⟨⟨[], (List.append_nil _).symm, rfl⟩, fun node => rfl, rfl, hedges⟩

theorem budgeted_run (gates : Gates) (calls : List Call) :
    Budgeted gates (gates.trace calls) (gates.run calls) := by
  induction calls generalizing gates with
  | nil => exact .refl gates
  | cons call later ih =>
      rw [trace_cons]
      exact (gates.budgeted_step call).trans (ih (gates.perform call).2)

-- Each grant takes a slot of the log for good. A rotation gives none back, so that a
-- full log ends all grants.
theorem grants_bounded (gates : Gates) (calls : List Call) :
    (gates.trace calls).countP Step.granted + gates.audit.events.toList.length ≤
        MAX_AUDIT_EVENTS ∧
      (gates.audit.isFull = true → ∀ step ∈ gates.trace calls, step.granted = false) := by
  obtain ⟨events, hevents, hcount⟩ := (gates.budgeted_run calls).recorded
  have hmax := (gates.run calls).audit.events.length_le
  rw [hevents, List.length_append] at hmax
  have hle : events.countP AuditEvent.permitted ≤ events.length := List.countP_le_length
  have hbound : (gates.trace calls).countP Step.granted + gates.audit.events.toList.length ≤
      MAX_AUDIT_EVENTS := by omega
  refine ⟨hbound, fun hfull step hstep => ?_⟩
  have hnone : (gates.trace calls).countP Step.granted = 0 := by
    have hlen := AuditLog.isFull_iff.mp hfull
    omega
  rw [List.countP_eq_zero] at hnone
  exact Bool.eq_false_iff.mpr (hnone step hstep)

end Gates

end LuxKernel.Audit
