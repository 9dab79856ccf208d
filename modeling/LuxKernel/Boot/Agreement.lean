import LuxKernel.Boot.Exhaustion

namespace LuxKernel.Boot

open Audit Consensus Function Heapless LuxKernel.Topology

section Condition

variable [Sha256] (V : Membership) (boot : NodeId → BootState) (s : Deployment)

-- The call may return `Ok`, as far as the gate of its caller and the votes go.
def Round.MayWin (round : Round) : Prop :=
  ((boot round.caller).graph.traverse round.src round.dst round.audit).1 = .ok () ∧
    ¬Hopeless V s round.caller round.inbox

-- The call has returned `Ok`, or it is open and may do so.
def Round.Live (round : Round) : Prop :=
  round.ReturnsOk ∨ (round.returned.isNone = true ∧ round.MayWin V boot s)

-- A call that may win is made only for the edge of all the others that are live.
def SameEdge : Event → Prop
  | .call caller src dst audit =>
      Round.MayWin V boot s ⟨caller, src, dst, audit, [], none⟩ →
        ∀ round ∈ s.rounds, round.Live V boot s → round.src = src ∧ round.dst = dst
  | _ => True

instance (round : Round) : Decidable (round.MayWin V boot s) :=
  inferInstanceAs (Decidable (_ ∧ _))

instance (round : Round) : Decidable (round.Live V boot s) := inferInstanceAs (Decidable (_ ∨ _))

instance : (event : Event) → Decidable (SameEdge V boot s event)
  | .call .. => inferInstanceAs (Decidable (_ → ∀ round ∈ s.rounds, _))
  | .answer _ => inferInstanceAs (Decidable True)
  | .hear .. => inferInstanceAs (Decidable True)
  | .finish _ => inferInstanceAs (Decidable True)

end Condition

section Agreement

variable [Sha256] {V : Membership} {boot : NodeId → BootState} {s s' : Deployment}
variable {event : Event}

-- All live calls are for one edge.
def OneEdge (V : Membership) (boot : NodeId → BootState) (s : Deployment) : Prop :=
  ∀ a ∈ s.rounds, ∀ b ∈ s.rounds, a.Live V boot s → b.Live V boot s →
    a.src = b.src ∧ a.dst = b.dst

-- Nothing comes to life again: a live call has just been made and may win, or it was live
-- before.
theorem live_step (h : Orderly V s) (hrec : Recorded V boot s')
    (hrun : s.happen V boot event = some s') {round' : Round} (hmem : round' ∈ s'.rounds)
    (hlive : round'.Live V boot s') :
    (∃ caller src dst audit, event = .call caller src dst audit ∧
      Round.MayWin V boot s ⟨caller, src, dst, audit, [], none⟩ ∧
      round'.src = src ∧ round'.dst = dst) ∨
    ∃ round ∈ s.rounds, round.Live V boot s ∧ round'.src = round.src ∧ round'.dst = round.dst := by
  obtain ⟨k, hk⟩ := List.getElem?_of_mem hmem
  rcases round_step h hrun hk with
    ⟨caller, src, dst, audit, hevent, rfl⟩ |
      ⟨round, hround, hcaller, hsrc, hdst, haudit, hsame, hstays⟩
  · rcases hlive with ⟨outcome, hnone, -⟩ | ⟨-, hgate, hchance⟩
    · cases hnone
    · exact Or.inl ⟨caller, src, dst, audit, hevent,
        ⟨hgate, fun hopeless => hchance (hopeless.step h hrun)⟩, rfl, rfl⟩
  · refine Or.inr ⟨round, List.mem_of_getElem? hround, ?_, hsrc, hdst⟩
    rcases hlive with hok | ⟨hopen, hgate, hchance⟩
    · rcases hsame with rfl | hopen
      · exact Or.inl hok
      · -- it was open and has won since
        obtain ⟨outcome, hreturned, hresult⟩ := hok
        have hout := hrec round' hmem outcome hreturned
        have hgate := (runTopologyConsensus_audit hout hresult).1
        rw [hcaller, hsrc, hdst, haudit] at hgate
        exact Or.inr ⟨hopen, hgate, fun hopeless => (hstays hopeless).not_ok hout hresult⟩
    · rw [hcaller, hsrc, hdst, haudit] at hgate
      have hbefore : round.returned.isNone = true := by
        rcases hsame with rfl | hopen
        · exact hopen
        · exact hopen
      exact Or.inr ⟨hbefore, hgate, mt hstays hchance⟩

theorem OneEdge.step (h : OneEdge V boot s) (horderly : Orderly V s) (hrec : Recorded V boot s')
    (hstep : Deployment.Step V boot (SameEdge V boot) s s') : OneEdge V boot s' := by
  obtain ⟨event, hrun, hsame⟩ := hstep
  intro a ha b hb hla hlb
  rcases live_step horderly hrec hrun ha hla with
    ⟨caller, src, dst, audit, rfl, hmay, hsrca, hdsta⟩ | ⟨a₀, ha₀, hla₀, hsrca, hdsta⟩
  · rcases live_step horderly hrec hrun hb hlb with
      ⟨_, _, _, _, hevent, -, hsrcb, hdstb⟩ | ⟨b₀, hb₀, hlb₀, hsrcb, hdstb⟩
    · cases hevent
      exact ⟨hsrca.trans hsrcb.symm, hdsta.trans hdstb.symm⟩
    · obtain ⟨hsrc, hdst⟩ := hsame hmay b₀ hb₀ hlb₀
      exact ⟨by rw [hsrca, hsrcb, hsrc], by rw [hdsta, hdstb, hdst]⟩
  · rcases live_step horderly hrec hrun hb hlb with
      ⟨caller, src, dst, audit, rfl, hmay, hsrcb, hdstb⟩ | ⟨b₀, hb₀, hlb₀, hsrcb, hdstb⟩
    · obtain ⟨hsrc, hdst⟩ := hsame hmay a₀ ha₀ hla₀
      exact ⟨by rw [hsrca, hsrcb, hsrc], by rw [hdsta, hdstb, hdst]⟩
    · rw [hsrca, hdsta, hsrcb, hdstb]
      exact h a₀ ha₀ b₀ hb₀ hla₀ hlb₀

theorem OneEdge.reaches
    (hrun : Deployment.Reaches V boot (SameEdge V boot) (Deployment.start V) s) :
    OneEdge V boot s := by
  induction hrun with
  | refl => exact fun a ha => by cases ha
  | tail hreach hstep ih =>
      exact ih.step (.reaches hreach) (.reaches (hreach.tail hstep)) hstep

-- Calls agree in every run in which each that may win is made for the edge of the others.
theorem roundsAgree_of_sameEdge
    (hrun : Deployment.Reaches V boot (SameEdge V boot) (Deployment.start V) s) :
    RoundsAgree s := by
  rw [(Recorded.reaches hrun).roundsAgree_iff]
  intro a ha b hb hoka hokb
  exact OneEdge.reaches hrun a ha b hb (Or.inl hoka) (Or.inl hokb)

end Agreement

section ThreeNodes

attribute [local instance] Sha256.zero

-- Both others have stored the edge of the first call. The second call of `node1`, for
-- another edge, finds no vote; `node2` calls for the first edge while it is still open.
def secondEdge : List Event :=
  heardByAll ++ [.call node1 node1 node3 .new, .answer 8, .hear 1 10, .call node2 node1 node2 .new,
    .answer 11, .hear 2 13, .answer 14, .hear 2 16, .finish 2, .finish 1]

theorem roundsAgree_of_sameEdge_trio :
    ∃ s, Deployment.Reaches trio meshed (SameEdge trio meshed) (Deployment.start trio) s ∧
      s.rounds.map Round.dst = [node2, node3, node2] ∧
      s.rounds.countP (fun round => decide round.ReturnsOk) = 2 ∧ RoundsAgree s := by
  obtain ⟨s, hrun, hp⟩ := Deployment.exists_reaches trio meshed (SameEdge trio meshed)
    secondEdge (s := .start trio)
    (p := fun s => decide (s.rounds.map Round.dst = [node2, node3, node2] ∧
      s.rounds.countP (fun round => decide round.ReturnsOk) = 2)) (by decide +kernel)
  rw [decide_eq_true_eq] at hp
  exact ⟨s, hrun, hp.1, hp.2, roundsAgree_of_sameEdge hrun⟩

-- `node1` calls twice. The first call hears only `node3` and the second only
-- `node2`, which knows nothing of the first.
def twoCalls : List Event :=
  [.call node1 node1 node2 .new, .answer 1, .hear 0 2, .answer 4, .hear 0 5, .finish 0,
   .call node1 node1 node3 .new, .answer 6, .hear 1 8, .answer 9, .hear 1 11, .finish 1]

theorem rounds_disagree :
    ∃ s, Deployment.Reaches trio meshed anyEvent (Deployment.start trio) s ∧ ¬RoundsAgree s := by
  obtain ⟨s, hrun, hp⟩ := Deployment.exists_reaches trio meshed anyEvent twoCalls
    (s := .start trio)
    (p := fun s => decide (∃ a ∈ s.rounds, ∃ b ∈ s.rounds, a.ReturnsOk ∧ b.ReturnsOk ∧
      a.dst = node2 ∧ b.dst = node3)) (by decide +kernel)
  rw [decide_eq_true_eq] at hp
  obtain ⟨a, ha, b, hb, hoka, hokb, hdsta, hdstb⟩ := hp
  refine ⟨s, hrun, fun hagree => ?_⟩
  have hsame := ((Recorded.reaches hrun).roundsAgree_iff.mp hagree a ha b hb hoka hokb).2
  rw [hdsta, hdstb] at hsame
  revert hsame
  decide

end ThreeNodes

end LuxKernel.Boot
