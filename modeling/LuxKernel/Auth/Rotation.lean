import LuxKernel.Auth.History

namespace LuxKernel.Auth

open Audit

-- The generation and nonce of a check that returned `Ok`.
def acceptedToken : Event → Option (Generation × UInt64)
  | .checked cap _ _ (.ok ()) => some (cap.generation, cap.nonce)
  | _ => none

-- No token is accepted twice, in whatever generations the history passes through.
def AcceptedOnce (history : List Event) : Prop := (history.filterMap acceptedToken).Nodup

-- A revocation that was reported as done in a generation holds against the tokens
-- of that generation for the rest of the history, which is listed latest first.
def RevokedForGood (generation : Generation) (history : List Event) : Prop :=
  ∀ later n earlier, history = later ++ .revoked n true :: earlier →
    ∀ event ∈ later, acceptedToken event ≠ some (generationAfter generation earlier, n)

variable {generation : Generation} {history : List Event} {event : Event}

theorem accepted_of_acceptedToken {g : Generation} {n : UInt64}
    (h : acceptedToken event = some (g, n)) : accepted event = some n := by
  unfold acceptedToken at h
  split at h
  · cases h
    rfl
  · cases h

theorem sinceRotation_cons (h : event ≠ .rotated) :
    sinceRotation (event :: history) = event :: sinceRotation history := by
  cases event with
  | rotated => exact absurd rfl h
  | _ => rfl

theorem generationAfter_cons (h : event ≠ .rotated) :
    generationAfter generation (event :: history) = generationAfter generation history := by
  cases event with
  | rotated => exact absurd rfl h
  | _ => rfl

-- The generation counter never goes back.
theorem generationAfter_le (generation : Generation) (later earlier : List Event) :
    (generationAfter generation earlier).val.toNat ≤
      (generationAfter generation (later ++ earlier)).val.toNat := by
  induction later with
  | nil => exact Nat.le_refl _
  | cons event rest ih =>
      rw [List.cons_append]
      by_cases hrot : event = .rotated
      · subst hrot
        exact ih.trans (le_saturatingSucc _)
      · rw [generationAfter_cons hrot]
        exact ih

section

variable [Sha256]

-- Every rotation of the run moves the counter: none is made at its last value.
def Advancing (generation : Generation) : List Op → Prop
  | [] => True
  | .rotate :: earlier =>
      (Policy.run generation earlier).2.currentGeneration.val ≠ U64_MAX ∧
        Advancing generation earlier
  | _ :: earlier => Advancing generation earlier

variable {op : Op} {ops : List Op}

theorem Advancing.earlier (h : Advancing generation (op :: ops)) : Advancing generation ops := by
  cases op with
  | rotate => exact h.2
  | _ => exact h

theorem Advancing.generation_lt (h : Advancing generation (.rotate :: ops)) :
    (generationAfter generation (Policy.run generation ops).1).val.toNat <
      (generationAfter generation (.rotated :: (Policy.run generation ops).1)).val.toNat := by
  apply lt_saturatingSucc
  rw [← (remembers_run generation ops).generation]
  exact h.1

theorem Policy.run_cons (generation : Generation) (op : Op) (ops : List Op) :
    (Policy.run generation (op :: ops)).1 =
      ((Policy.run generation ops).2.perform op).1 :: (Policy.run generation ops).1 := rfl

theorem perform_eq_rotated {policy : Policy} (h : (policy.perform op).1 = .rotated) :
    op = .rotate := by
  cases op with
  | rotate => rfl
  | _ => cases h

-- What a token of an old event can still meet: the event is remembered, or the
-- counter has moved past it.
theorem remembered_or_stale (hadv : Advancing generation ops) {later earlier : List Event}
    (h : (Policy.run generation ops).1 = later ++ event :: earlier) :
    event ∈ sinceRotation (Policy.run generation ops).1 ∨
      (generationAfter generation earlier).val.toNat <
        (generationAfter generation (Policy.run generation ops).1).val.toNat := by
  induction ops generalizing later with
  | nil => simp [Policy.run] at h
  | cons op ops ih =>
      rw [Policy.run_cons] at h ⊢
      by_cases hrot : ((Policy.run generation ops).2.perform op).1 = .rotated
      · obtain rfl := perform_eq_rotated hrot
        right
        have hlt := hadv.generation_lt
        cases later with
        | nil =>
            obtain ⟨-, rfl⟩ := List.cons.inj h
            exact hlt
        | cons newest later =>
            have htail : (Policy.run generation ops).1 = later ++ event :: earlier :=
              (List.cons.inj h).2
            have hle := generationAfter_le generation (later ++ [event]) earlier
            rw [List.append_assoc, List.singleton_append, ← htail] at hle
            exact Nat.lt_of_le_of_lt hle hlt
      · rw [sinceRotation_cons hrot, generationAfter_cons hrot, List.mem_cons]
        cases later with
        | nil =>
            obtain ⟨hev, -⟩ := List.cons.inj h
            exact Or.inl (Or.inl hev.symm)
        | cons newest later =>
            obtain ⟨-, htail⟩ := List.cons.inj h
            exact (ih hadv.earlier htail).imp_left Or.inr

-- Only tokens of the current generation are accepted.
theorem acceptedToken_perform {g : Generation} {n : UInt64}
    (h : acceptedToken ((Policy.run generation ops).2.perform op).1 = some (g, n)) :
    g = generationAfter generation (Policy.run generation ops).1 := by
  cases op with
  | revoke tokenId => cases h
  | rotate => cases h
  | check cap right audit =>
      simp only [Policy.perform] at h
      generalize hres : ((Policy.run generation ops).2.check cap right audit).1 = result at h
      cases result with
      | error e => cases h
      | ok =>
          cases h
          exact ((check_iff_allowed generation ops cap right audit).mp hres).1.generation

theorem acceptedToken_generation {later earlier : List Event} {g : Generation} {n : UInt64}
    (h : (Policy.run generation ops).1 = later ++ event :: earlier)
    (hacc : acceptedToken event = some (g, n)) : g = generationAfter generation earlier := by
  induction ops generalizing later with
  | nil => simp [Policy.run] at h
  | cons op ops ih =>
      rw [Policy.run_cons] at h
      cases later with
      | nil =>
          obtain ⟨rfl, rfl⟩ := List.cons.inj h
          exact acceptedToken_perform hacc
      | cons newest later => exact ih (List.cons.inj h).2

-- A check accepts nothing that an event of its own generation has used or revoked,
-- however far back that event lies.
theorem perform_fresh (hadv : Advancing generation ops) {later earlier : List Event} {n : UInt64}
    (h : (Policy.run generation ops).1 = later ++ event :: earlier)
    (hacc : acceptedToken ((Policy.run generation ops).2.perform op).1 =
      some (generationAfter generation earlier, n)) :
    accepted event ≠ some n ∧ event ≠ .revoked n true := by
  rcases remembered_or_stale hadv h with hmem | hstale
  · exact perform_respects generation ops op event hmem n (accepted_of_acceptedToken hacc)
  · rw [acceptedToken_perform hacc] at hstale
    exact absurd hstale (Nat.lt_irrefl _)

theorem acceptedOnce_run (hadv : Advancing generation ops) :
    AcceptedOnce (Policy.run generation ops).1 := by
  induction ops with
  | nil => exact List.nodup_nil
  | cons op ops ih =>
      rw [AcceptedOnce, Policy.run_cons, List.filterMap_cons]
      split
      · exact ih hadv.earlier
      · rename_i token htoken
        refine List.nodup_cons.mpr ⟨fun hmem => ?_, ih hadv.earlier⟩
        obtain ⟨older, holder, hsame⟩ := List.mem_filterMap.mp hmem
        obtain ⟨later, earlier, hsplit⟩ := List.append_of_mem holder
        obtain ⟨g, n⟩ := token
        obtain rfl := acceptedToken_generation hsplit hsame
        have hfresh := perform_fresh hadv.earlier hsplit htoken
        exact hfresh.1 (accepted_of_acceptedToken hsame)

theorem revokedForGood_run (hadv : Advancing generation ops) :
    RevokedForGood generation (Policy.run generation ops).1 := by
  intro later n earlier hsplit
  induction ops generalizing later with
  | nil => simp [Policy.run] at hsplit
  | cons op ops ih =>
      rw [Policy.run_cons] at hsplit
      cases later with
      | nil => simp
      | cons newest later =>
          obtain ⟨rfl, htail⟩ := List.cons.inj hsplit
          intro event hevent hacc
          rcases List.mem_cons.mp hevent with rfl | hold
          · exact (perform_fresh hadv.earlier htail hacc).2 rfl
          · exact ih hadv.earlier later htail event hold hacc

-- As long as rotations move the counter, what a generation has used or revoked
-- stays so, although both stores are cleared each time.
theorem tokens_stay_spent (generation : Generation) (ops : List Op)
    (hadv : Advancing generation ops) :
    AcceptedOnce (Policy.run generation ops).1 ∧
      RevokedForGood generation (Policy.run generation ops).1 :=
  ⟨acceptedOnce_run hadv, revokedForGood_run hadv⟩

end

section

attribute [local instance] Sha256.zero

def scheduleToken (generation : Generation) (nonce : UInt64) : Capability :=
  ⟨node1, node1, .SCHEDULE, generation, nonce⟩

-- Token 7 is used and token 8 revoked, and after a rotation both are presented.
def presentedAgain (generation : Generation) : List Op :=
  [.check (scheduleToken generation 8) .SCHEDULE .new,
    .check (scheduleToken generation 7) .SCHEDULE .new,
    .rotate,
    .revoke 8,
    .check (scheduleToken generation 7) .SCHEDULE .new]

theorem tokens_stay_spent_from_zero :
    Advancing ⟨0⟩ (presentedAgain ⟨0⟩) ∧
      AcceptedOnce (Policy.run ⟨0⟩ (presentedAgain ⟨0⟩)).1 ∧
      RevokedForGood ⟨0⟩ (Policy.run ⟨0⟩ (presentedAgain ⟨0⟩)).1 :=
  have hadv : Advancing ⟨0⟩ (presentedAgain ⟨0⟩) := ⟨by decide +kernel, trivial⟩
  ⟨hadv, tokens_stay_spent ⟨0⟩ _ hadv⟩

-- At the last generation the counter saturates. The rotation then only empties the
-- two stores, and both tokens are accepted.
theorem tokens_return_at_last_generation :
    ¬AcceptedOnce (Policy.run ⟨U64_MAX⟩ (presentedAgain ⟨U64_MAX⟩)).1 ∧
      ¬RevokedForGood ⟨U64_MAX⟩ (Policy.run ⟨U64_MAX⟩ (presentedAgain ⟨U64_MAX⟩)).1 := by
  constructor
  · unfold AcceptedOnce
    decide +kernel
  · intro h
    refine h [_, _, _] 8 [_] rfl _ List.mem_cons_self ?_
    decide +kernel

end

end LuxKernel.Auth
