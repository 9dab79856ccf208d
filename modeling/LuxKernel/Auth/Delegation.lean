import LuxKernel.Auth.Lineage

namespace LuxKernel.Auth

open Audit Heapless

-- A call on the policy, or on a token by its holder.
inductive Call where
  | policy (op : Op)
  | delegate (parent : Capability) (newTarget : NodeId) (subset : CapabilitySet) (nonce : UInt64)
deriving DecidableEq

-- `delegate` neither reads nor writes the policy.
def Call.op? : Call → Option Op
  | .policy op => some op
  | .delegate .. => none

-- The tokens that these calls, listed latest first, obtain from `root`.
def descendants (root : Capability) : List Call → List Capability
  | [] => []
  | .policy _ :: earlier => descendants root earlier
  | .delegate parent newTarget subset nonce :: earlier =>
      if parent ∈ root :: descendants root earlier then
        (parent.delegate newTarget subset nonce).toList ++ descendants root earlier
      else descendants root earlier

theorem lineage_of_mem_descendants {root child : Capability} {calls : List Call}
    (h : child ∈ descendants root calls) :
    ∃ parent ancestors, Lineage root (parent :: ancestors) child := by
  induction calls generalizing child with
  | nil => cases h
  | cons call earlier ih =>
      cases call with
      | policy op => exact ih h
      | delegate parent newTarget subset nonce =>
          unfold descendants at h
          split at h
          · rename_i hparent
            rcases List.mem_append.mp h with hnew | hold
            · have hstep := Option.mem_toList.mp hnew
              rcases List.mem_cons.mp hparent with rfl | hknown
              · exact ⟨_, _, .delegate .root hstep⟩
              · obtain ⟨grandparent, ancestors, line⟩ := ih hknown
                exact ⟨_, _, .delegate line hstep⟩
            · exact ih hold
          · exact ih h

-- A chain of delegations stays in the generation of its root, and there is none
-- without the right to delegate.
theorem descendants_root {root child : Capability} {calls : List Call}
    (h : child ∈ descendants root calls) :
    child.generation = root.generation ∧ root.rights.contains .DELEGATE = true := by
  obtain ⟨parent, ancestors, line⟩ := lineage_of_mem_descendants h
  have hroot := line.root_mem.resolve_left (List.cons_ne_nil _ _)
  exact ⟨line.generation_eq, line.ancestors_delegate root hroot⟩

theorem mem_descendants_delegate {root child : Capability} {newTarget : NodeId}
    {subset : CapabilitySet} {nonce : UInt64}
    (h : root.delegate newTarget subset nonce = some child) :
    child ∈ descendants root [.delegate root newTarget subset nonce] := by
  simp [descendants, h]

-- Both stores of the policy are bounded, so an unused nonce is always left.
theorem exists_fresh_nonce (policy : Policy) :
    ∃ n, policy.revocation.isRevoked n = false ∧ n ∉ policy.usedNonces.toList := by
  let taken := policy.revocation.revoked.keys ++ policy.usedNonces.toList
  have htaken : taken.length ≤ MAX_REVOCATIONS + NONCE_WINDOW := by
    rw [List.length_append]
    exact Nat.add_le_add policy.revocation.revoked.length_le policy.usedNonces.length_le
  let candidates := (List.range (MAX_REVOCATIONS + NONCE_WINDOW + 1)).map UInt64.ofNat
  have hnodup : candidates.Nodup := by
    refine List.Nodup.map_on (fun a ha b hb hab => ?_) List.nodup_range
    have hsize : MAX_REVOCATIONS + NONCE_WINDOW + 1 < UInt64.size := by decide
    rw [List.mem_range] at ha hb
    rw [← UInt64.toNat_ofNat_of_lt' (Nat.lt_trans ha hsize),
      ← UInt64.toNat_ofNat_of_lt' (Nat.lt_trans hb hsize), hab]
  obtain ⟨n, hn⟩ : ∃ n, n ∉ taken := by
    by_contra hall
    push Not at hall
    have hle := (hnodup.subperm fun n _ => hall n).length_le
    simp only [candidates, List.length_map, List.length_range] at hle
    omega
  rw [List.mem_append, not_or] at hn
  exact ⟨n, by simpa [RevocationLedger.isRevoked, IndexSet.contains] using hn.1, hn.2⟩

-- The nonce has been revoked or accepted in the current generation.
def Spent (history : List Event) (n : UInt64) : Prop :=
  .revoked n true ∈ sinceRotation history ∨
    ∃ event ∈ sinceRotation history, accepted event = some n

section

variable [Sha256]

def after (generation : Generation) (calls : List Call) : List Event × Policy :=
  Policy.run generation (calls.filterMap Call.op?)

-- Until the next rotation the generation stays and the history only grows.
theorem after_unrotated (generation : Generation) {later : List Call} (before : List Call)
    (hlater : .policy .rotate ∉ later) :
    generationAfter generation (after generation (later ++ before)).1 =
      generationAfter generation (after generation before).1 ∧
    sinceRotation (after generation before).1 <:+
      sinceRotation (after generation (later ++ before)).1 := by
  induction later with
  | nil => exact ⟨rfl, List.suffix_refl _⟩
  | cons call rest ih =>
      obtain ⟨hcall, hrest⟩ := not_or.mp (mt List.mem_cons.mpr hlater)
      obtain ⟨hgen, hsuffix⟩ := ih hrest
      cases call with
      | delegate => exact ⟨hgen, hsuffix⟩
      | policy op =>
          cases op with
          | rotate => exact absurd rfl hcall
          | check => exact ⟨hgen, hsuffix.trans (List.suffix_cons _ _)⟩
          | revoke => exact ⟨hgen, hsuffix.trans (List.suffix_cons _ _)⟩

-- What a token of a later delegation meets: nothing obtained from `cap` is
-- accepted before the next rotation.
def Barren (generation : Generation) (before : List Call) (cap : Capability) : Prop :=
  ∀ later, .policy .rotate ∉ later → ∀ child ∈ descendants cap later, ∀ right audit,
    ((after generation (later ++ before)).2.check child right audit).1 ≠ .ok ()

-- `delegate` never asks the policy about its parent. Whether the offspring of a
-- token is accepted is decided by what the offspring inherits, and by the room
-- left in the nonce window.
theorem barren_iff (generation : Generation) (before : List Call) (cap : Capability) :
    Barren generation before cap ↔
      cap.generation ≠ generationAfter generation (after generation before).1 ∨
      cap.rights.contains .DELEGATE = false ∨
      NONCE_WINDOW ≤ ((sinceRotation (after generation before).1).filterMap consumed).length := by
  constructor
  · intro hbarren
    by_contra hcond
    simp only [not_or, ne_eq, not_not, Bool.not_eq_false, Nat.not_le] at hcond
    obtain ⟨hgen, hright, hroom⟩ := hcond
    have hmem := remembers_run generation (before.filterMap Call.op?)
    obtain ⟨n, hunrevoked, hunused⟩ := exists_fresh_nonce (after generation before).2
    let child : Capability := ⟨cap.target, cap.target, .DELEGATE, cap.generation, n⟩
    have hchild : cap.delegate cap.target .DELEGATE n = some child :=
      Capability.delegate_eq_some.mpr ⟨hright, hright, rfl⟩
    have hadm : (after generation before).2.Admits child .DELEGATE := by
      refine ⟨hgen.trans hmem.generation.symm, CapabilitySet.contains_self _, hunrevoked,
        hunused, ?_⟩
      rw [← List.length_reverse]
      exact hmem.used ▸ hroom
    refine hbarren [.delegate cap cap.target .DELEGATE n] (by simp) child
      (mem_descendants_delegate hchild) .DELEGATE AuditLog.new ?_
    exact Policy.check_eq_ok.mpr ⟨hadm, rfl⟩
  · intro hcond later hlater child hchild right audit hok
    obtain ⟨hsame, hdelegate⟩ := descendants_root hchild
    obtain ⟨hgen, hsuffix⟩ := after_unrotated generation before hlater
    obtain ⟨hall, -⟩ := (check_iff_allowed generation _ child right audit).mp hok
    rcases hcond with hne | hright | hfull
    · exact hne (hsame.symm.trans (hall.generation.trans hgen))
    · rw [hright] at hdelegate
      cases hdelegate
    · exact Nat.not_lt.mpr (hfull.trans (hsuffix.filterMap consumed).length_le) hall.room

-- A spent token has no accepted offspring exactly when it is of another
-- generation, cannot delegate, or finds the nonce window full.
theorem spent_barren_iff (generation : Generation) (before : List Call) (cap : Capability) :
    (Spent (after generation before).1 cap.nonce → Barren generation before cap) ↔
      (Spent (after generation before).1 cap.nonce →
        cap.generation ≠ generationAfter generation (after generation before).1 ∨
        cap.rights.contains .DELEGATE = false ∨
        NONCE_WINDOW ≤
          ((sinceRotation (after generation before).1).filterMap consumed).length) := by
  rw [barren_iff]

end

section

attribute [local instance] Sha256.zero

-- Token 7 is revoked and then hands its rights to node 2 under nonce 8.
def revokedParent : Capability := ⟨node1, node1, ⟨12⟩, ⟨0⟩, 7⟩
def lateChild : Capability := ⟨node1, node2, .SCHEDULE, ⟨0⟩, 8⟩

theorem revoked_parent_delegates :
    .revoked revokedParent.nonce true ∈
      sinceRotation (after ⟨0⟩ [.policy (.revoke 7)]).1 ∧
    lateChild ∈ descendants revokedParent [.delegate revokedParent node2 .SCHEDULE 8] ∧
    ((after ⟨0⟩ [.delegate revokedParent node2 .SCHEDULE 8, .policy (.revoke 7)]).2.check
      lateChild .SCHEDULE AuditLog.new).1 = .ok () := by
  refine ⟨?_, ?_, ?_⟩
  · exact List.mem_cons_self
  · exact mem_descendants_delegate rfl
  · decide +kernel

end

end LuxKernel.Auth
