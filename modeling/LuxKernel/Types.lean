import Mathlib.Data.UInt
import Mathlib.Tactic.Linarith

namespace LuxKernel

-- Capacity constants of `types.rs` and `consensus/peer.rs`.
def MAX_NODES : Nat := 64
def MAX_EDGES : Nat := 256
def NONCE_WINDOW : Nat := 256
def MAX_REVOCATIONS : Nat := 256
def MAX_RESERVATIONS : Nat := 256
def MAX_RESERVATION_TTL : UInt64 := 4096
def MAX_AUDIT_EVENTS : Nat := 512
def MAX_PEERS : Nat := 16

abbrev Bytes := List UInt8

-- SHA-256 digests.
abbrev Digest := Vector UInt8 32

-- SHA-256 is a black box: nothing in the kernel depends on how it is computed.
class Sha256 where
  digest : Bytes → Digest

-- A hash for runs on fixed inputs. No verdict depends on the digests.
@[reducible] def Sha256.zero : Sha256 := ⟨fun _ => Vector.replicate 32 0⟩

-- `NonZeroU32`.
structure NodeId where
  get : UInt32
  ne_zero : get ≠ 0
deriving DecidableEq, Repr

namespace NodeId

-- `NonZeroU32::new`.
def new (raw : UInt32) : Option NodeId := if h : raw ≠ 0 then some ⟨raw, h⟩ else none

-- `NonZeroU32::MIN`.
def MIN : NodeId := ⟨1, by decide⟩

@[ext] theorem ext {a b : NodeId} (h : a.get = b.get) : a = b := by
  cases a; cases b; simp_all

theorem new_eq_some {raw : UInt32} {id : NodeId} : new raw = some id ↔ raw = id.get := by
  unfold new
  constructor
  · intro h
    split at h
    · rw [← Option.some.inj h]
    · cases h
  · rintro rfl
    rw [dif_pos id.ne_zero]

theorem toNat_pos (id : NodeId) : 0 < id.get.toNat := by
  have h := id.ne_zero
  by_contra hz
  exact h (UInt32.toNat_inj.mp (by simpa using Nat.le_zero.mp (Nat.le_of_not_lt hz)))

end NodeId

def node1 : NodeId := ⟨1, by decide⟩
def node2 : NodeId := ⟨2, by decide⟩
def node3 : NodeId := ⟨3, by decide⟩

structure Generation where
  val : UInt64
deriving DecidableEq, Repr

-- `u64::MAX`.
def U64_MAX : UInt64 := 0xffffffffffffffff

-- `u64::saturating_add(1)`.
def saturatingSucc (n : UInt64) : UInt64 := if n.toNat + 1 < UInt64.size then n + 1 else n

theorem toNat_saturatingSucc {n : UInt64} (h : n.toNat + 1 < UInt64.size) :
    (saturatingSucc n).toNat = n.toNat + 1 := by
  rw [saturatingSucc, if_pos h, UInt64.toNat_add]
  exact Nat.mod_eq_of_lt h

theorem lt_saturatingSucc {n : UInt64} (h : n ≠ U64_MAX) :
    n.toNat < (saturatingSucc n).toNat := by
  have hne : n.toNat ≠ U64_MAX.toNat := fun heq => h (UInt64.toNat_inj.mp heq)
  have hmax : U64_MAX.toNat + 1 = UInt64.size := rfl
  have hlt := n.toNat_lt_size
  rw [toNat_saturatingSucc (by omega)]
  omega

theorem le_saturatingSucc (n : UInt64) : n.toNat ≤ (saturatingSucc n).toNat := by
  by_cases h : n = U64_MAX
  · rw [h]
    decide
  · exact Nat.le_of_lt (lt_saturatingSucc h)

-- `u64::saturating_add`.
def saturatingAdd (a b : UInt64) : UInt64 :=
  if a.toNat + b.toNat < UInt64.size then a + b else U64_MAX

theorem toNat_saturatingAdd (a b : UInt64) :
    (saturatingAdd a b).toNat = min (a.toNat + b.toNat) U64_MAX.toNat := by
  have hmax : U64_MAX.toNat + 1 = UInt64.size := rfl
  unfold saturatingAdd
  split
  · rename_i h
    have hsum : (a + b).toNat = a.toNat + b.toNat := by
      rw [UInt64.toNat_add]
      exact Nat.mod_eq_of_lt h
    omega
  · omega

-- `u64` addition under `overflow-checks = true` and `panic = "abort"`, the two
-- build profiles of the crate. `none` stops the process.
def addU64 (a b : Nat) : Option Nat := if a + b < 2 ^ 64 then some (a + b) else none

theorem addU64_eq_some {a b c : Nat} : addU64 a b = some c ↔ a + b < 2 ^ 64 ∧ a + b = c := by
  unfold addU64
  split <;> simp_all

theorem addU64_eq_none {a b : Nat} : addU64 a b = none ↔ 2 ^ 64 ≤ a + b := by
  unfold addU64
  split <;> simp_all

structure Quota where
  ceiling : UInt64
deriving DecidableEq, Repr

inductive DenialClass where
  | halt
  | failure
deriving DecidableEq, Repr

inductive Error where
  | capabilityDenied (reason : String)
  | quotaExceeded (resource : String)
  | topologyViolation (src dst : UInt32)
  | manifestInvalid (detail : String)
  | schedulerInvariant (detail : String)
  | undefinedState (context : String)
  | wasmFault (detail : String)
  | auditFull
  | reservationDenied (reason : String)
deriving DecidableEq, Repr

namespace Error

def denialReasonStr : Error → String
  | capabilityDenied reason => reason
  | reservationDenied reason => reason
  | quotaExceeded resource => resource
  | topologyViolation _ _ => "edge not in boot manifest"
  | manifestInvalid detail => detail
  | schedulerInvariant detail => detail
  | wasmFault detail => detail
  | undefinedState context => context
  | auditFull => "audit log full; rotate to reclaim"

def denialClass : Error → DenialClass
  | capabilityDenied _ => .halt
  | topologyViolation _ _ => .halt
  | manifestInvalid _ => .halt
  | undefinedState _ => .halt
  | wasmFault _ => .halt
  | auditFull => .halt
  | reservationDenied _ => .halt
  | quotaExceeded _ => .failure
  | schedulerInvariant _ => .failure

end Error

-- `kernel::Result`.
abbrev Result (α : Type) := Except Error α

-- The `?` operator.
theorem bind_eq_ok {ε α β : Type} {x : Except ε α} {f : α → Except ε β} {b : β} :
    (x >>= f) = .ok b ↔ ∃ a, x = .ok a ∧ f a = .ok b := by
  cases x <;> simp [bind, Except.bind]

section Calls

variable {σ α : Type} {call : Result Unit × σ} {next : σ → Result Unit × σ} {s s' : σ}

-- The `?` operator after a call that takes `&mut self`: an error is passed on with the
-- state that the call has left.
def andThen (call : Result Unit × σ) (next : σ → Result Unit × σ) : Result Unit × σ :=
  match call with
  | (.error e, s) => (.error e, s)
  | (.ok (), s) => next s

-- A loop over such calls.
def forEach (body : σ → α → Result Unit × σ) : List α → σ → Result Unit × σ
  | [], s => (.ok (), s)
  | a :: rest, s => andThen (body s a) (forEach body rest)

theorem andThen_eq_ok : andThen call next = (.ok (), s') ↔
    ∃ s, call = (.ok (), s) ∧ next s = (.ok (), s') := by
  rcases call with ⟨_ | ⟨⟩, s⟩ <;> simp [andThen]

end Calls

-- `result.as_ref().err().map(|e| (e.denial_class(), e.denial_reason_str()))`.
def denialOf {α : Type} : Result α → Option (DenialClass × String)
  | .ok _ => none
  | .error e => some (e.denialClass, e.denialReasonStr)

end LuxKernel
