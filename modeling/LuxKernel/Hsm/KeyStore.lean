import LuxKernel.Auth.Capability
import LuxKernel.Audit.Binding
import Mathlib.Data.List.AList

namespace LuxKernel.Hsm

open Audit Auth

-- `SigningKey::from_bytes` takes any 32 bytes.
abbrev SigningKey := Vector UInt8 32
abbrev VerifyingKey := Vector UInt8 32
abbrev Signature := Vector UInt8 64

-- Ed25519 is a black box, like the hash.
class Ed25519 where
  verifyingKey : SigningKey → VerifyingKey
  sign : SigningKey → Bytes → Signature
  verifyStrict : VerifyingKey → Bytes → Signature → Bool

structure KeyHandle where
  bytes : Digest
deriving DecidableEq

-- The key table. The order in which a `HashMap` lists its keys is not specified, and
-- nothing below depends on it.
structure SoftwareKeyStore where
  keys : AList fun _ : KeyHandle => SigningKey

namespace SoftwareKeyStore

def new : SoftwareKeyStore := ⟨∅⟩

def signCapability [Ed25519] (store : SoftwareKeyStore) (handle : KeyHandle) (payload : Bytes) :
    Result Signature :=
  match store.keys.lookup handle with
  | none => .error (.capabilityDenied "SoftwareKeyStore: key handle not found")
  | some key => .ok (Ed25519.sign key payload)

def verifyCapabilitySignature [Ed25519] (store : SoftwareKeyStore) (handle : KeyHandle)
    (payload : Bytes) (sig : Signature) : Result Unit :=
  match store.keys.lookup handle with
  | none => .error (.capabilityDenied "SoftwareKeyStore: key handle not found")
  | some key =>
      if Ed25519.verifyStrict (Ed25519.verifyingKey key) payload sig then .ok ()
      else .error (.manifestInvalid "HSM capability signature verification failed")

def listKeys (store : SoftwareKeyStore) : Result (List KeyHandle) := .ok store.keys.keys

section

variable [Ed25519] [Sha256]

-- The SHA-256 of the verifying key.
def handleOf (key : SigningKey) : KeyHandle := ⟨Sha256.digest (Ed25519.verifyingKey key).toList⟩

-- The seed is what `OsRng` fills in.
def generateKeypair (store : SoftwareKeyStore) (seed : SigningKey) :
    Result KeyHandle × SoftwareKeyStore :=
  (.ok (handleOf seed), ⟨store.keys.insert (handleOf seed) seed⟩)

def rotateKey (store : SoftwareKeyStore) (handle : KeyHandle) (seed : SigningKey) :
    Result KeyHandle × SoftwareKeyStore :=
  if handle ∈ store.keys then
    (.ok (handleOf seed), ⟨(store.keys.erase handle).insert (handleOf seed) seed⟩)
  else
    (.error (.capabilityDenied "SoftwareKeyStore: key handle not found for rotation"), store)

end

variable [Ed25519] {store : SoftwareKeyStore} {handle : KeyHandle} {payload : Bytes}

-- A handle that is not in the table is of no use.
theorem signCapability_of_notMem (h : handle ∉ store.keys) (payload : Bytes) :
    ∃ e, store.signCapability handle payload = .error e := by
  rw [signCapability, AList.lookup_eq_none.mpr h]
  exact ⟨_, rfl⟩

theorem verifyCapabilitySignature_of_notMem (h : handle ∉ store.keys) (payload : Bytes)
    (sig : Signature) : ∃ e, store.verifyCapabilitySignature handle payload sig = .error e := by
  rw [verifyCapabilitySignature, AList.lookup_eq_none.mpr h]
  exact ⟨_, rfl⟩

theorem rotateKey_of_notMem [Sha256] (h : handle ∉ store.keys) (seed : SigningKey) :
    ∃ e, store.rotateKey handle seed = (.error e, store) := by
  rw [rotateKey, if_neg h]
  exact ⟨_, rfl⟩

theorem signCapability_eq_ok {sig : Signature} : store.signCapability handle payload = .ok sig ↔
    ∃ key, store.keys.lookup handle = some key ∧ sig = Ed25519.sign key payload := by
  unfold signCapability
  cases store.keys.lookup handle with
  | none => simp
  | some key => simp [eq_comm]

theorem verifyCapabilitySignature_eq_ok {sig : Signature} :
    store.verifyCapabilitySignature handle payload sig = .ok () ↔
      ∃ key, store.keys.lookup handle = some key ∧
        Ed25519.verifyStrict (Ed25519.verifyingKey key) payload sig = true := by
  unfold verifyCapabilitySignature
  cases store.keys.lookup handle with
  | none => simp
  | some key =>
      cases hv : Ed25519.verifyStrict (Ed25519.verifyingKey key) payload sig <;> simp [hv]

end SoftwareKeyStore

structure HsmSignedCapability where
  inner : Capability
  keyHandle : KeyHandle
  signature : Signature
deriving DecidableEq

namespace HsmSignedCapability

-- The 28 bytes that are signed.
def capPayload (cap : Capability) : Bytes :=
  le32 cap.issuer.get ++ le32 cap.target.get ++ le32 cap.rights.bits ++
    le64 cap.generation.val ++ le64 cap.nonce

def sign [Ed25519] (cap : Capability) (handle : KeyHandle) (hsm : SoftwareKeyStore) :
    Result HsmSignedCapability := do
  let signature ← hsm.signCapability handle (capPayload cap)
  return ⟨cap, handle, signature⟩

def verify [Ed25519] (signed : HsmSignedCapability) (hsm : SoftwareKeyStore) : Result Unit :=
  hsm.verifyCapabilitySignature signed.keyHandle (capPayload signed.inner) signed.signature

theorem length_capPayload (cap : Capability) : (capPayload cap).length = 28 := rfl

-- Every field has its own place in the payload.
theorem capPayload_inj {a b : Capability} : capPayload a = capPayload b ↔
    a.issuer = b.issuer ∧ a.target = b.target ∧ a.rights = b.rights ∧
      a.generation = b.generation ∧ a.nonce = b.nonce := by
  constructor
  · intro h
    simp only [capPayload, List.append_assoc] at h
    obtain ⟨hissuer, h⟩ := List.append_inj h rfl
    obtain ⟨htarget, h⟩ := List.append_inj h rfl
    obtain ⟨hrights, h⟩ := List.append_inj h rfl
    obtain ⟨hgeneration, hnonce⟩ := List.append_inj h rfl
    exact ⟨NodeId.ext (le32_injective hissuer), NodeId.ext (le32_injective htarget),
      congrArg CapabilitySet.mk (le32_injective hrights),
      congrArg Generation.mk (le64_injective hgeneration), le64_injective hnonce⟩
  · rintro ⟨hissuer, htarget, hrights, hgeneration, hnonce⟩
    rw [capPayload, hissuer, htarget, hrights, hgeneration, hnonce, capPayload]

end HsmSignedCapability

-- The ideal scheme: under a key, the signature of a capability made with it passes for
-- that capability's payload and for no other.
def Ed25519.Ideal [Ed25519] : Prop :=
  ∀ (key : SigningKey) (cap other : Capability),
    verifyStrict (verifyingKey key) (HsmSignedCapability.capPayload other)
        (sign key (HsmSignedCapability.capPayload cap)) = true ↔
      HsmSignedCapability.capPayload other = HsmSignedCapability.capPayload cap

end LuxKernel.Hsm
