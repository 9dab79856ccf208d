import LuxKernel.Types
import Mathlib.Logic.Function.Basic

namespace LuxKernel.Tpm

open Function

-- `TpmQuote([u8; 64])`.
abbrev TpmQuote := Vector UInt8 64

-- The provider trait, with `&mut self` as explicit state.
class TpmProvider (T : Type) where
  extendPcr : T → UInt8 → Bytes → Result Unit × T
  quote : T → UInt8 → Digest → Result TpmQuote
  readPcr : T → UInt8 → Result Digest
  verifyQuote : T → UInt8 → Digest → TpmQuote → Result Unit

def PCR_COUNT : Nat := 24

instance : NeZero PCR_COUNT := ⟨by decide⟩

structure SoftwareTpm where
  pcrs : Fin PCR_COUNT → Digest

namespace SoftwareTpm

def new : SoftwareTpm := ⟨fun _ => Vector.replicate 32 0⟩

-- The register that a PCR index names, if there is one.
def register (pcrIndex : UInt8) : Result (Fin PCR_COUNT) :=
  if h : pcrIndex.toNat < PCR_COUNT then .ok ⟨pcrIndex.toNat, h⟩
  else .error (.manifestInvalid "TPM PCR index out of range")

def extendPcr [Sha256] (tpm : SoftwareTpm) (pcrIndex : UInt8) (data : Bytes) :
    Result Unit × SoftwareTpm :=
  match register pcrIndex with
  | .error e => (.error e, tpm)
  | .ok idx =>
      (.ok (), ⟨update tpm.pcrs idx (Sha256.digest ((tpm.pcrs idx).toList ++ data))⟩)

def quote [Sha256] (tpm : SoftwareTpm) (pcrIndex : UInt8) (nonce : Digest) : Result TpmQuote := do
  let idx ← register pcrIndex
  let signed := Sha256.digest ((tpm.pcrs idx).toList ++ nonce.toList)
  return tpm.pcrs idx ++ signed

def readPcr (tpm : SoftwareTpm) (pcrIndex : UInt8) : Result Digest := do
  let idx ← register pcrIndex
  return tpm.pcrs idx

def verifyQuote [Sha256] (tpm : SoftwareTpm) (pcrIndex : UInt8) (nonce : Digest)
    (quote : TpmQuote) : Result Unit := do
  let idx ← register pcrIndex
  let expectedSigned := Sha256.digest ((tpm.pcrs idx).toList ++ nonce.toList)
  if quote.toList.take 32 = (tpm.pcrs idx).toList ∧
      quote.toList.drop 32 = expectedSigned.toList then
    return ()
  else
    .error (.manifestInvalid "TPM quote verification failed: PCR value or signature mismatch")

instance [Sha256] : TpmProvider SoftwareTpm := ⟨extendPcr, quote, readPcr, verifyQuote⟩

end SoftwareTpm

-- The provider of `initialise`, which measures nothing.
structure NullTpm where

instance : TpmProvider NullTpm where
  extendPcr tpm _ _ := (.ok (), tpm)
  quote _ _ _ := .ok (Vector.replicate 64 0)
  readPcr _ _ := .ok (Vector.replicate 32 0)
  verifyQuote _ _ _ quote :=
    if quote = Vector.replicate 64 0 then .ok ()
    else .error (.manifestInvalid "NullTpm: non-null quote cannot be verified")

end LuxKernel.Tpm
