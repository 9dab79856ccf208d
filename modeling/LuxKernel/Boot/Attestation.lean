import LuxKernel.Boot.Initialise
import LuxKernel.Tpm.Quotes

namespace LuxKernel

namespace Tpm

-- `BootAttestation::new` takes the four fields as they are.
structure BootAttestation where
  manifestHash : Digest
  pcrIndex : UInt8
  nonce : Digest
  quote : TpmQuote
deriving DecidableEq

def BootAttestation.verify {T : Type} [TpmProvider T] (attestation : BootAttestation) (tpm : T) :
    Result Unit :=
  TpmProvider.verifyQuote tpm attestation.pcrIndex attestation.nonce attestation.quote

end Tpm

namespace Boot

open Tpm
open Audit (CollisionFree)

def BootState.produceAttestation {T : Type} [TpmProvider T] (state : BootState) (tpm : T)
    (nonce : Digest) : Result BootAttestation := do
  let quote ← TpmProvider.quote tpm 0 nonce
  return ⟨state.manifestHash, 0, nonce, quote⟩

section

variable [Sha256]

theorem produceAttestation_eq_ok {state : BootState} {tpm : SoftwareTpm} {nonce : Digest}
    {attestation : BootAttestation} (h : state.produceAttestation tpm nonce = .ok attestation) :
    attestation.manifestHash = state.manifestHash ∧ attestation.pcrIndex = 0 ∧
      attestation.nonce = nonce ∧ tpm.quote 0 nonce = .ok attestation.quote := by
  obtain ⟨quote, hquote, hpack⟩ := bind_eq_ok.mp h
  obtain rfl := Except.ok.inj hpack
  exact ⟨rfl, rfl, rfl, hquote⟩

-- A boot measures the manifest whose hash it keeps.
theorem initialiseWithTpm_measures [Minicbor] {rawManifest : Bytes} {credentials : BootCredentials}
    {tpm tpm' : SoftwareTpm} {state : BootState}
    (h : BootState.initialiseWithTpm rawManifest credentials tpm = (.ok state, tpm')) :
    state.manifestHash = Sha256.digest rawManifest ∧ tpm' = tpm.extendAll [⟨0, rawManifest⟩] := by
  unfold BootState.initialiseWithTpm at h
  cases hprep : prepare rawManifest credentials with
  | error e =>
      rw [hprep] at h
      cases h
  | ok result =>
      rw [hprep] at h
      cases h
      exact ⟨rfl, rfl⟩

-- What an attestation says when the booted system has made it itself, on the TPM that
-- it was booted with. The verifier's TPM has seen the expected manifest and no more. The
-- same quote passes beside any other hash, in an attestation that was put together by hand.
theorem produced_attestation_proves_manifest [Minicbor] (before after : List Extension)
    (booted : Bytes) (credentials : BootCredentials) (bootState state : BootState)
    (tpm : SoftwareTpm)
    (hboot : BootState.initialiseWithTpm booted credentials (SoftwareTpm.new.extendAll before) =
      (.ok bootState, tpm))
    (hstate : state.manifestHash = bootState.manifestHash) (nonce : Digest)
    (attestation : BootAttestation)
    (hproduce : state.produceAttestation (tpm.extendAll after) nonce = .ok attestation)
    (raw : Bytes)
    (hfree : CollisionFree (SoftwareTpm.hashed [raw] nonce ++
      SoftwareTpm.hashed (measured 0 before ++ booted :: measured 0 after) nonce))
    (hverify : attestation.verify (SoftwareTpm.new.extendPcr 0 raw).2 = .ok ()) :
    attestation.pcrIndex = 0 ∧ attestation.manifestHash = Sha256.digest raw ∧
      ∀ manifestHash, BootAttestation.verify ⟨manifestHash, 0, attestation.nonce, attestation.quote⟩
        (SoftwareTpm.new.extendPcr 0 raw).2 = .ok () := by
  obtain ⟨hhash, hindex, rfl, hquote⟩ := produceAttestation_eq_ok hproduce
  obtain ⟨hmanifest, rfl⟩ := initialiseWithTpm_measures hboot
  rw [BootAttestation.verify, hindex] at hverify
  refine ⟨hindex, ?_, fun _ => hverify⟩
  have hzero : SoftwareTpm.register 0 = .ok 0 := rfl
  -- Both TPMs give the same quote, so register 0 has the same history in both.
  have hexpected : (SoftwareTpm.new.extendAll [⟨0, raw⟩]).quote 0 attestation.nonce =
      .ok attestation.quote := SoftwareTpm.verifyQuote_eq_ok.mp hverify
  have hpcr := ((SoftwareTpm.quote_inj hzero).mp (hexpected.trans hquote.symm)).1
  rw [← SoftwareTpm.extendAll_append, ← SoftwareTpm.extendAll_append,
    SoftwareTpm.pcrs_extendAll hzero, SoftwareTpm.pcrs_extendAll hzero, measured_append,
    measured_append, measured_cons_self, measured_cons_self] at hpcr
  have hdata := SoftwareTpm.data_eq_of_pcr_eq hfree hpcr
  have hsame : booted = raw := by
    have hmem : booted ∈ [raw] := by
      rw [hdata]
      exact List.mem_append_right _ List.mem_cons_self
    exact List.mem_singleton.mp hmem
  rw [hhash, hstate, hmanifest, hsame]

end

section

attribute [local instance] tailHash Cbor.reader

-- An empty manifest under a signature that the credentials accept.
def emptyManifest : Bytes := List.replicate 64 0 ++ [0x83, 0x00, 0x80, 0x80]

def acceptAll : BootCredentials := ⟨fun _ _ => .ok ()⟩

theorem produced_attestation_proves_manifest_empty :
    ∃ state tpm attestation,
      BootState.initialiseWithTpm emptyManifest acceptAll SoftwareTpm.new = (.ok state, tpm) ∧
      state.produceAttestation tpm (Vector.replicate 32 3) = .ok attestation ∧
      attestation.verify (SoftwareTpm.new.extendPcr 0 emptyManifest).2 = .ok () ∧
      attestation.manifestHash = Sha256.digest emptyManifest := by
  have hfree : CollisionFree (SoftwareTpm.hashed [emptyManifest] (Vector.replicate 32 3) ++
      SoftwareTpm.hashed [emptyManifest] (Vector.replicate 32 3)) := by decide +kernel
  rcases initialiseWithTpm_cases emptyManifest acceptAll SoftwareTpm.new with
    ⟨graph, ledger, state, -, hboot, -⟩ | ⟨e, hprep, -⟩
  · have hquote : (SoftwareTpm.new.extendPcr 0 emptyManifest).2.quote 0 (Vector.replicate 32 3) =
        .ok _ := SoftwareTpm.quote_eq rfl _
    have hverify := SoftwareTpm.verifyQuote_eq_ok.mpr hquote
    refine ⟨state, _, _, hboot, rfl, hverify, ?_⟩
    exact (produced_attestation_proves_manifest [] [] emptyManifest acceptAll state state _ hboot
      rfl _ _ rfl emptyManifest hfree hverify).2.1
  · have hok : (prepare emptyManifest acceptAll).isOk = true := by decide +kernel
    rw [hprep] at hok
    cases hok

-- The hash of another manifest beside a genuine quote.
def foreignHash : BootAttestation where
  manifestHash := Vector.replicate 32 0xab
  pcrIndex := 0
  nonce := Vector.replicate 32 3
  quote := (SoftwareTpm.new.extendPcr 0 emptyManifest).2.pcrs 0 ++
    SoftwareTpm.absorb ((SoftwareTpm.new.extendPcr 0 emptyManifest).2.pcrs 0)
      (Vector.replicate 32 3 : Digest).toList

theorem foreign_hash_verifies :
    CollisionFree (emptyManifest :: SoftwareTpm.hashed [emptyManifest] foreignHash.nonce) ∧
      foreignHash.pcrIndex = 0 ∧
      foreignHash.verify (SoftwareTpm.new.extendPcr 0 emptyManifest).2 = .ok () ∧
      foreignHash.manifestHash ≠ Sha256.digest emptyManifest := by
  decide +kernel

end

end Boot

end LuxKernel
