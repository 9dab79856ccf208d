import LuxKernel.Tpm.Software
import LuxKernel.Audit.Binding

namespace LuxKernel.Tpm

open Crypto Function
open Audit (CollisionFree)

-- The arguments of a call of `extend_pcr`.
structure Extension where
  pcrIndex : UInt8
  data : Bytes
deriving DecidableEq

-- The data that the calls, listed earliest first, have mixed into one register.
def measured (pcrIndex : UInt8) (calls : List Extension) : List Bytes :=
  (calls.filter fun call => decide (call.pcrIndex = pcrIndex)).map Extension.data

@[simp] theorem measured_append (pcrIndex : UInt8) (first second : List Extension) :
    measured pcrIndex (first ++ second) = measured pcrIndex first ++ measured pcrIndex second := by
  simp [measured]

theorem measured_cons_self (pcrIndex : UInt8) (data : Bytes) (calls : List Extension) :
    measured pcrIndex (⟨pcrIndex, data⟩ :: calls) = data :: measured pcrIndex calls := by
  simp [measured]

namespace SoftwareTpm

theorem register_eq_ok {i : UInt8} {idx : Fin PCR_COUNT} :
    register i = .ok idx ↔ i.toNat = idx.val := by
  unfold register
  split
  · rw [Except.ok.injEq, Fin.ext_iff]
  · rename_i hge
    have hlt := idx.isLt
    simp only [reduceCtorEq, false_iff]
    omega

theorem register_inj {i j : UInt8} {idx : Fin PCR_COUNT} (hi : register i = .ok idx)
    (hj : register j = .ok idx) : i = j := by
  rw [register_eq_ok] at hi hj
  exact UInt8.toNat_inj.mp (hi.trans hj.symm)

variable [Sha256]

-- `SHA-256(PCR || data)`.
def absorb (pcr : Digest) (data : Bytes) : Digest := Sha256.digest (pcr.toList ++ data)

def extendAll (tpm : SoftwareTpm) (calls : List Extension) : SoftwareTpm :=
  calls.foldl (fun tpm call => (tpm.extendPcr call.pcrIndex call.data).2) tpm

theorem extendAll_append (tpm : SoftwareTpm) (first second : List Extension) :
    tpm.extendAll (first ++ second) = (tpm.extendAll first).extendAll second := List.foldl_append

variable {tpm : SoftwareTpm} {i : UInt8} {idx : Fin PCR_COUNT}

-- One call changes the register that it names, if there is one, and no other.
theorem pcrs_extendPcr (h : register i = .ok idx) (tpm : SoftwareTpm) (call : Extension) :
    (tpm.extendPcr call.pcrIndex call.data).2.pcrs idx =
      if call.pcrIndex = i then absorb (tpm.pcrs idx) call.data else tpm.pcrs idx := by
  unfold extendPcr
  cases hcall : register call.pcrIndex with
  | error e =>
      rw [if_neg]
      rintro rfl
      rw [h] at hcall
      cases hcall
  | ok other =>
      by_cases hsame : call.pcrIndex = i
      · rw [hsame, h] at hcall
        obtain rfl := Except.ok.inj hcall
        rw [if_pos hsame]
        exact update_self _ _ _
      · have hne : idx ≠ other := by
          rintro rfl
          exact hsame (register_inj hcall h)
        rw [if_neg hsame]
        exact update_of_ne hne _ _

theorem pcrs_extendAll (h : register i = .ok idx) (tpm : SoftwareTpm) (calls : List Extension) :
    (tpm.extendAll calls).pcrs idx = (measured i calls).foldl absorb (tpm.pcrs idx) := by
  induction calls generalizing tpm with
  | nil => rfl
  | cons call later ih =>
      have hstep : tpm.extendAll (call :: later) =
          (tpm.extendPcr call.pcrIndex call.data).2.extendAll later := rfl
      rw [hstep, ih, pcrs_extendPcr h, measured, measured, List.filter_cons]
      by_cases hsame : call.pcrIndex = i <;> simp [hsame]

theorem quote_eq (h : register i = .ok idx) (nonce : Digest) :
    tpm.quote i nonce = .ok (tpm.pcrs idx ++ absorb (tpm.pcrs idx) nonce.toList) := by
  rw [quote, h]
  rfl

-- A quote passes exactly when it is the one that the verifier's TPM gives itself.
theorem verifyQuote_eq_ok {nonce : Digest} {q : TpmQuote} :
    tpm.verifyQuote i nonce q = .ok () ↔ tpm.quote i nonce = .ok q := by
  cases h : register i with
  | error e => simp [verifyQuote, quote, h, bind, Except.bind]
  | ok idx =>
      have hverify : tpm.verifyQuote i nonce q = .ok () ↔
          q.toList.take 32 = (tpm.pcrs idx).toList ∧
            q.toList.drop 32 = (absorb (tpm.pcrs idx) nonce.toList).toList := by
        rw [verifyQuote, h]
        simp only [bind, Except.bind, absorb]
        split <;> simp_all [pure, Except.pure]
      have hlen : (tpm.pcrs idx).toList.length = 32 := Vector.length_toList
      rw [hverify, quote_eq h, Except.ok.injEq, ← Vector.toList_inj, Vector.toList_append]
      constructor
      · rintro ⟨htake, hdrop⟩
        rw [← htake, ← hdrop, List.take_append_drop]
      · intro hq
        rw [← hq]
        exact ⟨List.take_left' hlen, List.drop_left' hlen⟩

theorem quote_inj {other : SoftwareTpm} {nonce nonce' : Digest} (h : register i = .ok idx) :
    other.quote i nonce' = tpm.quote i nonce ↔ other.pcrs idx = tpm.pcrs idx ∧
      absorb (other.pcrs idx) nonce'.toList = absorb (tpm.pcrs idx) nonce.toList := by
  rw [quote_eq h, quote_eq h, Except.ok.injEq]
  constructor
  · exact Vector.append_inj
  · rintro ⟨hpcr, hsigned⟩
    rw [hsigned, hpcr]

-- The byte strings that are hashed for one register of a fresh TPM: one for each
-- extension, and one for the quote.
def hashed (data : List Bytes) (nonce : Digest) : List Bytes :=
  (HashChain.inputs absorb (Vector.replicate 32 0) data).map (fun a => a.1.toList ++ a.2) ++
    [(data.foldl absorb (Vector.replicate 32 0)).toList ++ nonce.toList]

section

variable {data data' : List Bytes} {nonce nonce' : Digest}

theorem nonce_eq_of_signed_eq (hfree : CollisionFree (hashed data nonce ++ hashed data' nonce'))
    (h : absorb (data.foldl absorb (Vector.replicate 32 0)) nonce.toList =
      absorb (data'.foldl absorb (Vector.replicate 32 0)) nonce'.toList) : nonce = nonce' := by
  have hstrings := hfree.1 _ (by simp [hashed]) _ (by simp [hashed]) h
  obtain ⟨-, hnonces⟩ := List.append_inj hstrings (by simp)
  exact Vector.toList_inj.mp hnonces

-- A register value stands for one sequence of extensions.
theorem data_eq_of_pcr_eq (hfree : CollisionFree (hashed data nonce ++ hashed data' nonce'))
    (h : data.foldl absorb (Vector.replicate 32 0) =
      data'.foldl absorb (Vector.replicate 32 0)) : data = data' := by
  have hstring : ∀ a ∈ HashChain.inputs absorb (Vector.replicate 32 0) data ++
      HashChain.inputs absorb (Vector.replicate 32 0) data',
      a.1.toList ++ a.2 ∈ hashed data nonce ++ hashed data' nonce' := by
    intro a ha
    rcases List.mem_append.mp ha with hl | hr
    · exact List.mem_append_left _ (List.mem_append_left _ (List.mem_map_of_mem hl))
    · exact List.mem_append_right _ (List.mem_append_left _ (List.mem_map_of_mem hr))
  apply HashChain.eq_of_foldl_eq _ _ h
  · intro a ha b hb hlink
    -- The register value in front has a fixed width.
    have hsame := hfree.1 _ (hstring a (List.mem_append_left _ ha)) _
      (hstring b (List.mem_append_right _ hb)) hlink
    obtain ⟨hprev, hdata⟩ := List.append_inj hsame (by simp)
    exact Prod.ext (Vector.toList_inj.mp hprev) hdata
  · intro a ha
    exact hfree.2 _ (hstring a ha)

end

-- A quote binds the extension history of its register and the nonce, and nothing else.
theorem verifyQuote_binds_history (first second : List Extension) (i : UInt8)
    (hi : i.toNat < PCR_COUNT) (nonce nonce' : Digest)
    (hfree : CollisionFree (hashed (measured i first) nonce ++ hashed (measured i second) nonce')) :
    ∃ q, (new.extendAll first).quote i nonce = .ok q ∧
      ((new.extendAll second).verifyQuote i nonce' q = .ok () ↔
        nonce = nonce' ∧ measured i first = measured i second) := by
  obtain ⟨idx, hidx⟩ : ∃ idx, register i = .ok idx := ⟨⟨i.toNat, hi⟩, register_eq_ok.mpr rfl⟩
  have hnew : new.pcrs idx = Vector.replicate 32 0 := rfl
  refine ⟨_, quote_eq hidx nonce, ?_⟩
  rw [verifyQuote_eq_ok, ← quote_eq hidx nonce, quote_inj hidx, pcrs_extendAll hidx,
    pcrs_extendAll hidx, hnew]
  constructor
  · rintro ⟨hpcr, hsigned⟩
    exact ⟨nonce_eq_of_signed_eq hfree hsigned.symm, data_eq_of_pcr_eq hfree hpcr.symm⟩
  · rintro ⟨rfl, hdata⟩
    rw [hdata]
    exact ⟨rfl, rfl⟩

end SoftwareTpm

section

-- A hash that sees the length and the last byte of its input.
@[reducible] def tailHash : Sha256 :=
  ⟨fun bytes => Vector.replicate 32 (UInt8.ofNat bytes.length + bytes.getLastD 0)⟩

attribute [local instance] tailHash

-- Two histories that differ in another register and in an index out of range.
def bootThenModule : List Extension := [⟨0, [7]⟩, ⟨1, [8]⟩, ⟨0, [9]⟩]
def bootOutOfRange : List Extension := [⟨24, [8]⟩, ⟨0, [7]⟩, ⟨0, [9]⟩]

theorem verifyQuote_binds_history_interleaved :
    CollisionFree (SoftwareTpm.hashed (measured 0 bootThenModule) (Vector.replicate 32 3) ++
      SoftwareTpm.hashed (measured 0 bootOutOfRange) (Vector.replicate 32 3)) ∧
    ∃ q, (SoftwareTpm.new.extendAll bootThenModule).quote 0 (Vector.replicate 32 3) = .ok q ∧
      (SoftwareTpm.new.extendAll bootOutOfRange).verifyQuote 0 (Vector.replicate 32 3) q =
        .ok () := by
  have hfree : CollisionFree
      (SoftwareTpm.hashed (measured 0 bootThenModule) (Vector.replicate 32 3) ++
        SoftwareTpm.hashed (measured 0 bootOutOfRange) (Vector.replicate 32 3)) := by
    decide +kernel
  obtain ⟨q, hq, hverify⟩ := SoftwareTpm.verifyQuote_binds_history bootThenModule bootOutOfRange 0
    (by decide) _ _ hfree
  exact ⟨hfree, q, hq, hverify.mpr ⟨rfl, rfl⟩⟩

end

end LuxKernel.Tpm
