import LuxKernel.Boot.Grammar

namespace LuxKernel.Boot

open Heapless Formats

-- What the boot sequence is documented to demand of the two tables of a manifest.
structure WellFormed (edges : List EdgeDecl) (quotas : List QuotaDecl) : Prop where
  distinct : edges.Nodup
  endpoints : ∀ edge ∈ edges,
    edge.src ∈ quotas.map QuotaDecl.node ∧ edge.dst ∈ quotas.map QuotaDecl.node
  ceilings : ∀ quota ∈ quotas, quota.ceiling.ceiling ≠ 0

namespace ManifestDecoder

variable {bytes : Bytes} {credentials : BootCredentials}

-- The bytes of a signed message: the signature is valid for what follows it.
def Signed (bytes : Bytes) (credentials : BootCredentials) : Prop :=
  MIN_WIRE_LEN ≤ bytes.length ∧ ∃ sig : Vector UInt8 64,
    sig.toArray.toList = bytes.take SIG_LEN ∧ credentials.verify (bytes.drop SIG_LEN) sig = .ok ()

-- Three tables that the signed part starts with, within the capacities of a manifest.
def Carries (bytes : Bytes) (version : UInt32) (edges : List EdgeDecl) (quotas : List QuotaDecl) :
    Prop :=
  edges.length ≤ MAX_EDGES ∧ quotas.length ≤ MAX_NODES ∧
    ∃ encoding rest, Encodes (.array [.uint version.toNat, .array (edges.map EdgeDecl.value),
      .array (quotas.map QuotaDecl.value)]) encoding ∧ bytes.drop SIG_LEN = encoding ++ rest

theorem take_sig_length (h : MIN_WIRE_LEN ≤ bytes.length) : (bytes.take SIG_LEN).length = SIG_LEN := by
  have hmin : MIN_WIRE_LEN = 65 := rfl
  have hsig : SIG_LEN = 64 := rfl
  rw [List.length_take]
  omega

section Decoder

variable [Minicbor]

theorem decode_eq_ok {manifest : Manifest} : decode bytes credentials = .ok manifest ↔
    Signed bytes credentials ∧ parseCbor (bytes.drop SIG_LEN) = .ok manifest := by
  unfold decode Signed
  constructor
  · intro h
    split at h
    · cases h
    rename_i hlong
    obtain ⟨sig, hsig, h⟩ := bind_eq_ok.mp h
    obtain ⟨done, hverify, hparse⟩ := bind_eq_ok.mp h
    have hlength := take_sig_length (Nat.not_lt.mp hlong)
    rw [dif_pos hlength, orInvalid_eq_ok, Option.some.injEq] at hsig
    subst hsig
    exact ⟨⟨Nat.not_lt.mp hlong, _, rfl, hverify⟩, hparse⟩
  · rintro ⟨⟨hlong, sig, hsig, hverify⟩, hparse⟩
    rw [if_neg (Nat.not_lt.mpr hlong)]
    refine bind_eq_ok.mpr ⟨sig, ?_, bind_eq_ok.mpr ⟨(), hverify, hparse⟩⟩
    rw [dif_pos (take_sig_length hlong), orInvalid_eq_ok, Option.some.injEq]
    apply Vector.toArray_inj.mp
    show (bytes.take SIG_LEN).toArray = sig.toArray
    rw [← hsig, Array.toArray_toList]

-- The decoder accepts every signed encoding and nothing else. None of its tests looks at
-- two rows, or at the ceiling of one.
theorem decode_eq_ok_iff_carries {manifest : Manifest} : decode bytes credentials = .ok manifest ↔
    Signed bytes credentials ∧
      Carries bytes manifest.version manifest.edges.toList manifest.quotas.toList := by
  rw [decode_eq_ok, parseCbor_eq_ok]
  constructor
  · rintro ⟨hsigned, encoding, rest, henc, hsplit⟩
    exact ⟨hsigned, manifest.edges.length_le, manifest.quotas.length_le, encoding, rest, henc, hsplit⟩
  · rintro ⟨hsigned, -, -, encoding, rest, henc, hsplit⟩
    exact ⟨hsigned, encoding, rest, henc, hsplit⟩

theorem decode_wellFormed_iff (bytes : Bytes) (credentials : BootCredentials) :
    (∀ manifest, decode bytes credentials = .ok manifest →
      WellFormed manifest.edges.toList manifest.quotas.toList) ↔
    (Signed bytes credentials → ∀ version edges quotas, Carries bytes version edges quotas →
      WellFormed edges quotas) := by
  constructor
  · intro h hsigned version edges quotas hcarries
    exact h ⟨⟨edges, hcarries.1⟩, ⟨quotas, hcarries.2.1⟩, version⟩
      (decode_eq_ok_iff_carries.mpr ⟨hsigned, hcarries⟩)
  · intro h manifest hok
    obtain ⟨hsigned, hcarries⟩ := decode_eq_ok_iff_carries.mp hok
    exact h hsigned _ _ _ hcarries

-- A signed encoding of any tables is accepted as it is, so that a manifest is well formed
-- only if whoever signed it saw to that.
theorem decode_accepts_signed_tables (bytes : Bytes) (credentials : BootCredentials) :
    (∀ manifest, decode bytes credentials = .ok manifest ↔
      Signed bytes credentials ∧
        Carries bytes manifest.version manifest.edges.toList manifest.quotas.toList) ∧
    ((∀ manifest, decode bytes credentials = .ok manifest →
      WellFormed manifest.edges.toList manifest.quotas.toList) ↔
    (Signed bytes credentials → ∀ version edges quotas, Carries bytes version edges quotas →
      WellFormed edges quotas)) :=
  ⟨fun _ => decode_eq_ok_iff_carries, decode_wellFormed_iff bytes credentials⟩

end Decoder

section

attribute [local instance] Cbor.reader

def anySignature : BootCredentials := ⟨fun _ _ => .ok ()⟩

def signed (payload : Bytes) : Bytes := List.replicate 64 0 ++ payload

-- One edge twice, an edge to a node without a quota, and a ceiling of zero.
theorem malformed_accepted :
    (decode (signed [0x83, 0x01, 0x82, 0x82, 0x01, 0x01, 0x82, 0x01, 0x01, 0x81, 0x82, 0x01, 0x05])
        anySignature = .ok ⟨⟨[⟨node1, node1⟩, ⟨node1, node1⟩], by decide⟩, ⟨[⟨node1, ⟨5⟩⟩], by decide⟩, 1⟩ ∧
      ¬[(⟨node1, node1⟩ : EdgeDecl), ⟨node1, node1⟩].Nodup) ∧
    (decode (signed [0x83, 0x01, 0x81, 0x82, 0x01, 0x02, 0x81, 0x82, 0x01, 0x05]) anySignature =
        .ok ⟨⟨[⟨node1, node2⟩], by decide⟩, ⟨[⟨node1, ⟨5⟩⟩], by decide⟩, 1⟩ ∧
      node2 ∉ [(⟨node1, ⟨5⟩⟩ : QuotaDecl)].map QuotaDecl.node) ∧
    decode (signed [0x83, 0x01, 0x80, 0x81, 0x82, 0x01, 0x00]) anySignature =
      .ok ⟨HVec.empty, ⟨[⟨node1, ⟨0⟩⟩], by decide⟩, 1⟩ := by
  exact ⟨⟨by decide +kernel, by decide⟩, ⟨by decide +kernel, by decide⟩, by decide +kernel⟩

end

end ManifestDecoder

end LuxKernel.Boot
