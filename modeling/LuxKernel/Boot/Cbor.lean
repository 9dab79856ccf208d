import LuxKernel.Types
import LuxKernel.Formats.Cbor

namespace LuxKernel.Boot

open Formats

-- The part of the `minicbor` decoder that the manifest parser calls. A decoder is the
-- input that is left; `none` is a decoding error, whose details the parser replaces by
-- its own. An array may announce its length or leave it open. The laws are those of RFC
-- 8949: a header is read in whatever width it comes, and nothing else is read.
class Minicbor where
  array : Bytes → Option (Option Nat × Bytes)
  u32 : Bytes → Option (UInt32 × Bytes)
  u64 : Bytes → Option (UInt64 × Bytes)
  array_eq_some : ∀ {n : Nat} {input rest : Bytes}, array input = some (some n, rest) ↔
    ∃ header, Header 4 n header ∧ input = header ++ rest
  array_eq_open : ∀ {input rest : Bytes}, array input = some (none, rest) ↔ input = 0x9f :: rest
  u32_eq_some : ∀ {n : UInt32} {input rest : Bytes}, u32 input = some (n, rest) ↔
    ∃ header, Header 0 n.toNat header ∧ input = header ++ rest
  u64_eq_some : ∀ {n : UInt64} {input rest : Bytes}, u64 input = some (n, rest) ↔
    ∃ header, Header 0 n.toNat header ∧ input = header ++ rest

-- A decoder with these laws, for runs on fixed inputs.
namespace Cbor

def read : Bytes → Option (UInt8 × Bytes)
  | [] => none
  | byte :: rest => some (byte, rest)

-- `read_array`: the next `count` bytes, as a big-endian number.
def readBigEndian : Nat → Bytes → Option (Nat × Bytes)
  | 0, input => some (0, input)
  | count + 1, input => do
      let (byte, rest) ← read input
      let (low, rest) ← readBigEndian count rest
      return (byte.toNat * 256 ^ count + low, rest)

-- The argument of a data item, from the low bits of its initial byte.
def unsigned (info : UInt8) (input : Bytes) : Option (Nat × Bytes) :=
  if info ≤ 0x17 then some (info.toNat, input)
  else if info = 0x18 then readBigEndian 1 input
  else if info = 0x19 then readBigEndian 2 input
  else if info = 0x1a then readBigEndian 4 input
  else if info = 0x1b then readBigEndian 8 input
  else none

-- `array`: the length of a definite array, or `none` for an indefinite one.
def array (input : Bytes) : Option (Option Nat × Bytes) := do
  let (byte, rest) ← read input
  if byte &&& 0xe0 ≠ 0x80 then none
  else if byte &&& 0x1f = 31 then some (none, rest)
  else do
    let (len, rest) ← unsigned (byte &&& 0x1f) rest
    return (some len, rest)

-- `u64`: an initial byte with a major type other than zero is no argument width.
def u64 (input : Bytes) : Option (UInt64 × Bytes) := do
  let (byte, rest) ← read input
  let (n, rest) ← unsigned byte rest
  return (UInt64.ofNat n, rest)

-- `u32`: the same, and the value must fit.
def u32 (input : Bytes) : Option (UInt32 × Bytes) := do
  let (byte, rest) ← read input
  let (n, rest) ← unsigned byte rest
  if n < UInt32.size then some (UInt32.ofNat n, rest) else none

theorem readBigEndian_eq_some {count n : Nat} {input rest : Bytes} :
    readBigEndian count input = some (n, rest) ↔
      n < 256 ^ count ∧ input = bigEndian count n ++ rest := by
  induction count generalizing input n with
  | zero =>
      simp only [readBigEndian, Option.some.injEq, Prod.mk.injEq, Nat.pow_zero, Nat.lt_one_iff,
        bigEndian, List.nil_append]
      exact and_congr_left fun _ => eq_comm
  | succ count ih =>
      have hpos : 0 < 256 ^ count := Nat.pow_pos (by decide)
      constructor
      · intro h
        cases input with
        | nil => cases h
        | cons byte tail =>
            simp only [readBigEndian, read, Option.bind_eq_bind, Option.bind_some,
              Option.bind_eq_some_iff, Prod.exists, Option.pure_def, Option.some.injEq,
              Prod.mk.injEq] at h
            obtain ⟨low, rest', hlow, rfl, rfl⟩ := h
            obtain ⟨hlt, rfl⟩ := ih.mp hlow
            have hdiv : (byte.toNat * 256 ^ count + low) / 256 ^ count = byte.toNat := by
              rw [Nat.mul_comm, Nat.mul_add_div hpos, Nat.div_eq_of_lt hlt, Nat.add_zero]
            have hmod : (byte.toNat * 256 ^ count + low) % 256 ^ count = low := by
              rw [Nat.mul_comm, Nat.mul_add_mod, Nat.mod_eq_of_lt hlt]
            refine ⟨?_, ?_⟩
            · rw [← div_pow_lt_iff, hdiv]
              exact byte.toNat_lt
            · rw [bigEndian, hdiv, hmod, UInt8.ofNat_toNat, List.cons_append]
      · rintro ⟨hn, rfl⟩
        have hlow : readBigEndian count (bigEndian count (n % 256 ^ count) ++ rest) =
            some (n % 256 ^ count, rest) := ih.mpr ⟨Nat.mod_lt n hpos, rfl⟩
        rw [bigEndian, List.cons_append, readBigEndian, read]
        simp only [Option.bind_eq_bind, Option.bind_some, hlow, Option.pure_def,
          toNat_ofNat_of_lt (div_pow_lt_iff.mpr hn)]
        rw [Nat.mul_comm, Nat.div_add_mod]

theorem unsigned_short {info : UInt8} (h : info.toNat < 24) (input : Bytes) :
    unsigned info input = some (info.toNat, input) := by
  have hle : info ≤ 0x17 := UInt8.le_iff_toNat_le.mpr (Nat.le_of_lt_succ h)
  rw [unsigned, if_pos hle]

theorem unsigned_wide {info : UInt8} (width : Width) (h : info.toNat = width.info)
    (input : Bytes) : unsigned info input = readBigEndian width.bytes input := by
  obtain rfl : info = UInt8.ofNat width.info := by rw [← h, UInt8.ofNat_toNat]
  cases width <;> rfl

theorem unsigned_other {info : UInt8} (h : 28 ≤ info.toNat) (input : Bytes) :
    unsigned info input = none := by
  have hne : ∀ k : UInt8, k.toNat < 28 → info ≠ k := by
    rintro k hk rfl
    omega
  have hgt : ¬info ≤ 0x17 := by
    rw [UInt8.le_iff_toNat_le]
    exact Nat.not_le.mpr (Nat.lt_of_lt_of_le (by decide) h)
  rw [unsigned, if_neg hgt, if_neg (hne _ (by decide)), if_neg (hne _ (by decide)),
    if_neg (hne _ (by decide)), if_neg (hne _ (by decide))]

-- The argument reader accepts the arguments of the grammar and nothing else.
theorem unsigned_eq_some {info : UInt8} {n : Nat} {input rest : Bytes} :
    unsigned info input = some (n, rest) ↔
      ∃ tail, Argument info.toNat n tail ∧ input = tail ++ rest := by
  constructor
  · intro h
    by_cases hshort : info.toNat < 24
    · rw [unsigned_short hshort] at h
      obtain ⟨rfl, rfl⟩ := Prod.mk.inj (Option.some.inj h)
      exact ⟨[], .short hshort, rfl⟩
    · by_cases hwide : ∃ width : Width, info.toNat = width.info
      · obtain ⟨width, hinfo⟩ := hwide
        rw [unsigned_wide width hinfo, readBigEndian_eq_some] at h
        exact ⟨_, hinfo ▸ .wide width h.1, h.2⟩
      · have hge : 28 ≤ info.toNat := by
          by_contra hlt
          have hcases : info.toNat = 24 ∨ info.toNat = 25 ∨ info.toNat = 26 ∨ info.toNat = 27 := by
            omega
          rcases hcases with h24 | h25 | h26 | h27
          · exact hwide ⟨.one, h24⟩
          · exact hwide ⟨.two, h25⟩
          · exact hwide ⟨.four, h26⟩
          · exact hwide ⟨.eight, h27⟩
        rw [unsigned_other hge] at h
        cases h
  · rintro ⟨tail, harg, rfl⟩
    generalize hinfo : info.toNat = k at harg
    cases harg with
    | short hlt =>
        rw [unsigned_short (by omega), hinfo]
        rfl
    | wide width hlt =>
        rw [unsigned_wide width hinfo]
        exact readBigEndian_eq_some.mpr ⟨hlt, rfl⟩

-- The test of the three high bits, and the five low ones.
theorem major_array_iff (byte : UInt8) :
    byte &&& 0xe0 = 0x80 ↔ byte = UInt8.ofNat (32 * 4 + (byte &&& 0x1f).toNat) := by
  have hall : ∀ b : BitVec 8, UInt8.ofBitVec b &&& 0xe0 = 0x80 ↔
      UInt8.ofBitVec b = UInt8.ofNat (32 * 4 + (UInt8.ofBitVec b &&& 0x1f).toNat) := by
    decide +kernel
  exact hall byte.toBitVec

theorem info_array {info : Nat} (h : info < 32) :
    (UInt8.ofNat (32 * 4 + info) &&& 0x1f).toNat = info := by
  have hall : ∀ i : Fin 32, (UInt8.ofNat (32 * 4 + i) &&& 0x1f).toNat = i := by decide +kernel
  exact hall ⟨info, h⟩

theorem array_eq_some {n : Nat} {input rest : Bytes} :
    array input = some (some n, rest) ↔ ∃ header, Header 4 n header ∧ input = header ++ rest := by
  constructor
  · intro h
    cases input with
    | nil => cases h
    | cons byte tail =>
        simp only [array, read, Option.bind_eq_bind, Option.bind_some] at h
        split at h
        · cases h
        rename_i hmajor
        split at h
        · cases h
        simp only [Option.bind_eq_some_iff, Prod.exists, Option.pure_def, Option.some.injEq,
          Prod.mk.injEq] at h
        obtain ⟨len, rest', hlen, rfl, rfl⟩ := h
        obtain ⟨argument, harg, rfl⟩ := unsigned_eq_some.mp hlen
        rw [ne_eq, not_not, major_array_iff] at hmajor
        exact ⟨byte :: argument, ⟨_, argument, harg, by rw [← hmajor]⟩, rfl⟩
  · rintro ⟨header, ⟨info, argument, harg, rfl⟩, rfl⟩
    have hinfo := info_array (Nat.lt_trans harg.info_lt (by decide))
    have hmajor : UInt8.ofNat (32 * 4 + info) &&& 0xe0 = 0x80 := by
      rw [major_array_iff, hinfo]
    have hdefinite : UInt8.ofNat (32 * 4 + info) &&& 0x1f ≠ 31 := by
      intro heq
      have hlt := harg.info_lt
      rw [heq] at hinfo
      have h31 : (31 : UInt8).toNat = 31 := rfl
      omega
    have harray : unsigned (UInt8.ofNat (32 * 4 + info) &&& 0x1f) (argument ++ rest) =
        some (n, rest) := unsigned_eq_some.mpr ⟨argument, by rwa [hinfo], rfl⟩
    simp only [array, read, List.cons_append, Option.bind_eq_bind, Option.bind_some, hmajor,
      hdefinite, ne_eq, not_true_eq_false, if_false, harray, Option.pure_def]

theorem array_eq_open {input rest : Bytes} :
    array input = some (none, rest) ↔ input = 0x9f :: rest := by
  have hbyte : ∀ b : BitVec 8, UInt8.ofBitVec b &&& 0xe0 = 0x80 ∧ UInt8.ofBitVec b &&& 0x1f = 31 ↔
      UInt8.ofBitVec b = 0x9f := by
    decide +kernel
  cases input with
  | nil => simp [array, read]
  | cons byte tail =>
      have hopen : byte &&& 0xe0 = 0x80 ∧ byte &&& 0x1f = 31 ↔ byte = 0x9f := hbyte byte.toBitVec
      rw [List.cons.injEq, ← hopen]
      simp only [array, read, Option.bind_eq_bind, Option.bind_some]
      split_ifs with hmajor hinfo
      · simp_all
      · simp_all
      · cases unsigned (byte &&& 0x1f) tail <;> simp_all

-- `u32` and `u64` read the same headers.
theorem unsigned_header {n : Nat} {input rest : Bytes} :
    (read input).bind (fun p => unsigned p.1 p.2) = some (n, rest) ↔
      ∃ header, Header 0 n header ∧ input = header ++ rest := by
  constructor
  · intro h
    cases input with
    | nil => cases h
    | cons byte tail =>
        obtain ⟨argument, harg, rfl⟩ := unsigned_eq_some.mp h
        refine ⟨byte :: argument, ⟨_, argument, harg, ?_⟩, rfl⟩
        rw [Nat.mul_zero, Nat.zero_add, UInt8.ofNat_toNat]
  · rintro ⟨header, ⟨info, argument, harg, rfl⟩, rfl⟩
    refine unsigned_eq_some.mpr ⟨argument, ?_, rfl⟩
    have hlt := harg.info_lt
    rw [Nat.mul_zero, Nat.zero_add, toNat_ofNat_of_lt (by omega)]
    exact harg

theorem u64_eq_some {n : UInt64} {input rest : Bytes} :
    u64 input = some (n, rest) ↔ ∃ header, Header 0 n.toNat header ∧ input = header ++ rest := by
  have hread : u64 input = ((read input).bind fun p => unsigned p.1 p.2).map
      fun p => (UInt64.ofNat p.1, p.2) := by
    cases input with
    | nil => rfl
    | cons byte tail => cases h : unsigned byte tail <;> simp [u64, read, h]
  rw [hread, ← unsigned_header, Option.map_eq_some_iff]
  constructor
  · rintro ⟨⟨value, rest'⟩, hvalue, heq⟩
    obtain ⟨rfl, rfl⟩ := Prod.mk.inj heq
    obtain ⟨header, ⟨info, argument, harg, -⟩, -⟩ := unsigned_header.mp hvalue
    rw [hvalue, UInt64.toNat_ofNat_of_lt' harg.value_lt]
  · intro hvalue
    exact ⟨_, hvalue, by rw [UInt64.ofNat_toNat]⟩

theorem u32_eq_some {n : UInt32} {input rest : Bytes} :
    u32 input = some (n, rest) ↔ ∃ header, Header 0 n.toNat header ∧ input = header ++ rest := by
  have hread : u32 input = ((read input).bind fun p => unsigned p.1 p.2).bind
      fun p => if p.1 < UInt32.size then some (UInt32.ofNat p.1, p.2) else none := by
    cases input with
    | nil => rfl
    | cons byte tail => cases h : unsigned byte tail <;> simp [u32, read, h]
  rw [hread, ← unsigned_header, Option.bind_eq_some_iff]
  constructor
  · rintro ⟨⟨value, rest'⟩, hvalue, heq⟩
    split at heq
    · rename_i hlt
      obtain ⟨rfl, rfl⟩ := Prod.mk.inj (Option.some.inj heq)
      rw [hvalue, UInt32.toNat_ofNat_of_lt' hlt]
    · cases heq
  · intro hvalue
    exact ⟨_, hvalue, by rw [if_pos n.toNat_lt_size, UInt32.ofNat_toNat]⟩

@[reducible] def reader : Minicbor where
  array := array
  u32 := u32
  u64 := u64
  array_eq_some := array_eq_some
  array_eq_open := array_eq_open
  u32_eq_some := u32_eq_some
  u64_eq_some := u64_eq_some

end Cbor

end LuxKernel.Boot
