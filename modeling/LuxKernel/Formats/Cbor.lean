import Mathlib.Data.UInt
import Mathlib.Tactic.Linarith

namespace LuxKernel.Formats

-- The grammar of the definite-length part of CBOR that has unsigned integers and
-- arrays, with every width of a header that RFC 8949 allows.

def bigEndian : Nat → Nat → List UInt8
  | 0, _ => []
  | width + 1, n => UInt8.ofNat (n / 256 ^ width) :: bigEndian width (n % 256 ^ width)

@[simp] theorem length_bigEndian (width n : Nat) : (bigEndian width n).length = width := by
  induction width generalizing n with
  | zero => rfl
  | succ width ih => rw [bigEndian, List.length_cons, ih]

theorem toNat_ofNat_of_lt {n : Nat} (h : n < 256) : (UInt8.ofNat n).toNat = n := by
  rw [UInt8.toNat_ofNat']
  exact Nat.mod_eq_of_lt h

-- The first digit of a number with one digit more.
theorem div_pow_lt_iff {width n : Nat} : n / 256 ^ width < 256 ↔ n < 256 ^ (width + 1) := by
  rw [Nat.div_lt_iff_lt_mul (Nat.pow_pos (by decide)), ← Nat.pow_succ']

theorem bigEndian_injective {width n m : Nat} (hn : n < 256 ^ width) (hm : m < 256 ^ width)
    (h : bigEndian width n = bigEndian width m) : n = m := by
  induction width generalizing n m with
  | zero =>
      rw [Nat.pow_zero, Nat.lt_one_iff] at hn hm
      rw [hn, hm]
  | succ width ih =>
      have hpos : 0 < 256 ^ width := Nat.pow_pos (by decide)
      obtain ⟨hfirst, hrest⟩ := List.cons.inj h
      have hdiv : n / 256 ^ width = m / 256 ^ width := by
        rw [← toNat_ofNat_of_lt (div_pow_lt_iff.mpr hn), hfirst,
          toNat_ofNat_of_lt (div_pow_lt_iff.mpr hm)]
      have hmod := ih (Nat.mod_lt n hpos) (Nat.mod_lt m hpos) hrest
      rw [← Nat.div_add_mod n (256 ^ width), hdiv, hmod, Nat.div_add_mod]

inductive Width where
  | one
  | two
  | four
  | eight
deriving DecidableEq, Repr

def Width.bytes : Width → Nat
  | one => 1
  | two => 2
  | four => 4
  | eight => 8

-- The additional information that announces an argument of this width.
def Width.info : Width → Nat
  | one => 24
  | two => 25
  | four => 26
  | eight => 27

theorem Width.info_injective {v w : Width} (h : v.info = w.info) : v = w := by
  cases v <;> cases w <;> first | rfl | exact absurd h (by decide)

theorem Width.le_info (w : Width) : 24 ≤ w.info ∧ w.info < 28 := by
  cases w <;> decide

-- `Argument info n tail`: after an initial byte with additional information `info`,
-- the bytes of `tail` complete the argument `n`.
inductive Argument : Nat → Nat → List UInt8 → Prop where
  | short {n : Nat} (h : n < 24) : Argument n n []
  | wide {n : Nat} (width : Width) (h : n < 256 ^ width.bytes) :
      Argument width.info n (bigEndian width.bytes n)

theorem Argument.info_lt {info n : Nat} {tail : List UInt8} (h : Argument info n tail) :
    info < 28 := by
  cases h with
  | short h => omega
  | wide width h =>
      have hinfo := width.le_info
      omega

theorem Argument.value_lt {info n : Nat} {tail : List UInt8} (h : Argument info n tail) :
    n < 2 ^ 64 := by
  cases h with
  | short h => omega
  | wide width h =>
      refine Nat.lt_of_lt_of_le h ?_
      cases width <;> decide

theorem Argument.unique {info info' n m : Nat} {a b r s : List UInt8} (ha : Argument info n a)
    (hb : Argument info' m b) (hinfo : info = info') (h : a ++ r = b ++ s) :
    n = m ∧ a = b ∧ r = s := by
  cases ha with
  | short hn =>
      cases hb with
      | short hm => exact ⟨hinfo, rfl, h⟩
      | wide width hm =>
          have hle := width.le_info
          omega
  | wide width hn =>
      cases hb with
      | short hm =>
          have hle := width.le_info
          omega
      | wide width' hm =>
          obtain rfl := Width.info_injective hinfo
          obtain ⟨hbytes, hrest⟩ := List.append_inj h (by simp)
          exact ⟨bigEndian_injective hn hm hbytes, hbytes, hrest⟩

-- An initial byte with the major type in its three high bits, and its argument.
def Header (major n : Nat) (bytes : List UInt8) : Prop :=
  ∃ info tail, Argument info n tail ∧ bytes = UInt8.ofNat (32 * major + info) :: tail

theorem Header.unique {major major' n m : Nat} {a b r s : List UInt8} (hmajor : major < 8)
    (hmajor' : major' < 8) (ha : Header major n a) (hb : Header major' m b)
    (h : a ++ r = b ++ s) : major = major' ∧ n = m ∧ a = b ∧ r = s := by
  obtain ⟨info, tail, harg, rfl⟩ := ha
  obtain ⟨info', tail', harg', rfl⟩ := hb
  obtain ⟨hbyte, htail⟩ := List.cons.inj h
  have hinfo := harg.info_lt
  have hinfo' := harg'.info_lt
  have hnat : 32 * major + info = 32 * major' + info' := by
    rw [← toNat_ofNat_of_lt (show 32 * major + info < 256 by omega), hbyte,
      toNat_ofNat_of_lt (by omega)]
  obtain ⟨hn, htails, hrest⟩ := harg.unique harg' (by omega) htail
  exact ⟨by omega, hn, by rw [hbyte, htails], hrest⟩

inductive Value where
  | uint (n : Nat)
  | array (items : List Value)

-- One encoding of each value, one after the other.
inductive EncodesAll : List Value → List UInt8 → Prop where
  | nil : EncodesAll [] []
  | uint {n : Nat} {values : List Value} {header rest : List UInt8} (head : Header 0 n header)
      (tail : EncodesAll values rest) : EncodesAll (.uint n :: values) (header ++ rest)
  | array {items values : List Value} {header body rest : List UInt8}
      (head : Header 4 items.length header) (inner : EncodesAll items body)
      (tail : EncodesAll values rest) :
      EncodesAll (.array items :: values) (header ++ (body ++ rest))

def Encodes (value : Value) (bytes : List UInt8) : Prop := EncodesAll [value] bytes

theorem encodes_uint {n : Nat} {bytes : List UInt8} : Encodes (.uint n) bytes ↔ Header 0 n bytes := by
  constructor
  · rintro (_ | ⟨head, tail⟩)
    cases tail
    rwa [List.append_nil]
  · intro head
    have henc := EncodesAll.uint head .nil
    rwa [List.append_nil] at henc

theorem encodes_array {items : List Value} {bytes : List UInt8} : Encodes (.array items) bytes ↔
    ∃ header body, Header 4 items.length header ∧ EncodesAll items body ∧
      bytes = header ++ body := by
  constructor
  · rintro (_ | _ | ⟨head, inner, tail⟩)
    cases tail
    exact ⟨_, _, head, inner, by rw [List.append_nil]⟩
  · rintro ⟨header, body, head, inner, rfl⟩
    have henc := EncodesAll.array head inner .nil
    rwa [List.append_nil] at henc

theorem encodesAll_nil {bytes : List UInt8} : EncodesAll [] bytes ↔ bytes = [] := by
  constructor
  · rintro ⟨⟩
    rfl
  · rintro rfl
    exact .nil

theorem encodesAll_cons {value : Value} {values : List Value} {bytes : List UInt8} :
    EncodesAll (value :: values) bytes ↔
      ∃ first rest, Encodes value first ∧ EncodesAll values rest ∧ bytes = first ++ rest := by
  constructor
  · rintro (_ | ⟨head, tail⟩ | ⟨head, inner, tail⟩)
    · exact ⟨_, _, encodes_uint.mpr head, tail, rfl⟩
    · exact ⟨_, _, encodes_array.mpr ⟨_, _, head, inner, rfl⟩, tail,
        (List.append_assoc _ _ _).symm⟩
  · rintro ⟨first, rest, hfirst, hrest, rfl⟩
    cases value with
    | uint n => exact .uint (encodes_uint.mp hfirst) hrest
    | array items =>
        obtain ⟨header, body, head, inner, rfl⟩ := encodes_array.mp hfirst
        rw [List.append_assoc]
        exact .array head inner hrest

-- Encodings can be read off the front of an input in one way only.
theorem EncodesAll.unique {vs ws : List Value} {a b r s : List UInt8} (ha : EncodesAll vs a)
    (hb : EncodesAll ws b) (hlen : vs.length = ws.length) (h : a ++ r = b ++ s) :
    vs = ws ∧ a = b ∧ r = s := by
  induction ha generalizing ws b r s with
  | nil =>
      cases hb with
      | nil => exact ⟨rfl, rfl, h⟩
      | uint => cases hlen
      | array => cases hlen
  | uint head tail ih =>
      cases hb with
      | nil => cases hlen
      | uint head' tail' =>
          simp only [List.append_assoc] at h
          obtain ⟨-, rfl, rfl, hrest⟩ := head.unique (by decide) (by decide) head' h
          obtain ⟨rfl, rfl, rfl⟩ := ih tail' (Nat.succ.inj hlen) hrest
          exact ⟨rfl, rfl, rfl⟩
      | array head' inner' tail' =>
          simp only [List.append_assoc] at h
          obtain ⟨hmajor, -⟩ := head.unique (by decide) (by decide) head' h
          cases hmajor
  | array head inner tail ihinner ihtail =>
      cases hb with
      | nil => cases hlen
      | uint head' tail' =>
          simp only [List.append_assoc] at h
          obtain ⟨hmajor, -⟩ := head.unique (by decide) (by decide) head' h
          cases hmajor
      | array head' inner' tail' =>
          simp only [List.append_assoc] at h
          obtain ⟨-, hitems, rfl, hbody⟩ := head.unique (by decide) (by decide) head' h
          obtain ⟨rfl, rfl, hrest⟩ := ihinner inner' hitems hbody
          obtain ⟨rfl, rfl, rfl⟩ := ihtail tail' (Nat.succ.inj hlen) hrest
          exact ⟨rfl, rfl, rfl⟩

end LuxKernel.Formats
