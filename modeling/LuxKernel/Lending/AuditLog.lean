import LuxKernel.Audit.Binding
import LuxKernel.Audit.Export
import LuxKernel.Formats.Binary64

namespace LuxKernel.Lending

open Audit (le32 le64 hexByte)
open Formats

-- What `_pack` and `bytes.fromhex` raise.
inductive PyException where
  | structError
  | valueError
deriving DecidableEq, Repr

-- `struct.pack("<Q", n)` and `struct.pack("<I", n)`.
def packQ : Int → Except PyException Bytes
  | .ofNat n => if n < 2 ^ 64 then .ok (le64 (UInt64.ofNat n)) else .error .structError
  | .negSucc _ => .error .structError

def packI : Int → Except PyException Bytes
  | .ofNat n => if n < 2 ^ 32 then .ok (le32 (UInt32.ofNat n)) else .error .structError
  | .negSucc _ => .error .structError

def flag (b : Bool) : UInt8 := if b then 1 else 0

def pack (seq aid : Int) (decision : String) (conf : Binary64) (allowed : Bool) (tsNs : Int) :
    Except PyException Bytes := do
  let seqBytes ← packQ seq
  let aidBytes ← packI aid
  let tsBytes ← packQ tsNs
  return seqBytes ++ aidBytes ++ [flag (decide (decision = "APPROVE"))] ++ le64 conf.bits ++
    [flag allowed] ++ tsBytes

structure AuditEntry where
  seq : Int
  applicantId : Int
  decision : String
  confidence : Binary64
  policyAllowed : Bool
  policyReason : String
  timestampNs : Int
  entryHash : String
  prevHash : String
deriving DecidableEq, Repr

def AuditEntry.payload (e : AuditEntry) : Except PyException Bytes :=
  pack e.seq e.applicantId e.decision e.confidence e.policyAllowed e.timestampNs

def hex (bytes : Bytes) : String := String.ofList (bytes.flatMap hexByte)

-- `str.isspace` for the ASCII characters, which `bytes.fromhex` skips between bytes.
def isAsciiSpace (c : Char) : Bool :=
  [' ', '\t', '\n', '\r', '\x0b', '\x0c'].contains c

def fromHexChars : List Char → Option Bytes
  | [] => some []
  | [c] => if isAsciiSpace c then some [] else none
  | c :: d :: rest =>
      if isAsciiSpace c then fromHexChars (d :: rest)
      else do
        let high ← Json.hexValue c
        let low ← Json.hexValue d
        let bytes ← fromHexChars rest
        return UInt8.ofNat (high * 16 + low) :: bytes

def fromHex (text : String) : Except PyException Bytes :=
  match fromHexChars text.toList with
  | some bytes => .ok bytes
  | none => .error .valueError

structure AuditLog where
  entries : List AuditEntry
  head : Bytes
deriving DecidableEq, Repr

-- The arguments of a call of `append`, and the time that it reads from the clock.
structure Call where
  applicantId : Int
  decision : String
  confidence : Binary64
  policyAllowed : Bool
  policyReason : String
  tsNs : Int

def GENESIS : Bytes := List.replicate 32 0

namespace AuditLog

def init : AuditLog := ⟨[], GENESIS⟩

variable [Sha256]

-- An exception is caught before anything has changed.
def append (log : AuditLog) (call : Call) : Bool × AuditLog :=
  let seq : Int := log.entries.length
  match pack seq call.applicantId call.decision call.confidence call.policyAllowed call.tsNs with
  | .error _ => (false, log)
  | .ok payload =>
      let entryHash := (Sha256.digest (log.head ++ payload)).toList
      (true,
        { entries := log.entries ++
            [{ seq := seq
               applicantId := call.applicantId
               decision := call.decision
               confidence := call.confidence
               policyAllowed := call.policyAllowed
               policyReason := call.policyReason
               timestampNs := call.tsNs
               entryHash := hex entryHash
               prevHash := hex log.head }]
          head := entryHash })

-- A log after any calls of `append`, listed latest first.
def run : List Call → AuditLog
  | [] => init
  | call :: earlier => ((run earlier).append call).2

-- The loop of `verify_chain`.
def verifyFrom (prev : Bytes) : List AuditEntry → Except PyException Bool
  | [] => .ok true
  | e :: rest => do
      let payload ← e.payload
      let expected := hex (Sha256.digest (prev ++ payload)).toList
      if expected ≠ e.entryHash then return false
      else do
        let prev ← fromHex e.entryHash
        verifyFrom prev rest

def verifyChain (log : AuditLog) : Except PyException Bool := verifyFrom GENESIS log.entries

end AuditLog

section Packing

variable {n m : Int} {b : Bytes}

theorem packQ_eq_ok : packQ n = .ok b ↔ (0 ≤ n ∧ n < 2 ^ 64) ∧ b = le64 (UInt64.ofNat n.toNat) := by
  match n with
  | .negSucc m => exact iff_of_false (by simp [packQ]) (by omega)
  | .ofNat m =>
    rw [packQ, Int.ofNat_eq_natCast, Int.toNat_natCast]
    split
    · rw [and_iff_right (by omega), Except.ok.injEq, eq_comm]
    · exact iff_of_false (by simp) (by omega)

theorem packI_eq_ok : packI n = .ok b ↔ (0 ≤ n ∧ n < 2 ^ 32) ∧ b = le32 (UInt32.ofNat n.toNat) := by
  match n with
  | .negSucc m => exact iff_of_false (by simp [packI]) (by omega)
  | .ofNat m =>
    rw [packI, Int.ofNat_eq_natCast, Int.toNat_natCast]
    split
    · rw [and_iff_right (by omega), Except.ok.injEq, eq_comm]
    · exact iff_of_false (by simp) (by omega)

theorem packQ_injective (hn : packQ n = .ok b) (hm : packQ m = .ok b) : n = m := by
  obtain ⟨hn, rfl⟩ := packQ_eq_ok.mp hn
  obtain ⟨hm, hbytes⟩ := packQ_eq_ok.mp hm
  have heq := congrArg UInt64.toNat (Audit.le64_injective hbytes)
  rw [UInt64.toNat_ofNat_of_lt' (show n.toNat < 2 ^ 64 by omega),
    UInt64.toNat_ofNat_of_lt' (show m.toNat < 2 ^ 64 by omega)] at heq
  omega

theorem packI_injective (hn : packI n = .ok b) (hm : packI m = .ok b) : n = m := by
  obtain ⟨hn, rfl⟩ := packI_eq_ok.mp hn
  obtain ⟨hm, hbytes⟩ := packI_eq_ok.mp hm
  have heq := congrArg UInt32.toNat (Audit.le32_injective hbytes)
  rw [UInt32.toNat_ofNat_of_lt' (show n.toNat < 2 ^ 32 by omega),
    UInt32.toNat_ofNat_of_lt' (show m.toNat < 2 ^ 32 by omega)] at heq
  omega

theorem flag_injective {a b : Bool} (h : flag a = flag b) : a = b := by
  revert h
  cases a <;> cases b <;> decide

variable {e e' : AuditEntry} {p : Bytes}

-- What `_pack` shows of an entry.
def AuditEntry.shown (e : AuditEntry) : Int × Int × Bool × Binary64 × Bool × Int :=
  (e.seq, e.applicantId, decide (e.decision = "APPROVE"), e.confidence, e.policyAllowed,
    e.timestampNs)

-- The numbers fit into the widths that they are packed in.
structure AuditEntry.Fits (e : AuditEntry) : Prop where
  seq : 0 ≤ e.seq ∧ e.seq < 2 ^ 64
  applicantId : 0 ≤ e.applicantId ∧ e.applicantId < 2 ^ 32
  timestampNs : 0 ≤ e.timestampNs ∧ e.timestampNs < 2 ^ 64

theorem payload_eq_ok : e.payload = .ok p ↔ ∃ s a t, packQ e.seq = .ok s ∧
    packI e.applicantId = .ok a ∧ packQ e.timestampNs = .ok t ∧
      p = s ++ a ++ [flag (decide (e.decision = "APPROVE"))] ++ le64 e.confidence.bits ++
        [flag e.policyAllowed] ++ t := by
  unfold AuditEntry.payload pack
  constructor
  · intro h
    obtain ⟨s, hs, h⟩ := bind_eq_ok.mp h
    obtain ⟨a, ha, h⟩ := bind_eq_ok.mp h
    obtain ⟨t, ht, h⟩ := bind_eq_ok.mp h
    exact ⟨s, a, t, hs, ha, ht, (Except.ok.inj h).symm⟩
  · rintro ⟨s, a, t, hs, ha, ht, rfl⟩
    exact bind_eq_ok.mpr ⟨s, hs, bind_eq_ok.mpr ⟨a, ha, bind_eq_ok.mpr ⟨t, ht, rfl⟩⟩⟩

theorem exists_payload_iff : (∃ p, e.payload = .ok p) ↔ e.Fits := by
  constructor
  · rintro ⟨p, hp⟩
    obtain ⟨s, a, t, hs, ha, ht, -⟩ := payload_eq_ok.mp hp
    exact ⟨(packQ_eq_ok.mp hs).1, (packI_eq_ok.mp ha).1, (packQ_eq_ok.mp ht).1⟩
  · intro h
    exact ⟨_, payload_eq_ok.mpr ⟨_, _, _, packQ_eq_ok.mpr ⟨h.seq, rfl⟩,
      packI_eq_ok.mpr ⟨h.applicantId, rfl⟩, packQ_eq_ok.mpr ⟨h.timestampNs, rfl⟩, rfl⟩⟩

theorem payload_congr (h : e.shown = e'.shown) : e.payload = e'.payload := by
  simp only [AuditEntry.shown, Prod.mk.injEq] at h
  obtain ⟨hseq, haid, hdecision, hconf, hallowed, hts⟩ := h
  unfold AuditEntry.payload pack
  rw [hseq, haid, hdecision, hconf, hallowed, hts]

-- The fields have fixed widths, so that the bytes determine them.
theorem shown_eq_of_payload_eq (h : e.payload = .ok p) (h' : e'.payload = .ok p) :
    e.shown = e'.shown := by
  obtain ⟨s, a, t, hs, ha, ht, rfl⟩ := payload_eq_ok.mp h
  obtain ⟨s', a', t', hs', ha', ht', heq⟩ := payload_eq_ok.mp h'
  have hQ : ∀ {n : Int} {b : Bytes}, packQ n = .ok b → b.length = 8 := by
    intro n b hb
    rw [(packQ_eq_ok.mp hb).2]
    rfl
  have hI : ∀ {n : Int} {b : Bytes}, packI n = .ok b → b.length = 4 := by
    intro n b hb
    rw [(packI_eq_ok.mp hb).2]
    rfl
  simp only [List.append_assoc] at heq
  obtain ⟨rfl, htail⟩ := List.append_inj heq ((hQ hs).trans (hQ hs').symm)
  obtain ⟨rfl, hfixed⟩ := List.append_inj htail ((hI ha).trans (hI ha').symm)
  obtain ⟨hdecision, htail⟩ := List.append_inj hfixed rfl
  obtain ⟨hconf, htail⟩ := List.append_inj htail rfl
  obtain ⟨hallowed, rfl⟩ := List.append_inj htail rfl
  have hbits : e.confidence = e'.confidence :=
    Binary64.ext (Audit.le64_injective hconf)
  rw [AuditEntry.shown, AuditEntry.shown, packQ_injective hs hs', packI_injective ha ha',
    flag_injective (List.singleton_inj.mp hdecision), hbits,
    flag_injective (List.singleton_inj.mp hallowed), packQ_injective ht ht']

-- An entry is what is shown of it and its texts.
theorem eq_of_shown_eq (h : e.shown = e'.shown)
    (htexts : (e.decision, e.policyReason, e.entryHash, e.prevHash) =
      (e'.decision, e'.policyReason, e'.entryHash, e'.prevHash)) : e = e' := by
  simp only [AuditEntry.shown, Prod.mk.injEq] at h htexts
  rw [AuditEntry.mk.injEq]
  exact ⟨h.1, h.2.1, htexts.1, h.2.2.2.1, h.2.2.2.2.1, htexts.2.1, h.2.2.2.2.2, htexts.2.2.1,
    htexts.2.2.2⟩

end Packing

section Hex

theorem fromHexChars_hexByte (byte : UInt8) (rest : List Char) :
    fromHexChars (hexByte byte ++ rest) = (fromHexChars rest).map (byte :: ·) := by
  have hlt := byte.toNat_lt
  have hdigit : ∀ n < 16, isAsciiSpace (Nat.digitChar n) = false := by decide
  have hhigh := hdigit (byte.toNat / 16) (by omega)
  have hvalue := Json.hexValue_digitChar (byte.toNat / 16) (by omega)
  have hlow := Json.hexValue_digitChar (byte.toNat % 16) (by omega)
  have hbyte : UInt8.ofNat (byte.toNat / 16 * 16 + byte.toNat % 16) = byte := by
    rw [Nat.div_add_mod', UInt8.ofNat_toNat]
  rw [hexByte, List.cons_append, List.cons_append, List.nil_append, fromHexChars, hhigh, hvalue,
    hlow]
  cases fromHexChars rest with
  | none => rfl
  | some bytes => exact congrArg (fun b => some (b :: bytes)) hbyte

theorem fromHex_hex (bytes : Bytes) : fromHex (hex bytes) = .ok bytes := by
  have hchars : fromHexChars (bytes.flatMap hexByte) = some bytes := by
    induction bytes with
    | nil => rfl
    | cons byte rest ih => rw [List.flatMap_cons, fromHexChars_hexByte, ih, Option.map_some]
  rw [fromHex, hex, String.toList_ofList, hchars]

theorem hex_injective {a b : Bytes} (h : hex a = hex b) : a = b := by
  have hbytes := fromHex_hex a
  rw [h, fromHex_hex] at hbytes
  exact (Except.ok.inj hbytes).symm

end Hex

namespace AuditLog

section Verification

variable [Sha256] {prev p : Bytes} {e : AuditEntry} {rest : List AuditEntry}

-- The byte strings that `verify_chain` hashes before it returns.
def hashedFrom (prev : Bytes) : List AuditEntry → List Bytes
  | [] => []
  | e :: rest =>
      match e.payload with
      | .error _ => []
      | .ok payload =>
          let digest := (Sha256.digest (prev ++ payload)).toList
          (prev ++ payload) :: if hex digest = e.entryHash then hashedFrom digest rest else []

def hashed (log : AuditLog) : List Bytes := hashedFrom GENESIS log.entries

theorem verifyFrom_cons (hp : e.payload = .ok p) : verifyFrom prev (e :: rest) =
    if hex (Sha256.digest (prev ++ p)).toList = e.entryHash then
      verifyFrom (Sha256.digest (prev ++ p)).toList rest
    else .ok false := by
  rw [verifyFrom, hp]
  change (if hex (Sha256.digest (prev ++ p)).toList ≠ e.entryHash then .ok false
    else fromHex e.entryHash >>= fun prev => verifyFrom prev rest) = _
  rw [ite_not]
  split
  · rename_i hstored
    rw [← hstored, fromHex_hex]
    rfl
  · rfl

theorem hashedFrom_cons (hp : e.payload = .ok p) : hashedFrom prev (e :: rest) =
    (prev ++ p) :: if hex (Sha256.digest (prev ++ p)).toList = e.entryHash then
      hashedFrom (Sha256.digest (prev ++ p)).toList rest else [] := by
  rw [hashedFrom, hp]

theorem exists_payload_of_verifyFrom {verdict : Bool}
    (h : verifyFrom prev (e :: rest) = .ok verdict) : ∃ p, e.payload = .ok p := by
  rw [verifyFrom] at h
  obtain ⟨p, hp, -⟩ := bind_eq_ok.mp h
  exact ⟨p, hp⟩

theorem verifyFrom_cons_eq_true (h : verifyFrom prev (e :: rest) = .ok true) :
    ∃ p, e.payload = .ok p ∧ hex (Sha256.digest (prev ++ p)).toList = e.entryHash ∧
      verifyFrom (Sha256.digest (prev ++ p)).toList rest = .ok true := by
  obtain ⟨p, hp⟩ := exists_payload_of_verifyFrom h
  rw [verifyFrom_cons hp] at h
  split at h
  · rename_i hstored
    exact ⟨p, hp, hstored, h⟩
  · cases h

-- The loop gets through a part that verifies to the digest stored at its end.
theorem verifyFrom_append {before : List AuditEntry} (more : List AuditEntry)
    (h : verifyFrom prev (before ++ more) = .ok true) :
    ∃ here, verifyFrom here more = .ok true ∧ ∀ other,
      verifyFrom prev (before ++ other) = verifyFrom here other ∧
        hashedFrom here other ⊆ hashedFrom prev (before ++ other) := by
  induction before generalizing prev with
  | nil => exact ⟨prev, h, fun other => ⟨rfl, List.Subset.refl _⟩⟩
  | cons e before ih =>
    obtain ⟨p, hp, hstored, hrest⟩ := verifyFrom_cons_eq_true h
    obtain ⟨here, hmore, hother⟩ := ih hrest
    refine ⟨here, hmore, fun other => ?_⟩
    rw [List.cons_append, verifyFrom_cons hp, hashedFrom_cons hp, if_pos hstored, if_pos hstored]
    exact ⟨(hother other).1, List.subset_cons_of_subset _ (hother other).2⟩

-- Verification of a log continues from its head.
def Chained (log : AuditLog) : Prop :=
  ∀ more, verifyFrom GENESIS (log.entries ++ more) = verifyFrom log.head more

theorem chained_append {log : AuditLog} (h : log.Chained) (call : Call) :
    (log.append call).2.Chained := by
  intro more
  unfold append
  dsimp only
  split
  · exact h more
  · rename_i payload hpack
    rw [List.append_assoc, h, List.singleton_append, verifyFrom_cons (p := payload), if_pos rfl]
    exact hpack

theorem chained_run (calls : List Call) : (run calls).Chained := by
  induction calls with
  | nil => exact fun _ => rfl
  | cons call earlier ih =>
    rw [run]
    exact chained_append ih call

theorem verifyChain_run (calls : List Call) : (run calls).verifyChain = .ok true := by
  have h := chained_run calls []
  rw [List.append_nil] at h
  exact h

end Verification

end AuditLog

-- A change of one field of an entry.
inductive Change where
  | seq (n : Int)
  | applicantId (n : Int)
  | decision (s : String)
  | confidence (x : Binary64)
  | policyAllowed (b : Bool)
  | policyReason (s : String)
  | timestampNs (n : Int)
  | entryHash (s : String)
  | prevHash (s : String)
deriving DecidableEq, Repr

def Change.apply (e : AuditEntry) : Change → AuditEntry
  | .seq n => { e with seq := n }
  | .applicantId n => { e with applicantId := n }
  | .decision s => { e with decision := s }
  | .confidence x => { e with confidence := x }
  | .policyAllowed b => { e with policyAllowed := b }
  | .policyReason s => { e with policyReason := s }
  | .timestampNs n => { e with timestampNs := n }
  | .entryHash s => { e with entryHash := s }
  | .prevHash s => { e with prevHash := s }

namespace Change

-- The changes that `verify_chain` answers with `False`. The reason and the link are not
-- hashed, only one bit of the decision is, and a number out of range cannot be packed.
def Detected (e : AuditEntry) : Change → Prop
  | .seq n => 0 ≤ n ∧ n < 2 ^ 64
  | .applicantId n => 0 ≤ n ∧ n < 2 ^ 32
  | .decision s => ¬(s = "APPROVE" ↔ e.decision = "APPROVE")
  | .confidence _ => True
  | .policyAllowed _ => True
  | .policyReason _ => False
  | .timestampNs n => 0 ≤ n ∧ n < 2 ^ 64
  | .entryHash _ => True
  | .prevHash _ => False

variable {e : AuditEntry}

theorem entryHash_eq_or_shown_eq (e : AuditEntry) (change : Change) :
    (change.apply e).entryHash = e.entryHash ∨ (change.apply e).shown = e.shown := by
  cases change with
  | entryHash s => exact Or.inr rfl
  | _ => exact Or.inl rfl

theorem detected_iff (hfits : e.Fits) {change : Change} (hchange : change.apply e ≠ e) :
    change.Detected e ↔ (change.apply e).Fits ∧
      ((change.apply e).shown ≠ e.shown ∨ (change.apply e).entryHash ≠ e.entryHash) := by
  have hshown := fun hseen htexts => hchange (eq_of_shown_eq hseen htexts)
  cases change with
  | seq n =>
    exact ⟨fun h => ⟨⟨h, hfits.applicantId, hfits.timestampNs⟩, Or.inl fun hs => hshown hs rfl⟩,
      fun h => h.1.seq⟩
  | applicantId n =>
    exact ⟨fun h => ⟨⟨hfits.seq, h, hfits.timestampNs⟩, Or.inl fun hs => hshown hs rfl⟩,
      fun h => h.1.applicantId⟩
  | timestampNs n =>
    exact ⟨fun h => ⟨⟨hfits.seq, hfits.applicantId, h⟩, Or.inl fun hs => hshown hs rfl⟩,
      fun h => h.1.timestampNs⟩
  | confidence x =>
    exact iff_of_true trivial ⟨⟨hfits.1, hfits.2, hfits.3⟩, Or.inl fun hs => hshown hs rfl⟩
  | policyAllowed b =>
    exact iff_of_true trivial ⟨⟨hfits.1, hfits.2, hfits.3⟩, Or.inl fun hs => hshown hs rfl⟩
  | entryHash s =>
    refine iff_of_true trivial ⟨⟨hfits.1, hfits.2, hfits.3⟩, Or.inr fun hs => hshown rfl ?_⟩
    exact congrArg (fun text => (e.decision, e.policyReason, text, e.prevHash)) hs
  | policyReason s => exact iff_of_false id fun h => h.2.elim (· rfl) (· rfl)
  | prevHash s => exact iff_of_false id fun h => h.2.elim (· rfl) (· rfl)
  | decision s =>
    have hbit : (apply e (.decision s)).shown = e.shown ↔
        (s = "APPROVE" ↔ e.decision = "APPROVE") := by
      simp only [apply, AuditEntry.shown, Prod.mk.injEq, true_and, and_true]
      exact decide_eq_decide
    constructor
    · intro h
      exact ⟨⟨hfits.1, hfits.2, hfits.3⟩, Or.inl (mt hbit.mp h)⟩
    · rintro ⟨-, h | h⟩
      · exact mt hbit.mpr h
      · exact absurd rfl h

end Change

namespace AuditLog

section Tampering

variable [Sha256] {prev : Bytes} {e e' : AuditEntry} {rest : List AuditEntry}

-- SHA-256 is injective on these byte strings.
def DigestInjective (strings : List Bytes) : Prop :=
  ∀ a ∈ strings, ∀ b ∈ strings, Sha256.digest a = Sha256.digest b → a = b

instance (strings : List Bytes) : Decidable (DigestInjective strings) :=
  inferInstanceAs (Decidable (∀ a ∈ strings, _))

def tamper (log : AuditLog) (k : Nat) (e : AuditEntry) : AuditLog :=
  { log with entries := log.entries.set k e }

-- The first entry of a part that verifies, replaced by one that differs from it in the
-- stored hash alone or keeps the stored hash.
theorem verifyFrom_replace (hverified : verifyFrom prev (e :: rest) = .ok true)
    (hinj : DigestInjective (hashedFrom prev (e :: rest) ++ hashedFrom prev (e' :: rest)))
    (hone : e'.entryHash = e.entryHash ∨ e'.shown = e.shown) :
    verifyFrom prev (e' :: rest) = .ok false ↔
      e'.Fits ∧ (e'.shown ≠ e.shown ∨ e'.entryHash ≠ e.entryHash) := by
  obtain ⟨p, hp, hstored, hrest⟩ := verifyFrom_cons_eq_true hverified
  by_cases hfits : e'.Fits
  · obtain ⟨p', hp'⟩ := exists_payload_iff.mpr hfits
    rw [and_iff_right hfits, verifyFrom_cons hp']
    by_cases hshown : e'.shown = e.shown
    · have hsame : p' = p := by
        rw [payload_congr hshown, hp] at hp'
        exact (Except.ok.inj hp').symm
      rw [hsame, hstored, hrest, or_iff_right (not_not_intro hshown), ne_comm]
      simp
    · -- Different bytes have different digests, and the stored one is the old.
      have hkept : e'.entryHash = e.entryHash := hone.resolve_right hshown
      have hbroken : hex (Sha256.digest (prev ++ p')).toList ≠ e'.entryHash := by
        intro hmatch
        rw [hkept, ← hstored] at hmatch
        have hstrings : prev ++ p' = prev ++ p := by
          apply hinj
          · rw [hashedFrom_cons hp']
            exact List.mem_append_right _ List.mem_cons_self
          · rw [hashedFrom_cons hp]
            exact List.mem_append_left _ List.mem_cons_self
          · exact Vector.toList_inj.mp (hex_injective hmatch)
        rw [List.append_cancel_left hstrings] at hp'
        exact hshown (shown_eq_of_payload_eq hp' hp)
      rw [if_neg hbroken]
      exact iff_of_true rfl (Or.inl hshown)
  · refine iff_of_false (fun h => hfits ?_) (fun h => hfits h.1)
    exact exists_payload_iff.mp (exists_payload_of_verifyFrom h)

-- Any one field of any one entry is changed.
theorem tamper_evident_iff (calls : List Call) (k : Nat) (e : AuditEntry) (change : Change)
    (hentry : (run calls).entries[k]? = some e) (hchange : change.apply e ≠ e)
    (hinj : DigestInjective ((run calls).hashed ++
      ((run calls).tamper k (change.apply e)).hashed)) :
    ((run calls).tamper k (change.apply e)).verifyChain = .ok false ↔ change.Detected e := by
  obtain ⟨hk, hget⟩ := List.getElem?_eq_some_iff.mp hentry
  have hsplit : (run calls).entries =
      (run calls).entries.take k ++ e :: (run calls).entries.drop (k + 1) := by
    rw [← hget, List.getElem_cons_drop, List.take_append_drop]
  have hset : (run calls).entries.set k (change.apply e) =
      (run calls).entries.take k ++ change.apply e :: (run calls).entries.drop (k + 1) := by
    rw [List.set_eq_take_append_cons_drop, if_pos hk]
  have hverified : verifyFrom GENESIS ((run calls).entries.take k ++
      e :: (run calls).entries.drop (k + 1)) = .ok true := by
    rw [← hsplit]
    exact verifyChain_run calls
  obtain ⟨here, hhere, hpart⟩ := verifyFrom_append _ hverified
  have hfits : e.Fits := exists_payload_iff.mp (exists_payload_of_verifyFrom hhere)
  rw [verifyChain, tamper, hset, (hpart _).1, Change.detected_iff hfits hchange]
  apply verifyFrom_replace hhere _ (Change.entryHash_eq_or_shown_eq e change)
  rw [hashed, hashed, tamper, hset] at hinj
  have hsub : ∀ a ∈ hashedFrom here (e :: (run calls).entries.drop (k + 1)) ++
      hashedFrom here (change.apply e :: (run calls).entries.drop (k + 1)),
      a ∈ hashedFrom GENESIS (run calls).entries ++ hashedFrom GENESIS
        ((run calls).entries.take k ++ change.apply e :: (run calls).entries.drop (k + 1)) := by
    intro a ha
    apply List.mem_append.mpr
    refine (List.mem_append.mp ha).imp (fun h => ?_) fun h => (hpart _).2 h
    rw [hsplit]
    exact (hpart _).2 h
  exact fun a ha b hb => hinj a (hsub a ha) b (hsub b hb)

end Tampering

section

-- A hash that keeps what tells the sequence number and the decision of an entry.
@[reducible] def decisionHash : Sha256 :=
  ⟨fun bytes => Vector.replicate 32 (2 * bytes.getD 32 0 + bytes.getD 44 0 + 1)⟩

attribute [local instance] decisionHash

def twoDecisions : List Call :=
  [⟨8, "DENY", .zero, true, "all features approved", 6⟩,
    ⟨7, "APPROVE", .one, true, "all features approved", 5⟩]

def approval : AuditEntry :=
  ⟨0, 7, "APPROVE", .one, true, "all features approved", 5, hex (List.replicate 32 2),
    hex GENESIS⟩

-- The approval is turned into a denial.
theorem tamper_evident_iff_decision :
    DigestInjective ((run twoDecisions).hashed ++
      ((run twoDecisions).tamper 0 { approval with decision := "DENY" }).hashed) ∧
    ((run twoDecisions).tamper 0 { approval with decision := "DENY" }).verifyChain =
      .ok false := by
  have hentry : (run twoDecisions).entries[0]? = some approval := by decide +kernel
  have hchange : Change.apply approval (.decision "DENY") ≠ approval := by decide +kernel
  have hinj : DigestInjective ((run twoDecisions).hashed ++
      ((run twoDecisions).tamper 0 { approval with decision := "DENY" }).hashed) := by
    decide +kernel
  refine ⟨hinj, (tamper_evident_iff twoDecisions 0 approval _ hentry hchange hinj).mpr ?_⟩
  unfold Change.Detected
  decide +kernel

def oneDenial : List Call := [⟨8, "DENY", .zero, true, "all features approved", 6⟩]

def denial : AuditEntry :=
  ⟨0, 8, "DENY", .zero, true, "all features approved", 6, hex (List.replicate 32 1), hex GENESIS⟩

-- Another reason, another link and another text that is no approval are not noticed.
-- A negative sequence number raises.
theorem tampering_unnoticed :
    (run oneDenial).entries[0]? = some denial ∧
    (∀ change ∈ [Change.policyReason "override", .prevHash "", .decision "REVIEW"],
      change.apply denial ≠ denial ∧
      DigestInjective ((run oneDenial).hashed ++
        ((run oneDenial).tamper 0 (change.apply denial)).hashed) ∧
      ((run oneDenial).tamper 0 (change.apply denial)).verifyChain = .ok true) ∧
    DigestInjective ((run oneDenial).hashed ++
      ((run oneDenial).tamper 0 { denial with seq := -1 }).hashed) ∧
    ((run oneDenial).tamper 0 { denial with seq := -1 }).verifyChain = .error .structError := by
  decide +kernel

end

end AuditLog

end LuxKernel.Lending
