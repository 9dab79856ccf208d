import LuxKernel.Audit.Chain

namespace LuxKernel.Audit

open Heapless Crypto

-- Numbers agree from one byte on if they agree in that byte and from the next one on.
private theorem div_eq_of_byte {a b m n : Nat} (hn : n = m * 256)
    (hbyte : a / m % 256 = b / m % 256) (hrest : a / n = b / n) : a / m = b / m := by
  subst hn
  rw [← Nat.div_div_eq_div_mul, ← Nat.div_div_eq_div_mul] at hrest
  omega

private theorem eq_of_byte {a b : Nat} (hbyte : a % 256 = b % 256) (hrest : a / 256 = b / 256) :
    a = b := by
  omega

private theorem div_eq_of_last_byte {a b m : Nat} (ha : a < m * 256) (hb : b < m * 256)
    (hbyte : a / m % 256 = b / m % 256) : a / m = b / m := by
  rwa [Nat.mod_eq_of_lt (Nat.div_lt_of_lt_mul ha), Nat.mod_eq_of_lt (Nat.div_lt_of_lt_mul hb)]
    at hbyte

theorem le32_injective {a b : UInt32} (h : le32 a = le32 b) : a = b := by
  simp only [le32, List.cons.injEq, and_true, ← UInt8.toNat_inj, UInt32.toNat_toUInt8,
    UInt32.toNat_shiftRight, Nat.shiftRight_eq_div_pow, UInt32.reduceToNat, Nat.reduceMod,
    Nat.reducePow] at h
  obtain ⟨h₀, h₁, h₂, h₃⟩ := h
  have hlast := div_eq_of_last_byte a.toNat_lt b.toNat_lt h₃
  have hrest := div_eq_of_byte rfl h₁ (div_eq_of_byte rfl h₂ hlast)
  exact UInt32.toNat_inj.mp (eq_of_byte h₀ hrest)

theorem le64_injective {a b : UInt64} (h : le64 a = le64 b) : a = b := by
  simp only [le64, List.cons.injEq, and_true, ← UInt8.toNat_inj, UInt64.toNat_toUInt8,
    UInt64.toNat_shiftRight, Nat.shiftRight_eq_div_pow, UInt64.reduceToNat, Nat.reduceMod,
    Nat.reducePow] at h
  obtain ⟨h₀, h₁, h₂, h₃, h₄, h₅, h₆, h₇⟩ := h
  have hlast := div_eq_of_last_byte a.toNat_lt b.toNat_lt h₇
  have hhigh := div_eq_of_byte rfl h₄ (div_eq_of_byte rfl h₅ (div_eq_of_byte rfl h₆ hlast))
  have hrest := div_eq_of_byte rfl h₁ (div_eq_of_byte rfl h₂ (div_eq_of_byte rfl h₃ hhigh))
  exact UInt64.toNat_inj.mp (eq_of_byte h₀ hrest)

theorem EventKind.code_injective {a b : EventKind} (h : a.code = b.code) : a = b := by
  cases a <;> cases b <;> first | rfl | exact absurd h (by decide)

theorem Outcome.code_injective {a b : Outcome} (h : a.code = b.code) : a = b := by
  cases a <;> cases b <;> first | rfl | exact absurd h (by decide)

theorem classByte_injective {a b : Option DenialClass} (h : classByte a = classByte b) :
    a = b := by
  rcases a with _ | a | a <;> rcases b with _ | b | b <;>
    first | rfl | exact absurd h (by decide)

-- The bytes of a reason do not tell an absent one from an empty one.
theorem reason_bytes_eq_iff {a b : Option String} :
    a.elim [] (fun reason => reason.toUTF8.data.toList) =
        b.elim [] (fun reason => reason.toUTF8.data.toList) ↔ a.getD "" = b.getD "" := by
  have hbytes : ∀ r : Option String,
      r.elim [] (fun reason => reason.toUTF8.data.toList) = (r.getD "").toUTF8.data.toList := by
    intro r
    cases r <;> rfl
  rw [hbytes, hbytes]
  constructor
  · intro h
    exact String.toByteArray_inj.mp (ByteArray.ext (Array.toList_inj.mp h))
  · intro h
    rw [h]

namespace AuditEvent

-- The byte string that `compute_hash` hashes for an event.
def preimage (prev : Digest) (event : AuditEvent) : Bytes :=
  prev.toList ++ [event.kind.code] ++ le32 event.actor ++ le64 event.seq ++
    le64 event.timestamp ++ [event.outcome.code] ++ [classByte event.denialClass] ++
    event.denialReason.elim [] fun reason => reason.toUTF8.data.toList

theorem expected_eq_digest [Sha256] (prev : Digest) (event : AuditEvent) :
    event.expected prev = Sha256.digest (event.preimage prev) := rfl

-- The event with an absent reason written as an empty one.
def filled (event : AuditEvent) : AuditEvent :=
  { event with denialReason := some (event.denialReason.getD "") }

-- All fields but the last have a fixed width.
theorem preimage_injective {a b : AuditEvent} {p q : Digest}
    (h : a.preimage p = b.preimage q) (hhash : a.hash = b.hash) : p = q ∧ a.filled = b.filled := by
  simp only [preimage, List.append_assoc] at h
  obtain ⟨hprev, h⟩ := List.append_inj h (by simp)
  obtain ⟨hkind, h⟩ := List.append_inj h rfl
  obtain ⟨hactor, h⟩ := List.append_inj h rfl
  obtain ⟨hseq, h⟩ := List.append_inj h rfl
  obtain ⟨htime, h⟩ := List.append_inj h rfl
  obtain ⟨hout, h⟩ := List.append_inj h rfl
  obtain ⟨hclass, hreason⟩ := List.append_inj h rfl
  refine ⟨Vector.toList_inj.mp hprev, ?_⟩
  unfold filled
  rw [EventKind.code_injective (List.singleton_inj.mp hkind), le32_injective hactor,
    le64_injective hseq, le64_injective htime,
    Outcome.code_injective (List.singleton_inj.mp hout),
    classByte_injective (List.singleton_inj.mp hclass), reason_bytes_eq_iff.mp hreason, hhash]

-- The event carries a reason exactly when it is a denial.
def Reasoned (event : AuditEvent) : Prop :=
  event.outcome = .denied ↔ event.denialReason.isSome = true

theorem eq_of_filled_eq {a b : AuditEvent} (ha : a.Reasoned) (hb : b.Reasoned)
    (h : a.filled = b.filled) : a = b := by
  simp only [filled, AuditEvent.mk.injEq, Option.some.injEq] at h
  obtain ⟨hkind, hactor, hseq, htime, hout, hclass, hreason, hhash⟩ := h
  -- The outcome says whether there is a reason, and the bytes say which.
  have hsome : a.denialReason.isSome = b.denialReason.isSome := by
    unfold Reasoned at ha hb
    rw [Bool.eq_iff_iff, ← ha, ← hb, hout]
  have hsame : a.denialReason = b.denialReason := by
    cases hra : a.denialReason <;> cases hrb : b.denialReason <;> simp_all
  cases a
  cases b
  simp_all

theorem eq_of_map_filled_eq {xs ys : List AuditEvent} (hx : ∀ event ∈ xs, event.Reasoned)
    (hy : ∀ event ∈ ys, event.Reasoned) (h : xs.map filled = ys.map filled) : xs = ys := by
  induction xs generalizing ys with
  | nil => exact (List.map_eq_nil_iff.mp h.symm).symm
  | cons x xs ih =>
      cases ys with
      | nil => cases h
      | cons y ys =>
          rw [List.forall_mem_cons] at hx hy
          obtain ⟨hhead, htail⟩ := List.cons.inj h
          rw [eq_of_filled_eq hx.1 hy.1 hhead, ih hx.2 hy.2 htail]

end AuditEvent

-- The byte strings that are hashed when the events are appended or verified.
def hashed (events : List AuditEvent) : List Bytes :=
  (HashChain.links AuditEvent.hash GENESIS events).map fun link => link.2.preimage link.1

-- The hash tells these byte strings apart and gives none of them the initial digest.
def CollisionFree [Sha256] (strings : List Bytes) : Prop :=
  (∀ a ∈ strings, ∀ b ∈ strings, Sha256.digest a = Sha256.digest b → a = b) ∧
    ∀ a ∈ strings, Sha256.digest a ≠ GENESIS

section

variable [Sha256]

instance (strings : List Bytes) : Decidable (CollisionFree strings) :=
  inferInstanceAs (Decidable (_ ∧ _))

-- Two verified lists of events with the same last hash.
theorem eq_of_head_eq {xs ys : List AuditEvent}
    (hx : HashChain.Verified AuditEvent.expected AuditEvent.hash GENESIS xs)
    (hy : HashChain.Verified AuditEvent.expected AuditEvent.hash GENESIS ys)
    (hfree : CollisionFree (hashed xs ++ hashed ys))
    (hhead : HashChain.head AuditEvent.hash GENESIS xs =
      HashChain.head AuditEvent.hash GENESIS ys)
    (hxr : ∀ event ∈ xs, event.Reasoned) (hyr : ∀ event ∈ ys, event.Reasoned) : xs = ys := by
  have hstring : ∀ link ∈ HashChain.links AuditEvent.hash GENESIS xs ++
      HashChain.links AuditEvent.hash GENESIS ys,
      link.2.preimage link.1 ∈ hashed xs ++ hashed ys := by
    intro link hlink
    rw [hashed, hashed, ← List.map_append]
    exact List.mem_map_of_mem hlink
  have hsame : List.Forall₂ (fun a b => a.filled = b.filled) xs ys := by
    apply HashChain.forall₂_of_head_eq hx hy _ _ hhead
    · intro a ha b hb hlinka hlinkb hhash
      refine AuditEvent.preimage_injective (hfree.1 _ ?_ _ ?_ ?_) hhash
      · exact hstring a (List.mem_append_left _ ha)
      · exact hstring b (List.mem_append_right _ hb)
      · rw [← AuditEvent.expected_eq_digest, ← AuditEvent.expected_eq_digest, hlinka, hlinkb, hhash]
    · intro a ha
      exact hfree.2 _ (hstring a ha)
  apply AuditEvent.eq_of_map_filled_eq hxr hyr
  rw [← List.forall₂_eq_eq_eq, List.forall₂_map_left_iff, List.forall₂_map_right_iff]
  exact hsame

theorem AuditLog.Linked.reasoned {log : AuditLog} (h : log.Linked) :
    ∀ event ∈ log.events.toList, event.Reasoned :=
  fun event hmem => (h.consistent event hmem).2

-- The number of an event is its place in the chain.
theorem AuditLog.Linked.numbered_links {log : AuditLog} (h : log.Linked)
    {link : Digest × AuditEvent}
    (hlink : link ∈ HashChain.links AuditEvent.hash GENESIS log.events.toList) :
    link.2.seq.toNat < MAX_AUDIT_EVENTS ∧
      (HashChain.links AuditEvent.hash GENESIS log.events.toList)[link.2.seq.toNat]? =
        some link := by
  obtain ⟨i, hi⟩ := List.getElem?_of_mem hlink
  have hevent := HashChain.getElem?_of_links hi
  rw [h.numbered i link.2 hevent]
  exact ⟨Nat.lt_of_lt_of_le (List.getElem?_eq_some_iff.mp hevent).1 log.events.length_le, hi⟩

-- One digest stands for the whole history.
theorem headHash_binds (calls calls' : List Append)
    (hfree : CollisionFree (hashed (AuditLog.appendAll calls).events.toList ++
      hashed (AuditLog.appendAll calls').events.toList))
    (hhead : (AuditLog.appendAll calls).headHash = (AuditLog.appendAll calls').headHash) :
    (AuditLog.appendAll calls).events = (AuditLog.appendAll calls').events := by
  have hx := AuditLog.linked_appendAll calls
  have hy := AuditLog.linked_appendAll calls'
  apply HVec.ext
  exact eq_of_head_eq hx.verified hy.verified hfree (hx.head.symm.trans (hhead.trans hy.head))
    hx.reasoned hy.reasoned

-- The events with the hashes that `verify_chain` expects of them.
def rehashed (events : HVec AuditEvent MAX_AUDIT_EVENTS) : HVec AuditEvent MAX_AUDIT_EVENTS :=
  ⟨HashChain.restamp AuditEvent.expected (fun digest event => { event with hash := digest })
      GENESIS events.toList,
    by rw [HashChain.length_restamp]; exact events.length_le⟩

-- A log whose events were replaced is found out by `verify_chain` together with the head
-- hash that it kept. `verify_chain` alone looks at the events only: it passes every log
-- that was cut off, and every log whose hashes were computed anew.
theorem tampering_shows (calls : List Append) :
    (∀ events : HVec AuditEvent MAX_AUDIT_EVENTS,
      (∀ event ∈ events.toList,
        event.outcome = .denied ↔ event.denialReason.isSome = true) →
      CollisionFree (hashed events.toList ++
        hashed (AuditLog.appendAll calls).events.toList) →
      (({ AuditLog.appendAll calls with events := events }.verifyChain = true ∧
        (events.toList.getLast?.map AuditEvent.hash).getD (Vector.replicate 32 0) =
          { AuditLog.appendAll calls with events := events }.headHash) ↔
      events = (AuditLog.appendAll calls).events)) ∧
    (∀ n, { AuditLog.appendAll calls with
      events := (AuditLog.appendAll calls).events.truncate n }.verifyChain = true) ∧
    ∀ events, { AuditLog.appendAll calls with events := rehashed events }.verifyChain = true := by
  have hlinked := AuditLog.linked_appendAll calls
  have hchain : ∀ events : HVec AuditEvent MAX_AUDIT_EVENTS,
      { AuditLog.appendAll calls with events := events }.verifyChain = true ↔
        HashChain.Verified AuditEvent.expected AuditEvent.hash GENESIS events.toList :=
    fun _ => AuditLog.verifyFrom_iff _ _
  refine ⟨fun events hreasons hfree => ?_, fun n => ?_, fun events => ?_⟩
  · have hlast : (events.toList.getLast?.map AuditEvent.hash).getD (Vector.replicate 32 0) =
        HashChain.head AuditEvent.hash GENESIS events.toList := (HashChain.head_eq _ _ _).symm
    have hkept : { AuditLog.appendAll calls with events := events }.headHash =
        HashChain.head AuditEvent.hash GENESIS (AuditLog.appendAll calls).events.toList :=
      hlinked.head
    rw [hchain, hlast, hkept]
    constructor
    · rintro ⟨hverified, hhead⟩
      exact HVec.ext
        (eq_of_head_eq hverified hlinked.verified hfree hhead hreasons hlinked.reasoned)
    · rintro rfl
      exact ⟨hlinked.verified, rfl⟩
  · rw [hchain]
    exact hlinked.verified.take n
  · rw [hchain]
    refine HashChain.verified_restamp ?_ ?_ GENESIS events.toList
    · exact fun _ _ _ => rfl
    · exact fun _ _ => rfl

end

section

-- A hash that keeps two bytes of its input, where the sequence number of an event is.
@[reducible] def sequenceHash : Sha256 :=
  ⟨fun bytes => ((Vector.replicate 32 1).set 0 (bytes.getD 37 0)).set 1 (bytes.getD 38 0)⟩

attribute [local instance] sequenceHash

theorem getElem?_preimage (prev : Digest) (event : AuditEvent) :
    (event.preimage prev)[37]? = some event.seq.toUInt8 ∧
      (event.preimage prev)[38]? = some (event.seq >>> 8).toUInt8 := by
  simp [AuditEvent.preimage, le32, le64, List.getElem?_append]

-- The numbers of the events are below 512, so that two bytes tell them apart.
theorem toNat_eq_of_bytes {m n : UInt64} (hm : m.toNat < MAX_AUDIT_EVENTS)
    (hn : n.toNat < MAX_AUDIT_EVENTS) (hlow : m.toUInt8 = n.toUInt8)
    (hhigh : (m >>> 8).toUInt8 = (n >>> 8).toUInt8) : m.toNat = n.toNat := by
  rw [← UInt8.toNat_inj] at hlow hhigh
  simp only [UInt64.toNat_toUInt8, UInt64.toNat_shiftRight, Nat.shiftRight_eq_div_pow,
    UInt64.reduceToNat, Nat.reduceMod, Nat.reducePow] at hlow hhigh
  have hcap : MAX_AUDIT_EVENTS = 512 := rfl
  omega

theorem collisionFree_appendAll (calls : List Append) :
    CollisionFree (hashed (AuditLog.appendAll calls).events.toList) := by
  have hlinked := AuditLog.linked_appendAll calls
  constructor
  · intro a ha b hb hdigest
    obtain ⟨x, hx, rfl⟩ := List.mem_map.mp ha
    obtain ⟨y, hy, rfl⟩ := List.mem_map.mp hb
    obtain ⟨hxlt, hxat⟩ := hlinked.numbered_links hx
    obtain ⟨hylt, hyat⟩ := hlinked.numbered_links hy
    have hlow := congrArg (fun digest : Digest => digest[0]) hdigest
    have hhigh := congrArg (fun digest : Digest => digest[1]) hdigest
    simp only [Sha256.digest, Vector.getElem_set_ne, Vector.getElem_set_self, ne_eq,
      one_ne_zero, not_false_eq_true, List.getD_eq_getElem?_getD, getElem?_preimage,
      Option.getD_some] at hlow hhigh
    rw [toNat_eq_of_bytes hxlt hylt hlow hhigh, hyat, Option.some.injEq] at hxat
    rw [hxat]
  · intro a _ hzero
    have hthird := congrArg (fun digest : Digest => digest[2]) hzero
    simp [Sha256.digest, GENESIS] at hthird

-- A log that has no room left, and a call that comes too late.
def fullLog : List Append := List.replicate MAX_AUDIT_EVENTS ⟨.topologyTraverse, 2, 5, none⟩

def lateCall : Append := ⟨.capabilityCheck, 1, 3, some (.halt, "capability revoked")⟩

theorem headHash_binds_refused :
    CollisionFree (hashed (AuditLog.appendAll (lateCall :: fullLog)).events.toList ++
      hashed (AuditLog.appendAll fullLog).events.toList) ∧
    lateCall :: fullLog ≠ fullLog ∧
    (AuditLog.appendAll (lateCall :: fullLog)).events = (AuditLog.appendAll fullLog).events := by
  have hroom : MAX_AUDIT_EVENTS ≤ fullLog.length := by rw [fullLog, List.length_replicate]
  have hrefused := AuditLog.appendAll_cons_of_full hroom lateCall
  have hfree : CollisionFree (hashed (AuditLog.appendAll (lateCall :: fullLog)).events.toList ++
      hashed (AuditLog.appendAll fullLog).events.toList) := by
    obtain ⟨hinj, hzero⟩ := collisionFree_appendAll fullLog
    rw [hrefused]
    simp only [CollisionFree, List.mem_append, or_self]
    exact ⟨hinj, hzero⟩
  exact ⟨hfree, List.cons_ne_self _ _, headHash_binds (lateCall :: fullLog) fullLog hfree
    (by rw [hrefused])⟩

-- A denial and then a permission.
def twoAppends : List Append :=
  [⟨.topologyTraverse, 2, 5, none⟩, ⟨.capabilityCheck, 1, 3, some (.halt, "capability revoked")⟩]

-- The last event is gone. What is left is a chain, so only the head hash shows it.
theorem tampering_shows_truncation :
    CollisionFree (hashed ((AuditLog.appendAll twoAppends).events.truncate 1).toList ++
      hashed (AuditLog.appendAll twoAppends).events.toList) ∧
    ¬({ AuditLog.appendAll twoAppends with
          events := (AuditLog.appendAll twoAppends).events.truncate 1 }.verifyChain = true ∧
      (((AuditLog.appendAll twoAppends).events.truncate 1).toList.getLast?.map
          AuditEvent.hash).getD (Vector.replicate 32 0) =
        { AuditLog.appendAll twoAppends with
          events := (AuditLog.appendAll twoAppends).events.truncate 1 }.headHash) := by
  have hfree : CollisionFree (hashed ((AuditLog.appendAll twoAppends).events.truncate 1).toList ++
      hashed (AuditLog.appendAll twoAppends).events.toList) := by decide +kernel
  refine ⟨hfree, fun hpass => ?_⟩
  have hsame := ((tampering_shows twoAppends).1 _ (by decide +kernel) hfree).mp hpass
  exact absurd (congrArg (fun events => events.toList.length) hsame) (by decide +kernel)

-- Another actor in all events, under hashes computed anew.
def rewritten : HVec AuditEvent MAX_AUDIT_EVENTS :=
  rehashed ((AuditLog.appendAll twoAppends).events.map fun event => { event with actor := 9 })

theorem tampered_logs_verify :
    (CollisionFree (hashed ((AuditLog.appendAll twoAppends).events.truncate 1).toList ++
        hashed (AuditLog.appendAll twoAppends).events.toList) ∧
      (AuditLog.appendAll twoAppends).events.truncate 1 ≠ (AuditLog.appendAll twoAppends).events ∧
      { AuditLog.appendAll twoAppends with
        events := (AuditLog.appendAll twoAppends).events.truncate 1 }.verifyChain = true) ∧
    (rewritten ≠ (AuditLog.appendAll twoAppends).events ∧
      { AuditLog.appendAll twoAppends with events := rewritten }.verifyChain = true) := by
  decide +kernel

end

end LuxKernel.Audit
