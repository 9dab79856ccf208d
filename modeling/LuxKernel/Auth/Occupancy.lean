import LuxKernel.Auth.Cascade

namespace LuxKernel.Auth.ReservationLedger

open Heapless

section Readers

variable {ledger : ReservationLedger} {id : ReservationId} {now later : UInt64}

-- The test that `effective_status`, `grant` and `consume` each make in their own way.
def Usable (ledger : ReservationLedger) (id : ReservationId) (now : UInt64) : Prop :=
  ∃ r, ledger.find id = some r ∧ r.status = .active ∧ now < r.expiresAt

theorem usable_of_find {r : Reservation} (hfind : ledger.find id = some r) :
    Usable ledger id now ↔ r.status = .active ∧ now < r.expiresAt := by
  unfold Usable
  constructor
  · rintro ⟨found, hfound, hopen⟩
    rw [hfind, Option.some.injEq] at hfound
    rw [hfound]
    exact hopen
  · exact fun hopen => ⟨r, hfind, hopen⟩

theorem not_usable_of_find (hfind : ledger.find id = none) : ¬Usable ledger id now := by
  rintro ⟨r, hfound, -⟩
  rw [hfind] at hfound
  cases hfound

theorem effectiveStatus_eq_active :
    ledger.effectiveStatus id now = some .active ↔ Usable ledger id now := by
  unfold effectiveStatus
  cases hfind : ledger.find id with
  | none => simpa using not_usable_of_find hfind
  | some r =>
      rw [usable_of_find hfind]
      by_cases hactive : r.status = .active
      · by_cases hnow : now < r.expiresAt
        · simp [hactive, hnow, UInt64.not_le.mpr hnow]
        · simp [hactive, hnow, UInt64.not_lt.mp hnow]
      · simp [hactive]

theorem grant_isOk : (ledger.grant id now).isOk = true ↔ Usable ledger id now := by
  unfold ReservationLedger.grant
  cases hfind : ledger.find id with
  | none => simpa [Except.isOk, Except.toBool] using not_usable_of_find hfind
  | some r =>
      rw [usable_of_find hfind]
      dsimp only
      split <;> simp_all [Except.isOk, Except.toBool]

theorem consume_isOk : (ledger.consume id now).1.isOk = true ↔ Usable ledger id now := by
  unfold consume
  cases hfind : ledger.find id with
  | none => simpa [Except.isOk, Except.toBool] using not_usable_of_find hfind
  | some r =>
      rw [usable_of_find hfind]
      by_cases hactive : r.status = .active
      · by_cases hnow : now < r.expiresAt
        · simp [hactive, hnow, UInt64.not_le.mpr hnow, Except.isOk, Except.toBool]
        · simp [hactive, hnow, UInt64.not_lt.mp hnow, Except.isOk, Except.toBool]
      · simp [hactive, Except.isOk, Except.toBool]

theorem consume_of_not_usable (h : ¬Usable ledger id now) :
    (ledger.consume id now).2 = ledger := by
  rw [consume_snd, closeIf]
  split
  · rfl
  · rename_i r hfind
    rw [usable_of_find hfind] at h
    simp [h]

-- What can be used now could be used at every earlier time.
theorem Usable.anti (h : Usable ledger id later) (hle : now ≤ later) : Usable ledger id now := by
  obtain ⟨r, hfind, hactive, hlater⟩ := h
  exact ⟨r, hfind, hactive, UInt64.lt_of_le_of_lt hle hlater⟩

end Readers

-- `clock` is any non-decreasing sequence of `now` values at which the ledger is read.
theorem readers_agree (ops : List Op) (id : ReservationId) :
    (∀ now,
      ((run ops).2.effectiveStatus id now = some .active ↔
        ((run ops).2.grant id now).isOk = true) ∧
      (((run ops).2.grant id now).isOk = true ↔
        ((run ops).2.consume id now).1.isOk = true)) ∧
    (∀ clock : Nat → UInt64, (∀ k m, k ≤ m → clock k ≤ clock m) → ∀ k m, k ≤ m →
      (run ops).2.effectiveStatus id (clock k) ≠ some .active →
        (run ops).2.effectiveStatus id (clock m) ≠ some .active ∧
        ((run ops).2.grant id (clock m)).isOk = false ∧
        ((run ops).2.consume id (clock m)).1.isOk = false) ∧
    (∀ now,
      ((run ops).2.perform (.effectiveStatus id now)).2 = (run ops).2 ∧
      ((run ops).2.perform (.grant id now)).2 = (run ops).2 ∧
      (((run ops).2.consume id now).1.isOk = false →
        ((run ops).2.consume id now).2 = (run ops).2)) := by
  refine ⟨fun now => ⟨?_, ?_⟩, fun clock hclock k m hkm hfails => ?_, fun now => ⟨rfl, rfl, ?_⟩⟩
  · rw [effectiveStatus_eq_active, grant_isOk]
  · rw [grant_isOk, consume_isOk]
  · rw [ne_eq, effectiveStatus_eq_active] at hfails ⊢
    have hlater : ¬Usable (run ops).2 id (clock m) := fun h => hfails (h.anti (hclock k m hkm))
    refine ⟨hlater, ?_, ?_⟩
    · rwa [← Bool.not_eq_true, grant_isOk]
    · rwa [← Bool.not_eq_true, consume_isOk]
  · intro hfails
    apply consume_of_not_usable
    rw [← consume_isOk, hfails]
    exact Bool.false_ne_true

section Capacity

variable {ops : List Op} {now : UInt64}

def Op.isReserve : Op → Bool
  | .reserve .. => true
  | _ => false

def reserveCalls (ops : List Op) : Nat := ops.countP Op.isReserve

-- The time that a call brings along.
def Op.tick : Op → Option UInt64
  | .reserve _ _ _ _ _ now => some now
  | .grant _ now => some now
  | .consume _ now => some now
  | .effectiveStatus _ now => some now
  | _ => none

-- The stored reservations that are active at `now` for `effective_status`.
def activeAt (ledger : ReservationLedger) (now : UInt64) : List Reservation :=
  ledger.reservations.toList.filter fun r =>
    decide (ledger.effectiveStatus r.id now = some .active)

-- Nothing that the history made has been closed, and nothing has run out at `now`.
def AllOpen (history : List Event) (now : UInt64) : Prop :=
  ∀ id ∈ history.filterMap issued, ∃ r ∈ live history, r.id = id ∧ now < r.expiresAt

theorem ids_eq_origins (ledger : ReservationLedger) : ledger.ids = ledger.origins.map Prod.fst := by
  rw [ids, origins, List.map_map]
  rfl

-- Only `clear` takes a record out of the store.
theorem ids_perform (ledger : ReservationLedger) {op : Op} (hop : op ≠ .clear) :
    (ledger.perform op).2.ids = ledger.ids ++ (issued (ledger.perform op).1).toList := by
  cases op with
  | reserve node action generation originNonce ttl now =>
      rcases ledger.reserve_cases node action generation originNonce ttl now with
        ⟨reservations, hlist, hok⟩ | ⟨e, herr⟩
      · simp [perform, hok, ids, hlist, issued]
      · simp [perform, herr, issued]
  | grant id now => simp [perform, issued]
  | effectiveStatus id now => simp [perform, issued]
  | consume id now =>
      simp [perform, issued, consume_snd, ids_eq_origins, origins_closeIf]
  | revoke id => simp [perform, issued, revoke_snd, ids_eq_origins, origins_closeIf]
  | revokeByOriginNonce originNonce =>
      simp [perform, issued, ids_eq_origins, origins_revokeByOriginNonce]
  | clear => exact absurd rfl hop

theorem ids_run (hclear : .clear ∉ ops) :
    (run ops).2.ids = ((run ops).1.filterMap issued).reverse := by
  induction ops with
  | nil => rfl
  | cons op earlier ih =>
      rw [List.mem_cons, not_or] at hclear
      show ((run earlier).2.perform op).2.ids =
        ((((run earlier).2.perform op).1 :: (run earlier).1).filterMap issued).reverse
      rw [ids_perform _ (Ne.symm hclear.1), ih hclear.2]
      cases hissued : issued ((run earlier).2.perform op).1 with
      | none => simp [List.filterMap_cons_none hissued]
      | some id => simp [List.filterMap_cons_some hissued]

theorem length_ids (ledger : ReservationLedger) :
    ledger.ids.length = ledger.reservations.toList.length := List.length_map _

theorem tracks_of_no_clear (hclear : .clear ∉ ops) : Tracks (run ops).1 (run ops).2 := by
  apply tracks_run
  have hlen := length_ids (run ops).2
  have hle := (run ops).2.reservations.length_le
  rw [ids_run hclear, List.length_reverse] at hlen
  rw [hlen]
  exact Nat.lt_of_le_of_lt hle (by decide)

theorem reserve_fails_iff (ledger : ReservationLedger) (node : NodeId) (action : CapabilitySet)
    (generation : Generation) (originNonce : UInt64) (ttl : ReservationTtl) (now : UInt64) :
    (ledger.reserve node action generation originNonce ttl now).1.isOk = false ↔
      ledger.reservations.toList.length = MAX_RESERVATIONS := by
  have hle := ledger.reservations.length_le
  unfold reserve
  dsimp only
  split
  · rename_i hpush
    have hfull := HVec.push_eq_none_iff.mp hpush
    simp only [Except.isOk, Except.toBool, true_iff]
    omega
  · rename_i reservations hpush
    have hroom := (HVec.push_eq_some_iff.mp hpush).1
    simp only [Except.isOk, Except.toBool, Bool.true_eq_false, false_iff]
    omega

-- One slot for each call of `reserve`, as long as there are slots.
theorem length_run (hclear : .clear ∉ ops) :
    (run ops).2.reservations.toList.length = min (reserveCalls ops) MAX_RESERVATIONS := by
  induction ops with
  | nil => rfl
  | cons op earlier ih =>
      rw [List.mem_cons, not_or] at hclear
      have hlen := ih hclear.2
      have hids := congrArg List.length (ids_perform (run earlier).2 (Ne.symm hclear.1))
      rw [List.length_append, length_ids, length_ids] at hids
      show ((run earlier).2.perform op).2.reservations.toList.length = _
      rw [hids, hlen, reserveCalls, reserveCalls, List.countP_cons]
      cases op with
      | reserve node action generation originNonce ttl now =>
          have hfails := reserve_fails_iff (run earlier).2 node action generation originNonce ttl now
          rw [hlen, reserveCalls] at hfails
          cases hresult : ((run earlier).2.reserve node action generation originNonce ttl now).1 with
          | error e =>
              simp only [hresult, Except.isOk, Except.toBool, true_iff] at hfails
              simp only [perform, issued, hresult, Op.isReserve, Option.toList_none, List.length_nil,
                if_true]
              omega
          | ok id =>
              simp only [hresult, Except.isOk, Except.toBool, Bool.true_eq_false, false_iff] at hfails
              simp only [perform, issued, hresult, Op.isReserve, Option.toList_some,
                List.length_singleton, if_true]
              omega
      | _ => simp [perform, issued, Op.isReserve]

theorem activeAt_length_iff (ledger : ReservationLedger) (now : UInt64)
    (hnodup : ledger.ids.Nodup) :
    (ledger.activeAt now).length = ledger.reservations.toList.length ↔
      ∀ r ∈ ledger.reservations.toList, r.status = .active ∧ now < r.expiresAt := by
  rw [activeAt, List.length_filter_eq_length_iff]
  refine forall₂_congr fun r hr => ?_
  rw [decide_eq_true_eq, effectiveStatus_eq_active,
    usable_of_find ((find_eq_some hnodup).mpr ⟨hr, rfl⟩)]

theorem allOpen_iff (hclear : .clear ∉ ops) :
    AllOpen (run ops).1 now ↔
      ∀ r ∈ (run ops).2.reservations.toList, r.status = .active ∧ now < r.expiresAt := by
  have htracks := tracks_of_no_clear hclear
  have hids : ∀ id, id ∈ (run ops).1.filterMap issued ↔ id ∈ (run ops).2.ids := by
    intro id
    rw [ids_run hclear, List.mem_reverse]
  unfold AllOpen
  constructor
  · intro hopen r hr
    have hid : r.id ∈ (run ops).2.ids := List.mem_map_of_mem hr
    obtain ⟨found, hlive, hsame, hnow⟩ := hopen r.id ((hids r.id).mpr hid)
    rw [← htracks.active] at hlive
    obtain ⟨hfound, hactive⟩ := mem_active.mp hlive
    have hr' := (find_eq_some htracks.nodup).mpr ⟨hr, rfl⟩
    rw [(find_eq_some htracks.nodup).mpr ⟨hfound, hsame⟩, Option.some.injEq] at hr'
    rw [← hr']
    exact ⟨hactive, hnow⟩
  · intro hopen id hid
    obtain ⟨r, hr, rfl⟩ := List.mem_map.mp ((hids id).mp hid)
    obtain ⟨hactive, hnow⟩ := hopen r hr
    exact ⟨r, htracks.active ▸ mem_active.mpr ⟨hr, hactive⟩, rfl, hnow⟩

-- A full store refuses, whatever has become of its records.
theorem capacity_reclaimed_iff (ops : List Op) (hclear : .clear ∉ ops) (node : NodeId)
    (action : CapabilitySet) (generation : Generation) (originNonce : UInt64)
    (ttl : ReservationTtl) (now : UInt64) :
    (((run ops).2.reserve node action generation originNonce ttl now).1.isOk = false →
      ((run ops).2.activeAt now).length = MAX_RESERVATIONS) ↔
    reserveCalls ops < MAX_RESERVATIONS ∨ AllOpen (run ops).1 now := by
  have hlen := length_run hclear
  have hactive := activeAt_length_iff (run ops).2 now (tracks_of_no_clear hclear).nodup
  rw [reserve_fails_iff, allOpen_iff hclear, ← hactive]
  constructor
  · intro h
    by_cases hroom : reserveCalls ops < MAX_RESERVATIONS
    · exact Or.inl hroom
    · have hfull : (run ops).2.reservations.toList.length = MAX_RESERVATIONS := by omega
      rw [hfull]
      exact Or.inr (h hfull)
  · rintro (hroom | hall) hfull
    · omega
    · exact hall.trans hfull

-- The same call over and over.
theorem mem_run_replicate (n : Nat) {node : NodeId} {action : CapabilitySet}
    {generation : Generation} {originNonce : UInt64} {ttl : ReservationTtl} {r : Reservation}
    (h : r ∈ (run (List.replicate n
      (.reserve node action generation originNonce ttl now))).2.reservations.toList) :
    r.status = .active ∧ r.expiresAt = saturatingAdd now ttl.get := by
  induction n with
  | zero => cases h
  | succ n ih =>
      rw [List.replicate_succ] at h
      simp only [run, perform] at h
      rcases reserve_cases _ node action generation originNonce ttl now with
        ⟨reservations, hlist, hok⟩ | ⟨e, herr⟩
      · rw [hok, hlist, List.mem_append, List.mem_singleton] at h
        rcases h with hold | rfl
        · exact ih hold
        · exact ⟨rfl, rfl⟩
      · rw [herr] at h
        exact ih h

end Capacity

-- As many reservations as there are slots, all made at time 0 for ten ticks.
def fullHouse : List Op :=
  List.replicate MAX_RESERVATIONS (.reserve node1 .SCHEDULE ⟨0⟩ 7 tenTicks 0)

theorem clear_not_mem_fullHouse : .clear ∉ fullHouse := by
  simp [fullHouse]

theorem fullHouse_fails (now : UInt64) :
    ((run fullHouse).2.reserve node1 .SCHEDULE ⟨0⟩ 7 tenTicks now).1.isOk = false := by
  rw [reserve_fails_iff, length_run clear_not_mem_fullHouse, reserveCalls, fullHouse,
    List.countP_replicate]
  rfl

theorem mem_fullHouse {r : Reservation} (h : r ∈ (run fullHouse).2.reservations.toList) :
    r.status = .active ∧ r.expiresAt = 10 := by
  rw [fullHouse] at h
  exact mem_run_replicate MAX_RESERVATIONS h

-- At time 9 the full store holds only open reservations.
theorem capacity_reclaimed_iff_fullHouse :
    ((run fullHouse).2.activeAt 9).length = MAX_RESERVATIONS := by
  refine (capacity_reclaimed_iff fullHouse clear_not_mem_fullHouse node1 .SCHEDULE ⟨0⟩ 7 tenTicks
    9).mpr (Or.inr ?_) (fullHouse_fails 9)
  rw [allOpen_iff clear_not_mem_fullHouse]
  intro r hr
  obtain ⟨hactive, hexpires⟩ := mem_fullHouse hr
  rw [hexpires]
  exact ⟨hactive, by decide⟩

-- At time 10 every one of them has expired, and `reserve` still fails.
theorem capacity_not_reclaimed : .clear ∉ fullHouse ∧
    ((Op.reserve node1 .SCHEDULE ⟨0⟩ 7 tenTicks 10 :: fullHouse).filterMap Op.tick).Pairwise
      (· ≥ ·) ∧
    ((run fullHouse).2.reserve node1 .SCHEDULE ⟨0⟩ 7 tenTicks 10).1.isOk = false ∧
    (run fullHouse).2.activeAt 10 = [] := by
  refine ⟨clear_not_mem_fullHouse, by decide +kernel, fullHouse_fails 10, ?_⟩
  rw [activeAt, List.filter_eq_nil_iff]
  intro r hr
  have hnodup := (tracks_of_no_clear clear_not_mem_fullHouse).nodup
  obtain ⟨-, hexpires⟩ := mem_fullHouse hr
  rw [decide_eq_true_eq, effectiveStatus_eq_active,
    usable_of_find ((find_eq_some hnodup).mpr ⟨hr, rfl⟩), hexpires]
  exact fun h => absurd h.2 (by decide)

end LuxKernel.Auth.ReservationLedger
