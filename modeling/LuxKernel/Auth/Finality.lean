import LuxKernel.Auth.Occupancy

namespace LuxKernel.Auth

open Heapless

namespace Reservation

variable {r : Reservation} {op : ReservationLedger.Op} {now later : UInt64}

-- What `effective_status` makes of a stored record.
def statusAt (r : Reservation) (now : UInt64) : ReservationStatus :=
  if r.status = .active ∧ now ≥ r.expiresAt then .expired else r.status

-- The life of one record: what a call on the ledger does to it as long as it is stored.
def after (r : Reservation) : ReservationLedger.Op → Reservation
  | .consume id now =>
      if r.id = id ∧ r.status = .active ∧ now < r.expiresAt then { r with status := .consumed } else r
  | .revoke id => if r.id = id ∧ r.status = .active then { r with status := .revoked } else r
  | .revokeByOriginNonce x =>
      if r.originNonce = x ∧ r.status = .active then { r with status := .revoked } else r
  | _ => r

-- A record whose status says that it is closed stays as it is.
theorem after_of_closed (h : r.status ≠ .active) (op : ReservationLedger.Op) : r.after op = r := by
  unfold after
  split
  · exact if_neg fun hopen => h hopen.2.1
  · exact if_neg fun hopen => h hopen.2
  · exact if_neg fun hopen => h hopen.2
  · rfl

-- A record that has run out stays as it is unless it is revoked: a `consume` comes too
-- late.
theorem after_of_spared (hrevoke : op ≠ .revoke r.id)
    (hcascade : op ≠ .revokeByOriginNonce r.originNonce)
    (hlate : ∀ t ∈ op.tick, r.expiresAt ≤ t) : r.after op = r := by
  unfold after
  split
  · rename_i id t
    exact if_neg fun hopen => UInt64.not_lt.mpr (hlate t rfl) hopen.2.2
  · exact if_neg fun hopen => hrevoke (by rw [hopen.1])
  · exact if_neg fun hopen => hcascade (by rw [hopen.1])
  · rfl

theorem expiresAt_le_of_statusAt (hactive : r.status = .active) (hterminal : r.statusAt now ≠ .active) :
    r.expiresAt ≤ now := by
  apply UInt64.not_lt.mp
  intro hnow
  apply hterminal
  rw [statusAt, if_neg fun hopen => UInt64.not_lt.mpr hopen.2 hnow, hactive]

-- A stored record that is closed or has run out is the same at every later time.
theorem statusAt_mono (hterminal : r.statusAt now ≠ .active) (hle : now ≤ later) :
    r.statusAt later = r.statusAt now := by
  by_cases hactive : r.status = .active
  · have hnow := expiresAt_le_of_statusAt hactive hterminal
    have hlater := UInt64.le_trans hnow hle
    rw [statusAt, statusAt, if_pos ⟨hactive, hlater⟩, if_pos ⟨hactive, hnow⟩]
  · rw [statusAt, statusAt, if_neg fun hopen => hactive hopen.1, if_neg fun hopen => hactive hopen.1]

end Reservation

namespace ReservationLedger

section Lookup

variable {ledger : ReservationLedger} {id : ReservationId} {r : Reservation}

theorem id_of_find (hfind : ledger.find id = some r) : r.id = id := by
  simpa using List.find?_some hfind

theorem effectiveStatus_of_find (hfind : ledger.find id = some r) (now : UInt64) :
    ledger.effectiveStatus id now = some (r.statusAt now) := by
  rw [effectiveStatus, hfind]
  rfl

theorem find_of_effectiveStatus {now : UInt64} {status : ReservationStatus}
    (h : ledger.effectiveStatus id now = some status) :
    ∃ r, ledger.find id = some r ∧ r.statusAt now = status := by
  cases hfind : ledger.find id with
  | none =>
      rw [effectiveStatus, hfind] at h
      cases h
  | some r =>
      rw [effectiveStatus_of_find hfind, Option.some.injEq] at h
      exact ⟨r, rfl, h⟩

-- The same record is found after a change that keeps the ids.
theorem find_map {ledger' : ReservationLedger} {f : Reservation → Reservation}
    (hlist : ledger'.reservations.toList = ledger.reservations.toList.map f)
    (hid : ∀ r, (f r).id = r.id) (hfind : ledger.find id = some r) :
    ledger'.find id = some (f r) := by
  have hkey : ((fun r : Reservation => decide (r.id = id)) ∘ f) = fun r => decide (r.id = id) := by
    funext s
    rw [Function.comp_apply, hid]
  rw [find, hlist, List.find?_map, hkey]
  rw [find] at hfind
  rw [hfind, Option.map_some]

theorem find_setStatus (h : ledger.ids.Nodup) (hfind : ledger.find id = some r)
    (i : ReservationId) (status : ReservationStatus) :
    (ledger.setStatus i status).find id =
      some (if r.id = i then { r with status := status } else r) := by
  apply find_map (HVec.toList_updateFirst Reservation.id h i _) _ hfind
  intro s
  split <;> rfl

theorem find_closeIf (h : ledger.ids.Nodup) (hfind : ledger.find id = some r) (i : ReservationId)
    (allowed : Reservation → Bool) (status : ReservationStatus) :
    (ledger.closeIf i allowed status).find id =
      some (if r.id = i ∧ r.status = .active ∧ allowed r = true then { r with status := status }
        else r) := by
  have hid := id_of_find hfind
  by_cases hi : r.id = i
  · obtain rfl : i = id := hi.symm.trans hid
    rw [closeIf, hfind]
    dsimp only
    split
    · rename_i hopen
      rw [find_setStatus h hfind, if_pos hi, if_pos ⟨hi, hopen⟩]
    · rename_i hopen
      rw [hfind, if_neg fun hall => hopen hall.2]
  · rw [if_neg fun hall => hi hall.1, closeIf]
    split
    · exact hfind
    · split
      · rw [find_setStatus h hfind, if_neg hi]
      · exact hfind

theorem find_perform (h : ledger.ids.Nodup) (hfind : ledger.find id = some r) {op : Op}
    (hop : op ≠ .clear) : (ledger.perform op).2.find id = some (r.after op) := by
  cases op with
  | reserve node action generation originNonce ttl now =>
      rcases ledger.reserve_cases node action generation originNonce ttl now with
        ⟨reservations, hlist, hok⟩ | ⟨e, herr⟩
      · -- The new record stands behind the one that is found.
        simp only [perform, hok]
        rw [find, hlist, List.find?_append]
        rw [find] at hfind
        rw [hfind]
        rfl
      · simp only [perform, herr]
        exact hfind
  | grant i now => exact hfind
  | effectiveStatus i now => exact hfind
  | consume i now =>
      simp only [perform, consume_snd, find_closeIf h hfind, decide_eq_true_eq]
      rfl
  | revoke i =>
      simp only [perform, revoke_snd, find_closeIf h hfind, and_true]
      rfl
  | revokeByOriginNonce x =>
      have hcascade : (ledger.revokeByOriginNonce x).2.find id = some
          (if (decide (r.originNonce = x) && r.isActive) = true then { r with status := .revoked }
            else r) := by
        apply find_map (HVec.toList_map _ _) _ hfind
        intro s
        split <;> rfl
      simp only [perform, hcascade, Reservation.after, Reservation.isActive, Bool.and_eq_true,
        decide_eq_true_eq]
  | clear => exact absurd rfl hop

theorem find_perform_of_spared (h : ledger.ids.Nodup) (hfind : ledger.find id = some r) {op : Op}
    (hop : op ≠ .clear)
    (hspared : r.status = .active → op ≠ .revoke id ∧ op ≠ .revokeByOriginNonce r.originNonce)
    (hlate : r.status = .active → ∀ t ∈ op.tick, r.expiresAt ≤ t) :
    (ledger.perform op).2.find id = some r := by
  rw [find_perform h hfind hop]
  by_cases hactive : r.status = .active
  · obtain ⟨hrevoke, hcascade⟩ := hspared hactive
    rw [← id_of_find hfind] at hrevoke
    rw [Reservation.after_of_spared hrevoke hcascade (hlate hactive)]
  · rw [Reservation.after_of_closed hactive]

theorem revoke_of_find (hfind : ledger.find id = some r) :
    (ledger.revoke id).1 = decide (r.status = .active) := by
  rw [revoke, hfind]
  dsimp only
  split
  · rename_i hactive
    rw [hactive]
    rfl
  · rename_i hclosed
    exact (decide_eq_false hclosed).symm

end Lookup

-- What is promised once `effective_status` has answered `status`, `earlier` being the
-- calls up to and with that answer: the same answer at every later time until a
-- `clear`, and `false` from every later `revoke`.
structure Final (earlier later : List Op) (id : ReservationId) (status : ReservationStatus) :
    Prop where
  reported : ∀ mid, mid <:+ later → .clear ∉ mid →
    ∀ now, (∀ t ∈ (mid ++ earlier).filterMap Op.tick, t ≤ now) →
      (run (mid ++ earlier)).2.effectiveStatus id now = some status
  refused : ∀ mid, .revoke id :: mid <:+ later → ((run (mid ++ earlier)).2.revoke id).1 = false

-- No call up to the next `clear` revokes the reservation, by its id or by the nonce
-- that it was made from.
def Spared (later : List Op) (id : ReservationId) (originNonce : UInt64) : Prop :=
  ∀ op mid, op :: mid <:+ later → .clear ∉ mid →
    op ≠ .revoke id ∧ op ≠ .revokeByOriginNonce originNonce

theorem spared_cons {op : Op} {later : List Op} {id : ReservationId} {originNonce : UInt64} :
    Spared (op :: later) id originNonce ↔
      (.clear ∉ later → op ≠ .revoke id ∧ op ≠ .revokeByOriginNonce originNonce) ∧
        Spared later id originNonce := by
  constructor
  · intro h
    exact ⟨h op later (List.suffix_refl _), fun next mid hmid =>
      h next mid (hmid.trans (List.suffix_cons op later))⟩
  · rintro ⟨hlast, hrest⟩ next mid hmid
    rcases List.suffix_cons_iff.mp hmid with heq | hearlier
    · obtain ⟨rfl, rfl⟩ := List.cons.inj heq
      exact hlast
    · exact hrest next mid hearlier

section Runs

variable {earlier later : List Op} {id : ReservationId} {r : Reservation} {now : UInt64}

theorem tracks_of_suffix (hcount : ((run (later ++ earlier)).1.filterMap issued).length < 2 ^ 64)
    {mid : List Op} (h : mid <:+ later) :
    Tracks (run (mid ++ earlier)).1 (run (mid ++ earlier)).2 := by
  obtain ⟨rest, rfl⟩ := h
  obtain ⟨events, hevents⟩ := run_append rest (mid ++ earlier)
  rw [List.append_assoc, hevents, List.filterMap_append, List.length_append] at hcount
  apply tracks_run
  omega

theorem tick_mem_of_suffix {op : Op} {mid : List Op} (h : op :: mid <:+ later) {t : UInt64}
    (ht : t ∈ op.tick) : t ∈ later.filterMap Op.tick :=
  List.mem_filterMap.mpr ⟨op, h.subset List.mem_cons_self, ht⟩

-- The record is the same before every call up to the next `clear`, as long as none of
-- these calls revokes it.
theorem find_run_of_kept (hcount : ((run (later ++ earlier)).1.filterMap issued).length < 2 ^ 64)
    (hfind : (run earlier).2.find id = some r)
    (hlate : r.status = .active → ∀ t ∈ later.filterMap Op.tick, r.expiresAt ≤ t)
    (hkept : r.status = .active → ∀ op mid, op :: mid <:+ later → .clear ∉ mid →
      (run (mid ++ earlier)).2.find id = some r →
        op ≠ .revoke id ∧ op ≠ .revokeByOriginNonce r.originNonce) {mid : List Op}
    (hmid : mid <:+ later) (hclear : .clear ∉ mid) :
    (run (mid ++ earlier)).2.find id = some r := by
  induction mid with
  | nil => exact hfind
  | cons op mid ih =>
      have hbefore := (List.suffix_cons op mid).trans hmid
      rw [List.mem_cons, not_or] at hclear
      have hhere := ih hbefore hclear.2
      apply find_perform_of_spared (tracks_of_suffix hcount hbefore).nodup hhere
        (Ne.symm hclear.1)
      · exact fun hactive => hkept hactive op mid hmid hclear.2 hhere
      · exact fun hactive t ht => hlate hactive t (tick_mem_of_suffix hmid ht)

-- After a `clear` no record has the id again, so that there is nothing to revoke.
theorem revoke_after_clear {mid : List Op}
    (htracks : Tracks (run (mid ++ earlier)).1 (run (mid ++ earlier)).2)
    (hfind : (run earlier).2.find id = some r) (hclear : .clear ∈ mid) :
    ((run (mid ++ earlier)).2.revoke id).1 = false := by
  obtain ⟨newer, older, rfl⟩ := List.append_of_mem hclear
  rw [List.append_assoc, List.cons_append] at htracks ⊢
  obtain ⟨newEvents, hnew⟩ := run_append newer (.clear :: (older ++ earlier))
  obtain ⟨oldEvents, hold⟩ := run_append (.clear :: older) earlier
  have hmade : id ∈ (run (.clear :: (older ++ earlier))).1.filterMap issued := by
    obtain ⟨node, action, generation, ttl, t, hmem⟩ := originates_of_find hfind
    rw [List.cons_append] at hold
    rw [hold, List.filterMap_append]
    exact List.mem_append_right _ (List.mem_filterMap.mpr ⟨_, hmem, rfl⟩)
  have hgone : ∀ s ∈ live (newEvents ++ (run (.clear :: (older ++ earlier))).1), s.id ≠ id := by
    apply not_live_later _ hmade
    · intro s hs
      cases hs
    · rw [← hnew]
      exact htracks.distinct
  rcases revoke_cases htracks.nodup id with ⟨s, hs, hid, -⟩ | hnone
  · rw [htracks.active, hnew] at hs
    exact absurd hid (hgone s hs)
  · rw [hnone]

theorem final_of_spared (hcount : ((run (later ++ earlier)).1.filterMap issued).length < 2 ^ 64)
    (hfind : (run earlier).2.find id = some r) (hterminal : r.statusAt now ≠ .active)
    (hnow : now ∈ earlier.filterMap Op.tick) (hlater : ∀ t ∈ later.filterMap Op.tick, now ≤ t)
    (hspared : r.status = .active → Spared later id r.originNonce) :
    Final earlier later id (r.statusAt now) := by
  have hlate : r.status = .active → ∀ t ∈ later.filterMap Op.tick, r.expiresAt ≤ t := by
    intro hactive t ht
    exact UInt64.le_trans (Reservation.expiresAt_le_of_statusAt hactive hterminal) (hlater t ht)
  have hsame : ∀ mid, mid <:+ later → .clear ∉ mid →
      (run (mid ++ earlier)).2.find id = some r := by
    intro mid hmid hclear
    apply find_run_of_kept hcount hfind hlate _ hmid hclear
    exact fun hactive op mid hmid hclear _ => hspared hactive op mid hmid hclear
  constructor
  · intro mid hmid hclear t ht
    rw [effectiveStatus_of_find (hsame mid hmid hclear)]
    rw [Reservation.statusAt_mono hterminal]
    apply ht
    rw [List.filterMap_append]
    exact List.mem_append_right _ hnow
  · intro mid hmid
    have hbefore := (List.suffix_cons (.revoke id) mid).trans hmid
    by_cases hclear : .clear ∈ mid
    · exact revoke_after_clear (tracks_of_suffix hcount hbefore) hfind hclear
    · have hclosed : r.status ≠ .active := fun hactive =>
        (hspared hactive _ mid hmid hclear).1 rfl
      rw [revoke_of_find (hsame mid hbefore hclear)]
      exact decide_eq_false hclosed

-- A record that has run out is as open to a revocation as before: `revoke` reports it as
-- done, and a cascade changes what `effective_status` answers.
theorem not_revoking_of_final
    (hcount : ((run (later ++ earlier)).1.filterMap issued).length < 2 ^ 64)
    (hactive : r.status = .active) (hexpired : r.expiresAt ≤ now)
    (hfinal : Final earlier later id (r.statusAt now)) {op : Op} {mid : List Op}
    (hmid : op :: mid <:+ later) (hclear : .clear ∉ mid)
    (hfind : (run (mid ++ earlier)).2.find id = some r) :
    op ≠ .revoke id ∧ op ≠ .revokeByOriginNonce r.originNonce := by
  constructor
  · rintro rfl
    have hrefused := hfinal.refused mid hmid
    rw [revoke_of_find hfind, hactive] at hrefused
    cases hrefused
  · rintro rfl
    have htracks := tracks_of_suffix hcount ((List.suffix_cons _ mid).trans hmid)
    have hnext := find_perform htracks.nodup hfind
      (show Op.revokeByOriginNonce r.originNonce ≠ .clear from Op.noConfusion)
    rw [Reservation.after, if_pos ⟨rfl, hactive⟩] at hnext
    have hlast : ∀ t : UInt64, t ≤ U64_MAX := by
      intro t
      have hlt := t.toNat_lt
      have hmax : U64_MAX.toNat = 2 ^ 64 - 1 := rfl
      rw [UInt64.le_iff_toNat_le]
      omega
    have hreported := hfinal.reported _ hmid (by simpa using hclear) _ fun t _ => hlast t
    have hstatus := (effectiveStatus_of_find hnext _).symm.trans hreported
    simp [Reservation.statusAt, hactive, hexpired] at hstatus

theorem spared_of_final (hcount : ((run (later ++ earlier)).1.filterMap issued).length < 2 ^ 64)
    (hfind : (run earlier).2.find id = some r) (hactive : r.status = .active)
    (hterminal : r.statusAt now ≠ .active) (hlater : ∀ t ∈ later.filterMap Op.tick, now ≤ t)
    (hfinal : Final earlier later id (r.statusAt now)) : Spared later id r.originNonce := by
  have hexpired := Reservation.expiresAt_le_of_statusAt hactive hterminal
  intro op mid hmid hclear
  apply not_revoking_of_final hcount hactive hexpired hfinal hmid hclear
  apply find_run_of_kept hcount hfind _ _ ((List.suffix_cons op mid).trans hmid) hclear
  · exact fun _ t ht => UInt64.le_trans hexpired (hlater t ht)
  · intro _ op mid hmid hclear hhere
    exact not_revoking_of_final hcount hactive hexpired hfinal hmid hclear hhere

end Runs

-- Expiry is not stored, so that a reservation reported as expired can still be stored as
-- active. Its outcome is final exactly when nothing revokes it afterwards.
theorem terminal_final_iff (earlier later : List Op) (id : ReservationId) (now : UInt64)
    (status : ReservationStatus)
    (hcount : ((run (later ++ .effectiveStatus id now :: earlier)).1.filterMap issued).length <
      2 ^ 64)
    (hclock : ((later ++ .effectiveStatus id now :: earlier).filterMap Op.tick).Pairwise (· ≥ ·))
    (hstatus : (run earlier).2.effectiveStatus id now = some status)
    (hterminal : status ≠ .active) :
    Final (.effectiveStatus id now :: earlier) later id status ↔
      ∀ r, (run earlier).2.find id = some r → r.status = .active →
        Spared later id r.originNonce := by
  obtain ⟨r, hfind, rfl⟩ := find_of_effectiveStatus hstatus
  have hlater : ∀ t ∈ later.filterMap Op.tick, now ≤ t := by
    rw [List.filterMap_append, List.pairwise_append] at hclock
    exact fun t ht => hclock.2.2 t ht now List.mem_cons_self
  constructor
  · intro hfinal s hs hactive
    obtain rfl : r = s := Option.some.inj (hfind.symm.trans hs)
    exact spared_of_final hcount hfind hactive hterminal hlater hfinal
  · intro hspared
    exact final_of_spared hcount hfind hterminal List.mem_cons_self hlater (hspared r hfind)

def oneReservation : List Op := [.reserve node1 .SCHEDULE ⟨0⟩ 7 tenTicks 0]

-- After the expiry: a consumption that is refused, and a cascade of another token.
theorem terminal_final_iff_consume :
    Final (.effectiveStatus ⟨0⟩ 10 :: oneReservation)
      [.revokeByOriginNonce 8, .consume ⟨0⟩ 11] ⟨0⟩ .expired := by
  apply (terminal_final_iff oneReservation [.revokeByOriginNonce 8, .consume ⟨0⟩ 11] ⟨0⟩ 10 .expired
    (by decide +kernel) (by decide +kernel) (by decide +kernel) (by decide)).mpr
  intro r hfind _
  obtain rfl := Option.some.inj hfind
  refine spared_cons.mpr ⟨by decide +kernel, spared_cons.mpr ⟨by decide +kernel, ?_⟩⟩
  exact fun op mid hmid => by simp at hmid

-- The reservation has run out at tick 10, and is revoked all the same.
theorem expired_then_revoked :
    (run oneReservation).2.effectiveStatus ⟨0⟩ 10 = some .expired ∧
      ((run (.effectiveStatus ⟨0⟩ 10 :: oneReservation)).2.revoke ⟨0⟩).1 = true ∧
      (run (.revoke ⟨0⟩ :: .effectiveStatus ⟨0⟩ 10 :: oneReservation)).2.effectiveStatus ⟨0⟩ 11 =
        some .revoked := by
  decide +kernel

end ReservationLedger

end LuxKernel.Auth
