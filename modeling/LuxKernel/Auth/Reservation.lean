import LuxKernel.Auth.Capability
import LuxKernel.Heapless.Containers

namespace LuxKernel.Auth

open Heapless

structure ReservationId where
  get : UInt64
deriving DecidableEq, Repr

structure ReservationTtl where
  get : UInt64
  ne_zero : get ≠ 0
  le_max : get ≤ MAX_RESERVATION_TTL
deriving DecidableEq, Repr

def ReservationTtl.new (ticks : UInt64) : Option ReservationTtl :=
  if h : ticks = 0 ∨ ticks > MAX_RESERVATION_TTL then none
  else some ⟨ticks, fun hz => h (Or.inl hz), UInt64.not_lt.mp fun hgt => h (Or.inr hgt)⟩

inductive ReservationStatus where
  | active
  | revoked
  | expired
  | consumed
deriving DecidableEq, Repr

structure Reservation where
  id : ReservationId
  node : NodeId
  action : CapabilitySet
  generation : Generation
  originNonce : UInt64
  createdAt : UInt64
  ttl : ReservationTtl
  status : ReservationStatus
deriving DecidableEq, Repr

namespace Reservation

def expiresAt (r : Reservation) : UInt64 := saturatingAdd r.createdAt r.ttl.get

def isActive (r : Reservation) : Bool := decide (r.status = .active)

end Reservation

structure ExecutionGrant where
  reservationId : ReservationId
  generation : Generation
  action : CapabilitySet
  expiresAt : UInt64
deriving DecidableEq, Repr

structure ReservationLedger where
  reservations : HVec Reservation MAX_RESERVATIONS
  nextId : UInt64
deriving DecidableEq

namespace ReservationLedger

def new : ReservationLedger := ⟨HVec.empty, 0⟩

def find (ledger : ReservationLedger) (id : ReservationId) : Option Reservation :=
  ledger.reservations.toList.find? fun r => decide (r.id = id)

-- An assignment to the status of the record that `find_mut` finds.
def setStatus (ledger : ReservationLedger) (id : ReservationId) (status : ReservationStatus) :
    ReservationLedger :=
  { ledger with
    reservations := ledger.reservations.updateFirst (fun r => decide (r.id = id))
      fun r => { r with status := status } }

def reserve (ledger : ReservationLedger) (node : NodeId) (action : CapabilitySet)
    (generation : Generation) (originNonce : UInt64) (ttl : ReservationTtl) (now : UInt64) :
    Result ReservationId × ReservationLedger :=
  let id : ReservationId := ⟨ledger.nextId⟩
  match ledger.reservations.push ⟨id, node, action, generation, originNonce, now, ttl, .active⟩ with
  | none => (.error (.reservationDenied "reservation capacity exhausted"), ledger)
  | some reservations => (.ok id, ⟨reservations, saturatingSucc ledger.nextId⟩)

def effectiveStatus (ledger : ReservationLedger) (id : ReservationId) (now : UInt64) :
    Option ReservationStatus := do
  let r ← ledger.find id
  return if r.status = .active ∧ now ≥ r.expiresAt then .expired else r.status

def revoke (ledger : ReservationLedger) (id : ReservationId) : Bool × ReservationLedger :=
  match ledger.find id with
  | some r => if r.status = .active then (true, ledger.setStatus id .revoked) else (false, ledger)
  | none => (false, ledger)

-- The count cannot saturate: there are at most `MAX_RESERVATIONS` records.
def revokeByOriginNonce (ledger : ReservationLedger) (originNonce : UInt64) :
    Nat × ReservationLedger :=
  let hit (r : Reservation) : Bool := decide (r.originNonce = originNonce) && r.isActive
  (ledger.reservations.toList.countP hit,
    { ledger with
      reservations := ledger.reservations.map fun r =>
        if hit r then { r with status := .revoked } else r })

def grant (ledger : ReservationLedger) (id : ReservationId) (now : UInt64) :
    Result ExecutionGrant :=
  match ledger.find id with
  | none => .error (.reservationDenied "reservation not active")
  | some r =>
      if r.status = .active ∧ now < r.expiresAt then
        .ok ⟨r.id, r.generation, r.action, r.expiresAt⟩
      else .error (.reservationDenied "reservation not active")

def consume (ledger : ReservationLedger) (id : ReservationId) (now : UInt64) :
    Result Unit × ReservationLedger :=
  match ledger.find id with
  | none => (.error (.reservationDenied "reservation not active"), ledger)
  | some r =>
      if r.status = .active then
        if now ≥ r.expiresAt then (.error (.reservationDenied "reservation not active"), ledger)
        else (.ok (), ledger.setStatus id .consumed)
      else (.error (.reservationDenied "reservation not active"), ledger)

def clear (ledger : ReservationLedger) : ReservationLedger :=
  { ledger with reservations := HVec.empty }

-- The records that can still be granted, apart from their expiry.
def active (ledger : ReservationLedger) : List Reservation :=
  ledger.reservations.toList.filter Reservation.isActive

def ids (ledger : ReservationLedger) : List ReservationId :=
  ledger.reservations.toList.map Reservation.id

variable {ledger : ReservationLedger} {id : ReservationId}

theorem mem_active {r : Reservation} :
    r ∈ ledger.active ↔ r ∈ ledger.reservations.toList ∧ r.status = .active := by
  rw [active, List.mem_filter, Reservation.isActive, decide_eq_true_eq]

theorem find_eq_some {r : Reservation} (h : ledger.ids.Nodup) :
    ledger.find id = some r ↔ r ∈ ledger.reservations.toList ∧ r.id = id := find?_key_eq_some h

-- Closing records only takes them out of the active ones.
theorem filter_active_close (records : List Reservation) (hit : Reservation → Bool)
    (status : ReservationStatus) (hstatus : status ≠ .active) :
    (records.map fun r => if hit r then { r with status := status } else r).filter
        Reservation.isActive =
      (records.filter Reservation.isActive).filter fun r => !hit r := by
  induction records with
  | nil => rfl
  | cons r rest ih =>
      have hclosed : { r with status := status }.isActive = false := decide_eq_false hstatus
      rw [List.map_cons, List.filter_cons, List.filter_cons, ih]
      by_cases hhit : hit r = true
      · by_cases hactive : r.isActive = true <;> simp [hhit, hactive, hclosed]
      · by_cases hactive : r.isActive = true <;> simp [hhit, hactive]

theorem ids_setStatus (h : ledger.ids.Nodup) (status : ReservationStatus) :
    (ledger.setStatus id status).ids = ledger.ids := by
  rw [ids, setStatus, HVec.toList_updateFirst Reservation.id h, List.map_map]
  refine List.map_congr_left fun r _ => ?_
  simp only [Function.comp_apply]
  split <;> rfl

theorem active_setStatus (h : ledger.ids.Nodup) {status : ReservationStatus}
    (hstatus : status ≠ .active) :
    (ledger.setStatus id status).active = ledger.active.filter fun r => decide (r.id ≠ id) := by
  have hclose := filter_active_close ledger.reservations.toList (fun r => decide (r.id = id))
    status hstatus
  unfold active
  rw [setStatus, HVec.toList_updateFirst Reservation.id h]
  simpa only [decide_eq_true_eq, decide_not] using hclose

theorem reserve_cases (ledger : ReservationLedger) (node : NodeId) (action : CapabilitySet)
    (generation : Generation) (originNonce : UInt64) (ttl : ReservationTtl) (now : UInt64) :
    (∃ reservations, reservations.toList = ledger.reservations.toList ++
        [⟨⟨ledger.nextId⟩, node, action, generation, originNonce, now, ttl, .active⟩] ∧
      ledger.reserve node action generation originNonce ttl now =
        (.ok ⟨ledger.nextId⟩, ⟨reservations, saturatingSucc ledger.nextId⟩)) ∨
    ∃ e, ledger.reserve node action generation originNonce ttl now = (.error e, ledger) := by
  unfold reserve
  dsimp only
  split
  · exact Or.inr ⟨_, rfl⟩
  · rename_i reservations hpush
    exact Or.inl ⟨reservations, (HVec.push_eq_some_iff.mp hpush).2, rfl⟩

-- A grant reads an active record that has not run out.
theorem grant_eq_ok (h : ledger.ids.Nodup) {now : UInt64} {grant : ExecutionGrant} :
    ledger.grant id now = .ok grant ↔ ∃ r ∈ ledger.active, r.id = id ∧ now < r.expiresAt ∧
      grant = ⟨r.id, r.generation, r.action, r.expiresAt⟩ := by
  unfold ReservationLedger.grant
  constructor
  · intro hok
    split at hok
    · cases hok
    · rename_i r hfind
      obtain ⟨hmem, hid⟩ := (find_eq_some h).mp hfind
      split at hok
      · rename_i hvalid
        exact ⟨r, mem_active.mpr ⟨hmem, hvalid.1⟩, hid, hvalid.2, (Except.ok.inj hok).symm⟩
      · cases hok
  · rintro ⟨r, hactive, hid, hnow, rfl⟩
    obtain ⟨hmem, hstatus⟩ := mem_active.mp hactive
    rw [(find_eq_some h).mpr ⟨hmem, hid⟩]
    simp only [hstatus, hnow, and_self, if_true]

theorem consume_cases (h : ledger.ids.Nodup) (id : ReservationId) (now : UInt64) :
    (∃ r ∈ ledger.active, r.id = id ∧ now < r.expiresAt ∧
      ledger.consume id now = (.ok (), ledger.setStatus id .consumed)) ∨
    ∃ e, ledger.consume id now = (.error e, ledger) := by
  unfold consume
  split
  · exact Or.inr ⟨_, rfl⟩
  · rename_i r hfind
    obtain ⟨hmem, hid⟩ := (find_eq_some h).mp hfind
    split
    · rename_i hstatus
      split
      · exact Or.inr ⟨_, rfl⟩
      · rename_i hnow
        exact Or.inl ⟨r, mem_active.mpr ⟨hmem, hstatus⟩, hid, UInt64.not_le.mp hnow, rfl⟩
    · exact Or.inr ⟨_, rfl⟩

theorem revoke_cases (h : ledger.ids.Nodup) (id : ReservationId) :
    (∃ r ∈ ledger.active, r.id = id ∧ ledger.revoke id = (true, ledger.setStatus id .revoked)) ∨
    ledger.revoke id = (false, ledger) := by
  unfold revoke
  split
  · rename_i r hfind
    obtain ⟨hmem, hid⟩ := (find_eq_some h).mp hfind
    split
    · rename_i hstatus
      exact Or.inl ⟨r, mem_active.mpr ⟨hmem, hstatus⟩, hid, rfl⟩
    · exact Or.inr rfl
  · exact Or.inr rfl

theorem ids_revokeByOriginNonce (ledger : ReservationLedger) (originNonce : UInt64) :
    (ledger.revokeByOriginNonce originNonce).2.ids = ledger.ids := by
  simp only [ids, revokeByOriginNonce, HVec.toList_map, List.map_map]
  refine List.map_congr_left fun r _ => ?_
  simp only [Function.comp_apply]
  split <;> rfl

theorem active_revokeByOriginNonce (ledger : ReservationLedger) (originNonce : UInt64) :
    (ledger.revokeByOriginNonce originNonce).2.active =
      ledger.active.filter fun r => decide (r.originNonce ≠ originNonce) := by
  have hclose := filter_active_close ledger.reservations.toList
    (fun r => decide (r.originNonce = originNonce) && r.isActive) .revoked (by decide)
  simp only [active, revokeByOriginNonce, HVec.toList_map, hclose]
  refine List.filter_congr fun r hr => ?_
  simp [(List.mem_filter.mp hr).2]

end ReservationLedger

end LuxKernel.Auth
