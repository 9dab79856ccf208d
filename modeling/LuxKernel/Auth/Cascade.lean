import LuxKernel.Auth.Commitments

namespace LuxKernel.Auth

open Heapless

-- A record as far as a cascade on `x` leaves it alone. Of the records with that origin
-- only the status is forgotten.
def Reservation.mask (x : UInt64) (r : Reservation) : Reservation :=
  if r.originNonce = x then { r with status := .revoked } else r

namespace Reservation

variable {x : UInt64} {r : Reservation}

theorem mask_of_eq (h : r.originNonce = x) : r.mask x = { r with status := .revoked } := if_pos h

theorem mask_of_ne (h : r.originNonce ≠ x) : r.mask x = r := if_neg h

@[simp] theorem id_mask (x : UInt64) (r : Reservation) : (r.mask x).id = r.id := by
  unfold mask
  split <;> rfl

@[simp] theorem originNonce_mask (x : UInt64) (r : Reservation) :
    (r.mask x).originNonce = r.originNonce := by
  unfold mask
  split <;> rfl

@[simp] theorem mask_mask (x : UInt64) (r : Reservation) : (r.mask x).mask x = r.mask x := by
  by_cases h : r.originNonce = x
  · simp [mask, h]
  · rw [mask_of_ne h, mask_of_ne h]

theorem mask_setStatus (x : UInt64) (status : ReservationStatus) (r : Reservation) :
    { r.mask x with status := status }.mask x = { r with status := status }.mask x := by
  by_cases h : r.originNonce = x
  · rw [mask_of_eq h]
  · rw [mask_of_ne h]

theorem mask_ite_revoked (h : r.originNonce = x) (c : Prop) [Decidable c] :
    (if c then { r with status := .revoked } else r).mask x = r.mask x := by
  split
  · simp [mask, h]
  · rfl

end Reservation

namespace ReservationLedger

def mask (x : UInt64) (ledger : ReservationLedger) : ReservationLedger :=
  { ledger with reservations := ledger.reservations.map (Reservation.mask x) }

section Masks

variable {ledger ledger' : ReservationLedger} {x : UInt64} {id : ReservationId}

theorem find_mask (x : UInt64) (ledger : ReservationLedger) (id : ReservationId) :
    (ledger.mask x).find id = (ledger.find id).map (Reservation.mask x) := by
  have hpred : (fun r => decide (Reservation.id r = id)) ∘ Reservation.mask x =
      fun r => decide (r.id = id) := by
    funext r
    simp
  rw [find, find, mask, HVec.toList_map, List.find?_map, hpred]

@[simp] theorem mask_mask (x : UInt64) (ledger : ReservationLedger) :
    (ledger.mask x).mask x = ledger.mask x := by
  simp [mask, HVec.map]

theorem mask_setStatus (x : UInt64) (ledger : ReservationLedger) (id : ReservationId)
    (status : ReservationStatus) :
    ((ledger.mask x).setStatus id status).mask x = (ledger.setStatus id status).mask x := by
  refine congrArg (mk · ledger.nextId) (HVec.map_updateFirst_map (fun r => ?_) (fun r => ?_)
    (Reservation.mask_mask x) ledger.reservations)
  · rw [Reservation.id_mask]
  · exact Reservation.mask_setStatus x status r

-- A record with the origin is masked whatever its status.
theorem mask_setStatus_of_find {r : Reservation} (hfind : ledger.find id = some r)
    (hx : r.originNonce = x) (status : ReservationStatus) :
    (ledger.setStatus id status).mask x = ledger.mask x := by
  refine congrArg (mk · ledger.nextId) (HVec.ext (HVec.map_updateFirst_of_find? hfind ?_))
  simp [Reservation.mask, hx]

theorem find_eq_of_mask_eq (h : ledger.mask x = ledger'.mask x)
    (hne : ∀ r, ledger'.find id = some r → r.originNonce ≠ x) :
    ledger.find id = ledger'.find id := by
  have hmap : (ledger.find id).map (Reservation.mask x) =
      (ledger'.find id).map (Reservation.mask x) := by
    rw [← find_mask, ← find_mask, h]
  cases hother : ledger'.find id with
  | none => simpa [hother] using hmap
  | some r =>
      have hr := hne r hother
      rw [hother, Option.map_some, Reservation.mask_of_ne hr] at hmap
      obtain ⟨s, hfind, hs⟩ := Option.map_eq_some_iff.mp hmap
      have hsx : s.originNonce ≠ x := by
        rw [← Reservation.originNonce_mask x s, hs]
        exact hr
      rw [hfind, ← hs, Reservation.mask_of_ne hsx]

-- Each of the three calls answers from the record that it finds.
theorem effectiveStatus_congr (h : ledger.find id = ledger'.find id) (now : UInt64) :
    ledger.effectiveStatus id now = ledger'.effectiveStatus id now := by
  rw [effectiveStatus, effectiveStatus, h]

theorem grant_congr (h : ledger.find id = ledger'.find id) (now : UInt64) :
    ledger.grant id now = ledger'.grant id now := by
  rw [grant, grant, h]

theorem consume_congr (h : ledger.find id = ledger'.find id) (now : UInt64) :
    (ledger.consume id now).1 = (ledger'.consume id now).1 := by
  unfold consume
  rw [h]
  split
  · rfl
  · split
    · split <;> rfl
    · rfl

-- The change that `revoke` and `consume` make: an active record that `allowed` lets
-- through gets a new status.
def closeIf (ledger : ReservationLedger) (id : ReservationId) (allowed : Reservation → Bool)
    (status : ReservationStatus) : ReservationLedger :=
  match ledger.find id with
  | none => ledger
  | some r => if r.status = .active ∧ allowed r = true then ledger.setStatus id status else ledger

theorem consume_snd (ledger : ReservationLedger) (id : ReservationId) (now : UInt64) :
    (ledger.consume id now).2 =
      ledger.closeIf id (fun r => decide (now < r.expiresAt)) .consumed := by
  unfold consume closeIf
  cases ledger.find id with
  | none => rfl
  | some r =>
      by_cases hactive : r.status = .active
      · by_cases hnow : now < r.expiresAt
        · simp [hactive, hnow, UInt64.not_le.mpr hnow]
        · simp [hactive, hnow, UInt64.not_lt.mp hnow]
      · simp [hactive]

theorem revoke_snd (ledger : ReservationLedger) (id : ReservationId) :
    (ledger.revoke id).2 = ledger.closeIf id (fun _ => true) .revoked := by
  unfold revoke closeIf
  cases ledger.find id with
  | none => rfl
  | some r => by_cases hactive : r.status = .active <;> simp [hactive]

-- Through the mask, the change is decided by what the mask shows.
theorem mask_closeIf (x : UInt64) (ledger : ReservationLedger) (id : ReservationId)
    (allowed : Reservation → Bool) (status : ReservationStatus) :
    ((ledger.mask x).closeIf id allowed status).mask x =
      (ledger.closeIf id allowed status).mask x := by
  unfold closeIf
  rw [find_mask]
  cases hfind : ledger.find id with
  | none => exact mask_mask x ledger
  | some r =>
      rw [Option.map_some]
      by_cases hx : r.originNonce = x
      · -- The masked record is closed already; the change to the other is masked.
        rw [Reservation.mask_of_eq hx]
        simp only [reduceCtorEq, false_and, if_false, mask_mask]
        split
        · exact (mask_setStatus_of_find hfind hx status).symm
        · rfl
      · rw [Reservation.mask_of_ne hx]
        dsimp only
        split
        · exact mask_setStatus x ledger id status
        · exact mask_mask x ledger

theorem mask_reserve (x : UInt64) (ledger : ReservationLedger) (node : NodeId)
    (action : CapabilitySet) (generation : Generation) (originNonce : UInt64)
    (ttl : ReservationTtl) (now : UInt64) :
    ((ledger.mask x).reserve node action generation originNonce ttl now).1 =
        (ledger.reserve node action generation originNonce ttl now).1 ∧
      ((ledger.mask x).reserve node action generation originNonce ttl now).2.mask x =
        (ledger.reserve node action generation originNonce ttl now).2.mask x := by
  have hlen : (ledger.mask x).reservations.toList.length = ledger.reservations.toList.length :=
    List.length_map _
  unfold reserve HVec.push
  simp only [hlen]
  by_cases hroom : ledger.reservations.toList.length < MAX_RESERVATIONS
  · simp [hroom, mask, HVec.map]
  · simp [hroom, mask, HVec.map]

theorem mask_revokeByOriginNonce (x : UInt64) (ledger : ReservationLedger) (originNonce : UInt64) :
    ((ledger.mask x).revokeByOriginNonce originNonce).2.mask x =
      (ledger.revokeByOriginNonce originNonce).2.mask x := by
  refine congrArg (mk · ledger.nextId) (HVec.ext ?_)
  simp only [mask, revokeByOriginNonce, HVec.toList_map, List.map_map]
  refine List.map_congr_left fun r _ => ?_
  by_cases hx : r.originNonce = x
  · have hmasked : (r.mask x).originNonce = x := by rw [Reservation.originNonce_mask, hx]
    simp only [Function.comp_apply, Reservation.mask_ite_revoked hx,
      Reservation.mask_ite_revoked hmasked, Reservation.mask_mask]
  · simp only [Function.comp_apply, Reservation.mask_of_ne hx]

-- The cascade itself is masked.
theorem mask_cascade (x : UInt64) (ledger : ReservationLedger) :
    (ledger.revokeByOriginNonce x).2.mask x = ledger.mask x := by
  refine congrArg (mk · ledger.nextId) (HVec.ext ?_)
  simp only [revokeByOriginNonce, HVec.toList_map, List.map_map]
  refine List.map_congr_left fun r _ => ?_
  by_cases hx : r.originNonce = x
  · simp only [Function.comp_apply, Reservation.mask_ite_revoked hx]
  · simp [hx]

theorem mask_perform (x : UInt64) (ledger : ReservationLedger) (op : Op) :
    issued ((ledger.mask x).perform op).1 = issued (ledger.perform op).1 ∧
      ((ledger.mask x).perform op).2.mask x = (ledger.perform op).2.mask x := by
  cases op with
  | reserve node action generation originNonce ttl now =>
      obtain ⟨hresult, hledger⟩ := mask_reserve x ledger node action generation originNonce ttl now
      refine ⟨?_, hledger⟩
      simp only [perform, hresult]
  | grant id now => exact ⟨rfl, mask_mask x ledger⟩
  | effectiveStatus id now => exact ⟨rfl, mask_mask x ledger⟩
  | consume id now =>
      refine ⟨rfl, ?_⟩
      simp only [perform, consume_snd]
      exact mask_closeIf x ledger id _ .consumed
  | revoke id =>
      refine ⟨rfl, ?_⟩
      simp only [perform, revoke_snd]
      exact mask_closeIf x ledger id _ .revoked
  | revokeByOriginNonce originNonce => exact ⟨rfl, mask_revokeByOriginNonce x ledger originNonce⟩
  | clear => exact ⟨rfl, rfl⟩

theorem perform_of_mask_eq (h : ledger.mask x = ledger'.mask x) (op : Op) :
    issued (ledger.perform op).1 = issued (ledger'.perform op).1 ∧
      (ledger.perform op).2.mask x = (ledger'.perform op).2.mask x := by
  obtain ⟨hissued, hmask⟩ := mask_perform x ledger op
  obtain ⟨hissued', hmask'⟩ := mask_perform x ledger' op
  rw [← hissued, ← hmask, ← hissued', ← hmask', h]
  exact ⟨rfl, rfl⟩

end Masks

-- Some call reserved the id with this origin.
def Originates (history : List Event) (id : ReservationId) (originNonce : UInt64) : Prop :=
  ∃ node action generation ttl now,
    .reserved node action generation originNonce ttl now (.ok id) ∈ history

section Runs

variable {history : List Event} {id : ReservationId} {x y : UInt64}

theorem Originates.cons (h : Originates history id x) (event : Event) :
    Originates (event :: history) id x := by
  obtain ⟨node, action, generation, ttl, now, hmem⟩ := h
  exact ⟨node, action, generation, ttl, now, List.mem_cons_of_mem _ hmem⟩

theorem Originates.unique (hnodup : (history.filterMap issued).Nodup)
    (hx : Originates history id x) (hy : Originates history id y) : x = y := by
  obtain ⟨_, _, _, _, _, hx⟩ := hx
  obtain ⟨_, _, _, _, _, hy⟩ := hy
  have hsame := eq_of_issued hnodup hx hy rfl rfl
  exact (Event.reserved.inj hsame).2.2.2.1

end Runs

section Origins

variable {ledger : ReservationLedger} {origin : ReservationId × UInt64}

-- The origins that the records of a ledger name, whatever their status.
def origins (ledger : ReservationLedger) : List (ReservationId × UInt64) :=
  ledger.reservations.toList.map fun r => (r.id, r.originNonce)

theorem origins_closeIf (ledger : ReservationLedger) (id : ReservationId)
    (allowed : Reservation → Bool) (status : ReservationStatus) :
    (ledger.closeIf id allowed status).origins = ledger.origins := by
  unfold closeIf
  split
  · rfl
  · rename_i r hfind
    split
    · exact HVec.map_updateFirst_of_find? hfind rfl
    · rfl

theorem origins_revokeByOriginNonce (ledger : ReservationLedger) (originNonce : UInt64) :
    (ledger.revokeByOriginNonce originNonce).2.origins = ledger.origins := by
  simp only [origins, revokeByOriginNonce, HVec.toList_map, List.map_map]
  refine List.map_congr_left fun r _ => ?_
  simp only [Function.comp_apply]
  split <;> rfl

theorem origins_perform (op : Op) (h : origin ∈ (ledger.perform op).2.origins) :
    origin ∈ ledger.origins ∨ Originates [(ledger.perform op).1] origin.1 origin.2 := by
  cases op with
  | reserve node action generation originNonce ttl now =>
      rcases ledger.reserve_cases node action generation originNonce ttl now with
        ⟨reservations, hlist, hok⟩ | ⟨e, herr⟩
      · simp only [perform, hok, origins, hlist, List.map_append, List.mem_append] at h ⊢
        refine h.imp_right fun hnew => ?_
        obtain rfl := List.mem_singleton.mp hnew
        exact ⟨node, action, generation, ttl, now, List.mem_singleton_self _⟩
      · simp only [perform, herr] at h
        exact Or.inl h
  | grant id now => exact Or.inl h
  | effectiveStatus id now => exact Or.inl h
  | consume id now =>
      simp only [perform, consume_snd, origins_closeIf] at h
      exact Or.inl h
  | revoke id =>
      simp only [perform, revoke_snd, origins_closeIf] at h
      exact Or.inl h
  | revokeByOriginNonce originNonce =>
      simp only [perform, origins_revokeByOriginNonce] at h
      exact Or.inl h
  | clear => cases h

theorem originates_run (ops : List Op) :
    ∀ origin ∈ (run ops).2.origins, Originates (run ops).1 origin.1 origin.2 := by
  induction ops with
  | nil => exact fun origin h => by cases h
  | cons op before ih =>
      intro origin h
      rcases origins_perform op h with hold | ⟨node, action, generation, ttl, now, hnew⟩
      · exact (ih origin hold).cons _
      · obtain hevent := List.mem_singleton.mp hnew
        exact ⟨node, action, generation, ttl, now, hevent ▸ List.mem_cons_self⟩

theorem originates_of_find {ops : List Op} {id : ReservationId} {r : Reservation}
    (hfind : (run ops).2.find id = some r) : Originates (run ops).1 id r.originNonce := by
  have hid : r.id = id := by simpa using List.find?_some hfind
  exact hid ▸ originates_run ops _ (List.mem_map_of_mem (List.mem_of_find?_eq_some hfind))

end Origins

section Continuations

variable {earlier later : List Op} {x : UInt64} {id : ReservationId}

theorem run_append (later earlier : List Op) :
    ∃ events, (run (later ++ earlier)).1 = events ++ (run earlier).1 := by
  induction later with
  | nil => exact ⟨[], rfl⟩
  | cons op later ih =>
      obtain ⟨events, hevents⟩ := ih
      exact ⟨_ :: events, by rw [List.cons_append, List.cons_append, ← hevents]; rfl⟩

-- The same continuation with the cascade and without it: the ledgers differ at most in
-- what the mask hides, and the same ids are handed out.
theorem mask_run_cascade (later earlier : List Op) (x : UInt64) :
    (run (later ++ .revokeByOriginNonce x :: earlier)).1.filterMap issued =
        (run (later ++ earlier)).1.filterMap issued ∧
      (run (later ++ .revokeByOriginNonce x :: earlier)).2.mask x =
        (run (later ++ earlier)).2.mask x := by
  induction later with
  | nil => exact ⟨rfl, mask_cascade x (run earlier).2⟩
  | cons op later ih =>
      obtain ⟨hissued, hmask⟩ := ih
      obtain ⟨hevent, hledger⟩ := perform_of_mask_eq hmask op
      refine ⟨?_, hledger⟩
      simp only [List.cons_append, run, List.filterMap_cons, hevent, hissued]

theorem unaffected (hcount : ((run (later ++ .revokeByOriginNonce x :: earlier)).1.filterMap
      issued).length < 2 ^ 64) {y : UInt64} (hmade : Originates (run (later ++ earlier)).1 id y)
    (hy : y ≠ x) :
    (run (later ++ .revokeByOriginNonce x :: earlier)).2.find id =
      (run (later ++ earlier)).2.find id := by
  obtain ⟨hissued, hmask⟩ := mask_run_cascade later earlier x
  refine find_eq_of_mask_eq hmask fun r hfind hx => hy ?_
  rw [hissued] at hcount
  exact hmade.unique (tracks_run _ hcount).distinct (hx ▸ originates_of_find hfind)

theorem closed_by_cascade (hcount : ((run (later ++ .revokeByOriginNonce x :: earlier)).1.filterMap
      issued).length < 2 ^ 64) (hmade : Originates (run earlier).1 id x) (op : Op)
    (hop : issued ((run (later ++ .revokeByOriginNonce x :: earlier)).2.perform op).1 = none) :
    ¬Uses id ((run (later ++ .revokeByOriginNonce x :: earlier)).2.perform op).1 := by
  obtain ⟨node, action, generation, ttl, now, hmem⟩ := hmade
  obtain ⟨events, hevents⟩ := run_append later (.revokeByOriginNonce x :: earlier)
  have hcount' : ((run (op :: (later ++ .revokeByOriginNonce x :: earlier))).1.filterMap
      issued).length < 2 ^ 64 := by
    simpa only [run, List.filterMap_cons_none hop] using hcount
  have hsplit : (run (op :: (later ++ .revokeByOriginNonce x :: earlier))).1 =
      (((run (later ++ .revokeByOriginNonce x :: earlier)).2.perform op).1 :: events) ++
        .cascaded x ((run earlier).2.revokeByOriginNonce x).1 :: (run earlier).1 :=
    congrArg (_ :: ·) hevents
  exact closed_for_good hcount' hsplit (.cascaded _ hmem) _ List.mem_cons_self

end Continuations

-- The records that a cascade is to close.
def Targets (x : UInt64) (r : Reservation) : Prop := r.originNonce = x ∧ r.status = .active

instance (x : UInt64) (r : Reservation) : Decidable (Targets x r) :=
  inferInstanceAs (Decidable (_ ∧ _))

section Cascades

variable (ledger : ReservationLedger) (x : UInt64)

theorem revokeByOriginNonce_eq : ledger.revokeByOriginNonce x =
    (ledger.reservations.toList.countP fun r => decide (Targets x r),
      { ledger with
        reservations := ledger.reservations.map fun r =>
          if Targets x r then { r with status := .revoked } else r }) := by
  simp only [revokeByOriginNonce, Reservation.isActive, ← Bool.decide_and, decide_eq_true_eq]
  rfl

theorem not_targets_closed (r : Reservation) :
    ¬Targets x (if Targets x r then { r with status := .revoked } else r) := by
  split
  · exact fun h => by simpa using h.2
  · assumption

theorem forall₂_revokeByOriginNonce :
    List.Forall₂ (fun before after =>
        (Targets x before → after = { before with status := .revoked }) ∧
        (¬Targets x before → after = before))
      ledger.reservations.toList (ledger.revokeByOriginNonce x).2.reservations.toList := by
  rw [revokeByOriginNonce_eq, HVec.toList_map, List.forall₂_map_right_iff, List.forall₂_same]
  exact fun r _ => ⟨fun h => if_pos h, fun h => if_neg h⟩

theorem revokeByOriginNonce_count : (ledger.revokeByOriginNonce x).1 =
    (ledger.reservations.toList.filter fun r => decide (Targets x r)).length := by
  rw [revokeByOriginNonce_eq, List.countP_eq_length_filter]

theorem revokeByOriginNonce_twice :
    (ledger.revokeByOriginNonce x).2.revokeByOriginNonce x =
      (0, (ledger.revokeByOriginNonce x).2) := by
  have hnone : ∀ r ∈ (ledger.revokeByOriginNonce x).2.reservations.toList, ¬Targets x r := by
    intro r hr
    rw [revokeByOriginNonce_eq] at hr
    obtain ⟨before, -, rfl⟩ := List.mem_map.mp hr
    exact not_targets_closed x before
  generalize (ledger.revokeByOriginNonce x).2 = closed at hnone
  rw [revokeByOriginNonce_eq]
  refine Prod.ext ?_ (congrArg (mk · closed.nextId) (HVec.ext ?_))
  · exact List.countP_eq_zero.mpr fun r hr => by simpa using hnone r hr
  · rw [HVec.toList_map]
    conv_rhs => rw [← List.map_id closed.reservations.toList]
    exact List.map_congr_left fun r hr => if_neg (hnone r hr)

end Cascades

-- A cascade anywhere in a run, and every continuation of the run after it. The last part
-- compares the continuation with the same one without the cascade.
theorem cascade_isolated (earlier later : List Op) (x : UInt64)
    (hcount : ((run (later ++ .revokeByOriginNonce x :: earlier)).1.filterMap issued).length <
      2 ^ 64) :
    let ledger := (run earlier).2
    let (count, closed) := ledger.revokeByOriginNonce x
    let continued := (run (later ++ .revokeByOriginNonce x :: earlier)).2
    let undisturbed := (run (later ++ earlier)).2
    count = (ledger.reservations.toList.filter fun r => decide (Targets x r)).length ∧
    List.Forall₂ (fun before after =>
        (Targets x before → after = { before with status := .revoked }) ∧
        (¬Targets x before → after = before))
      ledger.reservations.toList closed.reservations.toList ∧
    closed.nextId = ledger.nextId ∧
    (closed.revokeByOriginNonce x).1 = 0 ∧
    (∀ id, Originates (run earlier).1 id x → ∀ now,
      (∃ e, continued.grant id now = .error e) ∧ ∃ e, (continued.consume id now).1 = .error e) ∧
    ∀ id y, Originates (run (later ++ earlier)).1 id y → y ≠ x → ∀ now,
      continued.effectiveStatus id now = undisturbed.effectiveStatus id now ∧
      continued.grant id now = undisturbed.grant id now ∧
      (continued.consume id now).1 = (undisturbed.consume id now).1 := by
  refine ⟨revokeByOriginNonce_count _ x, forall₂_revokeByOriginNonce _ x, rfl,
    congrArg Prod.fst (revokeByOriginNonce_twice _ x), ?_, ?_⟩
  · intro id hmade now
    have hgrant := closed_by_cascade hcount hmade (.grant id now) rfl
    have hconsume := closed_by_cascade hcount hmade (.consume id now) rfl
    constructor
    · cases hresult : (run (later ++ .revokeByOriginNonce x :: earlier)).2.grant id now with
      | error e => exact ⟨e, rfl⟩
      | ok grant => simp [perform, hresult, Uses] at hgrant
    · cases hresult : ((run (later ++ .revokeByOriginNonce x :: earlier)).2.consume id now).1 with
      | error e => exact ⟨e, rfl⟩
      | ok => simp [perform, hresult, Uses] at hconsume
  · intro id y hmade hy now
    have hfind := unaffected hcount hmade hy
    exact ⟨effectiveStatus_congr hfind now, grant_congr hfind now, consume_congr hfind now⟩

def tenTicks : ReservationTtl := (ReservationTtl.new 10).get (by decide)

-- Two reservations of one token, the first of them consumed, and one of another token.
-- After the cascade on the first token a third reservation is made from it.
def beforeCascade : List Op :=
  [.consume ⟨0⟩ 2, .reserve node1 .SCHEDULE ⟨0⟩ 9 tenTicks 1,
    .reserve node1 .SCHEDULE ⟨0⟩ 7 tenTicks 1, .reserve node1 .SCHEDULE ⟨0⟩ 7 tenTicks 0]

def afterCascade : List Op := [.consume ⟨1⟩ 4, .reserve node1 .SCHEDULE ⟨0⟩ 7 tenTicks 3]

theorem cascade_isolated_secondToken :
    ((run beforeCascade).2.revokeByOriginNonce 7).1 = 1 ∧
    (∃ e, (run (afterCascade ++ .revokeByOriginNonce 7 :: beforeCascade)).2.grant ⟨1⟩ 5 =
      .error e) ∧
    (run (afterCascade ++ .revokeByOriginNonce 7 :: beforeCascade)).2.grant ⟨2⟩ 5 =
      .ok ⟨⟨2⟩, ⟨0⟩, .SCHEDULE, 11⟩ := by
  have hcount : ((run (afterCascade ++ .revokeByOriginNonce 7 :: beforeCascade)).1.filterMap
      issued).length < 2 ^ 64 := by decide +kernel
  obtain ⟨hclosed, -, -, -, hfail, hsame⟩ := cascade_isolated beforeCascade afterCascade 7 hcount
  have hfirst : Originates (run beforeCascade).1 ⟨1⟩ 7 :=
    ⟨node1, .SCHEDULE, ⟨0⟩, tenTicks, 1, .tail _ (.tail _ (.head _))⟩
  have hother : Originates (run (afterCascade ++ beforeCascade)).1 ⟨2⟩ 9 :=
    ⟨node1, .SCHEDULE, ⟨0⟩, tenTicks, 1, .tail _ (.tail _ (.tail _ (.head _)))⟩
  refine ⟨hclosed.trans (by decide +kernel), (hfail _ hfirst 5).1, ?_⟩
  exact (hsame _ 9 hother (by decide) 5).2.1.trans (by decide +kernel)

end ReservationLedger

end LuxKernel.Auth
