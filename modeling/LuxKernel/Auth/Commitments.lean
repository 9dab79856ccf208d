import LuxKernel.Auth.Reservation

namespace LuxKernel.Auth.ReservationLedger

inductive Op where
  | reserve (node : NodeId) (action : CapabilitySet) (generation : Generation)
      (originNonce : UInt64) (ttl : ReservationTtl) (now : UInt64)
  | grant (id : ReservationId) (now : UInt64)
  | consume (id : ReservationId) (now : UInt64)
  | revoke (id : ReservationId)
  | revokeByOriginNonce (originNonce : UInt64)
  | effectiveStatus (id : ReservationId) (now : UInt64)
  | clear
deriving DecidableEq

-- A call together with what it returned.
inductive Event where
  | reserved (node : NodeId) (action : CapabilitySet) (generation : Generation)
      (originNonce : UInt64) (ttl : ReservationTtl) (now : UInt64) (result : Result ReservationId)
  | granted (id : ReservationId) (now : UInt64) (result : Result ExecutionGrant)
  | consumed (id : ReservationId) (now : UInt64) (result : Result Unit)
  | revoked (id : ReservationId) (done : Bool)
  | cascaded (originNonce : UInt64) (count : Nat)
  | inspected (id : ReservationId) (now : UInt64) (status : Option ReservationStatus)
  | cleared

def perform (ledger : ReservationLedger) : Op → Event × ReservationLedger
  | .reserve node action generation originNonce ttl now =>
      let (result, ledger) := ledger.reserve node action generation originNonce ttl now
      (.reserved node action generation originNonce ttl now result, ledger)
  | .grant id now => (.granted id now (ledger.grant id now), ledger)
  | .consume id now =>
      let (result, ledger) := ledger.consume id now
      (.consumed id now result, ledger)
  | .revoke id =>
      let (done, ledger) := ledger.revoke id
      (.revoked id done, ledger)
  | .revokeByOriginNonce originNonce =>
      let (count, ledger) := ledger.revokeByOriginNonce originNonce
      (.cascaded originNonce count, ledger)
  | .effectiveStatus id now => (.inspected id now (ledger.effectiveStatus id now), ledger)
  | .clear => (.cleared, ledger.clear)

-- A run from an empty ledger. Calls and events are listed latest first.
def run : List Op → List Event × ReservationLedger
  | [] => ([], new)
  | op :: earlier =>
      let (history, ledger) := run earlier
      let (event, ledger) := ledger.perform op
      (event :: history, ledger)

-- The id that a successful `reserve` returned.
def issued : Event → Option ReservationId
  | .reserved _ _ _ _ _ _ (.ok id) => some id
  | _ => none

-- The id of a successful `consume`.
def consumption : Event → Option ReservationId
  | .consumed id _ (.ok ()) => some id
  | _ => none

-- A grant or a consumption that succeeded.
def Uses (id : ReservationId) : Event → Prop
  | .granted i _ (.ok _) => i = id
  | .consumed i _ (.ok ()) => i = id
  | _ => False

-- The ways in which a reservation made in `earlier` loses its authority.
inductive Closes (earlier : List Event) (id : ReservationId) : Event → Prop where
  | revoked : Closes earlier id (.revoked id true)
  | cascaded {node : NodeId} {action : CapabilitySet} {generation : Generation}
      {originNonce : UInt64} {ttl : ReservationTtl} {now : UInt64} (count : Nat)
      (made : .reserved node action generation originNonce ttl now (.ok id) ∈ earlier) :
      Closes earlier id (.cascaded originNonce count)
  | consumed (now : UInt64) : Closes earlier id (.consumed id now (.ok ()))
  | cleared (made : id ∈ earlier.filterMap issued) : Closes earlier id .cleared

theorem closes_of_consumption {earlier : List Event} {event : Event} {id : ReservationId}
    (h : consumption event = some id) : Closes earlier id event := by
  unfold consumption at h
  split at h
  · cases h
    exact .consumed _
  · cases h

theorem uses_of_consumption {event : Event} {id : ReservationId}
    (h : consumption event = some id) : Uses id event := by
  unfold consumption at h
  split at h
  · cases h
    rfl
  · cases h

-- What the ledger is for: the reservations that the history has made and not yet
-- closed.
def live : List Event → List Reservation
  | [] => []
  | .reserved node action generation originNonce ttl now (.ok id) :: earlier =>
      live earlier ++ [⟨id, node, action, generation, originNonce, now, ttl, .active⟩]
  | .consumed id _ (.ok ()) :: earlier => (live earlier).filter fun r => decide (r.id ≠ id)
  | .revoked id true :: earlier => (live earlier).filter fun r => decide (r.id ≠ id)
  | .cascaded originNonce _ :: earlier =>
      (live earlier).filter fun r => decide (r.originNonce ≠ originNonce)
  | .cleared :: _ => []
  | _ :: earlier => live earlier

section Histories

variable {history : List Event} {event : Event} {id : ReservationId}

-- A reservation enters only by the call that makes it.
theorem mem_live_cons {r : Reservation} (h : r ∈ live (event :: history)) :
    r ∈ live history ∨
      event = .reserved r.node r.action r.generation r.originNonce r.ttl r.createdAt (.ok r.id) := by
  cases event with
  | reserved node action generation originNonce ttl now result =>
      cases result with
      | error e => exact Or.inl h
      | ok id =>
          rcases List.mem_append.mp h with hold | hnew
          · exact Or.inl hold
          · obtain rfl := List.mem_singleton.mp hnew
            exact Or.inr rfl
  | consumed id now result =>
      cases result with
      | error e => exact Or.inl h
      | ok => exact Or.inl (List.mem_filter.mp h).1
  | revoked id done =>
      cases done with
      | false => exact Or.inl h
      | true => exact Or.inl (List.mem_filter.mp h).1
  | cascaded originNonce count => exact Or.inl (List.mem_filter.mp h).1
  | cleared => cases h
  | granted id now result => exact Or.inl h
  | inspected id now status => exact Or.inl h

theorem reserved_of_live {r : Reservation} (h : r ∈ live history) :
    .reserved r.node r.action r.generation r.originNonce r.ttl r.createdAt (.ok r.id) ∈ history := by
  induction history with
  | nil => cases h
  | cons event earlier ih =>
      rcases mem_live_cons h with hold | rfl
      · exact List.mem_cons_of_mem _ (ih hold)
      · exact List.mem_cons_self

theorem issued_of_live {r : Reservation} (h : r ∈ live history) :
    r.id ∈ history.filterMap issued :=
  List.mem_filterMap.mpr ⟨_, reserved_of_live h, rfl⟩

-- With distinct ids, an id belongs to one call of `reserve`.
theorem eq_of_issued {a b : Event} (hnodup : (history.filterMap issued).Nodup) (ha : a ∈ history)
    (hb : b ∈ history) (hida : issued a = some id) (hidb : issued b = some id) : a = b := by
  induction history with
  | nil => cases ha
  | cons event earlier ih =>
      have hrest : (earlier.filterMap issued).Nodup :=
        hnodup.sublist ((List.sublist_cons_self event earlier).filterMap issued)
      have hnew : ∀ e ∈ earlier, issued event = some id → issued e ≠ some id := by
        intro e he hevent hide
        rw [List.filterMap_cons_some hevent] at hnodup
        exact (List.nodup_cons.mp hnodup).1 (List.mem_filterMap.mpr ⟨e, he, hide⟩)
      rcases List.mem_cons.mp ha with rfl | holda
      · rcases List.mem_cons.mp hb with rfl | holdb
        · rfl
        · exact absurd hidb (hnew b holdb hida)
      · rcases List.mem_cons.mp hb with rfl | holdb
        · exact absurd hida (hnew a holda hidb)
        · exact ih hrest holda holdb

-- A reservation that is made and not live any more does not come back.
theorem not_live_later {later : List Event}
    (hnodup : ((later ++ history).filterMap issued).Nodup) (hmade : id ∈ history.filterMap issued)
    (hgone : ∀ r ∈ live history, r.id ≠ id) : ∀ r ∈ live (later ++ history), r.id ≠ id := by
  induction later with
  | nil => exact hgone
  | cons event later ih =>
      intro r hr
      rcases mem_live_cons hr with hold | rfl
      · exact ih (hnodup.sublist ((List.sublist_cons_self _ _).filterMap issued)) r hold
      · rintro rfl
        refine (List.nodup_cons.mp hnodup).1 ?_
        show _ ∈ (later ++ history).filterMap issued
        rw [List.filterMap_append]
        exact List.mem_append_right _ hmade

end Histories

-- The ledger and the history it stands for.
structure Tracks (history : List Event) (ledger : ReservationLedger) : Prop where
  counter : ledger.nextId.toNat = (history.filterMap issued).length
  below : ∀ id ∈ history.filterMap issued, id.get.toNat < ledger.nextId.toNat
  distinct : (history.filterMap issued).Nodup
  made : ∀ id ∈ ledger.ids, id ∈ history.filterMap issued
  nodup : ledger.ids.Nodup
  active : ledger.active = live history

section Steps

variable {history : List Event} {event : Event} {ledger ledger' : ReservationLedger}

theorem Tracks.new : Tracks [] new where
  counter := rfl
  below := by simp
  distinct := List.nodup_nil
  made := by simp [ids, ReservationLedger.new]
  nodup := List.nodup_nil
  active := rfl

-- A call that makes no reservation.
theorem Tracks.other (h : Tracks history ledger) (hissued : issued event = none)
    (hnext : ledger'.nextId = ledger.nextId) (hids : ledger'.ids.Sublist ledger.ids)
    (hactive : ledger'.active = live (event :: history)) : Tracks (event :: history) ledger' := by
  have hsame : (event :: history).filterMap issued = history.filterMap issued :=
    List.filterMap_cons_none hissued
  refine ⟨?_, ?_, ?_, ?_, h.nodup.sublist hids, hactive⟩
  · rw [hnext, hsame]
    exact h.counter
  · rw [hnext, hsame]
    exact h.below
  · rw [hsame]
    exact h.distinct
  · rw [hsame]
    exact fun id hid => h.made id (hids.subset hid)

theorem Tracks.reserve (h : Tracks history ledger) (node : NodeId) (action : CapabilitySet)
    (generation : Generation) (originNonce : UInt64) (ttl : ReservationTtl) (now : UInt64)
    (hcount : (((ledger.perform (.reserve node action generation originNonce ttl now)).1 ::
      history).filterMap issued).length < 2 ^ 64) :
    Tracks ((ledger.perform (.reserve node action generation originNonce ttl now)).1 :: history)
      (ledger.perform (.reserve node action generation originNonce ttl now)).2 := by
  rcases ledger.reserve_cases node action generation originNonce ttl now with
    ⟨reservations, hlist, hok⟩ | ⟨e, herr⟩
  · simp only [perform, hok] at hcount ⊢
    have hissued : (Event.reserved node action generation originNonce ttl now
        (.ok ⟨ledger.nextId⟩) :: history).filterMap issued =
        ⟨ledger.nextId⟩ :: history.filterMap issued := rfl
    have hnext : (saturatingSucc ledger.nextId).toNat = ledger.nextId.toNat + 1 := by
      apply toNat_saturatingSucc
      rw [h.counter]
      rw [hissued, List.length_cons] at hcount
      exact hcount
    have hfresh : ⟨ledger.nextId⟩ ∉ history.filterMap issued :=
      fun hmem => Nat.lt_irrefl _ (h.below _ hmem)
    have hids : ids ⟨reservations, saturatingSucc ledger.nextId⟩ = ledger.ids ++ [⟨ledger.nextId⟩] := by
      rw [ids, hlist, List.map_append]
      rfl
    refine ⟨?_, ?_, ?_, ?_, ?_, ?_⟩
    · rw [hissued, List.length_cons, ← h.counter]
      exact hnext
    · intro id hid
      show id.get.toNat < (saturatingSucc ledger.nextId).toNat
      rw [hissued, List.mem_cons] at hid
      rcases hid with rfl | hold
      · rw [hnext]
        exact Nat.lt_succ_self _
      · have hlt := h.below id hold
        omega
    · rw [hissued]
      exact List.nodup_cons.mpr ⟨hfresh, h.distinct⟩
    · intro id hid
      rw [hids, List.mem_append, List.mem_singleton] at hid
      rw [hissued, List.mem_cons]
      exact hid.symm.imp_right (h.made id)
    · rw [hids]
      refine List.nodup_append.mpr ⟨h.nodup, List.nodup_singleton _, fun a ha b hb hab => ?_⟩
      obtain rfl := List.mem_singleton.mp hb
      exact hfresh (h.made _ (hab ▸ ha))
    · rw [ReservationLedger.active, hlist, List.filter_append, live, ← h.active]
      rfl
  · simp only [perform, herr]
    exact h.other rfl rfl (List.Sublist.refl _) h.active

theorem Tracks.perform (h : Tracks history ledger) (op : Op)
    (hcount : (((ledger.perform op).1 :: history).filterMap issued).length < 2 ^ 64) :
    Tracks ((ledger.perform op).1 :: history) (ledger.perform op).2 := by
  cases op with
  | reserve node action generation originNonce ttl now =>
      exact h.reserve node action generation originNonce ttl now hcount
  | grant id now => exact h.other rfl rfl (List.Sublist.refl _) h.active
  | effectiveStatus id now => exact h.other rfl rfl (List.Sublist.refl _) h.active
  | consume id now =>
      simp only [ReservationLedger.perform]
      rcases consume_cases h.nodup id now with ⟨r, -, -, -, hok⟩ | ⟨e, herr⟩
      · rw [hok]
        refine h.other rfl rfl ?_ ?_
        · rw [ids_setStatus h.nodup]
        · rw [active_setStatus h.nodup (by decide), h.active]
          rfl
      · rw [herr]
        exact h.other rfl rfl (List.Sublist.refl _) h.active
  | revoke id =>
      simp only [ReservationLedger.perform]
      rcases revoke_cases h.nodup id with ⟨r, -, -, hdone⟩ | hnone
      · rw [hdone]
        refine h.other rfl rfl ?_ ?_
        · rw [ids_setStatus h.nodup]
        · rw [active_setStatus h.nodup (by decide), h.active]
          rfl
      · rw [hnone]
        exact h.other rfl rfl (List.Sublist.refl _) h.active
  | revokeByOriginNonce originNonce =>
      refine h.other rfl rfl ?_ ?_
      · show (ledger.revokeByOriginNonce originNonce).2.ids.Sublist ledger.ids
        rw [ids_revokeByOriginNonce]
      · show (ledger.revokeByOriginNonce originNonce).2.active = _
        rw [active_revokeByOriginNonce, h.active]
        rfl
  | clear => exact h.other rfl rfl (List.nil_sublist _) rfl

theorem issued_run_le (op : Op) (ops : List Op) :
    ((run ops).1.filterMap issued).length ≤ ((run (op :: ops)).1.filterMap issued).length :=
  ((List.sublist_cons_self ((run ops).2.perform op).1 (run ops).1).filterMap issued).length_le

theorem tracks_run (ops : List Op) (hcount : ((run ops).1.filterMap issued).length < 2 ^ 64) :
    Tracks (run ops).1 (run ops).2 := by
  induction ops with
  | nil => exact Tracks.new
  | cons op ops ih =>
      have hbefore := Nat.lt_of_le_of_lt (issued_run_le op ops) hcount
      exact (ih hbefore).perform op hcount

-- An event of a run is the answer to a call on the ledger that its history left.
theorem tracks_split {ops : List Op} (hcount : ((run ops).1.filterMap issued).length < 2 ^ 64)
    {later earlier : List Event} (h : (run ops).1 = later ++ event :: earlier) :
    ∃ op ledger, Tracks earlier ledger ∧ (ledger.perform op).1 = event := by
  induction ops generalizing later with
  | nil => simp [run] at h
  | cons op before ih =>
      have hbefore := Nat.lt_of_le_of_lt (issued_run_le op before) hcount
      cases later with
      | nil =>
          obtain ⟨hevent, rfl⟩ := List.cons.inj h
          exact ⟨op, _, tracks_run before hbefore, hevent⟩
      | cons newest later => exact ih hbefore (List.cons.inj h).2

theorem Tracks.live_of_uses (h : Tracks history ledger) {op : Op} {id : ReservationId}
    (huses : Uses id (ledger.perform op).1) : ∃ r ∈ live history, r.id = id := by
  rw [← h.active]
  cases op with
  | grant i now =>
      simp only [ReservationLedger.perform] at huses
      cases hgrant : ledger.grant i now with
      | error e => simp [hgrant, Uses] at huses
      | ok grant =>
          rw [hgrant] at huses
          obtain ⟨r, hr, hid, -⟩ := (grant_eq_ok h.nodup).mp hgrant
          exact ⟨r, hr, hid.trans huses⟩
  | consume i now =>
      simp only [ReservationLedger.perform] at huses
      rcases consume_cases h.nodup i now with ⟨r, hr, hid, -, hok⟩ | ⟨e, herr⟩
      · rw [hok] at huses
        exact ⟨r, hr, hid.trans huses⟩
      · simp [herr, Uses] at huses
  | _ => exact False.elim huses

-- What is closed was made before, and is live no more.
theorem Tracks.closed (h : Tracks history ledger) {op : Op} {id : ReservationId}
    (hcloses : Closes history id (ledger.perform op).1) :
    id ∈ history.filterMap issued ∧
      ∀ r ∈ live ((ledger.perform op).1 :: history), r.id ≠ id := by
  generalize hevent : (ledger.perform op).1 = event at hcloses
  cases hcloses with
  | revoked =>
      refine ⟨?_, fun r hr => by simpa using (List.mem_filter.mp hr).2⟩
      cases op with
      | revoke i =>
          rcases revoke_cases h.nodup i with ⟨r, hr, hid, -⟩ | hnone
          · obtain ⟨rfl, -⟩ := Event.revoked.inj hevent
            rw [h.active] at hr
            exact hid ▸ issued_of_live hr
          · simp [ReservationLedger.perform, hnone] at hevent
      | _ => simp [ReservationLedger.perform] at hevent
  | consumed now =>
      refine ⟨?_, fun r hr => by simpa using (List.mem_filter.mp hr).2⟩
      have huses : Uses id (ledger.perform op).1 := by
        rw [hevent]
        exact rfl
      obtain ⟨r, hr, hid⟩ := h.live_of_uses huses
      exact hid ▸ issued_of_live hr
  | cascaded count made =>
      refine ⟨List.mem_filterMap.mpr ⟨_, made, rfl⟩, fun r hr hid => ?_⟩
      obtain ⟨hold, hnonce⟩ := List.mem_filter.mp hr
      have hsame := eq_of_issued h.distinct (reserved_of_live hold) made (by rw [← hid]; rfl) rfl
      obtain ⟨-, -, -, hnonces, -⟩ := Event.reserved.inj hsame
      simp [hnonces] at hnonce
  | cleared made => exact ⟨made, fun r hr => by cases hr⟩

end Steps

section Runs

variable {ops : List Op} {later earlier : List Event} {id : ReservationId}

theorem closed_for_good (hcount : ((run ops).1.filterMap issued).length < 2 ^ 64) {event : Event}
    (h : (run ops).1 = later ++ event :: earlier) (hcloses : Closes earlier id event) :
    ∀ e ∈ later, ¬Uses id e := by
  intro e he huses
  obtain ⟨closer, ledger, htracks, rfl⟩ := tracks_split hcount h
  obtain ⟨hmade, hgone⟩ := htracks.closed hcloses
  -- The later use is made on the ledger that everything before it left.
  obtain ⟨newer, older, rfl⟩ := List.append_of_mem he
  rw [List.append_assoc, List.cons_append] at h
  obtain ⟨op, ledger', htracks', rfl⟩ := tracks_split hcount h
  obtain ⟨r, hr, hid⟩ := htracks'.live_of_uses huses
  refine not_live_later htracks'.distinct ?_ hgone r hr hid
  exact ((List.sublist_cons_self _ _).filterMap issued).subset hmade

theorem consumed_once (hcount : ((run ops).1.filterMap issued).length < 2 ^ 64) :
    ((run ops).1.filterMap consumption).Nodup := by
  induction ops with
  | nil => exact List.nodup_nil
  | cons op before ih =>
      have hbefore := Nat.lt_of_le_of_lt (issued_run_le op before) hcount
      show ((((run before).2.perform op).1 :: (run before).1).filterMap consumption).Nodup
      cases hnew : consumption ((run before).2.perform op).1 with
      | none =>
          rw [List.filterMap_cons_none hnew]
          exact ih hbefore
      | some id =>
          rw [List.filterMap_cons_some hnew]
          refine List.nodup_cons.mpr ⟨fun hmem => ?_, ih hbefore⟩
          obtain ⟨first, hfirst, hid⟩ := List.mem_filterMap.mp hmem
          obtain ⟨later, earlier, hsplit⟩ := List.append_of_mem hfirst
          have hrun : (run (op :: before)).1 =
              (((run before).2.perform op).1 :: later) ++ first :: earlier := by
            rw [List.cons_append, ← hsplit]
            rfl
          exact closed_for_good hcount hrun (closes_of_consumption hid) _ List.mem_cons_self
            (uses_of_consumption hnew)

theorem grant_of_reserved (hcount : ((run ops).1.filterMap issued).length < 2 ^ 64)
    {now : UInt64} {grant : ExecutionGrant}
    (h : (run ops).1 = later ++ .granted id now (.ok grant) :: earlier) :
    ∃ (node : NodeId) (action : CapabilitySet) (generation : Generation) (originNonce : UInt64)
      (ttl : ReservationTtl) (createdAt : UInt64),
      .reserved node action generation originNonce ttl createdAt (.ok id) ∈ earlier ∧
      grant.reservationId = id ∧ grant.generation = generation ∧ grant.action = action ∧
      grant.expiresAt.toNat = min (createdAt.toNat + ttl.get.toNat) U64_MAX.toNat ∧
      now < grant.expiresAt := by
  obtain ⟨op, ledger, htracks, hevent⟩ := tracks_split hcount h
  cases op with
  | grant i tick =>
      obtain ⟨rfl, rfl, hgrant⟩ := Event.granted.inj hevent
      obtain ⟨r, hr, rfl, hnow, rfl⟩ := (grant_eq_ok htracks.nodup).mp hgrant
      rw [htracks.active] at hr
      exact ⟨r.node, r.action, r.generation, r.originNonce, r.ttl, r.createdAt,
        reserved_of_live hr, rfl, rfl, rfl, toNat_saturatingAdd _ _, hnow⟩
  | _ => simp [perform] at hevent

-- Reservations over whole runs, with clocks that may go back.
theorem reservations_one_shot (ops : List Op)
    (hcount : ((run ops).1.filterMap issued).length < 2 ^ 64) :
    ((run ops).1.filterMap issued).Nodup ∧
    ((run ops).1.filterMap consumption).Nodup ∧
    (∀ (later : List Event) (event : Event) (earlier : List Event) (id : ReservationId),
      (run ops).1 = later ++ event :: earlier → Closes earlier id event →
        ∀ e ∈ later, ¬Uses id e) ∧
    (∀ (later : List Event) (id : ReservationId) (now : UInt64) (grant : ExecutionGrant)
      (earlier : List Event),
      (run ops).1 = later ++ .granted id now (.ok grant) :: earlier →
      ∃ (node : NodeId) (action : CapabilitySet) (generation : Generation) (originNonce : UInt64)
        (ttl : ReservationTtl) (createdAt : UInt64),
        .reserved node action generation originNonce ttl createdAt (.ok id) ∈ earlier ∧
        grant.reservationId = id ∧ grant.generation = generation ∧ grant.action = action ∧
        grant.expiresAt.toNat = min (createdAt.toNat + ttl.get.toNat) U64_MAX.toNat ∧
        now < grant.expiresAt) :=
  ⟨(tracks_run ops hcount).distinct, consumed_once hcount,
    fun _ _ _ _ hsplit hcloses => closed_for_good hcount hsplit hcloses,
    fun _ _ _ _ _ hsplit => grant_of_reserved hcount hsplit⟩

end Runs

-- Two reservations from one token, with a `clear` between them and a clock that goes
-- back. The second consumption of the first one fails.
def clearedBetween : List Op :=
  let ttl : ReservationTtl := ⟨10, by decide, by decide⟩
  [.consume ⟨1⟩ 3, .grant ⟨1⟩ 2, .reserve node1 .SCHEDULE ⟨0⟩ 7 ttl 1, .clear,
    .consume ⟨0⟩ 6, .consume ⟨0⟩ 5, .reserve node1 .SCHEDULE ⟨0⟩ 7 ttl 4]

theorem reservations_one_shot_clearedBetween :
    (run clearedBetween).1.filterMap issued = [⟨1⟩, ⟨0⟩] ∧
      (run clearedBetween).1.filterMap consumption = [⟨1⟩, ⟨0⟩] ∧
      ((run clearedBetween).1.filterMap issued).Nodup ∧
      ((run clearedBetween).1.filterMap consumption).Nodup := by
  have hcount : ((run clearedBetween).1.filterMap issued).length < 2 ^ 64 := by decide +kernel
  obtain ⟨hissued, hconsumed, -⟩ := reservations_one_shot clearedBetween hcount
  exact ⟨by decide +kernel, by decide +kernel, hissued, hconsumed⟩

end LuxKernel.Auth.ReservationLedger
