import LuxKernel.Hsm.KeyStore

namespace LuxKernel.Hsm

open Auth

inductive Op where
  | generate (seed : SigningKey)
  | rotate (handle : KeyHandle) (seed : SigningKey)
  | sign (handle : KeyHandle) (payload : Bytes)
  | verify (handle : KeyHandle) (payload : Bytes) (sig : Signature)
  | list

-- A call together with what it returned.
inductive Event where
  | generated (result : Result KeyHandle)
  | rotated (handle : KeyHandle) (result : Result KeyHandle)
  | signed (handle : KeyHandle) (payload : Bytes) (result : Result Signature)
  | verified (handle : KeyHandle) (payload : Bytes) (sig : Signature) (result : Result Unit)
  | listed (result : Result (List KeyHandle))

-- The handle that a call has returned.
def returned : Event → Option KeyHandle
  | .generated (.ok handle) => some handle
  | .rotated _ (.ok handle) => some handle
  | _ => none

-- A rotation of the handle that succeeded.
def Retires (handle : KeyHandle) : Event → Prop
  | .rotated old (.ok _) => old = handle
  | _ => False

-- Histories are listed latest first.
def Live (history : List Event) (handle : KeyHandle) : Prop :=
  ∃ later event earlier, history = later ++ event :: earlier ∧ returned event = some handle ∧
    ∀ e ∈ later, ¬Retires handle e

section Histories

variable {history : List Event} {event : Event} {handle : KeyHandle}

theorem live_nil : ¬Live [] handle := by
  rintro ⟨later, event, earlier, hsplit, -⟩
  cases later <;> cases hsplit

theorem live_cons : Live (event :: history) handle ↔
    returned event = some handle ∨ (Live history handle ∧ ¬Retires handle event) := by
  constructor
  · rintro ⟨later, made, earlier, hsplit, hmade, hlater⟩
    cases later with
    | nil =>
        obtain ⟨rfl, -⟩ := List.cons.inj hsplit
        exact Or.inl hmade
    | cons newest later =>
        obtain ⟨rfl, hrest⟩ := List.cons.inj hsplit
        obtain ⟨hnewest, hlater⟩ := List.forall_mem_cons.mp hlater
        exact Or.inr ⟨⟨later, made, earlier, hrest, hmade, hlater⟩, hnewest⟩
  · rintro (hmade | ⟨⟨later, made, earlier, rfl, hmade, hlater⟩, hkept⟩)
    · exact ⟨[], event, history, rfl, hmade, by simp⟩
    · exact ⟨event :: later, made, earlier, rfl, hmade, List.forall_mem_cons.mpr ⟨hkept, hlater⟩⟩

theorem returned_of_live (h : Live history handle) : handle ∈ history.filterMap returned := by
  obtain ⟨later, event, earlier, rfl, hreturned, -⟩ := h
  exact List.mem_filterMap.mpr ⟨event, List.mem_append_right _ List.mem_cons_self, hreturned⟩

end Histories

namespace SoftwareKeyStore

variable {store : SoftwareKeyStore} {history : List Event} {handle : KeyHandle}

-- The table holds the live handles.
def Tracks (history : List Event) (store : SoftwareKeyStore) : Prop :=
  ∀ handle, handle ∈ store.keys ↔ Live history handle

-- A call that hands out no handle and retires none.
theorem Tracks.other {event : Event} (h : Tracks history store) (hreturned : returned event = none)
    (hretires : ∀ handle, ¬Retires handle event) : Tracks (event :: history) store := by
  intro handle
  rw [h handle, live_cons, hreturned]
  simp [hretires]

variable [Ed25519] [Sha256]

def perform (store : SoftwareKeyStore) : Op → Event × SoftwareKeyStore
  | .generate seed =>
      let (result, store) := store.generateKeypair seed
      (.generated result, store)
  | .rotate handle seed =>
      let (result, store) := store.rotateKey handle seed
      (.rotated handle result, store)
  | .sign handle payload => (.signed handle payload (store.signCapability handle payload), store)
  | .verify handle payload sig =>
      (.verified handle payload sig (store.verifyCapabilitySignature handle payload sig), store)
  | .list => (.listed store.listKeys, store)

-- A run from an empty store. Calls and events are listed latest first.
def run : List Op → List Event × SoftwareKeyStore
  | [] => ([], new)
  | op :: earlier =>
      let (history, store) := run earlier
      let (event, store) := store.perform op
      (event :: history, store)

theorem run_cons (op : Op) (ops : List Op) : run (op :: ops) =
    (((run ops).2.perform op).1 :: (run ops).1, ((run ops).2.perform op).2) := rfl

theorem Tracks.perform (h : Tracks history store) (op : Op) :
    Tracks ((store.perform op).1 :: history) (store.perform op).2 := by
  cases op with
  | generate seed =>
      intro handle
      rw [live_cons]
      simp only [SoftwareKeyStore.perform, generateKeypair, AList.mem_insert, h handle, returned,
        Retires, Option.some.injEq, not_false_eq_true, and_true, eq_comm]
  | rotate old seed =>
      simp only [SoftwareKeyStore.perform, rotateKey]
      split
      · intro handle
        rw [live_cons]
        simp only [AList.mem_insert, AList.mem_erase, h handle, returned, Retires,
          Option.some.injEq, eq_comm, and_comm, ne_eq]
      · exact h.other rfl fun _ hretires => hretires
  | sign old payload => exact h.other rfl fun _ hretires => hretires
  | verify old payload sig => exact h.other rfl fun _ hretires => hretires
  | list => exact h.other rfl fun _ hretires => hretires

theorem tracks_run (ops : List Op) : Tracks (run ops).1 (run ops).2 := by
  induction ops with
  | nil => exact fun handle => iff_of_false (AList.notMem_empty handle) live_nil
  | cons op ops ih => exact ih.perform op

-- A key stays under its handle until it is removed, unless the handle is handed out
-- once more.
theorem lookup_perform (op : Op) (h : returned (store.perform op).1 ≠ some handle) :
    (store.perform op).2.keys.lookup handle = store.keys.lookup handle ∨
      (store.perform op).2.keys.lookup handle = none := by
  cases op with
  | generate seed =>
      have hne : handle ≠ handleOf seed := fun heq => h (congrArg some heq.symm)
      exact Or.inl (AList.lookup_insert_ne hne)
  | rotate old seed =>
      simp only [perform, rotateKey] at h ⊢
      split at h
      · rename_i hmem
        have hne : handle ≠ handleOf seed := fun heq => h (congrArg some heq.symm)
        rw [if_pos hmem]
        simp only [AList.lookup_insert_ne hne]
        by_cases hold : handle = old
        · rw [hold]
          exact Or.inr (AList.lookup_erase old store.keys)
        · exact Or.inl (AList.lookup_erase_ne hold)
      · rename_i hmem
        rw [if_neg hmem]
        exact Or.inl rfl
  | sign old payload => exact Or.inl rfl
  | verify old payload sig => exact Or.inl rfl
  | list => exact Or.inl rfl

theorem lookup_run {later earlier : List Op} {key : SigningKey}
    (h : (run earlier).2.keys.lookup handle = some key)
    (hfresh : ((run (later ++ earlier)).1.filterMap returned).Nodup) :
    (run (later ++ earlier)).2.keys.lookup handle = some key ∨
      (run (later ++ earlier)).2.keys.lookup handle = none := by
  -- The handle has been returned already, so no later call returns it.
  have hold : handle ∈ (run earlier).1.filterMap returned := by
    apply returned_of_live
    rw [← tracks_run earlier handle, ← AList.lookup_isSome, h]
    rfl
  have hkept : ∀ later : List Op,
      handle ∈ (run (later ++ earlier)).1.filterMap returned := by
    intro later
    induction later with
    | nil => exact hold
    | cons op later ih =>
        exact ((List.sublist_cons_self _ _).filterMap returned).subset ih
  induction later with
  | nil => exact Or.inl h
  | cons op later ih =>
      rw [List.cons_append, run_cons] at hfresh ⊢
      have hrest := hfresh.sublist ((List.sublist_cons_self _ _).filterMap returned)
      have hnew : returned ((run (later ++ earlier)).2.perform op).1 ≠ some handle := by
        intro hreturned
        rw [List.filterMap_cons_some hreturned] at hfresh
        exact (List.nodup_cons.mp hfresh).1 (hkept later)
      rcases lookup_perform op hnew with hsame | hgone
      · rw [hsame]
        exact ih hrest
      · exact Or.inr hgone

-- A signed capability, presented later with its signature on any capability.
theorem verify_signed {later earlier : List Op} {cap other : Capability}
    {signed : HsmSignedCapability} (hideal : Ed25519.Ideal)
    (hfresh : ((run (later ++ earlier)).1.filterMap returned).Nodup)
    (hsign : HsmSignedCapability.sign cap handle (run earlier).2 = .ok signed) :
    { signed with inner := other }.verify (run (later ++ earlier)).2 = .ok () ↔
      Live (run (later ++ earlier)).1 handle ∧ other.issuer = cap.issuer ∧
        other.target = cap.target ∧ other.rights = cap.rights ∧
        other.generation = cap.generation ∧ other.nonce = cap.nonce := by
  obtain ⟨sig, hsig, hpack⟩ := bind_eq_ok.mp hsign
  obtain rfl := Except.ok.inj hpack
  obtain ⟨key, hkey, rfl⟩ := signCapability_eq_ok.mp hsig
  rw [HsmSignedCapability.verify, verifyCapabilitySignature_eq_ok,
    ← tracks_run (later ++ earlier) handle, ← AList.lookup_isSome]
  rcases lookup_run hkey hfresh with hsame | hgone
  · simp [hsame, hideal key cap other, HsmSignedCapability.capPayload_inj]
  · simp [hgone]

-- The life of handles, and of what was signed under them, over whole runs.
theorem keystore_lifecycle (hideal : Ed25519.Ideal) (ops : List Op)
    (hfresh : ((run ops).1.filterMap returned).Nodup) :
    (∃ handles, (run ops).2.listKeys = .ok handles ∧ handles.Nodup ∧
      ∀ handle, handle ∈ handles ↔ Live (run ops).1 handle) ∧
    (∀ handle, Live (run ops).1 handle →
      (∀ payload, ∃ sig, (run ops).2.signCapability handle payload = .ok sig) ∧
      ∀ seed, ∃ new, ((run ops).2.rotateKey handle seed).1 = .ok new) ∧
    (∀ handle, ¬Live (run ops).1 handle →
      (∀ payload, ∃ e, (run ops).2.signCapability handle payload = .error e) ∧
      (∀ payload sig, ∃ e,
        (run ops).2.verifyCapabilitySignature handle payload sig = .error e) ∧
      ∀ seed, ∃ e, (run ops).2.rotateKey handle seed = (.error e, (run ops).2)) ∧
    ∀ (later earlier : List Op) (cap : Capability) (handle : KeyHandle)
      (signed : HsmSignedCapability), ops = later ++ earlier →
      HsmSignedCapability.sign cap handle (run earlier).2 = .ok signed →
      ∀ other : Capability, { signed with inner := other }.verify (run ops).2 = .ok () ↔
        Live (run ops).1 handle ∧ other.issuer = cap.issuer ∧ other.target = cap.target ∧
          other.rights = cap.rights ∧ other.generation = cap.generation ∧
          other.nonce = cap.nonce := by
  have htracks := tracks_run ops
  refine ⟨⟨_, rfl, (run ops).2.keys.keys_nodup, htracks⟩, fun handle hlive => ?_,
    fun handle hdead => ?_, ?_⟩
  · rw [← htracks] at hlive
    obtain ⟨key, hkey⟩ := Option.isSome_iff_exists.mp (AList.lookup_isSome.mpr hlive)
    refine ⟨fun payload => ⟨_, signCapability_eq_ok.mpr ⟨key, hkey, rfl⟩⟩, fun seed => ?_⟩
    rw [rotateKey, if_pos hlive]
    exact ⟨_, rfl⟩
  · rw [← htracks] at hdead
    exact ⟨signCapability_of_notMem hdead, verifyCapabilitySignature_of_notMem hdead,
      rotateKey_of_notMem hdead⟩
  · rintro later earlier cap handle signed rfl hsign other
    exact verify_signed hideal hfresh hsign

end SoftwareKeyStore

section

-- Signatures and digests that show their input, filled up with zeros.
def padded (width : Nat) (bytes : Bytes) : Vector UInt8 width :=
  ⟨((bytes ++ List.replicate width 0).take width).toArray, by simp⟩

theorem take_padded {width : Nat} (bytes rest : Bytes) (h : bytes.length ≤ width) :
    (padded width (bytes ++ rest)).toList.take bytes.length = bytes := by
  show (((bytes ++ rest) ++ List.replicate width 0).take width).take bytes.length = bytes
  rw [List.take_take, Nat.min_eq_left h, List.append_assoc, List.take_left]

@[reducible] def plainScheme : Ed25519 where
  verifyingKey key := key
  sign key payload := padded 64 (payload ++ key.toList)
  verifyStrict key payload sig := decide (sig = padded 64 (payload ++ key.toList))

@[reducible] def plainHash : Sha256 := ⟨padded 32⟩

attribute [local instance] plainScheme plainHash

theorem plainScheme_ideal : Ed25519.Ideal := by
  intro key cap other
  show decide (padded 64 (HsmSignedCapability.capPayload cap ++ key.toList) =
    padded 64 (HsmSignedCapability.capPayload other ++ key.toList)) = true ↔ _
  rw [decide_eq_true_eq]
  constructor
  · intro h
    have hroom (cap : Capability) : (HsmSignedCapability.capPayload cap).length ≤ 64 := by
      rw [HsmSignedCapability.length_capPayload]
      decide
    have hcap := take_padded (HsmSignedCapability.capPayload cap) key.toList (hroom cap)
    have hother := take_padded (HsmSignedCapability.capPayload other) key.toList (hroom other)
    rw [h] at hcap
    exact hother.symm.trans hcap
  · intro h
    rw [h]

-- Of two keys, the second is replaced after the first has signed.
def firstKey : SigningKey := Vector.replicate 32 1
def secondKey : SigningKey := Vector.replicate 32 2
def thirdKey : SigningKey := Vector.replicate 32 3

def secondReplaced : List Op :=
  [.rotate (SoftwareKeyStore.handleOf secondKey) thirdKey, .generate secondKey, .generate firstKey]

theorem keystore_lifecycle_secondReplaced :
    ((SoftwareKeyStore.run secondReplaced).1.filterMap returned).Nodup ∧
      ¬Live (SoftwareKeyStore.run secondReplaced).1 (SoftwareKeyStore.handleOf secondKey) ∧
      ∀ cap other : Capability, ∃ signed,
        HsmSignedCapability.sign cap (SoftwareKeyStore.handleOf firstKey)
          (SoftwareKeyStore.run [.generate firstKey]).2 = .ok signed ∧
        ({ signed with inner := other }.verify (SoftwareKeyStore.run secondReplaced).2 = .ok () ↔
          other.issuer = cap.issuer ∧ other.target = cap.target ∧ other.rights = cap.rights ∧
            other.generation = cap.generation ∧ other.nonce = cap.nonce) := by
  have hfresh : ((SoftwareKeyStore.run secondReplaced).1.filterMap returned).Nodup := by
    decide +kernel
  obtain ⟨⟨handles, hlist, -, hlive⟩, -, -, hsigned⟩ :=
    SoftwareKeyStore.keystore_lifecycle plainScheme_ideal secondReplaced hfresh
  obtain rfl := Except.ok.inj hlist
  refine ⟨hfresh, ?_, fun cap other => ?_⟩
  · rw [← hlive]
    decide +kernel
  · obtain ⟨signed, hsign⟩ : ∃ signed, HsmSignedCapability.sign cap
        (SoftwareKeyStore.handleOf firstKey) (SoftwareKeyStore.run [.generate firstKey]).2 =
          .ok signed := ⟨_, rfl⟩
    refine ⟨signed, hsign, ?_⟩
    rw [hsigned [_, _] [.generate firstKey] cap _ signed rfl hsign other, ← hlive]
    exact and_iff_right (by decide +kernel)

end

end LuxKernel.Hsm
