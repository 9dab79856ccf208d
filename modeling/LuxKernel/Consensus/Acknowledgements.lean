import LuxKernel.Consensus.NodeRuns

namespace LuxKernel.Consensus.RaftNode

open Function Heapless Replication

-- Successful replies of the leader's own term, each given by the peer it comes from
-- and the index it acknowledges, in the order in which the leader receives them.

variable {node current : RaftNode} {slots slots' : Fin MAX_PEERS → Nat} {n : Nat}
variable {reply : NodeId × Nat} {replies first second : List (NodeId × Nat)}

def acknowledge (term : Nat) (node : RaftNode) (reply : NodeId × Nat) : Option RaftNode :=
  (node.step reply.1 (.appendEntriesReply term true reply.2)).map fun result => result.2.1

def acknowledgeAll (node : RaftNode) (replies : List (NodeId × Nat)) : Option RaftNode :=
  replies.foldlM (acknowledge node.currentTerm) node

def WithinLog (node : RaftNode) (replies : List (NodeId × Nat)) : Prop :=
  ∀ reply ∈ replies, reply.1 ∈ node.peers.toList ∧ reply.2 ≤ node.logLen

-- The two orders end with the same commit index. A node that stops the process ends
-- with none.
def OrdersAgree (node : RaftNode) (first second : List (NodeId × Nat)) : Prop :=
  (node.acknowledgeAll first).map commitIndex = (node.acknowledgeAll second).map commitIndex

-- What the leader remembers of its peers after a reply: the index it carries takes
-- the place of the one before, be it larger or not.
def record (node : RaftNode) (slots : Fin MAX_PEERS → Nat) (reply : NodeId × Nat) :
    Fin MAX_PEERS → Nat :=
  match (node.peerIndex reply.1).bind slot with
  | some i => update slots i reply.2
  | none => slots

def recordings (node : RaftNode) (slots : Fin MAX_PEERS → Nat) :
    List (NodeId × Nat) → List (Fin MAX_PEERS → Nat)
  | [] => []
  | reply :: rest => node.record slots reply :: node.recordings (node.record slots reply) rest

def Committable (node : RaftNode) (slots : Fin MAX_PEERS → Nat) (n : Nat) : Prop :=
  n ≤ node.log.toList.length ∧ node.log.termAt n = some node.currentTerm ∧
    node.quorum ≤ ({ node with matchIndex := slots } : RaftNode).ackCount n

-- Some recording on the way lets the leader commit index `n`.
def Enables (node : RaftNode) (replies : List (NodeId × Nat)) (n : Nat) : Prop :=
  ∃ slots ∈ node.recordings node.matchIndex replies, node.Committable slots n

-- A reply reaches the first slot of its sender only. The slot of a peer that occurs
-- earlier in the list as well is never written.
def Reached (node : RaftNode) (k : Fin MAX_PEERS) : Prop :=
  (node.peers.toList[k.val]?).bind node.peerIndex = some k.val

instance (node : RaftNode) (k : Fin MAX_PEERS) : Decidable (node.Reached k) :=
  inferInstanceAs (Decidable (_ = _))

def reachedSlots (node : RaftNode) : Finset (Fin MAX_PEERS) := Finset.univ.filter node.Reached

def keptSlots (node : RaftNode) (n : Nat) : Finset (Fin MAX_PEERS) :=
  (node.ackSlots n).filter fun k => ¬node.Reached k

section Held

-- The slots that acknowledge index `n` when `slots` is recorded.
def held (node : RaftNode) (slots : Fin MAX_PEERS → Nat) (n : Nat) : Finset (Fin MAX_PEERS) :=
  ({ node with matchIndex := slots } : RaftNode).ackSlots n

theorem mem_held {k : Fin MAX_PEERS} :
    k ∈ node.held slots n ↔ k.val < node.peers.toList.length ∧ n ≤ slots k := by
  rw [held, ackSlots, Finset.mem_filter]
  exact and_iff_right (Finset.mem_univ k)

theorem ackCount_eq_held (node : RaftNode) (n : Nat) :
    node.ackCount n = 1 + (node.held node.matchIndex n).card := ackCount_eq node n

theorem committable_iff : node.Committable slots n ↔ n ≤ node.log.toList.length ∧
    node.log.termAt n = some node.currentTerm ∧ node.quorum ≤ 1 + (node.held slots n).card := by
  rw [Committable, ackCount_eq]
  rfl

theorem held_mono (hle : ∀ i, slots i ≤ slots' i) : node.held slots n ⊆ node.held slots' n := by
  intro k hk
  rw [mem_held] at hk ⊢
  exact ⟨hk.1, hk.2.trans (hle k)⟩

theorem held_anti {m : Nat} (hle : m ≤ n) : node.held slots n ⊆ node.held slots m := by
  intro k hk
  rw [mem_held] at hk ⊢
  exact ⟨hk.1, hle.trans hk.2⟩

theorem Committable.mono (h : node.Committable slots n) (hle : ∀ i, slots i ≤ slots' i) :
    node.Committable slots' n := by
  rw [committable_iff] at h ⊢
  have hsub : node.held slots n ⊆ node.held slots' n := held_mono hle
  have hcard := Finset.card_le_card hsub
  exact ⟨h.1, h.2.1, by omega⟩

end Held

section Recordings

variable {k : Fin MAX_PEERS}

theorem record_of_peerIndex {i : Fin MAX_PEERS} (h : node.peerIndex reply.1 = some i.val) :
    node.record slots reply = update slots i reply.2 := by
  have hslot : slot i.val = some i := slot_eq_some.mpr rfl
  simp only [record, h, Option.bind_some, hslot]

theorem held_record {i : Fin MAX_PEERS} (h : node.peerIndex reply.1 = some i.val) :
    node.held (node.record slots reply) n =
      if n ≤ reply.2 then insert i (node.held slots n) else (node.held slots n).erase i := by
  have hlt := peerIndex_lt h
  ext k
  rw [mem_held, record_of_peerIndex h]
  by_cases hk : k = i
  · subst hk
    by_cases hle : n ≤ reply.2 <;> simp [hle, hlt]
  · rw [update_of_ne hk, ← mem_held]
    by_cases hle : n ≤ reply.2 <;> simp [hle, hk]

-- A reply that repeats what is recorded, as far as index `n` goes.
theorem held_record_of_repeat {i : Fin MAX_PEERS} (h : node.peerIndex reply.1 = some i.val)
    (hrepeat : n ≤ reply.2 ↔ n ≤ slots i) :
    node.held (node.record slots reply) n = node.held slots n := by
  ext k
  rw [mem_held, mem_held, record_of_peerIndex h]
  by_cases hk : k = i
  · rw [hk, update_self, hrepeat]
  · rw [update_of_ne hk]

theorem record_cases (node : RaftNode) (slots : Fin MAX_PEERS → Nat) (reply : NodeId × Nat)
    (k : Fin MAX_PEERS) :
    node.record slots reply k = slots k ∨
      (node.peerIndex reply.1 = some k.val ∧ node.record slots reply k = reply.2) := by
  cases hidx : (node.peerIndex reply.1).bind slot with
  | none =>
      left
      simp only [record, hidx]
  | some i =>
      obtain ⟨idx, hpeer, hslot⟩ := Option.bind_eq_some_iff.mp hidx
      rw [slot_eq_some] at hslot
      subst hslot
      rw [record_of_peerIndex hpeer]
      by_cases hk : k = i
      · subst hk
        exact Or.inr ⟨hpeer, update_self k _ _⟩
      · exact Or.inl (update_of_ne hk _ _)

theorem recordings_append : node.recordings slots (first ++ second) =
    node.recordings slots first ++ node.recordings (first.foldl node.record slots) second := by
  induction first generalizing slots with
  | nil => rfl
  | cons reply rest ih =>
      rw [List.cons_append, recordings, recordings, ih, List.foldl_cons, List.cons_append]

-- What is recorded for a slot was recorded before, or one of the replies carried it.
theorem recordings_origin (h : slots' ∈ node.recordings slots replies) (k : Fin MAX_PEERS) :
    slots' k = slots k ∨
      ∃ reply ∈ replies, node.peerIndex reply.1 = some k.val ∧ slots' k = reply.2 := by
  induction replies generalizing slots with
  | nil => exact absurd h List.not_mem_nil
  | cons reply rest ih =>
      have hhead := node.record_cases slots reply k
      rcases List.mem_cons.mp h with rfl | h
      · exact hhead.imp_right fun hhead => ⟨reply, List.mem_cons_self, hhead⟩
      · rcases ih h with hsame | ⟨r, hr, hcarried⟩
        · rw [hsame]
          exact hhead.imp_right fun hhead => ⟨reply, List.mem_cons_self, hhead⟩
        · exact Or.inr ⟨r, List.mem_cons_of_mem _ hr, hcarried⟩

theorem exists_recording (hk : node.peerIndex reply.1 = some k.val) (h : reply ∈ replies) :
    ∃ slots' ∈ node.recordings slots replies, slots' k = reply.2 := by
  induction replies generalizing slots with
  | nil => exact absurd h List.not_mem_nil
  | cons r rest ih =>
      rw [recordings]
      rcases List.mem_cons.mp h with rfl | h
      · refine ⟨_, List.mem_cons_self, ?_⟩
        rw [record_of_peerIndex hk, update_self]
      · obtain ⟨slots', hmem, hslots'⟩ := ih h
        exact ⟨slots', List.mem_cons_of_mem _ hmem, hslots'⟩

theorem foldl_mem_recordings (hne : replies ≠ []) :
    replies.foldl node.record slots ∈ node.recordings slots replies := by
  induction replies generalizing slots with
  | nil => exact absurd rfl hne
  | cons reply rest ih =>
      rw [recordings, List.foldl_cons]
      by_cases hrest : rest = []
      · subst hrest
        exact List.mem_cons_self
      · exact List.mem_cons_of_mem _ (ih hrest)

theorem ne_nil_of_recordings (h : slots' ∈ node.recordings slots first)
    (hperm : first.Perm second) : second ≠ [] := by
  rintro rfl
  rw [List.perm_nil.mp hperm] at h
  exact absurd h List.not_mem_nil

theorem reached_of_peerIndex {peer : NodeId} (h : node.peerIndex peer = some k.val) :
    node.Reached k := by
  rw [Reached, (peerIndex_eq_some h).1]
  exact h

theorem Reached.exists_peer (h : node.Reached k) :
    ∃ peer ∈ node.peers.toList, node.peerIndex peer = some k.val := by
  obtain ⟨peer, hpeer, hidx⟩ := Option.bind_eq_some_iff.mp h
  exact ⟨peer, List.mem_of_getElem? hpeer, hidx⟩

theorem recordings_of_not_reached (h : slots' ∈ node.recordings slots replies)
    (hk : ¬node.Reached k) : slots' k = slots k := by
  rcases recordings_origin h k with hsame | ⟨reply, -, hidx, -⟩
  · exact hsame
  · exact absurd (reached_of_peerIndex hidx) hk

theorem keptSlots_subset_held (h : slots ∈ node.recordings node.matchIndex replies) :
    node.keptSlots n ⊆ node.held slots n := by
  intro k hk
  obtain ⟨hack, hkept⟩ := Finset.mem_filter.mp hk
  rw [mem_held, recordings_of_not_reached h hkept]
  exact mem_held.mp hack

theorem held_subset (h : slots ∈ node.recordings node.matchIndex replies) :
    node.held slots n ⊆ node.keptSlots n ∪ node.reachedSlots := by
  intro k hk
  rw [Finset.mem_union]
  by_cases hreached : node.Reached k
  · exact Or.inr (Finset.mem_filter.mpr ⟨Finset.mem_univ k, hreached⟩)
  · left
    rw [mem_held, recordings_of_not_reached h hreached] at hk
    exact Finset.mem_filter.mpr ⟨mem_held.mpr hk, hreached⟩

-- A new acknowledgement of an index comes with a reply that reaches it.
theorem mem_held_recordings (h : slots' ∈ node.recordings slots replies)
    (hk : k ∈ node.held slots' n) :
    k ∈ node.held slots n ∨
      ∃ reply ∈ replies, node.peerIndex reply.1 = some k.val ∧ n ≤ reply.2 := by
  rw [mem_held] at hk
  rcases recordings_origin h k with hsame | ⟨reply, hreply, hidx, hcarried⟩
  · left
    rw [mem_held, ← hsame]
    exact hk
  · rw [hcarried] at hk
    exact Or.inr ⟨reply, hreply, hidx, hk.2⟩

end Recordings

section Run

-- The leader `current` differs from `node` at most in what its peers acknowledge and in
-- how far it has committed.
structure Alike (node current : RaftNode) : Prop where
  role : current.role = .leader
  term : current.currentTerm = node.currentTerm
  log : current.log = node.log
  peers : current.peers = node.peers

theorem acknowledge_eq (h : Alike node current) (hmem : reply.1 ∈ node.peers.toList)
    (hack : reply.2 ≤ node.logLen) (hbound : current.commitIndex + 1 < 2 ^ 64) :
    ∃ next, acknowledge node.currentTerm current reply = some next ∧ Alike node next ∧
      next.matchIndex = node.record current.matchIndex reply ∧
      current.commitIndex ≤ next.commitIndex ∧
      (next.commitIndex = current.commitIndex ∨
        node.Committable next.matchIndex next.commitIndex) ∧
      ∀ k, node.Committable next.matchIndex k → k ≤ next.commitIndex := by
  have hcap : node.log.toList.length ≤ 256 := node.log.length_le
  have hlen := node.logLen_eq
  have hreturns : current.onAeReply reply.1 current.currentTerm true reply.2 ≠ none := by
    rw [ne_eq, onAeReply_eq_none]
    omega
  obtain ⟨⟨committed, next⟩, hreply⟩ := Option.ne_none_iff_exists'.mp hreturns
  rw [← h.peers] at hmem
  obtain ⟨i, hi⟩ := peerIndex_ne_none hmem
  obtain ⟨c, hnext, hcommit, hmax⟩ := onAeReply_success h.role hi hreply
  have hstep := step_appendEntriesReply.mpr ⟨rfl, hreply⟩
  have hi' : node.peerIndex reply.1 = some i.val := by
    rw [← hi, peerIndex, peerIndex, h.peers]
  have hcount : ∀ k, (current.acknowledged i reply.2).ackCount k =
      ({ node with matchIndex := update current.matchIndex i reply.2 } : RaftNode).ackCount k := by
    intro k
    simp only [ackCount, acknowledged, h.peers]
  have hquorum : current.quorum = node.quorum := by rw [quorum, quorum, h.peers]
  have hmatch : next.matchIndex = update current.matchIndex i reply.2 := by
    rw [hnext]
    rfl
  have hc : next.commitIndex = c := by rw [hnext]
  simp only [hcount, hquorum, h.log, h.term] at hcommit hmax
  have hle : current.commitIndex ≤ c := by omega
  refine ⟨next, ?_, ?_, ?_, ?_, ?_, ?_⟩
  · rw [acknowledge, ← h.term, hstep]
    rfl
  · rw [hnext]
    exact ⟨h.role, h.term, h.log, h.peers⟩
  · rw [record_of_peerIndex hi', hmatch]
  · rw [hc]
    exact hle
  · rw [hc, hmatch]
    rcases hcommit with ⟨hsame, -⟩ | ⟨-, hwithin, hterm, hacked, -⟩
    · exact Or.inl hsame
    · exact Or.inr ⟨hwithin, hterm, hacked⟩
  · rw [hc, hmatch]
    rintro k ⟨hwithin, hterm, hacked⟩
    by_cases hk : current.commitIndex < k
    · exact hmax k hk hwithin hterm hacked
    · omega

-- Where the leader ends is settled by what it records on the way: the furthest index
-- that some recording lets it commit.
theorem foldlM_acknowledge (h : Alike node current) (hin : node.WithinLog replies)
    (hbound : current.commitIndex + 1 < 2 ^ 64) :
    ∃ final, replies.foldlM (acknowledge node.currentTerm) current = some final ∧
      current.commitIndex ≤ final.commitIndex ∧
      (final.commitIndex = current.commitIndex ∨
        ∃ slots ∈ node.recordings current.matchIndex replies,
          node.Committable slots final.commitIndex) ∧
      ∀ slots ∈ node.recordings current.matchIndex replies,
        ∀ k, node.Committable slots k → k ≤ final.commitIndex := by
  induction replies generalizing current with
  | nil =>
      refine ⟨current, rfl, Nat.le_refl _, Or.inl rfl, ?_⟩
      intro slots hslots
      exact absurd hslots List.not_mem_nil
  | cons reply rest ih =>
      obtain ⟨hmem, hack⟩ := hin reply List.mem_cons_self
      obtain ⟨next, hnext, halike, hmatch, hle, hcommit, hmax⟩ :=
        acknowledge_eq h hmem hack hbound
      have hcap : node.log.toList.length ≤ 256 := node.log.length_le
      have hbound' : next.commitIndex + 1 < 2 ^ 64 := by
        rcases hcommit with hsame | hcommit
        · omega
        · have := hcommit.1
          omega
      obtain ⟨final, hfinal, hle', hcommit', hmax'⟩ :=
        ih halike (fun r hr => hin r (List.mem_cons_of_mem _ hr)) hbound'
      rw [hmatch] at hcommit hmax hcommit' hmax'
      refine ⟨final, ?_, hle.trans hle', ?_, ?_⟩
      · rw [List.foldlM_cons, hnext]
        exact hfinal
      · rw [recordings]
        rcases hcommit' with hsame | ⟨slots, hslots, hcommit'⟩
        · rw [hsame]
          apply hcommit.imp_right
          intro hcommit
          exact ⟨_, List.mem_cons_self, hcommit⟩
        · exact Or.inr ⟨slots, List.mem_cons_of_mem _ hslots, hcommit'⟩
      · rw [recordings]
        intro slots hslots k hk
        rcases List.mem_cons.mp hslots with rfl | hslots
        · exact (hmax k hk).trans hle'
        · exact hmax' slots hslots k hk

-- A leader whose commit index is the last number stops at its first reply.
theorem foldlM_acknowledge_eq_none (hlead : node.role = .leader) (hin : node.WithinLog replies)
    (hne : replies ≠ []) (hbound : 2 ^ 64 ≤ node.commitIndex + 1) :
    node.acknowledgeAll replies = none := by
  obtain ⟨reply, rest, rfl⟩ := List.exists_cons_of_ne_nil hne
  have hstops : node.onAeReply reply.1 node.currentTerm true reply.2 = none :=
    onAeReply_eq_none.mpr
      ⟨hlead, rfl, (hin reply List.mem_cons_self).1, rfl, Or.inr hbound⟩
  simp [acknowledgeAll, acknowledge, step, hstops]

theorem withinLog_of_perm (hin : node.WithinLog first) (hperm : first.Perm second) :
    node.WithinLog second := fun reply hreply => hin reply (hperm.mem_iff.mpr hreply)

theorem ordersAgree_of_enables (hlead : node.role = .leader) (hin : node.WithinLog first)
    (hperm : first.Perm second)
    (h : ∀ n, node.commitIndex < n → (node.Enables first n ↔ node.Enables second n)) :
    node.OrdersAgree first second := by
  have hin' := withinLog_of_perm hin hperm
  rw [OrdersAgree]
  by_cases hbound : node.commitIndex + 1 < 2 ^ 64
  · have halike : Alike node node := ⟨hlead, rfl, rfl, rfl⟩
    obtain ⟨final, hfinal, hle, hcommit, hmax⟩ := foldlM_acknowledge halike hin hbound
    obtain ⟨final', hfinal', hle', hcommit', hmax'⟩ := foldlM_acknowledge halike hin' hbound
    rw [acknowledgeAll, acknowledgeAll, hfinal, hfinal', Option.map_some, Option.map_some]
    congr 1
    apply Nat.le_antisymm
    · by_cases hlt : node.commitIndex < final.commitIndex
      · have henables := hcommit.resolve_left (by omega)
        obtain ⟨slots, hslots, hcommit⟩ := (h _ hlt).mp henables
        exact hmax' slots hslots _ hcommit
      · omega
    · by_cases hlt : node.commitIndex < final'.commitIndex
      · have henables := hcommit'.resolve_left (by omega)
        obtain ⟨slots, hslots, hcommit⟩ := (h _ hlt).mpr henables
        exact hmax slots hslots _ hcommit
      · omega
  · by_cases hnil : first = []
    · subst hnil
      rw [List.nil_perm.mp hperm]
    · have hnil' : second ≠ [] := by
        rintro rfl
        exact hnil (List.perm_nil.mp hperm)
      have hover : 2 ^ 64 ≤ node.commitIndex + 1 := by omega
      rw [foldlM_acknowledge_eq_none hlead hin hnil hover,
        foldlM_acknowledge_eq_none hlead hin' hnil' hover]

-- One order lets the leader commit an index for which the other has too few
-- acknowledgements all the way.
theorem not_ordersAgree (hlead : node.role = .leader) (hin : node.WithinLog first)
    (hperm : first.Perm second) (hlt : node.commitIndex < n) (hfirst : node.Enables first n)
    (hsecond : ∀ slots ∈ node.recordings node.matchIndex second,
      1 + (node.held slots n).card < node.quorum) : ¬node.OrdersAgree first second := by
  obtain ⟨slots, hslots, henabled⟩ := hfirst
  have hcap : node.log.toList.length ≤ 256 := node.log.length_le
  have hlen := henabled.1
  have hbound : node.commitIndex + 1 < 2 ^ 64 := by omega
  have halike : Alike node node := ⟨hlead, rfl, rfl, rfl⟩
  obtain ⟨final, hfinal, -, -, hmax⟩ := foldlM_acknowledge halike hin hbound
  obtain ⟨final', hfinal', -, hcommit', -⟩ :=
    foldlM_acknowledge halike (withinLog_of_perm hin hperm) hbound
  have hfound := hmax slots hslots n henabled
  have hhidden : final'.commitIndex < n := by
    rcases hcommit' with hsame | ⟨slots', hslots', hcommit'⟩
    · omega
    · by_contra hle
      have hsub : node.held slots' final'.commitIndex ⊆ node.held slots' n :=
        held_anti (Nat.not_lt.mp hle)
      have hcard := Finset.card_le_card hsub
      have hquorum := (committable_iff.mp hcommit').2.2
      have hfew := hsecond slots' hslots'
      omega
  rw [OrdersAgree, acknowledgeAll, acknowledgeAll, hfinal, hfinal', Option.map_some,
    Option.map_some, Option.some.injEq]
  omega

end Run

end LuxKernel.Consensus.RaftNode
