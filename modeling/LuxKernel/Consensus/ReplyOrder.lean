import LuxKernel.Consensus.Acknowledgements

namespace LuxKernel.Consensus.RaftNode

open Function Heapless Replication

-- Whether the order of the replies to a leader matters.

variable {node : RaftNode} {slots slots' : Fin MAX_PEERS → Nat} {n : Nat}
variable {reply : NodeId × Nat} {replies first second : List (NodeId × Nat)}

-- No reply goes below what is recorded for its sender when it arrives.
def Ascending (node : RaftNode) (slots : Fin MAX_PEERS → Nat) : List (NodeId × Nat) → Prop
  | [] => True
  | reply :: rest =>
      (∀ i : Fin MAX_PEERS, node.peerIndex reply.1 = some i.val → slots i ≤ reply.2) ∧
        node.Ascending (node.record slots reply) rest

-- The acknowledgements of index `n` that no reply can withdraw, the leader's own included.
def keptCount (node : RaftNode) (n : Nat) : Nat := 1 + (node.keptSlots n).card

-- Index `n` cannot be committed whatever arrives, or it is at the first reply whichever
-- that is, or it is with the first reply that acknowledges it.
def Decided (node : RaftNode) (n : Nat) : Prop :=
  node.keptCount n + node.reachedSlots.card < node.quorum ∨
    node.quorum ≤ node.keptCount n ∨ node.quorum < node.ackCount n ∨
    (node.ackCount n < node.quorum ∧ node.quorum = node.keptCount n + 1)

section OnePeer

-- A single peer has a single slot, and what was recorded there before is gone after
-- each reply.
theorem recordings_of_one_slot {i : Fin MAX_PEERS}
    (h : ∀ reply ∈ replies, node.peerIndex reply.1 = some i.val) :
    node.recordings slots replies = replies.map fun reply => update slots i reply.2 := by
  induction replies generalizing slots with
  | nil => rfl
  | cons reply rest ih =>
      have hrest := fun r hr => h r (List.mem_cons_of_mem _ hr)
      rw [recordings, record_of_peerIndex (h reply List.mem_cons_self), ih hrest, List.map_cons]
      simp only [update_idem]

theorem ordersAgree_of_one_peer (hlead : node.role = .leader) (hin : node.WithinLog first)
    (hperm : first.Perm second) (hone : ∀ p ∈ node.peers.toList, ∀ q ∈ node.peers.toList, p = q) :
    node.OrdersAgree first second := by
  cases first with
  | nil => rw [List.nil_perm.mp hperm, OrdersAgree]
  | cons reply rest =>
      have hmem := (hin reply List.mem_cons_self).1
      obtain ⟨i, hi⟩ := peerIndex_ne_none hmem
      have hslot : ∀ r ∈ reply :: rest, node.peerIndex r.1 = some i.val := by
        intro r hr
        rw [hone r.1 (hin r hr).1 reply.1 hmem, hi]
      have hslot' : ∀ r ∈ second, node.peerIndex r.1 = some i.val :=
        fun r hr => hslot r (hperm.mem_iff.mpr hr)
      have hrec := hperm.map fun reply => update node.matchIndex i reply.2
      rw [← recordings_of_one_slot hslot, ← recordings_of_one_slot hslot'] at hrec
      apply ordersAgree_of_enables hlead hin hperm
      intro n _
      constructor
      · rintro ⟨slots, hslots, hn⟩
        exact ⟨slots, hrec.mem_iff.mp hslots, hn⟩
      · rintro ⟨slots, hslots, hn⟩
        exact ⟨slots, hrec.mem_iff.mpr hslots, hn⟩

end OnePeer

section Ascending

theorem le_record (hmem : reply.1 ∈ node.peers.toList)
    (h : ∀ i : Fin MAX_PEERS, node.peerIndex reply.1 = some i.val → slots i ≤ reply.2)
    (i : Fin MAX_PEERS) : slots i ≤ node.record slots reply i := by
  obtain ⟨j, hj⟩ := peerIndex_ne_none hmem
  rw [record_of_peerIndex hj]
  by_cases hij : i = j
  · subst hij
    rw [update_self]
    exact h i hj
  · rw [update_of_ne hij]

-- In an ascending order the last recording is, for each peer, the furthest of what was
-- recorded at first and of the indices of its replies.
theorem foldl_record (hin : node.WithinLog replies) (hasc : node.Ascending slots replies)
    (i : Fin MAX_PEERS) :
    slots i ≤ replies.foldl node.record slots i ∧
      (∀ reply ∈ replies, node.peerIndex reply.1 = some i.val →
        reply.2 ≤ replies.foldl node.record slots i) ∧
      (replies.foldl node.record slots i = slots i ∨ ∃ reply ∈ replies,
        node.peerIndex reply.1 = some i.val ∧ replies.foldl node.record slots i = reply.2) := by
  induction replies generalizing slots with
  | nil => exact ⟨Nat.le_refl _, fun _ hr => absurd hr List.not_mem_nil, Or.inl rfl⟩
  | cons reply rest ih =>
      obtain ⟨hge, hasc⟩ := hasc
      have hmem := (hin reply List.mem_cons_self).1
      obtain ⟨j, hj⟩ := peerIndex_ne_none hmem
      obtain ⟨hle, hall, hlast⟩ := ih (fun r hr => hin r (List.mem_cons_of_mem _ hr)) hasc
      rw [List.foldl_cons]
      have hself : node.peerIndex reply.1 = some i.val → node.record slots reply i = reply.2 := by
        intro hi
        rw [record_of_peerIndex hi, update_self]
      refine ⟨(le_record hmem hge i).trans hle, ?_, ?_⟩
      · intro r hr hri
        rcases List.mem_cons.mp hr with rfl | hr
        · rw [← hself hri]
          exact hle
        · exact hall r hr hri
      · rcases hlast with hsame | ⟨r, hr, hri, hlast⟩
        · by_cases hi : node.peerIndex reply.1 = some i.val
          · right
            exact ⟨reply, List.mem_cons_self, hi, hsame.trans (hself hi)⟩
          · left
            have hij : i ≠ j := by
              rintro rfl
              exact hi hj
            rw [hsame, record_of_peerIndex hj, update_of_ne hij]
        · exact Or.inr ⟨r, List.mem_cons_of_mem _ hr, hri, hlast⟩

theorem foldl_record_le_of_perm (hin : node.WithinLog first) (hperm : first.Perm second)
    (hfirst : node.Ascending slots first) (hsecond : node.Ascending slots second)
    (i : Fin MAX_PEERS) :
    first.foldl node.record slots i ≤ second.foldl node.record slots i := by
  have hin' : node.WithinLog second := fun reply hreply => hin reply (hperm.mem_iff.mpr hreply)
  obtain ⟨-, -, hlast⟩ := foldl_record hin hfirst i
  obtain ⟨hle, hall, -⟩ := foldl_record hin' hsecond i
  rcases hlast with hsame | ⟨reply, hreply, hi, hlast⟩
  · omega
  · rw [hlast]
    exact hall reply (hperm.mem_iff.mp hreply) hi

theorem recordings_le_foldl (hin : node.WithinLog replies) (hasc : node.Ascending slots replies)
    (hmem : slots' ∈ node.recordings slots replies) (i : Fin MAX_PEERS) :
    slots' i ≤ replies.foldl node.record slots i := by
  induction replies generalizing slots with
  | nil => exact absurd hmem List.not_mem_nil
  | cons reply rest ih =>
      have hin' : node.WithinLog rest := fun r hr => hin r (List.mem_cons_of_mem _ hr)
      rcases List.mem_cons.mp hmem with rfl | hmem
      · exact (foldl_record hin' hasc.2 i).1
      · exact ih hin' hasc.2 hmem

-- What one ascending order lets the leader commit, the last recording of any other does.
theorem enables_of_perm (hin : node.WithinLog first) (hperm : first.Perm second)
    (hfirst : node.Ascending node.matchIndex first)
    (hsecond : node.Ascending node.matchIndex second) (h : node.Enables first n) :
    node.Enables second n := by
  obtain ⟨slots, hslots, h⟩ := h
  have hne := ne_nil_of_recordings hslots hperm
  refine ⟨second.foldl node.record node.matchIndex, foldl_mem_recordings hne, h.mono ?_⟩
  intro i
  calc slots i ≤ first.foldl node.record node.matchIndex i := recordings_le_foldl hin hfirst hslots i
    _ ≤ second.foldl node.record node.matchIndex i :=
      foldl_record_le_of_perm hin hperm hfirst hsecond i

theorem ordersAgree_of_ascending (hlead : node.role = .leader) (hin : node.WithinLog first)
    (hperm : first.Perm second) (hfirst : node.Ascending node.matchIndex first)
    (hsecond : node.Ascending node.matchIndex second) : node.OrdersAgree first second := by
  apply ordersAgree_of_enables hlead hin hperm
  intro n _
  constructor
  · exact enables_of_perm hin hperm hfirst hsecond
  · exact enables_of_perm (withinLog_of_perm hin hperm) hperm.symm hsecond hfirst

end Ascending

section Decided

theorem card_kept_union {S : Finset (Fin MAX_PEERS)} (hS : ∀ k ∈ S, node.Reached k) :
    1 + (node.keptSlots n ∪ S).card = node.keptCount n + S.card := by
  have hdisjoint : Disjoint (node.keptSlots n) S := by
    rw [Finset.disjoint_left]
    intro k hk hkS
    exact (Finset.mem_filter.mp hk).2 (hS k hkS)
  rw [Finset.card_union_of_disjoint hdisjoint, keptCount]
  omega

theorem enables_of_spare (hin : node.WithinLog replies) (hne : replies ≠ [])
    (hlen : n ≤ node.log.toList.length) (hterm : node.log.termAt n = some node.currentTerm)
    (hspare : node.quorum < node.ackCount n) : node.Enables replies n := by
  obtain ⟨reply, rest, rfl⟩ := List.exists_cons_of_ne_nil hne
  obtain ⟨i, hi⟩ := peerIndex_ne_none (hin reply List.mem_cons_self).1
  have hsub : (node.held node.matchIndex n).erase i ⊆
      node.held (node.record node.matchIndex reply) n := by
    rw [held_record hi]
    split
    · exact (Finset.erase_subset i _).trans (Finset.subset_insert i _)
    · exact Finset.Subset.refl _
  have hcard := Finset.card_le_card hsub
  have herase : (node.held node.matchIndex n).card - 1 ≤
      ((node.held node.matchIndex n).erase i).card := Finset.pred_card_le_card_erase
  have hcount := node.ackCount_eq_held n
  refine ⟨_, List.mem_cons_self, committable_iff.mpr ⟨hlen, hterm, ?_⟩⟩
  omega

-- If one more acknowledgement suffices, the reply that brings it is enough.
theorem enables_of_last (hin : node.WithinLog replies) (hlen : n ≤ node.log.toList.length)
    (hterm : node.log.termAt n = some node.currentTerm) (hmem : reply ∈ replies)
    (hack : n ≤ reply.2) (hlast : node.quorum = node.keptCount n + 1) :
    node.Enables replies n := by
  obtain ⟨i, hi⟩ := peerIndex_ne_none (hin reply hmem).1
  obtain ⟨slots, hslots, hcarried⟩ := exists_recording hi hmem
  have hreached : ∀ k ∈ ({i} : Finset (Fin MAX_PEERS)), node.Reached k := by
    intro k hk
    rw [Finset.mem_singleton.mp hk]
    exact reached_of_peerIndex hi
  have hsub : node.keptSlots n ∪ {i} ⊆ node.held slots n := by
    apply Finset.union_subset (keptSlots_subset_held hslots)
    rw [Finset.singleton_subset_iff, mem_held, hcarried]
    exact ⟨peerIndex_lt hi, hack⟩
  have hcard := Finset.card_le_card hsub
  have hunion : 1 + (node.keptSlots n ∪ {i}).card = node.keptCount n + 1 :=
    card_kept_union hreached
  refine ⟨slots, hslots, committable_iff.mpr ⟨hlen, hterm, ?_⟩⟩
  omega

theorem exists_ack_of_enables (h : node.Enables replies n) (hopen : node.ackCount n < node.quorum) :
    ∃ reply ∈ replies, n ≤ reply.2 := by
  obtain ⟨slots, hslots, hcommit⟩ := h
  by_contra hnone
  have hsub : node.held slots n ⊆ node.held node.matchIndex n := by
    intro k hk
    rcases mem_held_recordings hslots hk with hk | ⟨reply, hreply, -, hack⟩
    · exact hk
    · exact absurd ⟨reply, hreply, hack⟩ hnone
  have hcard := Finset.card_le_card hsub
  have hquorum := (committable_iff.mp hcommit).2.2
  have hcount := node.ackCount_eq_held n
  omega

theorem enables_of_decided (hin : node.WithinLog first) (hperm : first.Perm second)
    (hn : node.Decided n) (h : node.Enables first n) : node.Enables second n := by
  have hin' := withinLog_of_perm hin hperm
  have henables := h
  obtain ⟨slots, hslots, hcommit⟩ := h
  obtain ⟨hlen, hterm, hquorum⟩ := committable_iff.mp hcommit
  have hne := ne_nil_of_recordings hslots hperm
  rcases hn with hnever | halways | hspare | ⟨hopen, hlast⟩
  · have hsub : node.held slots n ⊆ node.keptSlots n ∪ node.reachedSlots := held_subset hslots
    have hunion : 1 + (node.keptSlots n ∪ node.reachedSlots).card =
        node.keptCount n + node.reachedSlots.card := card_kept_union (by simp [reachedSlots])
    have hcard := Finset.card_le_card hsub
    omega
  · have hmem : second.foldl node.record node.matchIndex ∈
        node.recordings node.matchIndex second := foldl_mem_recordings hne
    refine ⟨_, hmem, committable_iff.mpr ⟨hlen, hterm, halways.trans ?_⟩⟩
    exact Nat.add_le_add_left (Finset.card_le_card (keptSlots_subset_held hmem)) 1
  · exact enables_of_spare hin' hne hlen hterm hspare
  · obtain ⟨reply, hreply, hack⟩ := exists_ack_of_enables henables hopen
    exact enables_of_last hin' hlen hterm (hperm.mem_iff.mp hreply) hack hlast

theorem ordersAgree_of_decided (hlead : node.role = .leader) (hin : node.WithinLog first)
    (hperm : first.Perm second)
    (h : ∀ n, node.commitIndex < n → n ≤ node.logLen →
      node.log.termAt n = some node.currentTerm → node.Decided n) :
    node.OrdersAgree first second := by
  apply ordersAgree_of_enables hlead hin hperm
  have hlen := node.logLen_eq
  intro n hlt
  have hdecided : ∀ replies, node.Enables replies n → node.Decided n := by
    rintro replies ⟨slots, -, hwithin, hterm, -⟩
    exact h n hlt (by omega) hterm
  constructor
  · intro henables
    exact enables_of_decided hin hperm (hdecided first henables) henables
  · intro henables
    exact enables_of_decided (withinLog_of_perm hin hperm) hperm.symm
      (hdecided second henables) henables

end Decided

section Undecided

variable {p q : NodeId} {i j : Fin MAX_PEERS}

theorem withinLog_pair {u v : Nat} (hp : p ∈ node.peers.toList) (hu : u ≤ node.logLen)
    (hq : q ∈ node.peers.toList) (hv : v ≤ node.logLen) : node.WithinLog [(p, u), (q, v)] := by
  intro reply hreply
  have hcases : reply = (p, u) ∨ reply = (q, v) := by simpa using hreply
  rcases hcases with rfl | rfl
  · exact ⟨hp, hu⟩
  · exact ⟨hq, hv⟩

-- As many acknowledge the index as are needed: a reply that withdraws one of them hides
-- it, a reply that changes nothing finds it.
theorem not_ordersAgree_of_exact (hlead : node.role = .leader) (hlt : node.commitIndex < n)
    (hlen : n ≤ node.log.toList.length) (hterm : node.log.termAt n = some node.currentTerm)
    (hexact : node.ackCount n = node.quorum) (hp : p ∈ node.peers.toList)
    (hq : q ∈ node.peers.toList) (hi : node.peerIndex p = some i.val)
    (hj : node.peerIndex q = some j.val) (hij : i ≠ j) (hheld : i ∈ node.ackSlots n) :
    ∃ first second, node.WithinLog first ∧ first.Perm second ∧ ¬node.OrdersAgree first second := by
  have hlog := node.logLen_eq
  have hcount := node.ackCount_eq_held n
  have hheld : i ∈ node.held node.matchIndex n := hheld
  obtain ⟨v, hv, hrepeat⟩ : ∃ v ≤ n, (n ≤ v ↔ n ≤ node.matchIndex j) := by
    by_cases hjn : n ≤ node.matchIndex j
    · exact ⟨n, Nat.le_refl n, by simp [hjn]⟩
    · exact ⟨0, Nat.zero_le n, by omega⟩
  have hin : node.WithinLog [(q, v), (p, 0)] := withinLog_pair hq (by omega) hp (Nat.zero_le _)
  have hperm : [(q, v), (p, 0)].Perm [(p, 0), (q, v)] := List.Perm.swap _ _ _
  refine ⟨_, _, hin, hperm, not_ordersAgree hlead hin hperm hlt ?_ ?_⟩
  · refine ⟨_, List.mem_cons_self, committable_iff.mpr ⟨hlen, hterm, ?_⟩⟩
    rw [held_record_of_repeat hj hrepeat]
    omega
  · have hfirst : node.held (node.record node.matchIndex (p, 0)) n =
        (node.held node.matchIndex n).erase i := by
      rw [held_record hi, if_neg (by omega)]
    have hsecond : node.held (node.record (node.record node.matchIndex (p, 0)) (q, v)) n =
        (node.held node.matchIndex n).erase i := by
      rw [held_record_of_repeat hj, hfirst]
      rw [record_of_peerIndex hi, update_of_ne hij.symm]
      exact hrepeat
    intro slots hslots
    have hwithdrawn : node.held slots n = (node.held node.matchIndex n).erase i := by
      simp only [recordings, List.mem_cons, List.not_mem_nil, or_false] at hslots
      rcases hslots with rfl | rfl
      · exact hfirst
      · exact hsecond
    have hpos := Finset.card_pos.mpr ⟨i, hheld⟩
    rw [hwithdrawn, Finset.card_erase_of_mem hheld]
    omega

-- The same reply from the peers of several slots.
def replyFrom (peer : Fin MAX_PEERS → NodeId) (ks : List (Fin MAX_PEERS)) (v : Nat) :
    List (NodeId × Nat) := ks.map fun k => (peer k, v)

section ReplyFrom

variable {peer : Fin MAX_PEERS → NodeId} {ks : List (Fin MAX_PEERS)} {v : Nat}

theorem foldl_replyFrom (h : ∀ k ∈ ks, node.peerIndex (peer k) = some k.val) (k : Fin MAX_PEERS) :
    (replyFrom peer ks v).foldl node.record slots k = if k ∈ ks then v else slots k := by
  induction ks generalizing slots with
  | nil => simp [replyFrom]
  | cons a rest ih =>
      have hrest := fun k hk => h k (List.mem_cons_of_mem a hk)
      have ha : node.record slots (peer a, v) = update slots a v :=
        record_of_peerIndex (h a List.mem_cons_self)
      rw [replyFrom, List.map_cons, List.foldl_cons, ← replyFrom, ih hrest, ha]
      by_cases hk : k ∈ rest
      · rw [if_pos hk, if_pos (List.mem_cons_of_mem a hk)]
      · rw [if_neg hk]
        by_cases hka : k = a
        · rw [hka, update_self, if_pos List.mem_cons_self]
        · rw [update_of_ne hka, if_neg (by simp [hk, hka])]

theorem mem_of_mem_held_replyFrom (h : ∀ k ∈ ks, node.peerIndex (peer k) = some k.val)
    (hslots : slots' ∈ node.recordings slots (replyFrom peer ks v)) {k : Fin MAX_PEERS}
    (hk : k ∈ node.held slots' n) : k ∈ node.held slots n ∨ (k ∈ ks ∧ n ≤ v) := by
  rcases mem_held_recordings hslots hk with hk | ⟨reply, hreply, hidx, hack⟩
  · exact Or.inl hk
  · obtain ⟨a, ha, rfl⟩ := List.mem_map.mp hreply
    have hka : a.val = k.val := by
      rw [h a ha] at hidx
      exact Option.some.inj hidx
    rw [← Fin.ext hka]
    exact Or.inr ⟨ha, hack⟩

theorem withinLog_replyFrom (h : ∀ k ∈ ks, peer k ∈ node.peers.toList) (hv : v ≤ node.logLen) :
    node.WithinLog (replyFrom peer ks v) := by
  intro reply hreply
  obtain ⟨k, hk, rfl⟩ := List.mem_map.mp hreply
  exact ⟨h k hk, hv⟩

end ReplyFrom

theorem withinLog_append (hfirst : node.WithinLog first) (hsecond : node.WithinLog second) :
    node.WithinLog (first ++ second) := by
  intro reply hreply
  rcases List.mem_append.mp hreply with h | h
  · exact hfirst reply h
  · exact hsecond reply h

section Withdrawal

-- All peers withdraw what they acknowledge. Then those of `s` and `rest` acknowledge
-- index `n`, just enough of them, but the peer of `s` withdraws once more: before, or
-- as soon as it has acknowledged.
variable {peer : Fin MAX_PEERS → NodeId} {s : Fin MAX_PEERS} {rest : List (Fin MAX_PEERS)}
variable {all : List (Fin MAX_PEERS)}

def early (peer : Fin MAX_PEERS → NodeId) (all : List (Fin MAX_PEERS)) (s : Fin MAX_PEERS)
    (rest : List (Fin MAX_PEERS)) (n : Nat) : List (NodeId × Nat) :=
  replyFrom peer all 0 ++ ((peer s, 0) :: (peer s, n) :: replyFrom peer rest n)

def late (peer : Fin MAX_PEERS → NodeId) (all : List (Fin MAX_PEERS)) (s : Fin MAX_PEERS)
    (rest : List (Fin MAX_PEERS)) (n : Nat) : List (NodeId × Nat) :=
  replyFrom peer all 0 ++ ((peer s, n) :: (peer s, 0) :: replyFrom peer rest n)

theorem early_perm_late : (early peer all s rest n).Perm (late peer all s rest n) :=
  (List.Perm.swap _ _ _).append_left _

theorem withinLog_early (hpeer : ∀ k, node.Reached k → peer k ∈ node.peers.toList)
    (hall : ∀ k ∈ all, node.Reached k) (hs : node.Reached s) (hrest : ∀ k ∈ rest, node.Reached k)
    (hn : n ≤ node.logLen) : node.WithinLog (early peer all s rest n) := by
  apply withinLog_append
  · exact withinLog_replyFrom (fun k hk => hpeer k (hall k hk)) (Nat.zero_le _)
  · have hpair : node.WithinLog [(peer s, 0), (peer s, n)] :=
      withinLog_pair (hpeer s hs) (Nat.zero_le _) (hpeer s hs) hn
    exact withinLog_append hpair (withinLog_replyFrom (fun k hk => hpeer k (hrest k hk)) hn)

variable (hpeer : ∀ k, node.Reached k → node.peerIndex (peer k) = some k.val)
include hpeer

theorem held_withdrawn (hn : 0 < n) (hall : ∀ k, k ∈ all ↔ node.Reached k) :
    node.held ((replyFrom peer all 0).foldl node.record node.matchIndex) n ⊆ node.keptSlots n := by
  intro k hk
  rw [mem_held, foldl_replyFrom fun k hk => hpeer k ((hall k).mp hk)] at hk
  by_cases hka : k ∈ all
  · rw [if_pos hka] at hk
    omega
  · rw [if_neg hka] at hk
    exact Finset.mem_filter.mpr ⟨mem_held.mpr hk, fun hreached => hka ((hall k).mpr hreached)⟩

theorem enables_early (hs : node.Reached s) (hrest : ∀ k ∈ rest, node.Reached k)
    (hlen : n ≤ node.log.toList.length) (hterm : node.log.termAt n = some node.currentTerm)
    {S : Finset (Fin MAX_PEERS)} (hS : ∀ k ∈ S, k = s ∨ k ∈ rest)
    (hquorum : node.quorum ≤ node.keptCount n + S.card) :
    node.Enables (early peer all s rest n) n := by
  have hreached : ∀ k ∈ S, node.Reached k := by
    intro k hk
    rcases hS k hk with rfl | hk
    · exact hs
    · exact hrest k hk
  have hmem : (early peer all s rest n).foldl node.record node.matchIndex ∈
      node.recordings node.matchIndex (early peer all s rest n) :=
    foldl_mem_recordings (by simp [early])
  have hlast : ∀ k ∈ S, (early peer all s rest n).foldl node.record node.matchIndex k = n := by
    intro k hk
    rw [early, List.foldl_append, List.foldl_cons, List.foldl_cons,
      foldl_replyFrom fun k hk => hpeer k (hrest k hk)]
    rcases hS k hk with rfl | hk
    · rw [record_of_peerIndex (hpeer k hs), update_self, ite_self]
    · rw [if_pos hk]
  have hsub : node.keptSlots n ∪ S ⊆
      node.held ((early peer all s rest n).foldl node.record node.matchIndex) n := by
    apply Finset.union_subset (keptSlots_subset_held hmem)
    intro k hk
    have hidx := hpeer k (hreached k hk)
    rw [mem_held, hlast k hk]
    exact ⟨peerIndex_lt hidx, Nat.le_refl n⟩
  have hcard := Finset.card_le_card hsub
  have hunion := card_kept_union (n := n) hreached
  refine ⟨_, hmem, committable_iff.mpr ⟨hlen, hterm, ?_⟩⟩
  omega

theorem held_late (hn : 0 < n) (hall : ∀ k, k ∈ all ↔ node.Reached k) (hs : node.Reached s)
    (hrest : ∀ k ∈ rest, node.Reached k)
    (h : slots ∈ node.recordings node.matchIndex (late peer all s rest n)) :
    node.held slots n ⊆ node.held node.matchIndex n ∨
      node.held slots n ⊆ node.keptSlots n ∪ {s} ∨
      node.held slots n ⊆ node.keptSlots n ∪ rest.toFinset := by
  have hkept := held_withdrawn hpeer hn hall
  have hsn : node.peerIndex (peer s, n).1 = some s.val := hpeer s hs
  have hs0 : node.peerIndex (peer s, 0).1 = some s.val := hpeer s hs
  rw [late, recordings_append, List.mem_append, recordings, recordings, List.mem_cons,
    List.mem_cons] at h
  generalize (replyFrom peer all 0).foldl node.record node.matchIndex = withdrawn at h hkept
  have hacked : node.held (node.record withdrawn (peer s, n)) n = insert s (node.held withdrawn n) := by
    rw [held_record hsn, if_pos (Nat.le_refl n)]
  have hagain : node.held (node.record (node.record withdrawn (peer s, n)) (peer s, 0)) n ⊆
      node.keptSlots n := by
    rw [held_record hs0, if_neg (by omega), hacked]
    exact (Finset.erase_insert_subset s _).trans hkept
  rcases h with h | rfl | rfl | h
  · left
    intro k hk
    rcases mem_of_mem_held_replyFrom (fun k hk => hpeer k ((hall k).mp hk)) h hk with hk | ⟨-, hle⟩
    · exact hk
    · omega
  · right; left
    rw [hacked, Finset.union_comm]
    exact Finset.insert_subset_insert s hkept
  · right; right
    exact hagain.trans Finset.subset_union_left
  · right; right
    intro k hk
    rw [Finset.mem_union, List.mem_toFinset]
    rcases mem_of_mem_held_replyFrom (fun k hk => hpeer k (hrest k hk)) h hk with hk | ⟨hk, -⟩
    · exact Or.inl (hagain hk)
    · exact Or.inr hk

end Withdrawal

theorem not_ordersAgree_of_open (hlead : node.role = .leader) (hlt : node.commitIndex < n)
    (hlen : n ≤ node.log.toList.length) (hterm : node.log.termAt n = some node.currentTerm)
    (hopen : node.ackCount n < node.quorum) (hgap : node.keptCount n + 2 ≤ node.quorum)
    (hreach : node.quorum ≤ node.keptCount n + node.reachedSlots.card) :
    ∃ first second, node.WithinLog first ∧ first.Perm second ∧ ¬node.OrdersAgree first second := by
  have hlog := node.logLen_eq
  have hexists : ∀ k, ∃ peer, node.Reached k →
      peer ∈ node.peers.toList ∧ node.peerIndex peer = some k.val := by
    intro k
    by_cases hk : node.Reached k
    · obtain ⟨peer, hpeer⟩ := hk.exists_peer
      exact ⟨peer, fun _ => hpeer⟩
    · exact ⟨node.id, fun hreached => absurd hreached hk⟩
  choose peer hpeer using hexists
  obtain ⟨S, hS, hcard⟩ :=
    Finset.exists_subset_card_eq (Nat.sub_le_iff_le_add'.mpr hreach)
  have hreached : ∀ k ∈ S, node.Reached k := fun k hk => (Finset.mem_filter.mp (hS hk)).2
  obtain ⟨s, hs⟩ : S.Nonempty := Finset.card_pos.mp (by omega)
  have hall : ∀ k, k ∈ node.reachedSlots.toList ↔ node.Reached k := by
    intro k
    simp [reachedSlots]
  have hrest : ∀ k ∈ (S.erase s).toList, node.Reached k := by
    intro k hk
    exact hreached k (Finset.mem_of_mem_erase (Finset.mem_toList.mp hk))
  have hin := withinLog_early (fun k hk => (hpeer k hk).1) (fun k hk => (hall k).mp hk)
    (hreached s hs) hrest (by omega : n ≤ node.logLen)
  refine ⟨_, _, hin, early_perm_late,
    not_ordersAgree hlead hin early_perm_late hlt ?_ ?_⟩
  · apply enables_early (fun k hk => (hpeer k hk).2) (hreached s hs) hrest hlen hterm (S := S)
    · intro k hk
      by_cases hks : k = s
      · exact Or.inl hks
      · exact Or.inr (Finset.mem_toList.mpr (Finset.mem_erase.mpr ⟨hks, hk⟩))
    · omega
  · intro slots hslots
    have hcount := node.ackCount_eq_held n
    rcases held_late (fun k hk => (hpeer k hk).2) (by omega) hall (hreached s hs) hrest hslots with
      hsub | hsub | hsub
    · have hfew := Finset.card_le_card hsub
      omega
    · have hfew := Finset.card_le_card hsub
      have hunion : 1 + (node.keptSlots n ∪ {s}).card = node.keptCount n + 1 :=
        card_kept_union (by simpa using hreached s hs)
      omega
    · rw [Finset.toList_toFinset] at hsub
      have hfew := Finset.card_le_card hsub
      have hunion : 1 + (node.keptSlots n ∪ S.erase s).card =
          node.keptCount n + (S.erase s).card :=
        card_kept_union fun k hk => hreached k (Finset.mem_of_mem_erase hk)
      rw [Finset.card_erase_of_mem hs] at hunion
      omega

theorem exists_reached_ack (h : node.keptCount n < node.ackCount n) :
    ∃ i ∈ node.ackSlots n, node.Reached i := by
  by_contra hnone
  have hall : node.keptSlots n = node.ackSlots n := by
    rw [keptSlots, Finset.filter_eq_self]
    intro k hk hreached
    exact hnone ⟨k, hk, hreached⟩
  rw [keptCount, hall, ← ackCount_eq] at h
  omega

theorem exists_other_peer (h : ¬∀ p ∈ node.peers.toList, ∀ q ∈ node.peers.toList, p = q)
    (p : NodeId) : ∃ q ∈ node.peers.toList, q ≠ p := by
  by_contra hnone
  have hall : ∀ q ∈ node.peers.toList, q = p := by
    intro q hq
    by_contra hne
    exact hnone ⟨q, hq, hne⟩
  apply h
  intro a ha b hb
  rw [hall a ha, hall b hb]

theorem exists_not_ordersAgree (hlead : node.role = .leader)
    (hpeers : ¬∀ p ∈ node.peers.toList, ∀ q ∈ node.peers.toList, p = q)
    (hlt : node.commitIndex < n) (hlen : n ≤ node.log.toList.length)
    (hterm : node.log.termAt n = some node.currentTerm) (hn : ¬node.Decided n) :
    ∃ first second, node.WithinLog first ∧ first.Perm second ∧ ¬node.OrdersAgree first second := by
  rw [Decided] at hn
  by_cases hexact : node.ackCount n = node.quorum
  · obtain ⟨i, hack, hi⟩ := exists_reached_ack (by omega : node.keptCount n < node.ackCount n)
    obtain ⟨p, hp, hi⟩ := hi.exists_peer
    obtain ⟨q, hq, hqp⟩ := exists_other_peer hpeers p
    obtain ⟨j, hj⟩ := peerIndex_ne_none hq
    have hij : i ≠ j := by
      rintro rfl
      have hatp := (peerIndex_eq_some hi).1
      rw [(peerIndex_eq_some hj).1] at hatp
      exact hqp (Option.some.inj hatp)
    exact not_ordersAgree_of_exact hlead hlt hlen hterm hexact hp hq hi hj hij hack
  · exact not_ordersAgree_of_open hlead hlt hlen hterm (by omega) (by omega) (by omega)

end Undecided

-- Two orders may end differently as soon as the leader has two peers and an entry of its
-- term whose fate is not yet decided. Whatever its state, they end alike when the
-- replies of each peer come in with their indices ascending.
theorem ack_order_iff (leader : RaftNode) (hlead : leader.role = .leader) :
    ((∀ first second, leader.WithinLog first → first.Perm second →
        leader.OrdersAgree first second) ↔
      (∀ p ∈ leader.peers.toList, ∀ q ∈ leader.peers.toList, p = q) ∨
        ∀ n, leader.commitIndex < n → n ≤ leader.logLen →
          leader.log.termAt n = some leader.currentTerm → leader.Decided n) ∧
    ∀ first second, leader.WithinLog first → first.Perm second →
      leader.Ascending leader.matchIndex first → leader.Ascending leader.matchIndex second →
      leader.OrdersAgree first second := by
  have hlog := leader.logLen_eq
  refine ⟨⟨?_, ?_⟩, ?_⟩
  · intro hall
    rw [or_iff_not_imp_left]
    intro hpeers n hlt hlen hterm
    by_contra hn
    obtain ⟨first, second, hin, hperm, hdiffer⟩ :=
      exists_not_ordersAgree hlead hpeers hlt (by omega) hterm hn
    exact hdiffer (hall first second hin hperm)
  · rintro (hone | hdecided) first second hin hperm
    · exact ordersAgree_of_one_peer hlead hin hperm hone
    · exact ordersAgree_of_decided hlead hin hperm hdecided
  · intro first second hin hperm hfirst hsecond
    exact ordersAgree_of_ascending hlead hin hperm hfirst hsecond

-- `node1`, the leader of three peers, with two entries that nobody has acknowledged.
def proposedTwice : List Input := [.propose node1 node2, .propose node1 node2] ++ elected

theorem ack_order_iff_proposedTwice : ∃ history leader,
    run node1 threePeers proposedTwice = some (history, leader) ∧ leader.role = .leader ∧
    leader.OrdersAgree [(node2, 1), (node2, 2), (node3, 2)] [(node3, 2), (node2, 1), (node2, 2)] := by
  have heval : ∃ result ∈ run node1 threePeers proposedTwice, result.2.role = .leader ∧
      result.2.WithinLog [(node2, 1), (node2, 2), (node3, 2)] ∧
      result.2.Ascending result.2.matchIndex [(node2, 1), (node2, 2), (node3, 2)] ∧
      result.2.Ascending result.2.matchIndex [(node3, 2), (node2, 1), (node2, 2)] := by
    simp only [WithinLog, Ascending]
    decide +kernel
  obtain ⟨⟨history, leader⟩, hrun, hlead, hin, hfirst, hsecond⟩ := heval
  exact ⟨history, leader, hrun, hlead,
    (ack_order_iff leader hlead).2 _ _ hin (by decide) hfirst hsecond⟩

-- `node2` acknowledges both entries of the leader of three peers, and an older reply of
-- its own arrives late: before that of `node3` it takes the second entry back.
theorem ack_order_matters : ∃ result ∈ run node1 threePeers proposedTwice,
    result.2.role = .leader ∧
    result.2.WithinLog [(node2, 2), (node3, 2), (node2, 1)] ∧
    (result.2.acknowledgeAll [(node2, 2), (node3, 2), (node2, 1)]).map commitIndex = some 2 ∧
    (result.2.acknowledgeAll [(node2, 2), (node2, 1), (node3, 2)]).map commitIndex = some 1 := by
  unfold WithinLog
  decide +kernel

end LuxKernel.Consensus.RaftNode
