import LuxKernel.Consensus.Cluster
import LuxKernel.Replication.Completeness

namespace LuxKernel.Consensus

open Function Heapless Replication Replication.Proto

-- A cluster of nodes is a replication protocol whose entries are log entries,
-- and whose quorums are the majorities of the members.
abbrev Shadow := Proto NodeId LogEntry

def Majority (V : Membership) (Q : Finset NodeId) : Prop :=
  Q ⊆ V.members ∧ V.members.card < 2 * Q.card

variable {V : Membership} {s s' : Cluster} {action : Action} {A A' : Shadow}
variable {i v c : NodeId} {t : Nat}

theorem Majority.meet {Q R : Finset NodeId} (hQ : Majority V Q) (hR : Majority V R) :
    ∃ v ∈ Q, v ∈ R := by
  by_contra hno
  push Not at hno
  have hdisj : Disjoint Q R := Finset.disjoint_left.mpr hno
  have hcard := Finset.card_union_of_disjoint hdisj
  have hle := Finset.card_le_card (Finset.union_subset hQ.1 hR.1)
  have := hQ.2
  have := hR.2
  omega

theorem Membership.card_members (V : Membership) (hi : i ∈ V.members) :
    V.members.card = (V.peerSet i).peers.toList.length + 1 := by
  have herase : (V.peerSet i).peers.toList.toFinset = V.members.erase i := by
    ext j
    rw [List.mem_toFinset, V.mem_peers hi, Finset.mem_erase]
    exact And.comm
  have hlen := List.toFinset_card_of_nodup (V.nodup hi)
  rw [herase, Finset.card_erase_of_mem hi] at hlen
  have := Finset.card_pos.mpr ⟨i, hi⟩
  omega

-- The nodes whose votes a candidate has counted in a term: its own, and those
-- whose replies were delivered.
def supporters (V : Membership) (s : Cluster) (c : NodeId) (t : Nat) : Finset NodeId :=
  V.members.filter fun v =>
    v = c ∨ ∃ k ∈ s.delivered, s.sent[k]? = some ⟨v, c, .requestVoteReply t true⟩

theorem mem_supporters : v ∈ supporters V s c t ↔ v ∈ V.members ∧
    (v = c ∨ ∃ k ∈ s.delivered, s.Mail k v c (.requestVoteReply t true)) := by
  rw [supporters, Finset.mem_filter]
  rfl

-- The state of one node and its counterpart in the protocol.
structure Mirrors (A : Shadow) (i : NodeId) (node : RaftNode) (support : Nat → Finset NodeId) :
    Prop where
  term : A.term i = node.currentTerm
  log : A.log i = node.log.toList
  vote : A.vote node.currentTerm i = node.votedFor
  candidate : node.role = .candidate → A.candidate i ∧ node.votedFor = some i ∧
    node.votesGranted ≤ (support node.currentTerm).card
  leader : node.role = .leader → A.elected node.currentTerm = some i
  slots : node.role = .leader → ∀ {k : Fin MAX_PEERS} {peer},
    node.peers.toList[k.val]? = some peer →
      0 < node.nextIndex k ∧ node.nextIndex k ≤ node.log.toList.length + 1 ∧
      (node.matchIndex k = 0 ∨ A.acked node.currentTerm peer (node.matchIndex k))

-- What a packet tells about the history of the protocol.
def Meaning (A : Shadow) (src dst : NodeId) : RaftMessage → Prop
  | .requestVote term candidateId lastLogIndex lastLogTerm =>
      candidateId = src ∧ ∃ bid, A.bid term src = some bid ∧ lastLogIndex = bid.length ∧
        lastLogTerm = lastStamp bid
  | .requestVoteReply term voteGranted => voteGranted = true → A.vote term src = some dst
  | .appendEntries term _ prevLogIndex prevLogTerm entries _ =>
      A.elected term = some src ∧
      prevLogIndex + entries.toList.length ≤ (A.chronicle term).length ∧
      entries.toList = ((A.chronicle term).drop prevLogIndex).take entries.toList.length ∧
      (prevLogIndex = 0 ∨
        ∃ e, (A.chronicle term)[prevLogIndex - 1]? = some e ∧ e.term = prevLogTerm)
  | .appendEntriesReply term success matchIndex => success = true → A.acked term src matchIndex

theorem Meaning.mono {src dst : NodeId} {msg : RaftMessage} (hg : Grows A A')
    (h : Meaning A src dst msg) : Meaning A' src dst msg := by
  cases msg with
  | requestVote term candidateId lastLogIndex lastLogTerm =>
      obtain ⟨hid, bid, hb, hrest⟩ := h
      exact ⟨hid, bid, hg.bid hb, hrest⟩
  | requestVoteReply term voteGranted => exact fun hv => (hg.vote (h hv)).1
  | appendEntries term leaderId prevLogIndex prevLogTerm entries leaderCommit =>
      obtain ⟨hel, hlen, hslice, hprev⟩ := h
      obtain ⟨extra, hx⟩ := hg.chronicle_prefix term
      refine ⟨(hg.elected hel).1, hlen.trans (hg.chronicle_length_le term), ?_, ?_⟩
      · rw [← hx, List.drop_append_of_le_length (by omega),
          List.take_append_of_le_length (by rw [List.length_drop]; omega)]
        exact hslice
      · refine hprev.imp (fun h0 => h0) ?_
        rintro ⟨e, he, hterm⟩
        refine ⟨e, ?_, hterm⟩
        rw [← hx, List.getElem?_append_left (List.getElem?_eq_some_iff.mp he).1, he]
  | appendEntriesReply term success matchIndex => exact fun hs => hg.acked (h hs)

-- The protocol has moved only at node `i`.
structure Framed (A A' : Shadow) (i : NodeId) : Prop where
  term : ∀ {j}, j ≠ i → A'.term j = A.term j
  log : ∀ {j}, j ≠ i → A'.log j = A.log j
  vote : ∀ {j t}, j ≠ i → A'.vote t j = A.vote t j
  candidate : ∀ {j}, j ≠ i → A.candidate j → A'.candidate j

namespace Framed

theorem refl (A : Shadow) (i : NodeId) : Framed A A i := ⟨by simp, by simp, by simp, by simp⟩

theorem trans {A₁ A₂ A₃ : Shadow} (h₁ : Framed A₁ A₂ i) (h₂ : Framed A₂ A₃ i) :
    Framed A₁ A₃ i where
  term hj := (h₂.term hj).trans (h₁.term hj)
  log hj := (h₂.log hj).trans (h₁.log hj)
  vote hj := (h₂.vote hj).trans (h₁.vote hj)
  candidate hj hc := h₂.candidate hj (h₁.candidate hj hc)

theorem advance (A : Shadow) (i : NodeId) (t : Nat) : Framed A (A.advance i t) i where
  term hj := update_of_ne hj ..
  log _ := rfl
  vote _ := rfl
  candidate hj hc := by simpa [Proto.advance, hj] using hc

theorem stand (A : Shadow) (i : NodeId) : Framed A (A.stand i) i where
  term hj := update_of_ne hj ..
  log _ := rfl
  vote hj := record_of_ne _ _ (fun h => hj h.2)
  candidate hj hc := by simpa [Proto.stand, hj] using hc

theorem grant (A : Shadow) (i c : NodeId) : Framed A (A.grant i c) i where
  term _ := rfl
  log _ := rfl
  vote hj := record_of_ne _ _ (fun h => hj h.2)
  candidate _ hc := hc

theorem elect (A : Shadow) (i : NodeId) (Q : Finset NodeId) : Framed A (A.elect i Q) i where
  term _ := rfl
  log _ := rfl
  vote _ := rfl
  candidate hj hc := by simpa [Proto.elect, hj] using hc

theorem extend (A : Shadow) (i : NodeId) (e : LogEntry) : Framed A (A.extend i e) i where
  term _ := rfl
  log hj := update_of_ne hj ..
  vote _ := rfl
  candidate _ hc := hc

theorem accept (A : Shadow) (i : NodeId) (pos count : Nat) :
    Framed A (A.accept i pos count) i where
  term _ := rfl
  log hj := update_of_ne hj ..
  vote _ := rfl
  candidate hj hc := by simpa [Proto.accept, hj] using hc

end Framed

namespace Mirrors

variable {node : RaftNode} {support support' : Nat → Finset NodeId}

-- A node that does not move is still mirrored when another one does.
theorem frame {j : NodeId} (h : Mirrors A j node support) (hf : Framed A A' i) (hg : Grows A A')
    (hj : j ≠ i) (hsup : ∀ t, support t ⊆ support' t) : Mirrors A' j node support' where
  term := (hf.term hj).trans h.term
  log := (hf.log hj).trans h.log
  vote := (hf.vote hj).trans h.vote
  candidate hr := by
    obtain ⟨hc, hv, hn⟩ := h.candidate hr
    exact ⟨hf.candidate hj hc, hv, hn.trans (Finset.card_le_card (hsup _))⟩
  leader hr := (hg.elected (h.leader hr)).1
  slots hr := by
    intro k peer hpeer
    obtain ⟨hpos, hle, hm⟩ := h.slots hr hpeer
    exact ⟨hpos, hle, hm.imp (fun h0 => h0) hg.acked⟩

theorem support_mono (h : Mirrors A i node support) (hsup : ∀ t, support t ⊆ support' t) :
    Mirrors A i node support' :=
  { h with
    candidate := fun hr => by
      obtain ⟨hc, hv, hn⟩ := h.candidate hr
      exact ⟨hc, hv, hn.trans (Finset.card_le_card (hsup _))⟩ }

-- A follower has neither votes to count nor slots to keep.
theorem of_follower (hr : node.role = .follower) (hterm : A.term i = node.currentTerm)
    (hlog : A.log i = node.log.toList) (hvote : A.vote node.currentTerm i = node.votedFor) :
    Mirrors A i node support where
  term := hterm
  log := hlog
  vote := hvote
  candidate hc := by rw [hr] at hc; cases hc
  leader hl := by rw [hr] at hl; cases hl
  slots hl := by rw [hr] at hl; cases hl

theorem stepDown (he : Elections (Majority V) A) (h : Mirrors A i node support)
    (ht : node.currentTerm < t) : Mirrors (A.advance i t) i (node.stepDown t) support := by
  have hnone : A.vote t i = none := by
    by_contra hsome
    obtain ⟨c, hc⟩ := Option.ne_none_iff_exists'.mp hsome
    have := he.vote_le hc
    rw [h.term] at this
    omega
  exact of_follower rfl (by simp [Proto.advance, RaftNode.stepDown]) h.log hnone

-- Taking office resets the slots, so that nothing is known of the followers.
theorem leading {Q : Finset NodeId} (h : Mirrors A i node support) :
    Mirrors (A.elect i Q) i node.leading support' where
  term := h.term
  log := h.log
  vote := h.vote
  candidate hr := by cases hr
  leader _ := by
    have : node.leading.currentTerm = A.term i := h.term.symm
    rw [this]
    exact update_self ..
  slots _ := by
    intro k peer hpeer
    have hk : k.val < node.peers.length := (List.getElem?_eq_some_iff.mp hpeer).1
    simp only [RaftNode.leading, hk, if_true, RaftLog.lastIndex_eq]
    exact ⟨Nat.succ_pos _, Nat.le_refl _, Or.inl trivial⟩

end Mirrors

-- The cluster and the protocol state that explains it.
structure Tracks (V : Membership) (s : Cluster) (A : Shadow) : Prop where
  sound : Sound (Majority V) A
  capacity : ∀ t, (A.chronicle t).length ≤ LOG_CAPACITY
  posted : Cluster.Posted V s
  mirrors : ∀ {i}, i ∈ V.members → Mirrors A i (s.node i) (supporters V s i)
  mail : ∀ {k src dst msg}, s.Mail k src dst msg →
    src ∈ V.members ∧ dst ∈ V.members ∧ src ≠ dst ∧ Meaning A src dst msg

theorem Tracks.start (V : Membership) : Tracks V (Cluster.start V) Proto.start where
  sound := Sound.start
  capacity _ := Nat.zero_le _
  posted := Cluster.Posted.start V
  mirrors _ := Mirrors.of_follower rfl rfl rfl rfl
  mail h := by cases h

-- How the protocol answers a move of node `i` to `node` with the messages `out`.
structure Response (V : Membership) (A A' : Shadow) (i : NodeId) (node : RaftNode)
    (support : Nat → Finset NodeId) (out : Sent) : Prop where
  steps : Steps (Majority V) A A'
  frame : Framed A A' i
  capacity : ∀ t, (A'.chronicle t).length ≤ LOG_CAPACITY
  mirrors : Mirrors A' i node support
  mail : ∀ {dst msg}, (dst, msg) ∈ out → dst ∈ V.members ∧ dst ≠ i ∧ Meaning A' i dst msg

theorem supporters_mono {mid : Cluster} {node : RaftNode} {out : Sent}
    (hmove : s.Move i action mid node out) (c : NodeId) (t : Nat) :
    supporters V s c t ⊆ supporters V (mid.post i node out) c t := by
  intro v hv
  rw [mem_supporters] at hv ⊢
  refine ⟨hv.1, hv.2.imp (fun h => h) ?_⟩
  rintro ⟨k, hk, hmail⟩
  exact ⟨k, hmove.delivered_subset k hk, (hmove.mail.mpr hmail).post node out⟩

theorem Tracks.respond {mid : Cluster} {node : RaftNode} {out : Sent} (h : Tracks V s A)
    (hi : i ∈ V.members) (hmove : s.Move i action mid node out)
    (hposted : Cluster.Posted V (mid.post i node out))
    (hr : Response V A A' i node (supporters V (mid.post i node out) i) out) :
    Tracks V (mid.post i node out) A' := by
  obtain ⟨hsound, hgrows⟩ := h.sound.steps Majority.meet hr.steps
  refine ⟨hsound, hr.capacity, hposted, ?_, ?_⟩
  · intro j hj
    rw [hmove.node_eq]
    split
    · rename_i heq
      rw [heq]
      exact hr.mirrors
    · rename_i hne
      exact (h.mirrors hj).frame hr.frame hgrows hne (supporters_mono hmove j)
  · intro k src dst msg hmail
    rcases Cluster.mail_post hmail with hold | ⟨-, rfl, hnew⟩
    · obtain ⟨hsrc, hdst, hne, hmean⟩ := h.mail (hmove.mail.mp hold)
      exact ⟨hsrc, hdst, hne, hmean.mono hgrows⟩
    · obtain ⟨hdst, hne, hmean⟩ := hr.mail (List.mem_of_getElem? hnew)
      exact ⟨hi, hdst, hne.symm, hmean⟩

end LuxKernel.Consensus
