import LuxKernel.Consensus.Mirror

namespace LuxKernel.Consensus

open Function Heapless Replication Replication.Proto Relation

-- Every move of a node is a short run of the replication protocol: one lemma for
-- each method, then the step and the run of the whole cluster.

variable {V : Membership} {s s' : Cluster} {A A' : Shadow} {i sender : NodeId}
variable {node node' : RaftNode} {support support' : Nat → Finset NodeId} {out : Sent}

theorem Majority.singleton (hi : i ∈ V.members) (hp : (V.peerSet i).peers.toList = []) :
    Majority V {i} := by
  refine ⟨Finset.singleton_subset_iff.mpr hi, ?_⟩
  rw [V.card_members hi, hp, Finset.card_singleton]
  simp

section Elections

theorem respond_startElection (hcap : ∀ t, (A.chronicle t).length ≤ LOG_CAPACITY)
    (hi : i ∈ V.members) (hid : node.id = i) (hpeers : node.peers = (V.peerSet i).peers)
    (h : Mirrors A i node support) (hself : ∀ t, i ∈ support' t)
    (hrun : node.startElection = some (node', out)) :
    ∃ A', Response V A A' i node' support' out := by
  have hstand : Mirrors (A.stand i) i node.standing support' := by
    refine ⟨?_, h.log, ?_, ?_, ?_, ?_⟩
    · simp [Proto.stand, RaftNode.standing, h.term]
    · simp [Proto.stand, RaftNode.standing, h.term, hid]
    · intro _
      refine ⟨by simp [Proto.stand], by simp [RaftNode.standing, hid], ?_⟩
      exact Finset.card_pos.mpr ⟨i, hself _⟩
    · intro hr; cases hr
    · intro hr; cases hr
  rcases RaftNode.startElection_cases hrun with ⟨hnil, rfl, rfl⟩ | ⟨-, rfl, rfl⟩
  · -- a cluster of one: the vote for itself is a majority
    have hstep : Step (Majority V) (A.stand i) ((A.stand i).elect i {i}) := by
      refine .elect _ i {i} (by simp [Proto.stand]) (Majority.singleton hi (hpeers ▸ hnil)) ?_
      intro v hv
      rw [Finset.mem_singleton] at hv
      simp [Proto.stand, hv]
    refine ⟨(A.stand i).elect i {i},
      (ReflTransGen.single (.stand A i)).tail hstep,
      (Framed.stand A i).trans (Framed.elect _ i _), ?_, hstand.leading, by simp⟩
    intro t
    by_cases ht : t = (A.stand i).term i
    · rw [ht]
      simp only [Proto.elect, update_self]
      have hlog : (A.stand i).log i = node.log.toList := h.log
      rw [hlog]
      exact node.log.length_le
    · simp only [Proto.elect, update_of_ne ht]
      exact hcap t
  · refine ⟨A.stand i, ReflTransGen.single (.stand A i), Framed.stand A i, hcap, hstand, ?_⟩
    intro dst msg hm
    rw [List.mem_map] at hm
    obtain ⟨peer, hpeer, heq⟩ := hm
    simp only [Prod.mk.injEq] at heq
    obtain ⟨rfl, rfl⟩ := heq
    rw [hpeers, V.mem_peers hi] at hpeer
    refine ⟨hpeer.1, hpeer.2, hid, A.log i, ?_, ?_, ?_⟩
    · simp [Proto.stand, h.term]
    · rw [RaftLog.lastIndex_eq, h.log]
    · rw [RaftLog.lastTerm_eq, h.log]

-- A vote request, a reply or an append with a later term makes the node advance.
theorem respond_stepDown (he : Elections (Majority V) A)
    (hcap : ∀ t, (A.chronicle t).length ≤ LOG_CAPACITY)
    (h : Mirrors A i node support) (hsup : ∀ t, support t ⊆ support' t) {t : Nat}
    (ht : node.currentTerm < t) : Response V A (A.advance i t) i (node.stepDown t) support' [] where
  steps := ReflTransGen.single (.advance A i t (by rw [h.term]; exact ht))
  frame := Framed.advance A i t
  capacity := hcap
  mirrors := (h.stepDown he ht).support_mono hsup
  mail hm := by cases hm

theorem Response.stay (hcap : ∀ t, (A.chronicle t).length ≤ LOG_CAPACITY)
    (h : Mirrors A i node support) : Response V A A i node support [] where
  steps := .refl
  frame := Framed.refl A i
  capacity := hcap
  mirrors := h
  mail hm := by cases hm

theorem Response.send {msg : RaftMessage} (h : Response V A A' i node support [])
    (hs : sender ∈ V.members) (hne : sender ≠ i) (hm : Meaning A' i sender msg) :
    Response V A A' i node support [(sender, msg)] :=
  { h with
    mail := fun hmem => by
      rw [List.mem_singleton, Prod.mk.injEq] at hmem
      obtain ⟨rfl, rfl⟩ := hmem
      exact ⟨hs, hne, hm⟩ }

theorem respond_observe (he : Elections (Majority V) A)
    (hcap : ∀ t, (A.chronicle t).length ≤ LOG_CAPACITY)
    (h : Mirrors A i node support) (hsup : ∀ t, support t ⊆ support' t) (t : Nat) :
    ∃ A', Response V A A' i (node.observe t) support' [] ∧ A'.bid = A.bid := by
  unfold RaftNode.observe
  split
  · rename_i ht
    exact ⟨_, respond_stepDown he hcap h hsup ht, rfl⟩
  · exact ⟨A, .stay hcap (h.support_mono hsup), rfl⟩

theorem upToDate_of_logUpToDateFor {bid : List LogEntry}
    (h : node.logUpToDateFor bid.length (lastStamp bid) = true) :
    UpToDate bid node.log.toList := by
  unfold RaftNode.logUpToDateFor at h
  rw [RaftLog.lastTerm_eq, RaftLog.lastIndex_eq] at h
  simp only [Bool.or_eq_true, Bool.and_eq_true, decide_eq_true_eq] at h
  rcases h with h | ⟨h, hlen⟩
  · exact Or.inl h
  · exact Or.inr ⟨h.symm, hlen⟩

theorem respond_requestVote (he : Elections (Majority V) A)
    (hcap : ∀ t, (A.chronicle t).length ≤ LOG_CAPACITY)
    (h : Mirrors A i node support) (hsup : ∀ t, support t ⊆ support' t)
    (hs : sender ∈ V.members) (hne : sender ≠ i) {term : Nat} {candidateId : NodeId}
    {lastLogIndex lastLogTerm : Nat}
    (hmean : Meaning A sender i (.requestVote term candidateId lastLogIndex lastLogTerm)) :
    ∃ A', Response V A A' i
      (node.onRequestVote sender term candidateId lastLogIndex lastLogTerm).1 support'
      (node.onRequestVote sender term candidateId lastLogIndex lastLogTerm).2 := by
  obtain ⟨rfl, bid, hbid, rfl, rfl⟩ := hmean
  obtain ⟨A₁, hr₁, hbid₁⟩ := respond_observe he hcap h hsup term
  have hm₁ := hr₁.mirrors
  rcases node.onRequestVote_cases candidateId term candidateId bid.length (lastStamp bid) with
    ⟨hcur, hup, hvote, heq⟩ | heq
  · rw [heq]
    have hterm : A₁.term i = term := hm₁.term.trans hcur
    have hmeans : ∀ {A₂ : Shadow}, A₂.vote term i = some candidateId →
        Meaning A₂ i candidateId (.requestVoteReply term true) := fun hv _ => hv
    rcases hvote with hvote | hvote
    · -- a fresh vote
      have hnone : A₁.vote (A₁.term i) i = none := by rw [hm₁.term, hm₁.vote, hvote]
      have hlog : A₁.log i = node.log.toList := by rw [hm₁.log, RaftNode.observe_log]
      have hstep : Step (Majority V) A₁ (A₁.grant i candidateId) :=
        .grant A₁ i candidateId bid hnone (by rw [hterm, hbid₁, hbid])
          (by rw [hlog]; exact upToDate_of_logUpToDateFor hup)
      have hmirror : Mirrors (A₁.grant i candidateId) i
          { node.observe term with votedFor := some candidateId } support' := by
        refine ⟨hm₁.term, hm₁.log, ?_, ?_, hm₁.leader, hm₁.slots⟩
        · simp [Proto.grant, hcur, hterm]
        · intro hr
          have := (hm₁.candidate hr).2.1
          rw [hvote] at this
          cases this
      refine ⟨A₁.grant i candidateId, Response.send ?_ hs hne (hmeans ?_)⟩
      · exact ⟨hr₁.steps.tail hstep, hr₁.frame.trans (Framed.grant A₁ i candidateId), hr₁.capacity,
          hmirror, by simp⟩
      · simp [Proto.grant, hterm]
    · -- the vote it has given before
      have hmirror : Mirrors A₁ i
          { node.observe term with votedFor := some candidateId } support' := by
        rw [← hvote]
        exact hm₁
      refine ⟨A₁, Response.send { hr₁ with mirrors := hmirror } hs hne (hmeans ?_)⟩
      rw [← hcur, hm₁.vote, hvote]
  · rw [heq]
    exact ⟨A₁, hr₁.send hs hne (fun hf => by cases hf)⟩

theorem respond_voteReply (he : Elections (Majority V) A)
    (hcap : ∀ t, (A.chronicle t).length ≤ LOG_CAPACITY)
    (hi : i ∈ V.members) (hpeers : node.peers = (V.peerSet i).peers)
    (h : Mirrors A i node support) (hsup : ∀ t, support t ⊆ support' t)
    {term : Nat} {voteGranted : Bool} (hrun : node.onVoteReply term voteGranted = some node')
    (hcount : voteGranted = true → (support term).card < (support' term).card)
    (hmem : ∀ v ∈ support' term, v ∈ V.members ∧ (v = i ∨ A.vote term v = some i)) :
    ∃ A', Response V A A' i node' support' [] := by
  rcases RaftNode.onVoteReply_cases hrun with
    ⟨hlt, rfl⟩ | ⟨-, -, rfl⟩ | ⟨hrole, rfl, votes, hvotes, hrest⟩
  · exact ⟨_, respond_stepDown he hcap h hsup hlt⟩
  · exact ⟨A, .stay hcap (h.support_mono hsup)⟩
  obtain ⟨hcand, hself, hn⟩ := h.candidate hrole
  have hle : votes ≤ (support' node.currentTerm).card := by
    have := Finset.card_le_card (hsup node.currentTerm)
    cases voteGranted with
    | false => simp at hvotes; omega
    | true =>
        have := hcount rfl
        simp at hvotes
        omega
  have hm : Mirrors A i { node with votesGranted := votes } support' :=
    ⟨h.term, h.log, h.vote, fun _ => ⟨hcand, hself, hle⟩, h.leader, h.slots⟩
  rcases hrest with ⟨-, rfl⟩ | ⟨hq, rfl⟩
  · exact ⟨A, .stay hcap hm⟩
  · -- enough votes: those counted are a majority of the members
    have hmaj : Majority V (support' node.currentTerm) := by
      refine ⟨fun v hv => (hmem v hv).1, ?_⟩
      have hcard := V.card_members hi
      rw [← hpeers] at hcard
      simp only [RaftNode.quorum, HVec.length_eq] at hq
      omega
    have hstep : Step (Majority V) A (A.elect i (support' node.currentTerm)) := by
      refine .elect A i _ hcand hmaj ?_
      intro v hv
      rw [h.term]
      rcases (hmem v hv).2 with rfl | hv
      · rw [h.vote, hself]
      · exact hv
    refine ⟨_, ReflTransGen.single hstep, Framed.elect A i _, ?_, hm.leading, by simp⟩
    intro t
    by_cases ht : t = A.term i
    · rw [ht]
      simp only [Proto.elect, update_self, h.log]
      exact node.log.length_le
    · simp only [Proto.elect, update_of_ne ht]
      exact hcap t

end Elections

section Appends

theorem respond_follow (support' : Nat → Finset NodeId) (he : Elections (Majority V) A)
    (hcap : ∀ t, (A.chronicle t).length ≤ LOG_CAPACITY)
    (h : Mirrors A i node support) (t : Nat) :
    ∃ A', Response V A A' i (node.follow t) support' [] ∧ A'.chronicle = A.chronicle ∧
      A'.elected = A.elected := by
  unfold RaftNode.follow
  split
  · rename_i hlt
    have hr : Response V A _ i (node.stepDown t) support [] :=
      respond_stepDown he hcap h (fun _ => subset_rfl) hlt
    exact ⟨_, { hr with mirrors := .of_follower rfl hr.mirrors.term hr.mirrors.log hr.mirrors.vote },
      rfl, rfl⟩
  · exact ⟨A, .stay hcap (.of_follower rfl h.term h.log h.vote), rfl, rfl⟩

-- An append that passes the check joins the follower's log to its leader's.
theorem joined_of_prevOk {chronicle : List LogEntry} {prevLogIndex prevLogTerm : Nat}
    (hok : node.PrevOk prevLogIndex prevLogTerm)
    (hprev : prevLogIndex = 0 ∨ ∃ e, chronicle[prevLogIndex - 1]? = some e ∧ e.term = prevLogTerm) :
    Joined node.log.toList chronicle prevLogIndex := by
  rcases hprev with h0 | ⟨y, hy, hterm⟩
  · exact Or.inl h0
  rcases hok with h0 | hat
  · exact Or.inl h0
  right
  cases prevLogIndex with
  | zero => cases hat
  | succ k =>
      rw [RaftLog.termAt_succ, Option.map_eq_some_iff] at hat
      obtain ⟨x, hx, hxt⟩ := hat
      exact ⟨x, y, hx, hy, hxt.trans hterm.symm⟩

-- What a follower splices in fits, since the logs of leaders do.
theorem length_splice_le (hs : Sound (Majority V) A)
    (hcap : ∀ t, (A.chronicle t).length ≤ LOG_CAPACITY) (hlog : (A.log i).length ≤ LOG_CAPACITY)
    {t pos count : Nat} (hlen : pos + count ≤ (A.chronicle t).length)
    (hj : Joined (A.log i) (A.chronicle t) pos) :
    (splice (A.log i) pos (((A.chronicle t).drop pos).take count)).length ≤ LOG_CAPACITY := by
  have hcons := hs.chronicles.log_sound i
  have hother := hs.chronicles.chronicle_sound t
  obtain ⟨hpos, htake⟩ := hcons.take_eq_of_joined hother hj
  rcases splice_slice hcons hother _ _ hpos hlen htake with ⟨hsp, -⟩ | ⟨hsp, -⟩ <;> rw [hsp]
  · exact hlog
  · rw [List.length_take]
    have := hcap t
    omega

theorem respond_appendEntries (hs : Sound (Majority V) A)
    (hcap : ∀ t, (A.chronicle t).length ≤ LOG_CAPACITY)
    (h : Mirrors A i node support) (hsup : ∀ t, support t ⊆ support' t)
    (hsender : sender ∈ V.members) (hne : sender ≠ i) {term prevLogIndex prevLogTerm : Nat}
    {leaderId : NodeId} {entries : HVec LogEntry BATCH_CAPACITY} {leaderCommit : Nat}
    (hmean : Meaning A sender i
      (.appendEntries term leaderId prevLogIndex prevLogTerm entries leaderCommit))
    (hrun : node.onAppendEntries sender term prevLogIndex prevLogTerm entries leaderCommit =
      some (node', out)) :
    ∃ A', Response V A A' i node' support' out := by
  obtain ⟨hel, hlen, hslice, hprev⟩ := hmean
  rcases RaftNode.onAppendEntries_cases hrun with
    ⟨-, rfl, rfl⟩ | ⟨hle, -, rfl, rfl⟩ | ⟨hle, hok, log, hlog, rfl, rfl⟩
  · exact ⟨A, (Response.stay hcap (h.support_mono hsup)).send hsender hne (fun hf => by cases hf)⟩
  · obtain ⟨A₁, hr₁, -, -⟩ := respond_follow support' hs.elections hcap h term
    exact ⟨A₁, hr₁.send hsender hne (fun hf => by cases hf)⟩
  obtain ⟨A₁, hr₁, hchr, hel₁⟩ := respond_follow support' hs.elections hcap h term
  have hm₁ := hr₁.mirrors
  have hterm : A₁.term i = term := hm₁.term.trans (RaftNode.follow_currentTerm hle)
  have hlog₁ : A₁.log i = node.log.toList := by rw [hm₁.log, RaftNode.follow_log]
  have hs₁ := (hs.steps Majority.meet hr₁.steps).1
  have hj : Joined (A₁.log i) (A₁.chronicle (A₁.term i)) prevLogIndex := by
    rw [hlog₁, hterm, hchr]
    exact joined_of_prevOk hok hprev
  have hlen₁ : prevLogIndex + entries.toList.length ≤ (A₁.chronicle (A₁.term i)).length := by
    rw [hterm, hchr]
    exact hlen
  have hstep : Step (Majority V) A₁ (A₁.accept i prevLogIndex entries.toList.length) :=
    .accept A₁ i sender prevLogIndex entries.toList.length (by rw [hterm, hel₁, hel]) hne hlen₁ hj
  have hfits := length_splice_le hs₁ hr₁.capacity (by rw [hlog₁]; exact node.log.length_le) hlen₁ hj
  have hsame : ((A₁.accept i prevLogIndex entries.toList.length).log i) = log.toList := by
    simp only [Proto.accept, update_self]
    rw [hlog, ← List.take_of_length_le hfits, hlog₁, hterm, hchr, ← hslice]
  refine ⟨A₁.accept i prevLogIndex entries.toList.length, Response.send ?_ hsender hne ?_⟩
  · exact ⟨hr₁.steps.tail hstep, hr₁.frame.trans (Framed.accept A₁ i _ _), hr₁.capacity,
      .of_follower (by simp) hm₁.term hsame hm₁.vote, by simp⟩
  · exact fun _ => Or.inr ⟨hterm.symm, rfl, rfl⟩

theorem respond_aeReply (hs : Sound (Majority V) A)
    (hcap : ∀ t, (A.chronicle t).length ≤ LOG_CAPACITY)
    (h : Mirrors A i node support) (hsup : ∀ t, support t ⊆ support' t)
    {term matchIndex : Nat} {success : Bool} {committed : Option LogEntry}
    (hmean : Meaning A sender i (.appendEntriesReply term success matchIndex))
    (hrun : node.onAeReply sender term success matchIndex = some (committed, node')) :
    ∃ A', Response V A A' i node' support' [] := by
  rcases RaftNode.onAeReply_cases hrun with
    ⟨hlt, -, rfl⟩ | ⟨-, -, -, rfl⟩ | ⟨hrole, rfl, k, hpeer, hrest⟩
  · exact ⟨_, respond_stepDown hs.elections hcap h hsup hlt⟩
  · exact ⟨A, .stay hcap (h.support_mono hsup)⟩
  have hlead : A.log i = A.chronicle node.currentTerm := by
    rw [← h.term]
    exact hs.chronicles.leader_log (by rw [h.term]; exact h.leader hrole)
  have hcand : ∀ {P : Prop}, node.role = .candidate → P := by
    intro P hr
    rw [hrole] at hr
    cases hr
  have hacked : success = true → Mirrors A i (node.acknowledged k matchIndex) support' := by
    intro hsucc
    have hack := hmean hsucc
    refine ⟨h.term, h.log, h.vote, hcand, h.leader, ?_⟩
    intro _ j peer hj
    by_cases hjk : j = k
    · -- the slot of the sender
      subst hjk
      have hsame : peer = sender := by
        have := (RaftNode.peerIndex_eq_some hpeer).1
        rw [show node.peers.toList[j.val]? = some peer from hj] at this
        exact Option.some.inj this
      have hle := (hs.memory.acked_le hack).2
      rw [← hlead, h.log] at hle
      simp only [RaftNode.acknowledged, update_self]
      exact ⟨Nat.succ_pos _, Nat.succ_le_succ hle, Or.inr (hsame ▸ hack)⟩
    · simp only [RaftNode.acknowledged, update_of_ne hjk]
      exact h.slots hrole hj
  rcases hrest with ⟨-, -, rfl | rfl⟩ | ⟨hsucc, -, rfl⟩ | ⟨hsucc, n, -, -, -, -, -, rfl⟩
  · exact ⟨A, .stay hcap (h.support_mono hsup)⟩
  · refine ⟨A, .stay hcap ⟨h.term, h.log, h.vote, hcand, h.leader, ?_⟩⟩
    intro _ j peer hj
    obtain ⟨hpos, hle, hm⟩ := h.slots hrole hj
    by_cases hjk : j = k
    · subst hjk
      simp only [RaftNode.retreated, update_self]
      exact ⟨by omega, by omega, hm⟩
    · simp only [RaftNode.retreated, update_of_ne hjk]
      exact ⟨hpos, hle, hm⟩
  · exact ⟨A, .stay hcap (hacked hsucc)⟩
  · have hm := hacked hsucc
    exact ⟨A, .stay hcap ⟨hm.term, hm.log, hm.vote, hcand, hm.leader, hm.slots⟩⟩

-- An `AppendEntries` just sent carries a slice of the sender's log.
theorem meaning_sendAeTo {idx : Nat} {peer : NodeId} {msg : RaftMessage}
    (hrole : node.role = .leader) (h : Mirrors A i node support)
    (hchr : A.chronicle node.currentTerm = node.log.toList)
    (hsend : node.sendAeTo idx = some out) (hm : (peer, msg) ∈ out) :
    peer ∈ node.peers.toList ∧ Meaning A i peer msg := by
  rcases RaftNode.sendAeTo_eq_some hsend with
    ⟨-, rfl⟩ | ⟨p, k, prevTerm, entries, hp, hk, hprev, hentries, rfl⟩
  · cases hm
  rw [List.mem_singleton, Prod.mk.injEq] at hm
  obtain ⟨rfl, rfl⟩ := hm
  obtain ⟨hpos, hle, -⟩ := h.slots hrole (hk ▸ hp)
  have hslice := hentries hpos
  have hlen : entries.toList.length =
      min BATCH_CAPACITY (node.log.toList.length - (node.nextIndex k - 1)) := by
    rw [hslice, List.length_take, List.length_drop]
  refine ⟨List.mem_of_getElem? hp, h.leader hrole, ?_, ?_, ?_⟩
  · rw [hchr]
    omega
  · rw [hchr, hslice]
    exact List.prefix_iff_eq_take.mp (List.take_prefix _ _)
  · rw [hchr]
    by_cases h0 : node.nextIndex k - 1 = 0
    · exact Or.inl h0
    · right
      obtain ⟨m, hm⟩ := Nat.exists_eq_succ_of_ne_zero h0
      have hlt : m < node.log.toList.length := by omega
      rw [if_neg h0] at hprev
      rw [hm, Nat.succ_eq_add_one] at hprev ⊢
      refine ⟨node.log.toList[m], List.getElem?_eq_getElem hlt, ?_⟩
      rw [hprev, RaftLog.termAt_succ, List.getElem?_eq_getElem hlt]
      rfl

theorem respond_propose (hcap : ∀ t, (A.chronicle t).length ≤ LOG_CAPACITY)
    (hi : i ∈ V.members) (hpeers : node.peers = (V.peerSet i).peers)
    (h : Mirrors A i node support) (hsup : ∀ t, support t ⊆ support' t)
    {src dst : NodeId} {result : Result Unit}
    (hrun : node.propose src dst = some (result, node', out)) :
    ∃ A', Response V A A' i node' support' out := by
  have hsent := @RaftNode.propose_sent _ _ _ _ _ _ hrun
  rcases RaftNode.propose_cases hrun with
    ⟨-, -, rfl, rfl⟩ | ⟨-, -, -, rfl, rfl⟩ | ⟨hrole, -, log, hlog, hrest⟩
  · exact ⟨A, .stay hcap (h.support_mono hsup)⟩
  · exact ⟨A, .stay hcap (h.support_mono hsup)⟩
  have hel : A.elected (A.term i) = some i := by
    rw [h.term]
    exact h.leader hrole
  have hstep : Step (Majority V) A (A.extend i ⟨node.currentTerm, src, dst⟩) :=
    .extend A i _ hel h.term.symm
  have hgrown : (A.extend i ⟨node.currentTerm, src, dst⟩).log i = log.toList := by
    simp only [Proto.extend, update_self, h.log, hlog]
  have hchr : (A.extend i ⟨node.currentTerm, src, dst⟩).chronicle node.currentTerm =
      log.toList := by
    rw [← hgrown, ← h.term]
    simp only [Proto.extend, update_self]
  have hnode : node'.peers = (V.peerSet i).peers ∧ node'.role = .leader ∧
      node'.currentTerm = node.currentTerm ∧ node'.log = log := by
    rcases hrest with ⟨-, -, rfl⟩ | ⟨-, rfl, -⟩ <;> exact ⟨hpeers, hrole, rfl, rfl⟩
  obtain ⟨hpeers', hrole', hterm', hlog'⟩ := hnode
  have hmirror : Mirrors (A.extend i ⟨node.currentTerm, src, dst⟩) i node' support' := by
    refine ⟨?_, ?_, ?_, ?_, ?_, ?_⟩
    · rw [hterm']; exact h.term
    · rw [hlog']; exact hgrown
    · rcases hrest with ⟨-, -, rfl⟩ | ⟨-, rfl, -⟩ <;> exact h.vote
    · intro hr
      rw [hrole'] at hr
      cases hr
    · intro _
      rw [hterm']
      exact h.leader hrole
    · intro _ k peer hpeer
      have hslots : 0 < node.nextIndex k ∧ node.nextIndex k ≤ node.log.toList.length + 1 ∧
          (node.matchIndex k = 0 ∨ A.acked node.currentTerm peer (node.matchIndex k)) := by
        apply h.slots hrole
        rw [hpeers, ← hpeers']
        exact hpeer
      have hlonger : log.toList.length = node.log.toList.length + 1 := by
        rw [hlog, List.length_append, List.length_singleton]
      rcases hrest with ⟨-, -, rfl⟩ | ⟨-, rfl, -⟩ <;>
        exact ⟨hslots.1, by simp only [hlonger]; omega, hslots.2.2⟩
  refine ⟨_, ReflTransGen.single hstep, Framed.extend A i _, ?_, hmirror, ?_⟩
  · intro t
    by_cases ht : t = A.term i
    · rw [ht, h.term, hchr]
      exact log.length_le
    · simp only [Proto.extend, update_of_ne ht]
      exact hcap t
  · intro peer msg hm
    obtain ⟨idx, batch, hsend, hmem⟩ := hsent hm
    have hmean := meaning_sendAeTo hrole' hmirror (by rw [hterm', hchr, hlog']) hsend hmem
    rw [hpeers', V.mem_peers hi] at hmean
    exact ⟨hmean.1.1, hmean.1.2, hmean.2⟩

end Appends

-- One more vote has been counted for the addressee of a granted vote.
theorem card_supporters_lt (h : Tracks V s A) {position term : Nat}
    (hnew : position ∉ s.delivered) (hmail : s.Mail position sender i (.requestVoteReply term true)) :
    (supporters V s i term).card <
      (supporters V ((s.receive position).post i node out) i term).card := by
  obtain ⟨hsrc, -, hne, -⟩ := h.mail hmail
  have hmove : ∀ v, v ∈ supporters V s i term →
      v ∈ supporters V ((s.receive position).post i node out) i term := by
    intro v hv
    rw [mem_supporters] at hv ⊢
    refine ⟨hv.1, hv.2.imp (fun h => h) ?_⟩
    rintro ⟨k, hk, hm⟩
    exact ⟨k, List.mem_cons_of_mem _ hk, Cluster.Mail.post (s := s.receive position) node out hm⟩
  apply Finset.card_lt_card
  rw [Finset.ssubset_iff_of_subset hmove]
  refine ⟨sender, ?_, ?_⟩
  · rw [mem_supporters]
    exact ⟨hsrc, Or.inr ⟨position, List.mem_cons_self,
      Cluster.Mail.post (s := s.receive position) node out hmail⟩⟩
  · rw [mem_supporters]
    rintro ⟨-, heq | ⟨k, hk, hm⟩⟩
    · exact hne heq
    · exact hnew (h.posted.grant_once hm hmail ▸ hk)

theorem Tracks.step (h : Tracks V s A) (hstep : Cluster.Step V s s') :
    ∃ A', Steps (Majority V) A A' ∧ Tracks V s' A' := by
  have hposted := h.posted.step hstep
  obtain ⟨i, hi, action, mid, node', out, hmove, rfl⟩ := hstep.move
  have hsup := supporters_mono (V := V) hmove i
  have hm := h.mirrors hi
  suffices hresp : ∃ A', Response V A A' i node' (supporters V (mid.post i node' out) i) out by
    obtain ⟨A', hr⟩ := hresp
    exact ⟨A', hr.steps, h.respond hi hmove hposted hr⟩
  cases hmove with
  | startElection hrun =>
      refine respond_startElection h.capacity hi (h.posted.id i) (h.posted.peers i) hm ?_ hrun
      intro t
      exact mem_supporters.mpr ⟨hi, Or.inl rfl⟩
  | propose hrun =>
      exact respond_propose h.capacity hi (h.posted.peers i) hm hsup hrun
  | @deliver position src msg committed _ _ hnew hsent hrun =>
      have hmail : s.Mail position src i msg := hsent
      obtain ⟨hsrc, -, hne, hmean⟩ := h.mail hmail
      cases msg with
      | requestVote term candidateId lastLogIndex lastLogTerm =>
          obtain ⟨-, hvote⟩ := RaftNode.step_requestVote.mp hrun
          have hresp := respond_requestVote h.sound.elections h.capacity hm hsup hsrc hne hmean
          rw [hvote] at hresp
          exact hresp
      | requestVoteReply term voteGranted =>
          obtain ⟨-, rfl, hreply⟩ := RaftNode.step_requestVoteReply.mp hrun
          refine respond_voteReply h.sound.elections h.capacity hi (h.posted.peers i) hm hsup hreply
            ?_ ?_
          · rintro rfl
            exact card_supporters_lt h hnew hmail
          · intro v hv
            rw [mem_supporters] at hv
            refine ⟨hv.1, hv.2.imp (fun h => h) ?_⟩
            rintro ⟨k, -, hk⟩
            have hold : s.Mail k v i (.requestVoteReply term true) := by
              rcases Cluster.mail_post hk with hk | ⟨-, -, hk⟩
              · exact hk
              · cases hk
            exact (h.mail hold).2.2.2 rfl
      | appendEntries term leaderId prevLogIndex prevLogTerm entries leaderCommit =>
          obtain ⟨-, happ⟩ := RaftNode.step_appendEntries.mp hrun
          exact respond_appendEntries h.sound h.capacity hm hsup hsrc hne hmean happ
      | appendEntriesReply term success matchIndex =>
          obtain ⟨rfl, hreply⟩ := RaftNode.step_appendEntriesReply.mp hrun
          exact respond_aeReply h.sound h.capacity hm hsup hmean hreply

-- The run lemma: a run of the cluster is explained by a run of the protocol.
theorem Tracks.reaches (h : Tracks V s A) (hrun : Cluster.Reaches V s s') :
    ∃ A', Steps (Majority V) A A' ∧ Tracks V s' A' := by
  induction hrun with
  | refl => exact ⟨A, .refl, h⟩
  | tail _ hstep ih =>
      obtain ⟨A₁, hsteps, h₁⟩ := ih
      obtain ⟨A₂, hmore, h₂⟩ := h₁.step hstep
      exact ⟨A₂, hsteps.trans hmore, h₂⟩

theorem exists_tracks (hrun : Cluster.Reaches V (Cluster.start V) s) : ∃ A, Tracks V s A := by
  obtain ⟨A, -, h⟩ := (Tracks.start V).reaches hrun
  exact ⟨A, h⟩

end LuxKernel.Consensus
