import LuxKernel.Replication.Elections

set_option linter.unusedSectionVars false

namespace LuxKernel.Replication.Proto

open Function Stamped

variable {N E : Type} [DecidableEq N] [Stamped E]
variable {quorum : Finset N → Prop} {s s' : Proto N E} {t u n m : Nat} {v w c d : N} {b : List E}

-- Every log, past or present, is consistent with the chronicles. A leader's
-- chronicle is the log it stood with, followed by entries of its own term.
structure Chronicles (s : Proto N E) : Prop where
  unelected : ∀ {t}, s.elected t = none → s.chronicle t = []
  leader_log : ∀ {c}, s.elected (s.term c) = some c → s.log c = s.chronicle (s.term c)
  chronicle_bid : ∀ {t c}, s.elected t = some c →
    ∃ b own, s.bid t c = some b ∧ s.chronicle t = b ++ own ∧ ∀ e ∈ own, stamp e = t
  bid_stamp : ∀ {t c b}, s.bid t c = some b → ∀ e ∈ b, stamp e < t
  log_stamp : ∀ {v}, ∀ e ∈ s.log v, stamp e ≤ s.term v
  log_sound : ∀ v, Consistent s.chronicle (s.log v)
  bid_sound : ∀ {t c b}, s.bid t c = some b → Consistent s.chronicle b
  ballot_sound : ∀ {t v c}, s.vote t v = some c → Consistent s.chronicle (s.ballot t v)

namespace Chronicles

theorem elected_of_mem (h : Chronicles s) {e : E} (he : e ∈ s.chronicle t) :
    ∃ c, s.elected t = some c := by
  cases hel : s.elected t with
  | none => rw [h.unelected hel] at he; cases he
  | some c => exact ⟨c, rfl⟩

theorem chronicle_stamp (h : Chronicles s) {e : E} (he : e ∈ s.chronicle t) : stamp e ≤ t := by
  obtain ⟨c, hc⟩ := h.elected_of_mem he
  obtain ⟨b, own, hb, heq, hown⟩ := h.chronicle_bid hc
  rw [heq] at he
  rcases List.mem_append.mp he with he | he
  · exact Nat.le_of_lt (h.bid_stamp hb e he)
  · exact (hown e he).le

theorem chronicle_sound (h : Chronicles s) (t : Nat) : Consistent s.chronicle (s.chronicle t) := by
  cases hel : s.elected t with
  | none =>
      rw [h.unelected hel]
      exact Consistent.nil
  | some c =>
      obtain ⟨b, own, hb, heq, hown⟩ := h.chronicle_bid hel
      intro k e he
      by_cases hk : k < b.length
      · have hek : b[k]? = some e := by
          rw [heq, List.getElem?_append_left hk] at he
          exact he
        rw [h.bid_sound hb k e hek, heq, take_append_of_le own (by omega)]
      · -- past the bid the entry is the leader's own, so the chronicle is its own past
        have hmem : e ∈ own := by
          rw [heq, List.getElem?_append_right (by omega)] at he
          exact List.mem_of_getElem? he
        rw [hown e hmem]

end Chronicles

-- The past is never rewritten. An elected leader's chronicle grows by entries
-- of its own term only.
structure Grows (s s' : Proto N E) : Prop where
  term_le : ∀ v, s.term v ≤ s'.term v
  vote : ∀ {t v c}, s.vote t v = some c → s'.vote t v = some c ∧ s'.ballot t v = s.ballot t v
  bid : ∀ {t c b}, s.bid t c = some b → s'.bid t c = some b
  elected : ∀ {t c}, s.elected t = some c → s'.elected t = some c ∧ s'.electors t = s.electors t
  chronicle : ∀ t, ∃ extra, s'.chronicle t = s.chronicle t ++ extra ∧
    (s.elected t ≠ none → ∀ e ∈ extra, stamp e = t)
  acked : ∀ {t v m}, s.acked t v m → s'.acked t v m

namespace Grows

theorem refl (s : Proto N E) : Grows s s where
  term_le _ := Nat.le_refl _
  vote h := ⟨h, rfl⟩
  bid h := h
  elected h := ⟨h, rfl⟩
  chronicle t := ⟨[], by simp⟩
  acked h := h

theorem trans {s₁ s₂ s₃ : Proto N E} (h₁ : Grows s₁ s₂) (h₂ : Grows s₂ s₃) : Grows s₁ s₃ where
  term_le v := (h₁.term_le v).trans (h₂.term_le v)
  vote h := ⟨(h₂.vote (h₁.vote h).1).1, (h₂.vote (h₁.vote h).1).2.trans (h₁.vote h).2⟩
  bid h := h₂.bid (h₁.bid h)
  elected h := ⟨(h₂.elected (h₁.elected h).1).1,
    (h₂.elected (h₁.elected h).1).2.trans (h₁.elected h).2⟩
  chronicle t := by
    obtain ⟨x, hx, hxs⟩ := h₁.chronicle t
    obtain ⟨y, hy, hys⟩ := h₂.chronicle t
    refine ⟨x ++ y, by rw [hy, hx, List.append_assoc], ?_⟩
    intro hel e he
    rcases List.mem_append.mp he with he | he
    · exact hxs hel e he
    · refine hys ?_ e he
      obtain ⟨c, hc⟩ := Option.ne_none_iff_exists'.mp hel
      rw [(h₁.elected hc).1]
      exact Option.some_ne_none c
  acked h := h₂.acked (h₁.acked h)

theorem chronicle_prefix (h : Grows s s') (t : Nat) : s.chronicle t <+: s'.chronicle t := by
  obtain ⟨extra, hx, -⟩ := h.chronicle t
  exact ⟨extra, hx.symm⟩

theorem chronicle_length_le (h : Grows s s') (t : Nat) :
    (s.chronicle t).length ≤ (s'.chronicle t).length :=
  (h.chronicle_prefix t).length_le

theorem chronicle_take (h : Grows s s') (hn : n ≤ (s.chronicle t).length) :
    (s'.chronicle t).take n = (s.chronicle t).take n := by
  obtain ⟨extra, hx, -⟩ := h.chronicle t
  rw [hx, take_append_of_le extra hn]

theorem elected_ne_none (h : Grows s s') (he : s.elected t ≠ none) : s'.elected t ≠ none := by
  obtain ⟨c, hc⟩ := Option.ne_none_iff_exists'.mp he
  rw [(h.elected hc).1]
  exact Option.some_ne_none c

end Grows

-- What each step adds to the history, and that it adds nothing else.
theorem Grows.of_step (hmeet : ∀ {Q R}, quorum Q → quorum R → ∃ v ∈ Q, v ∈ R)
    (he : Elections quorum s) (hl : Chronicles s) (st : Step quorum s s') : Grows s s' := by
  have hterm := term_le_of_step st
  cases st with
  | advance v t ht => exact { Grows.refl s with term_le := hterm }
  | stand v =>
      exact { Grows.refl s with
        term_le := hterm
        vote := vote_stand he
        bid := bid_stand he }
  | grant v c b hv hb hu =>
      exact { Grows.refl s with vote := vote_grant hv }
  | elect c Q hc hq hv =>
      have hnone := he.vacant hmeet hc hq hv
      have hold : ∀ {t d}, s.elected t = some d → t ≠ s.term c := by
        rintro t d hd rfl
        rw [hnone] at hd
        cases hd
      refine { Grows.refl s with elected := ?_, chronicle := ?_ }
      · intro t d hd
        simpa [Proto.elect, hold hd] using hd
      · intro t
        by_cases ht : t = s.term c
        · subst ht
          exact ⟨s.log c, by simp [Proto.elect, hl.unelected hnone], fun h => absurd hnone h⟩
        · exact ⟨[], by simp [Proto.elect, ht]⟩
  | extend c e hc hst =>
      refine { Grows.refl s with chronicle := ?_ }
      intro t
      by_cases ht : t = s.term c
      · subst ht
        exact ⟨[e], by simp [Proto.extend, hl.leader_log hc], fun _ => by simpa using hst⟩
      · exact ⟨[], by simp [Proto.extend, ht]⟩
  | accept v i pos count hi hne hlen hj =>
      exact { Grows.refl s with acked := Or.inl }

namespace Chronicles

private theorem of_history (h : Chronicles s) (hg : Grows s s') :
    (∀ {t c b}, s.bid t c = some b → Consistent s'.chronicle b) ∧
    (∀ {t v c}, s.vote t v = some c → Consistent s'.chronicle (s.ballot t v)) ∧
    (∀ v, Consistent s'.chronicle (s.log v)) :=
  ⟨fun hb => (h.bid_sound hb).grow hg.chronicle_prefix,
    fun hv => (h.ballot_sound hv).grow hg.chronicle_prefix,
    fun v => (h.log_sound v).grow hg.chronicle_prefix⟩

private theorem advance (he : Elections quorum s) (h : Chronicles s) (ht : s.term v < t) :
    Chronicles (s.advance v t) where
  unelected := h.unelected
  leader_log := by
    intro c hc
    by_cases hv : c = v
    · subst hv
      have := (he.elected_le hc).2
      simp only [Proto.advance, update_self] at this
      omega
    · simp only [Proto.advance, update_of_ne hv] at hc ⊢
      exact h.leader_log hc
  chronicle_bid := h.chronicle_bid
  bid_stamp := h.bid_stamp
  log_stamp := fun e hm => (h.log_stamp e hm).trans
    (term_le_of_step (.advance s v t ht : Step quorum s _) _)
  log_sound := h.log_sound
  bid_sound := h.bid_sound
  ballot_sound := h.ballot_sound

private theorem stand (he : Elections quorum s) (h : Chronicles s) (v : N) :
    Chronicles (s.stand v) where
  unelected := h.unelected
  leader_log := by
    intro c hc
    by_cases hv : c = v
    · subst hv
      have := (he.elected_le hc).2
      simp only [Proto.stand, update_self] at this
      omega
    · simp only [Proto.stand, update_of_ne hv] at hc ⊢
      exact h.leader_log hc
  chronicle_bid := by
    intro t c hc
    obtain ⟨b, own, hb, heq, hown⟩ := h.chronicle_bid hc
    exact ⟨b, own, bid_stand he hb, heq, hown⟩
  bid_stamp := by
    intro t c b hb e hm
    by_cases hc : t = s.term v + 1 ∧ c = v
    · obtain ⟨rfl, rfl⟩ := hc
      have hb' : s.log c = b := by simpa [Proto.stand] using hb
      exact Nat.lt_succ_of_le (h.log_stamp e (hb' ▸ hm))
    · exact h.bid_stamp (by simpa [Proto.stand, record_of_ne _ _ hc] using hb) e hm
  log_stamp := fun e hm => (h.log_stamp e hm).trans
    (term_le_of_step (.stand s v : Step quorum s _) _)
  log_sound := h.log_sound
  bid_sound := by
    intro t c b hb
    by_cases hc : t = s.term v + 1 ∧ c = v
    · obtain ⟨rfl, rfl⟩ := hc
      have hb' : s.log c = b := by simpa [Proto.stand] using hb
      exact hb' ▸ h.log_sound c
    · exact h.bid_sound (by simpa [Proto.stand, record_of_ne _ _ hc] using hb)
  ballot_sound := by
    intro t w c hv
    rcases vote_of_stand hv with ⟨hold, hsame⟩ | ⟨-, -, -, hlog⟩
    · exact hsame ▸ h.ballot_sound hold
    · exact hlog ▸ h.log_sound v

private theorem grant (h : Chronicles s) : Chronicles (s.grant v c) where
  unelected := h.unelected
  leader_log := h.leader_log
  chronicle_bid := h.chronicle_bid
  bid_stamp := h.bid_stamp
  log_stamp := h.log_stamp
  log_sound := h.log_sound
  bid_sound := h.bid_sound
  ballot_sound := by
    intro t w d hv
    rcases vote_of_grant hv with ⟨hold, hsame⟩ | ⟨-, -, -, hlog⟩
    · exact hsame ▸ h.ballot_sound hold
    · exact hlog ▸ h.log_sound v

private theorem elect (he : Elections quorum s) (h : Chronicles s) {Q : Finset N}
    (hc : s.candidate c) (hg : Grows s (s.elect c Q)) : Chronicles (s.elect c Q) where
  unelected := by
    intro t ht
    by_cases hu : t = s.term c
    · subst hu; simp [Proto.elect] at ht
    · simp only [Proto.elect, update_of_ne hu] at ht ⊢
      exact h.unelected ht
  leader_log := by
    intro d hd
    by_cases hu : s.term d = s.term c
    · have hcd : c = d := by simpa [Proto.elect, hu] using hd
      subst hcd
      simp [Proto.elect]
    · simp only [Proto.elect, update_of_ne hu] at hd ⊢
      exact h.leader_log hd
  chronicle_bid := by
    intro t d hd
    by_cases hu : t = s.term c
    · subst hu
      have hcd : c = d := by simpa [Proto.elect] using hd
      subst hcd
      exact ⟨s.log c, [], he.candidate_bid hc, by simp [Proto.elect], by simp⟩
    · simp only [Proto.elect, update_of_ne hu] at hd ⊢
      exact h.chronicle_bid hd
  bid_stamp := h.bid_stamp
  log_stamp := h.log_stamp
  log_sound := (h.of_history hg).2.2
  bid_sound := (h.of_history hg).1
  ballot_sound := (h.of_history hg).2.1

private theorem extend (h : Chronicles s) {e : E} (hc : s.elected (s.term c) = some c)
    (hst : stamp e = s.term c) (hg : Grows s (s.extend c e)) : Chronicles (s.extend c e) where
  unelected := by
    intro t ht
    have hu : t ≠ s.term c := by
      rintro rfl
      have : s.elected (s.term c) = none := ht
      rw [hc] at this
      cases this
    simpa [Proto.extend, hu] using h.unelected ht
  leader_log := by
    intro d hd
    by_cases hu : s.term d = s.term c
    · have hcd : c = d := by
        have hd' : s.elected (s.term d) = some d := hd
        rw [hu, hc] at hd'
        exact Option.some.inj hd'
      subst hcd
      simp [Proto.extend]
    · have hne : d ≠ c := by rintro rfl; exact hu rfl
      simp only [Proto.extend, update_of_ne hu, update_of_ne hne]
      exact h.leader_log hd
  chronicle_bid := by
    intro t d hd
    obtain ⟨b, own, hb, heq, hown⟩ := h.chronicle_bid hd
    by_cases hu : t = s.term c
    · subst hu
      refine ⟨b, own ++ [e], hb, ?_, ?_⟩
      · simp [Proto.extend, h.leader_log hc, heq]
      · intro x hx
        rcases List.mem_append.mp hx with hx | hx
        · exact hown x hx
        · rw [List.mem_singleton.mp hx]
          exact hst
    · exact ⟨b, own, hb, by simpa [Proto.extend, hu] using heq, hown⟩
  bid_stamp := h.bid_stamp
  log_stamp := by
    intro d x hx
    by_cases hd : d = c
    · subst hd
      simp only [Proto.extend, update_self, List.mem_append, List.mem_singleton] at hx
      rcases hx with hx | rfl
      · exact h.log_stamp x hx
      · exact hst.le
    · simp only [Proto.extend, update_of_ne hd] at hx
      exact h.log_stamp x hx
  log_sound := by
    intro d
    have hold := (h.of_history hg).2.2
    by_cases hd : d = c
    · subst hd
      have hlog : (s.extend d e).log d = s.log d ++ [e] := by simp [Proto.extend]
      rw [hlog]
      exact (hold d).append_singleton (by simp [Proto.extend, hst])
    · have hlog : (s.extend c e).log d = s.log d := by simp [Proto.extend, hd]
      rw [hlog]
      exact hold d
  bid_sound := (h.of_history hg).1
  ballot_sound := (h.of_history hg).2.1

private theorem accept (h : Chronicles s) {i : N} {pos count : Nat}
    (hi : s.elected (s.term v) = some i) (hne : i ≠ v)
    (hlen : pos + count ≤ (s.chronicle (s.term v)).length)
    (hj : Joined (s.log v) (s.chronicle (s.term v)) pos) :
    Chronicles (s.accept v pos count) where
  unelected := h.unelected
  leader_log := by
    intro d hd
    have hdv : d ≠ v := by
      rintro rfl
      have hd' : s.elected (s.term d) = some d := hd
      rw [hi] at hd'
      exact hne (Option.some.inj hd')
    simp only [Proto.accept, update_of_ne hdv]
    exact h.leader_log hd
  chronicle_bid := h.chronicle_bid
  bid_stamp := h.bid_stamp
  log_stamp := by
    intro d x hx
    by_cases hd : d = v
    · subst hd
      simp only [Proto.accept, update_self] at hx
      obtain ⟨hpos, htake⟩ := (h.log_sound d).take_eq_of_joined (h.chronicle_sound _) hj
      rcases splice_slice (h.log_sound d) (h.chronicle_sound _) count pos hpos hlen htake with
        ⟨hr, -⟩ | ⟨hr, -⟩
      · rw [hr] at hx
        exact h.log_stamp x hx
      · rw [hr] at hx
        exact h.chronicle_stamp (List.mem_of_mem_take hx)
    · simp only [Proto.accept, update_of_ne hd] at hx
      exact h.log_stamp x hx
  log_sound := by
    intro d
    by_cases hd : d = v
    · subst hd
      simp only [Proto.accept, update_self]
      exact splice_consistent (h.log_sound d) (h.chronicle_sound _) hlen hj
    · simp only [Proto.accept, update_of_ne hd]
      exact h.log_sound d
  bid_sound := h.bid_sound
  ballot_sound := h.ballot_sound

theorem start : Chronicles (start : Proto N E) where
  unelected := fun _ => rfl
  leader_log := by intro c h; cases h
  chronicle_bid := by intro t c h; cases h
  bid_stamp := by intro t c b h; cases h
  log_stamp := by intro v e h; cases h
  log_sound := fun _ => Consistent.nil
  bid_sound := by intro t c b h; cases h
  ballot_sound := by intro t v c h; cases h

theorem step (hmeet : ∀ {Q R}, quorum Q → quorum R → ∃ v ∈ Q, v ∈ R)
    (he : Elections quorum s) (h : Chronicles s) (st : Step quorum s s') : Chronicles s' := by
  have hg := Grows.of_step hmeet he h st
  cases st with
  | advance v t ht => exact advance he h ht
  | stand v => exact stand he h v
  | grant v c b hv hb hu => exact grant h
  | elect c Q hc hq hv => exact elect he h hc hg
  | extend c e hc hst => exact extend h hc hst hg
  | accept v i pos count hi hne hlen hj => exact accept h hi hne hlen hj

end Chronicles

end LuxKernel.Replication.Proto
