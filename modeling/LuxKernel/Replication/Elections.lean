import LuxKernel.Replication.Protocol

set_option linter.unusedSectionVars false

namespace LuxKernel.Replication.Proto

open Function Stamped

variable {N E : Type} [DecidableEq N] [Stamped E]
variable {quorum : Finset N → Prop} {s s' : Proto N E} {t u n m : Nat} {v w c d : N} {b : List E}

variable (quorum) in
structure Elections (s : Proto N E) : Prop where
  vote_le : ∀ {t v c}, s.vote t v = some c → t ≤ s.term v
  bid_le : ∀ {t c b}, s.bid t c = some b → 0 < t ∧ t ≤ s.term c
  vote_bid : ∀ {t v c}, s.vote t v = some c →
    ∃ b, s.bid t c = some b ∧ UpToDate b (s.ballot t v)
  candidate_bid : ∀ {v}, s.candidate v → s.bid (s.term v) v = some (s.log v)
  candidate_new : ∀ {v}, s.candidate v → s.elected (s.term v) ≠ some v
  elected_bid : ∀ {t c}, s.elected t = some c → ∃ b, s.bid t c = some b
  elected_by : ∀ {t c}, s.elected t = some c →
    quorum (s.electors t) ∧ ∀ v ∈ s.electors t, s.vote t v = some c

theorem Elections.elected_le (h : Elections quorum s) (he : s.elected t = some c) :
    0 < t ∧ t ≤ s.term c := by
  obtain ⟨b, hb⟩ := h.elected_bid he
  exact h.bid_le hb

theorem term_le_of_step (st : Step quorum s s') (v : N) : s.term v ≤ s'.term v := by
  cases st with
  | advance w t ht =>
      by_cases hv : v = w
      · subst hv; simpa [advance] using Nat.le_of_lt ht
      · simp [advance, hv]
  | stand w =>
      by_cases hv : v = w
      · subst hv; simp [stand]
      · simp [stand, hv]
  | _ => exact Nat.le_refl _

private theorem elections_advance (h : Elections quorum s) (ht : s.term v < t) :
    Elections quorum (s.advance v t) := by
  have hle : ∀ w, s.term w ≤ (s.advance v t).term w :=
    term_le_of_step (.advance s v t ht : Step quorum s _)
  have hcand : ∀ {w}, (s.advance v t).candidate w →
      s.candidate w ∧ (s.advance v t).term w = s.term w := by
    intro w hw
    by_cases hv : w = v
    · subst hv; simp [advance] at hw
    · simpa [advance, hv] using hw
  exact {
    vote_le := fun hv => (h.vote_le hv).trans (hle _)
    bid_le := fun hb => ⟨(h.bid_le hb).1, (h.bid_le hb).2.trans (hle _)⟩
    vote_bid := h.vote_bid
    candidate_bid := by
      intro w hw
      obtain ⟨hc, ht'⟩ := hcand hw
      rw [ht']
      exact h.candidate_bid hc
    candidate_new := by
      intro w hw
      obtain ⟨hc, ht'⟩ := hcand hw
      rw [ht']
      exact h.candidate_new hc
    elected_bid := h.elected_bid
    elected_by := h.elected_by }

-- Nobody has voted or stood in a term it has not reached.
private theorem stand_fresh (h : Elections quorum s) (v : N) :
    s.vote (s.term v + 1) v = none ∧ s.bid (s.term v + 1) v = none := by
  constructor
  · cases hv : s.vote (s.term v + 1) v with
    | none => rfl
    | some c => have := h.vote_le hv; omega
  · cases hb : s.bid (s.term v + 1) v with
    | none => rfl
    | some b => have := (h.bid_le hb).2; omega

theorem bid_stand (h : Elections quorum s) (hb : s.bid t c = some b) :
    (s.stand v).bid t c = some b := by
  have hne : ¬(t = s.term v + 1 ∧ c = v) := by
    rintro ⟨rfl, rfl⟩
    rw [(stand_fresh h c).2] at hb
    cases hb
  simpa [stand, record_of_ne _ _ hne] using hb

theorem vote_stand (h : Elections quorum s) (hv : s.vote t w = some c) :
    (s.stand v).vote t w = some c ∧ (s.stand v).ballot t w = s.ballot t w := by
  have hne : ¬(t = s.term v + 1 ∧ w = v) := by
    rintro ⟨rfl, rfl⟩
    rw [(stand_fresh h w).1] at hv
    cases hv
  simpa [stand, record_of_ne _ _ hne] using hv

-- A vote seen after standing is an earlier one or the candidate's own.
theorem vote_of_stand (hv : (s.stand v).vote t w = some c) :
    (s.vote t w = some c ∧ (s.stand v).ballot t w = s.ballot t w) ∨
      (t = s.term v + 1 ∧ w = v ∧ c = v ∧ (s.stand v).ballot t w = s.log v) := by
  by_cases h : t = s.term v + 1 ∧ w = v
  · obtain ⟨rfl, rfl⟩ := h
    right
    simpa [stand, eq_comm] using hv
  · left
    simpa [stand, record_of_ne _ _ h] using hv

private theorem elections_stand (h : Elections quorum s) (v : N) :
    Elections quorum (s.stand v) := by
  have hle : ∀ w, s.term w ≤ (s.stand v).term w :=
    term_le_of_step (.stand s v : Step quorum s _)
  have hself : (s.stand v).term v = s.term v + 1 := by simp [stand]
  have hbid : (s.stand v).bid (s.term v + 1) v = some (s.log v) := by simp [stand]
  refine ⟨?_, ?_, ?_, ?_, ?_, ?_, ?_⟩
  · intro t w c hv
    rcases vote_of_stand hv with ⟨hold, -⟩ | ⟨rfl, rfl, -, -⟩
    · exact (h.vote_le hold).trans (hle _)
    · exact hself.ge
  · intro t c b hb
    by_cases hc : t = s.term v + 1 ∧ c = v
    · obtain ⟨rfl, rfl⟩ := hc
      exact ⟨Nat.succ_pos _, hself.ge⟩
    · have hb' : s.bid t c = some b := by simpa [stand, record_of_ne _ _ hc] using hb
      exact ⟨(h.bid_le hb').1, (h.bid_le hb').2.trans (hle _)⟩
  · intro t w c hv
    rcases vote_of_stand hv with ⟨hold, hsame⟩ | ⟨rfl, rfl, rfl, hlog⟩
    · obtain ⟨b, hb, hu⟩ := h.vote_bid hold
      exact ⟨b, bid_stand h hb, hsame ▸ hu⟩
    · exact ⟨_, hbid, hlog ▸ UpToDate.refl _⟩
  · intro w hw
    by_cases hv : w = v
    · subst hv
      rw [hself]
      exact hbid
    · have hc : s.candidate w := by simpa [stand, hv] using hw
      have ht : (s.stand v).term w = s.term w := by simp [stand, hv]
      rw [ht]
      exact bid_stand h (h.candidate_bid hc)
  · intro w hw
    by_cases hv : w = v
    · subst hv
      rw [hself]
      intro he
      have := (h.elected_le he).2
      omega
    · have hc : s.candidate w := by simpa [stand, hv] using hw
      have ht : (s.stand v).term w = s.term w := by simp [stand, hv]
      rw [ht]
      exact h.candidate_new hc
  · intro t c he
    obtain ⟨b, hb⟩ := h.elected_bid he
    exact ⟨b, bid_stand h hb⟩
  · intro t c he
    obtain ⟨hq, hall⟩ := h.elected_by he
    exact ⟨hq, fun w hw => (vote_stand h (hall w hw)).1⟩

theorem vote_grant (hn : s.vote (s.term v) v = none) (hv : s.vote t w = some d) :
    (s.grant v c).vote t w = some d ∧ (s.grant v c).ballot t w = s.ballot t w := by
  have hne : ¬(t = s.term v ∧ w = v) := by
    rintro ⟨rfl, rfl⟩
    rw [hn] at hv
    cases hv
  simpa [grant, record_of_ne _ _ hne] using hv

theorem vote_of_grant (hv : (s.grant v c).vote t w = some d) :
    (s.vote t w = some d ∧ (s.grant v c).ballot t w = s.ballot t w) ∨
      (t = s.term v ∧ w = v ∧ d = c ∧ (s.grant v c).ballot t w = s.log v) := by
  by_cases h : t = s.term v ∧ w = v
  · obtain ⟨rfl, rfl⟩ := h
    right
    simpa [grant, eq_comm] using hv
  · left
    simpa [grant, record_of_ne _ _ h] using hv

private theorem elections_grant (h : Elections quorum s) (hn : s.vote (s.term v) v = none)
    (hb : s.bid (s.term v) c = some b) (hu : UpToDate b (s.log v)) :
    Elections quorum (s.grant v c) where
  vote_le := by
    intro t w d hv
    rcases vote_of_grant hv with ⟨hold, -⟩ | ⟨rfl, rfl, -, -⟩
    · exact h.vote_le hold
    · exact Nat.le_refl _
  bid_le := h.bid_le
  vote_bid := by
    intro t w d hv
    rcases vote_of_grant hv with ⟨hold, hsame⟩ | ⟨rfl, rfl, rfl, hlog⟩
    · rw [hsame]
      exact h.vote_bid hold
    · rw [hlog]
      exact ⟨b, hb, hu⟩
  candidate_bid := h.candidate_bid
  candidate_new := h.candidate_new
  elected_bid := h.elected_bid
  elected_by := by
    intro t d he
    obtain ⟨hq, hall⟩ := h.elected_by he
    exact ⟨hq, fun w hw => (vote_grant hn (hall w hw)).1⟩

private theorem candidate_of_update {f : N → Prop} (h : update f v False w) : w ≠ v ∧ f w := by
  by_cases hw : w = v
  · subst hw; simp at h
  · exact ⟨hw, by simpa [hw] using h⟩

private theorem elections_elect (h : Elections quorum s) {Q : Finset N} (hc : s.candidate c)
    (hq : quorum Q) (hv : ∀ v ∈ Q, s.vote (s.term c) v = some c) :
    Elections quorum (s.elect c Q) where
  vote_le := h.vote_le
  bid_le := h.bid_le
  vote_bid := h.vote_bid
  candidate_bid := fun hw => h.candidate_bid (candidate_of_update hw).2
  candidate_new := by
    intro w hw
    obtain ⟨hne, hw⟩ := candidate_of_update hw
    by_cases ht : s.term w = s.term c
    · simpa [elect, ht] using Ne.symm hne
    · simpa [elect, ht] using h.candidate_new hw
  elected_bid := by
    intro t d he
    by_cases ht : t = s.term c
    · subst ht
      have hd : c = d := by simpa [elect] using he
      subst hd
      exact ⟨_, h.candidate_bid hc⟩
    · exact h.elected_bid (by simpa [elect, ht] using he)
  elected_by := by
    intro t d he
    by_cases ht : t = s.term c
    · subst ht
      have hd : c = d := by simpa [elect] using he
      subst hd
      simpa [elect] using ⟨hq, hv⟩
    · have he' : s.elected t = some d := by simpa [elect, ht] using he
      simpa [elect, ht] using h.elected_by he'

-- A leader is no candidate, so extending its log disturbs no bid.
private theorem elections_extend (h : Elections quorum s) {e : E}
    (hc : s.elected (s.term c) = some c) : Elections quorum (s.extend c e) where
  vote_le := h.vote_le
  bid_le := h.bid_le
  vote_bid := h.vote_bid
  candidate_bid := by
    intro w hw
    have hne : w ≠ c := by
      rintro rfl
      exact h.candidate_new hw hc
    simpa [extend, hne] using h.candidate_bid hw
  candidate_new := h.candidate_new
  elected_bid := h.elected_bid
  elected_by := h.elected_by

private theorem elections_accept (h : Elections quorum s) (pos count : Nat) :
    Elections quorum (s.accept v pos count) where
  vote_le := h.vote_le
  bid_le := h.bid_le
  vote_bid := h.vote_bid
  candidate_bid := by
    intro w hw
    obtain ⟨hne, hw⟩ := candidate_of_update hw
    simpa [accept, hne] using h.candidate_bid hw
  candidate_new := fun hw => h.candidate_new (candidate_of_update hw).2
  elected_bid := h.elected_bid
  elected_by := h.elected_by

theorem Elections.start : Elections quorum (start : Proto N E) where
  vote_le := by intro t v c h; cases h
  bid_le := by intro t c b h; cases h
  vote_bid := by intro t v c h; cases h
  candidate_bid := by intro v h; cases h
  candidate_new := by intro v h; cases h
  elected_bid := by intro t c h; cases h
  elected_by := by intro t c h; cases h

theorem Elections.step (h : Elections quorum s) (st : Step quorum s s') :
    Elections quorum s' := by
  cases st with
  | advance v t ht => exact elections_advance h ht
  | stand v => exact elections_stand h v
  | grant v c b hv hb hu => exact elections_grant h hv hb hu
  | elect c Q hc hq hv => exact elections_elect h hc hq hv
  | extend c e hc he => exact elections_extend h hc
  | accept v i pos count hi hne hlen hj => exact elections_accept h pos count

-- Two quorums share a voter, and a voter votes once a term. So nobody holds
-- the office that a candidate with a quorum of votes is about to take.
theorem Elections.vacant (hmeet : ∀ {Q R}, quorum Q → quorum R → ∃ v ∈ Q, v ∈ R)
    (h : Elections quorum s) {Q : Finset N} (hc : s.candidate c) (hq : quorum Q)
    (hv : ∀ v ∈ Q, s.vote (s.term c) v = some c) : s.elected (s.term c) = none := by
  cases he : s.elected (s.term c) with
  | none => rfl
  | some d =>
      obtain ⟨hqd, hvd⟩ := h.elected_by he
      obtain ⟨v, hvQ, hvR⟩ := hmeet hq hqd
      have hcd : c = d := Option.some.inj ((hv v hvQ).symm.trans (hvd v hvR))
      subst hcd
      exact absurd he (h.candidate_new hc)

end LuxKernel.Replication.Proto
