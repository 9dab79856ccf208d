import LuxKernel.Replication.Chronicles

set_option linter.unusedSectionVars false

namespace LuxKernel.Replication.Proto

open Function Stamped

variable {N E : Type} [DecidableEq N] [Stamped E]
variable {quorum : Finset N → Prop} {s s' : Proto N E} {t u n m : Nat} {v w c d : N}

-- What a node once held stays in its log, and in the log it votes with, unless
-- a leader in between lacks it. The statement mentions no quorum and no commit,
-- which is what makes it inductive. A vote counts here only if it was cast
-- before the election was decided.
structure Memory (s : Proto N E) : Prop where
  acked_le : ∀ {t v m}, s.acked t v m → t ≤ s.term v ∧ m ≤ (s.chronicle t).length
  log : ∀ {t v n}, s.Holds t v n → s.Carried t (s.term v) n →
    (s.log v).take n = (s.chronicle t).take n
  ballot : ∀ {t u v c n}, s.Holds t v n → t < u → s.vote u v = some c →
    (s.elected u = none ∨ v ∈ s.electors u) → s.Carried t (u - 1) n →
      (s.ballot u v).take n = (s.chronicle t).take n

namespace Memory

theorem holds_le (h : Memory s) (hh : s.Holds t v n) : n ≤ (s.chronicle t).length := by
  rcases hh with ⟨-, hn⟩ | ⟨m, hnm, ha⟩
  · exact hn
  · exact hnm.trans (h.acked_le ha).2

theorem holds_term_le (he : Elections quorum s) (h : Memory s) (hh : s.Holds t v n) :
    t ≤ s.term v := by
  rcases hh with ⟨hel, -⟩ | ⟨m, -, ha⟩
  · exact (he.elected_le hel).2
  · exact (h.acked_le ha).1

end Memory

-- A later leader that carries `n` entries of term `t` now already carried them
-- when it took office: what it added since bears its own, later, term.
theorem Carried.of_grows (hl : Chronicles s) (hg : Grows s s') (hn : n ≤ (s.chronicle t).length)
    (h : s'.Carried t u n) : s.Carried t u n := by
  intro t' hlt hle hel
  have hnow := h t' hlt hle (hg.elected_ne_none hel)
  rw [hg.chronicle_take hn] at hnow
  obtain ⟨extra, hx, hstamp⟩ := hg.chronicle t'
  have hlen : n ≤ (s.chronicle t').length := by
    by_contra hshort
    have hget := getElem?_eq_of_take_eq hnow (m := (s.chronicle t').length) (by omega)
    have hat : (s.chronicle t)[(s.chronicle t').length]? =
        some ((s.chronicle t).get ⟨(s.chronicle t').length, by omega⟩) :=
      List.getElem?_eq_getElem (by omega)
    rw [hat, hx, List.getElem?_append_right (Nat.le_refl _)] at hget
    have hown := hstamp hel _ (List.mem_of_getElem? hget)
    have hold := hl.chronicle_stamp (List.get_mem (s.chronicle t) ⟨(s.chronicle t').length, by omega⟩)
    omega
  rw [← hnow, hx, take_append_of_le extra hlen]

theorem Carried.mono_right {u' : Nat} (h : s.Carried t u n) (hu : u' ≤ u) : s.Carried t u' n :=
  fun t' hlt hle => h t' hlt (hle.trans hu)

-- Whoever holds more after a step got it in its current term, has it in its
-- log, and the step was no vote.
private theorem holds_cases (hl : Chronicles s) (st : Step quorum s s') (h : s'.Holds t v n) :
    s.Holds t v n ∨
      (t = s.term v ∧ s'.vote = s.vote ∧ (s'.log v).take n = (s'.chronicle t).take n) := by
  cases st with
  | advance w t' ht => exact Or.inl h
  | stand w => exact Or.inl h
  | grant w c b hv hb hu => exact Or.inl h
  | elect c Q hc hq hv =>
      rcases h with ⟨hel, hn⟩ | ha
      · by_cases ht : t = s.term c
        · subst ht
          have hcv : c = v := by simpa [elect] using hel
          subst hcv
          exact Or.inr ⟨rfl, rfl, by simp [elect]⟩
        · left; left
          simpa [elect, ht] using And.intro hel hn
      · exact Or.inl (Or.inr ha)
  | extend c e hc hst =>
      rcases h with ⟨hel, hn⟩ | ha
      · by_cases ht : t = s.term c
        · subst ht
          have hcv : c = v := Option.some.inj (hc.symm.trans hel)
          subst hcv
          exact Or.inr ⟨rfl, rfl, by simp [extend]⟩
        · left; left
          exact ⟨hel, by simpa [extend, ht] using hn⟩
      · exact Or.inl (Or.inr ha)
  | accept w i pos count hi hne hlen hj =>
      rcases h with hel | ⟨m, hnm, ha | ⟨rfl, rfl, rfl⟩⟩
      · exact Or.inl (Or.inl hel)
      · exact Or.inl (Or.inr ⟨m, hnm, ha⟩)
      · right
        refine ⟨rfl, rfl, ?_⟩
        have htake := splice_take (hl.log_sound v) (hl.chronicle_sound _) hlen hj
        simp only [accept, update_self]
        exact take_eq_of_le htake hnm

-- A step does not remove held entries from a log, unless a leader lacks them.
private theorem log_kept (he : Elections quorum s) (hl : Chronicles s) (h : Memory s)
    (st : Step quorum s s') (hh : s.Holds t v n) (hcar : s.Carried t (s.term v) n)
    (hlog : (s.log v).take n = (s.chronicle t).take n) :
    (s'.log v).take n = (s.chronicle t).take n := by
  cases st with
  | extend c e hc hst =>
      by_cases hv : v = c
      · subst hv
        have hlen := le_length_of_take_eq hlog (h.holds_le hh)
        simp only [extend, update_self]
        rw [take_append_of_le [e] hlen, hlog]
      · simpa only [extend, update_of_ne hv] using hlog
  | accept w i pos count hi hne hlen hj =>
      by_cases hv : v = w
      · subst hv
        -- the leader being followed has the entries too, so the splice keeps them
        have hleader : (s.chronicle (s.term v)).take n = (s.chronicle t).take n := by
          rcases (h.holds_term_le he hh).lt_or_eq with hlt | rfl
          · exact hcar _ hlt (Nat.le_refl _) (by rw [hi]; exact Option.some_ne_none i)
          · rfl
        simp only [accept, update_self]
        rw [← hleader]
        exact splice_take_of_take_eq (hl.log_sound v) (hl.chronicle_sound _) hlen hj
          (hlog.trans hleader.symm)
      · simpa only [accept, update_of_ne hv] using hlog
  | _ => exact hlog

-- A vote seen after a step is an earlier one, or it was cast by this step: in a
-- term the voter has just entered, or in its current one if it had not voted.
private theorem vote_cases (st : Step quorum s s') (hv : s'.vote u v = some c) :
    (s.vote u v = some c ∧ s'.ballot u v = s.ballot u v) ∨
      (s'.ballot u v = s.log v ∧ s'.elected u = s.elected u ∧ s'.electors u = s.electors u ∧
        (u = s.term v + 1 ∨ (u = s.term v ∧ s.vote u v = none))) := by
  cases st with
  | stand w =>
      rcases vote_of_stand hv with hold | ⟨rfl, rfl, -, hlog⟩
      · exact Or.inl hold
      · exact Or.inr ⟨hlog, rfl, rfl, Or.inl rfl⟩
  | grant w c b hn hb hu =>
      rcases vote_of_grant hv with hold | ⟨rfl, rfl, -, hlog⟩
      · exact Or.inl hold
      · exact Or.inr ⟨hlog, rfl, rfl, Or.inr ⟨rfl, hn⟩⟩
  | _ => exact Or.inl ⟨hv, rfl⟩

namespace Memory

theorem start : Memory (start : Proto N E) where
  acked_le := by intro t v m h; cases h
  log := by
    rintro t v n (⟨h, -⟩ | ⟨m, -, h⟩) <;> cases h
  ballot := by
    intro t u v c n _ _ h
    cases h

private theorem acked_le_step (hg : Grows s s') (h : Memory s) (st : Step quorum s s')
    (ha : s'.acked t v m) : t ≤ s'.term v ∧ m ≤ (s'.chronicle t).length := by
  have hold : s.acked t v m → t ≤ s'.term v ∧ m ≤ (s'.chronicle t).length := fun ha =>
    ⟨(h.acked_le ha).1.trans (hg.term_le v), (h.acked_le ha).2.trans (hg.chronicle_length_le t)⟩
  cases st with
  | accept w i pos count hi hne hlen hj =>
      rcases ha with ha | ⟨rfl, rfl, rfl⟩
      · exact hold ha
      · exact ⟨Nat.le_refl _, hlen⟩
  | _ => exact hold ha

private theorem log_step (he : Elections quorum s) (hl : Chronicles s) (hg : Grows s s')
    (h : Memory s) (st : Step quorum s s') (hh : s'.Holds t v n)
    (hcar : s'.Carried t (s'.term v) n) : (s'.log v).take n = (s'.chronicle t).take n := by
  rcases holds_cases hl st hh with hold | ⟨-, -, hnew⟩
  · have hn := h.holds_le hold
    have hcar' : s.Carried t (s.term v) n :=
      (Carried.of_grows hl hg hn hcar).mono_right (hg.term_le v)
    rw [hg.chronicle_take hn]
    exact log_kept he hl h st hold hcar' (h.log hold hcar')
  · exact hnew

private theorem ballot_step (he : Elections quorum s) (hl : Chronicles s) (hg : Grows s s')
    (h : Memory s) (st : Step quorum s s') (hh : s'.Holds t v n) (htu : t < u)
    (hv : s'.vote u v = some c) (hel : s'.elected u = none ∨ v ∈ s'.electors u)
    (hcar : s'.Carried t (u - 1) n) : (s'.ballot u v).take n = (s'.chronicle t).take n := by
  -- entries held only now belong to the voter's current term, too late for this vote
  have hold : s.Holds t v n := by
    rcases holds_cases hl st hh with hold | ⟨ht, hsame, -⟩
    · exact hold
    · have := he.vote_le (hsame ▸ hv)
      omega
  have hn := h.holds_le hold
  have hcar' := Carried.of_grows hl hg hn hcar
  rw [hg.chronicle_take hn]
  rcases vote_cases st hv with ⟨hvold, hsame⟩ | ⟨hlog, hel', helr, hu | ⟨hu, hnone⟩⟩
  · rw [hsame]
    refine h.ballot hold htu hvold ?_ hcar'
    cases hs : s.elected u with
    | none => exact Or.inl rfl
    | some d =>
        rw [(hg.elected hs).1, (hg.elected hs).2] at hel
        exact Or.inr (hel.resolve_left (Option.some_ne_none d))
  · rw [hlog]
    exact h.log hold (hcar'.mono_right (by omega))
  · -- a vote of the current term was cast while nobody was elected in it
    have hvac : s.elected u = none := by
      rw [hel', helr] at hel
      rcases hel with hel | hel
      · exact hel
      · cases hs : s.elected u with
        | none => rfl
        | some d =>
            have := (he.elected_by hs).2 v hel
            rw [hnone] at this
            cases this
    rw [hlog]
    refine h.log hold ?_
    intro t' hlt hle' hne
    have hne' : t' ≠ u := by
      rintro rfl
      exact hne hvac
    exact hcar' t' hlt (by omega) hne

theorem step (hmeet : ∀ {Q R}, quorum Q → quorum R → ∃ v ∈ Q, v ∈ R)
    (he : Elections quorum s) (hl : Chronicles s) (h : Memory s) (st : Step quorum s s') :
    Memory s' := by
  have hg := Grows.of_step hmeet he hl st
  exact {
    acked_le := acked_le_step hg h st
    log := log_step he hl hg h st
    ballot := ballot_step he hl hg h st }

end Memory

-- The invariant of the protocol.
variable (quorum) in
structure Sound (s : Proto N E) : Prop where
  elections : Elections quorum s
  chronicles : Chronicles s
  memory : Memory s

theorem Sound.start : Sound quorum (start : Proto N E) :=
  ⟨Elections.start, Chronicles.start, Memory.start⟩

section Safety

variable (hmeet : ∀ {Q R}, quorum Q → quorum R → ∃ v ∈ Q, v ∈ R)
include hmeet

theorem Sound.step (h : Sound quorum s) (st : Step quorum s s') : Sound quorum s' :=
  ⟨h.elections.step st, h.chronicles.step hmeet h.elections st,
    h.memory.step hmeet h.elections h.chronicles st⟩

theorem Sound.steps (h : Sound quorum s) (st : Steps quorum s s') :
    Sound quorum s' ∧ Grows s s' := by
  induction st with
  | refl => exact ⟨h, Grows.refl s⟩
  | tail _ last ih =>
      obtain ⟨hs, hg⟩ := ih
      exact ⟨hs.step hmeet last, hg.trans (Grows.of_step hmeet hs.elections hs.chronicles last)⟩

end Safety

-- A quorum has held the first `n` entries of the leader of term `t`, and the
-- last of them is that leader's own.
variable (quorum) in
def Chosen (s : Proto N E) (t n : Nat) : Prop :=
  0 < n ∧ (∃ e, (s.chronicle t)[n - 1]? = some e ∧ stamp e = t) ∧
    ∃ Q, quorum Q ∧ ∀ v ∈ Q, s.Holds t v n

theorem Holds.mono (hg : Grows s s') (h : s.Holds t v n) : s'.Holds t v n := by
  rcases h with ⟨he, hn⟩ | ⟨m, hnm, ha⟩
  · exact Or.inl ⟨(hg.elected he).1, hn.trans (hg.chronicle_length_le t)⟩
  · exact Or.inr ⟨m, hnm, hg.acked ha⟩

theorem Chosen.le_length (h : Chosen quorum s t n) : n ≤ (s.chronicle t).length := by
  obtain ⟨hpos, ⟨e, he, -⟩, -⟩ := h
  have := (List.getElem?_eq_some_iff.mp he).1
  omega

theorem Chosen.mono (hg : Grows s s') (h : Chosen quorum s t n) : Chosen quorum s' t n := by
  have hn := h.le_length
  obtain ⟨hpos, ⟨e, he, hst⟩, Q, hq, hall⟩ := h
  refine ⟨hpos, ⟨e, ?_, hst⟩, Q, hq, fun v hv => (hall v hv).mono hg⟩
  rw [getElem?_eq_of_take_eq (hg.chronicle_take hn) (by omega), he]

-- A log that wins a vote against one holding the chosen entries has them too.
-- Either both logs end in the same term, and the longer one contains the
-- shorter, or the winner ends in the term of a leader that carries the entries.
private theorem take_of_upToDate (hl : Chronicles s) {ours theirs : List E}
    (ho : Consistent s.chronicle ours) (ht : Consistent s.chronicle theirs)
    (hup : UpToDate ours theirs) {e : E} (hpos : 0 < n)
    (hn : n ≤ (s.chronicle t).length) (he : (s.chronicle t)[n - 1]? = some e) (hst : stamp e = t)
    (htheirs : theirs.take n = (s.chronicle t).take n)
    (hours : ∀ x ∈ ours, stamp x ≤ u) (hcar : s.Carried t u n) :
    ours.take n = (s.chronicle t).take n := by
  have hlen : n ≤ theirs.length := le_length_of_take_eq htheirs hn
  have hne : theirs ≠ [] := by rintro rfl; simp at hlen; omega
  obtain ⟨x, hx, hlast⟩ := exists_last hne
  have hwhole := ht (theirs.length - 1) x hx
  rw [show theirs.length - 1 + 1 = theirs.length by omega, List.take_length] at hwhole
  -- the chosen entry lies in their log, so that log ends in term `t` or later
  have hxt : t ≤ stamp x := by
    have hmem : e ∈ s.chronicle (stamp x) := by
      have hthere := getElem?_eq_of_take_eq htheirs (m := n - 1) (by omega)
      rw [he, ← hwhole] at hthere
      exact List.mem_of_mem_take (List.mem_of_getElem? hthere)
    exact hst ▸ hl.chronicle_stamp hmem
  have hne' : ours ≠ [] := by
    rintro rfl
    rcases hup with hlt | ⟨heq, hle⟩
    · simp at hlt
    · simp at hle
      exact hne hle
  obtain ⟨y, hy, hlast'⟩ := exists_last hne'
  have hwhole' := ho (ours.length - 1) y hy
  have hours_pos := List.length_pos_iff.mpr hne'
  rw [show ours.length - 1 + 1 = ours.length by omega, List.take_length] at hwhole'
  rcases hup with hlt | ⟨heq, hle⟩
  · have hty : t < stamp y := by omega
    have hmem : y ∈ s.chronicle (stamp y) := by
      have : y ∈ ours := List.mem_of_getElem? hy
      rw [← hwhole'] at this
      exact List.mem_of_mem_take this
    obtain ⟨c, hc⟩ := hl.elected_of_mem hmem
    have hcy := hcar (stamp y) hty (hours y (List.mem_of_getElem? hy))
      (by rw [hc]; exact Option.some_ne_none c)
    have hn' : n ≤ ours.length := by
      by_contra hshort
      have hyc : (s.chronicle (stamp y))[ours.length - 1]? = some y := by
        have := getElem?_eq_of_take_eq (a := s.chronicle (stamp y)) (b := ours)
          (n := ours.length) (m := ours.length - 1) (by rw [hwhole', List.take_length]) (by omega)
        rw [this, hy]
      have hyt := getElem?_eq_of_take_eq hcy (m := ours.length - 1) (by omega)
      rw [hyc] at hyt
      have := hl.chronicle_stamp (List.mem_of_getElem? hyt.symm)
      omega
    calc ours.take n = ((s.chronicle (stamp y)).take ours.length).take n := by rw [hwhole']
      _ = (s.chronicle (stamp y)).take n := by rw [List.take_take, Nat.min_eq_left hn']
      _ = (s.chronicle t).take n := hcy
  · have hxy : stamp x = stamp y := by omega
    calc ours.take n = ((s.chronicle (stamp y)).take ours.length).take n := by rw [hwhole']
      _ = ((s.chronicle (stamp x)).take theirs.length).take n := by
        rw [hxy, List.take_take, List.take_take, Nat.min_eq_left hlen,
          Nat.min_eq_left (hlen.trans hle)]
      _ = (s.chronicle t).take n := by rw [hwhole, htheirs]

-- Leader completeness, by strong induction on the later term. A voter of the
-- later leader has held the chosen entries. All leaders in between carry them,
-- so the voter still had them when it voted, and so had the log it voted for.
theorem Sound.complete (hmeet : ∀ {Q R}, quorum Q → quorum R → ∃ v ∈ Q, v ∈ R)
    (h : Sound quorum s) (hch : Chosen quorum s t n) (htu : t < u) (hel : s.elected u ≠ none) :
    (s.chronicle u).take n = (s.chronicle t).take n := by
  induction u using Nat.strong_induction_on with
  | _ u ih =>
    have hn := hch.le_length
    obtain ⟨hpos, ⟨e, he, hst⟩, Q, hq, hall⟩ := hch
    obtain ⟨c, hc⟩ := Option.ne_none_iff_exists'.mp hel
    obtain ⟨hqu, hvotes⟩ := h.elections.elected_by hc
    obtain ⟨v, hvQ, hvu⟩ := hmeet hq hqu
    have hcar : s.Carried t (u - 1) n := fun t' hlt hle hne => ih t' (by omega) hlt hne
    have hballot := h.memory.ballot (hall v hvQ) htu (hvotes v hvu) (Or.inr hvu) hcar
    obtain ⟨b, hb, hup⟩ := h.elections.vote_bid (hvotes v hvu)
    obtain ⟨b', own, hb', hchron, -⟩ := h.chronicles.chronicle_bid hc
    have hbb : b' = b := Option.some.inj (hb'.symm.trans hb)
    subst hbb
    have htake := take_of_upToDate h.chronicles (h.chronicles.bid_sound hb)
      (h.chronicles.ballot_sound (hvotes v hvu)) hup hpos hn he hst hballot
      (fun x hx => Nat.le_sub_one_of_lt (h.chronicles.bid_stamp hb x hx)) hcar
    rw [hchron, take_append_of_le own (le_length_of_take_eq htake hn), htake]

-- The first `k` entries of `log` are chosen ones, chosen no later than `t`.
variable (quorum) in
def Settled (s : Proto N E) (t : Nat) (log : List E) (k : Nat) : Prop :=
  k = 0 ∨ ∃ t' n, t' ≤ t ∧ Chosen quorum s t' n ∧ k ≤ n ∧ log.take k = (s.chronicle t').take k

namespace Settled

variable {log other : List E} {k : Nat}

theorem mono (hg : Grows s s') (htu : t ≤ u) (h : Settled quorum s t log k) :
    Settled quorum s' u log k := by
  rcases h with rfl | ⟨t', n, hle, hch, hk, hlog⟩
  · exact Or.inl rfl
  · refine Or.inr ⟨t', n, hle.trans htu, hch.mono hg, hk, ?_⟩
    rw [hg.chronicle_take (hk.trans hch.le_length), hlog]

theorem of_chosen (hch : Chosen quorum s t n) : Settled quorum s t (s.chronicle t) n :=
  Or.inr ⟨t, n, Nat.le_refl t, hch, Nat.le_refl n, rfl⟩

theorem congr (h : Settled quorum s t log k) (heq : other.take k = log.take k) :
    Settled quorum s t other k := by
  rcases h with rfl | ⟨t', n, hle, hch, hk, hlog⟩
  · exact Or.inl rfl
  · exact Or.inr ⟨t', n, hle, hch, hk, heq.trans hlog⟩

theorem le {j : Nat} (h : Settled quorum s t log k) (hj : j ≤ k) : Settled quorum s t log j := by
  rcases h with rfl | ⟨t', n, hle, hch, hk, hlog⟩
  · exact Or.inl (Nat.le_zero.mp hj)
  · exact Or.inr ⟨t', n, hle, hch, hj.trans hk, take_eq_of_le hlog hj⟩

theorem le_length (h : Settled quorum s t log k) : k ≤ log.length := by
  rcases h with rfl | ⟨t', n, -, hch, hk, hlog⟩
  · exact Nat.zero_le _
  · exact le_length_of_take_eq hlog (hk.trans hch.le_length)

-- The leader of the current term carries whatever is settled.
theorem take_leader (hmeet : ∀ {Q R}, quorum Q → quorum R → ∃ v ∈ Q, v ∈ R)
    (hs : Sound quorum s) (h : Settled quorum s t log k) (hel : s.elected t ≠ none) :
    log.take k = (s.chronicle t).take k := by
  rcases h with rfl | ⟨t', n, hle, hch, hk, hlog⟩
  · simp
  · rcases hle.lt_or_eq with hlt | rfl
    · rw [hlog, take_eq_of_le (hs.complete hmeet hch hlt hel) hk]
    · exact hlog

theorem agree (hmeet : ∀ {Q R}, quorum Q → quorum R → ∃ v ∈ Q, v ∈ R)
    (hs : Sound quorum s) (h : Settled quorum s t log k) (ho : Settled quorum s u other k) :
    log.take k = other.take k := by
  rcases h with rfl | ⟨t₁, n₁, -, hch₁, hk₁, hlog₁⟩
  · simp
  rcases ho with rfl | ⟨t₂, n₂, -, hch₂, hk₂, hlog₂⟩
  · simp
  have hlead : ∀ {t n}, Chosen quorum s t n → s.elected t ≠ none := by
    intro t n hch
    obtain ⟨-, ⟨e, he, -⟩, -⟩ := hch
    obtain ⟨c, hc⟩ := hs.chronicles.elected_of_mem (List.mem_of_getElem? he)
    rw [hc]
    exact Option.some_ne_none c
  rw [hlog₁, hlog₂]
  rcases lt_trichotomy t₁ t₂ with hlt | rfl | hlt
  · exact (take_eq_of_le (hs.complete hmeet hch₁ hlt (hlead hch₂)) hk₁).symm
  · rfl
  · exact take_eq_of_le (hs.complete hmeet hch₂ hlt (hlead hch₁)) hk₂

end Settled

end LuxKernel.Replication.Proto
