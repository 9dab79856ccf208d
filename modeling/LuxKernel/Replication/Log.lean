import Mathlib.Data.List.Basic
import Mathlib.Data.List.TakeDrop

namespace LuxKernel.Replication

-- Entries carry the term of the leader that created them.
class Stamped (E : Type) where
  stamp : E → Nat

open Stamped

variable {E : Type} [Stamped E]

-- Overwrite `log` with `entries` from position `pos` on. Entries whose stamp is
-- already in place are kept. The first missing or different stamp replaces
-- the rest of the log.
def splice (log : List E) : Nat → List E → List E
  | _, [] => log
  | pos, entry :: rest =>
      match log[pos]? with
      | some held => if stamp held = stamp entry then splice log (pos + 1) rest
          else log.take pos ++ entry :: rest
      | none => log.take pos ++ entry :: rest

def lastStamp (log : List E) : Nat := (log.getLast?).elim 0 stamp

-- The order in which voters compare logs.
def UpToDate (ours theirs : List E) : Prop :=
  lastStamp theirs < lastStamp ours ∨
    lastStamp theirs = lastStamp ours ∧ theirs.length ≤ ours.length

-- `chronicle t` is the log of the leader of term `t`. A log is consistent with
-- the chronicles when each entry comes with all that its leader had before it.
def Consistent (chronicle : Nat → List E) (log : List E) : Prop :=
  ∀ k e, log[k]? = some e → (chronicle (stamp e)).take (k + 1) = log.take (k + 1)

-- The two logs carry the same stamp just before position `pos`.
def Joined (log other : List E) (pos : Nat) : Prop :=
  pos = 0 ∨ ∃ x y, log[pos - 1]? = some x ∧ other[pos - 1]? = some y ∧ stamp x = stamp y

section Take

variable {α : Type} {a b : List α} {m n : Nat}

theorem take_eq_of_le (h : a.take n = b.take n) (hmn : m ≤ n) : a.take m = b.take m := by
  have hm := congrArg (List.take m) h
  simpa only [List.take_take, Nat.min_eq_left hmn] using hm

theorem getElem?_eq_of_take_eq (h : a.take n = b.take n) (hm : m < n) : a[m]? = b[m]? := by
  have hm' := congrArg (·[m]?) h
  simpa [List.getElem?_take, hm] using hm'

theorem le_length_of_take_eq (h : a.take n = b.take n) (hn : n ≤ b.length) : n ≤ a.length := by
  have hl := congrArg List.length h
  simp only [List.length_take] at hl
  omega

theorem take_append_of_le (extra : List α) (hn : n ≤ a.length) :
    (a ++ extra).take n = a.take n := by
  rw [List.take_append_of_le_length hn]

theorem take_append_drop_take (a : List α) (n count : Nat) :
    a.take n ++ (a.drop n).take count = a.take (n + count) := by
  rw [List.take_add]

end Take

theorem lastStamp_eq_of_getElem? {log : List E} {e : E} (h : log[log.length - 1]? = some e) :
    lastStamp log = stamp e := by
  simp [lastStamp, List.getLast?_eq_getElem?, h]

theorem exists_last {log : List E} (h : log ≠ []) :
    ∃ e, log[log.length - 1]? = some e ∧ lastStamp log = stamp e := by
  have hlen : log.length - 1 < log.length := by
    have := List.length_pos_iff.mpr h
    omega
  exact ⟨log[log.length - 1], List.getElem?_eq_getElem hlen,
    lastStamp_eq_of_getElem? (List.getElem?_eq_getElem hlen)⟩

@[simp] theorem lastStamp_nil : lastStamp ([] : List E) = 0 := rfl

theorem UpToDate.refl (log : List E) : UpToDate log log := Or.inr ⟨rfl, Nat.le_refl _⟩

namespace Consistent

variable {chronicle next : Nat → List E} {log other : List E}

theorem nil : Consistent chronicle ([] : List E) := by
  intro k e h
  simp at h

theorem take (h : Consistent chronicle log) (n : Nat) : Consistent chronicle (log.take n) := by
  intro k e he
  rw [List.getElem?_take] at he
  split at he
  · rename_i hk
    rw [List.take_take, Nat.min_eq_left (by omega)]
    exact h k e he
  · cases he

-- Chronicles only grow at the end, which an entry's past cannot see.
theorem grow (h : Consistent chronicle log) (hg : ∀ t, chronicle t <+: next t) :
    Consistent next log := by
  intro k e he
  have hk := h k e he
  obtain ⟨extra, hx⟩ := hg (stamp e)
  have hlen : k < log.length := (List.getElem?_eq_some_iff.mp he).1
  have hle : k + 1 ≤ (chronicle (stamp e)).length := le_length_of_take_eq hk (by omega)
  rw [← hx, take_append_of_le extra hle, hk]

-- Log matching: one equal stamp makes two consistent logs equal up to it.
theorem matching (h : Consistent chronicle log) (ho : Consistent chronicle other)
    {k : Nat} {x y : E} (hx : log[k]? = some x) (hy : other[k]? = some y)
    (hs : stamp x = stamp y) : log.take (k + 1) = other.take (k + 1) := by
  rw [← h k x hx, ← ho k y hy, hs]

theorem append_singleton (h : Consistent chronicle log) {e : E}
    (he : chronicle (stamp e) = log ++ [e]) : Consistent chronicle (log ++ [e]) := by
  intro k x hx
  by_cases hk : k < log.length
  · rw [List.getElem?_append_left hk] at hx
    rw [take_append_of_le [e] (by omega)]
    exact h k x hx
  · have hlast : k = log.length ∧ x = e := by
      rw [List.getElem?_append_right (by omega)] at hx
      have hk' : k - log.length < 1 := by
        have := (List.getElem?_eq_some_iff.mp hx).1
        simpa using this
      have h0 : k - log.length = 0 := by omega
      rw [h0] at hx
      exact ⟨by omega, (by simpa using hx.symm)⟩
    obtain ⟨rfl, rfl⟩ := hlast
    rw [he]

theorem take_eq_of_joined (h : Consistent chronicle log) (ho : Consistent chronicle other)
    {pos : Nat} (hj : Joined log other pos) :
    pos ≤ log.length ∧ log.take pos = other.take pos := by
  rcases hj with rfl | ⟨x, y, hx, hy, hs⟩
  · simp
  · cases pos with
    | zero => simp
    | succ p =>
        simp only [Nat.add_sub_cancel] at hx hy
        exact ⟨(List.getElem?_eq_some_iff.mp hx).1, h.matching ho hx hy hs⟩

end Consistent

-- The stamps of the entries are all in place already.
def Held (log : List E) (pos : Nat) (entries : List E) : Prop :=
  ∀ k < entries.length, (log[pos + k]?).map stamp = (entries[k]?).map stamp

theorem held_cons {log rest : List E} {pos : Nat} {entry : E} :
    Held log pos (entry :: rest) ↔
      (log[pos]?).map stamp = some (stamp entry) ∧ Held log (pos + 1) rest := by
  constructor
  · intro h
    refine ⟨by simpa using h 0 (by simp), fun k hk => ?_⟩
    have hnext := h (k + 1) (by simpa using hk)
    rwa [List.getElem?_cons_succ, ← Nat.add_assoc, Nat.add_right_comm] at hnext
  · rintro ⟨hfirst, hrest⟩ k hk
    cases k with
    | zero => simpa using hfirst
    | succ k =>
        rw [List.getElem?_cons_succ, ← Nat.add_assoc, Nat.add_right_comm]
        exact hrest k (by simpa using hk)

theorem splice_of_held {log entries : List E} {pos : Nat} (h : Held log pos entries) :
    splice log pos entries = log := by
  induction entries generalizing pos with
  | nil => rfl
  | cons entry rest ih =>
      obtain ⟨hfirst, hrest⟩ := held_cons.mp h
      obtain ⟨held, hheld, hstamp⟩ := Option.map_eq_some_iff.mp hfirst
      simp only [splice, hheld, hstamp, if_true]
      exact ih hrest

-- Otherwise the log is cut at the first stamp that is missing or different, and the
-- entries go on from there.
theorem splice_cut {log entries : List E} {pos : Nat} (hpos : pos ≤ log.length)
    (h : ¬Held log pos entries) : ∃ k < entries.length, pos + k ≤ log.length ∧
      Held log pos (entries.take k) ∧
      (log[pos + k]?).map stamp ≠ (entries[k]?).map stamp ∧
      splice log pos entries = log.take (pos + k) ++ entries.drop k := by
  induction entries generalizing pos with
  | nil => exact absurd (fun k hk => absurd hk (Nat.not_lt_zero k)) h
  | cons entry rest ih =>
      rw [held_cons, not_and_or] at h
      by_cases hfirst : (log[pos]?).map stamp = some (stamp entry)
      · obtain ⟨held, hheld, hstamp⟩ := Option.map_eq_some_iff.mp hfirst
        have hlt := (List.getElem?_eq_some_iff.mp hheld).1
        obtain ⟨k, hk, hle, hbefore, hat, hsplice⟩ := ih hlt (h.resolve_left (not_not.mpr hfirst))
        have hshift : pos + 1 + k = pos + (k + 1) := by omega
        rw [hshift] at hle hat hsplice
        refine ⟨k + 1, Nat.succ_lt_succ hk, hle, ?_, by simpa using hat, ?_⟩
        · rw [List.take_succ_cons]
          exact held_cons.mpr ⟨hfirst, hbefore⟩
        · simp only [splice, hheld, hstamp, if_true, hsplice, List.drop_succ_cons]
      · refine ⟨0, Nat.succ_pos _, hpos, ?_, by simpa using hfirst, ?_⟩
        · exact fun k hk => absurd hk (Nat.not_lt_zero k)
        · rw [Nat.add_zero, List.drop_zero]
          cases hheld : log[pos]? with
          | none => simp only [splice, hheld]
          | some held =>
              have hstamp : stamp held ≠ stamp entry := by simpa [hheld] using hfirst
              simp only [splice, hheld, hstamp, if_false]

theorem length_splice_of_not_held {log entries : List E} {pos : Nat} (hpos : pos ≤ log.length)
    (h : ¬Held log pos entries) : (splice log pos entries).length = pos + entries.length := by
  obtain ⟨k, hk, hle, -, -, hsplice⟩ := splice_cut hpos h
  rw [hsplice, List.length_append, List.length_take, List.length_drop]
  omega

-- What is in front of the entries stays.
theorem take_splice {log entries : List E} {pos : Nat} (hpos : pos ≤ log.length) :
    (splice log pos entries).take pos = log.take pos := by
  by_cases hheld : Held log pos entries
  · rw [splice_of_held hheld]
  · obtain ⟨k, -, hle, -, -, hsplice⟩ := splice_cut hpos hheld
    rw [hsplice, List.take_append_of_le_length (by rw [List.length_take]; omega), List.take_take,
      Nat.min_eq_left (by omega)]

-- After the splice all the stamps are in place.
theorem held_splice {log entries : List E} {pos : Nat} (hpos : pos ≤ log.length) :
    Held (splice log pos entries) pos entries := by
  by_cases h : Held log pos entries
  · rw [splice_of_held h]
    exact h
  · obtain ⟨k, hk, hle, hbefore, -, hsplice⟩ := splice_cut hpos h
    have hcut : (log.take (pos + k)).length = pos + k := by
      rw [List.length_take, Nat.min_eq_left hle]
    rw [hsplice]
    intro j hj
    by_cases hjk : j < k
    · have hold := hbefore j (by rw [List.length_take]; omega)
      rw [List.getElem?_take_of_lt hjk] at hold
      rw [List.getElem?_append_left (by omega), List.getElem?_take_of_lt (by omega), hold]
    · have hindex : k + (pos + j - (pos + k)) = j := by omega
      rw [List.getElem?_append_right (by omega), hcut, List.getElem?_drop, hindex]

-- Entries that are in place are passed over.
theorem splice_append_of_held {log first rest : List E} {pos : Nat} (h : Held log pos first) :
    splice log pos (first ++ rest) = splice log (pos + first.length) rest := by
  induction first generalizing pos with
  | nil => rfl
  | cons entry first ih =>
      obtain ⟨hfirst, hrest⟩ := held_cons.mp h
      obtain ⟨held, hheld, hstamp⟩ := Option.map_eq_some_iff.mp hfirst
      have hshift : pos + 1 + first.length = pos + (entry :: first).length := by
        rw [List.length_cons]
        omega
      simp only [List.cons_append, splice, hheld, hstamp, if_true, ih hrest, hshift]

theorem splice_length (log entries : List E) : splice log log.length entries = log ++ entries := by
  cases entries with
  | nil => rw [splice, List.append_nil]
  | cons entry rest => simp [splice]

-- Splicing the same entries again changes nothing, also when only `N` entries fit.
theorem splice_again {log entries : List E} {pos N : Nat} (hpos : pos ≤ log.length)
    (hN : log.length ≤ N) :
    (splice ((splice log pos entries).take N) pos entries).take N =
      (splice log pos entries).take N := by
  have hheld : Held (splice log pos entries) pos entries := held_splice hpos
  by_cases hfit : (splice log pos entries).length ≤ N
  · rw [List.take_of_length_le hfit, splice_of_held hheld, List.take_of_length_le hfit]
  · -- the entries that fit are in place, and the others run off the end once more
    generalize splice log pos entries = spliced at hheld hfit
    have hlen : (spliced.take N).length = N := by
      rw [List.length_take]
      omega
    have hfirst : Held (spliced.take N) pos (entries.take (N - pos)) := by
      intro j hj
      rw [List.length_take] at hj
      rw [List.getElem?_take_of_lt (by omega), List.getElem?_take_of_lt (by omega)]
      exact hheld j (by omega)
    by_cases hshort : entries.length ≤ N - pos
    · rw [List.take_of_length_le hshort] at hfirst
      rw [splice_of_held hfirst, List.take_take, Nat.min_self]
    · have hend : pos + (entries.take (N - pos)).length = (spliced.take N).length := by
        rw [List.length_take, hlen]
        omega
      have hsplit : splice (spliced.take N) pos (entries.take (N - pos) ++ entries.drop (N - pos)) =
          _ := splice_append_of_held hfirst
      rw [List.take_append_drop, hend, splice_length] at hsplit
      rw [hsplit, List.take_append_of_le_length (by omega), List.take_take, Nat.min_self]

-- What a follower ends up with after splicing a slice of another consistent
-- log. Either it had the slice already, and nothing changes, or it disagreed
-- somewhere, and its log becomes the other one cut right after the slice.
theorem splice_slice {chronicle : Nat → List E} {log other : List E}
    (h : Consistent chronicle log) (ho : Consistent chronicle other)
    (count pos : Nat) (hpos : pos ≤ log.length) (hlen : pos + count ≤ other.length)
    (htake : log.take pos = other.take pos) :
    (splice log pos ((other.drop pos).take count) = log ∧
      log.take (pos + count) = other.take (pos + count)) ∨
    (splice log pos ((other.drop pos).take count) = other.take (pos + count) ∧
      log.take (pos + count) ≠ other.take (pos + count)) := by
  induction count generalizing pos with
  | zero => exact Or.inl ⟨by simp [splice], by simpa using htake⟩
  | succ count ih =>
      have hp : pos < other.length := by omega
      have hentry : other[pos]? = some other[pos] := List.getElem?_eq_getElem hp
      have hslice : (other.drop pos).take (count + 1) =
          other[pos] :: (other.drop (pos + 1)).take count := by
        rw [List.drop_eq_getElem_cons hp, List.take_succ_cons]
      have hrest : log.take pos ++ other[pos] :: (other.drop (pos + 1)).take count =
          other.take (pos + (count + 1)) := by
        rw [htake, ← hslice, take_append_drop_take]
      rw [hslice]
      cases hl : log[pos]? with
      | none =>
          right
          refine ⟨by simp only [splice, hl]; exact hrest, ?_⟩
          intro heq
          have hlog := le_length_of_take_eq heq hlen
          rw [List.getElem?_eq_none_iff] at hl
          omega
      | some held =>
          by_cases hs : stamp held = stamp other[pos]
          · -- the stamp is in place, so the logs agree one position further
            have hstep : log.take (pos + 1) = other.take (pos + 1) := h.matching ho hl hentry hs
            have hsucc := ih (pos + 1) (List.getElem?_eq_some_iff.mp hl).1 (by omega) hstep
            simp only [splice, hl, hs, if_true]
            simpa only [Nat.add_assoc, Nat.add_comm 1 count] using hsucc
          · right
            refine ⟨by simp only [splice, hl, hs, if_false]; exact hrest, ?_⟩
            intro heq
            have hat := getElem?_eq_of_take_eq heq (m := pos) (by omega)
            rw [hl, hentry] at hat
            exact hs (congrArg stamp (Option.some.inj hat))

theorem splice_consistent {chronicle : Nat → List E} {log other : List E}
    (h : Consistent chronicle log) (ho : Consistent chronicle other)
    {count pos : Nat} (hlen : pos + count ≤ other.length) (hj : Joined log other pos) :
    Consistent chronicle (splice log pos ((other.drop pos).take count)) := by
  obtain ⟨hpos, htake⟩ := h.take_eq_of_joined ho hj
  rcases splice_slice h ho count pos hpos hlen htake with ⟨hr, -⟩ | ⟨hr, -⟩ <;> rw [hr]
  · exact h
  · exact ho.take _

-- After the splice the log agrees with the other one up to the end of the slice.
theorem splice_take {chronicle : Nat → List E} {log other : List E}
    (h : Consistent chronicle log) (ho : Consistent chronicle other)
    {count pos : Nat} (hlen : pos + count ≤ other.length) (hj : Joined log other pos) :
    (splice log pos ((other.drop pos).take count)).take (pos + count) =
      other.take (pos + count) := by
  obtain ⟨hpos, htake⟩ := h.take_eq_of_joined ho hj
  rcases splice_slice h ho count pos hpos hlen htake with ⟨hr, ha⟩ | ⟨hr, -⟩ <;> rw [hr]
  · exact ha
  · rw [List.take_take, Nat.min_self]

-- A splice never undoes agreement that is already there, however long.
theorem splice_take_of_take_eq {chronicle : Nat → List E} {log other : List E}
    (h : Consistent chronicle log) (ho : Consistent chronicle other)
    {count pos n : Nat} (hlen : pos + count ≤ other.length) (hj : Joined log other pos)
    (hn : log.take n = other.take n) :
    (splice log pos ((other.drop pos).take count)).take n = other.take n := by
  obtain ⟨hpos, htake⟩ := h.take_eq_of_joined ho hj
  rcases splice_slice h ho count pos hpos hlen htake with ⟨hr, -⟩ | ⟨hr, hne⟩ <;> rw [hr]
  · exact hn
  · have hlt : n < pos + count := by
      by_contra hle
      exact hne (take_eq_of_le hn (by omega))
    rw [List.take_take, Nat.min_eq_left (by omega)]

end LuxKernel.Replication
