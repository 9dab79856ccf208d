import Mathlib.Data.List.Nodup
import Mathlib.Data.List.Count

namespace LuxKernel.Heapless

-- What does not fit does not come back.
theorem take_take_append {α : Type} (l rest : List α) (n : Nat) :
    (l.take n ++ rest).take n = (l ++ rest).take n := by
  have hsame : n - min n l.length = n - l.length := by omega
  rw [List.take_append, List.take_append, List.take_take, Nat.min_self, List.length_take, hsame]

-- With distinct keys the first match is the only one.
theorem find?_key_eq_some {α κ : Type} [DecidableEq κ] {key : α → κ} {l : List α}
    (h : (l.map key).Nodup) {k : κ} {x : α} :
    l.find? (fun y => decide (key y = k)) = some x ↔ x ∈ l ∧ key x = k := by
  induction l with
  | nil => simp
  | cons first rest ih =>
      obtain ⟨hfresh, hrest⟩ := List.nodup_cons.mp h
      rw [List.find?_cons]
      by_cases hfirst : key first = k
      · simp only [hfirst, decide_true, Option.some.injEq]
        constructor
        · rintro rfl
          exact ⟨List.mem_cons_self, hfirst⟩
        · rintro ⟨hmem, hx⟩
          rcases List.mem_cons.mp hmem with rfl | hmem
          · rfl
          · exact absurd (List.mem_map.mpr ⟨x, hmem, hx.trans hfirst.symm⟩) hfresh
      · simp only [hfirst, decide_false, ih hrest, List.mem_cons]
        constructor
        · exact fun ⟨hmem, hx⟩ => ⟨Or.inr hmem, hx⟩
        · rintro ⟨rfl | hmem, hx⟩
          · exact absurd hx hfirst
          · exact ⟨hmem, hx⟩

-- A fixed-capacity vector. Every operation that could grow it past `N`
-- reports the overflow instead, so a longer list is not representable.
structure HVec (α : Type) (N : Nat) where
  toList : List α
  length_le : toList.length ≤ N
deriving DecidableEq, Repr

namespace HVec

variable {α : Type} {N : Nat}

def empty : HVec α N := ⟨[], Nat.zero_le N⟩

def length (v : HVec α N) : Nat := v.toList.length

-- `none` is the error of a full vector, which leaves the vector as it was.
def push (v : HVec α N) (x : α) : Option (HVec α N) :=
  if h : v.toList.length < N then some ⟨v.toList ++ [x], by simpa using Nat.succ_le_of_lt h⟩ else none

def truncate (v : HVec α N) (len : Nat) : HVec α N :=
  ⟨v.toList.take len, Nat.le_trans (List.length_take_le' len v.toList) v.length_le⟩

-- `iter_mut`, with one change for all elements.
def map (v : HVec α N) (f : α → α) : HVec α N :=
  ⟨v.toList.map f, by rw [List.length_map]; exact v.length_le⟩

private def updateFirstList (p : α → Bool) (f : α → α) : List α → List α
  | [] => []
  | x :: xs => if p x then f x :: xs else x :: updateFirstList p f xs

private theorem length_updateFirstList (p : α → Bool) (f : α → α) (l : List α) :
    (updateFirstList p f l).length = l.length := by
  induction l with
  | nil => rfl
  | cons x xs ih =>
      unfold updateFirstList
      split <;> simp [ih]

-- A change through the reference that `iter_mut().find(..)` hands out.
def updateFirst (v : HVec α N) (p : α → Bool) (f : α → α) : HVec α N :=
  ⟨updateFirstList p f v.toList, by rw [length_updateFirstList]; exact v.length_le⟩

@[ext] theorem ext {v w : HVec α N} (h : v.toList = w.toList) : v = w := by
  cases v; cases w; simp_all

@[simp] theorem toList_map (v : HVec α N) (f : α → α) : (v.map f).toList = v.toList.map f := rfl

private theorem updateFirstList_eq_map {κ : Type} [DecidableEq κ] {key : α → κ} {l : List α}
    (h : (l.map key).Nodup) (k : κ) (f : α → α) :
    updateFirstList (fun x => decide (key x = k)) f l =
      l.map fun x => if key x = k then f x else x := by
  induction l with
  | nil => rfl
  | cons x xs ih =>
      obtain ⟨hfresh, hrest⟩ := List.nodup_cons.mp h
      rw [updateFirstList, List.map_cons]
      by_cases hx : key x = k
      · -- No later element has the key.
        have hid : (xs.map fun x => if key x = k then f x else x) = xs := by
          conv_rhs => rw [← List.map_id xs]
          refine List.map_congr_left fun y hy => if_neg fun hk => hfresh ?_
          rw [hx, ← hk]
          exact List.mem_map_of_mem hy
        simp only [hx, decide_true, if_true, hid]
      · simp only [hx, decide_false, Bool.false_eq_true, if_false, ih hrest]

theorem toList_updateFirst {κ : Type} [DecidableEq κ] {v : HVec α N} (key : α → κ)
    (h : (v.toList.map key).Nodup) (k : κ) (f : α → α) :
    (v.updateFirst (fun x => decide (key x = k)) f).toList =
      v.toList.map fun x => if key x = k then f x else x := updateFirstList_eq_map h k f

private theorem map_updateFirstList_map {p : α → Bool} {f g : α → α} (hp : ∀ x, p (g x) = p x)
    (hf : ∀ x, g (f (g x)) = g (f x)) (hg : ∀ x, g (g x) = g x) (l : List α) :
    (updateFirstList p f (l.map g)).map g = (updateFirstList p f l).map g := by
  induction l with
  | nil => rfl
  | cons x xs ih =>
      have hrest : (xs.map g).map g = xs.map g := by simp [hg]
      rw [List.map_cons, updateFirstList, updateFirstList, hp]
      by_cases hx : p x = true
      · rw [if_pos hx, if_pos hx, List.map_cons, List.map_cons, hf, hrest]
      · rw [if_neg hx, if_neg hx, List.map_cons, List.map_cons, hg, ih]

-- A view `g` of the elements that the change respects can be taken before it as well.
theorem map_updateFirst_map {p : α → Bool} {f g : α → α} (hp : ∀ x, p (g x) = p x)
    (hf : ∀ x, g (f (g x)) = g (f x)) (hg : ∀ x, g (g x) = g x) (v : HVec α N) :
    ((v.map g).updateFirst p f).map g = (v.updateFirst p f).map g :=
  ext (map_updateFirstList_map hp hf hg v.toList)

private theorem map_updateFirstList_of_find? {β : Type} {p : α → Bool} {f : α → α} {g : α → β}
    {l : List α} {x : α} (hfind : l.find? p = some x) (hf : g (f x) = g x) :
    (updateFirstList p f l).map g = l.map g := by
  induction l with
  | nil => cases hfind
  | cons y ys ih =>
      rw [updateFirstList]
      by_cases hy : p y = true
      · rw [List.find?_cons_of_pos hy] at hfind
        obtain rfl := Option.some.inj hfind
        rw [if_pos hy, List.map_cons, List.map_cons, hf]
      · rw [List.find?_cons_of_neg hy] at hfind
        rw [if_neg hy, List.map_cons, List.map_cons, ih hfind]

-- A change that the view does not see.
theorem map_updateFirst_of_find? {β : Type} {p : α → Bool} {f : α → α} {g : α → β} {v : HVec α N}
    {x : α} (hfind : v.toList.find? p = some x) (hf : g (f x) = g x) :
    (v.updateFirst p f).toList.map g = v.toList.map g :=
  map_updateFirstList_of_find? hfind hf

@[simp] theorem toList_empty : (empty : HVec α N).toList = [] := rfl

theorem length_eq (v : HVec α N) : v.length = v.toList.length := rfl

theorem push_eq_some_iff {v w : HVec α N} {x : α} :
    v.push x = some w ↔ v.toList.length < N ∧ w.toList = v.toList ++ [x] := by
  unfold push
  split
  · rename_i h
    simp only [Option.some.injEq, h, true_and]
    exact ⟨fun hw => by rw [← hw], fun hw => ext hw.symm⟩
  · rename_i h
    simp [h]

theorem push_eq_none_iff {v : HVec α N} {x : α} :
    v.push x = none ↔ N ≤ v.toList.length := by
  unfold push
  split <;> simp_all

end HVec

-- An insertion-ordered set with at most `N` keys.
structure IndexSet (κ : Type) (N : Nat) where
  keys : List κ
  nodup : keys.Nodup
  length_le : keys.length ≤ N
deriving DecidableEq, Repr

namespace IndexSet

variable {κ : Type} [DecidableEq κ] {N : Nat}

def empty : IndexSet κ N := ⟨[], List.nodup_nil, Nat.zero_le N⟩

def contains (s : IndexSet κ N) (k : κ) : Bool := decide (k ∈ s.keys)

-- A key that is already present is accepted again even when the set is full.
-- The flag says whether the key is new; `none` is the error of a full set.
def insert (s : IndexSet κ N) (k : κ) : Option (Bool × IndexSet κ N) :=
  if hk : k ∈ s.keys then some (false, s)
  else if hn : s.keys.length < N then
    some (true, ⟨s.keys ++ [k], List.nodup_append.mpr
      ⟨s.nodup, by simp, by rintro a ha b hb rfl; simp_all⟩, by simpa using Nat.succ_le_of_lt hn⟩)
  else none

omit [DecidableEq κ] in
@[simp] theorem keys_empty : (empty : IndexSet κ N).keys = [] := rfl

theorem mem_of_insert {s s' : IndexSet κ N} {k k' : κ} {fresh : Bool}
    (h : s.insert k = some (fresh, s')) : k' ∈ s'.keys ↔ k' = k ∨ k' ∈ s.keys := by
  unfold insert at h
  split at h
  · rename_i hk
    obtain ⟨-, rfl⟩ := Prod.mk.inj (Option.some.inj h)
    constructor
    · exact Or.inr
    · rintro (rfl | hm)
      · exact hk
      · exact hm
  · split at h
    · obtain ⟨-, rfl⟩ := Prod.mk.inj (Option.some.inj h)
      simp [or_comm]
    · cases h

end IndexSet

-- An association list with distinct keys and at most `N` entries.
structure LinearMap (κ ν : Type) (N : Nat) where
  entries : List (κ × ν)
  nodup : (entries.map Prod.fst).Nodup
  length_le : entries.length ≤ N
deriving DecidableEq, Repr

namespace LinearMap

variable {κ ν : Type} [DecidableEq κ] {N : Nat}

def empty : LinearMap κ ν N := ⟨[], List.nodup_nil, Nat.zero_le N⟩

def get (m : LinearMap κ ν N) (k : κ) : Option ν :=
  (m.entries.find? (fun e => decide (e.1 = k))).map Prod.snd

def containsKey (m : LinearMap κ ν N) (k : κ) : Bool := decide (k ∈ m.entries.map Prod.fst)

private def overwrite (k : κ) (v : ν) (e : κ × ν) : κ × ν := if e.1 = k then (k, v) else e

private theorem fst_overwrite (k : κ) (v : ν) (e : κ × ν) : (overwrite k v e).1 = e.1 := by
  unfold overwrite
  split <;> simp_all

private theorem map_fst_overwrite (k : κ) (v : ν) (l : List (κ × ν)) :
    (l.map (overwrite k v)).map Prod.fst = l.map Prod.fst := by
  rw [List.map_map]
  exact List.map_congr_left fun e _ => fst_overwrite k v e

-- Overwrite the value under a key, through the reference `get_mut` hands out.
def setValue (m : LinearMap κ ν N) (k : κ) (v : ν) : LinearMap κ ν N :=
  ⟨m.entries.map (overwrite k v), by rw [map_fst_overwrite]; exact m.nodup,
    by rw [List.length_map]; exact m.length_le⟩

-- An existing key keeps its place and gets the new value, and the old value is
-- returned. A new key is appended; `none` is the error of a full map.
def insert (m : LinearMap κ ν N) (k : κ) (v : ν) : Option (Option ν × LinearMap κ ν N) :=
  if hk : k ∈ m.entries.map Prod.fst then some (m.get k, m.setValue k v)
  else if hn : m.entries.length < N then
    some (none, ⟨m.entries ++ [(k, v)], by
      rw [List.map_append, List.nodup_append]
      exact ⟨m.nodup, by simp, by rintro a ha b hb rfl; simp_all⟩,
      by simpa using Nat.succ_le_of_lt hn⟩)
  else none

theorem get_eq_none_iff (m : LinearMap κ ν N) (k : κ) :
    m.get k = none ↔ k ∉ m.entries.map Prod.fst := by
  simp only [get, Option.map_eq_none_iff, List.find?_eq_none, decide_eq_true_eq, List.mem_map,
    not_exists, not_and]

theorem containsKey_eq_isSome (m : LinearMap κ ν N) (k : κ) :
    m.containsKey k = (m.get k).isSome := by
  have h := get_eq_none_iff m k
  cases hg : m.get k with
  | none => simpa [containsKey] using h.mp hg
  | some v =>
      have hk : k ∈ m.entries.map Prod.fst := by
        by_contra hk
        rw [h.mpr hk] at hg
        cases hg
      simpa [containsKey] using hk

-- A fresh key is appended, so every other key keeps its value.
theorem get_of_insert_fresh {m m' : LinearMap κ ν N} {k : κ} {v : ν} {old : Option ν}
    (hk : m.containsKey k = false) (h : m.insert k v = some (old, m')) (j : κ) :
    m'.get j = if j = k then some v else m.get j := by
  have hmem : k ∉ m.entries.map Prod.fst := by simpa [containsKey] using hk
  unfold insert at h
  rw [dif_neg hmem] at h
  split at h
  · obtain ⟨-, rfl⟩ := Prod.mk.inj (Option.some.inj h)
    by_cases hj : j = k
    · subst j
      have hnone : m.entries.find? (fun e => decide (e.1 = k)) = none := by
        simpa [get] using (get_eq_none_iff m k).mpr hmem
      simp [get, List.find?_append, hnone]
    · simp [get, List.find?_append, hj, Ne.symm hj]
  · cases h

theorem insert_fresh_eq_none_iff {m : LinearMap κ ν N} {k : κ} {v : ν}
    (hk : m.containsKey k = false) : m.insert k v = none ↔ N ≤ m.entries.length := by
  have hmem : k ∉ m.entries.map Prod.fst := by simpa [containsKey] using hk
  unfold insert
  rw [dif_neg hmem]
  split <;> simp_all

theorem length_of_insert_fresh {m m' : LinearMap κ ν N} {k : κ} {v : ν} {old : Option ν}
    (hk : m.containsKey k = false) (h : m.insert k v = some (old, m')) :
    m'.entries.length = m.entries.length + 1 := by
  have hmem : k ∉ m.entries.map Prod.fst := by simpa [containsKey] using hk
  unfold insert at h
  rw [dif_neg hmem] at h
  split at h
  · obtain ⟨-, rfl⟩ := Prod.mk.inj (Option.some.inj h)
    simp
  · cases h

theorem get_setValue {m : LinearMap κ ν N} {k : κ} {old : ν} (hk : m.get k = some old) (v : ν)
    (j : κ) : (m.setValue k v).get j = if j = k then some v else m.get j := by
  have hpred : ((fun e : κ × ν => decide (e.1 = j)) ∘ overwrite k v) =
      fun e => decide (e.1 = j) := by
    funext e
    simp only [Function.comp_apply, fst_overwrite]
  have hget : (m.setValue k v).get j =
      (m.entries.find? fun e => decide (e.1 = j)).map (fun e => (overwrite k v e).2) := by
    rw [get, setValue, List.find?_map, hpred, Option.map_map]
    rfl
  have hkey : ∀ e, m.entries.find? (fun e => decide (e.1 = j)) = some e → e.1 = j := by
    intro e he
    simpa using List.find?_some he
  rw [hget]
  by_cases hj : j = k
  · subst j
    obtain ⟨e, he, -⟩ := Option.map_eq_some_iff.mp hk
    rw [if_pos rfl, he, Option.map_some, overwrite, if_pos (hkey e he)]
  · rw [if_neg hj, get]
    cases he : m.entries.find? fun e => decide (e.1 = j) with
    | none => rfl
    | some e =>
        have hne : e.1 ≠ k := fun heq => hj ((hkey e he).symm.trans heq)
        rw [Option.map_some, Option.map_some, overwrite, if_neg hne]

end LinearMap

end LuxKernel.Heapless
