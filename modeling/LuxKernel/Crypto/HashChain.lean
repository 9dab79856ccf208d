import Mathlib.Data.List.Forall2
import Mathlib.Data.List.Induction

namespace LuxKernel.Crypto.HashChain

-- Records that store a digest of themselves and of the digest before them. `hash` is
-- the stored digest, `link` the digest recomputed from the one before.
variable {δ ρ : Type} (link : δ → ρ → δ) (hash : ρ → δ)

-- The stored digest at the end of a chain that starts from `init`.
def head (init : δ) (records : List ρ) : δ := records.foldl (fun _ record => hash record) init

-- Every stored digest is the recomputed one.
def Verified (init : δ) : List ρ → Prop
  | [] => True
  | record :: rest => link init record = hash record ∧ Verified (hash record) rest

-- Each record with the digest that it is linked to.
def links (init : δ) : List ρ → List (δ × ρ)
  | [] => []
  | record :: rest => (init, record) :: links (hash record) rest

@[simp] theorem head_nil (init : δ) : head hash init [] = init := rfl

@[simp] theorem head_append_singleton (init : δ) (records : List ρ) (last : ρ) :
    head hash init (records ++ [last]) = hash last := by
  simp [head]

theorem head_eq (init : δ) (records : List ρ) :
    head hash init records = (records.getLast?.map hash).getD init := by
  induction records using List.reverseRecOn with
  | nil => rfl
  | append_singleton records last => simp

theorem verified_append_singleton (init : δ) (records : List ρ) (last : ρ) :
    Verified link hash init (records ++ [last]) ↔
      Verified link hash init records ∧ link (head hash init records) last = hash last := by
  induction records generalizing init with
  | nil => simp [Verified]
  | cons record rest ih =>
      rw [List.cons_append, Verified, Verified, ih (hash record), and_assoc]
      rfl

theorem links_append_singleton (init : δ) (records : List ρ) (last : ρ) :
    links hash init (records ++ [last]) =
      links hash init records ++ [(head hash init records, last)] := by
  induction records generalizing init with
  | nil => rfl
  | cons record rest ih =>
      rw [List.cons_append, links, links, ih (hash record), List.cons_append]
      rfl

variable {link hash} {init : δ} {xs ys : List ρ}

theorem map_snd_links (init : δ) (records : List ρ) :
    (links hash init records).map Prod.snd = records := by
  induction records generalizing init with
  | nil => rfl
  | cons record rest ih => rw [links, List.map_cons, ih]

theorem getElem?_of_links {init : δ} {records : List ρ} {i : Nat} {entry : δ × ρ}
    (h : (links hash init records)[i]? = some entry) : records[i]? = some entry.2 := by
  have hmap : ((links hash init records).map Prod.snd)[i]? = some entry.2 := by
    rw [List.getElem?_map, h]
    rfl
  rwa [map_snd_links] at hmap

-- A chain that is cut off is a chain.
theorem Verified.take {records : List ρ} (h : Verified link hash init records) (n : Nat) :
    Verified link hash init (records.take n) := by
  induction records generalizing init n with
  | nil =>
      rw [List.take_nil]
      exact h
  | cons record rest ih =>
      cases n with
      | zero => trivial
      | succ n => exact ⟨h.1, ih h.2 n⟩

-- Records whose digests are computed anew and stored with `store`.
def restamp (link : δ → ρ → δ) (store : δ → ρ → ρ) (init : δ) : List ρ → List ρ
  | [] => []
  | record :: rest =>
      store (link init record) record :: restamp link store (link init record) rest

theorem length_restamp (store : δ → ρ → ρ) (init : δ) (records : List ρ) :
    (restamp link store init records).length = records.length := by
  induction records generalizing init with
  | nil => rfl
  | cons record rest ih => rw [restamp, List.length_cons, ih, List.length_cons]

-- Whoever can store digests can make a chain of anything.
theorem verified_restamp {store : δ → ρ → ρ}
    (hlink : ∀ prev digest record, link prev (store digest record) = link prev record)
    (hhash : ∀ digest record, hash (store digest record) = digest) (init : δ) (records : List ρ) :
    Verified link hash init (restamp link store init records) := by
  induction records generalizing init with
  | nil => trivial
  | cons record rest ih =>
      refine ⟨by rw [hlink, hhash], ?_⟩
      rw [hhash]
      exact ih (link init record)

-- The digest at the end of a chain determines the chain, as far as one link
-- determines what went into it. No digest may be the initial one, or a chain could
-- start anew in its middle.
theorem forall₂_of_head_eq {same : ρ → ρ → Prop} (hx : Verified link hash init xs)
    (hy : Verified link hash init ys)
    (hbind : ∀ a ∈ links hash init xs, ∀ b ∈ links hash init ys,
      link a.1 a.2 = hash a.2 → link b.1 b.2 = hash b.2 → hash a.2 = hash b.2 →
        a.1 = b.1 ∧ same a.2 b.2)
    (hinit : ∀ a ∈ links hash init xs ++ links hash init ys, link a.1 a.2 ≠ init)
    (hhead : head hash init xs = head hash init ys) : List.Forall₂ same xs ys := by
  induction xs using List.reverseRecOn generalizing ys with
  | nil =>
      rcases List.eq_nil_or_concat' ys with rfl | ⟨ys, y, rfl⟩
      · exact .nil
      · rw [verified_append_singleton] at hy
        refine absurd (hy.2.trans ?_) (hinit (head hash init ys, y) ?_)
        · simpa using hhead.symm
        · simp [links_append_singleton]
  | append_singleton xs x ih =>
      rw [verified_append_singleton] at hx
      rcases List.eq_nil_or_concat' ys with rfl | ⟨ys, y, rfl⟩
      · refine absurd (hx.2.trans ?_) (hinit (head hash init xs, x) ?_)
        · simpa using hhead
        · simp [links_append_singleton]
      · rw [verified_append_singleton] at hy
        simp only [links_append_singleton, List.mem_append, List.mem_singleton] at hbind hinit
        simp only [head_append_singleton] at hhead
        obtain ⟨hprev, hsame⟩ := hbind _ (Or.inr rfl) _ (Or.inr rfl) hx.2 hy.2 hhead
        have hrest : List.Forall₂ same xs ys := by
          apply ih hx.1 hy.1 _ _ hprev
          · exact fun a ha b hb => hbind a (Or.inl ha) b (Or.inl hb)
          · intro a ha
            apply hinit
            exact (List.mem_append.mp ha).imp Or.inl Or.inl
        exact List.rel_append (R := same) hrest (.cons hsame .nil)

section Folds

-- A digest that absorbs one datum after the other stores nothing but the last link.
-- It is the end of the chain in which every datum is stored with its link.
def stamped (link : δ → ρ → δ) (init : δ) : List ρ → List (ρ × δ)
  | [] => []
  | datum :: rest => (datum, link init datum) :: stamped link (link init datum) rest

-- What goes into the links of a fold.
def inputs (link : δ → ρ → δ) (init : δ) : List ρ → List (δ × ρ)
  | [] => []
  | datum :: rest => (init, datum) :: inputs link (link init datum) rest

variable (link : δ → ρ → δ) (init : δ) (data : List ρ)

theorem map_fst_stamped : (stamped link init data).map Prod.fst = data := by
  induction data generalizing init with
  | nil => rfl
  | cons datum rest ih => rw [stamped, List.map_cons, ih]

theorem head_stamped : head Prod.snd init (stamped link init data) = data.foldl link init := by
  induction data generalizing init with
  | nil => rfl
  | cons datum rest ih => exact ih (link init datum)

theorem verified_stamped :
    Verified (fun prev record => link prev record.1) Prod.snd init (stamped link init data) := by
  induction data generalizing init with
  | nil => trivial
  | cons datum rest ih => exact ⟨rfl, ih (link init datum)⟩

theorem mem_inputs {a : δ × ρ × δ} (h : a ∈ links Prod.snd init (stamped link init data)) :
    (a.1, a.2.1) ∈ inputs link init data := by
  induction data generalizing init with
  | nil => cases h
  | cons datum rest ih =>
      rcases List.mem_cons.mp h with rfl | hrest
      · exact List.mem_cons_self
      · exact List.mem_cons_of_mem _ (ih (link init datum) hrest)

variable {link init} {data data' : List ρ}

-- The digest of a fold determines what was absorbed.
theorem eq_of_foldl_eq
    (hbind : ∀ a ∈ inputs link init data, ∀ b ∈ inputs link init data',
      link a.1 a.2 = link b.1 b.2 → a = b)
    (hinit : ∀ a ∈ inputs link init data ++ inputs link init data', link a.1 a.2 ≠ init)
    (h : data.foldl link init = data'.foldl link init) : data = data' := by
  have hsame : List.Forall₂ (fun a b => a.1 = b.1) (stamped link init data)
      (stamped link init data') := by
    apply forall₂_of_head_eq (verified_stamped link init data) (verified_stamped link init data')
    · intro a ha b hb hlinka hlinkb hhash
      have hinputs := hbind _ (mem_inputs link init data ha) _ (mem_inputs link init data' hb)
        (hlinka.trans (hhash.trans hlinkb.symm))
      exact Prod.mk.inj hinputs
    · intro a ha
      rcases List.mem_append.mp ha with hl | hr
      · exact hinit _ (List.mem_append_left _ (mem_inputs link init data hl))
      · exact hinit _ (List.mem_append_right _ (mem_inputs link init data' hr))
    · rw [head_stamped, head_stamped, h]
  rw [← map_fst_stamped link init data, ← map_fst_stamped link init data',
    ← List.forall₂_eq_eq_eq, List.forall₂_map_left_iff, List.forall₂_map_right_iff]
  exact hsame

end Folds

end LuxKernel.Crypto.HashChain
