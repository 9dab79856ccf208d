import LuxKernel.Replication.Log
import Mathlib.Data.Finset.Card
import Mathlib.Logic.Function.Basic
import Mathlib.Logic.Relation

namespace LuxKernel.Replication

open Function Stamped

variable {N E : Type} [DecidableEq N] [Stamped E]

-- Leader-based replication without messages. The first three fields are the
-- nodes' present, the others the past that the safety argument refers to:
-- who voted for whom and holding what, who stood with what log, who won with
-- which voters, the log of each term's leader, and the acknowledged lengths.
structure Proto (N E : Type) where
  term : N → Nat
  candidate : N → Prop
  log : N → List E
  vote : Nat → N → Option N
  ballot : Nat → N → List E
  bid : Nat → N → Option (List E)
  elected : Nat → Option N
  electors : Nat → Finset N
  chronicle : Nat → List E
  acked : Nat → N → Nat → Prop

def record {α : Type} (f : Nat → N → α) (t : Nat) (v : N) (x : α) : Nat → N → α :=
  fun t' v' => if t' = t ∧ v' = v then x else f t' v'

@[simp] theorem record_self {α : Type} (f : Nat → N → α) (t : Nat) (v : N) (x : α) :
    record f t v x t v = x := by simp [record]

theorem record_of_ne {α : Type} (f : Nat → N → α) {t t' : Nat} {v v' : N} (x : α)
    (h : ¬(t' = t ∧ v' = v)) : record f t v x t' v' = f t' v' := by simp [record, h]

namespace Proto

def start : Proto N E where
  term _ := 0
  candidate _ := False
  log _ := []
  vote _ _ := none
  ballot _ _ := []
  bid _ _ := none
  elected _ := none
  electors _ := ∅
  chronicle _ := []
  acked _ _ _ := False

-- A node learns of a later term.
def advance (s : Proto N E) (v : N) (t : Nat) : Proto N E :=
  { s with term := update s.term v t, candidate := update s.candidate v False }

-- A node stands for the next term and votes for itself.
def stand (s : Proto N E) (v : N) : Proto N E :=
  { s with
    term := update s.term v (s.term v + 1)
    candidate := update s.candidate v True
    vote := record s.vote (s.term v + 1) v (some v)
    ballot := record s.ballot (s.term v + 1) v (s.log v)
    bid := record s.bid (s.term v + 1) v (some (s.log v)) }

-- A node gives its vote of the current term to `c`.
def grant (s : Proto N E) (v c : N) : Proto N E :=
  { s with
    vote := record s.vote (s.term v) v (some c)
    ballot := record s.ballot (s.term v) v (s.log v) }

-- A candidate takes office with the votes of `Q`.
def elect (s : Proto N E) (c : N) (Q : Finset N) : Proto N E :=
  { s with
    candidate := update s.candidate c False
    elected := update s.elected (s.term c) (some c)
    electors := update s.electors (s.term c) Q
    chronicle := update s.chronicle (s.term c) (s.log c) }

-- The leader of the current term adds an entry.
def extend (s : Proto N E) (c : N) (e : E) : Proto N E :=
  { s with
    log := update s.log c (s.log c ++ [e])
    chronicle := update s.chronicle (s.term c) (s.log c ++ [e]) }

-- A node takes over a slice of its leader's log and acknowledges where it ends.
def accept (s : Proto N E) (v : N) (pos count : Nat) : Proto N E :=
  { s with
    candidate := update s.candidate v False
    log := update s.log v
      (splice (s.log v) pos (((s.chronicle (s.term v)).drop pos).take count))
    acked := fun t w m => s.acked t w m ∨ (t = s.term v ∧ w = v ∧ m = pos + count) }

variable (quorum : Finset N → Prop)

inductive Step : Proto N E → Proto N E → Prop
  | advance (s : Proto N E) (v : N) (t : Nat) (ht : s.term v < t) : Step s (s.advance v t)
  | stand (s : Proto N E) (v : N) : Step s (s.stand v)
  | grant (s : Proto N E) (v c : N) (bid : List E) (hv : s.vote (s.term v) v = none)
      (hb : s.bid (s.term v) c = some bid) (hu : UpToDate bid (s.log v)) : Step s (s.grant v c)
  | elect (s : Proto N E) (c : N) (Q : Finset N) (hc : s.candidate c) (hq : quorum Q)
      (hv : ∀ v ∈ Q, s.vote (s.term c) v = some c) : Step s (s.elect c Q)
  | extend (s : Proto N E) (c : N) (e : E) (hc : s.elected (s.term c) = some c)
      (he : stamp e = s.term c) : Step s (s.extend c e)
  | accept (s : Proto N E) (v i : N) (pos count : Nat) (hi : s.elected (s.term v) = some i)
      (hne : i ≠ v) (hlen : pos + count ≤ (s.chronicle (s.term v)).length)
      (hj : Joined (s.log v) (s.chronicle (s.term v)) pos) : Step s (s.accept v pos count)

abbrev Steps : Proto N E → Proto N E → Prop := Relation.ReflTransGen (Step quorum)

-- `v` has held the first `n` entries of the leader of term `t`, as that leader
-- itself or by acknowledging them.
def Holds (s : Proto N E) (t : Nat) (v : N) (n : Nat) : Prop :=
  (s.elected t = some v ∧ n ≤ (s.chronicle t).length) ∨ ∃ m, n ≤ m ∧ s.acked t v m

-- All leaders of the terms after `t` and up to `u` carry the first `n` entries
-- of the leader of term `t`.
def Carried (s : Proto N E) (t u n : Nat) : Prop :=
  ∀ t', t < t' → t' ≤ u → s.elected t' ≠ none →
    (s.chronicle t').take n = (s.chronicle t).take n

end Proto

end LuxKernel.Replication
