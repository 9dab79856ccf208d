import Mathlib.Data.Option.Basic

namespace LuxKernel.Transition

-- A machine with named moves. `none` is a move that is not enabled.
structure Machine (σ ι : Type) where
  step : σ → ι → Option σ

namespace Machine

variable {σ ι : Type} {machine : Machine σ ι} {s s' : σ} {move : ι} {moves earlier later : List ι}

-- The moves are listed earliest first.
def run (machine : Machine σ ι) (s : σ) : List ι → Option σ
  | [] => some s
  | move :: later => (machine.step s move).bind fun next => machine.run next later

def Enabled (machine : Machine σ ι) (s : σ) (move : ι) : Prop := ∃ s', machine.step s move = some s'

@[simp] theorem run_nil : machine.run s [] = some s' ↔ s = s' := by
  simp [run]

theorem run_cons : machine.run s (move :: later) = some s' ↔
    ∃ mid, machine.step s move = some mid ∧ machine.run mid later = some s' :=
  Option.bind_eq_some_iff

theorem run_singleton : machine.run s [move] = machine.step s move := by
  cases h : machine.step s move <;> simp [run, h]

theorem run_append : machine.run s (earlier ++ later) = some s' ↔
    ∃ mid, machine.run s earlier = some mid ∧ machine.run mid later = some s' := by
  induction earlier generalizing s with
  | nil => simp [run]
  | cons move rest ih =>
      rw [List.cons_append, run_cons]
      constructor
      · rintro ⟨mid, hstep, hrun⟩
        obtain ⟨last, hrest, hlater⟩ := ih.mp hrun
        exact ⟨last, run_cons.mpr ⟨mid, hstep, hrest⟩, hlater⟩
      · rintro ⟨last, hrun, hlater⟩
        obtain ⟨mid, hstep, hrest⟩ := run_cons.mp hrun
        exact ⟨mid, hstep, ih.mpr ⟨last, hrest, hlater⟩⟩

-- What holds at the start and is kept by each move, with the moves made so far in
-- view, holds at the end of every run.
theorem run_history {P : List ι → σ → Prop} {past : List ι}
    (hstep : ∀ past s move s', P past s → machine.step s move = some s' → P (past ++ [move]) s')
    (h : P past s) (hrun : machine.run s moves = some s') : P (past ++ moves) s' := by
  induction moves generalizing s past with
  | nil =>
      rw [run_nil] at hrun
      rw [List.append_nil]
      exact hrun ▸ h
  | cons move later ih =>
      obtain ⟨mid, hmid, hlater⟩ := run_cons.mp hrun
      have hlast := ih (hstep past s move mid h hmid) hlater
      rwa [List.append_assoc, List.singleton_append] at hlast

theorem run_invariant {P : σ → Prop}
    (hstep : ∀ s move s', P s → machine.step s move = some s' → P s')
    (h : P s) (hrun : machine.run s moves = some s') : P s' :=
  @run_history _ _ machine s s' moves (fun _ => P) [] (fun _ => hstep) h hrun

-- The machine with only the moves that someone allows.
def restrict (machine : Machine σ ι) (Allowed : σ → ι → Prop)
    [∀ s move, Decidable (Allowed s move)] : Machine σ ι where
  step s move := if Allowed s move then machine.step s move else none

section Restrict

variable {Allowed : σ → ι → Prop} [∀ s move, Decidable (Allowed s move)]

theorem step_restrict : (machine.restrict Allowed).step s move = some s' ↔
    Allowed s move ∧ machine.step s move = some s' :=
  Option.ite_none_right_eq_some

end Restrict

end Machine

-- `abs` maps the states of one machine to those of another. Each move is matched by
-- the move that `label` names, or leaves the image as it is.
structure Simulation {σ τ ι κ : Type} (concrete : Machine σ ι) (abstract : Machine τ κ) where
  abs : σ → τ
  Inv : σ → Prop
  label : σ → ι → Option κ
  keeps : ∀ {s move s'}, Inv s → concrete.step s move = some s' → Inv s'
  follows : ∀ {s move s'}, Inv s → concrete.step s move = some s' →
    abstract.run (abs s) (label s move).toList = some (abs s')

namespace Simulation

variable {σ τ ι κ : Type} {concrete : Machine σ ι} {abstract : Machine τ κ}

-- The moves of the abstract machine along a run of the concrete one.
def labels (sim : Simulation concrete abstract) (s : σ) : List ι → List κ
  | [] => []
  | move :: later =>
      (sim.label s move).toList ++ (concrete.step s move).elim [] fun next => sim.labels next later

theorem labels_run (sim : Simulation concrete abstract) {s s' : σ} {moves : List ι}
    (h : sim.Inv s) (hrun : concrete.run s moves = some s') :
    sim.Inv s' ∧ abstract.run (sim.abs s) (sim.labels s moves) = some (sim.abs s') := by
  induction moves generalizing s with
  | nil =>
      obtain rfl := Machine.run_nil.mp hrun
      exact ⟨h, rfl⟩
  | cons move later ih =>
      obtain ⟨mid, hmid, hlater⟩ := Machine.run_cons.mp hrun
      obtain ⟨hinv, hlast⟩ := ih (sim.keeps h hmid) hlater
      refine ⟨hinv, ?_⟩
      rw [labels, hmid]
      exact Machine.run_append.mpr ⟨_, sim.follows h hmid, hlast⟩

end Simulation

end LuxKernel.Transition
