import Mathlib.Tactic

/-!
# Guarded transition systems

A system is an initial state and an executable step function: `step s a` is `some s'` when the
action `a` is enabled in `s`, and `none` otherwise.  `System.Reach Φ` collects the states of the
runs all of whose steps satisfy the side condition `Φ`, so one inductive predicate serves both
the unconditional results (`System.Reachable`) and the results that hold as long as some branch
of the program is not taken.

`System.Reach.invariant` is the induction over a run; `System.runFrom` replays a list of actions,
and `System.reach_of_run` turns a successful replay into a reachable state.
-/

namespace AegisDB

universe u v

/-- A transition system: an initial state and a guarded, executable step function. -/
structure System (S : Type u) (A : Type v) where
  init : S
  /-- One step of the system, `none` when the action is not enabled. -/
  step : S → A → Option S

namespace System

variable {S : Type u} {A : Type v} (M : System S A) {Φ Ψ : S → A → Prop}

/-- The states of the runs all of whose steps satisfy `Φ` (the state before and the action). -/
inductive Reach (Φ : S → A → Prop) : S → Prop
  | init : Reach Φ M.init
  /-- A run is extended by an enabled action that satisfies the side condition. -/
  | step {s s' : S} {a : A} : Reach Φ s → Φ s a → M.step s a = some s' → Reach Φ s'

abbrev Reachable : S → Prop := M.Reach fun _ _ => True

variable {M}

theorem Reach.invariant {P : S → Prop} (h0 : P M.init)
    (hstep : ∀ s a s', M.Reach Φ s → P s → Φ s a → M.step s a = some s' → P s')
    {s : S} (h : M.Reach Φ s) : P s := by
  induction h with
  | init => exact h0
  | step hr hΦ hs ih => exact hstep _ _ _ hr ih hΦ hs

theorem Reach.mono (hΦΨ : ∀ s a, Φ s a → Ψ s a) {s : S} (h : M.Reach Φ s) : M.Reach Ψ s := by
  induction h with
  | init => exact .init
  | step _ hΦ hs ih => exact .step ih (hΦΨ _ _ hΦ) hs

theorem Reach.reachable {s : S} (h : M.Reach Φ s) : M.Reachable s :=
  h.mono fun _ _ _ => trivial

variable (M)

/-- Replay a list of actions from `s`, each one checked against the side condition. -/
def runFrom (Φ : S → A → Prop) [∀ s a, Decidable (Φ s a)] (s : S) : List A → Option S
  | [] => some s
  | a :: as => if Φ s a then (M.step s a).bind fun s' => runFrom Φ s' as else none

/-- Replay a list of actions from the initial state. -/
def run (Φ : S → A → Prop) [∀ s a, Decidable (Φ s a)] (as : List A) : Option S :=
  M.runFrom Φ M.init as

variable {M}

theorem Reach.runFrom [∀ s a, Decidable (Φ s a)] {s s' : S} (h : M.Reach Φ s) (as : List A)
    (hrun : M.runFrom Φ s as = some s') : M.Reach Φ s' := by
  induction as generalizing s with
  | nil =>
    simp only [System.runFrom, Option.some.injEq] at hrun
    exact hrun ▸ h
  | cons a as ih =>
    by_cases hΦ : Φ s a
    · rw [System.runFrom, if_pos hΦ, Option.bind_eq_some_iff] at hrun
      obtain ⟨s₁, hs₁, hrest⟩ := hrun
      exact ih (.step h hΦ hs₁) hrest
    · simp [System.runFrom, hΦ] at hrun

theorem reach_of_run [∀ s a, Decidable (Φ s a)] {as : List A} {s : S}
    (h : M.run Φ as = some s) : M.Reach Φ s :=
  Reach.runFrom .init as h

theorem exists_reach_of_any [∀ s a, Decidable (Φ s a)] {as : List A} {p : S → Bool}
    (h : (M.run Φ as).any p = true) : ∃ s, M.run Φ as = some s ∧ M.Reach Φ s ∧ p s = true := by
  obtain ⟨s, hs, hp⟩ := (Option.any_eq_true p _).mp h
  exact ⟨s, hs, reach_of_run hs, hp⟩

end System

end AegisDB
