/-
  Transition systems driven by actions.

  `M.step s a` is the state after action `a`, or `none` when `a` is not enabled at `s`.
  A run may be restricted by a guard `G : σ → α → Prop` on (state before the step, action):
  `Reach M G s` says that `s` ends a run from an initial state all of whose steps satisfy
  `G`. `Reachable M` is the unrestricted case. Interleaving semantics is the reading
  throughout: an action names the thread that moves and what the environment chose.

  Proved:
  * `Reach.invariant`: a property of the initial states that every guarded step keeps
    holds in every state reached. The step may use that its source state is reachable.
  * `Reach.mono`: weakening the guard only adds reachable states.
  * `Reach.exec`: a schedule executed from a reached state ends in a reached state.
  * `Reach.simulate`: the simulation rule.
-/
import Mathlib.Logic.Function.Basic
import Mathlib.Tactic.TypeStar

namespace Concur

/-- A transition system whose steps are named by actions. -/
structure Lts (σ α : Type*) where
  init : σ → Prop
  step : σ → α → Option σ

namespace Lts

variable {σ α : Type*} (M : Lts σ α)

/-- States at the end of a run from an initial state, every step of which meets `G`. -/
inductive Reach (G : σ → α → Prop) : σ → Prop
  | start {s : σ} (h : M.init s) : Reach G s
  | next {s s' : σ} {a : α} (hs : Reach G s) (hg : G s a) (h : M.step s a = some s') :
      Reach G s'

/-- The guard that admits every step. -/
def anyStep (_ : σ) (_ : α) : Prop := True

/-- Reachable by any run. -/
def Reachable (s : σ) : Prop := M.Reach anyStep s

/-- No action is enabled. -/
def Stuck (s : σ) : Prop := ∀ a, M.step s a = none

/-- Execute a schedule under a guard; `none` when some action of it is not enabled, or is
    not admitted by the guard. -/
def exec (G : σ → α → Prop) [∀ s a, Decidable (G s a)] : σ → List α → Option σ
  | s, [] => some s
  | s, a :: as => if G s a then (M.step s a).bind fun s' => exec G s' as else none

instance (s : σ) (a : α) : Decidable (anyStep s a) := inferInstanceAs (Decidable True)

variable {M}

section Exec

variable {G : σ → α → Prop} [∀ s a, Decidable (G s a)]

theorem exec_cons (s : σ) (a : α) (as : List α) :
    M.exec G s (a :: as) =
      if G s a then (M.step s a).bind fun s' => M.exec G s' as else none := rfl

theorem exec_cons_of_step {s s' : σ} {a : α} (hg : G s a) (h : M.step s a = some s')
    (as : List α) : M.exec G s (a :: as) = M.exec G s' as := by
  rw [exec_cons, if_pos hg, h]
  rfl

/-- A schedule is executed step by step. -/
theorem exec_cons_some {s s' : σ} {a : α} {as : List α} (h : M.exec G s (a :: as) = some s') :
    G s a ∧ ∃ u, M.step s a = some u ∧ M.exec G u as = some s' := by
  rw [exec_cons] at h
  split at h
  · next hg => exact ⟨hg, Option.bind_eq_some_iff.mp h⟩
  · cases h

/-- Two schedules, one after the other. -/
theorem exec_append {s u s' : σ} {as bs : List α} (has : M.exec G s as = some u)
    (hbs : M.exec G u bs = some s') : M.exec G s (as ++ bs) = some s' := by
  induction as generalizing s with
  | nil =>
      cases has
      exact hbs
  | cons a as ih =>
      obtain ⟨hg, v, hv, has⟩ := exec_cons_some has
      rw [List.cons_append, exec_cons_of_step hg hv]
      exact ih has

/-- A schedule executed under a guard can be executed under none. -/
theorem exec_any_of_exec {s s' : σ} {as : List α} (h : M.exec G s as = some s') :
    M.exec anyStep s as = some s' := by
  induction as generalizing s with
  | nil => exact h
  | cons a as ih =>
      obtain ⟨-, u, hu, h⟩ := exec_cons_some h
      rw [exec_cons_of_step trivial hu]
      exact ih h

end Exec

theorem exec_any_cons {s s' : σ} {a : α} {as : List α} (h : M.exec anyStep s (a :: as) = some s') :
    ∃ u, M.step s a = some u ∧ M.exec anyStep u as = some s' :=
  (exec_cons_some h).2

namespace Reach

variable {G G' : σ → α → Prop} {s s' : σ}

/-- The invariant rule. -/
theorem invariant {I : σ → Prop} (hinit : ∀ s, M.init s → I s)
    (hstep : ∀ s a s', M.Reach G s → I s → G s a → M.step s a = some s' → I s')
    (h : M.Reach G s) : I s := by
  induction h with
  | start h => exact hinit _ h
  | next hs hg h ih => exact hstep _ _ _ hs ih hg h

theorem mono (hG : ∀ s a, G s a → G' s a) (h : M.Reach G s) : M.Reach G' s := by
  induction h with
  | start h => exact .start h
  | next _ hg h ih => exact .next ih (hG _ _ hg) h

theorem reachable (h : M.Reach G s) : M.Reachable s :=
  h.mono fun _ _ _ => trivial

/-- A schedule executed from a reached state ends in a reached state. -/
theorem exec [∀ s a, Decidable (G s a)] (as : List α) (hs : M.Reach G s)
    (h : M.exec G s as = some s') : M.Reach G s' := by
  induction as generalizing s with
  | nil => exact Option.some.inj h ▸ hs
  | cons a as ih =>
      rw [exec_cons] at h
      split at h
      · next hg =>
          obtain ⟨u, hu, h⟩ := Option.bind_eq_some_iff.mp h
          exact ih (.next hs hg hu) h
      · cases h

/-- A schedule that ends as `P` says. -/
theorem exists_of_exec {P : σ → Prop} [DecidablePred P] (hs : M.Reachable s) (as : List α)
    (h : (M.exec anyStep s as).any (decide <| P ·)) : ∃ s', M.Reachable s' ∧ P s' := by
  obtain ⟨s', hs', hP⟩ := (Option.any_eq_true _ _).mp h
  exact ⟨s', hs.exec as hs', of_decide_eq_true hP⟩

/-- A simulation: what `M` reaches is matched by what `N` reaches, if `N` can follow every step
    of `M` in any number of steps, none included. -/
theorem simulate {σ' α' : Type*} {N : Lts σ' α'} {R : σ → σ' → Prop}
    (hinit : ∀ s, M.init s → ∃ t, N.Reachable t ∧ R s t)
    (hstep : ∀ s a s' t, N.Reachable t → R s t → M.step s a = some s' →
      ∃ t', N.Reachable t' ∧ R s' t')
    (h : M.Reachable s) : ∃ t, N.Reachable t ∧ R s t := by
  induction h with
  | start h => exact hinit _ h
  | next _ _ h ih =>
      obtain ⟨t, ht, hr⟩ := ih
      exact hstep _ _ _ t ht hr h

end Reach

end Lts

end Concur
