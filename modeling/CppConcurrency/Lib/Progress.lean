/-
  Runs that come to an end.

  `Finishes M G Good n s`: no run from `s`, with steps admitted by `G`, is longer than `n`, and
  one that cannot go on has ended in a state with `Good`. So whatever the scheduler does, it
  gets there.

  Proved:
  * `exec_length_le_cost`: if steps may make a measure larger at a cost, a run is no longer than
    the measure and what its steps cost.
  * `finishes_of_measure`: it is enough that every step makes a measure smaller and keeps an
    invariant, under which a state that cannot go on is good.
-/
import CppConcurrency.Lib.Lts
import Mathlib.Algebra.GroupWithZero.Nat
import Mathlib.Order.Basic

namespace Concur

namespace Lts

variable {σ α : Type*}

/-- Every run from `s` has at most `n` steps, and has ended with `Good` when it cannot go on. -/
structure Finishes (M : Lts σ α) (G : σ → α → Prop) [∀ s a, Decidable (G s a)] (Good : σ → Prop)
    (n : ℕ) (s : σ) : Prop where
  bounded : ∀ as s', M.exec G s as = some s' → as.length ≤ n
  ends : ∀ as s', M.exec G s as = some s' → (∀ a, G s' a → M.step s' a = none) → Good s'

variable {M : Lts σ α} {G : σ → α → Prop} [∀ s a, Decidable (G s a)] {Good : σ → Prop} {n : ℕ}
  {s s' : σ}

/-- What every admitted step keeps, an admitted run keeps. -/
theorem exec_keeps {P : σ → Prop}
    (hstep : ∀ s a s', P s → G s a → M.step s a = some s' → P s') (hs : P s) {as : List α}
    (h : M.exec G s as = some s') : P s' := by
  induction as generalizing s with
  | nil =>
      cases h
      exact hs
  | cons a as ih =>
      obtain ⟨hg, u, hu, h⟩ := exec_cons_some h
      exact ih (hstep s a u hs hg hu) h

/-- An admitted run is no longer than what the measure loses in it and its steps may cost. -/
theorem exec_length_le_cost {P : σ → Prop} {μ : σ → ℕ} {cost : α → ℕ}
    (hstep : ∀ s a s', P s → G s a → M.step s a = some s' → P s' ∧ μ s' + 1 ≤ μ s + cost a)
    (hs : P s) {as : List α} (h : M.exec G s as = some s') :
    as.length + μ s' ≤ μ s + (as.map cost).sum := by
  induction as generalizing s with
  | nil =>
      cases h
      exact Nat.le_of_eq (Nat.add_comm _ _)
  | cons a as ih =>
      obtain ⟨hg, u, hu, h⟩ := exec_cons_some h
      obtain ⟨hPu, hlt⟩ := hstep s a u hs hg hu
      have hle := ih hPu h
      rw [List.length_cons, List.map_cons, List.sum_cons]
      omega

/-- An admitted run is no longer than what the measure loses in it. -/
theorem exec_length_le {P : σ → Prop} {μ : σ → ℕ}
    (hstep : ∀ s a s', P s → G s a → M.step s a = some s' → P s' ∧ μ s' < μ s) (hs : P s)
    {as : List α} (h : M.exec G s as = some s') : as.length + μ s' ≤ μ s := by
  have hle : as.length + μ s' ≤ μ s + (as.map fun _ => 0).sum :=
    exec_length_le_cost hstep hs h
  rw [List.map_const', List.sum_replicate_nat, Nat.mul_zero] at hle
  exact hle

theorem finishes_of_measure {P : σ → Prop} {μ : σ → ℕ}
    (hstep : ∀ s a s', P s → G s a → M.step s a = some s' → P s' ∧ μ s' < μ s)
    (hgood : ∀ s, P s → (∀ a, G s a → M.step s a = none) → Good s) (hs : P s) :
    Finishes M G Good (μ s) s where
  bounded _ _ h := Nat.le_of_add_right_le (exec_length_le hstep hs h)
  ends _ s' h hend := by
    have hP := exec_keeps (fun s a s' hs hg h => (hstep s a s' hs hg h).1) hs h
    exact hgood s' hP hend

/-- What the good states have besides, where they can be reached. -/
theorem Finishes.imp {Good' : σ → Prop} (hf : Finishes M G Good n s) (hs : M.Reachable s)
    (hgood : ∀ s', M.Reachable s' → Good s' → Good' s') : Finishes M G Good' n s where
  bounded := hf.bounded
  ends as s' h hend := hgood s' (hs.exec as (exec_any_of_exec h)) (hf.ends as s' h hend)

end Lts

end Concur
