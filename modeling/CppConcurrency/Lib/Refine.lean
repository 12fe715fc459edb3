/-
  What is seen of a run, and machines of which the same is seen.

  `obs s a` is what is seen of the step that `a` makes from `s`; `none` for a step inside.
  `Run M obs s tr s'` is a run of `M` from `s` to `s'`, of which `tr` is seen.

  `Implements M obs N obsN I f`: as long as `I` holds, `f` makes of a state of `M` one of `N`,
  such that
  * a step of `M` is one of `N` of which the same is seen, or a step inside, which `N` does
    not notice;
  * a step of `N` can be made by `M`, perhaps in several steps.

  Proved (`Implements.run_iff`): then the same runs are seen of `M` and of `N`.
-/
import CppConcurrency.Lib.Lts

namespace Concur

namespace Lts

variable {σ τ α β ε : Type*}

/-- A run from `s` to `s'`, of which `tr` is seen. -/
inductive Run (M : Lts σ α) (obs : σ → α → Option ε) : σ → List ε → σ → Prop
  | nil (s : σ) : Run M obs s [] s
  | cons {s u s' : σ} {a : α} {tr : List ε} (h : M.step s a = some u) (hr : Run M obs u tr s') :
      Run M obs s ((obs s a).toList ++ tr) s'

namespace Run

variable {M : Lts σ α} {obs : σ → α → Option ε} {s s' u : σ} {a : α} {tr tr' : List ε} {e : ε}

/-- A step inside. -/
theorem quiet (hs : M.step s a = some u) (ho : obs s a = none) (h : Run M obs u tr s') :
    Run M obs s tr s' := by
  have hrun := cons hs h
  rw [ho] at hrun
  exact hrun

/-- A step that is seen. -/
theorem seen (hs : M.step s a = some u) (ho : obs s a = some e) (h : Run M obs u tr s') :
    Run M obs s (e :: tr) s' := by
  have hrun := cons hs h
  rw [ho] at hrun
  exact hrun

theorem append (h : Run M obs s tr u) (h' : Run M obs u tr' s') : Run M obs s (tr ++ tr') s' := by
  induction h with
  | nil => exact h'
  | cons hs _ ih =>
      rw [List.append_assoc]
      exact .cons hs (ih h')

end Run

/-- Execute a schedule and look at it. -/
def watch (M : Lts σ α) (obs : σ → α → Option ε) : σ → List α → Option (List ε × σ)
  | s, [] => some ([], s)
  | s, a :: as => (M.step s a).bind fun u =>
      (watch M obs u as).map fun x => ((obs s a).toList ++ x.1, x.2)

theorem run_of_watch {M : Lts σ α} {obs : σ → α → Option ε} {s s' : σ} {tr : List ε}
    (as : List α) (h : watch M obs s as = some (tr, s')) : Run M obs s tr s' := by
  induction as generalizing s tr with
  | nil =>
      cases h
      exact .nil _
  | cons a as ih =>
      obtain ⟨u, hu, h⟩ := Option.bind_eq_some_iff.mp h
      obtain ⟨⟨tr', u'⟩, hrun, he⟩ := Option.map_eq_some_iff.mp h
      cases he
      exact .cons hu (ih hrun)

/-- `M` does what `N` does. -/
structure Implements (M : Lts σ α) (obs : σ → α → Option ε) (N : Lts τ β)
    (obsN : τ → β → Option ε) (I : σ → Prop) (f : σ → τ) : Prop where
  keeps : ∀ s a s', I s → M.step s a = some s' → I s'
  sound : ∀ s a s', I s → M.step s a = some s' → (obs s a = none ∧ f s' = f s) ∨
    ∃ b, N.step (f s) b = some (f s') ∧ obsN (f s) b = obs s a
  complete : ∀ s b t, I s → N.step (f s) b = some t →
    ∃ s', Run M obs s (obsN (f s) b).toList s' ∧ f s' = t

namespace Implements

variable {M : Lts σ α} {obs : σ → α → Option ε} {N : Lts τ β} {obsN : τ → β → Option ε}
  {I : σ → Prop} {f : σ → τ} {s s' : σ} {t : τ} {tr : List ε}

theorem inv_run (h : Implements M obs N obsN I f) (hs : I s) (hr : Run M obs s tr s') : I s' := by
  induction hr with
  | nil => exact hs
  | cons hstep _ ih => exact ih (h.keeps _ _ _ hs hstep)

/-- What is seen of `M` is seen of `N`. -/
theorem run (h : Implements M obs N obsN I f) (hs : I s) (hr : Run M obs s tr s') :
    Run N obsN (f s) tr (f s') := by
  induction hr with
  | nil s => exact .nil (f s)
  | @cons s u s' a tr hstep _ ih =>
      have hrun := ih (h.keeps s a u hs hstep)
      rcases h.sound s a u hs hstep with ⟨ho, hf⟩ | ⟨b, hb, ho⟩
      · rw [ho, ← hf]
        exact hrun
      · rw [← ho]
        exact .cons hb hrun

/-- What is seen of `N` can be seen of `M`. -/
theorem exists_run (h : Implements M obs N obsN I f) (hs : I s) (hr : Run N obsN (f s) tr t) :
    ∃ s', Run M obs s tr s' ∧ f s' = t := by
  generalize ht : f s = t₀ at hr
  induction hr generalizing s with
  | nil => exact ⟨s, .nil s, ht⟩
  | cons hstep _ ih =>
      subst ht
      obtain ⟨u, hu, hfu⟩ := h.complete s _ _ hs hstep
      obtain ⟨s', hs', hf⟩ := ih (h.inv_run hs hu) hfu
      exact ⟨s', hu.append hs', hf⟩

/-- The same is seen of both. -/
theorem run_iff (h : Implements M obs N obsN I f) (hs : I s) :
    (∃ s', Run M obs s tr s' ∧ f s' = t) ↔ Run N obsN (f s) tr t := by
  constructor
  · rintro ⟨s', hr, rfl⟩
    exact h.run hs hr
  · exact h.exists_run hs

end Implements

end Lts

end Concur
