/-
  Wait-for graphs and ordered acquisition.

  `want t` is the resource thread `t` is blocked on, if any, and `owner m` the thread that
  owns resource `m`. `t` waits for `u` when `u` owns what `t` wants. If every resource a
  thread owns ranks strictly below the one it wants (`Ordered`), then

  * `acyclic`: no thread waits for itself, directly or along a chain;
  * `exists_unblocked_owner`: if the ranks have no infinite ascending chain, then as soon
    as some thread is blocked, some thread owns a resource and is not blocked.
-/
import Mathlib.Logic.Relation
import Mathlib.Order.WellFounded

namespace Concur

variable {ι μ ρ : Type*}

/-- `u` owns the resource that `t` wants. -/
def WaitsFor (want : ι → Option μ) (owner : μ → Option ι) (t u : ι) : Prop :=
  ∃ m, want t = some m ∧ owner m = some u

/-- `t` waits for some thread. -/
def Blocked (want : ι → Option μ) (owner : μ → Option ι) (t : ι) : Prop :=
  ∃ u, WaitsFor want owner t u

/-- Ordered acquisition: what a thread owns ranks below what it wants. -/
def Ordered [Preorder ρ] (rank : μ → ρ) (want : ι → Option μ) (owner : μ → Option ι) : Prop :=
  ∀ t m m', owner m = some t → want t = some m' → rank m < rank m'

namespace Ordered

variable [Preorder ρ] {rank : μ → ρ} {want : ι → Option μ} {owner : μ → Option ι}

/-- Along a chain of waits the thread at the end owns something that ranks at least as
    high as what the thread at the start wants. -/
theorem exists_owned_ge (h : Ordered rank want owner) {t u : ι} {m : μ} (hm : want t = some m)
    (hw : Relation.TransGen (WaitsFor want owner) t u) :
    ∃ m', owner m' = some u ∧ rank m ≤ rank m' := by
  induction hw with
  | single hw =>
      obtain ⟨m', hm', ho⟩ := hw
      rw [hm] at hm'
      cases hm'
      exact ⟨m, ho, le_refl _⟩
  | tail _ hw ih =>
      obtain ⟨m₁, ho₁, hle⟩ := ih
      obtain ⟨m₂, hm₂, ho₂⟩ := hw
      exact ⟨m₂, ho₂, le_trans hle (h _ _ _ ho₁ hm₂).le⟩

/-- No cycle of waiting threads, of any length. -/
theorem acyclic (h : Ordered rank want owner) (t : ι) :
    ¬ Relation.TransGen (WaitsFor want owner) t t := by
  intro hw
  obtain ⟨u, ⟨m, hm, -⟩, -⟩ := Relation.TransGen.head'_iff.mp hw
  obtain ⟨m', ho, hle⟩ := h.exists_owned_ge hm hw
  exact lt_irrefl _ (lt_of_le_of_lt hle (h t m' m ho hm))

/-- Follow the waits upwards: they end at an owner that is not blocked. -/
theorem exists_unblocked_owner [WellFoundedGT ρ] (h : Ordered rank want owner) {t : ι}
    (hb : Blocked want owner t) : ∃ u m, owner m = some u ∧ ¬ Blocked want owner u := by
  obtain ⟨u, m, hm, ho⟩ := hb
  clear hm
  generalize hr : rank m = r
  induction r using WellFoundedGT.induction generalizing u m with
  | ind r ih =>
      by_cases hu : Blocked want owner u
      · obtain ⟨v, m', hm', ho'⟩ := hu
        have hlt : r < rank m' := hr ▸ h u m m' ho hm'
        exact ih (rank m') hlt v m' ho' rfl
      · exact ⟨u, m, ho, hu⟩

end Ordered

end Concur
