/-
  Counting and adding over threads by where they stand.

  `sumAt f loc` adds up what `f` gives for the local state of each thread, and
  `countAt p loc` is the number of threads whose local state satisfies the test `p`. The
  sums in an invariant change only through the one thread that moves: `sumAt_update` and
  `countAt_update` are that equation, written without subtraction so that it can be used
  in either direction.
-/
import Mathlib.Algebra.BigOperators.Group.Finset.Piecewise
import Mathlib.Algebra.Order.BigOperators.Group.Finset
import Mathlib.Data.Fintype.Card
import Mathlib.Tactic.Abel

namespace Concur

open Finset

variable {ι L : Type*} [Fintype ι]

/-- What `f` gives for all threads together. -/
def sumAt {M : Type*} [AddCommMonoid M] (f : L → M) (loc : ι → L) : M :=
  ∑ i, f (loc i)

/-- The number of threads whose local state satisfies `p`. -/
def countAt (p : L → Bool) (loc : ι → L) : ℕ :=
  ∑ i, (p (loc i)).toNat

theorem sumAt_eq_zero {M : Type*} [AddCommMonoid M] {f : L → M} {loc : ι → L}
    (h : ∀ i, f (loc i) = 0) : sumAt f loc = 0 :=
  sum_eq_zero fun i _ => h i

/-- One thread gives less than before, and the others give what they gave. -/
theorem sumAt_lt_sumAt {f : L → ℕ} {loc loc' : ι → L} {t : ι} (ht : f (loc' t) < f (loc t))
    (ho : ∀ u, u ≠ t → f (loc' u) = f (loc u)) : sumAt f loc' < sumAt f loc := by
  refine sum_lt_sum (fun u _ => ?_) ⟨t, mem_univ t, ht⟩
  by_cases hu : u = t
  · subst hu
    exact ht.le
  · exact (ho u hu).le

theorem countAt_pos {p : L → Bool} {loc : ι → L} :
    0 < countAt p loc ↔ ∃ i, p (loc i) = true := by
  unfold countAt
  rw [sum_pos_iff]
  constructor
  · rintro ⟨i, -, hi⟩
    exact ⟨i, by cases h : p (loc i) <;> simp_all⟩
  · rintro ⟨i, hi⟩
    exact ⟨i, mem_univ i, by rw [hi]; decide⟩

theorem countAt_eq_zero {p : L → Bool} {loc : ι → L} :
    countAt p loc = 0 ↔ ∀ i, p (loc i) = false := by
  rw [← Nat.le_zero, ← Nat.not_lt, countAt_pos, not_exists]
  exact forall_congr' fun i => Bool.not_eq_true (p (loc i)) ▸ Iff.rfl

theorem countAt_mono {p p' : L → Bool} {loc : ι → L}
    (h : ∀ i, p (loc i) = true → p' (loc i) = true) : countAt p loc ≤ countAt p' loc := by
  refine sum_le_sum fun i _ => ?_
  cases hp : p (loc i) with
  | false => exact Nat.zero_le _
  | true => rw [h i hp]

theorem countAt_of_forall {p : L → Bool} {loc : ι → L} (h : ∀ i, p (loc i) = true) :
    countAt p loc = Fintype.card ι := by
  simp [countAt, h]

/-- If as many threads count as there are, all of them do. -/
theorem all_of_countAt_eq_card {p : L → Bool} {loc : ι → L}
    (h : countAt p loc = Fintype.card ι) : ∀ i, p (loc i) = true := by
  by_contra hne
  obtain ⟨i, hi⟩ := not_forall.mp hne
  have hlt : ∑ j, (p (loc j)).toNat < ∑ _j : ι, 1 :=
    sum_lt_sum (fun j _ => Bool.toNat_le _) ⟨i, mem_univ i, by simp [hi]⟩
  have hcard : ∑ _j : ι, 1 = Fintype.card ι := by simp
  unfold countAt at h
  omega

variable [DecidableEq ι]

/-- One thread moves: what its old place gave goes, and what its new place gives comes. -/
theorem sumAt_update {M : Type*} [AddCommMonoid M] (f : L → M) (loc : ι → L) (t : ι) (l : L) :
    sumAt f (Function.update loc t l) + f (loc t) = sumAt f loc + f l := by
  have hnew : ∀ i, f (Function.update loc t l i) =
      Function.update (fun i => f (loc i)) t (f l) i :=
    fun i => Function.apply_update (fun _ x => f x) loc t l i
  unfold sumAt
  simp only [hnew]
  rw [sum_update_of_mem (mem_univ t), sdiff_singleton_eq_erase,
    ← add_sum_erase univ (fun i => f (loc i)) (mem_univ t)]
  abel

/-- One thread moves: its old place stops counting and its new place starts. -/
theorem countAt_update (p : L → Bool) (loc : ι → L) (t : ι) (l : L) :
    countAt p (Function.update loc t l) + (p (loc t)).toNat =
      countAt p loc + (p l).toNat :=
  sumAt_update (fun x => (p x).toNat) loc t l

/-- If all threads but one may count and the count is one short of the number of threads,
    then every other thread counts. -/
theorem all_of_countAt_succ {p : L → Bool} {loc : ι → L} {t : ι}
    (ht : p (loc t) = false) (hc : countAt p loc + 1 = Fintype.card ι) :
    ∀ i, i ≠ t → p (loc i) = true := by
  intro i hi
  by_contra hne
  have hle : ∑ j ∈ (univ.erase t).erase i, (p (loc j)).toNat ≤ ((univ.erase t).erase i).card := by
    have := Finset.sum_le_card_nsmul ((univ.erase t).erase i) (fun j => (p (loc j)).toNat) 1
      (fun j _ => Bool.toNat_le _)
    simpa using this
  have hit : i ∈ univ.erase t := mem_erase.mpr ⟨hi, mem_univ i⟩
  have h1 := Finset.add_sum_erase univ (fun j => (p (loc j)).toNat) (mem_univ t)
  have h2 := Finset.add_sum_erase (univ.erase t) (fun j => (p (loc j)).toNat) hit
  have hc1 := card_erase_add_one (mem_univ t)
  have hc2 := card_erase_add_one hit
  rw [card_univ] at hc1
  simp only [ht, Bool.eq_false_iff.mpr hne, Bool.toNat_false, Nat.zero_add] at h1 h2
  unfold countAt at hc
  omega

end Concur
