/-
  What it costs to divide around a pivot.

  A set of n + 1 elements is divided into a pivot, x and y elements, x + y = n, at a cost of n,
  and both parts are divided in turn. What is the total?

  Proved:
  * `choose_two_divide`: at most n choose 2, where that is the exact cost if one part is always
    empty (`choose_two_empty`);
  * `logSum_divide`: at least `logSum n`, the cost of dividing in the middle.
-/
import Mathlib.Algebra.BigOperators.Intervals
import Mathlib.Data.Nat.Choose.Basic
import Mathlib.Data.Nat.Log

namespace Concur

/-- ⌊log₂ 1⌋ + ⌊log₂ 2⌋ + … + ⌊log₂ n⌋ -/
def logSum (n : ℕ) : ℕ := ∑ k ∈ Finset.range n, Nat.log 2 (k + 1)

theorem logSum_zero : logSum 0 = 0 := rfl

theorem logSum_succ (n : ℕ) : logSum (n + 1) = logSum n + Nat.log 2 (n + 1) :=
  Finset.sum_range_succ ..

theorem log_two_mul (m : ℕ) : Nat.log 2 (2 * m + 2) = Nat.log 2 (m + 1) + 1 := by
  rw [Nat.log_of_one_lt_of_le Nat.one_lt_two (by omega)]
  congr 2
  omega

theorem log_two_mul_add_one (m : ℕ) : Nat.log 2 (2 * m + 3) = Nat.log 2 (m + 1) + 1 := by
  rw [Nat.log_of_one_lt_of_le Nat.one_lt_two (by omega)]
  congr 2
  omega

/-- Two equal halves. -/
theorem logSum_odd (m : ℕ) : logSum (2 * m + 1) = 2 * logSum m + 2 * m := by
  induction m with
  | zero => rfl
  | succ m ih =>
      have heven := log_two_mul m
      have hodd := log_two_mul_add_one m
      have h1 : logSum (2 * (m + 1)) = logSum (2 * m + 1) + Nat.log 2 (2 * m + 2) :=
        logSum_succ (2 * m + 1)
      have h2 : logSum (2 * (m + 1) + 1) = logSum (2 * (m + 1)) + Nat.log 2 (2 * m + 3) :=
        logSum_succ (2 * (m + 1))
      rw [h2, h1, logSum_succ m]
      omega

/-- Two halves that differ by one. -/
theorem logSum_even (m : ℕ) : logSum (2 * m + 2) = logSum m + logSum (m + 1) + (2 * m + 1) := by
  have heven := log_two_mul m
  have hodd := logSum_odd m
  have h1 : logSum (2 * m + 2) = logSum (2 * m + 1) + Nat.log 2 (2 * m + 2) :=
    logSum_succ (2 * m + 1)
  rw [h1, logSum_succ m]
  omega

/-- Parts that are closer to each other cost less. -/
theorem logSum_closer {x y : ℕ} (h : x ≤ y) :
    logSum (x + 1) + logSum y ≤ logSum x + logSum (y + 1) := by
  have hmono : Nat.log 2 (x + 1) ≤ Nat.log 2 (y + 1) := Nat.log_mono_right (Nat.succ_le_succ h)
  rw [logSum_succ, logSum_succ]
  omega

/-- By induction on the difference of the parts. -/
theorem logSum_divide_of_le {x y : ℕ} (h : x ≤ y) :
    logSum (x + y + 1) ≤ logSum x + logSum y + (x + y) := by
  induction hd : y - x using Nat.strongRecOn generalizing x y with
  | ind d ih =>
      rcases Nat.lt_or_ge d 2 with hlt | hge
      · rcases Nat.lt_or_ge d 1 with h0 | h1
        · obtain rfl : y = x := by omega
          rw [← Nat.two_mul, logSum_odd]
          omega
        · obtain rfl : y = x + 1 := by omega
          have heven := logSum_even x
          have hxy : x + (x + 1) + 1 = 2 * x + 2 := by omega
          rw [hxy, heven]
          omega
      · obtain ⟨z, rfl⟩ : ∃ z, y = z + 1 := ⟨y - 1, by omega⟩
        have hcloser := logSum_closer (x := x) (y := z) (by omega)
        have hih := ih (z - (x + 1)) (by omega) (x := x + 1) (y := z) (by omega) rfl
        have hxy : x + 1 + z + 1 = x + (z + 1) + 1 := by omega
        rw [hxy] at hih
        omega

/-- No division is cheaper than that in the middle. -/
theorem logSum_divide (x y : ℕ) : logSum (x + y + 1) ≤ logSum x + logSum y + (x + y) := by
  rcases Nat.le_total x y with h | h
  · exact logSum_divide_of_le h
  · have hle := logSum_divide_of_le h
    rw [Nat.add_comm y x] at hle
    omega

/-- One part is empty. -/
theorem choose_two_empty (n : ℕ) : (n + 1).choose 2 = n.choose 2 + n := by
  rw [Nat.choose_succ_succ', Nat.choose_one_right, Nat.add_comm]

theorem choose_two_add (x y : ℕ) : x.choose 2 + y.choose 2 ≤ (x + y).choose 2 := by
  induction y with
  | zero => exact le_rfl
  | succ y ih =>
      rw [← Nat.add_assoc, choose_two_empty, choose_two_empty]
      omega

/-- No division is dearer. -/
theorem choose_two_divide (x y : ℕ) :
    x.choose 2 + y.choose 2 + (x + y) ≤ (x + y + 1).choose 2 := by
  rw [choose_two_empty]
  exact Nat.add_le_add_right (choose_two_add x y) _

end Concur
