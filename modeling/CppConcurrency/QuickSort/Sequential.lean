/-
  sequential_quick_sort of quick_sort.cpp.

  The list is sorted by moving nodes: the first node becomes the result, the rest is
  partitioned around it, both parts are sorted by recursion, and the three pieces are
  spliced together. Every call of `std::partition` may behave in any conforming way of its
  own: `part` gives the behaviour of the call at each place of the recursion tree (`false`
  for the lower part, `true` for the rest).

  Proved, for elements with a strict weak order `r`:
  * `sequential_sorts`: the result is a sorted permutation of the input. The function is
    total, so the recursion ends for every behaviour of `std::partition`.
-/
import CppConcurrency.Lib.SortedList

namespace CppConcurrency.QuickSort

open Concur

variable {α : Type*} (r : α → α → Prop) [DecidableRel r]

/-- `std::partition(input.begin(), input.end(), [&](const T& t){ return t < pivot; })`, and
    the splice of everything before `divide_point` into `lower_part`: the two parts. -/
def divide (part : Partition α) (pivot : α) (input : List α) : List α × List α :=
  let partitioned := part.run (fun t => decide (r t pivot)) input
  splice [] 0 partitioned.1 0 partitioned.2

/-- `result.splice(result.end(), new_higher); result.splice(result.begin(), new_lower);` -/
def piece (result new_lower new_higher : List α) : List α :=
  let result' := (splice result result.length new_higher 0 new_higher.length).1
  (splice result' 0 new_lower 0 new_lower.length).1

theorem piece_eq (result lower higher : List α) :
    piece result lower higher = lower ++ (result ++ higher) := by
  simp only [piece, splice_end, splice_begin]

section Divide

variable {r} (part : Partition α) (pivot : α) (input : List α)

/-- Nothing is lost, and nothing is on the wrong side of the pivot. -/
theorem divide_perm :
    ((divide r part pivot input).1 ++ (divide r part pivot input).2).Perm input := by
  unfold divide
  rw [splice_front, List.take_append_drop]
  exact part.perm _ input

theorem divide_length :
    (divide r part pivot input).1.length + (divide r part pivot input).2.length =
      input.length := by
  rw [← List.length_append]
  exact (divide_perm part pivot input).length_eq

theorem divide_lower : ∀ t ∈ (divide r part pivot input).1, r t pivot := by
  intro t ht
  unfold divide at ht
  rw [splice_front] at ht
  exact of_decide_eq_true (part.before _ input t ht)

theorem divide_upper : ∀ t ∈ (divide r part pivot input).2, ¬ r t pivot := by
  intro t ht
  unfold divide at ht
  rw [splice_front] at ht
  exact of_decide_eq_false (part.after _ input t ht)

end Divide

/-- `sequential_quick_sort`. `pivot` refers to the only node of `result`. -/
def sequentialQuickSort (part : List Bool → Partition α) : List α → List α
  | [] => []
  | pivot :: rest =>
      let front := splice [] 0 (pivot :: rest) 0 1
      let parts := divide r (part []) pivot front.2
      let new_lower := sequentialQuickSort (fun call => part (false :: call)) parts.1
      let new_higher := sequentialQuickSort (fun call => part (true :: call)) parts.2
      piece front.1 new_lower new_higher
termination_by input => input.length
decreasing_by
  all_goals
    have h := divide_length (r := r) (part []) pivot (splice [] 0 (pivot :: rest) 0 1).2
    simp only [splice_front, List.drop_succ_cons, List.drop_zero] at h ⊢
    simp only [List.length_cons]
    omega

theorem sequentialQuickSort_cons (part : List Bool → Partition α) (pivot : α) (rest : List α) :
    sequentialQuickSort r part (pivot :: rest) =
      sequentialQuickSort r (fun call => part (false :: call)) (divide r (part []) pivot rest).1 ++
        pivot ::
      sequentialQuickSort r (fun call => part (true :: call))
        (divide r (part []) pivot rest).2 := by
  rw [sequentialQuickSort]
  simp only [splice_front, List.drop_succ_cons, List.drop_zero, List.take_succ_cons,
    List.take_zero, piece_eq, List.singleton_append]

/-- The result has the elements of the input: by induction on its length, the pieces are
    permutations of the parts, and the parts and the pivot one of the input. -/
theorem sequentialQuickSort_perm (part : List Bool → Partition α) (input : List α) :
    (sequentialQuickSort r part input).Perm input := by
  induction hn : input.length using Nat.strong_induction_on generalizing part input with
  | _ n ih =>
      cases input with
      | nil => rw [sequentialQuickSort]
      | cons pivot rest =>
          have hlen := divide_length (r := r) (part []) pivot rest
          rw [List.length_cons] at hn
          have hlower := ih _ (by omega) (fun call => part (false :: call))
            (divide r (part []) pivot rest).1 rfl
          have hhigher := ih _ (by omega) (fun call => part (true :: call))
            (divide r (part []) pivot rest).2 rfl
          rw [sequentialQuickSort_cons]
          refine List.perm_middle.trans (List.Perm.cons pivot ?_)
          exact (hlower.append hhigher).trans (divide_perm (part []) pivot rest)

/-- The result is sorted: the pieces are, by induction, and their elements stand on the
    right side of the pivot because those of the parts do. -/
theorem sequentialQuickSort_sorted [IsStrictWeakOrder α r] (part : List Bool → Partition α)
    (input : List α) : Sorted r (sequentialQuickSort r part input) := by
  induction hn : input.length using Nat.strong_induction_on generalizing part input with
  | _ n ih =>
      cases input with
      | nil =>
          rw [sequentialQuickSort]
          exact List.Pairwise.nil
      | cons pivot rest =>
          have hlen := divide_length (r := r) (part []) pivot rest
          rw [List.length_cons] at hn
          rw [sequentialQuickSort_cons]
          refine Sorted.around (ih _ (by omega) _ _ rfl) (ih _ (by omega) _ _ rfl) ?_ ?_
          · intro t ht
            have hmem := (sequentialQuickSort_perm r _ _).mem_iff.mp ht
            exact asymm_of r (divide_lower (part []) pivot rest t hmem)
          · intro t ht
            have hmem := (sequentialQuickSort_perm r _ _).mem_iff.mp ht
            exact divide_upper (part []) pivot rest t hmem

/-- For every list and every conforming behaviour of every call of `std::partition`, the
    result is a permutation of the input in which no later element is below an earlier one. -/
theorem sequential_sorts [IsStrictWeakOrder α r] (part : List Bool → Partition α)
    (input : List α) :
    (sequentialQuickSort r part input).Perm input ∧
      (sequentialQuickSort r part input).Pairwise fun a b => ¬ r b a :=
  ⟨sequentialQuickSort_perm r part input, sequentialQuickSort_sorted r part input⟩

/-- Records with equal keys: the order looks at the first component only. -/
theorem sequential_sorts_records :
    let r : ℕ × ℕ → ℕ × ℕ → Prop := fun a b => a.1 < b.1
    (sequentialQuickSort r (fun _ => Partition.stable) [(2, 0), (1, 1), (2, 2), (0, 3)]).Perm
        [(2, 0), (1, 1), (2, 2), (0, 3)] ∧
      (sequentialQuickSort r (fun _ => Partition.stable)
        [(2, 0), (1, 1), (2, 2), (0, 3)]).Pairwise fun a b => ¬ r b a := by
  have hweak : IsStrictWeakOrder (ℕ × ℕ) fun a b => a.1 < b.1 :=
    { irrefl := fun a => Nat.lt_irrefl a.1
      trans := fun _ _ _ => Nat.lt_trans
      incomp_trans := fun _ _ _ _ _ => by omega }
  exact sequential_sorts _ (fun _ => Partition.stable) _

end CppConcurrency.QuickSort
