/-
  What parallel_quick_sort of quick_sort.cpp costs.

      // This still does a lot of the work sequentially
      // but it's good enough for now...

  `std::partition` applies its predicate once to each element of its range. Everything else is
  moving nodes.

  Proved (`parallel_costs`): a run that returns has 4n + 1 steps for n elements, so it makes
  n calls with a pivot and n + 1 without one, however the tasks interleave and the partitions
  behave. Its comparisons are at least those of dividing in the middle and at most n choose 2,
  and they are n choose 2 if no element is less than another.
-/
import CppConcurrency.Lib.Divide
import CppConcurrency.QuickSort.Parallel

namespace CppConcurrency.QuickSort

open Concur

variable {α : Type*}

/-- The comparisons of the step that `a` makes from a task. -/
def compares : Task α → Act α → ℕ
  | .call (_ :: rest), .here _ => rest.length
  | .split _ lo _, .lower a => compares lo a
  | .split _ _ hi, .higher a => compares hi a
  | .get _ lo, .lower a => compares lo a
  | _, _ => 0

/-- The comparisons of a run. -/
def comparisons (r : α → α → Prop) [DecidableRel r] (t : Task α) : List (Act α) → ℕ
  | [] => 0
  | a :: as => compares t a + ((step r t a).map fun t' => comparisons r t' as).getD 0

/-- What calls that are under way cost at `φ n` for n elements. -/
def Task.cost (φ : ℕ → ℕ) : Task α → ℕ
  | .call input => φ input.length
  | .split _ lo hi => lo.cost φ + hi.cost φ
  | .get _ lo => lo.cost φ
  | .done _ => 0

variable {r : α → α → Prop} [DecidableRel r]

/-! ## Steps -/

theorem start_work_eq (part : Partition α) (input : List α) :
    (start r part input).work + 1 = 4 * input.length + 1 := by
  cases input with
  | nil => rfl
  | cons pivot rest =>
      have hlen := divide_length (r := r) part pivot rest
      simp only [start, splice_front, List.drop_succ_cons, List.drop_zero, Task.work,
        List.length_cons]
      omega

/-- A step is one unit of work. -/
theorem Moves.work_eq {t t' : Task α} (h : Moves r t t') : t'.work + 1 = t.work := by
  induction h with
  | start part input => exact start_work_eq part input
  | lower _ ih | higher _ ih | await _ ih =>
      simp only [Task.work]
      omega
  | append result lo new_higher => rfl
  | prepend result new_lower => rfl

theorem exec_work_eq {input : List α} {t t' : Task α} {as : List (Act α)}
    (h : (sys r input).exec Lts.anyStep t as = some t') : as.length + t'.work = t.work := by
  induction as generalizing t with
  | nil =>
      cases h
      exact Nat.zero_add _
  | cons a as ih =>
      obtain ⟨u, hu, h⟩ := Lts.exec_any_cons h
      have hstep := (moves_of_step hu).work_eq
      have hrun := ih h
      rw [List.length_cons]
      omega

/-- What a step does to the cost: nothing, or it divides a call and makes the comparisons. The
    lower part is empty unless some element is less than another. -/
theorem cost_step {t t' : Task α} {a : Act α} (h : step r t a = some t') :
    (compares t a = 0 ∧ ∀ φ : ℕ → ℕ, φ 0 = 0 → t'.cost φ = t.cost φ) ∨
    ∃ x y, compares t a = x + y ∧ (x ≠ 0 → ∃ u ∈ t.items, ∃ v ∈ t.items, r u v) ∧
      ∀ φ : ℕ → ℕ, t'.cost φ + φ (x + y + 1) = t.cost φ + (φ x + φ y) := by
  induction t generalizing a t' with
  | call input =>
      cases a with
      | here part =>
          cases h
          cases input with
          | nil => exact .inl ⟨rfl, fun φ h0 => h0.symm⟩
          | cons pivot rest =>
              have hlen := divide_length (r := r) part pivot rest
              refine .inr ⟨_, _, hlen.symm, fun hx => ?_, fun φ => ?_⟩
              · obtain ⟨u, hu⟩ := List.exists_mem_of_length_pos (Nat.pos_of_ne_zero hx)
                have hmem : u ∈ rest :=
                  (divide_perm part pivot rest).mem_iff.mp (List.mem_append_left _ hu)
                exact ⟨u, List.mem_cons_of_mem _ hmem, pivot, List.mem_cons_self,
                  divide_lower part pivot rest u hu⟩
              · rw [hlen, Nat.add_comm]
                rfl
      | lower a => cases h
      | higher a => cases h
  | split result lo hi ihlo ihhi =>
      cases a with
      | here part =>
          cases hi with
          | done new_higher =>
              cases h
              exact .inl ⟨rfl, fun φ _ => rfl⟩
          | _ => cases h
      | lower a =>
          obtain ⟨lo', hlo, rfl⟩ := Option.map_eq_some_iff.mp h
          rcases ihlo hlo with ⟨h0, hcost⟩ | ⟨x, y, hxy, hless, hcost⟩
          · refine .inl ⟨h0, fun φ hφ => ?_⟩
            have := hcost φ hφ
            simp only [Task.cost]
            omega
          · refine .inr ⟨x, y, hxy, fun hx => ?_, fun φ => ?_⟩
            · obtain ⟨u, hu, v, hv, huv⟩ := hless hx
              exact ⟨u, List.mem_append_left _ hu, v, List.mem_append_left _ hv, huv⟩
            · have := hcost φ
              simp only [Task.cost]
              omega
      | higher a =>
          obtain ⟨hi', hhi, rfl⟩ := Option.map_eq_some_iff.mp h
          rcases ihhi hhi with ⟨h0, hcost⟩ | ⟨x, y, hxy, hless, hcost⟩
          · refine .inl ⟨h0, fun φ hφ => ?_⟩
            have := hcost φ hφ
            simp only [Task.cost]
            omega
          · refine .inr ⟨x, y, hxy, fun hx => ?_, fun φ => ?_⟩
            · obtain ⟨u, hu, v, hv, huv⟩ := hless hx
              have hsub {w : α} (hw : w ∈ hi.items) : w ∈ (Task.split result lo hi).items :=
                List.mem_append_right _ (List.mem_append_right _ hw)
              exact ⟨u, hsub hu, v, hsub hv, huv⟩
            · have := hcost φ
              simp only [Task.cost]
              omega
  | get result lo ih =>
      cases a with
      | here part =>
          cases lo with
          | done new_lower =>
              cases h
              exact .inl ⟨rfl, fun φ _ => rfl⟩
          | _ => cases h
      | lower a =>
          obtain ⟨lo', hlo, rfl⟩ := Option.map_eq_some_iff.mp h
          rcases ih hlo with ⟨h0, hcost⟩ | ⟨x, y, hxy, hless, hcost⟩
          · exact .inl ⟨h0, hcost⟩
          · refine .inr ⟨x, y, hxy, fun hx => ?_, hcost⟩
            obtain ⟨u, hu, v, hv, huv⟩ := hless hx
            exact ⟨u, List.mem_append_left _ hu, v, List.mem_append_left _ hv, huv⟩
      | higher a => cases h
  | done result => cases a <;> cases h

/-! ## Runs -/

theorem comparisons_cons {t u : Task α} {a : Act α} (h : step r t a = some u)
    (as : List (Act α)) : comparisons r t (a :: as) = compares t a + comparisons r u as := by
  rw [comparisons, h]
  rfl

/-- An upper bound: dividing makes the calls cheaper by what it costs. -/
theorem comparisons_le {φ : ℕ → ℕ} (h0 : φ 0 = 0)
    (hφ : ∀ x y, φ x + φ y + (x + y) ≤ φ (x + y + 1)) {input : List α} {t t' : Task α}
    {as : List (Act α)} (h : (sys r input).exec Lts.anyStep t as = some t') :
    comparisons r t as + t'.cost φ ≤ t.cost φ := by
  induction as generalizing t with
  | nil =>
      cases h
      exact Nat.le_of_eq (Nat.zero_add _)
  | cons a as ih =>
      obtain ⟨u, hu, h⟩ := Lts.exec_any_cons h
      have hrun := ih h
      rw [comparisons_cons hu]
      rcases cost_step hu with ⟨hz, hcost⟩ | ⟨x, y, hxy, -, hcost⟩
      · have hu := hcost φ h0
        omega
      · have hu := hcost φ
        have hxy' := hφ x y
        omega

/-- A lower bound, where only parts that can come up need to be looked at. -/
theorem le_comparisons {φ : ℕ → ℕ} {input : List α} (h0 : φ 0 = 0)
    (hφ : ∀ x y, (x ≠ 0 → ∃ u ∈ input, ∃ v ∈ input, r u v) →
      φ (x + y + 1) ≤ φ x + φ y + (x + y))
    {t t' : Task α} {as : List (Act α)} (hitems : t.items.Perm input)
    (h : (sys r input).exec Lts.anyStep t as = some t') :
    t.cost φ ≤ comparisons r t as + t'.cost φ := by
  induction as generalizing t with
  | nil =>
      cases h
      exact Nat.le_of_eq (Nat.zero_add _).symm
  | cons a as ih =>
      obtain ⟨u, hu, h⟩ := Lts.exec_any_cons h
      have hrun := ih ((moves_of_step hu).items_perm.trans hitems) h
      rw [comparisons_cons hu]
      rcases cost_step hu with ⟨hz, hcost⟩ | ⟨x, y, hxy, hless, hcost⟩
      · have hu := hcost φ h0
        omega
      · have hu := hcost φ
        have hxy' := hφ x y fun hx => by
          obtain ⟨v, hv, w, hw, hvw⟩ := hless hx
          exact ⟨v, hitems.mem_iff.mp hv, w, hitems.mem_iff.mp hw, hvw⟩
        omega

/-- **The cost of a run.** However the tasks interleave and the partitions behave, a run that
    returns takes 4n + 1 steps. It makes at least the comparisons of dividing in the middle and
    at most n choose 2, and these if no element of the input is less than another. -/
theorem parallel_costs (input : List α) (as : List (Act α)) (result : List α)
    (h : (sys r input).exec Lts.anyStep (.call input) as = some (.done result)) :
    as.length = 4 * input.length + 1 ∧
    logSum input.length ≤ comparisons r (.call input) as ∧
    comparisons r (.call input) as ≤ input.length.choose 2 ∧
    ((∀ u ∈ input, ∀ v ∈ input, ¬ r u v) →
      comparisons r (.call input) as = input.length.choose 2) := by
  have hitems : (Task.call input).items.Perm input := List.Perm.refl _
  have hle := comparisons_le (φ := fun n => n.choose 2) rfl choose_two_divide h
  refine ⟨exec_work_eq h, ?_, hle, fun heq => Nat.le_antisymm hle ?_⟩
  · exact le_comparisons logSum_zero (fun x y _ => logSum_divide x y) hitems h
  · refine le_comparisons (φ := fun n => n.choose 2) rfl (fun x y hless => ?_) hitems h
    have hx : x = 0 := by
      by_contra hx
      obtain ⟨u, hu, v, hv, huv⟩ := hless hx
      exact heq u hu v hv huv
    subst hx
    rw [Nat.zero_add, choose_two_empty]
    omega

/-- Three elements, with the pivot in the middle: two comparisons. -/
theorem parallel_costs_middle :
    let here : Act ℕ := .here .stable
    let run : List (Act ℕ) := [here, .higher here, .higher (.higher here), .higher here,
      .higher (.lower here), .higher here, here, .lower here, .lower (.higher here), .lower here,
      .lower (.lower here), .lower here, here]
    run.length = 13 ∧ comparisons (· < ·) (.call [2, 1, 3]) run = 2 ∧
      logSum 3 ≤ comparisons (· < ·) (.call [2, 1, 3]) run := by
  intro here run
  have h : (sys (· < ·) [2, 1, 3]).exec Lts.anyStep (.call [2, 1, 3]) run =
      some (.done [1, 2, 3]) := rfl
  exact ⟨rfl, by decide +kernel, (parallel_costs [2, 1, 3] run [1, 2, 3] h).2.1⟩

end CppConcurrency.QuickSort
