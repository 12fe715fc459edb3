/-
  parallel_quick_sort of quick_sort.cpp, and its agreement with the sequential one.

  The lower part is sorted by a task behind the future `new_lower`, the upper part by
  direct recursion, and both recurse in the same way, so a run is a tree of tasks. An
  action names the task that moves, by the way to it from the root, and the behaviour of
  `std::partition` if that task partitions: tasks interleave in any order, and no two
  partitions need behave alike. `new_lower.get()` waits for the lower task.

  `items` are the elements a task has in hand and `Good` is what holds of a task half-way:
  finished lists are sorted and everything stands on the right side of the pivots. A step
  keeps both, so every finished run returns a sorted permutation of the input, and sorted
  permutations agree up to equivalence. `work` goes down with every step.
-/
import CppConcurrency.Lib.Lts
import CppConcurrency.QuickSort.Sequential

namespace CppConcurrency.QuickSort

open Concur

variable {α : Type*}

/-- A call of `parallel_quick_sort`: not started; split, with the lower task and the direct
    recursion both under way; waiting in `new_lower.get()`; returned. -/
inductive Task (α : Type*)
  | call (input : List α)
  | split (result : List α) (new_lower new_higher : Task α)
  | get (result : List α) (new_lower : Task α)
  | done (result : List α)

/-- The task that moves, and how `std::partition` behaves if it partitions. -/
inductive Act (α : Type*)
  | here (part : Partition α)
  | lower (a : Act α)
  | higher (a : Act α)

section Model

variable (r : α → α → Prop) [DecidableRel r]

/-- A call starts: an empty list is returned as it is, another is divided, the future gets
    its task and the recursion on the rest begins. -/
def start (part : Partition α) : List α → Task α
  | [] => .done []
  | pivot :: rest =>
      let front := splice [] 0 (pivot :: rest) 0 1
      let parts := divide r part pivot front.2
      .split front.1 (.call parts.1) (.call parts.2)

/-- One step of one task. -/
def step : Task α → Act α → Option (Task α)
  | .call input, .here part => some (start r part input)
  | .split result lo hi, .lower a => (step lo a).map fun lo' => .split result lo' hi
  | .split result lo hi, .higher a => (step hi a).map fun hi' => .split result lo hi'
  | .split result lo (.done new_higher), .here _ =>
      some (.get (splice result result.length new_higher 0 new_higher.length).1 lo)
  | .get result lo, .lower a => (step lo a).map fun lo' => .get result lo'
  | .get result (.done new_lower), .here _ =>
      some (.done (splice result 0 new_lower 0 new_lower.length).1)
  | _, _ => none

/-- `parallel_quick_sort(input)`. -/
def sys (input : List α) : Lts (Task α) (Act α) where
  init t := t = .call input
  step := step r

end Model

variable {r : α → α → Prop} [DecidableRel r]

/-- The steps, one case for each thing a task can do. -/
inductive Moves (r : α → α → Prop) [DecidableRel r] : Task α → Task α → Prop
  | start (part : Partition α) (input : List α) : Moves r (.call input) (start r part input)
  | lower {result : List α} {lo lo' hi : Task α} (h : Moves r lo lo') :
      Moves r (.split result lo hi) (.split result lo' hi)
  | higher {result : List α} {lo hi hi' : Task α} (h : Moves r hi hi') :
      Moves r (.split result lo hi) (.split result lo hi')
  | append (result : List α) (lo : Task α) (new_higher : List α) :
      Moves r (.split result lo (.done new_higher)) (.get (result ++ new_higher) lo)
  | await {result : List α} {lo lo' : Task α} (h : Moves r lo lo') :
      Moves r (.get result lo) (.get result lo')
  | prepend (result new_lower : List α) :
      Moves r (.get result (.done new_lower)) (.done (new_lower ++ result))

/-- Every step is one of these. -/
theorem moves_of_step {t t' : Task α} {a : Act α} (h : step r t a = some t') : Moves r t t' := by
  induction t generalizing a t' with
  | call input =>
      cases a with
      | here part =>
          cases h
          exact .start part input
      | lower a => cases h
      | higher a => cases h
  | split result lo hi ihlo ihhi =>
      cases a with
      | here part =>
          cases hi with
          | done new_higher =>
              rw [step, splice_end] at h
              cases h
              exact .append result lo new_higher
          | _ => cases h
      | lower a =>
          obtain ⟨lo', hlo, rfl⟩ := Option.map_eq_some_iff.mp h
          exact .lower (ihlo hlo)
      | higher a =>
          obtain ⟨hi', hhi, rfl⟩ := Option.map_eq_some_iff.mp h
          exact .higher (ihhi hhi)
  | get result lo ih =>
      cases a with
      | here part =>
          cases lo with
          | done new_lower =>
              rw [step, splice_begin] at h
              cases h
              exact .prepend result new_lower
          | _ => cases h
      | lower a =>
          obtain ⟨lo', hlo, rfl⟩ := Option.map_eq_some_iff.mp h
          exact .await (ih hlo)
      | higher a => cases h
  | done result => cases a <;> cases h

/-- A task that has not returned can move, or one below it can. -/
theorem exists_step (t : Task α) : (∃ result, t = .done result) ∨ ∃ a t', step r t a = some t' := by
  induction t with
  | call input => exact Or.inr ⟨.here .stable, _, rfl⟩
  | split result lo hi _ ihhi =>
      rcases ihhi with ⟨new_higher, rfl⟩ | ⟨a, hi', ha⟩
      · exact Or.inr ⟨.here .stable, _, rfl⟩
      · refine Or.inr ⟨.higher a, .split result lo hi', ?_⟩
        rw [step, ha]
        rfl
  | get result lo ih =>
      rcases ih with ⟨new_lower, rfl⟩ | ⟨a, lo', ha⟩
      · exact Or.inr ⟨.here .stable, _, rfl⟩
      · refine Or.inr ⟨.lower a, .get result lo', ?_⟩
        rw [step, ha]
        rfl
  | done result => exact Or.inl ⟨result, rfl⟩

/-! ## Termination -/

omit [DecidableRel r] in
/-- An upper bound on the steps a task has yet to take. -/
def Task.work : Task α → ℕ
  | .call input => 4 * input.length + 1
  | .split _ lo hi => lo.work + hi.work + 2
  | .get _ lo => lo.work + 1
  | .done _ => 0

theorem start_work (part : Partition α) (input : List α) :
    (start r part input).work < 4 * input.length + 1 := by
  cases input with
  | nil => exact Nat.one_pos
  | cons pivot rest =>
      have hlen := divide_length (r := r) part pivot rest
      simp only [start, splice_front, List.drop_succ_cons, List.drop_zero, Task.work,
        List.length_cons]
      omega

/-- Every step is progress. -/
theorem Moves.work_lt {t t' : Task α} (h : Moves r t t') : t'.work < t.work := by
  induction h with
  | start part input => exact start_work part input
  | lower _ ih | higher _ ih | await _ ih =>
      simp only [Task.work]
      omega
  | append result lo new_higher =>
      simp only [Task.work]
      omega
  | prepend result new_lower => exact Nat.one_pos

/-- A run takes no more steps than its first state allows. -/
theorem exec_work {input : List α} {t t' : Task α} {as : List (Act α)}
    (h : (sys r input).exec Lts.anyStep t as = some t') : as.length + t'.work ≤ t.work := by
  induction as generalizing t with
  | nil =>
      cases h
      simp
  | cons a as ih =>
      obtain ⟨u, hu, h⟩ := Lts.exec_any_cons h
      have hlt := (moves_of_step hu).work_lt
      have hle := ih h
      rw [List.length_cons]
      omega

/-! ## Correctness -/

omit [DecidableRel r] in
/-- The elements a task has in hand. -/
def Task.items : Task α → List α
  | .call input => input
  | .split result lo hi => lo.items ++ (result ++ hi.items)
  | .get result lo => lo.items ++ result
  | .done result => result

omit [DecidableRel r] in
/-- Finished lists are sorted, and every task's elements are on the right side. -/
def Good (r : α → α → Prop) : Task α → Prop
  | .call _ => True
  | .split result lo hi => (∃ pivot, result = [pivot] ∧ (∀ t ∈ lo.items, ¬ r pivot t) ∧
      ∀ t ∈ hi.items, ¬ r t pivot) ∧ Good r lo ∧ Good r hi
  | .get result lo => (∃ pivot higher, result = pivot :: higher ∧ Sorted r higher ∧
      (∀ t ∈ lo.items, ¬ r pivot t) ∧ ∀ t ∈ higher, ¬ r t pivot) ∧ Good r lo
  | .done result => Sorted r result

theorem start_items (part : Partition α) (input : List α) :
    (start r part input).items.Perm input := by
  cases input with
  | nil => exact List.Perm.refl _
  | cons pivot rest => exact List.perm_middle.trans (.cons pivot (divide_perm part pivot rest))

theorem start_good [IsStrictOrder α r] (part : Partition α) (input : List α) :
    Good r (start r part input) := by
  cases input with
  | nil => exact List.Pairwise.nil
  | cons pivot rest =>
      refine ⟨⟨pivot, rfl, fun t ht => ?_, fun t ht => ?_⟩, trivial, trivial⟩
      · exact asymm_of r (divide_lower part pivot rest t ht)
      · exact divide_upper part pivot rest t ht

/-- No step loses an element. -/
theorem Moves.items_perm {t t' : Task α} (h : Moves r t t') : t'.items.Perm t.items := by
  induction h with
  | start part input => exact start_items part input
  | lower _ ih => exact ih.append_right _
  | higher _ ih => exact (ih.append_left _).append_left _
  | append result lo new_higher => exact List.Perm.refl _
  | await _ ih => exact ih.append_right _
  | prepend result new_lower => exact List.Perm.refl _

/-- A step keeps what holds half-way: the moves of a sub-task rearrange its elements only,
    and a finished list goes to the side of the pivot it belongs to. -/
theorem Moves.good [IsStrictWeakOrder α r] {t t' : Task α} (h : Moves r t t') (ht : Good r t) :
    Good r t' := by
  induction h with
  | start part input => exact start_good part input
  | lower h ih =>
      obtain ⟨⟨pivot, hres, hlow, hup⟩, hlo, hhi⟩ := ht
      exact ⟨⟨pivot, hres, fun x hx => hlow x (h.items_perm.mem_iff.mp hx), hup⟩, ih hlo, hhi⟩
  | higher h ih =>
      obtain ⟨⟨pivot, hres, hlow, hup⟩, hlo, hhi⟩ := ht
      exact ⟨⟨pivot, hres, hlow, fun x hx => hup x (h.items_perm.mem_iff.mp hx)⟩, hlo, ih hhi⟩
  | append result lo new_higher =>
      obtain ⟨⟨pivot, rfl, hlow, hup⟩, hlo, hhi⟩ := ht
      exact ⟨⟨pivot, new_higher, rfl, hhi, hlow, hup⟩, hlo⟩
  | await h ih =>
      obtain ⟨⟨pivot, higher, hres, hs, hlow, hup⟩, hlo⟩ := ht
      exact ⟨⟨pivot, higher, hres, hs, fun x hx => hlow x (h.items_perm.mem_iff.mp hx), hup⟩,
        ih hlo⟩
  | prepend result new_lower =>
      obtain ⟨⟨pivot, higher, rfl, hs, hlow, hup⟩, hlo⟩ := ht
      exact Sorted.around hlo hs hlow hup

/-- A run has all elements of the input in hand, and is good. -/
theorem reachable_good [IsStrictWeakOrder α r] {input : List α} {t : Task α}
    (h : (sys r input).Reachable t) : t.items.Perm input ∧ Good r t := by
  refine h.invariant (I := fun t => t.items.Perm input ∧ Good r t) ?_ ?_
  · rintro t rfl
    exact ⟨List.Perm.refl _, trivial⟩
  · rintro t a t' - ⟨hp, hg⟩ - hstep
    have hm := moves_of_step hstep
    exact ⟨hm.items_perm.trans hp, hm.good hg⟩

/-- Every run ends, it ends with a result only, and the result agrees with that of
    `sequential_quick_sort`, however the tasks interleave and the partitions behave. -/
theorem parallel_agrees [IsStrictWeakOrder α r] (input : List α)
    (part : List Bool → Partition α) :
    (∀ as t, (sys r input).exec Lts.anyStep (.call input) as = some t →
      as.length ≤ 4 * input.length + 1) ∧
    (∀ t, (sys r input).Reachable t → (sys r input).Stuck t → ∃ result, t = .done result) ∧
    (∀ result, (sys r input).Reachable (.done result) →
      result.length = (sequentialQuickSort r part input).length ∧
      result.Perm (sequentialQuickSort r part input) ∧
      List.Forall₂ (fun a b => ¬ r a b ∧ ¬ r b a) result (sequentialQuickSort r part input) ∧
      (IsStrictTotalOrder α r → result = sequentialQuickSort r part input)) := by
  refine ⟨fun as t h => ?_, fun t _ hstuck => ?_, fun result h => ?_⟩
  · have hle := exec_work h
    simp only [Task.work] at hle
    omega
  · rcases exists_step (r := r) t with hdone | ⟨a, t', ha⟩
    · exact hdone
    · exact absurd ((hstuck a).symm.trans ha) (by simp)
  · obtain ⟨hp, hs⟩ := reachable_good h
    have hseq := sequentialQuickSort_sorted r part input
    have hperm : result.Perm (sequentialQuickSort r part input) :=
      hp.trans (sequentialQuickSort_perm r part input).symm
    refine ⟨hperm.length_eq, hperm, Sorted.forall₂_of_perm hs hseq hperm, fun htotal => ?_⟩
    refine Sorted.eq_of_perm hs hseq hperm fun a b hab => ?_
    exact htotal.trichotomous a b hab.1 hab.2

/-- Two records, sorted by their keys; the direct recursion returns first. -/
theorem parallel_agrees_records :
    let r : ℕ × ℕ → ℕ × ℕ → Prop := fun a b => a.1 < b.1
    [(1, 1), (2, 0)].Perm (sequentialQuickSort r (fun _ => .stable) [(2, 0), (1, 1)]) := by
  have hweak : IsStrictWeakOrder (ℕ × ℕ) fun a b => a.1 < b.1 :=
    { irrefl := fun a => Nat.lt_irrefl a.1
      trans := fun _ _ _ => Nat.lt_trans
      incomp_trans := fun _ _ _ _ _ => by omega }
  let here : Act (ℕ × ℕ) := .here .stable
  have hreach : (sys (fun a b : ℕ × ℕ => a.1 < b.1) [(2, 0), (1, 1)]).Reachable
      (.done [(1, 1), (2, 0)]) :=
    Lts.Reach.exec [here, .higher here, here, .lower here, .lower (.higher here),
      .lower (.lower here), .lower here, .lower here, here] (.start rfl) rfl
  exact ((parallel_agrees [(2, 0), (1, 1)] fun _ => .stable).2.2 _ hreach).2.1

end CppConcurrency.QuickSort
