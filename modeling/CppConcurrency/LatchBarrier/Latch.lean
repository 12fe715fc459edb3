/-
  foo() of latch.cpp: tasks that fill an array, and a latch that is to tell when it is full.

  The model has any number `n` of tasks in place of thread_count. A task writes its slot of
  `data`, calls count_down, does further work and ends. The main thread starts the tasks one
  by one, asks is_ready (and runs quickProcessData if it is), calls count_down_and_wait, then
  wait, then processData, and joins the tasks when it destroys their futures. A slot is
  `none` until its task has written it.

  The latch follows the Concurrency TS. count_down and count_down_and_wait require a counter
  that is not 0; a call that breaks this is counted in `violations` and leaves the counter.

  The counter starts at `n`, and there are `n + 1` decrements: one for each task and one in
  the count_down_and_wait of the main thread. Proved:
  * `books`: what has been decremented is what the counter lost and the violations.
  * `ready_of_undecremented`: as long as the main thread has not decremented, a counter at 0
    means that every slot is written.
  * `foo_unprotected`: whatever the number of tasks (at least one), a run reaches processData
    with a slot unwritten, and every run in which all threads have ended has a violation;
    while the main thread has not decremented, nothing of that happens.
-/
import CppConcurrency.Lib.Count
import CppConcurrency.Lib.Lts

namespace CppConcurrency.Latch

open Concur

/-- Where a task stands: not started; before `data[i] = makeData(i)`; before count_down;
    before furtherWork; ended. -/
inductive TaskPc where
  | unborn
  | makeData
  | countDown
  | furtherWork
  | ended
  deriving DecidableEq, Repr

/-- Where the main thread stands. `spawn i`: about to start task `i`, if there is one;
    `counted`: inside count_down_and_wait, after the decrement; `quick` and `process`:
    quickProcessData or processData has started. -/
inductive MainPc where
  | spawn (i : ℕ)
  | isReady
  | quick
  | countDown
  | counted
  | wait
  | process
  | join
  | returned
  deriving DecidableEq, Repr

/-- The state of foo(). -/
structure St (n : ℕ) (D : Type*) where
  counter : ℕ
  violations : ℕ
  data : Fin n → Option D
  task : Fin n → TaskPc
  main : MainPc

/-- Who moves. -/
inductive Act (n : ℕ) where
  | task (i : Fin n)
  | main
  deriving DecidableEq, Repr

variable {n : ℕ} {D : Type*}

/-- The decrement of the latch. -/
def St.decrement (s : St n D) : St n D :=
  if s.counter = 0 then { s with violations := s.violations + 1 }
  else { s with counter := s.counter - 1 }

/-- Task `i` goes on at `p`. -/
def St.taskTo (s : St n D) (i : Fin n) (p : TaskPc) : St n D :=
  { s with task := Function.update s.task i p }

/-- One statement of task `i`. -/
def runTask (makeData : ℕ → D) (s : St n D) (i : Fin n) : Option (St n D) :=
  match s.task i with
  | .unborn => none
  | .makeData =>
      some { s.taskTo i .countDown with data := Function.update s.data i (some (makeData i)) }
  | .countDown => some (s.decrement.taskTo i .furtherWork)
  | .furtherWork => some (s.taskTo i .ended)
  | .ended => none

/-- One statement of the main thread. -/
def runMain (s : St n D) : Option (St n D) :=
  match s.main with
  | .spawn i =>
      if h : i < n then some { s.taskTo ⟨i, h⟩ .makeData with main := .spawn (i + 1) }
      else some { s with main := .isReady }
  | .isReady => some { s with main := if s.counter = 0 then .quick else .countDown }
  | .quick => some { s with main := .countDown }
  | .countDown => some { s.decrement with main := .counted }
  | .counted => if s.counter = 0 then some { s with main := .wait } else none
  | .wait => if s.counter = 0 then some { s with main := .process } else none
  | .process => some { s with main := .join }
  | .join => if ∀ i, s.task i = .ended then some { s with main := .returned } else none
  | .returned => none

/-- One step. -/
def step (makeData : ℕ → D) (s : St n D) : Act n → Option (St n D)
  | .task i => runTask makeData s i
  | .main => runMain s

/-- foo() begins: the latch holds thread_count, and nothing has been written. -/
def start (n : ℕ) (D : Type*) : St n D where
  counter := n
  violations := 0
  data _ := none
  task _ := .unborn
  main := .spawn 0

/-- foo() with `n` tasks. -/
def foo (n : ℕ) (makeData : ℕ → D) : Lts (St n D) (Act n) where
  init s := s = start n D
  step := step makeData

/-- Every slot has been written by its task. -/
def Written (makeData : ℕ → D) (s : St n D) : Prop := ∀ i, s.data i = some (makeData i)

/-- What the latch is there for: quickProcessData and processData run on data that is there,
    and nobody decrements the counter when it is 0. -/
structure Protected (makeData : ℕ → D) (s : St n D) : Prop where
  data : s.main = .quick ∨ s.main = .process → Written makeData s
  counter : s.violations = 0

/-! ## The books of the latch -/

/-- The task has counted down. -/
def TaskPc.counted : TaskPc → Bool
  | .furtherWork => true
  | .ended => true
  | _ => false

/-- The main thread has counted down. -/
def MainPc.hasCounted : MainPc → Bool
  | .counted => true
  | .wait => true
  | .process => true
  | .join => true
  | .returned => true
  | _ => false

/-- How many tasks the main thread has started. -/
def MainPc.spawned (n : ℕ) : MainPc → ℕ
  | .spawn i => i
  | _ => n

/-- The decrements so far, the tasks started, and the slots of the tasks past their write. -/
structure Books (makeData : ℕ → D) (s : St n D) : Prop where
  decrements : s.counter + countAt TaskPc.counted s.task + s.main.hasCounted.toNat =
    n + s.violations
  born : ∀ i, s.task i = .unborn ↔ s.main.spawned n ≤ i
  written : ∀ i, s.task i ≠ .unborn → s.task i ≠ .makeData → s.data i = some (makeData i)

theorem decrement_books (s : St n D) :
    s.decrement.counter + 1 + s.violations = s.counter + s.decrement.violations ∧
      s.decrement.data = s.data ∧ s.decrement.task = s.task ∧ s.decrement.main = s.main := by
  unfold St.decrement
  split
  · exact ⟨by dsimp only; omega, rfl, rfl, rfl⟩
  · exact ⟨by dsimp only; omega, rfl, rfl, rfl⟩

section Steps

variable {makeData : ℕ → D} {s s' : St n D}

theorem books_start : Books makeData (start n D) where
  decrements := by
    have h0 : countAt TaskPc.counted (start n D).task = 0 := countAt_eq_zero.mpr fun _ => rfl
    rw [h0]
    rfl
  born i := by simp [start, MainPc.spawned]
  written i h := absurd rfl h

/-- A started task moves to a place past its start. -/
theorem born_taskTo (h : ∀ i, s.task i = .unborn ↔ s.main.spawned n ≤ i) {i : Fin n}
    {p : TaskPc} (hi : s.task i ≠ .unborn) (hp : p ≠ .unborn) (j : Fin n) :
    Function.update s.task i p j = .unborn ↔ s.main.spawned n ≤ j := by
  by_cases hj : j = i
  · subst hj
    rw [Function.update_self, ← h j]
    exact ⟨fun he => absurd he hp, fun he => absurd he hi⟩
  · rw [Function.update_of_ne hj]
    exact h j

/-- A task that keeps its slot moves on. -/
theorem written_taskTo {data : Fin n → Option D}
    (h : ∀ i, s.task i ≠ .unborn → s.task i ≠ .makeData → data i = some (makeData i))
    {i : Fin n} {p : TaskPc} (hi : data i = some (makeData i)) (j : Fin n)
    (h1 : Function.update s.task i p j ≠ .unborn)
    (h2 : Function.update s.task i p j ≠ .makeData) : data j = some (makeData j) := by
  by_cases hj : j = i
  · subst hj
    exact hi
  · rw [Function.update_of_ne hj] at h1 h2
    exact h j h1 h2

theorem books_task (h : Books makeData s) {i : Fin n} (hs : runTask makeData s i = some s') :
    Books makeData s' := by
  obtain ⟨hdec, hborn, hwr⟩ := h
  have hcount := fun p => countAt_update TaskPc.counted s.task i p
  unfold runTask at hs
  split at hs
  · cases hs
  · next hi =>
      cases hs
      have hc := hcount .countDown
      rw [hi] at hc
      simp only [TaskPc.counted] at hc
      refine ⟨?_, born_taskTo hborn (by simp [hi]) (by simp), ?_⟩
      · simp only [St.taskTo]
        omega
      · refine written_taskTo (fun j h1 h2 => ?_) (Function.update_self _ _ _)
        have hj : j ≠ i := by
          rintro rfl
          exact h2 hi
        exact (Function.update_of_ne hj _ _).trans (hwr j h1 h2)
  · next hi =>
      cases hs
      obtain ⟨hbal, hdata, htask, hmain⟩ := decrement_books s
      have hc := hcount .furtherWork
      rw [hi] at hc
      simp only [TaskPc.counted, Bool.toNat_true, Bool.toNat_false] at hc
      refine ⟨?_, ?_, ?_⟩
      · simp only [St.taskTo, htask, hmain]
        omega
      · simp only [St.taskTo, htask, hmain]
        exact born_taskTo hborn (by simp [hi]) (by simp)
      · simp only [St.taskTo, htask, hdata]
        exact written_taskTo hwr (hwr i (by simp [hi]) (by simp [hi]))
  · next hi =>
      cases hs
      have hc := hcount .ended
      rw [hi] at hc
      simp only [TaskPc.counted] at hc
      refine ⟨?_, born_taskTo hborn (by simp [hi]) (by simp),
        written_taskTo hwr (hwr i (by simp [hi]) (by simp [hi]))⟩
      simp only [St.taskTo]
      omega
  · cases hs

/-- The main thread moves on, and touches nothing else. -/
theorem books_goto (h : Books makeData s) {p : MainPc}
    (hc : p.hasCounted = s.main.hasCounted) (hp : p.spawned n = s.main.spawned n) :
    Books makeData { s with main := p } := by
  refine ⟨?_, fun j => ?_, h.written⟩
  · simp only [hc]
    exact h.decrements
  · simp only [hp]
    exact h.born j

theorem books_spawn (h : Books makeData s) {i : ℕ} (hi : i < n) (hm : s.main = .spawn i) :
    Books makeData { s.taskTo ⟨i, hi⟩ .makeData with main := .spawn (i + 1) } := by
  obtain ⟨hdec, hborn, hwr⟩ := h
  rw [hm] at hdec hborn
  simp only [MainPc.spawned, MainPc.hasCounted] at hdec hborn
  have hun : s.task ⟨i, hi⟩ = .unborn := (hborn _).mpr (le_refl i)
  have hc := countAt_update TaskPc.counted s.task ⟨i, hi⟩ .makeData
  rw [hun] at hc
  simp only [TaskPc.counted] at hc
  refine ⟨?_, fun j => ?_, fun j h1 h2 => ?_⟩
  · simp only [St.taskTo, MainPc.hasCounted]
    omega
  · simp only [St.taskTo, MainPc.spawned]
    by_cases hj : j = ⟨i, hi⟩
    · subst hj
      rw [Function.update_self]
      simp
    · have hne : (j : ℕ) ≠ i := fun he => hj (Fin.ext he)
      rw [Function.update_of_ne hj, hborn j]
      omega
  · simp only [St.taskTo] at h1 h2 ⊢
    by_cases hj : j = ⟨i, hi⟩
    · subst hj
      rw [Function.update_self] at h2
      exact absurd rfl h2
    · rw [Function.update_of_ne hj] at h1 h2
      exact hwr j h1 h2

theorem books_main (h : Books makeData s) (hs : runMain s = some s') : Books makeData s' := by
  unfold runMain at hs
  split at hs
  · next i hm =>
      split at hs
      · next hi =>
          cases hs
          exact books_spawn h hi hm
      · next hi =>
          cases hs
          obtain ⟨hdec, hborn, hwr⟩ := h
          rw [hm] at hdec hborn
          refine ⟨hdec, fun j => ?_, hwr⟩
          have hj := j.isLt
          rw [hborn j]
          simp only [MainPc.spawned]
          omega
  · next hm =>
      cases hs
      split <;> exact books_goto h (by rw [hm]; rfl) (by rw [hm]; rfl)
  · next hm =>
      cases hs
      exact books_goto h (by rw [hm]; rfl) (by rw [hm]; rfl)
  · next hm =>
      cases hs
      obtain ⟨hbal, hdata, htask, -⟩ := decrement_books s
      obtain ⟨hdec, hborn, hwr⟩ := h
      rw [hm] at hdec hborn
      simp only [MainPc.hasCounted, Bool.toNat_false] at hdec
      refine ⟨?_, ?_, ?_⟩
      · simp only [htask, MainPc.hasCounted, Bool.toNat_true]
        omega
      · simp only [htask]
        exact hborn
      · simp only [htask, hdata]
        exact hwr
  · next hm =>
      split at hs <;> cases hs
      exact books_goto h (by rw [hm]; rfl) (by rw [hm]; rfl)
  · next hm =>
      split at hs <;> cases hs
      exact books_goto h (by rw [hm]; rfl) (by rw [hm]; rfl)
  · next hm =>
      cases hs
      exact books_goto h (by rw [hm]; rfl) (by rw [hm]; rfl)
  · next hm =>
      split at hs <;> cases hs
      exact books_goto h (by rw [hm]; rfl) (by rw [hm]; rfl)
  · cases hs

theorem books_reach {G} (h : (foo n makeData).Reach G s) : Books makeData s := by
  refine h.invariant (fun s hs => ?_) fun s a s' _ hi _ hs => ?_
  · rw [show s = start n D from hs]
    exact books_start
  · cases a with
    | task i => exact books_task hi hs
    | main => exact books_main hi hs

/-! ## Runs to the end -/

/-- Every run in which nobody can go on has a violation: the tasks and the main thread have
    decremented the counter `n + 1` times. -/
theorem violation_of_stuck (h : (foo n makeData).Reachable s) (hstuck : (foo n makeData).Stuck s) :
    0 < s.violations := by
  obtain ⟨hdec, hborn, -⟩ := books_reach h
  have htask : ∀ i, s.task i = .unborn ∨ s.task i = .ended := by
    intro i
    have hi : runTask makeData s i = none := hstuck (.task i)
    unfold runTask at hi
    split at hi
    · next h1 => exact .inl h1
    · cases hi
    · cases hi
    · cases hi
    · next h1 => exact .inr h1
  have hmain : runMain s = none := hstuck .main
  have hpast : s.main.hasCounted = true ∧ s.main.spawned n = n := by
    unfold runMain at hmain
    split at hmain
    · split at hmain <;> cases hmain
    · cases hmain
    · cases hmain
    · cases hmain
    · next h1 => rw [h1]; exact ⟨rfl, rfl⟩
    · next h1 => rw [h1]; exact ⟨rfl, rfl⟩
    · cases hmain
    · next h1 => rw [h1]; exact ⟨rfl, rfl⟩
    · next h1 => rw [h1]; exact ⟨rfl, rfl⟩
  have hall : countAt TaskPc.counted s.task = n := by
    have hcard : countAt TaskPc.counted s.task = Fintype.card (Fin n) := by
      refine countAt_of_forall fun i => ?_
      rcases htask i with hi | hi
      · have hle := (hborn i).mp hi
        have hlt := i.isLt
        omega
      · rw [hi]
        rfl
    rw [hcard, Fintype.card_fin]
  rw [hall, hpast.1, Bool.toNat_true] at hdec
  omega

/-! ## Runs in which the main thread has not decremented -/

/-- The main thread does not get to the decrement of count_down_and_wait. -/
def Undecremented (s : St n D) : Act n → Prop
  | .task _ => True
  | .main => s.main ≠ .countDown

/-- What holds as long as the main thread has not decremented. -/
structure Early (s : St n D) : Prop where
  main : s.main.hasCounted = false
  sound : s.violations = 0
  quick : s.main = .quick → ∀ i, (s.task i).counted = true

/-- As long as the main thread has not decremented, the counter is 0 only when all tasks
    have counted down. -/
theorem ready_of_undecremented (h : Books makeData s) (he : Early s) (h0 : s.counter = 0) :
    ∀ i, (s.task i).counted = true := by
  have hdec := h.decrements
  rw [he.main, he.sound, h0, Bool.toNat_false] at hdec
  refine all_of_countAt_eq_card ?_
  rw [Fintype.card_fin]
  omega

/-- A task that has yet to count down finds a counter that is not 0. -/
theorem counter_pos (h : Books makeData s) (he : Early s) {i : Fin n}
    (hi : (s.task i).counted = false) : s.counter ≠ 0 := by
  intro h0
  have hall := ready_of_undecremented h he h0 i
  rw [hi] at hall
  cases hall

theorem counted_taskTo (h : ∀ i, (s.task i).counted = true) {i : Fin n} {p : TaskPc}
    (hp : p.counted = true) (j : Fin n) : (Function.update s.task i p j).counted = true := by
  by_cases hj : j = i
  · subst hj
    rw [Function.update_self]
    exact hp
  · rw [Function.update_of_ne hj]
    exact h j

theorem early_task (h : Books makeData s) (he : Early s) {i : Fin n}
    (hs : runTask makeData s i = some s') : Early s' := by
  unfold runTask at hs
  split at hs
  · cases hs
  · next hi =>
      cases hs
      refine ⟨he.main, he.sound, fun hq => ?_⟩
      have hall := he.quick hq i
      rw [hi] at hall
      cases hall
  · next hi =>
      have hne := counter_pos h he (i := i) (by rw [hi]; rfl)
      cases hs
      rw [St.decrement, if_neg hne]
      exact ⟨he.main, he.sound, fun hq => counted_taskTo (he.quick hq) rfl⟩
  · cases hs
    exact ⟨he.main, he.sound, fun hq => counted_taskTo (he.quick hq) rfl⟩
  · cases hs

theorem early_main (h : Books makeData s) (he : Early s) (hg : Undecremented s .main)
    (hs : runMain s = some s') : Early s' := by
  have hmain := he.main
  unfold runMain at hs
  split at hs
  · split at hs <;> cases hs <;> exact ⟨rfl, he.sound, by simp⟩
  · cases hs
    by_cases h0 : s.counter = 0
    · have hall := ready_of_undecremented h he h0
      simp only [if_pos h0]
      exact ⟨rfl, he.sound, fun _ => hall⟩
    · simp only [if_neg h0]
      exact ⟨rfl, he.sound, by simp⟩
  · cases hs
    exact ⟨rfl, he.sound, by simp⟩
  · next hm => exact absurd hm hg
  all_goals
    next hm =>
      rw [hm] at hmain
      cases hmain

theorem early_reach (h : (foo n makeData).Reach Undecremented s) : Early s := by
  refine h.invariant (fun s hs => ?_) fun s a s' hr hi hg hs => ?_
  · rw [show s = start n D from hs]
    exact ⟨rfl, rfl, by simp [start]⟩
  · cases a with
    | task i => exact early_task (books_reach hr) hi hs
    | main => exact early_main (books_reach hr) hi hg hs

theorem protected_of_early (h : Books makeData s) (he : Early s) : Protected makeData s := by
  refine ⟨fun hm i => ?_, he.sound⟩
  rcases hm with hm | hm
  · have hi := he.quick hm i
    refine h.written i ?_ ?_ <;> intro hp <;> rw [hp] at hi <;> cases hi
  · have hmain := he.main
    rw [hm] at hmain
    cases hmain

/-! ## A run to processData with a slot unwritten -/

omit s s' in
theorem update_below {α : Type*} (a b : Fin n → α) (k : ℕ) (hk : k < n) :
    Function.update (fun j : Fin n => if (j : ℕ) < k then a j else b j) ⟨k, hk⟩ (a ⟨k, hk⟩) =
      fun j : Fin n => if (j : ℕ) < k + 1 then a j else b j := by
  funext j
  by_cases hj : j = ⟨k, hk⟩
  · subst hj
    simp
  · have hne : (j : ℕ) ≠ k := fun he => hj (Fin.ext he)
    rw [Function.update_of_ne hj]
    by_cases hlt : (j : ℕ) < k
    · rw [if_pos hlt, if_pos (by omega)]
    · rw [if_neg hlt, if_neg (by omega)]

/-- The main thread has started the first `k` tasks. -/
def started (n : ℕ) (D : Type*) (k : ℕ) : St n D :=
  { start n D with
    task := fun j => if (j : ℕ) < k then .makeData else .unborn
    main := .spawn k }

/-- All tasks have been started, and the first `k` have counted down. -/
def filled (n : ℕ) (makeData : ℕ → D) (k : ℕ) : St n D where
  counter := n - k
  violations := 0
  data j := if (j : ℕ) < k then some (makeData j) else none
  task j := if (j : ℕ) < k then .furtherWork else .makeData
  main := .isReady

theorem started_reachable (k : ℕ) (hk : k ≤ n) : (foo n makeData).Reachable (started n D k) := by
  induction k with
  | zero =>
      refine .start ?_
      simp [foo, started, start]
  | succ k ih =>
      refine .next (ih (by omega)) trivial (a := .main) ?_
      have hlt : k < n := hk
      have hup := update_below (fun _ : Fin n => TaskPc.makeData) (fun _ => .unborn) k hlt
      simp only [foo, step, runMain, started, dif_pos hlt, St.taskTo]
      rw [hup]

theorem filled_reachable (k : ℕ) (hk : k ≤ n) :
    (foo n makeData).Reachable (filled n makeData k) := by
  induction k with
  | zero =>
      refine .next (started_reachable n (le_refl n)) trivial (a := .main) ?_
      simp [foo, step, runMain, started, filled, start]
  | succ k ih =>
      have hlt : k < n := hk
      let s₁ : St n D :=
        { (filled n makeData k).taskTo ⟨k, hlt⟩ .countDown with
          data := Function.update (filled n makeData k).data ⟨k, hlt⟩ (some (makeData k)) }
      have h1 : (foo n makeData).step (filled n makeData k) (.task ⟨k, hlt⟩) = some s₁ := by
        have hpc : (filled n makeData k).task ⟨k, hlt⟩ = .makeData := by simp [filled]
        simp only [foo, step, runTask, hpc, s₁]
      have h2 : (foo n makeData).step s₁ (.task ⟨k, hlt⟩) =
          some (filled n makeData (k + 1)) := by
        have hpc : s₁.task ⟨k, hlt⟩ = .countDown := Function.update_self _ _ _
        have hne : s₁.counter ≠ 0 := by
          simp only [s₁, St.taskTo, filled]
          omega
        have hdata := update_below (fun j : Fin n => some (makeData j)) (fun _ => none) k hlt
        have htask := update_below (fun _ : Fin n => TaskPc.furtherWork) (fun _ => .makeData) k hlt
        simp only [foo, step, runTask, hpc, St.decrement, if_neg hne]
        simp only [s₁, St.taskTo, filled, Function.update_idem, Nat.sub_sub]
        rw [← hdata, ← htask]
      exact .next (.next (ih (by omega)) trivial h1) trivial h2

/-- With all tasks but the last counted down, the main thread's decrement is the one that
    makes the latch ready. -/
theorem early_process (m : ℕ) (makeData : ℕ → D) :
    ∃ s, (foo (m + 1) makeData).Reachable s ∧ s.main = .process ∧ ¬ Written makeData s := by
  have hr : (foo (m + 1) makeData).Reachable (filled (m + 1) makeData m) :=
    filled_reachable m (by omega)
  have hne : (filled (m + 1) makeData m).counter ≠ 0 := by
    simp only [filled]
    omega
  have hlast : (filled (m + 1) makeData m).counter - 1 = 0 := by
    simp only [filled]
    omega
  have hstep (s s' : St (m + 1) D) (hs : (foo (m + 1) makeData).Reachable s)
      (hm : runMain s = some s') : (foo (m + 1) makeData).Reachable s' :=
    .next hs trivial (a := .main) hm
  have h1 := hstep _ { filled (m + 1) makeData m with main := .countDown } hr (by
    rw [runMain, show (filled (m + 1) makeData m).main = .isReady from rfl]
    simp only [if_neg hne])
  have h2 := hstep _ { filled (m + 1) makeData m with counter := 0, main := .counted } h1 (by
    simp only [runMain, St.decrement, if_neg hne, hlast])
  have h3 := hstep _ { filled (m + 1) makeData m with counter := 0, main := .wait } h2 rfl
  have h4 := hstep _ { filled (m + 1) makeData m with counter := 0, main := .process } h3 rfl
  refine ⟨_, h4, rfl, fun hw => ?_⟩
  have hslot := hw (Fin.last m)
  simp [filled] at hslot

/-- **The latch does not protect the data.** Whatever the number of tasks (at least one):
    some run starts processData while a slot is unwritten, and every run to its end has
    decremented a counter that was 0. Until the main thread executes the decrement of its
    count_down_and_wait, the data are protected and no decrement goes wrong. -/
theorem foo_unprotected (m : ℕ) (makeData : ℕ → D) :
    (∃ s, (foo (m + 1) makeData).Reachable s ∧ s.main = .process ∧ ¬ Written makeData s) ∧
    (¬ ∀ s, (foo (m + 1) makeData).Reachable s → Protected makeData s) ∧
    (∀ s, (foo (m + 1) makeData).Reachable s → (foo (m + 1) makeData).Stuck s →
      0 < s.violations) ∧
    (∀ s, (foo (m + 1) makeData).Reach Undecremented s → Protected makeData s) := by
  obtain ⟨s, hs, hm, hw⟩ := early_process m makeData
  refine ⟨⟨s, hs, hm, hw⟩, fun hall => hw ((hall s hs).data (.inr hm)),
    fun s hs hstuck => violation_of_stuck hs hstuck, fun s hs => ?_⟩
  exact protected_of_early (books_reach hs) (early_reach hs)

end Steps

/-- Four tasks, of which the first three write their slots and count down. -/
def threeOfFour : List (Act 4) :=
  [.main, .main, .main, .main, .main,
   .task 0, .task 0, .task 1, .task 1, .task 2, .task 2,
   .main, .main, .main, .main]

/-- The state after `threeOfFour`. -/
def unfilled : St 4 ℕ :=
  ((foo 4 id).exec Lts.anyStep (start 4 ℕ) threeOfFour).get (by decide)

theorem unfilled_reachable : (foo 4 id).Reachable unfilled :=
  .exec threeOfFour (.start rfl) (Option.some_get _).symm

/-- With the thread_count of the source, processData starts with `data[3]` unwritten. -/
theorem four_unprotected : ¬ ∀ s, (foo 4 id).Reachable s → Protected id s := by
  intro hall
  have hw := (hall unfilled unfilled_reachable).data (.inr rfl) 3
  cases hw

end CppConcurrency.Latch
