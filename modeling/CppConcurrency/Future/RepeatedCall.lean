/-
  The packaged_task of Future/packaged_task.cpp, called more than once.

  operator() evaluates `function(args...)` to have an argument for promise.set_value, which is
  the first to find out that the promise is satisfied. So a repeated invocation runs the
  callable, with all it does to the outside, and is refused afterwards; std::packaged_task
  refuses it before.

  The runs of the callable are made visible by a record beside its state (`logged`), which
  every run extends by its arguments.

  Proved (`repeat_exact`): in every sequence of calls with at least one invocation, the
  callable runs once for each of them; "it runs exactly once, and a refused invocation leaves
  the outside as it was" holds exactly for the sequences with one invocation. What a refused
  invocation does to the outside is what the callable does to it.
-/
import CppConcurrency.Future.PackagedTask

namespace CppConcurrency.PackagedTask

open Concur

variable {σ Args R E : Type*}

/-- The arguments of the invocations among the calls on a task. -/
def invocations (ops : List (Op Args)) : List Args :=
  ops.filterMap fun
    | .invoke args => some args
    | .getFuture => none

/-- A callable whose runs are recorded. -/
def logged (function : Args → σ → Except (Exc E) R × σ) (args : Args) (w : σ × List Args) :
    Except (Exc E) R × (σ × List Args) :=
  ((function args w.1).1, ((function args w.1).2, w.2 ++ [args]))

/-- The copy of a value runs nothing. -/
def beside (copy : R → σ → Except (Exc E) Unit × σ) (r : R) (w : σ × List Args) :
    Except (Exc E) Unit × (σ × List Args) :=
  ((copy r w.1).1, ((copy r w.1).2, w.2))

/-- A task whose callable is recorded. -/
def recorded (function : Args → σ → Except (Exc E) R × σ)
    (copy : R → σ → Except (Exc E) Unit × σ) (w : σ) :
    Lts (Res (St (σ × List Args) R E) (Exc E) Unit) (Op Args) :=
  sys (logged function) (beside copy) (w, [])

section Runs

variable (function : Args → σ → Except (Exc E) R × σ) (copy : R → σ → Except (Exc E) Unit × σ)

/-- Every call leaves a state, and an invocation has run the callable once. -/
theorem call_runs (s : St (σ × List Args) R E) (op : Op Args) :
    ∃ s', (body (logged function) (beside copy) op s).state? = some s' ∧
      s'.world.2 = s.world.2 ++ invocations [op] := by
  cases op with
  | getFuture =>
      obtain ⟨s', hs', hw, -⟩ := getFuture_keeps s
      exact ⟨s', hs', by rw [hw]; exact (List.append_nil _).symm⟩
  | invoke args =>
      cases ho : s.outcome with
      | some o =>
          rw [body, invoke_again ho args]
          exact ⟨_, rfl, rfl⟩
      | none =>
          rw [body, invoke_first ho args]
          refine ⟨_, rfl, ?_⟩
          dsimp only [worldOf, logged]
          cases (function args s.world.1).1 <;> rfl

theorem invocations_cons (op : Op Args) (ops : List (Op Args)) :
    invocations (op :: ops) = invocations [op] ++ invocations ops := by
  cases op <;> rfl

theorem invocations_append (ops ops' : List (Op Args)) :
    invocations (ops ++ ops') = invocations ops ++ invocations ops' :=
  List.filterMap_append

/-- Any calls can be made, and they run the callable once for each invocation. -/
theorem exec_runs (w : σ) (ops : List (Op Args)) {r : Res (St (σ × List Args) R E) (Exc E) Unit}
    {s : St (σ × List Args) R E} (hr : r.state? = some s) :
    ∃ r' s', (recorded function copy w).exec Lts.anyStep r ops = some r' ∧
      r'.state? = some s' ∧ s'.world.2 = s.world.2 ++ invocations ops := by
  induction ops generalizing r s with
  | nil => exact ⟨r, s, rfl, hr, (List.append_nil _).symm⟩
  | cons op ops ih =>
      obtain ⟨s₁, hs₁, hw₁⟩ := call_runs function copy s op
      obtain ⟨r', s', h, hs', hw'⟩ := ih hs₁
      refine ⟨r', s', ?_, hs', ?_⟩
      · rw [← h]
        exact Lts.exec_cons_of_step trivial (calls_step_of hr trivial) ops
      · rw [hw', hw₁, List.append_assoc, ← invocations_append, List.singleton_append]

/-- The invocation of `args` in the state `s` is refused, and leaves the state `s'`. -/
def Refused (args : Args) (s s' : St (σ × List Args) R E) : Prop :=
  invoke (logged function) (beside copy) args s =
    .threw (.futureError .promiseAlreadySatisfied) s'

/-- Repeated invocations of one task have no effect: at the end the callable has run for the
    first invocation only, and every refused invocation has left the outside as it was. -/
def NoSideEffect (w : σ) (ops : List (Op Args)) : Prop :=
  (∀ r s, (recorded function copy w).exec Lts.anyStep (.ok () (fresh (w, []))) ops = some r →
    r.state? = some s → s.world.2 = (invocations ops).take 1) ∧
  ∀ before args after r s s', ops = before ++ .invoke args :: after →
    (recorded function copy w).exec Lts.anyStep (.ok () (fresh (w, []))) before = some r →
    r.state? = some s → Refused function copy args s s' → s'.world.1 = s.world.1

end Runs

variable {function : Args → σ → Except (Exc E) R × σ} {copy : R → σ → Except (Exc E) Unit × σ}

/-- A refused invocation has run the callable. -/
theorem refused_runs {args : Args} {s s' : St (σ × List Args) R E}
    (h : Refused function copy args s s') :
    s'.world = ((function args s.world.1).2, s.world.2 ++ [args]) := by
  unfold Refused at h
  cases ho : s.outcome with
  | none =>
      rw [invoke_first ho args] at h
      cases h
  | some o =>
      rw [invoke_again ho args] at h
      cases h
      rfl

theorem all_getFuture {ops : List (Op Args)} (h : invocations ops = []) :
    ∀ op ∈ ops, op = .getFuture := by
  intro op hop
  have hnone := List.filterMap_eq_nil_iff.mp h op hop
  cases op with
  | invoke args => cases hnone
  | getFuture => rfl

/-- The first invocation is not refused. -/
theorem first_not_refused {w : σ} {before : List (Op Args)} (hb : invocations before = [])
    {r : Res (St (σ × List Args) R E) (Exc E) Unit} {s s' : St (σ × List Args) R E} {args : Args}
    (h : (recorded function copy w).exec Lts.anyStep (.ok () (fresh (w, []))) before = some r)
    (hs : r.state? = some s) : ¬ Refused function copy args s s' := by
  intro href
  obtain ⟨s₀, hs₀, -, ho⟩ :=
    exec_before (all_getFuture hb) ⟨fresh (w, []), rfl, rfl, rfl⟩ h
  cases hs.symm.trans hs₀
  rw [Refused, invoke_first ho args] at href
  cases href

/-- **A repeated invocation runs the callable.** For every callable and every sequence of calls
    with an invocation: the callable runs exactly once and refused invocations leave the
    outside alone if and only if there is one invocation. A refused invocation does to the
    outside what the callable does. -/
theorem repeat_exact (w : σ) (ops : List (Op Args)) (hops : invocations ops ≠ []) :
    (NoSideEffect function copy w ops ↔ (invocations ops).length = 1) ∧
    (∀ args (s s' : St (σ × List Args) R E), Refused function copy args s s' →
      s'.world.1 = (function args s.world.1).2) := by
  obtain ⟨r', s', hr', hs', hw⟩ := exec_runs function copy w ops
    (r := .ok () (fresh (w, []))) rfl
  replace hw : s'.world.2 = invocations ops := hw
  refine ⟨⟨fun h => ?_, fun h => ⟨fun r s hr hs => ?_, ?_⟩⟩,
    fun args s s' h => by rw [refused_runs h]⟩
  · have htake := congrArg List.length (h.1 r' s' hr' hs')
    have hpos := List.length_pos_iff.mpr hops
    rw [hw, List.length_take] at htake
    omega
  · cases hr.symm.trans hr'
    cases hs.symm.trans hs'
    rw [hw, List.take_of_length_le (Nat.le_of_eq h)]
  · rintro before args after r s s' rfl hr hs href
    refine absurd href (first_not_refused ?_ hr hs)
    rw [invocations_append, invocations_cons, List.length_append, List.length_append,
      show (invocations [Op.invoke args]).length = 1 from rfl] at h
    exact List.eq_nil_of_length_eq_zero (by omega)

/-- The callable counts its runs outside the task. -/
def count (args n : ℕ) : Except (Exc Unit) ℕ × ℕ := (.ok args, n + 1)

theorem repeat_exact_once :
    NoSideEffect count (fun _ n => (.ok (), n)) 0 [.getFuture, .invoke 3, .getFuture] :=
  (repeat_exact 0 _ (by decide)).1.mpr rfl

/-- Invoked twice, it has counted to two, and the refused invocation has counted once. -/
theorem second_call_counts :
    ¬ ∀ (w : ℕ) (ops : List (Op ℕ)), invocations ops ≠ [] →
      NoSideEffect count (fun _ n => (.ok (), n)) w ops := by
  intro hall
  have h := (hall 0 [.invoke 3, .invoke 4] (by decide)).2 [.invoke 3] 4 [] _ _ _ rfl rfl rfl rfl
  cases h

end CppConcurrency.PackagedTask
