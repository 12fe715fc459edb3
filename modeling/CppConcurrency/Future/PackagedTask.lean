/-
  The packaged_task of Future/packaged_task.cpp: what its future delivers.

  The wrapped `function` and the copy of its result into the promise are parameters: each
  works on a state of its own and returns or throws anything, a std::future_error included.
  The std::promise accepts one of set_value and set_exception; after that both throw
  promise_already_satisfied and change nothing. Where the copy of the value throws, no
  value is stored.

  operator() hands every exception that leaves set_value to set_exception. On a promise
  without an outcome that stores the exception; on a satisfied one set_exception throws
  again, and that exception leaves operator().

  Proved:
  * `first_outcome`: the first invocation returns, the outcome it stored is the one the
    future yields at every later time, and every later invocation throws
    promise_already_satisfied and leaves the outcome as it is.
-/
import CppConcurrency.Lib.Program
import Mathlib.Data.Nat.Notation

namespace CppConcurrency.PackagedTask

open Concur

/-- The codes of std::future_error that the promise throws. -/
inductive FutureErrc where
  | promiseAlreadySatisfied
  | futureAlreadyRetrieved
  deriving DecidableEq, Repr

/-- An exception: a std::future_error, or anything else. -/
inductive Exc (E : Type*) where
  | futureError (code : FutureErrc)
  | other (e : E)
  deriving DecidableEq, Repr

/-- What the callable works on, and the shared state of the promise: the outcome stored in
    it, and whether its future has been taken. -/
structure St (σ R E : Type*) where
  world : σ
  outcome : Option (Except (Exc E) R)
  retrieved : Bool

variable {σ Args R E : Type*}

/-- The calls on one task. -/
inductive Op (Args : Type*) where
  | invoke (args : Args)
  | getFuture

section Model

variable (function : Args → σ → Except (Exc E) R × σ) (copy : R → σ → Except (Exc E) Unit × σ)

/-- Run user code on its part of the state. -/
def callOut {α : Type*} (f : σ → Except (Exc E) α × σ) : Prog (St σ R E) (Exc E) α := fun s =>
  match f s.world with
  | (.ok a, w) => .ok a { s with world := w }
  | (.error e, w) => .threw e { s with world := w }

/-- Store an outcome; a promise takes one only. -/
def satisfy (o : Except (Exc E) R) : Prog (St σ R E) (Exc E) Unit := fun s =>
  match s.outcome with
  | none => .ok () { s with outcome := some o }
  | some _ => .threw (.futureError .promiseAlreadySatisfied) s

/-- `promise.set_value(r)`: the value is copied into the shared state if there is room. -/
def setValue (r : R) : Prog (St σ R E) (Exc E) Unit := fun s =>
  match s.outcome with
  | none => Prog.seq (callOut (copy r)) (fun _ => satisfy (.ok r)) s
  | some _ => .threw (.futureError .promiseAlreadySatisfied) s

/-- `promise.set_exception(e)` -/
def setException (e : Exc E) : Prog (St σ R E) (Exc E) Unit := satisfy (.error e)

/-- `operator()` -/
def invoke (args : Args) : Prog (St σ R E) (Exc E) Unit :=
  Prog.tryCatch (Prog.seq (callOut (function args)) (setValue copy)) setException

/-- `get_future()` -/
def getFuture : Prog (St σ R E) (Exc E) Unit := fun s =>
  if s.retrieved then .threw (.futureError .futureAlreadyRetrieved) s
  else .ok () { s with retrieved := true }

/-- What `get()` of the future yields, once there is something to yield. -/
def St.future (s : St σ R E) : Option (Except (Exc E) R) :=
  if s.retrieved then s.outcome else none

def body : Op Args → Prog (St σ R E) (Exc E) Unit
  | .invoke args => invoke function copy args
  | .getFuture => getFuture

/-- A task just constructed. -/
def fresh (w : σ) : St σ R E := ⟨w, none, false⟩

/-- Any sequence of calls on one task. -/
def sys (w : σ) : Lts (Res (St σ R E) (Exc E) Unit) (Op Args) :=
  calls (fresh w) (fun _ _ => True) (body function copy)

/-- The outcome of the callable at `args` in the state `w`: its value, unless the callable
    or the copy of the value throws. -/
def outcomeOf (args : Args) (w : σ) : Except (Exc E) R :=
  match function args w with
  | (.ok r, w') =>
      match copy r w' with
      | (.ok _, _) => .ok r
      | (.error e, _) => .error e
  | (.error e, _) => .error e

/-- What the callable and the copy of its value leave of the state `w`. -/
def worldOf (args : Args) (w : σ) : σ :=
  match function args w with
  | (.ok r, w') => (copy r w').2
  | (.error _, w') => w'

end Model

variable {function : Args → σ → Except (Exc E) R × σ}
  {copy : R → σ → Except (Exc E) Unit × σ}

/-! ## One invocation -/

/-- The first invocation returns, and stores the outcome of the callable. -/
theorem invoke_first {s : St σ R E} (h : s.outcome = none) (args : Args) :
    invoke function copy args s = .ok () { s with
      world := worldOf function copy args s.world
      outcome := some (outcomeOf function copy args s.world) } := by
  unfold invoke Prog.tryCatch Prog.seq callOut outcomeOf worldOf
  rcases hf : function args s.world with ⟨(e | r), w⟩
  · simp only [setException, satisfy, h]
  · dsimp only
    unfold setValue
    rw [h]
    unfold Prog.seq callOut
    rcases hc : copy r w with ⟨(e | _), w'⟩
    · simp only [setException, satisfy]
    · simp only [satisfy]

/-- Every later invocation runs the callable, and throws what set_exception throws on a
    satisfied promise, whatever the callable did; the outcome stays. -/
theorem invoke_again {s : St σ R E} {o : Except (Exc E) R} (h : s.outcome = some o)
    (args : Args) :
    invoke function copy args s =
      .threw (.futureError .promiseAlreadySatisfied)
        { s with world := (function args s.world).2 } := by
  unfold invoke Prog.tryCatch Prog.seq callOut
  rcases hf : function args s.world with ⟨(e | r), w⟩
  · simp only [setException, satisfy, h]
  · simp only [setValue, setException, satisfy, h]

/-- Taking the future touches nothing else. -/
theorem getFuture_keeps (s : St σ R E) :
    ∃ s', (getFuture s).state? = some s' ∧ s'.world = s.world ∧ s'.outcome = s.outcome := by
  unfold getFuture
  split
  · exact ⟨s, rfl, rfl, rfl⟩
  · exact ⟨_, rfl, rfl, rfl⟩

/-! ## A sequence of calls -/

/-- Before the first invocation there is no outcome and the callable has not run. -/
theorem exec_before {w : σ} {before : List (Op Args)}
    (hbefore : ∀ op ∈ before, op = .getFuture) {r r' : Res (St σ R E) (Exc E) Unit}
    (hr : ∃ s, r.state? = some s ∧ s.world = w ∧ s.outcome = none)
    (h : (sys function copy w).exec Lts.anyStep r before = some r') :
    ∃ s, r'.state? = some s ∧ s.world = w ∧ s.outcome = none := by
  induction before generalizing r with
  | nil => exact Option.some.inj h ▸ hr
  | cons op before ih =>
      obtain ⟨u, hu, h⟩ := Lts.exec_any_cons h
      obtain ⟨s, hs, hw, ho⟩ := hr
      obtain ⟨s₀, hs₀, -, rfl⟩ := calls_step hu
      rw [hs] at hs₀
      cases hs₀
      obtain ⟨s', hs', hw', ho'⟩ := getFuture_keeps s
      rw [hbefore op List.mem_cons_self] at h
      exact ih (fun o hmem => hbefore o (List.mem_cons_of_mem op hmem))
        ⟨s', hs', hw'.trans hw, ho'.trans ho⟩ h

/-- Once there is an outcome no call changes it. -/
theorem exec_after {w : σ} {o : Except (Exc E) R} {after : List (Op Args)}
    {r r' : Res (St σ R E) (Exc E) Unit} (hr : ∃ s, r.state? = some s ∧ s.outcome = some o)
    (h : (sys function copy w).exec Lts.anyStep r after = some r') :
    ∃ s, r'.state? = some s ∧ s.outcome = some o := by
  induction after generalizing r with
  | nil => exact Option.some.inj h ▸ hr
  | cons op after ih =>
      obtain ⟨u, hu, h⟩ := Lts.exec_any_cons h
      obtain ⟨s, hs, ho⟩ := hr
      obtain ⟨s₀, hs₀, -, rfl⟩ := calls_step hu
      rw [hs] at hs₀
      cases hs₀
      refine ih ?_ h
      cases op with
      | invoke args =>
          refine ⟨{ s with world := (function args s.world).2 }, ?_, ho⟩
          rw [body, invoke_again ho args]
          rfl
      | getFuture =>
          obtain ⟨s', hs', -, ho'⟩ := getFuture_keeps s
          exact ⟨s', hs', ho'.trans ho⟩

/-- Whatever calls surround the first invocation, it returns; its outcome is what the
    future yields, whenever it is taken; and every later invocation throws
    promise_already_satisfied and leaves the stored outcome unchanged. -/
theorem first_outcome (w : σ) (before after : List (Op Args)) (args : Args)
    {r₀ r₁ r₂ : Res (St σ R E) (Exc E) Unit} (hbefore : ∀ op ∈ before, op = .getFuture)
    (h₀ : (sys function copy w).exec Lts.anyStep (.ok () (fresh w)) before = some r₀)
    (h₁ : (sys function copy w).step r₀ (.invoke args) = some r₁)
    (h₂ : (sys function copy w).exec Lts.anyStep r₁ after = some r₂) :
    (∃ s, r₁ = .ok () s) ∧
    (∃ s, r₂.state? = some s ∧ s.outcome = some (outcomeOf function copy args w) ∧
      (s.retrieved = false → ∃ s', (sys function copy w).step r₂ .getFuture = some (.ok () s') ∧
        s'.future = some (outcomeOf function copy args w)) ∧
      (s.retrieved = true → s.future = some (outcomeOf function copy args w)) ∧
      ∀ args' r₃, (sys function copy w).step r₂ (.invoke args') = some r₃ →
        ∃ s', r₃ = .threw (.futureError .promiseAlreadySatisfied) s' ∧
          s'.outcome = s.outcome ∧ s'.retrieved = s.retrieved) := by
  obtain ⟨s, hs, hw, ho⟩ := exec_before hbefore ⟨fresh w, rfl, rfl, rfl⟩ h₀
  obtain ⟨s₀, hs₀, -, rfl⟩ := calls_step h₁
  rw [hs] at hs₀
  cases hs₀
  have hi : invoke function copy args s = _ := invoke_first ho args
  rw [hw] at hi
  obtain ⟨s₂, hs₂, ho₂⟩ := exec_after (o := outcomeOf function copy args w)
    ⟨_, by rw [body, hi]; rfl, rfl⟩ h₂
  refine ⟨⟨_, hi⟩, s₂, hs₂, ho₂, fun hnot => ?_, fun hgot => ?_, fun args' r₃ h₃ => ?_⟩
  · refine ⟨{ s₂ with retrieved := true }, ?_, ?_⟩
    · refine (calls_step_of hs₂ trivial).trans (congrArg some ?_)
      rw [body, getFuture, hnot]
      rfl
    · exact ho₂
  · rw [St.future, if_pos hgot]
    exact ho₂
  · obtain ⟨s₃, hs₃, -, rfl⟩ := calls_step h₃
    rw [hs₂] at hs₃
    cases hs₃
    exact ⟨_, invoke_again ho₂ args', rfl, rfl⟩

/-- The callable returns its argument the first time and throws the second time. -/
def onceOnly (args n : ℕ) : Except (Exc Unit) ℕ × ℕ :=
  if n = 0 then (.ok args, n + 1) else (.error (.other ()), n + 1)

theorem first_outcome_onceOnly :
    ∃ r s, (sys onceOnly (fun _ n => (.ok (), n)) 0).exec Lts.anyStep (.ok () (fresh 0))
        [.invoke 3, .invoke 4, .getFuture] = some r ∧
      r.state? = some s ∧ s.outcome = some (.ok 3) := by
  have hafter : (sys onceOnly (fun _ n => (.ok (), n)) 0).exec Lts.anyStep
      (invoke onceOnly (fun _ n => (.ok (), n)) 3 (fresh 0)) [.invoke 4, .getFuture] =
        some _ := rfl
  obtain ⟨-, s, hs, ho, -⟩ := first_outcome 0 [] _ 3 (by simp) rfl rfl hafter
  exact ⟨_, s, rfl, hs, ho⟩

end CppConcurrency.PackagedTask
