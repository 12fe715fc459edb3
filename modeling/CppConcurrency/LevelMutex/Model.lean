/-
  `LevelMutex` (LevelMutex.h): a std::mutex with a level, and a thread-local level that a
  thread may only raise by locking.

  Model (read this before the theorems). Threads `ι` and mutexes `μ` are arbitrary types.
  `unsigned long` is `UInt64`. A thread runs one public member at a time, one statement a
  step, and any thread may step next:
  * `lock()`: `check` (check_level), `mtxLock` (mtx.lock(), enabled while the std::mutex is
    free), `pushBack` and `raise` (the two statements of update_level);
  * `try_lock()`: `check`, `mtxTryLock` (takes a free std::mutex, or fails: it is taken, or
    fails spuriously), `pushBack`, `raise`;
  * `unlock()`: `unlockCheck`, `popBack`, `reset`, `mtxUnlock`.
  A call that is over leaves its outcome in `idle`. `prev_levels` is a list whose last
  element is `back()`. The lines written to std::cout are left out.

  `held` is a ghost field: the mutexes the thread has acquired through its std::mutex and not
  released, the latest first. `Owns` (`LevelMutex.Invariant`) ties it to the owner table.

  `Disciplined` is the guard of the runs in which unlock() is called by the holder only and
  `push_back` does not fail.
-/
import CppConcurrency.Lib.Lts

namespace CppConcurrency.LevelMutex

open Concur

/-- The text of the hierarchy std::logic_error. -/
def hierarchyViolated : String := "mutex hierarchy violated"

/-- The members that acquire: `lock` and `try_lock`. -/
inductive Via where
  | lock
  | tryLock
  deriving DecidableEq, Repr

/-- How a thread's latest call ended. -/
inductive Outcome where
  | fresh
  | void
  | bool (b : Bool)
  | logicError (what : String)
  | badAlloc
  deriving DecidableEq, Repr

/-- What the acquiring members return when they succeed. -/
def Via.success : Via → Outcome
  | .lock => .void
  | .tryLock => .bool true

/-- The statement a thread executes next. -/
inductive Pc (μ : Type) where
  | idle (last : Outcome)
  | check (via : Via) (m : μ)
  | mtxLock (m : μ)
  | mtxTryLock (m : μ)
  | pushBack (via : Via) (m : μ)
  | raise (via : Via) (m : μ)
  | unlockCheck (m : μ)
  | popBack (m : μ)
  | reset (m : μ) (prevLevel : UInt64)
  | mtxUnlock (m : μ)
  deriving DecidableEq, Repr

/-- A thread: its next statement, its `thread_level`, and what it holds (latest first). -/
structure Thread (μ : Type) where
  pc : Pc μ
  threadLevel : UInt64
  held : List μ
  deriving DecidableEq, Repr

/-- The held mutexes in the order of their acquisition. -/
def Thread.acquired {μ : Type} (x : Thread μ) : List μ := x.held.reverse

/-- No member of LevelMutex is in progress. -/
def Thread.Quiet {μ : Type} (x : Thread μ) : Prop := ∃ last, x.pc = .idle last

/-- The threads, the owners of the std::mutexes, and the `prev_levels` of each LevelMutex. -/
structure St (ι μ : Type) where
  th : ι → Thread μ
  owner : μ → Option ι
  prevLevels : μ → List UInt64

/-- Who moves. `run` is the next statement of a thread; `tryFails` and `pushFails` are the
    failing outcomes of mtx.try_lock() and of push_back. -/
inductive Act (ι μ : Type) where
  | callLock (t : ι) (m : μ)
  | callTryLock (t : ι) (m : μ)
  | callUnlock (t : ι) (m : μ)
  | run (t : ι)
  | tryFails (t : ι)
  | pushFails (t : ι)
  deriving DecidableEq, Repr

variable {ι μ : Type} [DecidableEq ι]

/-- Replace the local state of `t`. -/
def St.put (s : St ι μ) (t : ι) (x : Thread μ) : St ι μ :=
  { s with th := Function.update s.th t x }

/-- Start a member: the thread must be between calls. -/
def call (s : St ι μ) (t : ι) (pc : Pc μ) : Option (St ι μ) :=
  match (s.th t).pc with
  | .idle _ => some (s.put t { s.th t with pc := pc })
  | _ => none

variable [DecidableEq μ]

/-- `mtx.lock()`, and `mtx.try_lock()` when it succeeds. -/
def acquire (s : St ι μ) (t : ι) (via : Via) (m : μ) : Option (St ι μ) :=
  if s.owner m = none then
    some { s.put t { s.th t with pc := .pushBack via m, held := m :: (s.th t).held } with
      owner := Function.update s.owner m (some t) }
  else none

/-- The next statement of thread `t`. -/
def run (level : μ → UInt64) (s : St ι μ) (t : ι) : Option (St ι μ) :=
  let x := s.th t
  match x.pc with
  | .idle _ => none
  | .check via m =>
      -- check_level(): we can only increase the level
      if x.threadLevel ≥ level m then
        some (s.put t { x with pc := .idle (.logicError hierarchyViolated) })
      else
        match via with
        | .lock => some (s.put t { x with pc := .mtxLock m })
        | .tryLock => some (s.put t { x with pc := .mtxTryLock m })
  | .mtxLock m => acquire s t .lock m
  | .mtxTryLock m => acquire s t .tryLock m
  | .pushBack via m =>
      some { s.put t { x with pc := .raise via m } with
        prevLevels := Function.update s.prevLevels m (s.prevLevels m ++ [x.threadLevel]) }
  | .raise via m => some (s.put t { x with pc := .idle via.success, threadLevel := level m })
  | .unlockCheck m =>
      if x.threadLevel ≠ level m then
        some (s.put t { x with pc := .idle (.logicError hierarchyViolated) })
      else some (s.put t { x with pc := .popBack m })
  | .popBack m =>
      -- prev_level stays 0 when prev_levels is empty
      match (s.prevLevels m).getLast? with
      | none => some (s.put t { x with pc := .reset m 0 })
      | some prevLevel =>
          some { s.put t { x with pc := .reset m prevLevel } with
            prevLevels := Function.update s.prevLevels m (s.prevLevels m).dropLast }
  | .reset m prevLevel => some (s.put t { x with pc := .mtxUnlock m, threadLevel := prevLevel })
  | .mtxUnlock m =>
      some { s.put t { x with pc := .idle .void, held := x.held.erase m } with
        owner := Function.update s.owner m none }

/-- One step of the system. -/
def step (level : μ → UInt64) (s : St ι μ) : Act ι μ → Option (St ι μ)
  | .callLock t m => call s t (.check .lock m)
  | .callTryLock t m => call s t (.check .tryLock m)
  | .callUnlock t m => call s t (.unlockCheck m)
  | .run t => run level s t
  | .tryFails t =>
      match (s.th t).pc with
      | .mtxTryLock _ => some (s.put t { s.th t with pc := .idle (.bool false) })
      | _ => none
  | .pushFails t =>
      -- the exception leaves lock() or try_lock() with the std::mutex still locked
      match (s.th t).pc with
      | .pushBack _ _ => some (s.put t { s.th t with pc := .idle .badAlloc })
      | _ => none

omit [DecidableEq ι] [DecidableEq μ] in
/-- Nothing is locked, no level is saved, every `thread_level` is 0. -/
def initial : St ι μ where
  th _ := ⟨.idle .fresh, 0, []⟩
  owner _ := none
  prevLevels _ := []

/-- LevelMutex objects with the given levels, shared by all threads. -/
def sys (level : μ → UInt64) : Lts (St ι μ) (Act ι μ) where
  init s := s = initial
  step := step level

omit [DecidableEq ι] [DecidableEq μ] in
/-- unlock() is called on a mutex the thread holds, and push_back does not fail. -/
def Disciplined (s : St ι μ) : Act ι μ → Prop
  | .callUnlock t m => s.owner m = some t
  | .pushFails _ => False
  | _ => True

omit [DecidableEq μ] in
instance (s : St ι μ) : (a : Act ι μ) → Decidable (Disciplined s a)
  | .callUnlock t m => inferInstanceAs (Decidable (s.owner m = some t))
  | .pushFails _ => isFalse id
  | .callLock _ _ => isTrue trivial
  | .callTryLock _ _ => isTrue trivial
  | .run _ => isTrue trivial
  | .tryFails _ => isTrue trivial

omit [DecidableEq ι] [DecidableEq μ] in
/-- The mutex that a thread stands in front of, in mtx.lock(). -/
def want (s : St ι μ) (t : ι) : Option μ :=
  match (s.th t).pc with
  | .mtxLock m => some m
  | _ => none

/-! ## What a step does -/

/-- The thread that moves. -/
def Act.thread : Act ι μ → ι
  | .callLock t _ => t
  | .callTryLock t _ => t
  | .callUnlock t _ => t
  | .run t => t
  | .tryFails t => t
  | .pushFails t => t

/-- The statement behind the check. -/
def Via.mtx : Via → μ → Pc μ
  | .lock, m => .mtxLock m
  | .tryLock, m => .mtxTryLock m

/-- The statements of thread `t`, one case for each thing a statement can do. -/
inductive Moves (level : μ → UInt64) (s : St ι μ) (t : ι) : St ι μ → Prop
  | refused (via : Via) (m : μ) (h : (s.th t).pc = .check via m)
      (hle : level m ≤ (s.th t).threadLevel) :
      Moves level s t (s.put t { s.th t with pc := .idle (.logicError hierarchyViolated) })
  | passed (via : Via) (m : μ) (h : (s.th t).pc = .check via m)
      (hlt : (s.th t).threadLevel < level m) :
      Moves level s t (s.put t { s.th t with pc := via.mtx m })
  | acquired (via : Via) (m : μ) (h : (s.th t).pc = via.mtx m) (hfree : s.owner m = none) :
      Moves level s t
        { s.put t { s.th t with pc := .pushBack via m, held := m :: (s.th t).held } with
          owner := Function.update s.owner m (some t) }
  | pushed (via : Via) (m : μ) (h : (s.th t).pc = .pushBack via m) :
      Moves level s t
        { s.put t { s.th t with pc := .raise via m } with
          prevLevels :=
            Function.update s.prevLevels m (s.prevLevels m ++ [(s.th t).threadLevel]) }
  | raised (via : Via) (m : μ) (h : (s.th t).pc = .raise via m) :
      Moves level s t (s.put t { s.th t with pc := .idle via.success, threadLevel := level m })
  | unlockRefused (m : μ) (h : (s.th t).pc = .unlockCheck m)
      (hne : (s.th t).threadLevel ≠ level m) :
      Moves level s t (s.put t { s.th t with pc := .idle (.logicError hierarchyViolated) })
  | unlockPassed (m : μ) (h : (s.th t).pc = .unlockCheck m)
      (heq : (s.th t).threadLevel = level m) :
      Moves level s t (s.put t { s.th t with pc := .popBack m })
  | popEmpty (m : μ) (h : (s.th t).pc = .popBack m) (hp : (s.prevLevels m).getLast? = none) :
      Moves level s t (s.put t { s.th t with pc := .reset m 0 })
  | popped (m : μ) (prevLevel : UInt64) (h : (s.th t).pc = .popBack m)
      (hp : (s.prevLevels m).getLast? = some prevLevel) :
      Moves level s t
        { s.put t { s.th t with pc := .reset m prevLevel } with
          prevLevels := Function.update s.prevLevels m (s.prevLevels m).dropLast }
  | wasReset (m : μ) (prevLevel : UInt64) (h : (s.th t).pc = .reset m prevLevel) :
      Moves level s t (s.put t { s.th t with pc := .mtxUnlock m, threadLevel := prevLevel })
  | unlocked (m : μ) (h : (s.th t).pc = .mtxUnlock m) :
      Moves level s t
        { s.put t { s.th t with pc := .idle .void, held := (s.th t).held.erase m } with
          owner := Function.update s.owner m none }

variable {level : μ → UInt64} {s s' : St ι μ} {t : ι}

theorem moves_of_acquire {via : Via} {m : μ} (hpc : (s.th t).pc = via.mtx m)
    (hs : acquire s t via m = some s') : Moves level s t s' := by
  unfold acquire at hs
  split at hs
  · next hfree =>
      cases hs
      exact .acquired via m hpc hfree
  · cases hs

/-- Every statement is one of these. -/
theorem moves_of_run (hs : run level s t = some s') : Moves level s t s' := by
  unfold run at hs
  cases hpc : (s.th t).pc with
  | idle last => simp only [hpc] at hs; cases hs
  | check via m =>
      simp only [hpc] at hs
      split at hs
      · next hle =>
          cases hs
          exact .refused via m hpc hle
      · next hlt =>
          have hmove := Moves.passed via m hpc (UInt64.not_le.mp hlt)
          cases via <;> cases hs <;> exact hmove
  | mtxLock m =>
      simp only [hpc] at hs
      exact moves_of_acquire (show (s.th t).pc = Via.lock.mtx m from hpc) hs
  | mtxTryLock m =>
      simp only [hpc] at hs
      exact moves_of_acquire (show (s.th t).pc = Via.tryLock.mtx m from hpc) hs
  | pushBack via m =>
      simp only [hpc] at hs
      cases hs
      exact .pushed via m hpc
  | raise via m =>
      simp only [hpc] at hs
      cases hs
      exact .raised via m hpc
  | unlockCheck m =>
      simp only [hpc] at hs
      split at hs
      · next hne =>
          cases hs
          exact .unlockRefused m hpc hne
      · next heq =>
          cases hs
          exact .unlockPassed m hpc (not_not.mp heq)
  | popBack m =>
      simp only [hpc] at hs
      split at hs
      · next hp =>
          cases hs
          exact .popEmpty m hpc hp
      · next p hp =>
          cases hs
          exact .popped m p hpc hp
  | reset m p =>
      simp only [hpc] at hs
      cases hs
      exact .wasReset m p hpc
  | mtxUnlock m =>
      simp only [hpc] at hs
      cases hs
      exact .unlocked m hpc

/-- And a thread at such a statement can execute it. -/
theorem run_of_moves (h : Moves level s t s') : run level s t = some s' := by
  unfold run
  cases h with
  | refused via m h hle => simp only [h, ge_iff_le, if_pos hle]
  | passed via m h hlt =>
      have hlow : ¬ (s.th t).threadLevel ≥ level m := UInt64.not_le.mpr hlt
      cases via <;> simp only [h, if_neg hlow, Via.mtx]
  | acquired via m h hfree =>
      cases via <;> simp only [Via.mtx] at h <;> simp only [h, acquire, if_pos hfree]
  | pushed via m h => simp only [h]
  | raised via m h => simp only [h]
  | unlockRefused m h hne => simp only [h, if_pos hne]
  | unlockPassed m h heq => simp only [h, heq, ne_eq, not_true_eq_false, if_false]
  | popEmpty m h hp => simp only [h, hp]
  | popped m p h hp => simp only [h, hp]
  | wasReset m p h => simp only [h]
  | unlocked m h => simp only [h]

omit [DecidableEq μ] in
theorem put_self (x : Thread μ) : (s.put t x).th t = x := Function.update_self ..

omit [DecidableEq μ] in
theorem put_other {u : ι} (hu : u ≠ t) (x : Thread μ) : (s.put t x).th u = s.th u :=
  Function.update_of_ne hu ..

omit [DecidableEq μ] in
theorem call_eq_some {pc : Pc μ} (hs : call s t pc = some s') :
    (s.th t).Quiet ∧ s' = s.put t { s.th t with pc := pc } := by
  unfold call at hs
  split at hs
  · next last hidle =>
      cases hs
      exact ⟨⟨last, hidle⟩, rfl⟩
  · cases hs

omit [DecidableEq μ] in
theorem call_of_quiet (h : (s.th t).Quiet) (pc : Pc μ) :
    call s t pc = some (s.put t { s.th t with pc := pc }) := by
  obtain ⟨last, hidle⟩ := h
  rw [call, hidle]

theorem tryFails_eq_some (hs : step level s (.tryFails t) = some s') :
    ∃ m, (s.th t).pc = .mtxTryLock m ∧
      s' = s.put t { s.th t with pc := .idle (.bool false) } := by
  simp only [step] at hs
  split at hs
  · next m hpc =>
      cases hs
      exact ⟨m, hpc, rfl⟩
  · cases hs

theorem pushFails_eq_some (hs : step level s (.pushFails t) = some s') :
    ∃ via m, (s.th t).pc = .pushBack via m ∧
      s' = s.put t { s.th t with pc := .idle .badAlloc } := by
  simp only [step] at hs
  split at hs
  · next via m hpc =>
      cases hs
      exact ⟨via, m, hpc, rfl⟩
  · cases hs

omit [DecidableEq ι] [DecidableEq μ] in
theorem not_quiet {x : Thread μ} {pc : Pc μ} (h : x.pc = pc) (hpc : ∀ o, pc ≠ .idle o) :
    ¬ x.Quiet := by
  rintro ⟨o, ho⟩
  exact hpc o (h.symm.trans ho)

/-- A step leaves the other threads alone. -/
theorem step_other {a : Act ι μ} (hs : step level s a = some s') {u : ι} (hu : u ≠ a.thread) :
    s'.th u = s.th u := by
  cases a with
  | callLock t m | callTryLock t m | callUnlock t m =>
      rw [(call_eq_some hs).2]
      exact put_other hu _
  | run t => cases moves_of_run hs <;> exact put_other hu _
  | tryFails t =>
      obtain ⟨m, -, rfl⟩ := tryFails_eq_some hs
      exact put_other hu _
  | pushFails t =>
      obtain ⟨via, m, -, rfl⟩ := pushFails_eq_some hs
      exact put_other hu _

/-- So does a run in which they do not move. -/
theorem exec_other {as : List (Act ι μ)} (ha : ∀ a ∈ as, t ≠ a.thread)
    (hs : (sys level).exec Lts.anyStep s as = some s') : s'.th t = s.th t := by
  induction as generalizing s with
  | nil =>
      cases hs
      rfl
  | cons a as ih =>
      obtain ⟨u, hu, hs⟩ := Lts.exec_any_cons hs
      have hrest := ih (fun b hb => ha b (List.mem_cons_of_mem a hb)) hs
      exact hrest.trans (step_other hu (ha a List.mem_cons_self))

end CppConcurrency.LevelMutex
