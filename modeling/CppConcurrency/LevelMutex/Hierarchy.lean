/-
  LevelMutex: what the invariant gives its users.

  * `deadlock_free`: in a disciplined run the wait-for relation of the threads blocked in
    mtx.lock() has no cycle, and as soon as some thread is blocked some owner is not. The
    argument is `Concur.Ordered`: a thread only blocks on a level above all it owns.
  * `bookkeeping`: between two calls of a thread its acquired mutexes have strictly
    increasing levels, `thread_level` is the last of them, each `prev_levels` saves the level
    below, free mutexes save nothing, and unlock() accepts exactly the latest mutex.
-/
import CppConcurrency.Lib.WaitFor
import CppConcurrency.LevelMutex.Invariant
import Mathlib.Data.Fin.VecNotation
import Mathlib.Data.Fintype.EquivFin

namespace CppConcurrency.LevelMutex

open Concur

variable {ι μ : Type} {level : μ → UInt64} {s : St ι μ}

/-! ## No deadlock -/

theorem want_eq_some {t : ι} {m : μ} : want s t = some m ↔ (s.th t).pc = .mtxLock m := by
  unfold want
  cases (s.th t).pc <;> simp

/-- Everything a blocked thread owns has a level below the mutex it is blocked on. -/
theorem ordered (h : Inv level s) : Ordered (fun m => (level m).toFin) (want s) s.owner := by
  intro t m m' ho hw
  have ht := h.thread t
  rw [ThreadInv, want_eq_some.mp hw] at ht
  obtain ⟨⟨hst, htop⟩, hlt⟩ := ht
  have hle : level m ≤ topLevel level (s.th t).held :=
    hst.level_le_top ((h.owns m t).mp ho)
  rw [← htop] at hle
  exact UInt64.lt_iff_toFin_lt.mp (UInt64.lt_of_le_of_lt hle hlt)

section Reach

variable [DecidableEq ι] [DecidableEq μ]

/-- **LevelMutex rules out deadlock.** In every state of a disciplined run no thread waits
    for itself along the wait-for relation, and a blocked thread implies an owner that is
    not blocked. -/
theorem deadlock_free (level : μ → UInt64) (s : St ι μ) (h : (sys level).Reach Disciplined s) :
    (∀ t, ¬ Relation.TransGen (WaitsFor (want s) s.owner) t t) ∧
    ((∃ t, Blocked (want s) s.owner t) →
      ∃ u m, s.owner m = some u ∧ ¬ Blocked (want s) s.owner u) := by
  have hord := ordered (inv_reach h)
  refine ⟨hord.acyclic, ?_⟩
  rintro ⟨t, hb⟩
  exact hord.exists_unblocked_owner hb

end Reach

/-- The five objects of LevelMutex_use.cpp. -/
def useLevel : Fin 5 → UInt64 := ![10, 10, 30, 40, 50]

/-- Thread 0 locks mtx1, thread 1 locks mtx3, and thread 0 goes on to lock mtx3. -/
def crossing : List (Act (Fin 2) (Fin 5)) :=
  [.callLock 0 0, .run 0, .run 0, .run 0, .run 0,
   .callLock 1 2, .run 1, .run 1, .run 1, .run 1,
   .callLock 0 2, .run 0]

/-- The state after `crossing`. -/
def crossed : St (Fin 2) (Fin 5) :=
  ((sys useLevel).exec Disciplined initial crossing).get (by decide)

theorem crossed_reach : (sys useLevel).Reach Disciplined crossed :=
  .exec crossing (.start rfl) (Option.some_get _).symm

theorem deadlock_free_crossed :
    Blocked (want crossed) crossed.owner 0 ∧
      ∃ u m, crossed.owner m = some u ∧ ¬ Blocked (want crossed) crossed.owner u :=
  have hb : Blocked (want crossed) crossed.owner 0 := ⟨1, 2, by decide, by decide⟩
  ⟨hb, (deadlock_free useLevel crossed crossed_reach).2 ⟨0, hb⟩⟩

/-! ## Bookkeeping -/

theorem Stacked.of_append {prev : μ → List UInt64} {l r : List μ}
    (h : Stacked level prev (l ++ r)) : Stacked level prev r := by
  induction l with
  | nil => exact h
  | cons a l ih => exact ih h.2.2

/-- The books of thread `t` at a point where no operation of `t` is in progress. -/
structure Bookkept (level : μ → UInt64) (s : St ι μ) (t : ι) : Prop where
  /-- what was acquired and not released is what the std::mutexes say `t` owns -/
  owned : ∀ m, m ∈ (s.th t).acquired ↔ s.owner m = some t
  /-- levels strictly increase in the order of acquisition -/
  increasing : (s.th t).acquired.Pairwise fun m m' => level m < level m'
  /-- `thread_level` is the level of the last one, 0 when there is none -/
  current : (s.th t).threadLevel = ((s.th t).acquired.getLast?.map level).getD 0
  /-- the first one saves 0 -/
  savedFirst : ∀ m post, (s.th t).acquired = m :: post → s.prevLevels m = [0]
  /-- every other one saves the level of the one before -/
  savedNext : ∀ pre m m' post, (s.th t).acquired = pre ++ m :: m' :: post →
    s.prevLevels m' = [level m]

theorem bookkept_of_settled (h : Inv level s) {t : ι}
    (hset : Settled level s.prevLevels (s.th t)) : Bookkept level s t where
  owned m := by
    rw [Thread.acquired, List.mem_reverse]
    exact (h.owns m t).symm
  increasing := by
    rw [Thread.acquired, List.pairwise_reverse]
    exact hset.1.pairwise
  current := by
    rw [Thread.acquired, List.getLast?_reverse, hset.2]
    cases (s.th t).held <;> rfl
  savedFirst m post he := by
    have hheld : (s.th t).held = post.reverse ++ [m] := by
      rw [← List.reverse_cons, ← he, Thread.acquired, List.reverse_reverse]
    have hst := hset.1
    rw [hheld] at hst
    exact hst.of_append.2.1
  savedNext pre m m' post he := by
    have hheld : (s.th t).held = post.reverse ++ m' :: m :: pre.reverse := by
      rw [← List.reverse_reverse (s.th t).held, ← Thread.acquired, he]
      simp
    have hst := hset.1
    rw [hheld] at hst
    exact hst.of_append.2.1

/-- The mutex of an unlock() that is past its check, and how many of its statements follow
    the next one. -/
def Pc.unlocking : Pc μ → Option (μ × ℕ)
  | .popBack m => some (m, 2)
  | .reset m _ => some (m, 1)
  | .mtxUnlock m => some (m, 0)
  | _ => none

section Unlock

variable [DecidableEq ι] [DecidableEq μ]

/-- One statement of thread `t`'s unlock() of `m` leads from `s` to `s'`. -/
def Unlocking (s s' : St ι μ) (t : ι) (m : μ) : ℕ → Prop
  | k + 1 => (s'.th t).pc.unlocking = some (m, k) ∧ (s'.th t).acquired = (s.th t).acquired ∧
      s'.owner = s.owner
  | 0 => (s'.th t).pc = .idle .void ∧ (s'.th t).acquired = (s.th t).acquired.dropLast ∧
      s'.owner = Function.update s.owner m none

/-- The check of unlock() passes for the latest acquired mutex and throws for every other
    one; a throw changes nothing but the thread's own program counter. -/
theorem run_unlockCheck (h : Inv level s) {t : ι} {m : μ} (hpc : (s.th t).pc = .unlockCheck m) :
    run level s t = some (if (s.th t).acquired.getLast? = some m
      then s.put t { s.th t with pc := .popBack m }
      else s.put t { s.th t with pc := .idle (.logicError hierarchyViolated) }) := by
  have ht := h.thread t
  rw [ThreadInv, hpc] at ht
  obtain ⟨⟨hst, htop⟩, hm⟩ := ht
  have hiff : (s.th t).threadLevel = level m ↔ (s.th t).acquired.getLast? = some m := by
    rw [Thread.acquired, List.getLast?_reverse, htop]
    cases hheld : (s.th t).held with
    | nil => rw [hheld] at hm; cases hm
    | cons a ms =>
        rw [hheld] at hm hst
        rw [List.head?_cons, Option.some_inj]
        refine ⟨fun he => ?_, fun he => congrArg level he⟩
        rcases List.mem_cons.mp hm with rfl | hm
        · rfl
        · have hlt := UInt64.lt_of_le_of_lt (hst.2.2.level_le_top hm) hst.1
          rw [← he] at hlt
          exact absurd hlt (UInt64.lt_irrefl _)
  unfold run
  simp only [hpc]
  by_cases he : (s.th t).threadLevel = level m
  · rw [if_neg (not_not.mpr he), if_pos (hiff.mp he)]
  · rw [if_pos he, if_neg (fun hl => he (hiff.mpr hl))]

/-- What one more statement of an unlock() that is past its check does: no statement of it
    throws, and the last one gives `m` back. `k` counts the statements left after it. -/
theorem run_unlocking (h : Inv level s) {t : ι} {m : μ} {k : ℕ}
    (hpc : (s.th t).pc.unlocking = some (m, k)) :
    ∃ s', run level s t = some s' ∧ Unlocking s s' t m k := by
  have ht := h.thread t
  unfold ThreadInv at ht
  unfold run
  cases hp : (s.th t).pc <;> rw [hp] at hpc <;>
    simp only [Pc.unlocking, reduceCtorEq] at hpc <;> simp only [hp]
  case popBack =>
    cases hpc
    rw [hp] at ht
    obtain ⟨hst, ms, hheld⟩ := ht
    rw [hheld] at hst
    simp only [hst.2.1, List.getLast?_singleton]
    refine ⟨_, rfl, ?_, ?_, rfl⟩
    · simp only [St.put, Function.update_self, Pc.unlocking]
    · simp only [St.put, Function.update_self, Thread.acquired]
  case reset =>
    cases hpc
    refine ⟨_, rfl, ?_, ?_, rfl⟩
    · simp only [St.put, Function.update_self, Pc.unlocking]
    · simp only [St.put, Function.update_self, Thread.acquired]
  case mtxUnlock =>
    cases hpc
    rw [hp] at ht
    obtain ⟨⟨ms, hheld, -⟩, -⟩ := ht
    refine ⟨_, rfl, ?_, ?_, rfl⟩
    · simp only [St.put, Function.update_self]
    · simp only [St.put, Function.update_self, Thread.acquired, hheld, List.erase_cons_head,
        List.reverse_cons, List.dropLast_concat]

/-- **LevelMutex bookkeeping.** In every state of a disciplined run: the books of every
    thread between two calls; free mutexes have nothing saved; and a holder's unlock()
    passes its check exactly for the latest mutex acquired, throwing and changing nothing
    otherwise, and past the check it runs on without a throw until it has released it. -/
theorem bookkeeping (level : μ → UInt64) (s : St ι μ) (h : (sys level).Reach Disciplined s) :
    (∀ t, (s.th t).Quiet → Bookkept level s t) ∧
    (∀ m, s.owner m = none → s.prevLevels m = []) ∧
    (∀ t m, (s.th t).pc = .unlockCheck m →
      run level s t = some (if (s.th t).acquired.getLast? = some m
        then s.put t { s.th t with pc := .popBack m }
        else s.put t { s.th t with pc := .idle (.logicError hierarchyViolated) })) ∧
    (∀ t m k, (s.th t).pc.unlocking = some (m, k) →
      ∃ s', run level s t = some s' ∧ Unlocking s s' t m k) := by
  have hi := inv_reach h
  refine ⟨?_, hi.free, fun t m hpc => run_unlockCheck hi hpc, fun t m k hpc =>
    run_unlocking hi hpc⟩
  rintro t ⟨last, hidle⟩
  have ht := hi.thread t
  rw [ThreadInv, hidle] at ht
  exact bookkept_of_settled hi ht

/-- Thread 0 locks mtx1, mtx3 and mtx4. -/
def nesting : List (Act (Fin 2) (Fin 5)) :=
  [.callLock 0 0, .run 0, .run 0, .run 0, .run 0,
   .callLock 0 2, .run 0, .run 0, .run 0, .run 0,
   .callLock 0 3, .run 0, .run 0, .run 0, .run 0]

/-- The state after `nesting`. -/
def nested : St (Fin 2) (Fin 5) :=
  ((sys useLevel).exec Disciplined initial nesting).get (by decide)

theorem nested_reach : (sys useLevel).Reach Disciplined nested :=
  .exec nesting (.start rfl) (Option.some_get _).symm

theorem bookkeeping_nested :
    (nested.th 0).acquired = [0, 2, 3] ∧ Bookkept useLevel nested 0 :=
  ⟨by decide, (bookkeeping useLevel nested nested_reach).1 0 ⟨.void, by decide⟩⟩

end Unlock

end CppConcurrency.LevelMutex
