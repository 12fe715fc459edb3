/-
  The calls of DnsCache return.

      // Can't acquire the lock while the are a writer
      // Can't acquire the lock while the are any readers or another writer

  Whoever holds the mutex can always go on: the iterator that a reader dereferences points to
  an element, as nobody has changed the map. And when nobody holds it, whoever waits for it can
  take it. New calls could keep a writer waiting for ever, so there are none here.

  Proved (`calls_return`): from any reachable state, if no new calls are made, all calls return
  within a number of steps that is known, however the threads are scheduled.
-/
import CppConcurrency.DnsCache.Atomic
import CppConcurrency.Lib.Count
import CppConcurrency.Lib.Progress

namespace CppConcurrency.DnsCache

open Concur

variable {ι K V : Type*} [DecidableEq ι] [DecidableEq K] [Inhabited V]

omit [DecidableEq K] [Inhabited V] in
/-- The steps that a thread has yet to take. -/
def Pc.left : Pc K V → ℕ
  | .idle => 0
  | .readUnlock _ _ | .writeUnlock _ _ => 1
  | .copy _ _ | .assign _ _ => 2
  | .test _ _ | .insert _ _ => 3
  | .find _ | .writeLock _ _ => 4
  | .readLock _ => 5

/-- No new calls. -/
def Runs (_ : St ι K V) : Act ι K V → Prop
  | .call _ _ => False
  | .run _ => True

instance (s : St ι K V) (a : Act ι K V) : Decidable (Runs s a) := by
  cases a
  · exact isFalse id
  · exact isTrue trivial

variable {s s' : St ι K V} {t : ι}

/-- A step of a thread is one of those it has yet to take. -/
theorem left_of_run (h : run s t = some s') :
    ∃ pc, s'.pc = Function.update s.pc t pc ∧ pc.left < (s.pc t).left := by
  unfold run at h
  split at h
  case h_1 => cases h
  case h_2 d hp =>
    obtain ⟨m, -, rfl⟩ := Option.map_eq_some_iff.mp h
    exact ⟨_, rfl, by rw [hp]; exact Nat.lt_succ_self _⟩
  case h_4 d it hp =>
    cases h
    refine ⟨_, rfl, ?_⟩
    rw [hp]
    split
    · exact Nat.lt_of_succ_lt (Nat.lt_succ_self _)
    · exact Nat.lt_succ_self _
  case h_5 d it hp =>
    obtain ⟨v, -, rfl⟩ := Option.map_eq_some_iff.mp h
    exact ⟨_, rfl, by rw [hp]; exact Nat.lt_succ_self _⟩
  case h_7 d v hp =>
    obtain ⟨m, -, rfl⟩ := Option.map_eq_some_iff.mp h
    exact ⟨_, rfl, by rw [hp]; exact Nat.lt_succ_self _⟩
  all_goals
    next hp =>
      cases h
      exact ⟨_, rfl, by rw [hp]; exact Nat.lt_succ_self _⟩

/-- Who holds the mutex can go on. -/
theorem run_of_mode (hi : Inv s) (h : (s.pc t).mode ≠ none) : run s t ≠ none := by
  obtain ⟨m, hr⟩ := hi.rel
  have hk := hr.knows t
  unfold run
  cases hp : s.pc t with
  | copy d it =>
      rw [hp] at hk
      obtain ⟨hm, rfl, hsome⟩ := hk
      obtain ⟨v, hv⟩ := Option.isSome_iff_exists.mp hsome
      have hfound : (some d).bind s.entries = some v := by rw [hm]; exact hv
      dsimp only
      rw [hfound]
      nofun
  | find | test | readUnlock | insert | assign | writeUnlock => nofun
  | idle | readLock | writeLock =>
      rw [hp] at h
      exact absurd rfl h

/-- If nobody holds the mutex, who waits for it can take it. -/
theorem run_of_free (hi : Inv s) (hfree : ∀ u, (s.pc u).mode = none) (h : s.pc t ≠ .idle) :
    run s t ≠ none := by
  have hx : s.entry_mutex.exclusive = none := by
    by_contra hne
    obtain ⟨u, hu⟩ := Option.ne_none_iff_exists'.mp hne
    have hmode := (hi.holds.exclusive u).mp hu
    rw [hfree u] at hmode
    cases hmode
  have hs : s.entry_mutex.shared = [] := by
    refine List.eq_nil_iff_forall_not_mem.mpr fun u hu => ?_
    have hmode := (hi.holds.shared u).mp hu
    rw [hfree u] at hmode
    cases hmode
  have hmode := hfree t
  unfold run
  cases hp : s.pc t with
  | idle => exact absurd hp h
  | readLock d =>
      dsimp only
      rw [SharedMutex.lockShared, hx]
      nofun
  | writeLock d v =>
      dsimp only
      rw [SharedMutex.lock, hx, hs]
      nofun
  | find | test | copy | readUnlock | insert | assign | writeUnlock =>
      rw [hp] at hmode
      cases hmode

/-- **No call waits for ever.** From every reachable state, if no new calls are made, every run
    has at most as many steps as the calls have yet to take, and has ended with all of them
    back when it cannot go on. -/
theorem calls_return [Fintype ι] (h : sys.Reachable s) :
    sys.Finishes Runs (fun s => ∀ t, s.pc t = .idle) (sumAt Pc.left s.pc) s := by
  refine Lts.finishes_of_measure (P := sys.Reachable) (μ := fun s => sumAt Pc.left s.pc)
    ?_ ?_ h
  · rintro s a s' hs hg hstep
    refine ⟨.next hs trivial hstep, ?_⟩
    cases a with
    | call t op => exact absurd hg id
    | run t =>
        obtain ⟨pc, hpc, hlt⟩ := left_of_run hstep
        have hsum := sumAt_update Pc.left s.pc t pc
        rw [hpc]
        omega
  · intro s hs hend t
    have hi := inv_reach hs
    by_contra ht
    by_cases hfree : ∀ u, (s.pc u).mode = none
    · exact run_of_free hi hfree ht (hend (.run t) trivial)
    · obtain ⟨u, hu⟩ := not_forall.mp hfree
      exact run_of_mode hi hu (hend (.run u) trivial)

/-- A reader and a writer have been called. -/
theorem calls_return_two :
    ∃ s : St (Fin 2) Bool ℕ,
      sys.exec Lts.anyStep initial [.call 0 (.find true), .call 1 (.update true 7)] = some s ∧
        sys.Finishes Runs (fun s => ∀ t, s.pc t = .idle) 9 s := by
  have hreach : (sys : Lts (St (Fin 2) Bool ℕ) (Act (Fin 2) Bool ℕ)).Reachable _ :=
    Lts.Reach.exec (G := Lts.anyStep) [.call 0 (.find true), .call 1 (.update true 7)]
      (.start rfl) rfl
  exact ⟨_, rfl, calls_return hreach⟩

end CppConcurrency.DnsCache
