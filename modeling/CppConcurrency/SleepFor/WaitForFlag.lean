/-
  wait_for_flag of sleep_for.cpp.

  Model. Any number of threads call wait_for_flag, or write `flag` while they hold `m`, as often
  as they like. `lk` locks on construction (`lock`), is unlocked and locked again around the
  sleep (`unlock`, `sleep`, `relock`), and unlocks `m` when the function returns (`destroy`). A
  sleep ends at any time.

  Proved:
  * `wait_for_flag_correct`: a call tests `flag` and returns with `m` in its hands, and returns
    only while `flag` is set. No thread sleeps on `m`. If `flag` is set and nobody is going to
    clear it, and neither new calls nor new writers come, every call that has begun returns after
    a bounded number of steps, in any order.
-/
import CppConcurrency.Lib.Mutual
import CppConcurrency.Lib.Threads

namespace CppConcurrency.WaitForFlag

open Concur

/-- The statements of wait_for_flag, and of a thread that writes `flag`. -/
inductive Pc where
  | idle
  | lock
  | test
  | unlock
  | sleep
  | relock
  | destroy
  | writeLock (v : Bool)
  | write (v : Bool)
  | writeUnlock
  deriving DecidableEq, Repr

/-- The globals. -/
structure Globals (ι : Type*) where
  flag : Bool
  m : Option ι
  deriving DecidableEq, Repr

/-- What an idle thread does next. -/
inductive Choice where
  | wait
  | write (v : Bool)
  deriving DecidableEq, Repr

/-- The thread holds `m`. -/
def Pc.holds : Pc → Bool
  | .test | .unlock | .destroy | .write _ | .writeUnlock => true
  | _ => false

variable {ι : Type*}

/-- Take `m`, if it is free, and go on at `l`. -/
def lockM (t : ι) (d : Globals ι) (l : Pc) : Option (Pc × Globals ι) :=
  match d.m with
  | none => some (l, { d with m := some t })
  | some _ => none

/-- The next statement of a thread. -/
def next (t : ι) (l : Pc) (d : Globals ι) (b : Choice) : Option (Pc × Globals ι) :=
  match l with
  | .idle =>
      match b with
      | .wait => some (.lock, d)
      | .write v => some (.writeLock v, d)
  | .lock => lockM t d .test
  | .test => some (if d.flag then .destroy else .unlock, d)
  | .unlock => some (.sleep, { d with m := none })
  | .sleep => some (.relock, d)
  | .relock => lockM t d .test
  | .destroy => some (.idle, { d with m := none })
  | .writeLock v => lockM t d (.write v)
  | .write v => some (.writeUnlock, { d with flag := v })
  | .writeUnlock => some (.idle, { d with m := none })

variable [DecidableEq ι]

/-- The threads, with `flag` not set. -/
def sys : Lts (Conf ι Pc (Globals ι)) (ι × Choice) :=
  threads next (fun _ => .idle) (· = ⟨false, none⟩)

variable {t u : ι} {l l' : Pc} {d d' : Globals ι} {b : Choice} {c : Conf ι Pc (Globals ι)}

/-! ## Steps -/

omit [DecidableEq ι] in
theorem lockM_eq_some (h : lockM t d l = some (l', d')) :
    d.m = none ∧ l' = l ∧ d' = { d with m := some t } := by
  unfold lockM at h
  split at h
  · next hm =>
      cases h
      exact ⟨hm, rfl, rfl⟩
  · cases h

omit [DecidableEq ι] in
theorem mutexStep_lockM (h : lockM t d l = some (l', d')) (hl : l.holds = true) :
    MutexStep t false d.m l'.holds d'.m := by
  obtain ⟨hm, rfl, rfl⟩ := lockM_eq_some h
  rw [hm, hl]
  exact .lock

omit [DecidableEq ι] in
/-- What a step does to `m`. -/
theorem mutexStep (h : next t l d b = some (l', d')) : MutexStep t l.holds d.m l'.holds d'.m := by
  cases l with
  | idle =>
      cases b <;> cases h <;> exact .stay false d.m
  | lock | relock | writeLock v => exact mutexStep_lockM h rfl
  | test =>
      cases h
      cases d.flag <;> exact .stay true d.m
  | unlock | destroy | writeUnlock =>
      cases h
      exact .unlock d.m
  | sleep =>
      cases h
      exact .stay false d.m
  | write v =>
      cases h
      exact .stay true d.m

omit [DecidableEq ι] in
/-- `flag` is written by the owner of `m` only. -/
theorem flag_step (h : next t l d b = some (l', d')) : d'.flag = d.flag ∨ l.holds = true := by
  cases l with
  | idle => cases b <;> cases h <;> exact .inl rfl
  | lock | relock | writeLock v =>
      obtain ⟨-, -, rfl⟩ := lockM_eq_some h
      exact .inl rfl
  | sleep =>
      cases h
      exact .inl rfl
  | test | unlock | destroy | write v | writeUnlock => exact .inr rfl

/-! ## Safety -/

/-- What holds at the places of thread `t`. -/
def Assert (t : ι) (l : Pc) (d : Globals ι) : Prop :=
  (l.holds = true ↔ d.m = some t) ∧ (l = .destroy → d.flag = true)

theorem assert_reach (h : sys.Reachable c) (t : ι) : Assert t (c.loc t) c.shared := by
  refine (Threads.invariant (I := fun _ => True) (A := Assert) ?_ ?_ ?_ h).2 t
  · rintro d rfl
    exact ⟨trivial, fun t => ⟨⟨nofun, nofun⟩, nofun⟩⟩
  · rintro t l d b l' d' - ⟨hm, hd⟩ hs
    refine ⟨trivial, (mutexStep hs).own hm, ?_⟩
    rintro rfl
    cases l with
    | test =>
        obtain ⟨he, rfl⟩ := Prod.mk.inj (Option.some.inj hs)
        by_contra hf
        rw [if_neg hf] at he
        cases he
    | idle => cases b <;> cases hs
    | lock | relock | writeLock v =>
        obtain ⟨-, he, -⟩ := lockM_eq_some hs
        cases he
    | unlock | sleep | destroy | write v | writeUnlock => cases hs
  · rintro t u l k d b k' d' hne - ⟨hm, hd⟩ ⟨hu, -⟩ hs
    refine ⟨(mutexStep hs).other hu hne hm, ?_⟩
    rintro rfl
    rcases flag_step hs with hf | hk
    · rw [hf]
      exact hd rfl
    · have he := (hu.mp hk).symm.trans (hm.mp rfl)
      exact absurd (Option.some.inj he) hne

/-- wait_for_flag tests `flag`, and returns, while it holds `m`; when it returns `flag` is set;
    and it does not hold `m` while it sleeps. -/
theorem waits (h : sys.Reachable c) (t : ι) :
    (c.loc t = .test → c.shared.m = some t) ∧
    (c.loc t = .destroy → c.shared.m = some t ∧ c.shared.flag = true) ∧
    (c.loc t = .sleep → c.shared.m ≠ some t) := by
  obtain ⟨hm, hd⟩ := assert_reach h t
  refine ⟨fun hl => hm.mp (by rw [hl]; rfl), fun hl => ⟨hm.mp (by rw [hl]; rfl), hd hl⟩,
    fun hl ho => ?_⟩
  have hh := hm.mpr ho
  rw [hl] at hh
  cases hh

/-! ## Progress -/

/-- `flag` is set, and nobody is going to clear it. -/
def Raised (c : Conf ι Pc (Globals ι)) : Prop :=
  c.shared.flag = true ∧ ∀ t, c.loc t ≠ .writeLock false ∧ c.loc t ≠ .write false

/-- The steps a call has left once `flag` is set. -/
def Pc.left : Pc → ℕ
  | .idle => 0
  | .destroy | .writeUnlock => 1
  | .test | .write _ => 2
  | .lock | .relock | .writeLock _ => 3
  | .sleep => 4
  | .unlock => 5

omit [DecidableEq ι] in
/-- A step of a call with `flag` set. -/
theorem next_raised (hl : l ≠ .idle) (hf : d.flag = true)
    (hw : l ≠ .writeLock false ∧ l ≠ .write false) (h : next t l d b = some (l', d')) :
    l'.left < l.left ∧ d'.flag = true ∧ l' ≠ .writeLock false ∧ l' ≠ .write false := by
  cases l with
  | idle => exact absurd rfl hl
  | lock | relock =>
      obtain ⟨-, rfl, rfl⟩ := lockM_eq_some h
      exact ⟨by decide, hf, nofun, nofun⟩
  | writeLock v =>
      obtain ⟨-, rfl, rfl⟩ := lockM_eq_some h
      refine ⟨Nat.lt_succ_self 2, hf, nofun, ?_⟩
      rintro ⟨⟩
      exact hw.1 rfl
  | test =>
      simp only [next, hf, if_true] at h
      cases h
      exact ⟨by decide, hf, nofun, nofun⟩
  | unlock | sleep | destroy | writeUnlock =>
      cases h
      exact ⟨by decide, hf, nofun, nofun⟩
  | write v =>
      cases h
      cases v with
      | true => exact ⟨by decide, rfl, nofun, nofun⟩
      | false => exact absurd rfl hw.2

/-- Some call can go on: the one that owns `m`, or any. -/
theorem next_of_busy (h : sys.Reachable c) (ht : c.loc t ≠ .idle) :
    ∃ u, c.loc u ≠ .idle ∧ next u (c.loc u) c.shared .wait ≠ none := by
  cases hm : c.shared.m with
  | some u =>
      have hu := (assert_reach h u).1.mpr hm
      cases hl : c.loc u with
      | test | unlock | destroy | write v | writeUnlock =>
          refine ⟨u, by rw [hl]; nofun, ?_⟩
          rw [hl]
          nofun
      | idle | lock | sleep | relock | writeLock v =>
          rw [hl] at hu
          cases hu
  | none =>
      refine ⟨t, ht, ?_⟩
      cases hl : c.loc t with
      | lock | relock | writeLock v =>
          simp only [next, lockM, hm]
          nofun
      | idle | test | unlock | sleep | destroy | write v | writeUnlock => nofun

variable [Fintype ι]

/-- With `flag` set and nobody about to clear it, the calls in progress come to their ends. -/
theorem returns (h : sys.Reachable c) (hr : Raised c) :
    sys.Finishes (Threads.Busy (· = .idle)) (fun c => ∀ t, c.loc t = .idle)
      (sumAt Pc.left c.loc) c := by
  refine Threads.finishes (P := fun c => sys.Reachable c ∧ Raised c) (κ := fun _ => 0)
    ?_ ?_ ?_ ⟨h, hr⟩
  · rintro c t b c' ⟨hc, hr⟩ hl hs
    refine ⟨.next hc trivial hs, ?_⟩
    obtain ⟨l, d, hn, rfl⟩ := Threads.step_eq_some hs
    obtain ⟨-, hf, hw⟩ := next_raised hl hr.1 (hr.2 t) hn
    exact ⟨hf, forall_update (P := fun l : Pc => l ≠ .writeLock false ∧ l ≠ .write false) hr.2 hw⟩
  · rintro c t b l d ⟨-, hr⟩ hl hn
    exact (next_raised hl hr.1 (hr.2 t) hn).1
  · rintro c t ⟨hc, -⟩ ht
    obtain ⟨u, hu, hn⟩ := next_of_busy hc ht
    exact ⟨u, .wait, hu, hn⟩

/-- **wait_for_flag waits for the flag, and no longer.** In every reachable state: a call tests
    `flag` and returns while it holds `m`, does not hold `m` while it sleeps, and returns only
    while `flag` is set. If `flag` is set and nobody is about to clear it, and no new call or
    writer comes, the calls in progress make no more steps than they have left (five or fewer
    each), in any order, and when none can go on all of them have returned. -/
theorem wait_for_flag_correct (h : sys.Reachable c) :
    (∀ t, (c.loc t = .test → c.shared.m = some t) ∧
      (c.loc t = .destroy → c.shared.m = some t ∧ c.shared.flag = true) ∧
      (c.loc t = .sleep → c.shared.m ≠ some t)) ∧
    (Raised c → sys.Finishes (Threads.Busy (· = .idle)) (fun c => ∀ t, c.loc t = .idle)
      (sumAt Pc.left c.loc) c) :=
  ⟨waits h, returns h⟩

/-- Thread `false` has seen `flag` cleared and sleeps; thread `true` has set it. -/
def asleepRaised : Conf Bool Pc (Globals Bool) :=
  (sys.exec Lts.anyStep ⟨fun _ => .idle, ⟨false, none⟩⟩
    [(false, .wait), (false, .wait), (false, .wait), (false, .wait), (true, .write true),
      (true, .wait), (true, .wait), (true, .wait)]).get (by decide)

theorem wait_for_flag_correct_asleepRaised :
    asleepRaised.loc false = .sleep ∧ asleepRaised.shared.m ≠ some false ∧
      sys.Finishes (Threads.Busy (· = .idle)) (fun c => ∀ t, c.loc t = .idle)
        (sumAt Pc.left asleepRaised.loc) asleepRaised := by
  have hc : sys.Reachable asleepRaised :=
    .exec _ (.start ⟨rfl, rfl⟩) (Option.some_get _).symm
  obtain ⟨hsafe, hends⟩ := wait_for_flag_correct hc
  have hl : asleepRaised.loc false = .sleep := by decide
  exact ⟨hl, (hsafe false).2.2 hl, hends ⟨by decide, by decide⟩⟩

end CppConcurrency.WaitForFlag
