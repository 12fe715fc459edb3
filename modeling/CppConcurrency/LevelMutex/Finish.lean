/-
  Programs of lock_guard scopes on LevelMutex come to their ends.

  Model. That of `LevelMutex.Scopes`: any number of threads run programs of scopes, one after
  another, on shared mutexes of any levels. `Going` lets the programs in progress go on, and no
  new one begin.

  Proved:
  * `scopes_finish`: in every reachable state, while some program is in progress some step of a
    program can be made, also with loops and whatever order the mutexes are asked for in. And if
    what the threads have in front of them has no loops, then the number of steps they can still
    make, in any order, is bounded, and when none can be made all programs are over and all
    mutexes are free.

  The second part takes a measure (`Ctl.cost`, `Pc.left`) that each step makes smaller, a failed
  lock() and the unwinding it starts included. The first is `Ordered.exists_unblocked_owner`: who
  blocks has to be above all that it holds, so that not all can be blocked.
-/
import CppConcurrency.LevelMutex.Scopes
import CppConcurrency.LevelMutex.Hierarchy
import CppConcurrency.Lib.Count
import CppConcurrency.Lib.Progress

namespace CppConcurrency.LevelMutex

open Concur

variable {ι μ : Type}

/-! ## What is left to do -/

/-- There are no loops in a program. -/
def Code.loopFree : Code μ → Bool
  | .skip | .throws => true
  | .seq p q | .branch p q | .attempt p q => p.loopFree && q.loopFree
  | .loop _ => false
  | .scope _ p => p.loopFree

def Frame.loopFree : Frame μ → Bool
  | .next p | .handler p => p.loopFree
  | .guard _ _ => true

/-- There are no loops in what a thread has in front of it. -/
def Ctl.loopFree : Ctl μ → Bool
  | .done | .terminated => true
  | .eval p k | .locking _ p _ k => p.loopFree && k.all Frame.loopFree
  | .over _ k | .unlocking _ _ _ k | .left _ _ k => k.all Frame.loopFree

/-- The statements of a member that are left, the next one included. -/
def Pc.left : Pc μ → ℕ
  | .idle _ => 0
  | .raise _ _ | .mtxUnlock _ => 1
  | .pushBack _ _ | .reset _ _ => 2
  | .mtxLock _ | .mtxTryLock _ | .popBack _ => 3
  | .check _ _ | .unlockCheck _ => 4

/-- The steps that a program without loops makes at most. A scope makes 13 of its own: the calls
    of lock() and unlock(), their four statements each, and one after each of them, and `left`. -/
def Code.cost : Code μ → ℕ
  | .skip | .throws => 1
  | .seq p q | .attempt p q => p.cost + q.cost + 2
  | .branch p q => p.cost + q.cost + 1
  | .loop _ => 0
  | .scope _ p => p.cost + 13

/-- The steps that the frames of a program make at most, the last one of the program included. -/
def framesCost : List (Frame μ) → ℕ
  | [] => 1
  | .next p :: k | .handler p :: k => p.cost + 1 + framesCost k
  | .guard _ _ :: k => 7 + framesCost k

/-- The steps that a thread has in front of it, outside the member it is in. -/
def Ctl.cost : Ctl μ → ℕ
  | .done | .terminated => 0
  | .eval p k => p.cost + framesCost k
  | .locking _ p _ k => p.cost + framesCost k + 8
  | .over _ k => framesCost k
  | .unlocking _ _ _ k => framesCost k + 2
  | .left _ _ k => framesCost k + 1

/-- The steps that a thread has in front of it. -/
def stepsLeft (x : Ctl μ × Thread μ) : ℕ := x.1.cost + x.2.pc.left

/-- Where a thread stands in its program, and in the member it is in. -/
def ScopeSt.at (s : ScopeSt ι μ) (t : ι) : Ctl μ × Thread μ := (s.ctl t, s.mtx.th t)

/-- No program begins. -/
def Going (_ : ScopeSt ι μ) : ScopeAct ι μ → Prop
  | .start _ _ => False
  | _ => True

instance (s : ScopeSt ι μ) : (a : ScopeAct ι μ) → Decidable (Going s a)
  | .start _ _ => isFalse id
  | .choose _ _ => isTrue trivial
  | .ctl _ => isTrue trivial
  | .run _ => isTrue trivial

/-! ## Every step leaves less to do -/

variable [DecidableEq ι] {level : μ → UInt64} {s s' : ScopeSt ι μ} {t : ι}

/-- A step of thread `t` that leaves it less to do, and no loops. -/
structure Falls (s s' : ScopeSt ι μ) (t : ι) : Prop where
  own : stepsLeft (s'.at t) < stepsLeft (s.at t)
  loopFree : (s'.ctl t).loopFree = true
  other : ∀ u, u ≠ t → s'.at u = s.at u

/-- The thread goes on at `c`, and may have entered a member. -/
theorem Falls.moved {c₀ c : Ctl μ} {mtx : St ι μ} (hc : s.ctl t = c₀)
    (hlt : c.cost + (mtx.th t).pc.left < c₀.cost + (s.mtx.th t).pc.left)
    (hl : c.loopFree = true) (ho : ∀ u, u ≠ t → mtx.th u = s.mtx.th u) :
    Falls s { s.goto t c with mtx := mtx } t where
  own := by
    simp only [stepsLeft, ScopeSt.at, ScopeSt.goto, Function.update_self, hc]
    exact hlt
  loopFree := by
    simp only [ScopeSt.goto, Function.update_self]
    exact hl
  other u hu := by
    simp only [ScopeSt.at, ScopeSt.goto, Function.update_of_ne hu, ho u hu]

/-- The thread goes on at `c`, outside the members. -/
theorem Falls.goto {c₀ c : Ctl μ} (hc : s.ctl t = c₀) (hlt : c.cost < c₀.cost)
    (hl : c.loopFree = true) : Falls s (s.goto t c) t :=
  Falls.moved hc (Nat.add_lt_add_right hlt _) hl fun _ _ => rfl

/-- The thread calls lock() or unlock(). -/
theorem Falls.call {c₀ c : Ctl μ} {mtx : St ι μ} {pc : Pc μ} (hc : s.ctl t = c₀)
    (hs : LevelMutex.call s.mtx t pc = some mtx) (hlt : c.cost + pc.left < c₀.cost)
    (hl : c.loopFree = true) : Falls s { s.goto t c with mtx := mtx } t := by
  obtain ⟨-, rfl⟩ := call_eq_some hs
  refine Falls.moved hc ?_ hl fun u hu => put_other hu _
  rw [put_self]
  exact Nat.lt_of_lt_of_le hlt (Nat.le_add_right _ _)

theorem choose_falls (hl : (s.ctl t).loopFree = true) {yes : Bool}
    (hs : s.choose t yes = some s') : Falls s s' t := by
  unfold ScopeSt.choose at hs
  split at hs
  case h_1 p q k hc =>
    cases hs
    rw [hc] at hl
    simp only [Ctl.loopFree, Code.loopFree, Bool.and_eq_true] at hl
    obtain ⟨⟨hp, hq⟩, hk⟩ := hl
    refine Falls.goto hc ?_ ?_
    · simp only [Ctl.cost, Code.cost]
      split <;> omega
    · simp only [Ctl.loopFree, hk, Bool.and_true]
      split
      · exact hp
      · exact hq
  case h_2 p k hc =>
    rw [hc] at hl
    cases hl
  case h_3 => cases hs

variable [DecidableEq μ]

theorem advance_falls (hl : (s.ctl t).loopFree = true) (hs : s.advance level t = some s') :
    Falls s s' t := by
  unfold ScopeSt.advance at hs
  split at hs
  case h_1 k hc | h_2 k hc =>
    cases hs
    rw [hc] at hl
    exact Falls.goto hc (Nat.lt_add_of_pos_left Nat.one_pos) hl
  case h_3 p q k hc | h_4 p q k hc =>
    cases hs
    rw [hc] at hl
    simp only [Ctl.loopFree, Code.loopFree, Bool.and_eq_true] at hl
    obtain ⟨⟨hp, hq⟩, hk⟩ := hl
    refine Falls.goto hc ?_ ?_
    · simp only [Ctl.cost, Code.cost, framesCost]
      omega
    · simp only [Ctl.loopFree, List.all_cons, Frame.loopFree, hp, hq, hk, Bool.and_true]
  case h_5 m body k hc =>
    obtain ⟨mtx, hm, rfl⟩ := Option.map_eq_some_iff.mp hs
    rw [hc] at hl
    refine Falls.call hc hm ?_ hl
    simp only [Ctl.cost, Code.cost, Pc.left]
    omega
  case h_6 m body e k hc =>
    rw [hc] at hl
    simp only [Ctl.loopFree, Bool.and_eq_true] at hl
    split at hs
    · cases hs
      refine Falls.goto hc ?_ ?_
      · simp only [Ctl.cost, framesCost]
        omega
      · simp only [Ctl.loopFree, List.all_cons, Frame.loopFree, hl.1, hl.2, Bool.and_true]
    · cases hs
      refine Falls.goto hc ?_ hl.2
      simp only [Ctl.cost]
      omega
    · cases hs
  case h_7 thrown hc =>
    cases hs
    exact Falls.goto hc Nat.one_pos rfl
  case h_8 thrown q k hc | h_9 thrown q k hc =>
    cases hs
    rw [hc] at hl
    simp only [Ctl.loopFree, List.all_cons, Frame.loopFree, Bool.and_eq_true] at hl
    cases thrown <;> refine Falls.goto hc ?_ ?_ <;>
      simp only [Ctl.cost, framesCost, Ctl.loopFree, hl.1, hl.2, Bool.and_true, if_true,
        Bool.false_eq_true, if_false] <;> omega
  case h_10 thrown m e k hc =>
    obtain ⟨mtx, hm, rfl⟩ := Option.map_eq_some_iff.mp hs
    rw [hc] at hl
    refine Falls.call hc hm ?_ hl
    simp only [Ctl.cost, framesCost, Pc.left]
    omega
  case h_11 m e thrown k hc =>
    rw [hc] at hl
    split at hs
    · cases hs
      exact Falls.goto hc (Nat.lt_succ_self _) hl
    · cases hs
      exact Falls.goto hc (Nat.succ_pos _) rfl
    · cases hs
  case h_12 e thrown k hc =>
    cases hs
    rw [hc] at hl
    exact Falls.goto hc (Nat.lt_succ_self _) hl
  case h_13 => cases hs

/-- Every statement of a member leaves one less of it. -/
theorem run_falls {mtx : St ι μ} (hl : (s.ctl t).loopFree = true)
    (hs : run level s.mtx t = some mtx) : Falls s { s with mtx := mtx } t := by
  have hother : ∀ u, u ≠ t → mtx.th u = s.mtx.th u := fun u hu => step_other (a := .run t) hs hu
  refine ⟨Nat.add_lt_add_left ?_ _, hl, fun u hu => ?_⟩
  · change (mtx.th t).pc.left < (s.mtx.th t).pc.left
    cases moves_of_run hs with
    | refused via m hpc hle | unlockRefused m hpc hne | unlockPassed m hpc heq
    | popEmpty m hpc hp | wasReset m p hpc | raised via m hpc =>
        rw [put_self, hpc]
        simp only [Pc.left, Nat.reduceLT]
    | popped m p hpc hp | pushed via m hpc | unlocked m hpc =>
        change ((s.mtx.put t _).th t).pc.left < _
        rw [put_self, hpc]
        simp only [Pc.left, Nat.reduceLT]
    | passed via m hpc hlt =>
        rw [put_self, hpc]
        cases via <;> simp only [Via.mtx, Pc.left, Nat.reduceLT]
    | acquired via m hpc hfree =>
        change ((s.mtx.put t _).th t).pc.left < _
        rw [put_self, hpc]
        cases via <;> simp only [Via.mtx, Pc.left, Nat.reduceLT]
  · simp only [ScopeSt.at, hother u hu]

/-- A step of a program is a step of one thread, which has less to do afterwards. -/
theorem scopeStep_falls (hl : ∀ t, (s.ctl t).loopFree = true) {a : ScopeAct ι μ} (hg : Going s a)
    (hs : scopeStep level s a = some s') : ∃ t, Falls s s' t := by
  cases a with
  | start t p => exact hg.elim
  | choose t yes => exact ⟨t, choose_falls (hl t) hs⟩
  | ctl t => exact ⟨t, advance_falls (hl t) hs⟩
  | run t =>
      obtain ⟨mtx, hm, rfl⟩ := Option.map_eq_some_iff.mp hs
      exact ⟨t, run_falls (hl t) hm⟩

/-! ## Some thread can go on -/

/-- A thread in the middle of a member can execute its next statement, unless that is mtx.lock()
    on a std::mutex that is owned. -/
theorem run_ne_none {s : St ι μ} (hq : ¬ (s.th t).Quiet) (hb : ¬ Blocked (want s) s.owner t)
    (htry : ∀ m, (s.th t).pc ≠ .mtxTryLock m) : run level s t ≠ none := by
  suffices hmoves : ∃ s', Moves level s t s' by
    obtain ⟨s', hs⟩ := hmoves
    rw [run_of_moves hs]
    exact Option.some_ne_none s'
  cases hpc : (s.th t).pc with
  | idle last => exact absurd ⟨last, hpc⟩ hq
  | check via m =>
      rcases UInt64.le_or_lt (level m) (s.th t).threadLevel with hle | hlt
      · exact ⟨_, .refused via m hpc hle⟩
      · exact ⟨_, .passed via m hpc hlt⟩
  | mtxLock m =>
      cases ho : s.owner m with
      | none => exact ⟨_, .acquired .lock m hpc ho⟩
      | some u => exact absurd ⟨u, m, want_eq_some.mpr hpc, ho⟩ hb
  | mtxTryLock m => exact absurd hpc (htry m)
  | pushBack via m => exact ⟨_, .pushed via m hpc⟩
  | raise via m => exact ⟨_, .raised via m hpc⟩
  | unlockCheck m =>
      by_cases heq : (s.th t).threadLevel = level m
      · exact ⟨_, .unlockPassed m hpc heq⟩
      · exact ⟨_, .unlockRefused m hpc heq⟩
  | popBack m =>
      cases hp : (s.prevLevels m).getLast? with
      | none => exact ⟨_, .popEmpty m hpc hp⟩
      | some p => exact ⟨_, .popped m p hpc hp⟩
  | reset m p => exact ⟨_, .wasReset m p hpc⟩
  | mtxUnlock m => exact ⟨_, .unlocked m hpc⟩

/-- A thread in the middle of a member. -/
theorem run_step_ne_none (hq : ¬ (s.mtx.th t).Quiet)
    (hb : ¬ Blocked (want s.mtx) s.mtx.owner t) (htry : ∀ m, (s.mtx.th t).pc ≠ .mtxTryLock m) :
    ∃ a, Going s a ∧ scopeStep level s a ≠ none := by
  refine ⟨.run t, trivial, fun hs => ?_⟩
  exact run_ne_none hq hb htry (Option.map_eq_none_iff.mp hs)

/-- A thread with a program in progress can make a step, unless it is blocked. -/
theorem exists_step (h : Clean level s) (ht : s.ctl t ≠ .done)
    (hb : ¬ Blocked (want s.mtx) s.mtx.owner t) : ∃ a, Going s a ∧ scopeStep level s a ≠ none := by
  have hstage := h.stage t
  cases hc : s.ctl t with
  | done => exact absurd hc ht
  | terminated =>
      rw [hc] at hstage
      exact hstage.elim
  | eval p k =>
      rw [hc] at hstage
      cases p with
      | branch p q | loop p =>
          refine ⟨.choose t true, trivial, ?_⟩
          simp only [scopeStep, ScopeSt.choose, hc]
          exact Option.some_ne_none _
      | scope m body =>
          refine ⟨.ctl t, trivial, ?_⟩
          simp only [scopeStep, ScopeSt.advance, hc, step, call_of_quiet hstage.quiet]
          exact Option.some_ne_none _
      | skip | throws | seq p q | attempt p q =>
          refine ⟨.ctl t, trivial, ?_⟩
          simp only [scopeStep, ScopeSt.advance, hc]
          exact Option.some_ne_none _
  | locking m body e k =>
      rw [hc] at hstage
      obtain ⟨-, -, hat⟩ := hstage
      unfold AtLock at hat
      by_cases hq : (s.mtx.th t).Quiet
      · obtain ⟨last, hpc⟩ := hq
        rw [hpc] at hat
        refine ⟨.ctl t, trivial, ?_⟩
        simp only [scopeStep, ScopeSt.advance, hc, hpc]
        cases last with
        | void | logicError what => exact Option.some_ne_none _
        | fresh | bool b | badAlloc => exact hat.elim
      · refine run_step_ne_none hq hb fun m' hpc => ?_
        rw [hpc] at hat
        exact hat
  | «over» thrown k =>
      rw [hc] at hstage
      refine ⟨.ctl t, trivial, ?_⟩
      rcases k with _ | ⟨q | q | ⟨m, e⟩, k⟩
      · simp only [scopeStep, ScopeSt.advance, hc]
        exact Option.some_ne_none _
      · simp only [scopeStep, ScopeSt.advance, hc]
        exact Option.some_ne_none _
      · simp only [scopeStep, ScopeSt.advance, hc]
        exact Option.some_ne_none _
      · simp only [scopeStep, ScopeSt.advance, hc, step, call_of_quiet hstage.quiet]
        exact Option.some_ne_none _
  | unlocking m e thrown k =>
      rw [hc] at hstage
      obtain ⟨-, -, hat⟩ := hstage
      unfold AtUnlock at hat
      by_cases hq : (s.mtx.th t).Quiet
      · obtain ⟨last, hpc⟩ := hq
        rw [hpc] at hat
        refine ⟨.ctl t, trivial, ?_⟩
        simp only [scopeStep, ScopeSt.advance, hc, hpc, hat.1]
        exact Option.some_ne_none _
      · refine run_step_ne_none hq hb fun m' hpc => ?_
        rw [hpc] at hat
        exact hat
  | left e thrown k =>
      refine ⟨.ctl t, trivial, ?_⟩
      simp only [scopeStep, ScopeSt.advance, hc]
      exact Option.some_ne_none _

omit [DecidableEq ι] [DecidableEq μ] in
/-- A thread without a program owns nothing. -/
theorem not_owner_of_done (h : Clean level s) (ht : s.ctl t = .done) (m : μ) :
    s.mtx.owner m ≠ some t := by
  intro ho
  have hmem : m ∈ (s.mtx.th t).held := (h.inv.owns m t).mp ho
  have hb : Between level (s.mtx.th t) [] := h.stage_of ht
  rw [hb.held] at hmem
  cases hmem

/-- While a program is in progress, some program can go on: if the thread is blocked, then
    there is an owner that is not, and its program is in progress, too. -/
theorem exists_going (h : Clean level s) (ht : s.ctl t ≠ .done) :
    ∃ a, Going s a ∧ scopeStep level s a ≠ none := by
  by_cases hb : Blocked (want s.mtx) s.mtx.owner t
  · obtain ⟨u, m, ho, hu⟩ := (ordered h.inv).exists_unblocked_owner hb
    exact exists_step h (fun hdone => not_owner_of_done h hdone m ho) hu
  · exact exists_step h ht hb

/-! ## All programs come to their ends -/

/-- All programs are over, and all mutexes are free. -/
def AllOver (s : ScopeSt ι μ) : Prop := (∀ t, s.ctl t = .done) ∧ ∀ m, s.mtx.owner m = none

theorem allOver_of_stuck (h : Clean level s)
    (hend : ∀ a, Going s a → (scopes level).step s a = none) : AllOver s := by
  have hdone : ∀ t, s.ctl t = .done := by
    intro t
    by_contra ht
    obtain ⟨a, hg, ha⟩ := exists_going h ht
    exact ha (hend a hg)
  refine ⟨hdone, fun m => ?_⟩
  cases ho : s.mtx.owner m with
  | none => rfl
  | some u => exact absurd ho (not_owner_of_done h (hdone u) m)

variable [Fintype ι]

/-- Programs without loops come to their ends, whatever the scheduler does. -/
theorem finishes (h : Clean level s) (hl : ∀ t, (s.ctl t).loopFree = true) :
    (scopes level).Finishes Going AllOver (sumAt stepsLeft s.at) s := by
  refine Lts.finishes_of_measure
    (P := fun s => Clean level s ∧ ∀ t, (s.ctl t).loopFree = true)
    (μ := fun s => sumAt stepsLeft s.at) ?_ ?_ ⟨h, hl⟩
  · rintro s a s' ⟨hc, hl⟩ hg hs
    obtain ⟨t, hf⟩ := scopeStep_falls hl hg hs
    refine ⟨⟨clean_step hc hs, fun u => ?_⟩, ?_⟩
    · by_cases hu : u = t
      · subst hu
        exact hf.loopFree
      · rw [show s'.ctl u = s.ctl u from congrArg Prod.fst (hf.other u hu)]
        exact hl u
    · exact sumAt_lt_sumAt hf.own fun u hu => congrArg stepsLeft (hf.other u hu)
  · rintro s ⟨hc, -⟩ hend
    exact allOver_of_stuck hc hend

/-- **Programs of scopes finish.** In every state that any number of threads reach by running
    programs of lock_guard scopes on LevelMutexes of any levels: while a program is in progress,
    a step of some program can be made; and if what the threads have in front of them has no
    loops, then every run of their programs from there is bounded, and one that cannot be
    continued has ended with all programs over and all mutexes free. -/
theorem scopes_finish (level : μ → UInt64) (s : ScopeSt ι μ) (h : (scopes level).Reachable s) :
    ((∃ t, s.ctl t ≠ .done) → ∃ a, Going s a ∧ scopeStep level s a ≠ none) ∧
    ((∀ t, (s.ctl t).loopFree = true) →
      (scopes level).Finishes Going AllOver (sumAt stepsLeft s.at) s) := by
  have hc := clean_reach h
  refine ⟨?_, finishes hc⟩
  rintro ⟨t, ht⟩
  exact exists_going hc ht

/-- Thread `false` goes through a lock(), thread `true` comes to the same mutex. -/
def fooBar : List (ScopeAct Bool Mtx) :=
  [.start false foo, .start true bar, .ctl false, .run false, .run false, .run false, .run false,
    .ctl false, .ctl true, .run true]

/-- Thread `false` is in foo() and holds mtx1, thread `true` is in bar() and blocks on it. -/
def fooBarBlocked : ScopeSt Bool Mtx :=
  ((scopes Mtx.mutexLevel).exec Lts.anyStep scopeStart fooBar).get (by decide)

theorem scopes_finish_fooBarBlocked :
    Blocked (want fooBarBlocked.mtx) fooBarBlocked.mtx.owner true ∧
      (scopes Mtx.mutexLevel).Finishes Going AllOver (sumAt stepsLeft fooBarBlocked.at)
        fooBarBlocked := by
  have hs : (scopes Mtx.mutexLevel).Reachable fooBarBlocked :=
    .exec _ (.start rfl) (Option.some_get _).symm
  have hb : Blocked (want fooBarBlocked.mtx) fooBarBlocked.mtx.owner true :=
    ⟨false, .mtx1, by decide, by decide⟩
  exact ⟨hb, (scopes_finish Mtx.mutexLevel fooBarBlocked hs).2 (by decide)⟩

end CppConcurrency.LevelMutex
