/-
  LevelMutex: who may unlock.

  unlock() compares two numbers: it throws unless the caller's `thread_level` is the level of
  the mutex. That the caller holds the mutex is its own obligation, as for a std::mutex; an
  unlock() that passes the check without it goes on to change levels and to release what
  somebody else may hold (undefined for a std::mutex, which the model sets free).

  Here unlock() may be called by anybody, and push_back may fail (all runs, not only the
  disciplined ones).
  * `Refused` says that a call of unlock() ends in a throw that changes nothing, whatever the
    other threads do while it runs.
  * `unlock_refused`: a call by a thread that does not hold the mutex is refused exactly when
    the two numbers differ; and all such calls of all runs are refused exactly when the levels
    are pairwise distinct and not 0.

  For the second part a run is followed by a `Shadow`, a state that satisfies the invariant of
  disciplined runs: it lacks the mutexes that a failed push_back has left locked, and a thread
  in it stays quiet while its original has called unlock() and not yet passed the check.
-/
import CppConcurrency.LevelMutex.Hierarchy

namespace CppConcurrency.LevelMutex

open Concur

variable {ι μ : Type} {level : μ → UInt64}

section Steps

variable [DecidableEq ι] [DecidableEq μ] {s s' : St ι μ} {t : ι}

/-! ## A refused call -/

/-- `t` calls unlock() of `m` in `s`. Whatever the other threads do (`others`) before `t` comes
    to the check, the check throws: `t` is as it was before the call but for the exception, and
    all else is as the others have left it. -/
def Refused (level : μ → UInt64) (s : St ι μ) (t : ι) (m : μ) : Prop :=
  ∃ s₀, step level s (.callUnlock t m) = some s₀ ∧
    ∀ others s₁, (∀ a ∈ others, t ≠ a.thread) →
      (sys level).exec Lts.anyStep s₀ others = some s₁ →
        run level s₁ t =
          some (s₁.put t { s.th t with pc := .idle (.logicError hierarchyViolated) })

theorem refused_iff (hq : (s.th t).Quiet) (m : μ) :
    Refused level s t m ↔ (s.th t).threadLevel ≠ level m := by
  constructor
  · rintro ⟨s₀, hcall, hrun⟩ heq
    cases (call_eq_some hcall).2
    have h := hrun [] _ (by simp) rfl
    simp only [run, put_self, heq, ne_eq, not_true_eq_false, if_false, Option.some.injEq] at h
    have hth := congrArg (fun u => (u.th t).pc) h
    simp only [put_self, reduceCtorEq] at hth
  · intro hne
    refine ⟨_, call_of_quiet hq _, fun others s₁ ho hs => ?_⟩
    have hth := exec_other ho hs
    rw [put_self] at hth
    simp only [run, hth, if_pos hne]

/-! ## Shadows -/

/-- `y` is a shadow of `x`: it may hold other mutexes, and it may be quiet where `x` is inside
    unlock(), before the check. -/
structure Shade (x y : Thread μ) : Prop where
  threadLevel : y.threadLevel = x.threadLevel
  pc : y.pc = x.pc ∨ y.Quiet ∧ (x.Quiet ∨ ∃ m, x.pc = .unlockCheck m)

omit [DecidableEq μ] in
theorem Shade.quiet {x y : Thread μ} (h : Shade x y) (hx : x.Quiet) : y.Quiet := by
  rcases h.pc with hpc | ⟨hy, -⟩
  · obtain ⟨last, hlast⟩ := hx
    exact ⟨last, hpc.trans hlast⟩
  · exact hy

omit [DecidableEq μ] in
theorem Shade.same_pc {x y : Thread μ} (h : Shade x y) {p : Pc μ} (hx : x.pc = p)
    (hp : (∀ last, p ≠ .idle last) ∧ ∀ m, p ≠ .unlockCheck m) : y.pc = p := by
  rcases h.pc with hpc | ⟨-, ⟨last, hlast⟩ | ⟨m, hm⟩⟩
  · exact hpc.trans hx
  · exact absurd (hx.symm.trans hlast) (hp.1 last)
  · exact absurd (hx.symm.trans hm) (hp.2 m)

omit [DecidableEq μ] in
/-- At the same statement. -/
theorem Shade.alike {pc : Pc μ} {l l' : UInt64} {xs ys : List μ} (hl : l' = l) :
    Shade ⟨pc, l, xs⟩ ⟨pc, l', ys⟩ :=
  ⟨hl, .inl rfl⟩

/-- Every thread of `d` is a shadow, and what it owns in `d` it owns in `s`. -/
structure Shadow (s d : St ι μ) : Prop where
  th : ∀ t, Shade (s.th t) (d.th t)
  owner : ∀ m t, d.owner m = some t → s.owner m = some t
  prevLevels : d.prevLevels = s.prevLevels

section Shadows

variable {d : St ι μ}

omit [DecidableEq μ] in
theorem Shadow.put_th (h : Shadow s d) {x y : Thread μ} (hxy : Shade x y) (u : ι) :
    Shade ((s.put t x).th u) ((d.put t y).th u) := by
  by_cases hu : u = t
  · subst hu
    rw [put_self, put_self]
    exact hxy
  · rw [put_other hu, put_other hu]
    exact h.th u

omit [DecidableEq μ] in
theorem Shadow.put (h : Shadow s d) {x y : Thread μ} (hxy : Shade x y) :
    Shadow (s.put t x) (d.put t y) :=
  ⟨h.put_th hxy, h.owner, h.prevLevels⟩

omit [DecidableEq ι] [DecidableEq μ] in
theorem Shadow.free (h : Shadow s d) {m : μ} (hm : s.owner m = none) : d.owner m = none := by
  rw [Option.eq_none_iff_forall_ne_some]
  intro t ht
  rw [h.owner m t ht] at hm
  cases hm

omit [DecidableEq μ] in
/-- Only the original moves. -/
theorem Shadow.stay (h : Shadow s d) {x : Thread μ} (hx : Shade x (d.th t)) :
    Shadow (s.put t x) d := by
  have hput := h.put (t := t) hx
  rwa [show d.put t (d.th t) = d by rw [St.put, Function.update_eq_self]] at hput

theorem Shadow.update_owner (h : Shadow s d) {x y : Thread μ} (hxy : Shade x y) (m : μ)
    (o : Option ι) : Shadow { s.put t x with owner := Function.update s.owner m o }
      { d.put t y with owner := Function.update d.owner m o } where
  th := h.put_th hxy
  owner m' u hu := by
    by_cases hne : m' = m
    · subst hne
      simp only [Function.update_self] at hu ⊢
      exact hu
    · simp only [Function.update_of_ne hne] at hu ⊢
      exact h.owner m' u hu
  prevLevels := h.prevLevels

omit [DecidableEq μ] in
theorem Shadow.put_prevLevels (h : Shadow s d) {x y : Thread μ} (hxy : Shade x y)
    (l : μ → List UInt64) :
    Shadow { s.put t x with prevLevels := l } { d.put t y with prevLevels := l } :=
  ⟨h.put_th hxy, h.owner, rfl⟩

/-- A thread and its shadow execute the same statement alike. -/
theorem run_shadow (h : Shadow s d) (hpc : (d.th t).pc = (s.th t).pc)
    (hs : run level s t = some s') : ∃ d', run level d t = some d' ∧ Shadow s' d' := by
  have hl := (h.th t).threadLevel
  have hprev := h.prevLevels
  suffices hm : ∃ d', Moves level d t d' ∧ Shadow s' d' by
    obtain ⟨d', hm, hsh⟩ := hm
    exact ⟨d', run_of_moves hm, hsh⟩
  cases moves_of_run hs with
  | refused via m hp hle =>
      exact ⟨_, .refused via m (hpc.trans hp) (hl ▸ hle), h.put (.alike hl)⟩
  | passed via m hp hlt =>
      exact ⟨_, .passed via m (hpc.trans hp) (hl ▸ hlt), h.put (.alike hl)⟩
  | acquired via m hp hfree =>
      refine ⟨_, .acquired via m (hpc.trans hp) (h.free hfree), ?_⟩
      exact h.update_owner (.alike hl) m _
  | pushed via m hp =>
      refine ⟨_, .pushed via m (hpc.trans hp), ?_⟩
      rw [hl, hprev]
      exact h.put_prevLevels (.alike hl) _
  | raised via m hp =>
      exact ⟨_, .raised via m (hpc.trans hp), h.put (.alike rfl)⟩
  | unlockRefused m hp hne =>
      exact ⟨_, .unlockRefused m (hpc.trans hp) (hl ▸ hne), h.put (.alike hl)⟩
  | unlockPassed m hp heq =>
      exact ⟨_, .unlockPassed m (hpc.trans hp) (hl.trans heq), h.put (.alike hl)⟩
  | popEmpty m hp hlast =>
      exact ⟨_, .popEmpty m (hpc.trans hp) (hprev ▸ hlast), h.put (.alike hl)⟩
  | popped m p hp hlast =>
      refine ⟨_, .popped m p (hpc.trans hp) (hprev ▸ hlast), ?_⟩
      rw [hprev]
      exact h.put_prevLevels (.alike hl) _
  | wasReset m p hp =>
      exact ⟨_, .wasReset m p (hpc.trans hp), h.put (.alike rfl)⟩
  | unlocked m hp =>
      refine ⟨_, .unlocked m (hpc.trans hp), ?_⟩
      exact h.update_owner (.alike hl) m _

/-- Two distinct mutexes have distinct levels, and none has the level of a thread that holds
    nothing. -/
def Distinct (level : μ → UInt64) : Prop := Function.Injective level ∧ ∀ m, level m ≠ 0

omit [DecidableEq ι] [DecidableEq μ] in
/-- The only mutex whose level is the top of a chain is the one on top of it. -/
theorem Distinct.eq_cons (hl : Distinct level) {ms : List μ} {m : μ}
    (h : topLevel level ms = level m) : ∃ ms', ms = m :: ms' := by
  cases ms with
  | nil => exact absurd h.symm (hl.2 m)
  | cons a ms => exact ⟨ms, by rw [hl.1 h]⟩

/-- A failed push_back leaves the mutex locked; the shadow gives it back. -/
theorem pushFails_shadow (hd : Inv level d) (h : Shadow s d) {via : Via} {m : μ}
    (hpc : (s.th t).pc = .pushBack via m) :
    Inv level { d.put t { d.th t with pc := .idle .void, held := (d.th t).held.erase m } with
      owner := Function.update d.owner m none } ∧
    Shadow (s.put t { s.th t with pc := .idle .badAlloc })
      { d.put t { d.th t with pc := .idle .void, held := (d.th t).held.erase m } with
        owner := Function.update d.owner m none } := by
  have hdpc := (h.th t).same_pc hpc ⟨by simp, by simp⟩
  have ht := hd.thread t
  rw [ThreadInv, hdpc] at ht
  refine ⟨inv_mtxUnlock hd ht.1 ht.2, ?_, fun m' u hu => ?_, h.prevLevels⟩
  · exact h.put_th ⟨(h.th t).threadLevel, .inr ⟨⟨.void, rfl⟩, .inl ⟨.badAlloc, rfl⟩⟩⟩
  · by_cases hne : m' = m
    · subst hne
      simp only [Function.update_self, reduceCtorEq] at hu
    · simp only [Function.update_of_ne hne] at hu
      exact h.owner m' u hu

omit [DecidableEq μ] in
theorem call_shadow (h : Shadow s d) {pc : Pc μ} (hs : call s t pc = some s') :
    ∃ d', call d t pc = some d' ∧ Shadow s' d' := by
  obtain ⟨hq, rfl⟩ := call_eq_some hs
  exact ⟨_, call_of_quiet ((h.th t).quiet hq) pc, h.put (.alike (h.th t).threadLevel)⟩

omit [DecidableEq ι] [DecidableEq μ] in
/-- A quiet shadow with the level of `m` holds `m` on top. -/
theorem Shadow.eq_cons (hl : Distinct level) (hd : Inv level d) (h : Shadow s d)
    (hq : (d.th t).Quiet) {m : μ} (heq : (s.th t).threadLevel = level m) :
    Stacked level d.prevLevels (d.th t).held ∧ ∃ ms, (d.th t).held = m :: ms := by
  obtain ⟨last, hidle⟩ := hq
  have ht := hd.thread t
  rw [ThreadInv, hidle] at ht
  have htop : topLevel level (d.th t).held = level m :=
    ht.2.symm.trans ((h.th t).threadLevel.trans heq)
  exact ⟨ht.1, hl.eq_cons htop⟩

/-- A check that passes passes for the latest mutex of the shadow, as if its holder had
    called. -/
theorem unlockCheck_shadow (hl : Distinct level) (hd : Inv level d) (h : Shadow s d) {m : μ}
    (hpc : (s.th t).pc = .unlockCheck m) (hq : (d.th t).Quiet)
    (hs : run level s t = some s') : ∃ d', Inv level d' ∧ Shadow s' d' := by
  have hshade := h.th t
  simp only [run, hpc] at hs
  split at hs
  · cases hs
    exact ⟨d, hd, h.stay ⟨hshade.threadLevel, .inr ⟨hq, .inl ⟨_, rfl⟩⟩⟩⟩
  · next heq =>
      cases hs
      have htop := h.eq_cons hl hd hq (not_not.mp heq)
      exact ⟨d.put t { d.th t with pc := .popBack m }, hd.put rfl htop,
        h.put (.alike hshade.threadLevel)⟩

theorem step_shadow (hl : Distinct level) (hd : Inv level d) (h : Shadow s d) {a : Act ι μ}
    (hs : step level s a = some s') : ∃ d', Inv level d' ∧ Shadow s' d' := by
  cases a with
  | callLock t m | callTryLock t m =>
      obtain ⟨d', hcall, hsh⟩ := call_shadow h hs
      exact ⟨d', inv_call hd hcall id, hsh⟩
  | callUnlock t m =>
      obtain ⟨hq, rfl⟩ := call_eq_some hs
      have hshade := h.th t
      exact ⟨d, hd, h.stay ⟨hshade.threadLevel, .inr ⟨hshade.quiet hq, .inr ⟨m, rfl⟩⟩⟩⟩
  | run t =>
      rcases (h.th t).pc with hpc | ⟨hq, ⟨last, hidle⟩ | ⟨m, hm⟩⟩
      · obtain ⟨d', hrun, hsh⟩ := run_shadow h hpc hs
        exact ⟨d', inv_run hd hrun, hsh⟩
      · simp only [step, run, hidle, reduceCtorEq] at hs
      · exact unlockCheck_shadow hl hd h hm hq hs
  | tryFails t =>
      obtain ⟨m, hpc, rfl⟩ := tryFails_eq_some hs
      have hdpc := (h.th t).same_pc hpc ⟨by simp, by simp⟩
      have ht := hd.thread t
      rw [ThreadInv, hdpc] at ht
      exact ⟨d.put t { d.th t with pc := .idle (.bool false) }, hd.put rfl ht.1,
        h.put (.alike (h.th t).threadLevel)⟩
  | pushFails t =>
      obtain ⟨via, m, hpc, rfl⟩ := pushFails_eq_some hs
      exact ⟨_, pushFails_shadow hd h hpc⟩

theorem shadow_reach (hl : Distinct level) (h : (sys level).Reachable s) :
    ∃ d, Inv level d ∧ Shadow s d := by
  refine h.invariant (I := fun s => ∃ d, Inv level d ∧ Shadow s d) (fun s hs => ?_) ?_
  · cases (hs : s = initial)
    exact ⟨initial, inv_initial, fun _ => .alike rfl, fun _ _ hm => hm, rfl⟩
  · rintro s a s' - ⟨d, hd, hsh⟩ - hs
    exact step_shadow hl hd hsh hs

/-- With distinct levels a thread between two calls only has the level of what it owns. -/
theorem owner_of_level (hl : Distinct level) (h : (sys level).Reachable s)
    (hq : (s.th t).Quiet) {m : μ} (heq : (s.th t).threadLevel = level m) :
    s.owner m = some t := by
  obtain ⟨d, hd, hsh⟩ := shadow_reach hl h
  obtain ⟨-, ms, hms⟩ := hsh.eq_cons hl hd ((hsh.th t).quiet hq) heq
  have hmem : m ∈ (d.th t).held := hms ▸ List.mem_cons_self
  exact hsh.owner m t ((hd.owns m t).mpr hmem)

end Shadows

/-! ## Which calls are refused -/

/-- A thread alone can lock any mutex of a level above 0. -/
theorem exists_locked (t : ι) {m : μ} (hm : level m ≠ 0) :
    ∃ s, (sys level).Reachable s ∧ s.th t = ⟨.idle .void, level m, [m]⟩ ∧
      s.owner = Function.update (fun _ => none) m (some t) := by
  have hlow : ¬ (0 : UInt64) ≥ level m := by
    rw [ge_iff_le, UInt64.not_le]
    exact UInt64.pos_iff_ne_zero.mpr hm
  have hexec : ∃ s, (sys level).exec Lts.anyStep (initial : St ι μ)
      [.callLock t m, .run t, .run t, .run t, .run t] = some s ∧
        s.th t = ⟨.idle .void, level m, [m]⟩ ∧
        s.owner = Function.update (fun _ => none) m (some t) := by
    simp [Lts.exec, Lts.anyStep, sys, step, call, run, acquire, initial, hlow, St.put, Via.success]
  obtain ⟨s, hs, hth, ho⟩ := hexec
  exact ⟨s, .exec _ (.start rfl) hs, hth, ho⟩

/-- **Who may unlock.** For every thread `t` and all runs: an unlock() of a mutex that `t` does
    not own is refused exactly when the `thread_level` of `t` is not the level of the mutex;
    and all of them are refused exactly when the levels are pairwise distinct and not 0. -/
theorem unlock_refused (level : μ → UInt64) (t : ι) :
    (∀ s m, (sys level).Reachable s → (s.th t).Quiet → s.owner m ≠ some t →
      (Refused level s t m ↔ (s.th t).threadLevel ≠ level m)) ∧
    ((∀ s m, (sys level).Reachable s → (s.th t).Quiet → s.owner m ≠ some t →
      Refused level s t m) ↔ Distinct level) := by
  refine ⟨fun s m _ hq _ => refused_iff hq m, fun h => ?_, fun hl s m hs hq hm => ?_⟩
  · have hpos : ∀ m, level m ≠ 0 := by
      intro m
      have hr := h initial m (.start rfl) ⟨.fresh, rfl⟩ (by simp [initial])
      exact ((refused_iff ⟨.fresh, rfl⟩ m).mp hr).symm
    refine ⟨fun m m' he => ?_, hpos⟩
    by_contra hne
    -- `t` locks `m` and unlocks `m'`
    obtain ⟨s, hs, hth, ho⟩ := exists_locked t (hpos m)
    have hq : (s.th t).Quiet := ⟨.void, by rw [hth]⟩
    have hfree : s.owner m' ≠ some t := by
      rw [ho, Function.update_of_ne (Ne.symm hne)]
      simp
    have hlevel := (refused_iff hq m').mp (h s m' hs hq hfree)
    rw [hth] at hlevel
    exact hlevel he
  · refine (refused_iff hq m).mpr fun heq => hm ?_
    exact owner_of_level hl hs hq heq

/-- Two mutexes, of the levels 10 and 20. -/
def twoLevels (b : Bool) : UInt64 := if b then 20 else 10

/-- Thread 0 has locked the higher one. -/
def heldByOther : St ℕ Bool :=
  ((sys twoLevels).exec Lts.anyStep initial
    [.callLock 0 true, .run 0, .run 0, .run 0, .run 0]).get (by decide)

/-- Thread 1 tries to unlock it. -/
theorem unlock_refused_heldByOther :
    heldByOther.owner true = some 0 ∧ Refused twoLevels heldByOther 1 true := by
  have hl : Distinct twoLevels := ⟨by decide, by decide⟩
  have hs : (sys twoLevels).Reachable heldByOther :=
    .exec _ (.start rfl) (Option.some_get _).symm
  refine ⟨by decide, ?_⟩
  exact (unlock_refused twoLevels 1).2.mpr hl _ true hs ⟨.fresh, by decide⟩ (by decide)

/-- The objects of LevelMutex_use.cpp, under their names. -/
inductive Mtx where
  | mtx1
  | mtx2
  | mtx3
  | mtx4
  | mtx5
  deriving DecidableEq, Repr

/-- Their levels. -/
def Mtx.mutexLevel : Mtx → UInt64
  | .mtx1 => 10
  | .mtx2 => 10
  | .mtx3 => 30
  | .mtx4 => 40
  | .mtx5 => 50

/-- Thread 0 locks mtx1, and thread 1 locks mtx2, which has the same level. -/
def equalLevels : List (Act ℕ Mtx) :=
  [.callLock 0 .mtx1, .run 0, .run 0, .run 0, .run 0,
   .callLock 1 .mtx2, .run 1, .run 1, .run 1, .run 1]

/-- Thread 0 unlocks mtx2: it loses the level of mtx1, and mtx2 is free with nothing saved. -/
theorem unlock_not_refused :
    ∃ s s' : St ℕ Mtx, (sys Mtx.mutexLevel).exec Disciplined initial equalLevels = some s ∧
      (s.th 0).Quiet ∧ ¬ Refused Mtx.mutexLevel s 0 .mtx2 ∧
      (sys Mtx.mutexLevel).exec Lts.anyStep s
        [.callUnlock 0 .mtx2, .run 0, .run 0, .run 0, .run 0] = some s' ∧
      (s'.th 0).pc = .idle .void ∧
      ((s.th 0).threadLevel, s.prevLevels .mtx2, s.owner .mtx2) = (10, [0], some 1) ∧
      ((s'.th 0).threadLevel, s'.prevLevels .mtx2, s'.owner .mtx2) = (0, [], none) := by
  refine ⟨_, _, rfl, ⟨.void, rfl⟩, fun h => ?_, rfl, rfl, rfl, rfl⟩
  exact (refused_iff ⟨.void, rfl⟩ Mtx.mtx2).mp h (by decide)

end Steps

end CppConcurrency.LevelMutex
