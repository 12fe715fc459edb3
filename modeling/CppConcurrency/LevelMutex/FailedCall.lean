/-
  LevelMutex: what an acquisition that ends in an exception leaves behind.

  lock() and try_lock() can throw at two places. check_level() throws before anything has
  happened. The push_back of update_level throws after the std::mutex has been taken, and
  nothing gives it back: lock() has no guard on it, and a lock_guard whose constructor throws
  has no destructor run.

  `NoTrace` says that the state at the end of the call is the one that the steps of the other
  threads alone lead to, but for the outcome, and that the caller does not own the mutex.

  Proved (`failed_acquisition`): a call that the check refuses leaves no trace, in all runs,
  unless the caller owned the mutex before; and where only owners unlock, a call that ends
  in an exception leaves no trace in no other case.
-/
import CppConcurrency.LevelMutex.Refusal

namespace CppConcurrency.LevelMutex

open Concur

variable {ι μ : Type} {level : μ → UInt64}

/-- The call has ended in an exception. -/
def Outcome.thrown : Outcome → Bool
  | .logicError _ => true
  | .badAlloc => true
  | _ => false

variable [DecidableEq ι]

/-- Only an owner calls unlock(). -/
def OwnerUnlocks (s : St ι μ) : Act ι μ → Prop
  | .callUnlock t m => s.owner m = some t
  | _ => True

instance (s : St ι μ) : (a : Act ι μ) → Decidable (OwnerUnlocks s a)
  | .callUnlock t m => inferInstanceAs (Decidable (s.owner m = some t))
  | .callLock _ _ => isTrue trivial
  | .callTryLock _ _ => isTrue trivial
  | .run _ => isTrue trivial
  | .tryFails _ => isTrue trivial
  | .pushFails _ => isTrue trivial

/-- The steps of the other threads. -/
def others (t : ι) (as : List (Act ι μ)) : List (Act ι μ) := as.filter fun a => a.thread ≠ t

variable [DecidableEq μ]

/-- The call of `t` that began in `s` and ended with `o` in `s'`, after the steps `as`, has left
    no trace: `t` does not own `m`, and but for the outcome the state is the one that the steps
    of the others lead to from `s`, with `t` as it was. -/
def NoTrace (level : μ → UInt64) (s : St ι μ) (t : ι) (m : μ) (as : List (Act ι μ)) (o : Outcome)
    (s' : St ι μ) : Prop :=
  s'.owner m ≠ some t ∧
    ∃ u, (sys level).exec Lts.anyStep s (others t as) = some u ∧
      s' = u.put t { s.th t with pc := .idle o }

variable {s s' : St ι μ} {t : ι}

/-! ## The steps of the others do not see the caller -/

theorem Moves.congr {s₁ s₂ : St ι μ} (h : Moves level s t s₁) (he : s₁ = s₂) :
    Moves level s t s₂ :=
  he ▸ h

/-- A statement of `u` does the same whatever thread `t` is at. -/
theorem Moves.put {u : ι} (hm : Moves level s u s') (hu : u ≠ t) (x : Thread μ) :
    Moves level (s.put t x) u (s'.put t x) := by
  have hth : (s.put t x).th u = s.th u := put_other hu x
  have hat : Function.update s.th t x u = s.th u := hth
  have hcomm {v w : Thread μ} : Function.update (Function.update s.th u v) t w =
      Function.update (Function.update s.th t w) u v := Function.update_comm hu v w s.th
  cases hm with
  | refused via m h hle =>
      refine Moves.congr (.refused via m (hth ▸ h) (hth ▸ hle)) ?_
      simp only [St.put, hat, hcomm]
  | passed via m h hlt =>
      refine Moves.congr (.passed via m (hth ▸ h) (hth ▸ hlt)) ?_
      simp only [St.put, hat, hcomm]
  | acquired via m h hfree =>
      refine Moves.congr (.acquired via m (hth ▸ h) hfree) ?_
      simp only [St.put, hat, hcomm]
  | pushed via m h =>
      refine Moves.congr (.pushed via m (hth ▸ h)) ?_
      simp only [St.put, hat, hcomm]
  | raised via m h =>
      refine Moves.congr (.raised via m (hth ▸ h)) ?_
      simp only [St.put, hat, hcomm]
  | unlockRefused m h hne =>
      refine Moves.congr (.unlockRefused m (hth ▸ h) (hth ▸ hne)) ?_
      simp only [St.put, hat, hcomm]
  | unlockPassed m h heq =>
      refine Moves.congr (.unlockPassed m (hth ▸ h) (hth ▸ heq)) ?_
      simp only [St.put, hat, hcomm]
  | popEmpty m h hp =>
      refine Moves.congr (.popEmpty m (hth ▸ h) hp) ?_
      simp only [St.put, hat, hcomm]
  | popped m p h hp =>
      refine Moves.congr (.popped m p (hth ▸ h) hp) ?_
      simp only [St.put, hat, hcomm]
  | wasReset m p h =>
      refine Moves.congr (.wasReset m p (hth ▸ h)) ?_
      simp only [St.put, hat, hcomm]
  | unlocked m h =>
      refine Moves.congr (.unlocked m (hth ▸ h)) ?_
      simp only [St.put, hat, hcomm]

omit [DecidableEq μ] in
theorem put_comm {u : ι} (hu : u ≠ t) (x y : Thread μ) :
    (s.put t x).put u y = (s.put u y).put t x := by
  simp only [St.put, Function.update_comm hu]

theorem step_put {a : Act ι μ} (hs : step level s a = some s') (ha : a.thread ≠ t)
    (x : Thread μ) : step level (s.put t x) a = some (s'.put t x) := by
  cases a with
  | callLock u m | callTryLock u m | callUnlock u m =>
      have hu : u ≠ t := ha
      obtain ⟨hq, rfl⟩ := call_eq_some hs
      refine (call_of_quiet ((put_other hu x).symm ▸ hq) _).trans ?_
      rw [put_other hu, put_comm hu]
  | run u => exact run_of_moves ((moves_of_run hs).put ha x)
  | tryFails u =>
      have hu : u ≠ t := ha
      obtain ⟨m, hpc, rfl⟩ := tryFails_eq_some hs
      simp only [step, put_other hu, hpc, put_comm hu]
  | pushFails u =>
      have hu : u ≠ t := ha
      obtain ⟨via, m, hpc, rfl⟩ := pushFails_eq_some hs
      simp only [step, put_other hu, hpc, put_comm hu]

/-- So a step of the others from a state in which `t` is at `y` is one from `s`. -/
theorem step_of_put {a : Act ι μ} {y : Thread μ} (hs : step level (s.put t y) a = some s')
    (ha : a.thread ≠ t) : ∃ u, step level s a = some u ∧ s' = u.put t y := by
  have hback : (s.put t y).put t (s.th t) = s := by
    simp only [St.put, Function.update_idem, Function.update_eq_self]
  have hstep := step_put hs ha (s.th t)
  rw [hback] at hstep
  refine ⟨_, hstep, ?_⟩
  have hth : s'.th t = y := (step_other hs (Ne.symm ha)).trans (put_self y)
  simp only [St.put, Function.update_idem, ← hth, Function.update_eq_self]

/-- The caller's own step, in a call that is refused. -/
theorem refused_step {a : Act ι μ} {x : Thread μ} {via : Via} {m : μ}
    (hle : level m ≤ x.threadLevel) (ha : a.thread = t) (hb : a.begins ≠ some t)
    (hs : step level (s.put t { x with pc := .check via m }) a = some s') :
    s' = s.put t { x with pc := .idle (.logicError hierarchyViolated) } := by
  rcases own_step ha hb hs with hm | ⟨m', hpc, -⟩ | ⟨via', m', hpc, -⟩
  · cases hm with
    | refused via' m' hpc =>
        rw [put_self]
        simp only [St.put, Function.update_idem]
    | passed via' m' hpc hlt =>
        rw [put_self] at hpc hlt
        cases hpc
        exact absurd hlt (UInt64.not_lt.mpr hle)
    | acquired via' m' hpc =>
        rw [put_self] at hpc
        cases via' <;> cases hpc
    | pushed via' m' hpc | raised via' m' hpc | unlockRefused m' hpc | unlockPassed m' hpc
    | popEmpty m' hpc | popped m' p hpc | wasReset m' p hpc | unlocked m' hpc =>
        rw [put_self] at hpc
        cases hpc
  · rw [put_self] at hpc
    cases hpc
  · rw [put_self] at hpc
    cases hpc

/-- A thread between two calls makes no step but to begin one. -/
theorem quiet_stays {a : Act ι μ} (hq : (s.th t).Quiet) (ha : a.thread = t)
    (hb : a.begins ≠ some t) : step level s a = none := by
  obtain ⟨last, hidle⟩ := hq
  subst ha
  cases a with
  | callLock t m | callTryLock t m | callUnlock t m => exact absurd rfl hb
  | run t =>
      have hpc : (s.th t).pc = .idle last := hidle
      simp only [step, run, hpc]
  | tryFails t | pushFails t =>
      have hpc : (s.th t).pc = .idle last := hidle
      simp only [step, hpc]

/-- A refused call: before its only step and after it the state is what the others made of the
    one before the call. -/
theorem refused_trace {as : List (Act ι μ)} {x y : Thread μ} {via : Via} {m : μ}
    (hle : level m ≤ x.threadLevel)
    (hy : y = { x with pc := .check via m } ∨
      y = { x with pc := .idle (.logicError hierarchyViolated) })
    (honly : ∀ a ∈ as, a.begins ≠ some t)
    (hs : (sys level).exec Lts.anyStep (s.put t y) as = some s') :
    ∃ u, (sys level).exec Lts.anyStep s (others t as) = some u ∧
      (s' = u.put t { x with pc := .check via m } ∨
        s' = u.put t { x with pc := .idle (.logicError hierarchyViolated) }) := by
  induction as generalizing s y with
  | nil =>
      cases hs
      refine ⟨s, rfl, ?_⟩
      rcases hy with rfl | rfl
      · exact .inl rfl
      · exact .inr rfl
  | cons a as ih =>
      obtain ⟨s₁, hstep, hs⟩ := Lts.exec_any_cons hs
      have hb := honly a List.mem_cons_self
      have hrest := fun b hb => honly b (List.mem_cons_of_mem a hb)
      by_cases ha : a.thread = t
      · have hskip : others t (a :: as) = others t as :=
          List.filter_cons_of_neg (by simpa using ha)
        rw [hskip]
        rcases hy with rfl | rfl
        · cases refused_step hle ha hb hstep
          exact ih (.inr rfl) hrest hs
        · have hq : ((s.put t { x with pc := .idle (.logicError hierarchyViolated) }).th t).Quiet :=
            ⟨_, by rw [put_self]⟩
          rw [show (sys level).step _ a = none from quiet_stays hq ha hb] at hstep
          cases hstep
      · have hkeep : others t (a :: as) = a :: others t as :=
          List.filter_cons_of_pos (by simpa using ha)
        obtain ⟨u, hu, rfl⟩ := step_of_put hstep ha
        rw [hkeep, Lts.exec_cons_of_step trivial hu]
        exact ih hy hrest hs

/-- The others do not make `t` an owner. -/
theorem step_not_owner {a : Act ι μ} {m : μ} (hs : step level s a = some s')
    (ha : a.thread ≠ t) (hm : s.owner m ≠ some t) : s'.owner m ≠ some t := by
  cases a with
  | callLock u m' | callTryLock u m' | callUnlock u m' =>
      obtain ⟨-, rfl⟩ := call_eq_some hs
      exact hm
  | run u =>
      cases moves_of_run hs with
      | acquired via m' =>
          by_cases he : m = m'
          · subst he
            have hu : u ≠ t := ha
            simpa only [Function.update_self, ne_eq, Option.some.injEq] using hu
          · simpa only [Function.update_of_ne he] using hm
      | unlocked m' =>
          by_cases he : m = m'
          · subst he
            simp only [Function.update_self, ne_eq, reduceCtorEq, not_false_eq_true]
          · simpa only [Function.update_of_ne he] using hm
      | _ => exact hm
  | tryFails u =>
      obtain ⟨m', -, rfl⟩ := tryFails_eq_some hs
      exact hm
  | pushFails u =>
      obtain ⟨via, m', -, rfl⟩ := pushFails_eq_some hs
      exact hm

theorem exec_not_owner {as : List (Act ι μ)} {m : μ} (ha : ∀ a ∈ as, a.thread ≠ t)
    (hs : (sys level).exec Lts.anyStep s as = some s') (hm : s.owner m ≠ some t) :
    s'.owner m ≠ some t := by
  induction as generalizing s with
  | nil =>
      cases hs
      exact hm
  | cons a as ih =>
      obtain ⟨u, hu, hs⟩ := Lts.exec_any_cons hs
      exact ih (fun b hb => ha b (List.mem_cons_of_mem a hb)) hs
        (step_not_owner hu (ha a List.mem_cons_self) hm)

/-- A call that the check refuses leaves no trace. -/
theorem noTrace_of_refused {via : Via} {m : μ} {as : List (Act ι μ)} {o : Outcome}
    (hq : (s.th t).Quiet) (hcall : Call level Lts.anyStep s via t m as o s')
    (hle : level m ≤ (s.th t).threadLevel) (hm : s.owner m ≠ some t) :
    NoTrace level s t m as o s' := by
  obtain ⟨u, hu, hend⟩ := refused_trace hle (.inl rfl) hcall.only (hcall.start hq)
  have hothers : ∀ a ∈ others t as, a.thread ≠ t := fun a ha => by
    simpa using (List.mem_filter.mp ha).2
  have hended := hcall.ended
  rcases hend with rfl | rfl
  · rw [put_self] at hended
    cases hended
  · rw [put_self] at hended
    cases hended
    have hout := exec_not_owner hothers hu hm
    exact ⟨hout, u, hu, rfl⟩

/-! ## Where only owners unlock -/

/-- The mutex of an unlock() in progress. -/
def Pc.releases : Pc μ → Option μ
  | .unlockCheck m => some m
  | .popBack m => some m
  | .reset m _ => some m
  | .mtxUnlock m => some m
  | _ => none

/-- A thread inside unlock() owns the mutex. -/
def UnlockOwned (s : St ι μ) : Prop :=
  ∀ u m, (s.th u).pc.releases = some m → s.owner m = some u

omit [DecidableEq μ] in
theorem UnlockOwned.put (h : UnlockOwned s) {x : Thread μ}
    (hx : ∀ m, x.pc.releases = some m → s.owner m = some t) : UnlockOwned (s.put t x) := by
  intro u m hu
  by_cases hut : u = t
  · subst hut
    rw [put_self] at hu
    exact hx m hu
  · rw [put_other hut] at hu
    exact h u m hu

theorem unlockOwned_run (h : UnlockOwned s) (hs : run level s t = some s') :
    UnlockOwned s' := by
  have ht := h t
  cases moves_of_run hs with
  | refused via m hpc | pushed via m hpc | raised via m hpc | unlockRefused m hpc =>
      exact h.put nofun
  | passed via m hpc => exact h.put fun m' hm' => by cases via <;> cases hm'
  | unlockPassed m hpc | popEmpty m hpc | wasReset m p hpc =>
      rw [hpc] at ht
      exact h.put ht
  | popped m p hpc =>
      rw [hpc] at ht
      exact UnlockOwned.put (x := { s.th t with pc := .reset m p }) h ht
  | acquired via m hpc hfree =>
      intro u m' hu
      by_cases hut : u = t
      · subst hut
        dsimp only at hu
        rw [put_self] at hu
        cases hu
      · dsimp only at hu ⊢
        rw [put_other hut] at hu
        have ho := h u m' hu
        have hne : m' ≠ m := by
          rintro rfl
          rw [hfree] at ho
          cases ho
        rw [Function.update_of_ne hne, ho]
  | unlocked m hpc =>
      intro u m' hu
      by_cases hut : u = t
      · subst hut
        dsimp only at hu
        rw [put_self] at hu
        cases hu
      · dsimp only at hu ⊢
        rw [put_other hut] at hu
        have ho := h u m' hu
        have hm : s.owner m = some t := ht m (by rw [hpc]; rfl)
        have hne : m' ≠ m := by
          rintro rfl
          rw [hm] at ho
          exact hut (Option.some.inj ho).symm
        rw [Function.update_of_ne hne, ho]

theorem unlockOwned_step (h : UnlockOwned s) {a : Act ι μ} (hg : OwnerUnlocks s a)
    (hs : step level s a = some s') : UnlockOwned s' := by
  cases a with
  | callLock t m | callTryLock t m =>
      obtain ⟨-, rfl⟩ := call_eq_some hs
      exact h.put fun _ hm' => by cases hm'
  | callUnlock t m =>
      obtain ⟨-, rfl⟩ := call_eq_some hs
      refine h.put fun m' hm' => ?_
      cases hm'
      exact hg
  | run t => exact unlockOwned_run h hs
  | tryFails t =>
      obtain ⟨m, -, rfl⟩ := tryFails_eq_some hs
      exact h.put fun _ hm' => by cases hm'
  | pushFails t =>
      obtain ⟨via, m, -, rfl⟩ := pushFails_eq_some hs
      exact h.put fun _ hm' => by cases hm'

theorem unlockOwned_reach (h : (sys level).Reach OwnerUnlocks s) : UnlockOwned s :=
  h.invariant (fun s (hs : s = initial) => hs ▸ fun _ _ hu => by cases hu)
    fun _ _ _ _ hi hg hs => unlockOwned_step hi hg hs

/-- Nobody else takes the mutex away from its owner. -/
theorem step_keeps_owner (h : UnlockOwned s) {a : Act ι μ} {m : μ}
    (hs : step level s a = some s') (ha : a.thread ≠ t) (hm : s.owner m = some t) :
    s'.owner m = some t := by
  cases a with
  | callLock u m' | callTryLock u m' | callUnlock u m' =>
      obtain ⟨-, rfl⟩ := call_eq_some hs
      exact hm
  | run u =>
      cases moves_of_run hs with
      | acquired via m' hpc hfree =>
          have hne : m ≠ m' := by
            rintro rfl
            rw [hfree] at hm
            cases hm
          simpa only [Function.update_of_ne hne] using hm
      | unlocked m' hpc =>
          have hne : m ≠ m' := by
            rintro rfl
            have hu := h u m (by rw [hpc]; rfl)
            rw [hm] at hu
            exact ha (Option.some.inj hu).symm
          simpa only [Function.update_of_ne hne] using hm
      | _ => exact hm
  | tryFails u =>
      obtain ⟨m', -, rfl⟩ := tryFails_eq_some hs
      exact hm
  | pushFails u =>
      obtain ⟨via, m', -, rfl⟩ := pushFails_eq_some hs
      exact hm

/-- Where a call stands that will not leave the mutex alone: it owns it from mtx.lock() on, or
    has owned it before, and it owns it still if it has ended in an exception. -/
def Keeps (level : μ → UInt64) (t : ι) (m : μ) (s : St ι μ) : Prop :=
  match (s.th t).pc with
  | .check _ m' => m' = m ∧ ((s.th t).threadLevel < level m ∨ s.owner m = some t)
  | .mtxLock m' => m' = m
  | .mtxTryLock m' => m' = m
  | .pushBack _ m' => m' = m ∧ s.owner m = some t
  | .raise _ m' => m' = m ∧ s.owner m = some t
  | .idle o => o.thrown = true → s.owner m = some t
  | _ => False

omit [DecidableEq ι] [DecidableEq μ] in
theorem Keeps.mono {m : μ} (h : Keeps level t m s) (hth : s'.th t = s.th t)
    (ho : s.owner m = some t → s'.owner m = some t) : Keeps level t m s' := by
  unfold Keeps at h ⊢
  rw [hth]
  cases hpc : (s.th t).pc with
  | check via m' =>
      rw [hpc] at h
      exact ⟨h.1, h.2.imp_right ho⟩
  | pushBack via m' | raise via m' =>
      rw [hpc] at h
      exact h.imp_right ho
  | idle o =>
      rw [hpc] at h
      exact fun hthrown => ho (h hthrown)
  | _ =>
      rw [hpc] at h
      exact h

/-- The caller's own steps. -/
theorem keeps_own {a : Act ι μ} {m : μ} (h : Keeps level t m s) (ha : a.thread = t)
    (hb : a.begins ≠ some t) (hs : step level s a = some s') : Keeps level t m s' := by
  unfold Keeps at h
  rcases own_step ha hb hs with hm | ⟨m', hpc, rfl⟩ | ⟨via, m', hpc, rfl⟩
  · cases hm with
    | refused via m' hpc hle =>
        rw [hpc] at h
        obtain ⟨rfl, hlt | ho⟩ := h
        · exact absurd hlt (UInt64.not_lt.mpr hle)
        · rw [Keeps, put_self]
          exact fun _ => ho
    | passed via m' hpc hlt =>
        rw [hpc] at h
        rw [Keeps, put_self]
        cases via <;> exact h.1
    | acquired via m' hpc hfree =>
        have hm' : m' = m := by
          rw [hpc] at h
          cases via <;> exact h
        subst hm'
        unfold Keeps
        dsimp only
        rw [put_self]
        exact ⟨rfl, Function.update_self _ _ _⟩
    | pushed via m' hpc =>
        rw [hpc] at h
        unfold Keeps
        dsimp only
        rw [put_self]
        exact h
    | raised via m' hpc =>
        rw [Keeps, put_self]
        cases via <;> nofun
    | unlockRefused m' hpc | unlockPassed m' hpc | popEmpty m' hpc | popped m' p hpc
    | wasReset m' p hpc | unlocked m' hpc =>
        rw [hpc] at h
        exact h.elim
  · rw [Keeps, put_self]
    nofun
  · rw [hpc] at h
    rw [Keeps, put_self]
    exact fun _ => h.2

theorem exec_keeps {as : List (Act ι μ)} {m : μ} (hi : UnlockOwned s)
    (h : Keeps level t m s) (honly : ∀ a ∈ as, a.begins ≠ some t)
    (hs : (sys level).exec OwnerUnlocks s as = some s') : Keeps level t m s' := by
  induction as generalizing s with
  | nil =>
      cases hs
      exact h
  | cons a as ih =>
      obtain ⟨hg, u, hu, hs⟩ := Lts.exec_cons_some hs
      refine ih (unlockOwned_step hi hg hu) ?_
        (fun b hb => honly b (List.mem_cons_of_mem a hb)) hs
      by_cases ha : a.thread = t
      · exact keeps_own h ha (honly a List.mem_cons_self) hu
      · exact h.mono (step_other hu (Ne.symm ha)) (step_keeps_owner hi hu ha)

/-- **What a failed acquisition leaves behind.** A call of lock() or try_lock() that ends in an
    exception leaves no trace if the check refuses it and its thread did not own the mutex
    already, whatever the other threads do; and where only owners unlock, in no other case. -/
theorem failed_acquisition (level : μ → UInt64) (s s' : St ι μ) (via : Via) (t : ι) (m : μ)
    (as : List (Act ι μ)) (o : Outcome) (hq : (s.th t).Quiet) (ho : o.thrown = true) :
    (Call level Lts.anyStep s via t m as o s' → level m ≤ (s.th t).threadLevel →
      s.owner m ≠ some t → NoTrace level s t m as o s') ∧
    ((sys level).Reach OwnerUnlocks s → Call level OwnerUnlocks s via t m as o s' →
      (NoTrace level s t m as o s' ↔ level m ≤ (s.th t).threadLevel ∧ s.owner m ≠ some t)) := by
  refine ⟨fun hcall hle hm => noTrace_of_refused hq hcall hle hm, fun hs hcall => ?_⟩
  refine ⟨fun htrace => ?_, fun ⟨hle, hm⟩ => noTrace_of_refused hq
    { hcall with run := Lts.exec_any_of_exec hcall.run } hle hm⟩
  by_contra hnot
  have hkeeps : Keeps level t m (s.put t { s.th t with pc := .check via m }) := by
    rw [Keeps, put_self]
    refine ⟨rfl, ?_⟩
    by_cases hle : level m ≤ (s.th t).threadLevel
    · exact .inr (not_not.mp fun hm => hnot ⟨hle, hm⟩)
    · exact .inl (UInt64.not_le.mp hle)
  have hi : UnlockOwned (s.put t { s.th t with pc := .check via m }) :=
    (unlockOwned_reach hs).put nofun
  have hend := exec_keeps hi hkeeps hcall.only (hcall.start hq)
  rw [Keeps, hcall.ended] at hend
  exact htrace.1 (hend ho)

/-- Thread 0 has locked mtx3. -/
def lockedOne : St ℕ Mtx :=
  ((sys Mtx.mutexLevel).exec OwnerUnlocks initial
    [.callLock 0 .mtx3, .run 0, .run 0, .run 0, .run 0]).get (by decide)

/-- It is refused mtx2, while thread 1 takes mtx5. -/
theorem failed_acquisition_lockedOne :
    ∃ s', (sys Mtx.mutexLevel).exec OwnerUnlocks lockedOne
        [.callTryLock 0 .mtx2, .callLock 1 .mtx5, .run 1, .run 0, .run 1] = some s' ∧
      s'.owner .mtx5 = some 1 ∧
      NoTrace Mtx.mutexLevel lockedOne 0 .mtx2 [.callLock 1 .mtx5, .run 1, .run 0, .run 1]
        (.logicError hierarchyViolated) s' := by
  have hr : (sys Mtx.mutexLevel).Reach OwnerUnlocks lockedOne :=
    .exec _ (.start rfl) (Option.some_get _).symm
  refine ⟨_, rfl, by decide, ?_⟩
  refine ((failed_acquisition Mtx.mutexLevel lockedOne _ .tryLock 0 .mtx2 _ _ ⟨.void, by decide⟩
    rfl).2 hr ⟨rfl, ?_, rfl⟩).mpr ⟨by decide, by decide⟩
  decide

/-- Where the push_back of the first lock() fails, mtx1 stays locked for good. -/
theorem pushFails_leaves_locked :
    ¬ ∀ (s s' : St ℕ Mtx) (via : Via) (t : ℕ) (m : Mtx) (as : List (Act ℕ Mtx)) (o : Outcome),
      (sys Mtx.mutexLevel).Reachable s → (s.th t).Quiet → o.thrown = true →
        Call Mtx.mutexLevel Lts.anyStep s via t m as o s' →
          NoTrace Mtx.mutexLevel s t m as o s' := by
  intro hall
  have hcall : Call Mtx.mutexLevel Lts.anyStep initial .lock 0 .mtx1
      [.run 0, .run 0, .pushFails 0] .badAlloc _ := ⟨rfl, by decide, rfl⟩
  exact (hall _ _ _ _ _ _ _ (.start rfl) ⟨.fresh, rfl⟩ rfl hcall).1 rfl

end CppConcurrency.LevelMutex
