/-
  LevelMutex: which acquisitions the hierarchy check refuses.

  check_level() compares the level of the mutex with one remembered number. Here this is
  compared with the set of mutexes the thread holds: those for which a lock() or try_lock() of
  the thread has returned, and which it has not unlocked since. `Recorded` keeps that set
  beside the state, and writes it only where one of the three members returns.

  The runs are all those in which unlock() is called by a holder; push_back may fail, in which
  case the call has not returned and nothing is recorded. The remembered number is then the
  level of the latest mutex held, as in `Bookkept`: a run is followed by a `Mirror`, a state
  that satisfies the invariant of disciplined runs and in which the mutex that a failed
  push_back leaves locked has been given back.

  Proved (`refusal_exact`): a call is refused exactly when the thread holds a mutex of at
  least the level asked for, except where it holds nothing and the level is 0. The level 0
  stands for "nothing held" in `thread_level`, and the constructor accepts it as a level, so a
  LevelMutex of level 0 refuses everybody.
-/
import CppConcurrency.LevelMutex.Unlock

namespace CppConcurrency.LevelMutex

open Concur

variable {ι μ : Type} {level : μ → UInt64}

/-! ## Calls of lock() and try_lock() -/

/-- The action that calls the member. -/
def Via.act : Via → ι → μ → Act ι μ
  | .lock, t, m => .callLock t m
  | .tryLock, t, m => .callTryLock t m

/-- The thread that begins a call. -/
def Act.begins : Act ι μ → Option ι
  | .callLock t _ => some t
  | .callTryLock t _ => some t
  | .callUnlock t _ => some t
  | _ => none

variable [DecidableEq ι] [DecidableEq μ]

/-- In `s` thread `t` calls lock() or try_lock() of `m`. The steps `as` follow, of any threads,
    in which `t` begins nothing else, and in `s'` the call is over with the outcome `o`. -/
structure Call (level : μ → UInt64) (G : St ι μ → Act ι μ → Prop) [∀ s a, Decidable (G s a)]
    (s : St ι μ) (via : Via) (t : ι) (m : μ) (as : List (Act ι μ)) (o : Outcome)
    (s' : St ι μ) : Prop where
  run : (sys level).exec G s (via.act t m :: as) = some s'
  only : ∀ a ∈ as, a.begins ≠ some t
  ended : (s'.th t).pc = .idle o

/-- The call throws the hierarchy logic_error: it can end so, and it ends in no other way. -/
def Throws (level : μ → UInt64) (s : St ι μ) (via : Via) (t : ι) (m : μ) : Prop :=
  (∃ as s', Call level Lts.anyStep s via t m as (.logicError hierarchyViolated) s') ∧
    ∀ as o s', Call level Lts.anyStep s via t m as o s' → o = .logicError hierarchyViolated

/-- The call does not throw it. -/
def Spared (level : μ → UInt64) (s : St ι μ) (via : Via) (t : ι) (m : μ) : Prop :=
  ∀ as s', ¬ Call level Lts.anyStep s via t m as (.logicError hierarchyViolated) s'

variable {s s' : St ι μ} {t : ι}

/-- The steps of a thread inside a call. -/
theorem own_step {a : Act ι μ} (ha : a.thread = t) (hb : a.begins ≠ some t)
    (hs : step level s a = some s') :
    Moves level s t s' ∨
    (∃ m, (s.th t).pc = .mtxTryLock m ∧
      s' = s.put t { s.th t with pc := .idle (.bool false) }) ∨
    (∃ via m, (s.th t).pc = .pushBack via m ∧
      s' = s.put t { s.th t with pc := .idle .badAlloc }) := by
  subst ha
  cases a with
  | callLock t m | callTryLock t m | callUnlock t m => exact absurd rfl hb
  | run t => exact .inl (moves_of_run hs)
  | tryFails t => exact .inr (.inl (tryFails_eq_some hs))
  | pushFails t => exact .inr (.inr (pushFails_eq_some hs))

/-- What the steps of a thread inside a call keep of that thread, a run keeps. -/
theorem exec_thread {P : Thread μ → Prop}
    (hP : ∀ s s' a, P (s.th t) → a.thread = t → a.begins ≠ some t →
      step level s a = some s' → P (s'.th t))
    {as : List (Act ι μ)} (honly : ∀ a ∈ as, a.begins ≠ some t)
    (hs : (sys level).exec Lts.anyStep s as = some s') (h : P (s.th t)) : P (s'.th t) := by
  induction as generalizing s with
  | nil =>
      cases hs
      exact h
  | cons a as ih =>
      obtain ⟨u, hu, hs⟩ := Lts.exec_any_cons hs
      refine ih (fun b hb => honly b (List.mem_cons_of_mem a hb)) hs ?_
      by_cases ha : a.thread = t
      · exact hP s u a h ha (honly a List.mem_cons_self) hu
      · rw [step_other hu (Ne.symm ha)]
        exact h

/-- The check is ahead and throws, or it has thrown. -/
def Refusing (level : μ → UInt64) (x : Thread μ) : Prop :=
  match x.pc with
  | .check _ m => level m ≤ x.threadLevel
  | .idle o => o = .logicError hierarchyViolated
  | _ => False

/-- The check is ahead and passes, or it has passed. -/
def Passing (level : μ → UInt64) (x : Thread μ) : Prop :=
  match x.pc with
  | .check _ m => x.threadLevel < level m
  | .idle o => o ≠ .logicError hierarchyViolated
  | .unlockCheck _ => False
  | _ => True

theorem refusing_step {a : Act ι μ} (h : Refusing level (s.th t)) (ha : a.thread = t)
    (hb : a.begins ≠ some t) (hs : step level s a = some s') : Refusing level (s'.th t) := by
  unfold Refusing at h
  rcases own_step ha hb hs with hm | ⟨m, hpc, rfl⟩ | ⟨via, m, hpc, rfl⟩
  · cases hm with
    | refused via m hpc hle =>
        rw [put_self]
        exact rfl
    | passed via m hpc hlt =>
        rw [hpc] at h
        exact absurd hlt (UInt64.not_lt.mpr h)
    | acquired via m hpc hfree =>
        rw [hpc] at h
        cases via <;> exact h.elim
    | pushed via m hpc | raised via m hpc | unlockRefused m hpc | unlockPassed m hpc
    | popEmpty m hpc | popped m p hpc | wasReset m p hpc | unlocked m hpc =>
        rw [hpc] at h
        exact h.elim
  · rw [hpc] at h
    exact h.elim
  · rw [hpc] at h
    exact h.elim

theorem passing_step {a : Act ι μ} (h : Passing level (s.th t)) (ha : a.thread = t)
    (hb : a.begins ≠ some t) (hs : step level s a = some s') : Passing level (s'.th t) := by
  unfold Passing at h
  rcases own_step ha hb hs with hm | ⟨m, hpc, rfl⟩ | ⟨via, m, hpc, rfl⟩
  · cases hm with
    | refused via m hpc hle =>
        rw [hpc] at h
        exact absurd h (UInt64.not_lt.mpr hle)
    | passed via m hpc hlt =>
        rw [put_self]
        cases via <;> trivial
    | raised via m hpc =>
        rw [put_self]
        cases via <;> nofun
    | unlockRefused m hpc hne =>
        rw [hpc] at h
        exact h.elim
    | unlocked m hpc =>
        dsimp only
        rw [put_self]
        nofun
    | acquired | pushed | unlockPassed | popEmpty | popped | wasReset =>
        dsimp only
        rw [put_self]
        trivial
  · rw [put_self]
    nofun
  · rw [put_self]
    nofun

theorem step_act (hq : (s.th t).Quiet) (via : Via) (m : μ) :
    step level s (via.act t m) = some (s.put t { s.th t with pc := .check via m }) := by
  cases via <;> exact call_of_quiet hq _

/-- The first step of a call. -/
theorem Call.start {G : St ι μ → Act ι μ → Prop} [∀ s a, Decidable (G s a)] {via : Via} {m : μ}
    {as : List (Act ι μ)} {o : Outcome} (h : Call level G s via t m as o s')
    (hq : (s.th t).Quiet) :
    (sys level).exec G (s.put t { s.th t with pc := .check via m }) as = some s' := by
  obtain ⟨-, u, hu, hrun⟩ := Lts.exec_cons_some h.run
  rw [show (sys level).step s (via.act t m) = _ from step_act hq via m] at hu
  cases hu
  exact hrun

theorem throws_of_le (hq : (s.th t).Quiet) {m : μ} (hle : level m ≤ (s.th t).threadLevel)
    (via : Via) : Throws level s via t m := by
  refine ⟨⟨[.run t], s.put t { s.th t with pc := .idle (.logicError hierarchyViolated) }, ?_⟩,
    fun as o s' hcall => ?_⟩
  · refine ⟨?_, by simp [Act.begins], by rw [put_self]⟩
    have hrun : run level (s.put t { s.th t with pc := .check via m }) t =
        some (s.put t { s.th t with pc := .idle (.logicError hierarchyViolated) }) := by
      simp only [run, put_self, ge_iff_le, if_pos hle]
      simp only [St.put, Function.update_idem]
    rw [Lts.exec_cons_of_step trivial (step_act hq via m), Lts.exec_cons_of_step trivial hrun]
    rfl
  · have href : Refusing level ((s.put t { s.th t with pc := .check via m }).th t) := by
      rw [put_self]
      exact hle
    have hend := exec_thread (fun _ _ _ => refusing_step) hcall.only (hcall.start hq) href
    rw [Refusing, hcall.ended] at hend
    exact hend

theorem spared_of_lt (hq : (s.th t).Quiet) {m : μ} (hlt : (s.th t).threadLevel < level m)
    (via : Via) : Spared level s via t m := by
  intro as s' hcall
  have hpass : Passing level ((s.put t { s.th t with pc := .check via m }).th t) := by
    rw [put_self]
    exact hlt
  have hend := exec_thread (fun _ _ _ => passing_step) hcall.only (hcall.start hq) hpass
  rw [Passing, hcall.ended] at hend
  exact hend rfl

/-- The check decides. -/
theorem throws_iff (hq : (s.th t).Quiet) (via : Via) (m : μ) :
    Throws level s via t m ↔ level m ≤ (s.th t).threadLevel := by
  refine ⟨fun h => ?_, fun hle => throws_of_le hq hle via⟩
  by_contra hnot
  obtain ⟨as, s', hcall⟩ := h.1
  exact spared_of_lt hq (UInt64.not_le.mp hnot) via as s' hcall

/-! ## Who holds what -/

omit [DecidableEq ι] [DecidableEq μ] in
/-- A state, and for each thread the mutexes for which a lock() or try_lock() of it has
    returned and which it has not unlocked since, latest first. -/
structure Recorded (ι μ : Type) where
  st : St ι μ
  held : ι → List μ

/-- The record changes where lock(), try_lock() or unlock() returns. -/
def record (s : St ι μ) (held : ι → List μ) : Act ι μ → ι → List μ
  | .run t =>
      match (s.th t).pc with
      | .raise _ m => Function.update held t (m :: held t)
      | .mtxUnlock m => Function.update held t ((held t).erase m)
      | _ => held
  | _ => held

/-- The system, with the record. -/
def recorded (level : μ → UInt64) : Lts (Recorded ι μ) (Act ι μ) where
  init x := x = ⟨initial, fun _ => []⟩
  step x a := (step level x.st a).map fun s' => ⟨s', record x.st x.held a⟩

omit [DecidableEq ι] [DecidableEq μ] in
/-- unlock() is called on a mutex that the caller holds. -/
def HolderUnlocks (x : Recorded ι μ) : Act ι μ → Prop
  | .callUnlock t m => m ∈ x.held t
  | _ => True

omit [DecidableEq ι] in
instance (x : Recorded ι μ) : (a : Act ι μ) → Decidable (HolderUnlocks x a)
  | .callUnlock t m => inferInstanceAs (Decidable (m ∈ x.held t))
  | .callLock _ _ => isTrue trivial
  | .callTryLock _ _ => isTrue trivial
  | .run _ => isTrue trivial
  | .tryFails _ => isTrue trivial
  | .pushFails _ => isTrue trivial

omit [DecidableEq ι] [DecidableEq μ] in
/-- What a thread has got by calls that have returned. -/
def Thread.returned (x : Thread μ) : List μ :=
  match x.pc with
  | .pushBack _ _ => x.held.tail
  | .raise _ _ => x.held.tail
  | _ => x.held

/-- A shadow at the same statements that holds what is on record. -/
structure Mirror (level : μ → UInt64) (x : Recorded ι μ) (d : St ι μ) : Prop where
  inv : Inv level d
  shadow : Shadow x.st d
  pc : ∀ t, ¬ (x.st.th t).Quiet → (d.th t).pc = (x.st.th t).pc
  held : ∀ t, x.held t = (d.th t).returned

theorem record_other {held : ι → List μ} {a : Act ι μ} {u : ι} (hu : u ≠ a.thread) :
    record s held a u = held u := by
  cases a with
  | run t =>
      unfold record
      dsimp only
      cases (s.th t).pc with
      | raise | mtxUnlock => exact Function.update_of_ne hu _ _
      | _ => rfl
  | _ => rfl

/-- The record follows the statements of a mirrored thread. -/
theorem returned_run {d d' : St ι μ} {held : ι → List μ} (hd : Inv level d)
    (hpc : (d.th t).pc = (s.th t).pc) (hheld : held t = (d.th t).returned)
    (hm : Moves level d t d') : record s held (.run t) t = (d'.th t).returned := by
  have ht := hd.thread t
  unfold ThreadInv at ht
  unfold record
  dsimp only
  rw [← hpc, hheld]
  unfold Thread.returned
  cases hm with
  | refused via m h | unlockRefused m h | unlockPassed m h | popEmpty m h | wasReset m p h =>
      simp only [h, put_self, hheld, Thread.returned]
  | passed via m h =>
      cases via <;> simp only [h, put_self, hheld, Thread.returned, Via.mtx]
  | acquired via m h =>
      cases via <;> simp only [Via.mtx] at h <;>
        simp only [h, put_self, hheld, Thread.returned, List.tail_cons]
  | pushed via m h | popped m p h => simp only [h, put_self, hheld, Thread.returned]
  | raised via m h =>
      rw [h] at ht
      obtain ⟨-, ms, hms⟩ := ht
      simp only [h, put_self, Function.update_self, hms, List.tail_cons]
  | unlocked m h => simp only [h, put_self, Function.update_self]

/-- No statement leads to the check of unlock(). -/
theorem Moves.not_unlockCheck (hm : Moves level s t s') (m : μ) :
    (s'.th t).pc ≠ .unlockCheck m := by
  cases hm with
  | passed via m' h => cases via <;> simp [put_self, Via.mtx]
  | _ => simp [put_self]

theorem mirror_run {x : Recorded ι μ} {d : St ι μ} (h : Mirror level x d)
    (hs : run level x.st t = some s') :
    ∃ d', run level d t = some d' ∧ Mirror level ⟨s', record x.st x.held (.run t)⟩ d' := by
  have hbusy : ¬ (x.st.th t).Quiet := by
    rintro ⟨last, hidle⟩
    simp only [run, hidle, reduceCtorEq] at hs
  obtain ⟨d', hrun, hsh⟩ := run_shadow h.shadow (h.pc t hbusy) hs
  refine ⟨d', hrun, inv_run h.inv hrun, hsh, fun u hu => ?_, fun u => ?_⟩
  · rcases (hsh.th u).pc with hpc | ⟨-, hquiet | ⟨m, hm⟩⟩
    · exact hpc
    · exact absurd hquiet hu
    · by_cases hut : u = t
      · subst hut
        exact absurd hm ((moves_of_run hs).not_unlockCheck m)
      · have h1 : s'.th u = x.st.th u := step_other (a := .run t) hs hut
        have h2 : d'.th u = d.th u := step_other (a := .run t) hrun hut
        rw [h1] at hu
        rw [h1, h2]
        exact h.pc u hu
  · by_cases hut : u = t
    · subst hut
      exact returned_run h.inv (h.pc u hbusy) (h.held u) (moves_of_run hrun)
    · have h2 : d'.th u = d.th u := step_other (a := .run t) hrun hut
      rw [h2, ← h.held u]
      exact record_other (a := .run t) hut

omit [DecidableEq μ] in
/-- A step that puts a thread and its mirror at the same statement, or both between calls. -/
theorem Mirror.put {x : Recorded ι μ} {d d' : St ι μ} (h : Mirror level x d) (hi : Inv level d')
    (hsh : Shadow s' d') (hpc : ¬ (s'.th t).Quiet → (d'.th t).pc = (s'.th t).pc)
    (hheld : (d'.th t).returned = (d.th t).returned)
    (hother : ∀ u, u ≠ t → s'.th u = x.st.th u ∧ d'.th u = d.th u) :
    Mirror level ⟨s', x.held⟩ d' := by
  refine ⟨hi, hsh, fun u hu => ?_, fun u => ?_⟩
  · by_cases hut : u = t
    · subst hut
      exact hpc hu
    · obtain ⟨h1, h2⟩ := hother u hut
      rw [h1] at hu
      rw [h1, h2]
      exact h.pc u hu
  · dsimp only
    rw [h.held u]
    by_cases hut : u = t
    · subst hut
      exact hheld.symm
    · rw [(hother u hut).2]

omit [DecidableEq ι] [DecidableEq μ] in
theorem returned_of_quiet {x : Thread μ} (h : x.Quiet) : x.returned = x.held := by
  obtain ⟨last, hlast⟩ := h
  unfold Thread.returned
  rw [hlast]

omit [DecidableEq μ] in
/-- A thread and its mirror call the same member. -/
theorem mirror_call {x : Recorded ι μ} {d : St ι μ} (h : Mirror level x d) {pc : Pc μ}
    (hs : call x.st t pc = some s')
    (hpc : Settled level d.prevLevels (d.th t) →
      ThreadInv level d.prevLevels { d.th t with pc := pc })
    (hret : ∀ y : Thread μ, y.pc = pc → y.returned = y.held) :
    ∃ d', call d t pc = some d' ∧ Mirror level ⟨s', x.held⟩ d' := by
  obtain ⟨hq, rfl⟩ := call_eq_some hs
  have hdq := (h.shadow.th t).quiet hq
  have hcall := call_of_quiet hdq pc
  refine ⟨_, hcall, h.put (t := t) (inv_call h.inv hcall hpc)
    (h.shadow.put (.alike (h.shadow.th t).threadLevel)) (fun _ => ?_) ?_ fun u hu => ?_⟩
  · rw [put_self, put_self]
  · rw [put_self, returned_of_quiet hdq]
    exact hret _ rfl
  · exact ⟨put_other hu _, put_other hu _⟩

theorem mirror_pushFails {x : Recorded ι μ} {d : St ι μ} (h : Mirror level x d) {via : Via}
    {m : μ} (hpc : (x.st.th t).pc = .pushBack via m) :
    ∃ d', Mirror level ⟨x.st.put t { x.st.th t with pc := .idle .badAlloc }, x.held⟩ d' := by
  have hdpc : (d.th t).pc = .pushBack via m := (h.pc t (not_quiet hpc (by simp))).trans hpc
  obtain ⟨hi, hsh⟩ := pushFails_shadow h.inv h.shadow hpc
  refine ⟨_, h.put (t := t) hi hsh (fun hu => ?_) ?_ fun u hu => ?_⟩
  · rw [put_self] at hu
    exact absurd ⟨.badAlloc, rfl⟩ hu
  · have ht := h.inv.thread t
    rw [ThreadInv, hdpc] at ht
    obtain ⟨⟨ms, hms, -⟩, -⟩ := ht
    dsimp only
    rw [put_self]
    simp only [Thread.returned, hdpc, hms, List.erase_cons_head, List.tail_cons]
  · exact ⟨put_other hu _, put_other hu _⟩

theorem mirror_tryFails {x : Recorded ι μ} {d : St ι μ} (h : Mirror level x d) {m : μ}
    (hpc : (x.st.th t).pc = .mtxTryLock m) :
    ∃ d', step level d (.tryFails t) = some d' ∧
      Mirror level ⟨x.st.put t { x.st.th t with pc := .idle (.bool false) }, x.held⟩ d' := by
  have hdpc : (d.th t).pc = .mtxTryLock m := (h.pc t (not_quiet hpc (by simp))).trans hpc
  have ht := h.inv.thread t
  rw [ThreadInv, hdpc] at ht
  refine ⟨d.put t { d.th t with pc := .idle (.bool false) }, by simp only [step, hdpc],
    h.put (t := t) (h.inv.put rfl ht.1)
      (h.shadow.put (.alike (h.shadow.th t).threadLevel)) (fun hu => ?_) ?_ fun u hu => ?_⟩
  · rw [put_self] at hu
    exact absurd ⟨.bool false, rfl⟩ hu
  · rw [put_self]
    simp only [Thread.returned, hdpc]
  · exact ⟨put_other hu _, put_other hu _⟩

/-- The mirror makes the same step, unless that is the failure of a push_back. -/
theorem mirror_step {x x' : Recorded ι μ} {d : St ι μ} (h : Mirror level x d) {a : Act ι μ}
    (hg : HolderUnlocks x a) (hs : (recorded level).step x a = some x') :
    ∃ d', ((∀ t, a ≠ .pushFails t) → step level d a = some d') ∧ Mirror level x' d' := by
  obtain ⟨s', hst, rfl⟩ := Option.map_eq_some_iff.mp hs
  cases a with
  | callLock t m | callTryLock t m =>
      obtain ⟨d', hd', hmir⟩ := mirror_call h hst id fun y hy => by rw [Thread.returned, hy]
      exact ⟨d', fun _ => hd', hmir⟩
  | callUnlock t m =>
      obtain ⟨hq, -⟩ := call_eq_some hst
      have hmem : m ∈ (d.th t).held := by
        rw [← returned_of_quiet ((h.shadow.th t).quiet hq), ← h.held t]
        exact hg
      obtain ⟨d', hd', hmir⟩ := mirror_call h hst (fun hset => ⟨hset, hmem⟩)
        fun y hy => by rw [Thread.returned, hy]
      exact ⟨d', fun _ => hd', hmir⟩
  | run t =>
      obtain ⟨d', hd', hmir⟩ := mirror_run h hst
      exact ⟨d', fun _ => hd', hmir⟩
  | tryFails t =>
      obtain ⟨m, hpc, rfl⟩ := tryFails_eq_some hst
      obtain ⟨d', hd', hmir⟩ := mirror_tryFails h hpc
      exact ⟨d', fun _ => hd', hmir⟩
  | pushFails t =>
      obtain ⟨via, m, hpc, rfl⟩ := pushFails_eq_some hst
      obtain ⟨d', hmir⟩ := mirror_pushFails h hpc
      exact ⟨d', fun hne => absurd rfl (hne t), hmir⟩

omit [DecidableEq ι] [DecidableEq μ] in
theorem mirror_initial : Mirror level (⟨initial, fun _ => []⟩ : Recorded ι μ) initial where
  inv := inv_initial
  shadow := ⟨fun _ => .alike rfl, fun _ _ hm => hm, rfl⟩
  pc _ _ := rfl
  held _ := rfl

theorem mirror_reach {x : Recorded ι μ} (h : (recorded level).Reach HolderUnlocks x) :
    ∃ d, Mirror level x d := by
  refine h.invariant (I := fun x => ∃ d, Mirror level x d) ?_ ?_
  · rintro x rfl
    exact ⟨initial, mirror_initial⟩
  · rintro x a x' - ⟨d, hd⟩ hg hs
    obtain ⟨d', -, hd'⟩ := mirror_step hd hg hs
    exact ⟨d', hd'⟩

/-- Only holders unlock, and push_back does not fail. -/
def NothingFails (x : Recorded ι μ) (a : Act ι μ) : Prop :=
  HolderUnlocks x a ∧ ∀ t, a ≠ .pushFails t

/-- While push_back does not fail, the mirror is the state itself. -/
theorem mirror_self {x : Recorded ι μ} (h : (recorded level).Reach NothingFails x) :
    Mirror level x x.st := by
  refine h.invariant (I := fun x => Mirror level x x.st) ?_ ?_
  · rintro x rfl
    exact mirror_initial
  · rintro x a x' - hx hg hs
    obtain ⟨d', hd', hmir⟩ := mirror_step hx hg.1 hs
    obtain ⟨s', hst, rfl⟩ := Option.map_eq_some_iff.mp hs
    rw [hst] at hd'
    cases hd' hg.2
    exact hmir

/-! ## Which calls are refused -/

/-- Between two calls the `thread_level` of a thread is the level of the latest mutex it
    holds, and no mutex it holds has a higher one. -/
theorem level_of_reach {x : Recorded ι μ} (h : (recorded level).Reach HolderUnlocks x) {t : ι}
    (hq : (x.st.th t).Quiet) :
    (x.st.th t).threadLevel = topLevel level (x.held t) ∧
    ∀ m ∈ x.held t, level m ≤ topLevel level (x.held t) := by
  obtain ⟨d, hd⟩ := mirror_reach h
  have hdq := (hd.shadow.th t).quiet hq
  rw [hd.held t, returned_of_quiet hdq]
  obtain ⟨last, hidle⟩ := hdq
  have ht := hd.inv.thread t
  rw [ThreadInv, hidle] at ht
  exact ⟨(hd.shadow.th t).threadLevel.symm.trans ht.2, fun m hm => ht.1.level_le_top hm⟩

/-- While push_back does not fail, a thread between two calls holds what its std::mutexes say
    it owns. -/
theorem held_iff_owner {x : Recorded ι μ} (h : (recorded level).Reach NothingFails x) {t : ι}
    (hq : (x.st.th t).Quiet) (m : μ) : m ∈ x.held t ↔ x.st.owner m = some t := by
  have hx := mirror_self h
  rw [hx.held t, returned_of_quiet hq]
  exact (hx.inv.owns m t).symm

/-- The law of the hierarchy for one call: it is refused exactly when its thread holds a mutex
    of at least the level of the one it asks for. -/
def Lawful (level : μ → UInt64) (x : Recorded ι μ) (via : Via) (t : ι) (m : μ) : Prop :=
  Throws level x.st via t m ↔ ∃ m' ∈ x.held t, level m ≤ level m'

/-- **What the hierarchy check refuses.** In every run in which only holders unlock, every
    lock() and try_lock() throws the hierarchy logic_error or does not, as the state before the
    call decides; and the law of the hierarchy decides, unless the thread holds nothing and
    the level of the mutex is 0. While push_back does not fail, to hold is to own. -/
theorem refusal_exact (level : μ → UInt64) (x : Recorded ι μ)
    (h : (recorded level).Reach HolderUnlocks x) (t : ι) (hq : (x.st.th t).Quiet) (via : Via)
    (m : μ) :
    (Throws level x.st via t m ∨ Spared level x.st via t m) ∧
    (Lawful level x via t m ↔ level m ≠ 0 ∨ x.held t ≠ []) ∧
    ((recorded level).Reach NothingFails x → ∀ m', m' ∈ x.held t ↔ x.st.owner m' = some t) := by
  refine ⟨?_, ?_, fun hn m' => held_iff_owner hn hq m'⟩
  · by_cases hle : level m ≤ (x.st.th t).threadLevel
    · exact .inl (throws_of_le hq hle via)
    · exact .inr (spared_of_lt hq (UInt64.not_le.mp hle) via)
  · obtain ⟨htop, hle⟩ := level_of_reach h hq
    unfold Lawful
    rw [throws_iff hq, htop]
    cases hheld : x.held t with
    | nil => simp [topLevel]
    | cons a ms =>
        rw [hheld] at hle
        simp only [ne_eq, reduceCtorEq, not_false_eq_true, or_true, iff_true]
        refine ⟨fun hm => ⟨a, List.mem_cons_self, hm⟩, ?_⟩
        rintro ⟨m', hm', hmm⟩
        exact UInt64.le_trans hmm (hle m' hm')

/-- Thread 0 locks mtx3, and its push_back fails in the lock() of mtx4. -/
def pushFailed : Recorded ℕ Mtx :=
  ((recorded Mtx.mutexLevel).exec HolderUnlocks ⟨initial, fun _ => []⟩
    [.callLock 0 .mtx3, .run 0, .run 0, .run 0, .run 0,
     .callLock 0 .mtx4, .run 0, .run 0, .pushFails 0]).get (by decide)

/-- It is refused mtx1 and not refused mtx5. -/
theorem refusal_exact_pushFailed :
    pushFailed.held 0 = [.mtx3] ∧ Lawful Mtx.mutexLevel pushFailed .lock 0 .mtx1 ∧
      Lawful Mtx.mutexLevel pushFailed .tryLock 0 .mtx5 := by
  have hr : (recorded Mtx.mutexLevel).Reach HolderUnlocks pushFailed :=
    .exec _ (.start rfl) (Option.some_get _).symm
  have hq : (pushFailed.st.th 0).Quiet := ⟨.badAlloc, by decide⟩
  have h1 := refusal_exact Mtx.mutexLevel pushFailed hr 0 hq .lock .mtx1
  have h5 := refusal_exact Mtx.mutexLevel pushFailed hr 0 hq .tryLock .mtx5
  exact ⟨by decide, h1.2.1.mpr (.inl (by decide)), h5.2.1.mpr (.inl (by decide))⟩

/-- A LevelMutex of level 0 refuses a thread that has never locked anything. -/
theorem level_zero_refused :
    ¬ ∀ (level : Unit → UInt64) (x : Recorded ℕ Unit), (recorded level).Reach HolderUnlocks x →
      ∀ t, (x.st.th t).Quiet → ∀ via m, Lawful level x via t m := by
  intro hall
  have hlaw := hall (fun _ => 0) ⟨initial, fun _ => []⟩ (.start rfl) 0 ⟨.fresh, rfl⟩ .lock ()
  have hthrows : Throws (fun _ => 0) (initial : St ℕ Unit) .lock 0 () :=
    throws_of_le ⟨.fresh, rfl⟩ UInt64.le_rfl .lock
  obtain ⟨m, hm, -⟩ := hlaw.mp hthrows
  cases hm

end CppConcurrency.LevelMutex
