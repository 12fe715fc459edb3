/-
  LevelMutex under std::lock_guard, as in LevelMutex_use.cpp.

  `Code` is what a thread runs: scopes `{ std::lock_guard<LevelMutex> lock(m); body }` nested to
  any depth, with sequences, branches, loops, exceptions of its own and handlers in between.
  Any number of threads run such programs, one after another, on shared mutexes of any levels.

  `ctl` is where a thread stands in its program, as the statement in hand and the frames around
  it. lock() and unlock() run statement by statement in the model of LevelMutex (`mtx`),
  interleaved with those of the other threads. A lock() that throws leaves its scope with the
  exception; otherwise a `guard` frame stays on top of the frames of the scope until the
  statement in front of it is `over`, normally or by an exception, and its destructor calls
  unlock(). A destructor is noexcept: an unlock() that throws there is the end (`terminated`).
  An exception that leaves a program is caught by whoever started it. push_back does not fail.

  `Entry` is a ghost: what the thread was like when it came to the scope.
-/
import CppConcurrency.LevelMutex.Unlock

namespace CppConcurrency.LevelMutex

open Concur

/-- A program of lock_guard scopes. `branch` and `loop` test conditions of the environment. -/
inductive Code (μ : Type) where
  | skip
  | throws
  | seq (first second : Code μ)
  | branch (yes no : Code μ)
  | loop (body : Code μ)
  | attempt (body handler : Code μ)
  | scope (m : μ) (body : Code μ)
  deriving DecidableEq, Repr

/-- foo(): the third acquisition has the level of the first. -/
def foo : Code Mtx := .scope .mtx1 (.scope .mtx3 (.scope .mtx2 .skip))

/-- bar(): nested scopes, and two of them side by side. -/
def bar : Code Mtx :=
  .scope .mtx1 (.seq (.scope .mtx3 .skip) (.scope .mtx4 (.scope .mtx5 .skip)))

/-- The level and the mutexes of a thread that comes to a scope. -/
structure Entry (μ : Type) where
  threadLevel : UInt64
  held : List μ
  deriving DecidableEq, Repr

/-- What waits for a statement to be over: the statement after it, a handler around it, or the
    destructor of a lock_guard. -/
inductive Frame (μ : Type) where
  | next (second : Code μ)
  | handler (h : Code μ)
  | guard (m : μ) (e : Entry μ)
  deriving DecidableEq, Repr

/-- Where a thread stands in its program. `locking` and `unlocking` are inside the constructor
    and the destructor of a lock_guard; `left`: a scope has just been left. -/
inductive Ctl (μ : Type) where
  | done
  | eval (p : Code μ) (k : List (Frame μ))
  | locking (m : μ) (body : Code μ) (e : Entry μ) (k : List (Frame μ))
  | over (thrown : Bool) (k : List (Frame μ))
  | unlocking (m : μ) (e : Entry μ) (thrown : Bool) (k : List (Frame μ))
  | left (e : Entry μ) (thrown : Bool) (k : List (Frame μ))
  | terminated
  deriving DecidableEq, Repr

/-- The threads' programs and the mutexes. -/
structure ScopeSt (ι μ : Type) where
  ctl : ι → Ctl μ
  mtx : St ι μ

/-- `start`: a thread between two programs begins one; `choose`: a condition of its program is
    tested; `ctl`: any other step of the program; `run`: a statement of the member it is in. -/
inductive ScopeAct (ι μ : Type) where
  | start (t : ι) (p : Code μ)
  | choose (t : ι) (yes : Bool)
  | ctl (t : ι)
  | run (t : ι)
  deriving DecidableEq, Repr

variable {ι μ : Type} [DecidableEq ι]

/-- Thread `t` goes on at `c`. -/
def ScopeSt.goto (s : ScopeSt ι μ) (t : ι) (c : Ctl μ) : ScopeSt ι μ :=
  { s with ctl := Function.update s.ctl t c }

/-- Thread `t` begins a program. -/
def ScopeSt.start (s : ScopeSt ι μ) (t : ι) (p : Code μ) : Option (ScopeSt ι μ) :=
  match s.ctl t with
  | .done => some (s.goto t (.eval p []))
  | _ => none

/-- A condition turns out `yes` or not. -/
def ScopeSt.choose (s : ScopeSt ι μ) (t : ι) (yes : Bool) : Option (ScopeSt ι μ) :=
  match s.ctl t with
  | .eval (.branch p q) k => some (s.goto t (.eval (if yes then p else q) k))
  | .eval (.loop p) k =>
      some (s.goto t (if yes then .eval p (.next (.loop p) :: k) else .over false k))
  | _ => none

variable [DecidableEq μ]

/-- A step of the program of `t`, outside the members of LevelMutex. -/
def ScopeSt.advance (level : μ → UInt64) (s : ScopeSt ι μ) (t : ι) : Option (ScopeSt ι μ) :=
  match s.ctl t with
  | .eval .skip k => some (s.goto t (.over false k))
  | .eval .throws k => some (s.goto t (.over true k))
  | .eval (.seq p q) k => some (s.goto t (.eval p (.next q :: k)))
  | .eval (.attempt p h) k => some (s.goto t (.eval p (.handler h :: k)))
  | .eval (.scope m body) k =>
      let e : Entry μ := ⟨(s.mtx.th t).threadLevel, (s.mtx.th t).held⟩
      (step level s.mtx (.callLock t m)).map fun x =>
        { s.goto t (.locking m body e k) with mtx := x }
  | .locking m body e k =>
      match (s.mtx.th t).pc with
      | .idle .void => some (s.goto t (.eval body (.guard m e :: k)))
      | .idle (.logicError _) => some (s.goto t (.left e true k))
      | _ => none
  | .over _ [] => some (s.goto t .done)
  | .over thrown (.next q :: k) => some (s.goto t (if thrown then .over true k else .eval q k))
  | .over thrown (.handler h :: k) => some (s.goto t (if thrown then .eval h k else .over false k))
  | .over thrown (.guard m e :: k) =>
      (step level s.mtx (.callUnlock t m)).map fun x =>
        { s.goto t (.unlocking m e thrown k) with mtx := x }
  | .unlocking _ e thrown k =>
      match (s.mtx.th t).pc with
      | .idle .void => some (s.goto t (.left e thrown k))
      | .idle (.logicError _) => some (s.goto t .terminated)
      | _ => none
  | .left _ thrown k => some (s.goto t (.over thrown k))
  | _ => none

/-- One step. -/
def scopeStep (level : μ → UInt64) (s : ScopeSt ι μ) : ScopeAct ι μ → Option (ScopeSt ι μ)
  | .start t p => s.start t p
  | .choose t yes => s.choose t yes
  | .ctl t => s.advance level t
  | .run t => (step level s.mtx (.run t)).map fun x => { s with mtx := x }

omit [DecidableEq ι] [DecidableEq μ] in
/-- No thread has begun a program. -/
def scopeStart : ScopeSt ι μ := ⟨fun _ => .done, initial⟩

/-- Threads that run programs of scopes on shared mutexes of the given levels. -/
def scopes (level : μ → UInt64) : Lts (ScopeSt ι μ) (ScopeAct ι μ) where
  init s := s = scopeStart
  step := scopeStep level

/-! ## Where the threads are -/

section Places

variable {level : μ → UInt64} {x : Thread μ} {m : μ} {k : List (Frame μ)}

omit [DecidableEq μ] in
/-- The mutexes of the guards among the frames, the latest first. -/
def guards : List (Frame μ) → List μ
  | [] => []
  | .next _ :: k => guards k
  | .handler _ :: k => guards k
  | .guard m _ :: k => m :: guards k

omit [DecidableEq μ] in
/-- A thread between two calls, with these frames around it. -/
def entryOf (level : μ → UInt64) (k : List (Frame μ)) : Entry μ :=
  ⟨topLevel level (guards k), guards k⟩

omit [DecidableEq μ] in
/-- Every guard knows what the thread was like with the frames below it. -/
def Framed (level : μ → UInt64) : List (Frame μ) → Prop
  | [] => True
  | .next _ :: k => Framed level k
  | .handler _ :: k => Framed level k
  | .guard _ e :: k => e = entryOf level k ∧ Framed level k

omit [DecidableEq μ] in
/-- The thread is between two calls and holds the mutexes of its guards. -/
structure Between (level : μ → UInt64) (x : Thread μ) (k : List (Frame μ)) : Prop where
  quiet : x.Quiet
  held : x.held = guards k
  framed : Framed level k

omit [DecidableEq μ] in
/-- A thread that came to lock() of `m` with `ms` in its hands. -/
def AtLock (m : μ) (ms : List μ) (x : Thread μ) : Prop :=
  match x.pc with
  | .check via m' => via = .lock ∧ m' = m ∧ x.held = ms
  | .mtxLock m' => m' = m ∧ x.held = ms
  | .pushBack via m' => via = .lock ∧ m' = m ∧ x.held = m :: ms
  | .raise via m' => via = .lock ∧ m' = m ∧ x.held = m :: ms
  | .idle .void => x.held = m :: ms
  | .idle (.logicError _) => x.held = ms
  | _ => False

omit [DecidableEq μ] in
/-- A thread that came to unlock() of `m` with `ms` under it. -/
def AtUnlock (m : μ) (ms : List μ) (x : Thread μ) : Prop :=
  match x.pc with
  | .unlockCheck m' => m' = m ∧ x.held = m :: ms
  | .popBack m' => m' = m ∧ x.held = m :: ms
  | .reset m' _ => m' = m ∧ x.held = m :: ms
  | .mtxUnlock m' => m' = m ∧ x.held = m :: ms
  | .idle last => last = .void ∧ x.held = ms
  | _ => False

omit [DecidableEq μ] in
/-- A thread and its place in the program fit together. -/
def Stage (level : μ → UInt64) (x : Thread μ) : Ctl μ → Prop
  | .done => Between level x []
  | .eval _ k => Between level x k
  | .over _ k => Between level x k
  | .locking m _ e k => Framed level k ∧ e = entryOf level k ∧ AtLock m (guards k) x
  | .unlocking m e _ k => Framed level k ∧ e = entryOf level k ∧ AtUnlock m (guards k) x
  | .left e _ k => e = entryOf level k ∧ Between level x k
  | .terminated => False

/-! ## The members keep to their place -/

variable {s s' : St ι μ} {t : ι} {ms : List μ}

theorem atLock_run (h : AtLock m ms (s.th t)) (hs : run level s t = some s') :
    AtLock m ms (s'.th t) := by
  unfold AtLock at h
  cases moves_of_run hs with
  | refused via m' hpc hle =>
      rw [hpc] at h
      rw [put_self]
      exact h.2.2
  | passed via m' hpc hlt =>
      rw [hpc] at h
      obtain ⟨rfl, hm, hheld⟩ := h
      rw [put_self]
      exact ⟨hm, hheld⟩
  | acquired via m' hpc hfree =>
      change AtLock m ms ((s.put t _).th t)
      rw [hpc] at h
      rw [put_self]
      cases via with
      | lock =>
          obtain ⟨rfl, hheld⟩ := h
          exact ⟨rfl, rfl, congrArg (m' :: ·) hheld⟩
      | tryLock => exact h.elim
  | pushed via m' hpc =>
      change AtLock m ms ((s.put t _).th t)
      rw [hpc] at h
      rw [put_self]
      exact h
  | raised via m' hpc =>
      rw [hpc] at h
      obtain ⟨rfl, -, hheld⟩ := h
      rw [put_self]
      exact hheld
  | unlockRefused m' hpc | unlockPassed m' hpc | popEmpty m' hpc | popped m' p hpc
  | wasReset m' p hpc | unlocked m' hpc =>
      rw [hpc] at h
      exact h.elim

/-- The level check of unlock() passes for the latest mutex. -/
theorem unlockCheck_passes (hi : Inv level s) (hpc : (s.th t).pc = .unlockCheck m)
    (hheld : (s.th t).held = m :: ms) :
    run level s t = some (s.put t { s.th t with pc := .popBack m }) := by
  have hlast : (s.th t).acquired.getLast? = some m := by
    rw [Thread.acquired, hheld, List.reverse_cons, List.getLast?_concat]
  rw [run_unlockCheck hi hpc, if_pos hlast]

theorem atUnlock_run (hi : Inv level s) (h : AtUnlock m ms (s.th t))
    (hs : run level s t = some s') : AtUnlock m ms (s'.th t) := by
  unfold AtUnlock at h
  cases moves_of_run hs with
  | unlockRefused m' hpc hne =>
      -- not here: the thread has the level of its latest mutex
      rw [hpc] at h
      obtain ⟨rfl, hheld⟩ := h
      have ht := hi.thread t
      rw [ThreadInv, hpc, Settled, hheld] at ht
      exact absurd ht.1.2 hne
  | unlockPassed m' hpc heq | popEmpty m' hpc hp | wasReset m' p hpc =>
      rw [hpc] at h
      rw [put_self]
      exact h
  | popped m' p hpc hp =>
      change AtUnlock m ms ((s.put t _).th t)
      rw [hpc] at h
      rw [put_self]
      exact h
  | unlocked m' hpc =>
      change AtUnlock m ms ((s.put t _).th t)
      rw [hpc] at h
      obtain ⟨rfl, hheld⟩ := h
      rw [put_self, hheld, List.erase_cons_head]
      exact ⟨rfl, rfl⟩
  | acquired via m' hpc hfree =>
      rw [hpc] at h
      cases via <;> exact h.elim
  | refused via m' hpc hle | passed via m' hpc hlt | pushed via m' hpc | raised via m' hpc =>
      rw [hpc] at h
      exact h.elim

end Places

/-! ## The invariant -/

/-- LevelMutex is used with discipline, and every thread is at a place that fits. -/
structure Clean (level : μ → UInt64) (s : ScopeSt ι μ) : Prop where
  inv : Inv level s.mtx
  stage : ∀ t, Stage level (s.mtx.th t) (s.ctl t)

section Steps

variable {level : μ → UInt64} {s s' : ScopeSt ι μ} {t : ι}

omit [DecidableEq ι] [DecidableEq μ] in
theorem clean_start : Clean level (scopeStart : ScopeSt ι μ) :=
  ⟨inv_initial, fun _ => ⟨⟨.fresh, rfl⟩, rfl, trivial⟩⟩

omit [DecidableEq ι] [DecidableEq μ] in
theorem Clean.stage_of (h : Clean level s) {c : Ctl μ} (hc : s.ctl t = c) :
    Stage level (s.mtx.th t) c :=
  hc ▸ h.stage t

omit [DecidableEq μ] in
/-- Thread `t` goes on at `c`, and nothing else moves but `t` in the mutexes. -/
theorem Clean.moved (h : Clean level s) {c : Ctl μ} {mtx : St ι μ} (hi : Inv level mtx)
    (hother : ∀ u, u ≠ t → mtx.th u = s.mtx.th u) (hc : Stage level (mtx.th t) c) :
    Clean level { s.goto t c with mtx := mtx } where
  inv := hi
  stage u := by
    by_cases hu : u = t
    · subst hu
      simpa only [ScopeSt.goto, Function.update_self] using hc
    · simpa only [ScopeSt.goto, Function.update_of_ne hu, hother u hu] using h.stage u

omit [DecidableEq μ] in
theorem Clean.goto (h : Clean level s) {c : Ctl μ} (hc : Stage level (s.mtx.th t) c) :
    Clean level (s.goto t c) :=
  h.moved h.inv (fun _ _ => rfl) hc

omit [DecidableEq ι] [DecidableEq μ] in
/-- Between two calls the levels are those of the guards. -/
theorem Clean.entryOf_eq (h : Clean level s) {k : List (Frame μ)}
    (hb : Between level (s.mtx.th t) k) :
    entryOf level k = ⟨(s.mtx.th t).threadLevel, (s.mtx.th t).held⟩ := by
  obtain ⟨last, hidle⟩ := hb.quiet
  have ht := h.inv.thread t
  rw [ThreadInv, hidle] at ht
  rw [entryOf, ← hb.held, ht.2]

/-- A thread comes to a scope and calls lock(). -/
theorem Clean.callLock (h : Clean level s) {m : μ} {body : Code μ} {k : List (Frame μ)}
    {mtx : St ι μ} (hb : Between level (s.mtx.th t) k)
    (hs : step level s.mtx (.callLock t m) = some mtx) :
    Clean level { s.goto t (.locking m body (entryOf level k) k) with mtx := mtx } := by
  refine h.moved (inv_step (a := .callLock t m) h.inv trivial hs) (fun u hu => step_other hs hu) ?_
  rw [(call_eq_some hs).2, put_self]
  exact ⟨hb.framed, rfl, rfl, rfl, hb.held⟩

/-- The statement under a guard is over, and its destructor calls unlock(). -/
theorem Clean.callUnlock (h : Clean level s) {m : μ} {e : Entry μ} {thrown : Bool}
    {k : List (Frame μ)} {mtx : St ι μ} (hb : Between level (s.mtx.th t) (.guard m e :: k))
    (hs : step level s.mtx (.callUnlock t m) = some mtx) :
    Clean level { s.goto t (.unlocking m e thrown k) with mtx := mtx } := by
  have hmem : m ∈ (s.mtx.th t).held := by
    rw [hb.held]
    exact List.mem_cons_self
  have howner : s.mtx.owner m = some t := (h.inv.owns m t).mpr hmem
  refine h.moved (inv_step (a := .callUnlock t m) h.inv howner hs) (fun u hu => step_other hs hu) ?_
  rw [(call_eq_some hs).2, put_self]
  exact ⟨hb.framed.2, hb.framed.1, rfl, hb.held⟩

theorem Clean.advance (h : Clean level s) (hs : s.advance level t = some s') :
    Clean level s' := by
  unfold ScopeSt.advance at hs
  split at hs
  case h_1 k hc | h_2 k hc =>
    cases hs
    have hb : Between level (s.mtx.th t) k := h.stage_of hc
    exact h.goto hb
  case h_3 p q k hc | h_4 p q k hc =>
    cases hs
    have hb : Between level (s.mtx.th t) k := h.stage_of hc
    exact h.goto ⟨hb.quiet, hb.held, hb.framed⟩
  case h_5 m body k hc =>
    obtain ⟨mtx, hm, rfl⟩ := Option.map_eq_some_iff.mp hs
    have hb : Between level (s.mtx.th t) k := h.stage_of hc
    rw [← h.entryOf_eq hb]
    exact h.callLock hb hm
  case h_6 m body e k hc =>
    obtain ⟨hf, he, hat⟩ := h.stage_of hc
    unfold AtLock at hat
    split at hs
    · next hpc =>
        cases hs
        rw [hpc] at hat
        exact h.goto ⟨⟨.void, hpc⟩, hat, he, hf⟩
    · next what hpc =>
        cases hs
        rw [hpc] at hat
        exact h.goto ⟨he, ⟨.logicError what, hpc⟩, hat, hf⟩
    · cases hs
  case h_7 thrown hc =>
    cases hs
    have hb : Between level (s.mtx.th t) [] := h.stage_of hc
    exact h.goto hb
  case h_8 thrown q k hc | h_9 thrown q k hc =>
    cases hs
    have hb := h.stage_of hc
    refine h.goto ?_
    split
    · exact ⟨hb.quiet, hb.held, hb.framed⟩
    · exact ⟨hb.quiet, hb.held, hb.framed⟩
  case h_10 thrown m e k hc =>
    obtain ⟨mtx, hm, rfl⟩ := Option.map_eq_some_iff.mp hs
    exact h.callUnlock (h.stage_of hc) hm
  case h_11 m e thrown k hc =>
    obtain ⟨hf, he, hat⟩ := h.stage_of hc
    unfold AtUnlock at hat
    split at hs
    · next hpc =>
        cases hs
        rw [hpc] at hat
        exact h.goto ⟨he, ⟨.void, hpc⟩, hat.2, hf⟩
    · next what hpc =>
        rw [hpc] at hat
        cases hat.1
    · cases hs
  case h_12 e thrown k hc =>
    cases hs
    have hb : Between level (s.mtx.th t) k := (h.stage_of hc).2
    exact h.goto hb
  case h_13 => cases hs

omit [DecidableEq μ] in
theorem Clean.choose (h : Clean level s) {yes : Bool} (hs : s.choose t yes = some s') :
    Clean level s' := by
  unfold ScopeSt.choose at hs
  split at hs
  case h_1 p q k hc =>
    cases hs
    have hb : Between level (s.mtx.th t) k := h.stage_of hc
    exact h.goto hb
  case h_2 p k hc =>
    cases hs
    have hb : Between level (s.mtx.th t) k := h.stage_of hc
    refine h.goto ?_
    split
    · exact ⟨hb.quiet, hb.held, hb.framed⟩
    · exact hb
  case h_3 => cases hs

theorem Clean.run (h : Clean level s) {mtx : St ι μ} (hs : step level s.mtx (.run t) = some mtx) :
    Clean level { s with mtx := mtx } := by
  have hi : Inv level mtx := inv_step (a := .run t) h.inv trivial hs
  have hstage : Stage level (mtx.th t) (s.ctl t) := by
    have hc := h.stage t
    have hquiet : ¬ (s.mtx.th t).Quiet := by
      rintro ⟨last, hidle⟩
      simp only [step, LevelMutex.run, hidle, reduceCtorEq] at hs
    cases hctl : s.ctl t with
    | locking m body e k =>
        rw [hctl] at hc
        exact ⟨hc.1, hc.2.1, atLock_run hc.2.2 hs⟩
    | unlocking m e thrown k =>
        rw [hctl] at hc
        exact ⟨hc.1, hc.2.1, atUnlock_run h.inv hc.2.2 hs⟩
    | left e thrown k =>
        rw [hctl] at hc
        exact absurd hc.2.quiet hquiet
    | terminated =>
        rw [hctl] at hc
        exact hc.elim
    | _ =>
        rw [hctl] at hc
        exact absurd hc.quiet hquiet
  have hother : ∀ u, u ≠ t → mtx.th u = s.mtx.th u := fun u hu => step_other hs hu
  have hmoved := h.moved hi hother hstage
  rwa [show s.goto t (s.ctl t) = s by rw [ScopeSt.goto, Function.update_eq_self]] at hmoved

/-- Every step keeps the invariant. -/
theorem clean_step (h : Clean level s) {a : ScopeAct ι μ} (hs : scopeStep level s a = some s') :
    Clean level s' := by
  cases a with
  | start t p =>
      simp only [scopeStep, ScopeSt.start] at hs
      split at hs
      · next hc =>
          cases hs
          have hb : Between level (s.mtx.th t) [] := h.stage_of hc
          exact h.goto hb
      · cases hs
  | choose t yes => exact h.choose hs
  | ctl t => exact h.advance hs
  | run t =>
      obtain ⟨mtx, hm, rfl⟩ := Option.map_eq_some_iff.mp hs
      exact h.run hm

theorem clean_reach (h : (scopes level).Reachable s) : Clean level s := by
  refine h.invariant (fun s hs => ?_) fun s a s' _ hi _ hs => clean_step hi hs
  cases (hs : s = scopeStart)
  exact clean_start

/-! ## Scoped use is clean -/

/-- **Scoped use of LevelMutex is clean.** In every state that any number of threads reach by
    running programs of scopes, at every unlock() of a destructor the level check passes, no
    such unlock() has thrown, and a thread that has just left a scope, normally or by an
    exception, has the `thread_level` and holds the mutexes it had when it came to it. -/
theorem scopes_clean (level : μ → UInt64) (s : ScopeSt ι μ) (h : (scopes level).Reachable s) :
    (∀ t m e thrown k, s.ctl t = .unlocking m e thrown k →
      ((s.mtx.th t).pc = .unlockCheck m → LevelMutex.run level s.mtx t =
        some (s.mtx.put t { s.mtx.th t with pc := .popBack m })) ∧
      ∀ what, (s.mtx.th t).pc ≠ .idle (.logicError what)) ∧
    (∀ t, s.ctl t ≠ .terminated) ∧
    (∀ t e thrown k, s.ctl t = .left e thrown k →
      (s.mtx.th t).threadLevel = e.threadLevel ∧ (s.mtx.th t).held = e.held ∧
        ∀ m, s.mtx.owner m = some t ↔ m ∈ e.held) := by
  have hi := clean_reach h
  refine ⟨fun t m e thrown k hc => ?_, fun t hc => ?_, fun t e thrown k hc => ?_⟩
  · obtain ⟨-, -, hat⟩ := hi.stage_of hc
    unfold AtUnlock at hat
    refine ⟨fun hpc => ?_, fun what hpc => ?_⟩
    · rw [hpc] at hat
      exact unlockCheck_passes hi.inv hpc hat.2
    · rw [hpc] at hat
      cases hat.1
  · exact hi.stage_of hc
  · obtain ⟨rfl, hb⟩ := hi.stage_of hc
    have he := hi.entryOf_eq hb
    rw [he]
    exact ⟨rfl, rfl, fun m => hi.inv.owns m t⟩

/-- Thread 0 alone goes through a lock() or an unlock() that does not throw. -/
def member : List (ScopeAct ℕ Mtx) := [.ctl 0, .run 0, .run 0, .run 0, .run 0, .ctl 0]

/-- foo(): its third lock() throws, and the lock_guard of mtx3 has unwound. -/
def fooThrows : List (ScopeAct ℕ Mtx) :=
  [.start 0 foo] ++ member ++ member ++ [.ctl 0, .run 0, .ctl 0, .ctl 0] ++ member

/-- The state after `fooThrows`. -/
def fooUnwound : ScopeSt ℕ Mtx :=
  ((scopes Mtx.mutexLevel).exec Lts.anyStep scopeStart fooThrows).get (by decide)

theorem scopes_clean_fooUnwound :
    fooUnwound.ctl 0 = .left ⟨10, [.mtx1]⟩ true [.guard .mtx1 ⟨0, []⟩] ∧
      (fooUnwound.mtx.th 0).threadLevel = 10 ∧ (fooUnwound.mtx.th 0).held = [.mtx1] := by
  have hs : (scopes Mtx.mutexLevel).Reachable fooUnwound :=
    .exec _ (.start rfl) (Option.some_get _).symm
  have hleft : fooUnwound.ctl 0 = .left ⟨10, [.mtx1]⟩ true [.guard .mtx1 ⟨0, []⟩] := by decide
  have hclean := (scopes_clean Mtx.mutexLevel fooUnwound hs).2.2 0 _ _ _ hleft
  exact ⟨hleft, hclean.1, hclean.2.1⟩

/-- bar() runs to its end. -/
def barReturns : List (ScopeAct ℕ Mtx) :=
  [.start 0 bar] ++ member ++ [.ctl 0] ++ member ++ [.ctl 0] ++ member ++ [.ctl 0, .ctl 0] ++
    member ++ member ++ [.ctl 0] ++ member ++ [.ctl 0] ++ member ++ [.ctl 0] ++ member ++
    [.ctl 0, .ctl 0]

example : ((scopes Mtx.mutexLevel).exec Lts.anyStep scopeStart barReturns).map
    (fun s => (s.ctl 0, (s.mtx.th 0).threadLevel, (s.mtx.th 0).held)) = some (.done, 0, []) := by
  decide

end Steps

end CppConcurrency.LevelMutex
