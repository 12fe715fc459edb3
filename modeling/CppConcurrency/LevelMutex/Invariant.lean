/-
  LevelMutex: the invariant of disciplined runs.

  `Stacked level prev held` says that the mutexes of `held` (latest first) form a chain:
  each has a level above the one below it, and its `prev_levels` holds exactly that level
  (0 at the bottom). `ThreadInv` says, for each statement a thread can be at, how far its
  own operation has broken or restored the chain. Outside a member the chain is whole and
  `thread_level` is its top level.

  A thread only writes the `prev_levels` of a mutex it holds, and it is the only holder
  (`Owns`), so the other threads' chains are not touched (`threadInv_congr`).
-/
import CppConcurrency.Lib.Mutual
import CppConcurrency.LevelMutex.Model

namespace CppConcurrency.LevelMutex

open Concur

variable {ι μ : Type} {level : μ → UInt64}

/-! ## Chains of held mutexes -/

/-- The level of the latest mutex of a list, 0 for the empty one. -/
def topLevel (level : μ → UInt64) : List μ → UInt64
  | [] => 0
  | m :: _ => level m

/-- The chain of levels saved in the held mutexes. -/
def Stacked (level : μ → UInt64) (prev : μ → List UInt64) : List μ → Prop
  | [] => True
  | m :: ms => topLevel level ms < level m ∧ prev m = [topLevel level ms] ∧
      Stacked level prev ms

theorem Stacked.level_le_top {prev : μ → List UInt64} {ms : List μ} (h : Stacked level prev ms)
    {m : μ} (hm : m ∈ ms) : level m ≤ topLevel level ms := by
  induction ms with
  | nil => cases hm
  | cons a ms ih =>
      rcases List.mem_cons.mp hm with rfl | hm
      · exact UInt64.le_rfl
      · exact UInt64.le_of_lt (UInt64.lt_of_le_of_lt (ih h.2.2 hm) h.1)

/-- Nothing in a chain reaches a level above its top. -/
theorem Stacked.not_mem {prev : μ → List UInt64} {ms : List μ} (h : Stacked level prev ms)
    {m : μ} (hm : topLevel level ms < level m) : m ∉ ms := by
  intro hmem
  exact UInt64.lt_irrefl _ (UInt64.lt_of_le_of_lt (h.level_le_top hmem) hm)

/-- Only the top of a chain has its level. -/
theorem Stacked.eq_cons {prev : μ → List UInt64} {ms : List μ} (h : Stacked level prev ms)
    {m : μ} (hm : m ∈ ms) (ht : level m = topLevel level ms) : ∃ ms', ms = m :: ms' := by
  cases ms with
  | nil => cases hm
  | cons a ms =>
      rcases List.mem_cons.mp hm with rfl | hm
      · exact ⟨ms, rfl⟩
      · have hlt : level m < level a := UInt64.lt_of_le_of_lt (h.2.2.level_le_top hm) h.1
        rw [ht] at hlt
        exact absurd hlt (UInt64.lt_irrefl _)

theorem Stacked.congr {prev prev' : μ → List UInt64} {ms : List μ}
    (hp : ∀ m ∈ ms, prev' m = prev m) (h : Stacked level prev ms) : Stacked level prev' ms := by
  induction ms with
  | nil => trivial
  | cons a ms ih =>
      refine ⟨h.1, ?_, ih (fun m hm => hp m (List.mem_cons_of_mem a hm)) h.2.2⟩
      rw [hp a List.mem_cons_self]
      exact h.2.1

/-- Writing the saved levels of a mutex outside the chain leaves the chain alone. -/
theorem Stacked.update [DecidableEq μ] {prev : μ → List UInt64} {ms : List μ}
    (h : Stacked level prev ms) {m : μ} (hm : m ∉ ms) (l : List UInt64) :
    Stacked level (Function.update prev m l) ms :=
  h.congr fun _ hm' => Function.update_of_ne (ne_of_mem_of_not_mem hm' hm) l prev

theorem Stacked.pairwise {prev : μ → List UInt64} {ms : List μ} (h : Stacked level prev ms) :
    ms.Pairwise fun m m' => level m' < level m := by
  induction ms with
  | nil => exact List.Pairwise.nil
  | cons a ms ih =>
      refine List.pairwise_cons.mpr ⟨fun m hm => ?_, ih h.2.2⟩
      exact UInt64.lt_of_le_of_lt (h.2.2.level_le_top hm) h.1

/-! ## The invariant of one thread -/

/-- The chain is whole and `thread_level` is its top. -/
def Settled (level : μ → UInt64) (prev : μ → List UInt64) (x : Thread μ) : Prop :=
  Stacked level prev x.held ∧ x.threadLevel = topLevel level x.held

/-- `m` is held on top of a chain that lies below its level, and has no level saved. -/
def Bare (level : μ → UInt64) (prev : μ → List UInt64) (m : μ) (x : Thread μ) : Prop :=
  ∃ ms, x.held = m :: ms ∧ Stacked level prev ms ∧ topLevel level ms < level m ∧ prev m = []

/-- What holds of a thread at each statement. -/
def ThreadInv (level : μ → UInt64) (prev : μ → List UInt64) (x : Thread μ) : Prop :=
  match x.pc with
  | .idle _ => Settled level prev x
  | .check _ _ => Settled level prev x
  | .mtxLock m => Settled level prev x ∧ x.threadLevel < level m
  | .mtxTryLock m => Settled level prev x ∧ x.threadLevel < level m
  | .pushBack _ m => Bare level prev m x ∧ x.threadLevel = topLevel level x.held.tail
  | .raise _ m => Stacked level prev x.held ∧ ∃ ms, x.held = m :: ms
  | .unlockCheck m => Settled level prev x ∧ m ∈ x.held
  | .popBack m => Stacked level prev x.held ∧ ∃ ms, x.held = m :: ms
  | .reset m p => Bare level prev m x ∧ p = topLevel level x.held.tail
  | .mtxUnlock m => Bare level prev m x ∧ x.threadLevel = topLevel level x.held.tail

theorem Bare.congr {prev prev' : μ → List UInt64} {m : μ} {x : Thread μ}
    (hp : ∀ m' ∈ x.held, prev' m' = prev m') (h : Bare level prev m x) : Bare level prev' m x := by
  obtain ⟨ms, hx, hs, hl, hm⟩ := h
  rw [hx] at hp
  refine ⟨ms, hx, hs.congr fun m' hm' => hp m' (List.mem_cons_of_mem m hm'), hl, ?_⟩
  rw [hp m List.mem_cons_self]
  exact hm

/-- A thread's invariant only reads the saved levels of the mutexes it holds. -/
theorem threadInv_congr {prev prev' : μ → List UInt64} {x : Thread μ}
    (hp : ∀ m ∈ x.held, prev' m = prev m) (h : ThreadInv level prev x) :
    ThreadInv level prev' x := by
  unfold ThreadInv at h ⊢
  cases hpc : x.pc with
  | mtxLock | mtxTryLock | unlockCheck =>
      rw [hpc] at h
      exact ⟨⟨h.1.1.congr hp, h.1.2⟩, h.2⟩
  | idle | check | pushBack | raise | popBack | reset | mtxUnlock =>
      rw [hpc] at h
      exact ⟨h.1.congr hp, h.2⟩

/-! ## The invariant of the system -/

/-- A thread holds what it has acquired and not released. -/
def holds (x : Thread μ) (m : μ) : Prop := m ∈ x.held

/-- The invariant of disciplined runs. -/
structure Inv (level : μ → UInt64) (s : St ι μ) : Prop where
  owns : Owns holds s.th s.owner
  thread : ∀ t, ThreadInv level s.prevLevels (s.th t)
  free : ∀ m, s.owner m = none → s.prevLevels m = []

theorem inv_initial : Inv level (initial : St ι μ) where
  owns m t := by simp [initial, holds]
  thread _ := ⟨trivial, rfl⟩
  free _ _ := rfl

section Steps

variable [DecidableEq ι] {s : St ι μ} {t : ι}

/-- The step moves `t` and touches neither mutexes nor saved levels. -/
theorem Inv.put (h : Inv level s) {x : Thread μ} (hheld : x.held = (s.th t).held)
    (hx : ThreadInv level s.prevLevels x) : Inv level (s.put t x) where
  owns := h.owns.stay fun m => by unfold holds; rw [hheld]
  thread := forall_update h.thread hx
  free := h.free

theorem inv_call (h : Inv level s) {pc : Pc μ} {s' : St ι μ} (hs : call s t pc = some s')
    (hpc : Settled level s.prevLevels (s.th t) →
      ThreadInv level s.prevLevels { s.th t with pc := pc }) : Inv level s' := by
  obtain ⟨⟨last, hidle⟩, rfl⟩ := call_eq_some hs
  have ht := h.thread t
  rw [ThreadInv, hidle] at ht
  exact h.put rfl (hpc ht)

variable [DecidableEq μ]

/-- The step moves `t` and writes the saved levels of a mutex that `t` holds. -/
theorem Inv.putLevels (h : Inv level s) {x : Thread μ} {m : μ} {l : List UInt64}
    (hheld : x.held = (s.th t).held) (hm : m ∈ (s.th t).held)
    (hx : ThreadInv level (Function.update s.prevLevels m l) x) :
    Inv level { s.put t x with prevLevels := Function.update s.prevLevels m l } where
  owns := h.owns.stay fun m => by unfold holds; rw [hheld]
  thread u := by
    by_cases hu : u = t
    · subst hu
      simpa only [St.put, Function.update_self] using hx
    · simp only [St.put, Function.update_of_ne hu]
      refine threadInv_congr (fun m' hm' => ?_) (h.thread u)
      have hne : m' ≠ m := by
        rintro rfl
        exact hu (h.owns.unique hm' hm)
      rw [Function.update_of_ne hne]
  free m' hm' := by
    have hne : m' ≠ m := by
      rintro rfl
      exact h.owns.not_holds_of_free hm' t hm
    show Function.update s.prevLevels m l m' = []
    rw [Function.update_of_ne hne]
    exact h.free m' hm'

/-- A thread takes a free mutex of a level above its own. -/
theorem inv_acquired (h : Inv level s) {via : Via} {m : μ} (hfree : s.owner m = none)
    (hset : Settled level s.prevLevels (s.th t)) (hlt : (s.th t).threadLevel < level m) :
    Inv level { s.put t { s.th t with pc := .pushBack via m, held := m :: (s.th t).held } with
      owner := Function.update s.owner m (some t) } := by
  rw [hset.2] at hlt
  refine ⟨h.owns.acquire hfree fun m' => List.mem_cons, ?_, fun m' hm' => ?_⟩
  · exact forall_update h.thread ⟨⟨_, rfl, hset.1, hlt, h.free m hfree⟩, hset.2⟩
  · by_cases hne : m' = m
    · subst hne
      exact h.free m' hfree
    · exact h.free m' (by simpa only [Function.update_of_ne hne] using hm')

/-- A completed unlock() gives the mutex back with nothing saved in it. -/
theorem inv_mtxUnlock (h : Inv level s) {m : μ} (hb : Bare level s.prevLevels m (s.th t))
    (htop : (s.th t).threadLevel = topLevel level (s.th t).held.tail) :
    Inv level { s.put t { s.th t with pc := .idle .void, held := (s.th t).held.erase m } with
      owner := Function.update s.owner m none } := by
  obtain ⟨ms, hheld, hst, hlt, hprev⟩ := hb
  have hnot : m ∉ ms := hst.not_mem hlt
  have herase : (s.th t).held.erase m = ms := by rw [hheld, List.erase_cons_head]
  rw [herase]
  rw [hheld] at htop
  refine ⟨h.owns.release (m := m) ?_ fun m' => ?_, forall_update h.thread ⟨hst, htop⟩,
    fun m' hm' => ?_⟩
  · unfold holds
    rw [hheld]
    exact List.mem_cons_self
  · unfold holds
    rw [hheld, List.mem_cons]
    constructor
    · intro hm'
      exact ⟨fun he => hnot (he ▸ hm'), Or.inr hm'⟩
    · rintro ⟨hne, hm'⟩
      exact hm'.resolve_left hne
  · by_cases hne : m' = m
    · subst hne
      exact hprev
    · exact h.free m' (by simpa only [Function.update_of_ne hne] using hm')

/-- push_back saves the level below in the mutex just taken. -/
theorem inv_pushed (h : Inv level s) {via : Via} {m : μ} (hb : Bare level s.prevLevels m (s.th t))
    (htop : (s.th t).threadLevel = topLevel level (s.th t).held.tail) :
    Inv level { s.put t { s.th t with pc := .raise via m } with
      prevLevels :=
        Function.update s.prevLevels m (s.prevLevels m ++ [(s.th t).threadLevel]) } := by
  obtain ⟨ms, hheld, hst, hlt, hprev⟩ := hb
  have hnot : m ∉ ms := hst.not_mem hlt
  refine h.putLevels rfl (hheld ▸ List.mem_cons_self) ⟨?_, ms, hheld⟩
  rw [hheld] at htop ⊢
  refine ⟨hlt, ?_, hst.update hnot _⟩
  rw [Function.update_self, hprev, htop]
  rfl

/-- pop_back takes it out again. -/
theorem inv_popped (h : Inv level s) {m : μ} {ms : List μ} {prevLevel : UInt64}
    (hst : Stacked level s.prevLevels (s.th t).held) (hheld : (s.th t).held = m :: ms)
    (hp : (s.prevLevels m).getLast? = some prevLevel) :
    Inv level { s.put t { s.th t with pc := .reset m prevLevel } with
      prevLevels := Function.update s.prevLevels m (s.prevLevels m).dropLast } := by
  have hmem : m ∈ (s.th t).held := hheld ▸ List.mem_cons_self
  rw [hheld] at hst
  obtain ⟨hlt, hprev, hst⟩ := hst
  rw [hprev] at hp ⊢
  refine h.putLevels rfl hmem ⟨⟨ms, hheld, hst.update (hst.not_mem hlt) _, hlt, ?_⟩, ?_⟩
  · rw [Function.update_self]
    rfl
  · rw [hheld]
    exact (Option.some.inj hp).symm

/-- Every statement of a thread keeps the invariant. -/
theorem inv_run (h : Inv level s) {s' : St ι μ} (hs : run level s t = some s') :
    Inv level s' := by
  have ht := h.thread t
  unfold ThreadInv at ht
  cases moves_of_run hs with
  | refused via m hpc hle =>
      rw [hpc] at ht
      exact h.put rfl ht
  | passed via m hpc hlt =>
      rw [hpc] at ht
      cases via with
      | lock => exact h.put rfl ⟨ht, hlt⟩
      | tryLock => exact h.put rfl ⟨ht, hlt⟩
  | acquired via m hpc hfree =>
      rw [hpc] at ht
      cases via with
      | lock => exact inv_acquired h hfree ht.1 ht.2
      | tryLock => exact inv_acquired h hfree ht.1 ht.2
  | pushed via m hpc =>
      rw [hpc] at ht
      exact inv_pushed h ht.1 ht.2
  | raised via m hpc =>
      rw [hpc] at ht
      obtain ⟨hst, ms, hheld⟩ := ht
      refine h.put rfl ⟨hst, ?_⟩
      simp only [hheld, topLevel]
  | unlockRefused m hpc hne =>
      rw [hpc] at ht
      exact h.put rfl ht.1
  | unlockPassed m hpc heq =>
      rw [hpc] at ht
      obtain ⟨⟨hst, htop⟩, hm⟩ := ht
      have hlevel : level m = topLevel level (s.th t).held := heq.symm.trans htop
      exact h.put rfl ⟨hst, hst.eq_cons hm hlevel⟩
  | popEmpty m hpc hp =>
      rw [hpc] at ht
      obtain ⟨hst, ms, hheld⟩ := ht
      rw [hheld] at hst
      rw [hst.2.1] at hp
      cases hp
  | popped m p hpc hp =>
      rw [hpc] at ht
      obtain ⟨hst, ms, hheld⟩ := ht
      exact inv_popped h hst hheld hp
  | wasReset m p hpc =>
      rw [hpc] at ht
      exact h.put rfl ⟨ht.1, ht.2⟩
  | unlocked m hpc =>
      rw [hpc] at ht
      exact inv_mtxUnlock h ht.1 ht.2

/-- Every step of a disciplined run keeps the invariant. -/
theorem inv_step (h : Inv level s) {a : Act ι μ} {s' : St ι μ} (hg : Disciplined s a)
    (hs : step level s a = some s') : Inv level s' := by
  cases a with
  | callLock t m => exact inv_call h hs id
  | callTryLock t m => exact inv_call h hs id
  | callUnlock t m => exact inv_call h hs fun hset => ⟨hset, (h.owns m t).mp hg⟩
  | run t => exact inv_run h hs
  | tryFails t =>
      obtain ⟨m, hpc, rfl⟩ := tryFails_eq_some hs
      have ht := h.thread t
      rw [ThreadInv, hpc] at ht
      exact h.put rfl ht.1
  | pushFails t => exact absurd hg id

theorem inv_reach (h : (sys level).Reach Disciplined s) : Inv level s :=
  h.invariant (fun s (hs : s = initial) => hs ▸ inv_initial)
    fun _ _ _ _ hi hg hs => inv_step hi hg hs

end Steps

end CppConcurrency.LevelMutex
