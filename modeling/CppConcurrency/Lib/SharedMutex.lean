/-
  Readers and writers.

  A shared mutex is held by any number of threads in shared mode, or by one thread in
  exclusive mode. `Holds mode loc m` says that its state agrees with the modes in which the
  threads' local states hold it, and that an exclusive holder is alone. The steps that can
  touch it are `Holds.stay`, `lockShared`, `lock`, `unlockShared` and `unlock`.
-/
import CppConcurrency.Lib.Mutual

namespace Concur

/-- The two ways to hold a shared mutex. -/
inductive Mode where
  | shared
  | exclusive
  deriving DecidableEq, Repr

/-- Who holds a shared mutex. -/
structure SharedMutex (ι : Type*) where
  exclusive : Option ι
  shared : List ι
  deriving DecidableEq, Repr

namespace SharedMutex

variable {ι L : Type*}

/-- Nobody. -/
def free : SharedMutex ι := ⟨none, []⟩

/-- `lock_shared()` by `t`: waits for an exclusive holder. -/
def lockShared (m : SharedMutex ι) (t : ι) : Option (SharedMutex ι) :=
  if m.exclusive.isNone then some { m with shared := t :: m.shared } else none

/-- `lock()` by `t`: waits for any holder. -/
def lock (m : SharedMutex ι) (t : ι) : Option (SharedMutex ι) :=
  if m.exclusive.isNone ∧ m.shared.isEmpty then some { m with exclusive := some t } else none

/-- `unlock_shared()` by `t`. -/
def unlockShared [DecidableEq ι] (m : SharedMutex ι) (t : ι) : SharedMutex ι :=
  { m with shared := m.shared.erase t }

/-- `unlock()` by the exclusive holder. -/
def unlock (m : SharedMutex ι) : SharedMutex ι := { m with exclusive := none }

/-- The mutex agrees with the threads' local states. -/
structure Holds (mode : L → Option Mode) (loc : ι → L) (m : SharedMutex ι) : Prop where
  exclusive : ∀ t, m.exclusive = some t ↔ mode (loc t) = some .exclusive
  shared : ∀ t, t ∈ m.shared ↔ mode (loc t) = some .shared
  nodup : m.shared.Nodup
  alone : ∀ t, m.exclusive = some t → m.shared = []

namespace Holds

variable {mode : L → Option Mode} {loc : ι → L} {m m' : SharedMutex ι} {t u : ι} {l : L}

/-- While a thread holds it in exclusive mode no other holds it. -/
theorem only (h : Holds mode loc m) (ht : mode (loc t) = some .exclusive) (hu : u ≠ t) :
    mode (loc u) = none := by
  have hx := (h.exclusive t).mpr ht
  cases hm : mode (loc u) with
  | none => rfl
  | some k =>
      cases k with
      | shared =>
          have hmem := (h.shared u).mpr hm
          rw [h.alone t hx] at hmem
          cases hmem
      | exclusive =>
          have hux := (h.exclusive u).mpr hm
          rw [hx] at hux
          exact absurd (Option.some.inj hux).symm hu

variable [DecidableEq ι]

/-- A thread moves and its mode does not change. -/
theorem stay (h : Holds mode loc m) (hl : mode l = mode (loc t)) :
    Holds mode (Function.update loc t l) m := by
  have hmode : ∀ u, mode (Function.update loc t l u) = mode (loc u) := by
    intro u
    by_cases hu : u = t
    · rw [hu, Function.update_self, hl]
    · rw [Function.update_of_ne hu]
  refine ⟨fun u => ?_, fun u => ?_, h.nodup, h.alone⟩
  · rw [hmode]
    exact h.exclusive u
  · rw [hmode]
    exact h.shared u

/-- A thread that holds nothing takes it in shared mode. -/
theorem lockShared (h : Holds mode loc m) (ht : mode (loc t) = none)
    (hl : mode l = some .shared) (hm : m.lockShared t = some m') :
    Holds mode (Function.update loc t l) m' := by
  unfold SharedMutex.lockShared at hm
  split at hm
  · next hfree =>
      cases hm
      have hnone : m.exclusive = none := Option.isNone_iff_eq_none.mp hfree
      have hnot : t ∉ m.shared := by
        intro hmem
        rw [(h.shared t).mp hmem] at ht
        cases ht
      refine ⟨fun u => ?_, fun u => ?_, List.nodup_cons.mpr ⟨hnot, h.nodup⟩, fun u hu => ?_⟩
      · by_cases hu : u = t
        · rw [hu, Function.update_self, hl]
          exact ⟨fun he => (by rw [hnone] at he; cases he), fun he => by cases he⟩
        · rw [Function.update_of_ne hu]
          exact h.exclusive u
      · by_cases hu : u = t
        · rw [hu, Function.update_self, hl]
          exact ⟨fun _ => rfl, fun _ => List.mem_cons_self⟩
        · rw [Function.update_of_ne hu]
          exact List.mem_cons.trans ((or_iff_right hu).trans (h.shared u))
      · rw [hnone] at hu
        cases hu
  · cases hm

/-- A thread that holds nothing takes it in exclusive mode. -/
theorem lock (h : Holds mode loc m) (hl : mode l = some .exclusive) (hm : m.lock t = some m') :
    Holds mode (Function.update loc t l) m' := by
  unfold SharedMutex.lock at hm
  split at hm
  · next hfree =>
      cases hm
      have hnone : m.exclusive = none := Option.isNone_iff_eq_none.mp hfree.1
      have hempty : m.shared = [] := List.isEmpty_iff.mp hfree.2
      refine ⟨fun u => ?_, fun u => ?_, h.nodup, fun _ _ => hempty⟩
      · by_cases hu : u = t
        · rw [hu, Function.update_self, hl]
          exact ⟨fun _ => rfl, fun _ => rfl⟩
        · rw [Function.update_of_ne hu, ← h.exclusive u, hnone]
          exact ⟨fun he => absurd (Option.some.inj he).symm hu, fun he => by cases he⟩
      · by_cases hu : u = t
        · rw [hu, Function.update_self, hl, hempty]
          exact ⟨fun he => (by cases he), fun he => by cases he⟩
        · rw [Function.update_of_ne hu]
          exact h.shared u
  · cases hm

/-- A shared holder gives it back. -/
theorem unlockShared (h : Holds mode loc m) (ht : mode (loc t) = some .shared)
    (hl : mode l = none) : Holds mode (Function.update loc t l) (m.unlockShared t) := by
  refine ⟨fun u => ?_, fun u => ?_, h.nodup.erase t, fun u hu => ?_⟩
  · by_cases hu : u = t
    · rw [hu, Function.update_self, hl]
      refine ⟨fun he => ?_, fun he => by cases he⟩
      rw [(h.exclusive t).mp he] at ht
      cases ht
    · rw [Function.update_of_ne hu]
      exact h.exclusive u
  · by_cases hu : u = t
    · rw [hu, Function.update_self, hl]
      exact ⟨fun he => absurd he (h.nodup.not_mem_erase), fun he => by cases he⟩
    · rw [Function.update_of_ne hu]
      exact (List.mem_erase_of_ne hu).trans (h.shared u)
  · have hmem := (h.shared t).mpr ht
    rw [h.alone u hu] at hmem
    cases hmem

/-- The exclusive holder gives it back. -/
theorem unlock (h : Holds mode loc m) (ht : mode (loc t) = some .exclusive)
    (hl : mode l = none) : Holds mode (Function.update loc t l) m.unlock := by
  refine ⟨fun u => ?_, fun u => ?_, h.nodup, fun u hu => by cases hu⟩
  · by_cases hu : u = t
    · rw [hu, Function.update_self, hl]
      exact ⟨fun he => (by cases he), fun he => by cases he⟩
    · rw [Function.update_of_ne hu, h.only ht hu]
      exact ⟨fun he => (by cases he), fun he => by cases he⟩
  · by_cases hu : u = t
    · rw [hu, Function.update_self, hl]
      refine ⟨fun he => ?_, fun he => by cases he⟩
      rw [(h.shared t).mp he] at ht
      cases ht
    · rw [Function.update_of_ne hu]
      exact h.shared u

end Holds

end SharedMutex

end Concur
