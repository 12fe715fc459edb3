/-
  The members of ThreadSafeStack come back (ThreadSafeStack.h).

  None of them waits for anything but the mutex, and whoever has it gives it back after at most
  four statements and an unlock. The copy constructor holds the mutex of its source for as many
  steps as the source has elements, and pushes that are before it may still make it longer.

  Proved:
  * `members_return`: whatever has been called, and whatever throws, all calls return after a
    bounded number of steps in any order. Then no mutex is held, and every stack holds what the
    operations that returned leave in it.
-/
import CppConcurrency.Lib.MonitorEnds
import CppConcurrency.ThreadSafeStack.Lifo

namespace CppConcurrency.ThreadSafeStack

open Concur Concur.Monitor

variable {ι κ T : Type*}

/-- The statements from here to the return, which is not counted. -/
def Loc.left : Loc T → ℕ
  | .done _ | .emptyTest => 0
  | .popData _ _ | .pushData _ => 1
  | .popTop _ => 2
  | .popTest _ => 3

theorem stmt_next {l l' : Loc T} {d d' : List T} (h : stmt l d = some (.next d' l')) :
    l'.left < l.left ∧ d'.length + l'.left ≤ d.length + l.left := by
  cases l with
  | pushData v =>
      cases h
      simp [Loc.left]
  | popTest o =>
      simp only [stmt] at h
      split at h <;> cases h
      simp [Loc.left]
  | popTop o =>
      simp only [stmt] at h
      split at h <;> cases h
      simp [Loc.left]
  | popData o v =>
      simp only [stmt] at h
      split at h <;> cases h
      simp only [Loc.left, List.length_dropLast]
      omega
  | emptyTest | done => cases h

theorem terminates : Terminates (stack T) Loc.left 0 where
  next := stmt_next
  notify hs := absurd hs (stmt_quiet _ _ _).2
  wait hs := absurd hs (stmt_quiet _ _ _).1

/-- Where its assertion holds, no statement is undefined. -/
theorem stmt_of_rel {l : Loc T} {op : Op T} {d a : List T} (h : Rel l op d a) :
    (stack T).stmt l d ≠ none := by
  simp only [stack]
  cases l with
  | pushData | emptyTest | done => exact Option.some_ne_none _
  | popTest =>
      simp only [stmt]
      split <;> exact Option.some_ne_none _
  | popTop =>
      obtain ⟨-, -, hne⟩ := h
      simp [stmt, List.getLast?_eq_some_getLast hne]
  | popData =>
      obtain ⟨-, -, hv⟩ := h
      simp [stmt, hv]

variable [Fintype ι] [DecidableEq ι] [DecidableEq κ] {s : St ι κ T (Op T) (Ret T) (Loc T)}

/-- Nobody ever sleeps. -/
theorem asleep_ne (h : (Monitor.sys (stack T)).Reachable s) (t : ι) {q : κ} {op : Op T}
    {l : Loc T} : s.pc t ≠ .asleep q op l := by
  intro hpc
  have hw := waits_reach terminates h t
  rw [hpc] at hw
  exact absurd hw (by simp [Waits])

/-- **All calls return.** From every reachable state, if no new calls are made, every run has
    at most as many steps as there are left to do, exceptions included, and when it cannot go on
    all calls have returned, no mutex is held, and the stacks hold what the operations that
    returned, in the order in which they did, leave in them. -/
theorem members_return (s : St ι κ T (Op T) (Ret T) (Loc T))
    (h : (Monitor.sys (stack T)).Reachable s) :
    (Monitor.sys (stack T)).Finishes (Quiet true)
      (fun s' => (∀ t, ∃ last, s'.pc t = .idle last) ∧ (∀ q, s'.owner q = none) ∧
        ∃ abs, Linearization lifo.objects (returned s'.hist) (returned s'.hist) abs ∧
          ∀ q d, abs q = some d → s'.data q = d)
      (stepsLeft (stack T) Loc.left s) s := by
  refine (settles correct terminates stmt_of_rel (fun _ _ _ => trivial) h).imp h
    fun s' _ ⟨hs', hrest⟩ => ?_
  have hidle : ∀ t, ∃ last, s'.pc t = .idle last := by
    intro t
    have hr := hrest t
    cases hpc : s'.pc t with
    | idle last => exact ⟨last, rfl⟩
    | asleep q op l => exact absurd hpc (asleep_ne hs' t)
    | _ =>
        rw [hpc] at hr
        exact hr.elim
  have hi := inv_reach correct hs'
  have hfree : ∀ q, s'.owner q = none := by
    refine fun q => hi.free_of_quiet (fun t => ?_) q
    obtain ⟨last, hlast⟩ := hidle t
    rw [hi.tracks.pending t, hlast]
    rfl
  obtain ⟨-, abs, hlin, -, hg⟩ := linearizable correct hs'
  exact ⟨hidle, hfree, abs, hlin, fun q d hd => hg.of_free (hfree q) hd⟩

/-- A copy waits for the mutex of a stack, and a push has it. -/
def pushAndCopy : List (Act Bool Bool (Op ℕ)) :=
  [.call false (.construct false), .run false, .call false (.on false (.push 7)), .lock false,
   .call true (.copy true false)]

/-- The state after `pushAndCopy`. -/
def copyWaits : St Bool Bool ℕ (Op ℕ) (Ret ℕ) (Loc ℕ) :=
  ((Monitor.sys (stack ℕ)).exec Lts.anyStep initial pushAndCopy).get (by decide)

theorem copyWaits_reachable : (Monitor.sys (stack ℕ)).Reachable copyWaits :=
  .exec pushAndCopy (.start rfl) (Option.some_get _).symm

theorem members_return_copyWaits :
    stepsLeft (stack ℕ) Loc.left copyWaits = 12 ∧
      ∀ as s', (Monitor.sys (stack ℕ)).exec (Quiet true) copyWaits as = some s' →
        as.length ≤ 12 :=
  ⟨by decide, (members_return copyWaits copyWaits_reachable).bounded⟩

end CppConcurrency.ThreadSafeStack
