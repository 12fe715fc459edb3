/-
  Who is left in threadsafe_queue (thread_safe_queue.cpp).

  The members have no loops but the one in wait_and_pop, and that goes round only when the
  thread sleeps in between. So once nobody calls a member any more, the threads get to where
  they return or sleep. A push pays for the steps of the thread that it wakes.

  Proved:
  * `sleepers_on_empty`: then whoever sleeps is in a wait_and_pop of a queue without elements.
-/
import CppConcurrency.Lib.MonitorEnds
import CppConcurrency.ThreadsafeQueue.Wakeup

namespace CppConcurrency.ThreadsafeQueue

open Concur Concur.Monitor

variable {ι κ T : Type*}

/-- The statements from here to the return or the sleep, which is not counted. A notify_one
    counts for all that the thread woken may do. -/
def Loc.left : Loc T → ℕ
  | .done _ | .emptyTest => 0
  | .waitPop _ _ | .tryPopData _ _ => 1
  | .waitFront _ | .tryFront _ => 2
  | .waitTest _ | .tryTest _ => 3
  | .notifyOne => 7
  | .pushData _ => 8

theorem stmt_next {l l' : Loc T} {d d' : List T} (h : stmt l d = some (.next d' l')) :
    l'.left < l.left ∧ d'.length + l'.left ≤ d.length + l.left := by
  cases l with
  | pushData v =>
      cases h
      simp only [Loc.left, List.length_append, List.length_singleton]
      omega
  | waitTest o | tryTest o | waitFront o | tryFront o =>
      simp only [stmt] at h
      split at h <;> cases h
      simp [Loc.left]
  | waitPop o v | tryPopData o v =>
      simp only [stmt] at h
      split at h <;> cases h
      simp only [Loc.left, List.length_cons]
      omega
  | notifyOne | emptyTest | done => cases h

theorem terminates : Terminates (queue T) Loc.left 6 where
  next := stmt_next
  notify hs := by
    obtain ⟨rfl, rfl⟩ := stmt_notify hs
    simp [Loc.left]
  wait hs := by
    obtain ⟨-, o, rfl⟩ := stmt_wait hs
    simp [Loc.left]

/-- Where its assertion holds, no statement is undefined. -/
theorem stmt_of_rel {l : Loc T} {op : Op T} {d a : List T} (h : Rel l op d a) :
    (queue T).stmt l d ≠ none := by
  simp only [queue]
  cases l with
  | pushData | notifyOne | emptyTest | done => exact Option.some_ne_none _
  | waitTest | tryTest =>
      simp only [stmt]
      split <;> exact Option.some_ne_none _
  | waitFront | tryFront =>
      obtain ⟨-, -, hne⟩ := h
      obtain ⟨v, rest, rfl⟩ := List.exists_cons_of_ne_nil hne
      exact Option.some_ne_none _
  | waitPop | tryPopData =>
      obtain ⟨-, -, hv⟩ := h
      obtain ⟨rest, rfl⟩ := List.head?_eq_some_iff.mp hv
      exact Option.some_ne_none _

variable [Fintype ι] [DecidableEq ι] [DecidableEq κ] {s : St ι κ T (Op T) (Ret T) (Loc T)}

omit [DecidableEq ι] in
/-- Where everybody has returned or sleeps, nobody is due. -/
theorem due_of_rest (h : ∀ t, (s.pc t).Rest) (q : κ) : countAt (due q) s.pc = 0 := by
  refine countAt_eq_zero.mpr fun t => ?_
  have hr := h t
  cases hpc : s.pc t with
  | woken | body =>
      rw [hpc] at hr
      exact hr.elim
  | _ => rfl

/-- **Nobody sleeps beside an element.** From every state of a run whose throws are covered, if
    there are no new calls, exceptions and spurious wake-ups, every run has at most as many
    steps as there are left to do, and when it cannot go on every call has returned or sleeps in
    a wait_and_pop of an empty queue. -/
theorem sleepers_on_empty (s : St ι κ T (Op T) (Ret T) (Loc T))
    (h : (sys (queue T)).Reach ThrowCovered s) :
    (sys (queue T)).Finishes (Quiet false)
      (fun s' => ∀ t, (∃ last, s'.pc t = .idle last) ∨
        ∃ q o, s'.pc t = .asleep q (.waitAndPop o) (.waitTest o) ∧ s'.data q = [])
      (stepsLeft (queue T) Loc.left s) s := by
  have hquiet : ∀ (s : St ι κ T (Op T) (Ret T) (Loc T)) a, Quiet false s a → ThrowCovered s a := by
    intro s a ha
    cases a with
    | fail t => cases ha
    | _ => trivial
  refine (settles correct terminates stmt_of_rel hquiet h).imp h.reachable
    fun s' _ ⟨hs', hrest⟩ t => ?_
  have hr := hrest t
  cases hpc : s'.pc t with
  | idle last => exact .inl ⟨last, rfl⟩
  | asleep q op l =>
      right
      have hc := covered_reach hs'
      have hparked := hc.parked t
      have hresumes := (inv_reach correct hs').resumes t
      rw [hpc] at hparked hresumes
      obtain ⟨o, rfl⟩ := hparked
      obtain ⟨rfl, -⟩ := hresumes []
      have hsleep : 0 < countAt (Pc.asleepOn q) s'.pc := by
        refine countAt_pos.mpr ⟨t, ?_⟩
        rw [hpc]
        exact decide_eq_true rfl
      have hlen := hc.due q hsleep
      rw [due_of_rest hrest q] at hlen
      exact ⟨q, o, rfl, List.length_eq_zero_iff.mp (Nat.le_zero.mp hlen)⟩
  | _ =>
      rw [hpc] at hr
      exact hr.elim

theorem sleepers_on_empty_pushed :
    stepsLeft (queue ℕ) Loc.left pushed = 6 ∧
      ∀ as s', (sys (queue ℕ)).exec (Quiet false) pushed as = some s' → as.length ≤ 6 :=
  ⟨by decide, (sleepers_on_empty pushed
    (pushed_reach.mono fun _ a => throwCovered_of_noFail a)).bounded⟩

end CppConcurrency.ThreadsafeQueue
