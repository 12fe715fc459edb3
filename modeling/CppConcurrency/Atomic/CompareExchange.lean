/-
  The retry loop of Atomic/compare_exchange.cpp:

      bool expected = true;
      while(!b.compare_exchange_weak(expected,false) && !expected);

  Model. `b` is an atomic bool that other threads may write at any time. An attempt compares
  `b` with `expected`: where they differ, `expected` becomes what was found and the attempt
  fails; where they are equal it stores the desired value, or fails spuriously and changes
  nothing. Attempt and loop condition are two steps. `attempts` records what each attempt met.

  The loop is written down for any initial `expected` and any desired value; `loop` has the
  ones of the source.

  Proved:
  * `reasoned_iff`: a finished loop has stopped for a reason (`Reasoned`) exactly when the
    initial value is false, or the first attempt finds it in `b` and does not fail spuriously.
    The test `!expected` tells a failure from a spurious one only if the initial value is
    false, as in the comment below the loop, which lets the first exchange fail "because it
    finds b is already true".
  * `weak_loop_exact`: the same for the initial value of the source, which is true.
-/
import CppConcurrency.Lib.Lts
import Mathlib.Data.Nat.Notation

namespace CppConcurrency.CompareExchange

open Concur

/-- What an attempt met: it found the expected value and stored another, or it found something
    else, or it found the expected value and failed spuriously. -/
inductive Attempt where
  | exchanged (found stored : Bool)
  | mismatch (found : Bool)
  | spurious (found : Bool)
  deriving DecidableEq, Repr

/-- Where the thread stands: before an attempt, at the loop condition with the result of the
    attempt, or behind the loop. -/
inductive Pc where
  | attempt
  | test (exchanged : Bool)
  | left
  deriving DecidableEq, Repr

structure St where
  b : Bool
  expected : Bool
  pc : Pc
  attempts : List Attempt
  deriving DecidableEq, Repr

/-- Another thread writes `b`; the thread makes an attempt, which fails spuriously if it can
    and `fails` says so; the thread tests the loop condition. -/
inductive Act where
  | write (v : Bool)
  | attempt (fails : Bool)
  | test
  deriving DecidableEq, Repr

/-- `b.compare_exchange_weak(expected, desired)` -/
def St.compareExchangeWeak (s : St) (desired fails : Bool) : St :=
  if s.b = s.expected then
    if fails then { s with pc := .test false, attempts := s.attempts ++ [.spurious s.b] }
    else { s with
      b := desired
      pc := .test true
      attempts := s.attempts ++ [.exchanged s.b desired] }
  else { s with
    expected := s.b
    pc := .test false
    attempts := s.attempts ++ [.mismatch s.b] }

def step (desired : Bool) (s : St) : Act → Option St
  | .write v => some { s with b := v }
  | .attempt fails =>
      match s.pc with
      | .attempt => some (s.compareExchangeWeak desired fails)
      | _ => none
  | .test =>
      match s.pc with
      | .test exchanged =>
          some { s with pc := if !exchanged && !s.expected then .attempt else .left }
      | _ => none

/-- Before the loop. -/
def start (expected b : Bool) : St := ⟨b, expected, .attempt, []⟩

/-- The loop, from any value of `b`. -/
def sys (expected desired : Bool) : Lts St Act where
  init s := ∃ b, s = start expected b
  step := step desired

/-- The loop of the source. -/
def loop : Lts St Act := sys true false

/-- The last attempt exchanged the expected value for the desired one, or it found something
    else than the expected value. -/
def Reasoned (expected desired : Bool) (attempts : List Attempt) : Prop :=
  attempts.getLast? = some (.exchanged expected desired) ∨
    ∃ v, v ≠ expected ∧ attempts.getLast? = some (.mismatch v)

/-- What the environment gives to the first attempt: the value of `b` there, and whether it is
    to fail spuriously. -/
def firstAttempt : Bool → List Act → Option (Bool × Bool)
  | _, [] => none
  | _, .write v :: as => firstAttempt v as
  | b, .attempt fails :: _ => some (b, fails)
  | b, .test :: as => firstAttempt b as

variable {expected desired : Bool} {s s' : St}

/-- The steps. -/
inductive Moves (desired : Bool) (s : St) : St → Prop
  | wrote (v : Bool) : Moves desired s { s with b := v }
  | exchanged (h : s.pc = .attempt) (hb : s.b = s.expected) :
      Moves desired s { s with
        b := desired
        pc := .test true
        attempts := s.attempts ++ [.exchanged s.b desired] }
  | spurious (h : s.pc = .attempt) (hb : s.b = s.expected) :
      Moves desired s { s with pc := .test false, attempts := s.attempts ++ [.spurious s.b] }
  | mismatch (h : s.pc = .attempt) (hb : s.b ≠ s.expected) :
      Moves desired s { s with
        expected := s.b
        pc := .test false
        attempts := s.attempts ++ [.mismatch s.b] }
  | again (h : s.pc = .test false) (he : s.expected = false) :
      Moves desired s { s with pc := .attempt }
  | left (ok : Bool) (h : s.pc = .test ok) (hok : (ok || s.expected) = true) :
      Moves desired s { s with pc := .left }

theorem moves_of_step {a : Act} (hs : step desired s a = some s') : Moves desired s s' := by
  cases a with
  | write v =>
      cases hs
      exact .wrote v
  | attempt fails =>
      simp only [step] at hs
      split at hs
      · next hpc =>
          cases hs
          unfold St.compareExchangeWeak
          by_cases hb : s.b = s.expected
          · rw [if_pos hb]
            cases fails with
            | true => exact .spurious hpc hb
            | false => exact .exchanged hpc hb
          · rw [if_neg hb]
            exact .mismatch hpc hb
      · cases hs
  | test =>
      simp only [step] at hs
      split at hs
      · next ok hpc =>
          cases hs
          cases hok : ok || s.expected with
          | true =>
              have hstop : ¬ (!ok && !s.expected) = true := by
                rw [← Bool.not_or, hok]
                decide
              rw [if_neg hstop]
              exact .left ok hpc hok
          | false =>
              obtain ⟨rfl, he⟩ := Bool.or_eq_false_iff.mp hok
              have hgo : (!false && !s.expected) = true := by
                rw [he]
                rfl
              rw [if_pos hgo]
              exact .again hpc he
      · cases hs

/-! ## Loops that stop for a reason -/

/-- A loop that goes on began with false and looks for false; one that is about to stop, or has
    stopped, has a reason. -/
def Sound (expected desired : Bool) (s : St) : Prop :=
  match s.pc with
  | .attempt => expected = false ∧ s.expected = false
  | .test ok =>
      if ok || s.expected then Reasoned expected desired s.attempts else expected = false
  | .left => Reasoned expected desired s.attempts

/-- A loop that began with true and goes on looks for false. It stops, if it stops, when it has
    found true or exchanged false. -/
def Lost (desired : Bool) (s : St) : Prop :=
  match s.pc with
  | .attempt => s.expected = false
  | .test ok => (ok || s.expected) = true → ¬ Reasoned true desired s.attempts
  | .left => ¬ Reasoned true desired s.attempts

theorem reasoned_concat {attempts : List Attempt} {last : Attempt} :
    Reasoned expected desired (attempts ++ [last]) ↔
      last = .exchanged expected desired ∨ ∃ v, v ≠ expected ∧ last = .mismatch v := by
  simp only [Reasoned, List.getLast?_concat, Option.some.injEq]

theorem sound_step (h : Sound expected desired s) (hm : Moves desired s s') :
    Sound expected desired s' := by
  unfold Sound at h
  cases hm with
  | wrote v => exact h
  | exchanged hpc hb =>
      rw [hpc] at h
      obtain ⟨rfl, he⟩ := h
      exact reasoned_concat.mpr (.inl (by rw [hb, he]))
  | spurious hpc hb =>
      rw [hpc] at h
      unfold Sound
      dsimp only
      rw [h.2]
      exact h.1
  | mismatch hpc hb =>
      rw [hpc] at h
      obtain ⟨rfl, he⟩ := h
      rw [he] at hb
      unfold Sound
      dsimp only
      rw [(Bool.not_eq_false _).mp hb]
      exact reasoned_concat.mpr (.inr ⟨true, by decide, rfl⟩)
  | again hpc he =>
      rw [hpc] at h
      dsimp only at h
      rw [he] at h
      exact ⟨h, he⟩
  | left ok hpc hok =>
      rw [hpc] at h
      dsimp only at h
      rw [if_pos hok] at h
      exact h

theorem lost_step (h : Lost desired s) (hm : Moves desired s s') : Lost desired s' := by
  unfold Lost at h
  cases hm with
  | wrote v => exact h
  | exchanged hpc hb =>
      rw [hpc] at h
      intro _ hr
      rcases reasoned_concat.mp hr with he | ⟨v, -, he⟩
      · rw [hb, h] at he
        cases he
      · cases he
  | spurious hpc hb =>
      intro _ hr
      rcases reasoned_concat.mp hr with he | ⟨v, -, he⟩ <;> cases he
  | mismatch hpc hb =>
      rw [hpc] at h
      intro _ hr
      rcases reasoned_concat.mp hr with he | ⟨v, hv, he⟩
      · cases he
      · cases he
        rw [h] at hb
        exact hb ((Bool.not_eq_true _).mp hv)
  | again hpc he => exact he
  | left ok hpc hok =>
      rw [hpc] at h
      exact h hok

/-- What the steps keep, a schedule keeps. -/
theorem exec_keeps {P : St → Prop} (hP : ∀ s s', P s → Moves desired s s' → P s') {as : List Act}
    (h : P s) (hs : (sys expected desired).exec Lts.anyStep s as = some s') : P s' := by
  induction as generalizing s with
  | nil =>
      cases hs
      exact h
  | cons a as ih =>
      obtain ⟨u, hu, hs⟩ := Lts.exec_any_cons hs
      exact ih (hP s u h (moves_of_step hu)) hs

/-- The first attempt settles whether the loop will have a reason. -/
theorem after_first {b fails : Bool}
    (h : step desired (start expected b) (.attempt fails) = some s') :
    (expected = false ∨ (b, fails) = (expected, false) → Sound expected desired s') ∧
    (¬ (expected = false ∨ (b, fails) = (expected, false)) →
      expected = true ∧ Lost desired s') := by
  cases h
  cases expected <;> cases b <;> cases fails <;>
    simp [start, St.compareExchangeWeak, Sound, Lost, Reasoned]

/-- A finished loop has a reason exactly when it began with false, or its first attempt finds
    the value it began with and does not fail spuriously. -/
theorem reasoned_iff {b : Bool} {as : List Act}
    (hs : (sys expected desired).exec Lts.anyStep (start expected b) as = some s')
    (hpc : s'.pc = .left) :
    Reasoned expected desired s'.attempts ↔
      expected = false ∨ firstAttempt b as = some (expected, false) := by
  induction as generalizing b with
  | nil =>
      cases hs
      cases hpc
  | cons a as ih =>
      obtain ⟨u, hu, hrest⟩ := Lts.exec_any_cons hs
      cases a with
      | write v =>
          cases hu
          exact ih hrest
      | test => cases hu
      | attempt fails =>
          obtain ⟨hsound, hlost⟩ := after_first hu
          have hfirst : firstAttempt b (.attempt fails :: as) = some (b, fails) := rfl
          rw [hfirst, Option.some_inj]
          by_cases hc : expected = false ∨ (b, fails) = (expected, false)
          · have hend := exec_keeps (fun _ _ => sound_step) (hsound hc) hrest
            rw [Sound, hpc] at hend
            exact iff_of_true hend hc
          · obtain ⟨rfl, hl⟩ := hlost hc
            have hend := exec_keeps (fun _ _ => lost_step) hl hrest
            rw [Lost, hpc] at hend
            exact iff_of_false hend hc

/-- **Why the loop of the source stops.** From any value of `b`, with any spurious failures and
    any writes by other threads: when the loop has ended, its last attempt has replaced the
    original expected value or found something else, if and only if the first attempt finds
    true in `b` and does not fail spuriously. -/
theorem weak_loop_exact (b : Bool) (as : List Act) (s : St)
    (hs : loop.exec Lts.anyStep (start true b) as = some s) (hpc : s.pc = .left) :
    Reasoned true false s.attempts ↔ firstAttempt b as = some (true, false) := by
  refine (reasoned_iff hs hpc).trans ⟨fun h => ?_, Or.inr⟩
  rcases h with h | h
  · cases h
  · exact h

/-- Another thread sets `b` before the first attempt. -/
theorem weak_loop_exact_set :
    ∃ s, loop.exec Lts.anyStep (start true false) [.write true, .attempt false, .test] = some s ∧
      s.b = false ∧ Reasoned true false s.attempts :=
  ⟨_, rfl, rfl,
    (weak_loop_exact false [.write true, .attempt false, .test] _ rfl rfl).mpr rfl⟩

/-- Nobody else writes and nothing fails spuriously: the first attempt finds false, the second
    one exchanges false for false. And from true, one spurious failure ends the loop. -/
theorem gives_up :
    (∃ s, loop.exec Lts.anyStep (start true false) [.attempt false, .test, .attempt false, .test] =
        some s ∧ s.pc = .left ∧ ¬ Reasoned true false s.attempts) ∧
    ∃ s, loop.exec Lts.anyStep (start true true) [.attempt true, .test] = some s ∧
      s.pc = .left ∧ s.attempts = [.spurious true] ∧ ¬ Reasoned true false s.attempts := by
  refine ⟨⟨_, rfl, rfl, ?_⟩, _, rfl, rfl, rfl, ?_⟩
  · rintro (h | ⟨v, hv, h⟩) <;> cases h
  · rintro (h | ⟨v, hv, h⟩) <;> cases h

end CppConcurrency.CompareExchange
