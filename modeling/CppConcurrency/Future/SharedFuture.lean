/-
  main of Future/shared_future.cpp: many readers of one value.

  Model. main has a promise of a std::unique_ptr<int> and a shared_future of it, and starts any
  number of threads, each with a copy of the shared_future in its lambda (the source starts two).
  It sleeps for some time, sets the promise to a pointer to 42, and joins the threads, the last
  one first; then the shared_future and the promise are destroyed. What they share, and the int
  in it, lives as long as there is a promise or a shared_future of it (`Shared.Alive`): get()
  waits for the value and returns a reference into it, and to follow that after its end is
  undefined and has no step. A failed allocation or start of a thread ends the program, and is
  left out.

  Proved (`all_read`): a reader prints 42 and nothing else, and only after it has been set; what
  it reads is alive; and whatever the scheduler does, main returns, when every reader has ended
  and printed the value once, and the int is gone.
-/
import CppConcurrency.Lib.Mutual
import CppConcurrency.Lib.Threads
import Mathlib.Data.Fintype.Option

namespace CppConcurrency.SharedFuture

open Concur

/-- Where main and the readers stand. `launch i`: main has started `i` threads; `join i`: it has
    `i` threads left to join. A reader is at `start` from the beginning. -/
inductive Pc where
  | launch (i : ℕ)
  | sleep
  | setValue
  | join (i : ℕ)
  | dropShared
  | dropPromise
  | returned
  | start
  | get
  | deref
  | print (value : ℤ)
  | drop
  | exit
  | ended
  deriving DecidableEq, Repr

/-- A printed line. -/
inductive Line (n : ℕ) where
  | waiting (i : Fin n)
  | value (i : Fin n) (v : ℤ)
  deriving DecidableEq, Repr

/-- The promise's outcome, the handles on it, and what main knows of the threads. -/
structure Shared (n : ℕ) where
  outcome : Option ℤ
  promise : Bool
  shared : Bool
  copy : Fin n → Bool
  launched : ℕ
  exited : Fin n → Bool
  out : List (Line n)

variable {n : ℕ}

/-- There is a handle on the shared state. -/
def Shared.Alive (d : Shared n) : Prop := d.promise = true ∨ d.shared = true ∨ ∃ i, d.copy i = true

instance (d : Shared n) : Decidable d.Alive :=
  inferInstanceAs (Decidable (_ ∨ _ ∨ ∃ i, d.copy i = true))

/-- The next statement of main. -/
def mainNext (l : Pc) (d : Shared n) : Option (Pc × Shared n) :=
  match l with
  | .launch i =>
      if h : i < n then
        some (.launch (i + 1),
          { d with copy := Function.update d.copy ⟨i, h⟩ true, launched := i + 1 })
      else some (.sleep, d)
  | .sleep => some (.setValue, d)
  | .setValue =>
      match d.outcome with
      | none => some (.join n, { d with outcome := some 42 })
      | some _ => none
  | .join 0 => some (.dropShared, d)
  | .join (i + 1) =>
      if h : i < n then
        if d.exited ⟨i, h⟩ then some (.join i, d) else none
      else none
  | .dropShared => some (.dropPromise, { d with shared := false })
  | .dropPromise => some (.returned, { d with promise := false })
  | _ => none

/-- The next statement of reader `i`. -/
def readerNext (i : Fin n) (l : Pc) (d : Shared n) : Option (Pc × Shared n) :=
  match l with
  | .start =>
      if i < d.launched then some (.get, { d with out := d.out ++ [.waiting i] }) else none
  | .get => d.outcome.map fun _ => (.deref, d)
  | .deref => if d.Alive then d.outcome.map fun v => (.print v, d) else none
  | .print v => some (.drop, { d with out := d.out ++ [.value i v] })
  | .drop => some (.exit, { d with copy := Function.update d.copy i false })
  | .exit => some (.ended, { d with exited := Function.update d.exited i true })
  | _ => none

/-- `none` is main. -/
def next (t : Option (Fin n)) (l : Pc) (d : Shared n) (_ : Unit) : Option (Pc × Shared n) :=
  match t with
  | none => mainNext l d
  | some i => readerNext i l d

/-- main is about to start the threads. -/
def sys (n : ℕ) : Lts (Conf (Option (Fin n)) Pc (Shared n)) (Option (Fin n) × Unit) :=
  threads next (fun t => if t = none then .launch 0 else .start)
    (· = ⟨none, true, true, fun _ => false, 0, fun _ => false, []⟩)

/-! ## Where main and the readers are -/

/-- The values that reader `i` has printed. -/
def printed (i : Fin n) (out : List (Line n)) : List ℤ :=
  out.filterMap fun
    | .waiting _ => none
    | .value k v => if k = i then some v else none

/-- What main knows: the outcome, how many threads it has started, which handles it has, and
    that the threads from `joined` on have ended. -/
structure Main (d : Shared n) (outcome : Option ℤ) (launched : ℕ) (promise shared : Bool)
    (joined : ℕ) : Prop where
  outcome : d.outcome = outcome
  launched : d.launched = launched
  promise : d.promise = promise
  shared : d.shared = shared
  joined : ∀ k : Fin n, joined ≤ k → d.exited k = true

def MainAt (d : Shared n) : Pc → Prop
  | .launch i => i ≤ n ∧ Main d none i true true n
  | .sleep | .setValue => Main d none n true true n
  | .join i => i ≤ n ∧ Main d (some 42) n true true i
  | .dropShared => Main d (some 42) n true true 0
  | .dropPromise => Main d (some 42) n true false 0
  | .returned => Main d (some 42) n false false 0
  | _ => False

/-- What a reader knows once it runs: whether it has its copy, whether it has ended, whether the
    value has been set, and what it has printed. -/
structure Reader (i : Fin n) (d : Shared n) (copy exited set : Bool) (out : List ℤ) : Prop where
  launched : i < d.launched
  copy : d.copy i = copy
  exited : d.exited i = exited
  outcome : set = true → d.outcome = some 42
  printed : printed i d.out = out

/-- A reader that main may not have started. -/
structure Unstarted (i : Fin n) (d : Shared n) : Prop where
  copy : d.copy i = decide (i < d.launched)
  exited : d.exited i = false
  printed : printed i d.out = []

def ReaderAt (i : Fin n) (d : Shared n) : Pc → Prop
  | .start => Unstarted i d
  | .get => Reader i d true false false []
  | .deref => Reader i d true false true []
  | .print v => v = 42 ∧ Reader i d true false true []
  | .drop => Reader i d true false true [42]
  | .exit => Reader i d false false true [42]
  | .ended => Reader i d false true true [42]
  | _ => False

def Assert (t : Option (Fin n)) (l : Pc) (d : Shared n) : Prop :=
  match t with
  | none => MainAt d l
  | some i => ReaderAt i d l

/-- Nothing but 42 is set. -/
def OnlyValue (d : Shared n) : Prop := ∀ v, d.outcome = some v → v = 42

/-! ## Steps -/

variable {i k : Fin n} {l l' : Pc} {d d' : Shared n} {c : Conf (Option (Fin n)) Pc (Shared n)}

/-- What a step of main leaves to the readers. -/
structure MainStep (d d' : Shared n) : Prop where
  exited : d'.exited = d.exited
  out : d'.out = d.out
  outcome : d.outcome = some 42 → d'.outcome = some 42
  launched : d.launched ≤ d'.launched
  copy : ∀ k : Fin n, d'.copy k = (d.copy k || decide (d.launched ≤ k ∧ k < d'.launched))

/-- What a step of reader `i` leaves to main and to the other readers. -/
structure ReaderStep (i : Fin n) (d d' : Shared n) : Prop where
  outcome : d'.outcome = d.outcome
  promise : d'.promise = d.promise
  shared : d'.shared = d.shared
  launched : d'.launched = d.launched
  exited : ∀ k, d.exited k = true → d'.exited k = true
  others : ∀ k, k ≠ i → d'.copy k = d.copy k ∧ d'.exited k = d.exited k ∧
    printed k d'.out = printed k d.out

/-- A step of main that starts no thread. -/
theorem mainStep_of_same (hc : d'.copy = d.copy) (hl : d'.launched = d.launched)
    (he : d'.exited = d.exited) (ho : d'.out = d.out)
    (hs : d.outcome = some 42 → d'.outcome = some 42) : MainStep d d' where
  exited := he
  out := ho
  outcome := hs
  launched := hl.ge
  copy k := by
    have hno : ¬ (d.launched ≤ (k : ℕ) ∧ (k : ℕ) < d'.launched) := by
      rw [hl]
      omega
    rw [hc, decide_eq_false hno, Bool.or_false]

theorem main_step (hA : MainAt d l) (hI : OnlyValue d) (h : mainNext l d = some (l', d')) :
    MainAt d' l' ∧ OnlyValue d' ∧ MainStep d d' := by
  unfold mainNext at h
  split at h
  case h_1 i =>
    obtain ⟨hle, hm⟩ := hA
    split at h
    · next hi =>
        cases h
        refine ⟨⟨hi, hm.outcome, rfl, hm.promise, hm.shared, hm.joined⟩, hI, rfl, rfl, id, ?_, ?_⟩
        · rw [hm.launched]
          exact Nat.le_succ i
        · intro k
          dsimp only
          rw [hm.launched, Function.update_apply]
          by_cases hk : k = ⟨i, hi⟩
          · rw [if_pos hk, hk]
            simp
          · have hne : (k : ℕ) ≠ i := fun he => hk (Fin.ext he)
            rw [if_neg hk, decide_eq_false (by omega), Bool.or_false]
    · next hi =>
        cases h
        have hin : i = n := by omega
        subst hin
        exact ⟨hm, hI, mainStep_of_same rfl rfl rfl rfl id⟩
  case h_2 =>
    cases h
    exact ⟨hA, hI, mainStep_of_same rfl rfl rfl rfl id⟩
  case h_3 =>
    split at h
    · cases h
      refine ⟨⟨le_rfl, rfl, hA.launched, hA.promise, hA.shared, hA.joined⟩, ?_,
        mainStep_of_same rfl rfl rfl rfl fun _ => rfl⟩
      exact fun v hv => (Option.some.inj hv).symm
    · cases h
  case h_4 =>
    cases h
    exact ⟨hA.2, hI, mainStep_of_same rfl rfl rfl rfl id⟩
  case h_5 i =>
    obtain ⟨hle, hm⟩ := hA
    split at h
    · next hi =>
        split at h
        · next he =>
            cases h
            refine ⟨⟨hi.le, hm.outcome, hm.launched, hm.promise, hm.shared, fun k hk => ?_⟩, hI,
              mainStep_of_same rfl rfl rfl rfl id⟩
            rcases Nat.eq_or_lt_of_le hk with hk | hk
            · have hki : (⟨i, hi⟩ : Fin n) = k := Fin.ext hk
              rw [← hki]
              exact he
            · exact hm.joined k hk
        · cases h
    · cases h
  case h_6 =>
    cases h
    exact ⟨⟨hA.outcome, hA.launched, hA.promise, rfl, hA.joined⟩, hI,
      mainStep_of_same rfl rfl rfl rfl id⟩
  case h_7 =>
    cases h
    exact ⟨⟨hA.outcome, hA.launched, rfl, hA.shared, hA.joined⟩, hI,
      mainStep_of_same rfl rfl rfl rfl id⟩
  case h_8 => cases h

theorem printed_waiting (out : List (Line n)) (i k : Fin n) :
    printed k (out ++ [.waiting i]) = printed k out := by
  simp [printed]

theorem printed_value (out : List (Line n)) (i k : Fin n) (v : ℤ) :
    printed k (out ++ [.value i v]) = printed k out ++ if i = k then [v] else [] := by
  unfold printed
  rw [List.filterMap_append]
  by_cases hik : i = k
  · simp [hik]
  · simp [hik]

theorem reader_step (hA : ReaderAt i d l) (hI : OnlyValue d)
    (h : readerNext i l d = some (l', d')) : ReaderAt i d' l' ∧ ReaderStep i d d' := by
  unfold readerNext at h
  split at h
  case h_1 =>
    split at h
    · next hi =>
        cases h
        refine ⟨⟨hi, hA.copy.trans (decide_eq_true hi), hA.exited, nofun, ?_⟩,
          rfl, rfl, rfl, rfl, fun _ => id, fun k _ => ⟨rfl, rfl, printed_waiting ..⟩⟩
        exact (printed_waiting ..).trans hA.printed
    · cases h
  case h_2 =>
    obtain ⟨v, hv, he⟩ := Option.map_eq_some_iff.mp h
    cases he
    refine ⟨⟨hA.launched, hA.copy, hA.exited, fun _ => ?_, hA.printed⟩,
      rfl, rfl, rfl, rfl, fun _ => id, fun k _ => ⟨rfl, rfl, rfl⟩⟩
    rw [hv, hI v hv]
  case h_3 =>
    split at h
    · obtain ⟨v, hv, he⟩ := Option.map_eq_some_iff.mp h
      cases he
      exact ⟨⟨hI v hv, hA⟩, rfl, rfl, rfl, rfl, fun _ => id, fun k _ => ⟨rfl, rfl, rfl⟩⟩
    · cases h
  case h_4 v =>
    cases h
    obtain ⟨rfl, hr⟩ := hA
    refine ⟨⟨hr.launched, hr.copy, hr.exited, hr.outcome, ?_⟩,
      rfl, rfl, rfl, rfl, fun _ => id, fun k hk => ⟨rfl, rfl, ?_⟩⟩
    · rw [printed_value, hr.printed, if_pos rfl]
      rfl
    · rw [printed_value, if_neg (Ne.symm hk), List.append_nil]
  case h_5 =>
    cases h
    exact ⟨⟨hA.launched, Function.update_self .., hA.exited, hA.outcome, hA.printed⟩,
      rfl, rfl, rfl, rfl, fun _ => id, fun k hk => ⟨Function.update_of_ne hk .., rfl, rfl⟩⟩
  case h_6 =>
    cases h
    refine ⟨⟨hA.launched, hA.copy, Function.update_self .., hA.outcome, hA.printed⟩,
      rfl, rfl, rfl, rfl, fun k hk => ?_, fun k hk => ⟨rfl, Function.update_of_ne hk .., rfl⟩⟩
    dsimp only
    rw [Function.update_apply]
    split
    · rfl
    · exact hk
  case h_7 => cases h

/-! ## Nobody disturbs the others -/

theorem Main.of_reader {outcome : Option ℤ} {launched joined : ℕ} {promise shared : Bool}
    (h : Main d outcome launched promise shared joined) (hs : ReaderStep i d d') :
    Main d' outcome launched promise shared joined where
  outcome := hs.outcome.trans h.outcome
  launched := hs.launched.trans h.launched
  promise := hs.promise.trans h.promise
  shared := hs.shared.trans h.shared
  joined k hk := hs.exited k (h.joined k hk)

theorem mainAt_of_reader (h : MainAt d l) (hs : ReaderStep i d d') : MainAt d' l := by
  cases l with
  | launch i | join i => exact ⟨h.1, h.2.of_reader hs⟩
  | sleep | setValue | dropShared | dropPromise | returned => exact Main.of_reader h hs
  | start | get | deref | print v | drop | exit | ended => exact h

variable {copy exited set : Bool} {out : List ℤ}

theorem Reader.of_main (h : Reader i d copy exited set out) (hs : MainStep d d') :
    Reader i d' copy exited set out where
  launched := Nat.lt_of_lt_of_le h.launched hs.launched
  copy := by
    have hlt := h.launched
    rw [hs.copy, decide_eq_false (by omega), Bool.or_false, h.copy]
  exited := by rw [hs.exited, h.exited]
  outcome hset := hs.outcome (h.outcome hset)
  printed := by rw [hs.out, h.printed]

theorem Reader.of_reader (h : Reader i d copy exited set out) (hs : ReaderStep k d d')
    (hne : i ≠ k) : Reader i d' copy exited set out := by
  obtain ⟨hc, he, hp⟩ := hs.others i hne
  exact ⟨hs.launched ▸ h.launched, hc.trans h.copy, he.trans h.exited,
    fun hset => hs.outcome.trans (h.outcome hset), hp.trans h.printed⟩

theorem Unstarted.of_main (h : Unstarted i d) (hs : MainStep d d') : Unstarted i d' where
  copy := by
    have hle := hs.launched
    rw [hs.copy, h.copy, ← Bool.decide_or, decide_eq_decide]
    omega
  exited := by rw [hs.exited, h.exited]
  printed := by rw [hs.out, h.printed]

theorem Unstarted.of_reader (h : Unstarted i d) (hs : ReaderStep k d d') (hne : i ≠ k) :
    Unstarted i d' := by
  obtain ⟨hc, he, hp⟩ := hs.others i hne
  exact ⟨by rw [hc, h.copy, hs.launched], he.trans h.exited, hp.trans h.printed⟩

theorem readerAt_of_main (h : ReaderAt i d l) (hs : MainStep d d') : ReaderAt i d' l := by
  cases l with
  | start => exact Unstarted.of_main h hs
  | get | deref | drop | exit | ended => exact Reader.of_main h hs
  | print v => exact ⟨h.1, h.2.of_main hs⟩
  | launch i | sleep | setValue | join i | dropShared | dropPromise | returned => exact h

theorem readerAt_of_reader (h : ReaderAt i d l) (hs : ReaderStep k d d') (hne : i ≠ k) :
    ReaderAt i d' l := by
  cases l with
  | start => exact Unstarted.of_reader h hs hne
  | get | deref | drop | exit | ended => exact Reader.of_reader h hs hne
  | print v => exact ⟨h.1, h.2.of_reader hs hne⟩
  | launch i | sleep | setValue | join i | dropShared | dropPromise | returned => exact h

/-- What a step leaves to the others. -/
def Leaves (t : Option (Fin n)) (d d' : Shared n) : Prop :=
  match t with
  | none => MainStep d d'
  | some i => ReaderStep i d d'

theorem assert_reach (h : (sys n).Reachable c) :
    OnlyValue c.shared ∧ ∀ t, Assert t (c.loc t) c.shared := by
  refine Threads.rely (I := OnlyValue) (A := Assert) (R := Leaves) ?_ ?_ ?_ h
  · rintro d rfl
    refine ⟨nofun, fun t => ?_⟩
    cases t with
    | none => exact ⟨Nat.zero_le n, rfl, rfl, rfl, rfl, fun k hk => absurd hk (Nat.not_le.mpr k.2)⟩
    | some i => exact ⟨rfl, rfl, rfl⟩
  · intro t l d b l' d' hI hA hs
    cases t with
    | none =>
        obtain ⟨hA', hI', hm⟩ := main_step hA hI hs
        exact ⟨hI', hA', hm⟩
    | some i =>
        obtain ⟨hA', hr⟩ := reader_step hA hI hs
        exact ⟨fun v hv => hI v (hr.outcome ▸ hv), hA', hr⟩
  · intro t u l d d' hne hA hR
    cases t with
    | none =>
        cases u with
        | none => exact absurd rfl hne
        | some j => exact mainAt_of_reader hA hR
    | some i =>
        cases u with
        | none => exact readerAt_of_main hA hR
        | some j => exact readerAt_of_reader hA hR fun he => hne (he ▸ rfl)

/-! ## Progress -/

/-- main has returned, or the reader has ended. -/
def Pc.rest : Pc → Bool
  | .returned | .ended => true
  | _ => false

/-- The steps that are left at most, of `n` threads to start. -/
def Pc.left (n : ℕ) : Pc → ℕ
  | .launch i => (n - i) + n + 6
  | .sleep => n + 5
  | .setValue => n + 4
  | .join i => i + 3
  | .dropShared => 2
  | .dropPromise => 1
  | .start => 6
  | .get => 5
  | .deref => 4
  | .print _ => 3
  | .drop => 2
  | .exit => 1
  | .returned | .ended => 0

theorem main_left_lt (hA : MainAt d l) (h : mainNext l d = some (l', d')) :
    l'.left n < l.left n := by
  unfold mainNext at h
  split at h
  case h_1 i =>
    split at h <;> cases h <;> simp only [Pc.left] <;> omega
  case h_2 | h_4 | h_6 | h_7 =>
    cases h
    simp only [Pc.left]
    omega
  case h_3 =>
    split at h
    · cases h
      exact Nat.lt_succ_self _
    · cases h
  case h_5 i =>
    split at h
    · split at h
      · cases h
        exact Nat.lt_succ_self _
      · cases h
    · cases h
  case h_8 => cases h

theorem reader_left_lt (h : readerNext i l d = some (l', d')) : l'.left n < l.left n := by
  unfold readerNext at h
  split at h
  case h_1 =>
    split at h
    · cases h
      exact Nat.lt_succ_self _
    · cases h
  case h_2 =>
    obtain ⟨v, -, he⟩ := Option.map_eq_some_iff.mp h
    cases he
    exact Nat.lt_succ_self _
  case h_3 =>
    split at h
    · obtain ⟨v, -, he⟩ := Option.map_eq_some_iff.mp h
      cases he
      exact Nat.lt_succ_self _
    · cases h
  case h_4 | h_5 | h_6 =>
    cases h
    exact Nat.lt_succ_self _
  case h_7 => cases h

/-- A reader that main has started, with the value set, can make its next step. -/
theorem reader_goes (hA : ReaderAt i d l) (hl : i < d.launched) (ho : d.outcome = some 42)
    (hne : l ≠ .ended) : readerNext i l d ≠ none := by
  cases l with
  | start =>
      simp only [readerNext, if_pos hl]
      exact Option.some_ne_none _
  | get =>
      simp only [readerNext, ho]
      exact Option.some_ne_none _
  | deref =>
      have halive : d.Alive := .inr (.inr ⟨i, hA.copy⟩)
      simp only [readerNext, if_pos halive, ho]
      exact Option.some_ne_none _
  | print v | drop | exit => exact Option.some_ne_none _
  | ended => exact absurd rfl hne
  | launch i | sleep | setValue | join i | dropShared | dropPromise | returned => exact hA.elim

/-- main can make its next step, if it does not wait for a thread. -/
theorem main_goes (hA : MainAt d l) (hrest : l ≠ .returned)
    (hjoin : ∀ i, l = .join (i + 1) → ∀ k : Fin n, (k : ℕ) = i → d.exited k = true) :
    mainNext l d ≠ none := by
  cases l with
  | launch i =>
      simp only [mainNext]
      split <;> exact Option.some_ne_none _
  | setValue =>
      simp only [mainNext, hA.outcome]
      exact Option.some_ne_none _
  | join i =>
      cases i with
      | zero => exact Option.some_ne_none _
      | succ i =>
          have hi : i < n := hA.1
          simp only [mainNext, dif_pos hi, hjoin i rfl ⟨i, hi⟩ rfl, if_true]
          exact Option.some_ne_none _
  | sleep | dropShared | dropPromise => exact Option.some_ne_none _
  | returned => exact absurd rfl hrest
  | start | get | deref | print v | drop | exit | ended => exact hA.elim

theorem ended_iff (hA : ReaderAt i d l) : d.exited i = true ↔ l = .ended := by
  cases l with
  | start =>
      rw [hA.exited]
      exact iff_of_false nofun nofun
  | get | deref | drop | exit =>
      rw [hA.exited]
      exact iff_of_false nofun nofun
  | print v =>
      rw [hA.2.exited]
      exact iff_of_false nofun nofun
  | ended => exact iff_of_true hA.exited rfl
  | launch i | sleep | setValue | join i | dropShared | dropPromise | returned => exact hA.elim

/-- Where main and the readers end. -/
def final (t : Option (Fin n)) : Pc := if t = none then .returned else .ended

theorem rest_iff {t : Option (Fin n)} (hA : Assert t l d) : l.rest = true ↔ l = final t := by
  cases t with
  | none =>
      cases l with
      | ended => exact hA.elim
      | _ => simp [Pc.rest, final]
  | some i =>
      cases l with
      | returned => exact hA.elim
      | _ => simp [Pc.rest, final]

/-- When main has returned, all readers have ended. -/
theorem main_last (h : (sys n).Reachable c) (hret : c.loc none = .returned)
    (t : Option (Fin n)) : c.loc t = final t := by
  obtain ⟨-, hA⟩ := assert_reach h
  have hmain : MainAt c.shared (c.loc none) := hA none
  cases t with
  | none => exact hret
  | some i =>
      rw [hret] at hmain
      exact (ended_iff (hA (some i))).mp (Main.joined hmain i (Nat.zero_le _))

/-- Until then main can go on, or the reader that it waits for. -/
theorem main_waits (h : (sys n).Reachable c) (hret : c.loc none ≠ .returned) :
    ∃ u b, c.loc u ≠ final u ∧ next u (c.loc u) c.shared b ≠ none := by
  obtain ⟨-, hA⟩ := assert_reach h
  have hmain : MainAt c.shared (c.loc none) := hA none
  by_cases hwait : ∃ i, c.loc none = .join (i + 1) ∧
      ∃ k : Fin n, (k : ℕ) = i ∧ c.shared.exited k = false
  · obtain ⟨i, hl, k, rfl, hk⟩ := hwait
    rw [hl] at hmain
    have hne : c.loc (some k) ≠ .ended := by
      intro he
      rw [(ended_iff (hA (some k))).mpr he] at hk
      cases hk
    have hlaunched : (k : ℕ) < c.shared.launched := by
      rw [hmain.2.launched]
      exact k.2
    exact ⟨some k, (), hne, reader_goes (hA (some k)) hlaunched hmain.2.outcome hne⟩
  · refine ⟨none, (), hret, main_goes hmain hret fun i hl k hk => ?_⟩
    by_contra he
    exact hwait ⟨i, hl, k, hk, Bool.eq_false_iff.mpr he⟩

/-- main has returned, every reader has ended and has printed the value once, and nothing is left
    of the shared state. -/
def Done (c : Conf (Option (Fin n)) Pc (Shared n)) : Prop :=
  c.loc none = .returned ∧
    (∀ i, c.loc (some i) = .ended ∧ printed i c.shared.out = [42]) ∧ ¬ c.shared.Alive

theorem done_of_final (h : (sys n).Reachable c) (hend : ∀ t, c.loc t = final t) : Done c := by
  obtain ⟨-, hA⟩ := assert_reach h
  have hmain : MainAt c.shared (c.loc none) := hA none
  have hreader (i : Fin n) : Reader i c.shared false true true [42] := by
    have hat : ReaderAt i c.shared (c.loc (some i)) := hA (some i)
    rw [hend (some i)] at hat
    exact hat
  rw [hend none] at hmain
  refine ⟨hend none, fun i => ⟨hend (some i), (hreader i).printed⟩, ?_⟩
  rintro (hp | hs | ⟨i, hi⟩)
  · cases hp.symm.trans (Main.promise hmain)
  · cases hs.symm.trans (Main.shared hmain)
  · cases hi.symm.trans (hreader i).copy

theorem finishes (h : (sys n).Reachable c) :
    (sys n).Finishes (Threads.Busy (·.rest = true)) Done (sumAt (Pc.left n) c.loc) c := by
  refine Lts.Finishes.imp ?_ h fun _ hc hend => done_of_final hc hend
  refine Threads.joins (A := Assert) (m := none) (fun _ hc => assert_reach hc)
    (fun _ _ _ hA => rest_iff hA) (fun t l d _ l' d' _ hA hn => ?_)
    (fun _ hc hret => main_last hc hret) (fun _ hc hret => main_waits hc hret) h
  cases t with
  | none => exact main_left_lt hA hn
  | some i => exact reader_left_lt hn

/-- **Every reader reads the value.** For any number of readers, in every reachable state: what a
    reader has printed is nothing or 42 once, and in the second case 42 has been set; a reader
    that follows the reference it has got finds the int alive. Whatever the scheduler does, the
    threads come to their ends, with main returned, 42 printed once by each reader, and the
    shared state gone. -/
theorem all_read (h : (sys n).Reachable c) :
    (∀ i, printed i c.shared.out = [] ∨
      printed i c.shared.out = [42] ∧ c.shared.outcome = some 42) ∧
    (∀ i, c.loc (some i) = .deref → c.shared.Alive ∧ c.shared.outcome = some 42) ∧
    (sys n).Finishes (Threads.Busy (·.rest = true)) Done (sumAt (Pc.left n) c.loc) c := by
  obtain ⟨-, hA⟩ := assert_reach h
  refine ⟨fun i => ?_, fun i hl => ?_, finishes h⟩
  · have hat : ReaderAt i c.shared (c.loc (some i)) := hA (some i)
    cases hc : c.loc (some i) with
    | start | get | deref =>
        rw [hc] at hat
        exact .inl hat.printed
    | print v =>
        rw [hc] at hat
        exact .inl hat.2.printed
    | drop | exit | ended =>
        rw [hc] at hat
        exact .inr ⟨hat.printed, hat.outcome rfl⟩
    | launch j | sleep | setValue | join j | dropShared | dropPromise | returned =>
        rw [hc] at hat
        exact hat.elim
  · have hat : ReaderAt i c.shared (c.loc (some i)) := hA (some i)
    rw [hl] at hat
    exact ⟨.inr (.inr ⟨i, hat.copy⟩), hat.outcome rfl⟩

/-- Reader 1 waits while main sleeps; then the value is set, and it holds the reference. -/
def readerAtValue : Conf (Option (Fin 2)) Pc (Shared 2) :=
  ((sys 2).exec Lts.anyStep
    ⟨fun t => if t = none then .launch 0 else .start,
      ⟨none, true, true, fun _ => false, 0, fun _ => false, []⟩⟩
    [(none, ()), (none, ()), (some ⟨1, Nat.one_lt_two⟩, ()), (none, ()), (none, ()),
      (none, ()), (some ⟨1, Nat.one_lt_two⟩, ())]).get (by decide)

theorem all_read_readerAtValue :
    readerAtValue.shared.Alive ∧
      (sys 2).Finishes (Threads.Busy (·.rest = true)) Done
        (sumAt (Pc.left 2) readerAtValue.loc) readerAtValue := by
  have hc : (sys 2).Reachable readerAtValue := .exec _ (.start ⟨rfl, rfl⟩) (Option.some_get _).symm
  obtain ⟨-, hderef, hends⟩ := all_read hc
  exact ⟨(hderef 1 (by decide)).1, hends⟩

end CppConcurrency.SharedFuture
