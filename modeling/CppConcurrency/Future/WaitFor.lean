/-
  main of Future/wait_for.cpp: a future that is polled.

  Model. main starts the thread t, which sleeps five seconds and then sets the promise to 21.
  main prints the number of its attempt and waits for the future for one second, again and again
  until the answer is not `timeout`; then it gets the value, prints it, and joins t. The clock is
  a thread of its own that lets any time pass in a step; nothing else takes time. A sleep ends,
  and a wait times out, at any moment from its deadline on. Lines are printed with the time
  (a ghost). A failed start of t ends the program, and is left out.

  Proved (`polls`): the attempts are numbered 0, 1, 2, … without a gap, and attempt `i` is not
  made before `i` seconds are over; the value is printed once, it is 21, and not before five
  seconds are over. Once t has slept enough, main and t come to their ends in any order, after a
  bounded number of steps: a step of the clock adds at most one more attempt.
-/
import CppConcurrency.Lib.Threads

namespace CppConcurrency.WaitFor

open Concur

inductive Who where
  | main
  | t
  | clock
  deriving DecidableEq, Repr

instance : Fintype Who where
  elems := {.main, .t, .clock}
  complete := by rintro ⟨⟩ <;> decide

/-- Where main, t and the clock stand. `waiting`: inside wait_for. -/
inductive Pc where
  | launch
  | attempt (i : ℕ)
  | call (i : ℕ)
  | waiting (i deadline : ℕ)
  | get
  | print (value : ℤ)
  | join
  | returned
  | start
  | sleeping (deadline : ℕ)
  | setValue
  | exit
  | ended
  | ticking
  deriving DecidableEq, Repr

/-- A printed line. -/
inductive Line where
  | attempt (i : ℕ)
  | value (v : ℤ)
  deriving DecidableEq, Repr

structure Shared where
  now : ℕ
  outcome : Option ℤ
  launched : Bool
  exited : Bool
  out : List (ℕ × Line)
  deriving DecidableEq, Repr

/-- The clock counts nanoseconds. -/
def seconds (n : ℕ) : ℕ := n * 1000000000

def Shared.print (d : Shared) (l : Line) : Shared := { d with out := d.out ++ [(d.now, l)] }

/-- The next statement of main. -/
def mainNext (l : Pc) (d : Shared) : Option (Pc × Shared) :=
  match l with
  | .launch => some (.attempt 0, { d with launched := true })
  | .attempt i => some (.call i, d.print (.attempt i))
  | .call i => some (.waiting i (d.now + seconds 1), d)
  | .waiting i deadline =>
      -- ready, or else a timeout
      if d.outcome.isSome then some (.get, d)
      else if deadline ≤ d.now then some (.attempt (i + 1), d)
      else none
  | .get => d.outcome.map fun v => (.print v, d)
  | .print v => some (.join, d.print (.value v))
  | .join => if d.exited then some (.returned, d) else none
  | _ => none

/-- The next statement of t. -/
def tNext (l : Pc) (d : Shared) : Option (Pc × Shared) :=
  match l with
  | .start => if d.launched then some (.sleeping (d.now + seconds 5), d) else none
  | .sleeping deadline => if deadline ≤ d.now then some (.setValue, d) else none
  | .setValue =>
      match d.outcome with
      | none => some (.exit, { d with outcome := some 21 })
      | some _ => none
  | .exit => some (.ended, { d with exited := true })
  | _ => none

/-- `b` is the time that a step of the clock takes. -/
def next (w : Who) (l : Pc) (d : Shared) (b : ℕ) : Option (Pc × Shared) :=
  match w with
  | .main => mainNext l d
  | .t => tNext l d
  | .clock => some (l, { d with now := d.now + b })

/-- main is about to start t. -/
def sys : Lts (Conf Who Pc Shared) (Who × ℕ) :=
  threads next (fun | .main => .launch | .t => .start | .clock => .ticking)
    (· = ⟨0, none, false, false, []⟩)

/-! ## What has been printed, and when -/

def attempts (out : List (ℕ × Line)) : List ℕ :=
  out.filterMap fun
    | (_, .attempt i) => some i
    | (_, .value _) => none

def values (out : List (ℕ × Line)) : List ℤ :=
  out.filterMap fun
    | (_, .attempt _) => none
    | (_, .value v) => some v

/-- A line comes when it may come. -/
def OnTime : ℕ × Line → Prop
  | (time, .attempt i) => seconds i ≤ time
  | (time, .value v) => v = 21 ∧ seconds 5 ≤ time

/-- What holds all the time. -/
structure Inv (d : Shared) : Prop where
  outcome : ∀ v, d.outcome = some v → v = 21 ∧ seconds 5 ≤ d.now
  onTime : ∀ x ∈ d.out, OnTime x

/-- main has made the first `k` attempts and printed these values. -/
structure Main (d : Shared) (k : ℕ) (out : List ℤ) : Prop where
  launched : d.launched = true
  attempts : attempts d.out = List.range k
  values : values d.out = out

def MainAt (d : Shared) : Pc → Prop
  | .launch => d.launched = false ∧ d.out = []
  | .attempt i => Main d i [] ∧ seconds i ≤ d.now
  | .call i => Main d (i + 1) [] ∧ seconds i ≤ d.now
  | .waiting i deadline => Main d (i + 1) [] ∧ seconds (i + 1) ≤ deadline
  | .get => (∃ k, Main d k []) ∧ d.outcome = some 21
  | .print v => (∃ k, Main d k []) ∧ d.outcome = some 21 ∧ v = 21
  | .join => (∃ k, Main d k [21]) ∧ d.outcome = some 21
  | .returned => (∃ k, Main d k [21]) ∧ d.outcome = some 21 ∧ d.exited = true
  | _ => False

def ThreadAt (d : Shared) : Pc → Prop
  | .start => d.outcome = none ∧ d.exited = false
  | .sleeping deadline => d.outcome = none ∧ d.exited = false ∧ seconds 5 ≤ deadline
  | .setValue => d.outcome = none ∧ d.exited = false ∧ seconds 5 ≤ d.now
  | .exit => d.outcome = some 21 ∧ d.exited = false
  | .ended => d.outcome = some 21 ∧ d.exited = true
  | _ => False

def Assert (w : Who) (l : Pc) (d : Shared) : Prop :=
  match w with
  | .main => MainAt d l
  | .t => ThreadAt d l
  | .clock => l = .ticking

variable {l l' : Pc} {d d' : Shared} {c : Conf Who Pc Shared} {k : ℕ} {out : List ℤ}

theorem seconds_succ (i : ℕ) : seconds (i + 1) = seconds i + seconds 1 := Nat.add_mul i 1 _

theorem attempts_print (d : Shared) (line : Line) :
    attempts (d.print line).out = attempts d.out ++ attempts [(d.now, line)] :=
  List.filterMap_append ..

theorem values_print (d : Shared) (line : Line) :
    values (d.print line).out = values d.out ++ values [(d.now, line)] :=
  List.filterMap_append ..

theorem Inv.print (h : Inv d) {line : Line} (hl : OnTime (d.now, line)) : Inv (d.print line) where
  outcome := h.outcome
  onTime x hx := by
    rcases List.mem_append.mp hx with hx | hx
    · exact h.onTime x hx
    · rw [List.mem_singleton.mp hx]
      exact hl

/-! ## Steps -/

/-- What a step of main leaves to t and to the clock. -/
structure MainStep (d d' : Shared) : Prop where
  now : d'.now = d.now
  outcome : d'.outcome = d.outcome
  exited : d'.exited = d.exited

/-- What the steps of t and of the clock leave to main. -/
structure OtherStep (d d' : Shared) : Prop where
  now : d.now ≤ d'.now
  outcome : d.outcome = some 21 → d'.outcome = some 21
  launched : d'.launched = d.launched
  exited : d.exited = true → d'.exited = true
  out : d'.out = d.out

theorem main_step (hA : MainAt d l) (hI : Inv d) (h : mainNext l d = some (l', d')) :
    MainAt d' l' ∧ Inv d' ∧ MainStep d d' := by
  unfold mainNext at h
  split at h
  case h_1 =>
    cases h
    obtain ⟨-, hout⟩ := hA
    refine ⟨⟨⟨rfl, ?_, ?_⟩, (Nat.zero_mul _).trans_le (Nat.zero_le _)⟩,
      ⟨hI.outcome, hI.onTime⟩, rfl, rfl, rfl⟩
    · exact congrArg attempts hout
    · exact congrArg values hout
  case h_2 i =>
    cases h
    obtain ⟨hm, htime⟩ := hA
    refine ⟨⟨⟨hm.launched, ?_, ?_⟩, htime⟩, hI.print htime, rfl, rfl, rfl⟩
    · rw [attempts_print, hm.attempts, List.range_succ]
      rfl
    · rw [values_print, hm.values]
      rfl
  case h_3 i =>
    cases h
    obtain ⟨hm, htime⟩ := hA
    refine ⟨⟨hm, ?_⟩, hI, rfl, rfl, rfl⟩
    rw [seconds_succ]
    exact Nat.add_le_add_right htime _
  case h_4 i deadline =>
    obtain ⟨hm, htime⟩ := hA
    split at h
    · next hready =>
        cases h
        obtain ⟨v, hv⟩ := Option.isSome_iff_exists.mp hready
        rw [(hI.outcome v hv).1] at hv
        exact ⟨⟨⟨_, hm⟩, hv⟩, hI, rfl, rfl, rfl⟩
    · split at h
      · next hle =>
          cases h
          exact ⟨⟨hm, htime.trans hle⟩, hI, rfl, rfl, rfl⟩
      · cases h
  case h_5 =>
    obtain ⟨v, hv, he⟩ := Option.map_eq_some_iff.mp h
    cases he
    exact ⟨⟨hA.1, hA.2, (hI.outcome v hv).1⟩, hI, rfl, rfl, rfl⟩
  case h_6 v =>
    cases h
    obtain ⟨⟨k, hm⟩, ho, rfl⟩ := hA
    refine ⟨⟨⟨k, hm.launched, ?_, ?_⟩, ho⟩, hI.print ⟨rfl, (hI.outcome _ ho).2⟩, rfl, rfl, rfl⟩
    · rw [attempts_print, hm.attempts]
      exact List.append_nil _
    · rw [values_print, hm.values]
      rfl
  case h_7 =>
    split at h
    · next he =>
        cases h
        exact ⟨⟨hA.1, hA.2, he⟩, hI, rfl, rfl, rfl⟩
    · cases h
  case h_8 => cases h

theorem thread_step (hA : ThreadAt d l) (hI : Inv d) (h : tNext l d = some (l', d')) :
    ThreadAt d' l' ∧ Inv d' ∧ OtherStep d d' := by
  unfold tNext at h
  split at h
  case h_1 =>
    split at h
    · cases h
      exact ⟨⟨hA.1, hA.2, Nat.le_add_left _ _⟩, hI, le_rfl, id, rfl, id, rfl⟩
    · cases h
  case h_2 deadline =>
    split at h
    · next hle =>
        cases h
        obtain ⟨ho, he, htime⟩ := hA
        exact ⟨⟨ho, he, htime.trans hle⟩, hI, le_rfl, id, rfl, id, rfl⟩
    · cases h
  case h_3 =>
    split at h
    · cases h
      obtain ⟨-, he, htime⟩ := hA
      refine ⟨⟨rfl, he⟩, ⟨fun v hv => ?_, hI.onTime⟩, le_rfl, fun _ => rfl, rfl, id, rfl⟩
      exact ⟨(Option.some.inj hv).symm, htime⟩
    · cases h
  case h_4 =>
    cases h
    exact ⟨⟨hA.1, rfl⟩, ⟨hI.outcome, hI.onTime⟩, le_rfl, id, rfl, fun _ => rfl, rfl⟩
  case h_5 => cases h

theorem Inv.tick (h : Inv d) (b : ℕ) : Inv { d with now := d.now + b } where
  outcome v hv := by
    obtain ⟨hv, htime⟩ := h.outcome v hv
    exact ⟨hv, htime.trans (Nat.le_add_right _ _)⟩
  onTime := h.onTime

theorem otherStep_tick (d : Shared) (b : ℕ) : OtherStep d { d with now := d.now + b } :=
  ⟨Nat.le_add_right _ _, id, rfl, id, rfl⟩

/-- What a step leaves to the others. -/
def Leaves (w : Who) (d d' : Shared) : Prop :=
  match w with
  | .main => MainStep d d'
  | .t => OtherStep d d'
  | .clock => ∃ b, d' = { d with now := d.now + b }

theorem Main.of_other (h : Main d k out) (hs : OtherStep d d') : Main d' k out :=
  ⟨hs.launched.trans h.launched, by rw [hs.out, h.attempts], by rw [hs.out, h.values]⟩

theorem mainAt_of_other (h : MainAt d l) (hs : OtherStep d d') : MainAt d' l := by
  have hany {out : List ℤ} (h : ∃ k, Main d k out) : ∃ k, Main d' k out :=
    h.imp fun _ hm => hm.of_other hs
  cases l with
  | launch => exact ⟨hs.launched.trans h.1, hs.out.trans h.2⟩
  | attempt i | call i => exact ⟨h.1.of_other hs, h.2.trans hs.now⟩
  | waiting i deadline => exact ⟨h.1.of_other hs, h.2⟩
  | get | join => exact ⟨hany h.1, hs.outcome h.2⟩
  | print v => exact ⟨hany h.1, hs.outcome h.2.1, h.2.2⟩
  | returned => exact ⟨hany h.1, hs.outcome h.2.1, hs.exited h.2.2⟩
  | start | sleeping deadline | setValue | exit | ended | ticking => exact h

/-- t minds the outcome and the time only. -/
theorem threadAt_of_same (h : ThreadAt d l) (ho : d'.outcome = d.outcome)
    (he : d'.exited = d.exited) (hn : d.now ≤ d'.now) : ThreadAt d' l := by
  cases l with
  | start | exit | ended => exact ⟨ho.trans h.1, he.trans h.2⟩
  | sleeping deadline => exact ⟨ho.trans h.1, he.trans h.2.1, h.2.2⟩
  | setValue => exact ⟨ho.trans h.1, he.trans h.2.1, h.2.2.trans hn⟩
  | launch | attempt i | call i | waiting i deadline | get | print v | join | returned
  | ticking => exact h

theorem assert_reach (h : sys.Reachable c) : Inv c.shared ∧ ∀ w, Assert w (c.loc w) c.shared := by
  refine Threads.rely (I := Inv) (A := Assert) (R := Leaves) ?_ ?_ ?_ h
  · rintro d rfl
    refine ⟨⟨nofun, nofun⟩, fun w => ?_⟩
    cases w with
    | main => exact ⟨rfl, rfl⟩
    | t => exact ⟨rfl, rfl⟩
    | clock => exact rfl
  · intro w l d b l' d' hI hA hs
    cases w with
    | main =>
        obtain ⟨hA', hI', hm⟩ := main_step hA hI hs
        exact ⟨hI', hA', hm⟩
    | t =>
        obtain ⟨hA', hI', ho⟩ := thread_step hA hI hs
        exact ⟨hI', hA', ho⟩
    | clock =>
        cases hs
        exact ⟨hI.tick b, hA, b, rfl⟩
  · intro w u l d d' hne hA hR
    cases w with
    | main =>
        cases u with
        | main => exact absurd rfl hne
        | t => exact mainAt_of_other hA hR
        | clock =>
            obtain ⟨b, rfl⟩ := hR
            exact mainAt_of_other hA (otherStep_tick d b)
    | t =>
        cases u with
        | main => exact threadAt_of_same hA hR.outcome hR.exited hR.now.ge
        | t => exact absurd rfl hne
        | clock =>
            obtain ⟨b, rfl⟩ := hR
            exact threadAt_of_same hA rfl rfl (Nat.le_add_right _ _)
    | clock => exact hA

/-! ## Progress -/

/-- The steps that are left at most while it is `now`. A wait whose time is over may be followed
    by one more attempt. -/
def Pc.left (now : ℕ) : Pc → ℕ
  | .launch => 7
  | .attempt _ => 6
  | .call _ => 5
  | .waiting _ deadline => if deadline ≤ now then 7 else 4
  | .get => 3
  | .print _ => 2
  | .join => 1
  | .start => 4
  | .sleeping _ => 3
  | .setValue => 2
  | .exit => 1
  | .returned | .ended | .ticking => 0

theorem main_left_lt (h : mainNext l d = some (l', d')) : l'.left d.now < l.left d.now := by
  unfold mainNext at h
  split at h
  case h_1 | h_2 | h_6 =>
    cases h
    exact Nat.lt_succ_self _
  case h_3 i =>
    cases h
    have hlate : ¬ d.now + seconds 1 ≤ d.now := by
      unfold seconds
      omega
    simp only [Pc.left, if_neg hlate]
    omega
  case h_4 i deadline =>
    split at h
    · cases h
      simp only [Pc.left]
      split <;> omega
    · split at h
      · next hle =>
          cases h
          simp only [Pc.left, if_pos hle]
          omega
      · cases h
  case h_5 =>
    obtain ⟨v, -, he⟩ := Option.map_eq_some_iff.mp h
    cases he
    exact Nat.lt_succ_self _
  case h_7 =>
    split at h
    · cases h
      exact Nat.lt_succ_self _
    · cases h
  case h_8 => cases h

theorem thread_left_lt (h : tNext l d = some (l', d')) (now : ℕ) :
    l'.left now < l.left now := by
  unfold tNext at h
  split at h
  case h_1 | h_2 =>
    split at h
    · cases h
      exact Nat.lt_succ_self _
    · cases h
  case h_3 =>
    split at h
    · cases h
      exact Nat.lt_succ_self _
    · cases h
  case h_4 =>
    cases h
    exact Nat.lt_succ_self _
  case h_5 => cases h

/-- t has been started, and has slept enough. -/
def Awake (d : Shared) : Pc → Prop
  | .start => False
  | .sleeping deadline => deadline ≤ d.now
  | _ => True

theorem Awake.later (h : Awake d l) (hn : d.now ≤ d'.now) : Awake d' l := by
  cases l with
  | start => exact h
  | sleeping deadline => exact h.trans hn
  | _ => trivial

/-- t stays awake, and takes no time. -/
theorem awake_step (hw : Awake d l) (h : tNext l d = some (l', d')) :
    Awake d' l' ∧ d'.now = d.now := by
  unfold tNext at h
  split at h
  case h_1 => exact hw.elim
  case h_2 | h_3 =>
    split at h
    · cases h
      exact ⟨trivial, rfl⟩
    · cases h
  case h_4 =>
    cases h
    exact ⟨trivial, rfl⟩
  case h_5 => cases h

theorem thread_goes (hA : ThreadAt d l) (hw : Awake d l) (hne : l ≠ .ended) :
    tNext l d ≠ none := by
  cases l with
  | start => exact hw.elim
  | sleeping deadline =>
      have hle : deadline ≤ d.now := hw
      simp only [tNext, if_pos hle]
      exact Option.some_ne_none _
  | setValue =>
      simp only [tNext, hA.1]
      exact Option.some_ne_none _
  | exit => exact Option.some_ne_none _
  | ended => exact absurd rfl hne
  | launch | attempt i | call i | waiting i deadline | get | print v | join | returned
  | ticking => exact hA.elim

theorem main_goes (hA : MainAt d l) (ho : d.outcome = some 21) (he : d.exited = true)
    (hne : l ≠ .returned) : mainNext l d ≠ none := by
  cases l with
  | waiting i deadline =>
      simp only [mainNext, ho, Option.isSome_some, if_true]
      exact Option.some_ne_none _
  | get =>
      simp only [mainNext, ho]
      exact Option.some_ne_none _
  | join =>
      simp only [mainNext, he, if_true]
      exact Option.some_ne_none _
  | launch | attempt i | call i | print v => exact Option.some_ne_none _
  | returned => exact absurd rfl hne
  | start | sleeping deadline | setValue | exit | ended | ticking => exact hA.elim

/-- Where they end; the clock goes on. -/
def final : Who → Pc
  | .main => .returned
  | .t => .ended
  | .clock => .ticking

/-- When main has returned, t has ended. -/
theorem main_last (h : sys.Reachable c) (hret : c.loc .main = .returned) (w : Who) :
    c.loc w = final w := by
  obtain ⟨-, hA⟩ := assert_reach h
  have hmain : MainAt c.shared (c.loc .main) := hA .main
  have hthread : ThreadAt c.shared (c.loc .t) := hA .t
  rw [hret] at hmain
  obtain ⟨-, -, he⟩ := hmain
  cases w with
  | main => exact hret
  | t =>
      cases hc : c.loc .t with
      | ended => rfl
      | start | exit =>
          rw [hc] at hthread
          cases he.symm.trans hthread.2
      | sleeping deadline | setValue =>
          rw [hc] at hthread
          cases he.symm.trans hthread.2.1
      | launch | attempt i | call i | waiting i deadline | get | print v | join | returned
      | ticking =>
          rw [hc] at hthread
          exact hthread.elim
  | clock => exact hA .clock

/-- Until then t can go on, or main once t has ended. -/
theorem main_waits (h : sys.Reachable c) (hwake : Awake c.shared (c.loc .t))
    (hret : c.loc .main ≠ .returned) :
    ∃ u b, c.loc u ≠ final u ∧ next u (c.loc u) c.shared b ≠ none := by
  obtain ⟨-, hA⟩ := assert_reach h
  have hthread : ThreadAt c.shared (c.loc .t) := hA .t
  by_cases he : c.loc .t = .ended
  · rw [he] at hthread
    exact ⟨.main, 0, hret, main_goes (hA .main) hthread.1 hthread.2 hret⟩
  · exact ⟨.t, 0, he, thread_goes hthread hwake he⟩

/-- main has returned, t has ended, and the value has been printed. -/
def Done (c : Conf Who Pc Shared) : Prop :=
  c.loc .main = .returned ∧ c.loc .t = .ended ∧ values c.shared.out = [21]

theorem done_of_final (h : sys.Reachable c) (hend : ∀ w, c.loc w = final w) : Done c := by
  obtain ⟨-, hA⟩ := assert_reach h
  have hmain : MainAt c.shared (c.loc .main) := hA .main
  rw [hend .main] at hmain
  obtain ⟨⟨k, hm⟩, -⟩ := hmain
  exact ⟨hend .main, hend .t, hm.values⟩

/-- Where neither main nor t can go on, both have come to their ends. -/
theorem done_of_stuck (h : sys.Reachable c) (hwake : Awake c.shared (c.loc .t))
    (hend : ∀ w b, w ≠ .clock → sys.step c (w, b) = none) : Done c := by
  obtain ⟨-, hA⟩ := assert_reach h
  refine done_of_final h (Threads.ended_of_stuck (m := .main) (main_last h) (main_waits h hwake) ?_)
  intro u b hu
  have hclock : u ≠ .clock := by
    rintro rfl
    exact hu (hA .clock)
  exact Option.map_eq_none_iff.mp (hend u b hclock)

/-- The steps that are left at most, all together. -/
def stepsLeft (c : Conf Who Pc Shared) : ℕ := sumAt (Pc.left c.shared.now) c.loc

theorem Pc.left_tick_le (l : Pc) (now b : ℕ) : l.left (now + b) ≤ l.left now + 3 := by
  cases l with
  | waiting i deadline =>
      simp only [Pc.left]
      split <;> split <;> omega
  | _ => exact Nat.le_add_right _ _

/-- Only main waits until a deadline, so the clock moves only what main has left. -/
theorem left_tick_of_ne {w : Who} (hA : Assert w l d) (hw : w ≠ .main) (now b : ℕ) :
    l.left (now + b) = l.left now := by
  cases l with
  | waiting i deadline =>
      cases w with
      | main => exact absurd rfl hw
      | t => exact hA.elim
      | clock => cases (show Pc.waiting i deadline = .ticking from hA)
  | _ => rfl

theorem stepsLeft_tick (h : sys.Reachable c) (b : ℕ) :
    sumAt (Pc.left (c.shared.now + b)) c.loc ≤ stepsLeft c + 3 := by
  obtain ⟨-, hA⟩ := assert_reach h
  have hsum (f : Pc → ℕ) : sumAt f c.loc = f (c.loc .main) + (f (c.loc .t) + f (c.loc .clock)) :=
    rfl
  have hmain := (c.loc .main).left_tick_le c.shared.now b
  have ht := left_tick_of_ne (hA .t) (by decide) c.shared.now b
  have hclock := left_tick_of_ne (hA .clock) (by decide) c.shared.now b
  rw [stepsLeft, hsum, hsum, ht, hclock]
  omega

/-- main and t make it smaller, and a step of the clock adds three at most: a wait that has been
    in time is not any more. -/
theorem stepsLeft_step (h : sys.Reachable c) (hwake : Awake c.shared (c.loc .t)) {a : Who × ℕ}
    {c' : Conf Who Pc Shared} (hs : sys.step c a = some c') :
    Awake c'.shared (c'.loc .t) ∧
      stepsLeft c' + 1 ≤ stepsLeft c + if a.1 = .clock then 4 else 0 := by
  obtain ⟨hI, hA⟩ := assert_reach h
  obtain ⟨w, b⟩ := a
  obtain ⟨l, d, hn, rfl⟩ := Threads.step_eq_some hs
  unfold stepsLeft
  dsimp only
  cases w with
  | main =>
      obtain ⟨-, -, hm⟩ := main_step (hA .main) hI hn
      have hlt := main_left_lt hn
      have hsum := sumAt_update (Pc.left c.shared.now) c.loc .main l
      rw [Function.update_of_ne (by decide : Who.t ≠ Who.main), hm.now, if_neg (by decide)]
      exact ⟨hwake.later hm.now.ge, by omega⟩
  | t =>
      obtain ⟨hwake', hnow⟩ := awake_step hwake hn
      have hlt := thread_left_lt hn c.shared.now
      have hsum := sumAt_update (Pc.left c.shared.now) c.loc .t l
      rw [Function.update_self, hnow, if_neg (by decide)]
      exact ⟨hwake', by omega⟩
  | clock =>
      cases hn
      rw [Function.update_eq_self, if_pos rfl]
      refine ⟨hwake.later (Nat.le_add_right _ _), ?_⟩
      exact Nat.succ_le_succ (stepsLeft_tick h b)

/-- The steps of the clock in a schedule. -/
def ticks (as : List (Who × ℕ)) : ℕ := as.countP fun a => a.1 = .clock

theorem sum_ticks (as : List (Who × ℕ)) :
    (as.map fun a => if a.1 = .clock then 4 else 0).sum = 4 * ticks as := by
  induction as with
  | nil => rfl
  | cons a as ih =>
      have hcons : ticks (a :: as) = ticks as + if a.1 = .clock then 1 else 0 := by
        simp only [ticks, List.countP_cons, decide_eq_true_eq]
      rw [List.map_cons, List.sum_cons, ih, hcons]
      split <;> omega

theorem ends (h : sys.Reachable c) (hwake : Awake c.shared (c.loc .t)) {as : List (Who × ℕ)}
    {c' : Conf Who Pc Shared} (hs : sys.exec Lts.anyStep c as = some c') :
    as.length ≤ stepsLeft c + 4 * ticks as ∧
      ((∀ w b, w ≠ .clock → sys.step c' (w, b) = none) → Done c') := by
  have hstep : ∀ c₁ a c₂, sys.Reachable c₁ ∧ Awake c₁.shared (c₁.loc .t) → Lts.anyStep c₁ a →
      sys.step c₁ a = some c₂ → (sys.Reachable c₂ ∧ Awake c₂.shared (c₂.loc .t)) ∧
        stepsLeft c₂ + 1 ≤ stepsLeft c₁ + if a.1 = .clock then 4 else 0 := by
    rintro c₁ a c₂ ⟨hc, hw⟩ - hs
    obtain ⟨hw', hle⟩ := stepsLeft_step hc hw hs
    exact ⟨⟨.next hc trivial hs, hw'⟩, hle⟩
  have hbound := Lts.exec_length_le_cost hstep ⟨h, hwake⟩ hs
  rw [sum_ticks] at hbound
  obtain ⟨hc', hw'⟩ := Lts.exec_keeps
    (fun c₁ a c₂ hP hg hs => (hstep c₁ a c₂ hP hg hs).1) ⟨h, hwake⟩ hs
  exact ⟨by omega, done_of_stuck hc' hw'⟩

/-- **The future is polled until it is ready.** In every reachable state: the attempts made are
    0, 1, 2, …, and every line has come when it may come, attempt `i` after `i` seconds and the
    value, 21, after five. The value is printed once at most. If t has slept enough, every run
    from here is bounded, where each step of the clock adds three steps of the others at most; and
    where neither main nor t can go on, both have ended and the value has been printed. -/
theorem polls (h : sys.Reachable c) :
    (∃ k, attempts c.shared.out = List.range k) ∧
    (values c.shared.out = [] ∨ values c.shared.out = [21]) ∧
    (∀ x ∈ c.shared.out, OnTime x) ∧
    (Awake c.shared (c.loc .t) → ∀ as c', sys.exec Lts.anyStep c as = some c' →
      as.length ≤ stepsLeft c + 4 * ticks as ∧
      ((∀ w b, w ≠ .clock → sys.step c' (w, b) = none) → Done c')) := by
  obtain ⟨hI, hA⟩ := assert_reach h
  have hmain : MainAt c.shared (c.loc .main) := hA .main
  suffices hprinted : (∃ k, attempts c.shared.out = List.range k) ∧
      (values c.shared.out = [] ∨ values c.shared.out = [21]) from
    ⟨hprinted.1, hprinted.2, hI.onTime, fun hwake as c' hs => ends h hwake hs⟩
  have hsome {k : ℕ} {out : List ℤ} (hm : Main c.shared k out) :
      (∃ k, attempts c.shared.out = List.range k) ∧ values c.shared.out = out :=
    ⟨⟨k, hm.attempts⟩, hm.values⟩
  cases hc : c.loc .main with
  | launch =>
      rw [hc] at hmain
      exact ⟨⟨0, congrArg attempts hmain.2⟩, .inl (congrArg values hmain.2)⟩
  | attempt i | call i | waiting i deadline =>
      rw [hc] at hmain
      exact (hsome hmain.1).imp_right .inl
  | get | print v =>
      rw [hc] at hmain
      obtain ⟨⟨k, hm⟩, -⟩ := hmain
      exact (hsome hm).imp_right .inl
  | join | returned =>
      rw [hc] at hmain
      obtain ⟨⟨k, hm⟩, -⟩ := hmain
      exact (hsome hm).imp_right .inr
  | start | sleeping deadline | setValue | exit | ended | ticking =>
      rw [hc] at hmain
      exact hmain.elim

/-- Five seconds are over, two of them in the first attempt, and main is in its second. -/
def secondAttempt : Conf Who Pc Shared :=
  (sys.exec Lts.anyStep
    ⟨fun | .main => .launch | .t => .start | .clock => .ticking, ⟨0, none, false, false, []⟩⟩
    [(.main, 0), (.t, 0), (.main, 0), (.main, 0), (.clock, 2000000000), (.main, 0), (.main, 0),
      (.main, 0), (.clock, 3000000000)]).get (by decide)

theorem polls_secondAttempt :
    attempts secondAttempt.shared.out = [0, 1] ∧
      ∀ as c', sys.exec Lts.anyStep secondAttempt as = some c' →
        as.length ≤ stepsLeft secondAttempt + 4 * ticks as ∧
        ((∀ w b, w ≠ .clock → sys.step c' (w, b) = none) → Done c') := by
  have hc : sys.Reachable secondAttempt := .exec _ (.start ⟨rfl, rfl⟩) (Option.some_get _).symm
  have hsleep : secondAttempt.loc .t = .sleeping 5000000000 := by decide
  have hwake : Awake secondAttempt.shared (secondAttempt.loc .t) := by
    rw [hsleep]
    change 5000000000 ≤ secondAttempt.shared.now
    decide
  exact ⟨by decide, (polls hc).2.2.2 hwake⟩

end CppConcurrency.WaitFor
