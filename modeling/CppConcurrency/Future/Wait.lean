/-
  main of Future/wait.cpp: a vector that is handed over through a std::future<void>.

  Model. main prints, starts the thread t, wastes time with 1000 calls of Busy, fills `vector` with
  the results of 1000 more, and sets the promise; then t is joined, and the promise and `vector`
  are destroyed. t waits for the future and adds the elements of `vector` up, one at a time.
  Each call of Busy draws its own numbers (`Draws`). The sum is a long long to which unsigned
  long longs are added, and is printed as an int. An access to `vector` outside its bounds or its
  lifetime is undefined and has no step. A failed allocation or start of t ends the program, and
  is left out.

  Proved (`sum_printed`): while t reads `vector`, main is at the join, so it neither writes nor
  destroys it; what t prints is the sum of all 1000 counts, which no conversion cuts off; and
  whatever the scheduler does, the program comes to its end with the sum printed once.
-/
import CppConcurrency.Busy.IsPrime
import CppConcurrency.Lib.Threads

namespace CppConcurrency.Wait

open Concur

inductive Who where
  | main
  | t
  deriving DecidableEq, Repr

instance : Fintype Who where
  elems := {.main, .t}
  complete := by rintro ⟨⟩ <;> decide

/-- Where main and t stand. `accumulate i last sum`: at the test of the loop of std::accumulate,
    with the iterators at `i` and `last`. -/
inductive Pc where
  | intro
  | launch
  | slow (i : ℕ)
  | initializing
  | fill (i : ℕ)
  | notify
  | setValue
  | join
  | destroy
  | returned
  | start
  | wait
  | waited
  | accumulate (i last : ℕ) (sum : Int64)
  | endOf (sum : Int64)
  | printSum (sum : Int64)
  | exit
  | ended
  deriving DecidableEq, Repr

/-- A printed line. `sum i` has the number `i`, or no number if `i` is 0. -/
inductive Line where
  | willInitialize
  | waiting
  | initializing
  | dataReady
  | waitOver
  | endOf
  | sum (i : Int32)
  deriving DecidableEq, Repr

/-- `ready`: the promise has its value; `alive`: `vector` has not been destroyed. -/
structure Shared where
  vector : List UInt64
  ready : Bool
  alive : Bool
  launched : Bool
  exited : Bool
  out : List Line
  deriving DecidableEq, Repr

/-- What a Busy object draws, from 1 to 999999. -/
structure Draws where
  ri : ℕ → UInt32
  range : ∀ i, 1 ≤ (ri i).toNat ∧ (ri i).toNat ≤ 999999

/-- `Busy()()` -/
def busy (b : Draws) : Option UInt32 := (Busy.call b.ri ⟨0, 0⟩).map Prod.fst

def Shared.print (d : Shared) (l : Line) : Shared := { d with out := d.out ++ [l] }

/-- The next statement of main. -/
def mainNext (l : Pc) (d : Shared) (b : Draws) : Option (Pc × Shared) :=
  match l with
  | .intro => some (.launch, d.print .willInitialize)
  | .launch => some (.slow 0, { d with launched := true })
  | .slow i =>
      if i < 1000 then (busy b).map fun _ => (.slow (i + 1), d) else some (.initializing, d)
  | .initializing => some (.fill 0, d.print .initializing)
  | .fill i =>
      if i < 1000 then
        (busy b).map fun r => (.fill (i + 1), { d with vector := d.vector ++ [r.toUInt64] })
      else some (.notify, d)
  | .notify => some (.setValue, d.print .dataReady)
  | .setValue => if d.ready then none else some (.join, { d with ready := true })
  | .join => if d.exited then some (.destroy, d) else none
  | .destroy => some (.returned, { d with alive := false })
  | _ => none

/-- The next statement of t. -/
def tNext (l : Pc) (d : Shared) : Option (Pc × Shared) :=
  match l with
  | .start => if d.launched then some (.wait, d.print .waiting) else none
  | .wait => if d.ready then some (.waited, d) else none
  | .waited => some (.accumulate 0 d.vector.length 0, d.print .waitOver)
  | .accumulate i last sum =>
      if i = last then some (.endOf sum, d)
      else if d.alive then
        -- the sum of a long long and an unsigned long long is unsigned
        d.vector[i]?.map fun x => (.accumulate (i + 1) last (sum.toUInt64 + x).toInt64, d)
      else none
  | .endOf sum => some (.printSum sum, d.print .endOf)
  | .printSum sum => some (.exit, d.print (.sum sum.toInt32))
  | .exit => some (.ended, { d with exited := true })
  | .intro | .launch | .slow _ | .initializing | .fill _ | .notify | .setValue | .join | .destroy
  | .returned | .ended => none

def next : Who → Pc → Shared → Draws → Option (Pc × Shared)
  | .main => mainNext
  | .t => fun l d _ => tNext l d

/-- main begins, and t is not there. -/
def sys : Lts (Conf Who Pc Shared) (Who × Draws) :=
  threads next (fun | .main => .intro | .t => .start) (· = ⟨[], false, true, false, false, []⟩)

/-! ## The counts and their sum -/

/-- A call of Busy returns, and has counted no more than its turns. -/
theorem busy_eq (b : Draws) : ∃ r, busy b = some r ∧ r.toNat ≤ 10000 := by
  have hs := Busy.two_le_sums b.range 10000 0
  have hle := (Busy.tally_le (p := Busy.Accepted) (Busy.sums b.ri 10000 0)).trans_eq
    (Busy.length_sums b.ri 10000 0)
  refine ⟨0 + UInt32.ofNat (Busy.tally Busy.Accepted (Busy.sums b.ri 10000 0)), ?_, ?_⟩
  · rw [busy, Busy.call, Busy.turns_eq 10000 ⟨0, 0⟩ hs]
    rfl
  · rw [UInt32.zero_add, UInt32.toNat_ofNat', Nat.mod_eq_of_lt (by omega)]
    exact hle

/-- The sum of the elements, in ℕ. -/
def total (l : List UInt64) : ℕ := (l.map UInt64.toNat).sum

theorem total_take_succ {l : List UInt64} {i : ℕ} {x : UInt64} (h : l[i]? = some x) :
    total (l.take (i + 1)) = total (l.take i) + x.toNat := by
  obtain ⟨hi, rfl⟩ := List.getElem?_eq_some_iff.mp h
  rw [List.take_succ_eq_append_getElem hi, total, List.map_append, List.sum_append]
  rfl

theorem total_le {l : List UInt64} {m : ℕ} (h : ∀ x ∈ l, x.toNat ≤ m) :
    total l ≤ m * l.length := by
  induction l with
  | nil => exact Nat.zero_le _
  | cons x l ih =>
      obtain ⟨hx, hl⟩ := List.forall_mem_cons.mp h
      have hsum : total (x :: l) = x.toNat + total l := List.sum_cons
      rw [hsum, List.length_cons, Nat.mul_succ, Nat.add_comm]
      exact Nat.add_le_add (ih hl) hx

/-- Adding an element in machine integers. -/
theorem add_ofNat (s : ℕ) (x : UInt64) :
    ((Int64.ofNat s).toUInt64 + x).toInt64 = Int64.ofNat (s + x.toNat) := by
  rw [Int64.toUInt64_ofNat', UInt64.toInt64_add, UInt64.toInt64_ofNat', Int64.ofNat_add]
  congr 1
  rw [← UInt64.toInt64_ofNat', UInt64.ofNat_toNat]

/-! ## Where main and t are -/

/-- The sums that have been printed. -/
def sums (out : List Line) : List Int32 :=
  out.filterMap fun
    | .sum i => some i
    | _ => none

/-- What main knows. -/
structure Main (d : Shared) (launched ready : Bool) (filled : ℕ) : Prop where
  launched : d.launched = launched
  ready : d.ready = ready
  length : d.vector.length = filled

def MainAt (d : Shared) : Pc → Prop
  | .intro | .launch => Main d false false 0
  | .slow _ | .initializing => Main d true false 0
  | .fill i => i ≤ 1000 ∧ Main d true false i
  | .notify | .setValue => Main d true false 1000
  | .join => Main d true true 1000
  | .destroy | .returned => d.exited = true ∧ Main d true true 1000
  | _ => False

/-- What t knows: whether the promise has its value, whether it has ended, and what it has
    printed. -/
structure Reader (d : Shared) (ready exited : Bool) (out : List Int32) : Prop where
  ready : ready = true → d.ready = true
  exited : d.exited = exited
  sums : sums d.out = out

def ReaderAt (d : Shared) : Pc → Prop
  | .start | .wait => Reader d false false []
  | .waited => Reader d true false []
  | .accumulate i last sum => Reader d true false [] ∧ last = d.vector.length ∧ i ≤ last ∧
      sum = Int64.ofNat (total (d.vector.take i))
  | .endOf sum | .printSum sum => Reader d true false [] ∧ sum = Int64.ofNat (total d.vector)
  | .exit => Reader d true false [Int32.ofNat (total d.vector)]
  | .ended => Reader d true true [Int32.ofNat (total d.vector)]
  | _ => False

def Assert (w : Who) (l : Pc) (d : Shared) : Prop :=
  match w with
  | .main => MainAt d l
  | .t => ReaderAt d l

/-- What holds all the time. -/
structure Inv (d : Shared) : Prop where
  filled : d.ready = true → d.vector.length = 1000
  small : ∀ x ∈ d.vector, x.toNat ≤ 10000
  alive : d.alive = false → d.exited = true

/-! ## Steps -/

variable {l l' : Pc} {d d' : Shared} {b : Draws} {c : Conf Who Pc Shared}

/-- What a step of main leaves to t. -/
structure MainStep (d d' : Shared) : Prop where
  exited : d'.exited = d.exited
  sums : sums d'.out = sums d.out
  ready : d.ready = true → d'.ready = true ∧ d'.vector = d.vector

/-- What a step of t leaves to main. -/
structure ReaderStep (d d' : Shared) : Prop where
  vector : d'.vector = d.vector
  ready : d'.ready = d.ready
  alive : d'.alive = d.alive
  launched : d'.launched = d.launched
  exited : d.exited = true → d'.exited = true

theorem sums_print (d : Shared) (line : Line) (h : ∀ i, line ≠ .sum i) :
    sums (d.print line).out = sums d.out := by
  cases line with
  | sum i => exact absurd rfl (h i)
  | _ => exact (List.filterMap_append ..).trans (List.append_nil _)

theorem Main.print {launched ready : Bool} {filled : ℕ} (h : Main d launched ready filled)
    (line : Line) : Main (d.print line) launched ready filled :=
  ⟨h.launched, h.ready, h.length⟩

theorem Inv.print (h : Inv d) (line : Line) : Inv (d.print line) := ⟨h.filled, h.small, h.alive⟩

theorem main_step (hA : MainAt d l) (hI : Inv d) (h : mainNext l d b = some (l', d')) :
    MainAt d' l' ∧ Inv d' ∧ MainStep d d' := by
  unfold mainNext at h
  split at h
  case h_1 | h_6 =>
    cases h
    exact ⟨Main.print hA _, hI.print _, rfl, sums_print d _ fun _ => nofun, fun hr => ⟨hr, rfl⟩⟩
  case h_4 =>
    cases h
    exact ⟨⟨Nat.zero_le _, Main.print hA _⟩, hI.print _, rfl, sums_print d _ fun _ => nofun,
      fun hr => ⟨hr, rfl⟩⟩
  case h_2 =>
    cases h
    exact ⟨⟨rfl, hA.ready, hA.length⟩, ⟨hI.filled, hI.small, hI.alive⟩, rfl, rfl,
      fun hr => ⟨hr, rfl⟩⟩
  case h_3 i =>
    split at h
    · obtain ⟨r, -, he⟩ := Option.map_eq_some_iff.mp h
      cases he
      exact ⟨hA, hI, rfl, rfl, fun hr => ⟨hr, rfl⟩⟩
    · cases h
      exact ⟨hA, hI, rfl, rfl, fun hr => ⟨hr, rfl⟩⟩
  case h_5 i =>
    obtain ⟨hle, hm⟩ := hA
    split at h
    · next hi =>
        obtain ⟨r, hr, he⟩ := Option.map_eq_some_iff.mp h
        cases he
        have hno (hready : d.ready = true) : False := by
          rw [hm.ready] at hready
          cases hready
        refine ⟨⟨hi, hm.launched, hm.ready, ?_⟩, ⟨fun hready => (hno hready).elim, ?_, hI.alive⟩,
          rfl, rfl, fun hready => (hno hready).elim⟩
        · exact (List.length_append ..).trans (congrArg (· + 1) hm.length)
        · obtain ⟨r', hr', hsmall⟩ := busy_eq b
          have hrr : r = r' := Option.some.inj (hr.symm.trans hr')
          intro x hx
          rcases List.mem_append.mp hx with hx | hx
          · exact hI.small x hx
          · rw [List.mem_singleton.mp hx, UInt32.toNat_toUInt64, hrr]
            exact hsmall
    · cases h
      have hi : i = 1000 := by omega
      rw [hi] at hm
      exact ⟨hm, hI, rfl, rfl, fun hr => ⟨hr, rfl⟩⟩
  case h_7 =>
    split at h
    · cases h
    · cases h
      exact ⟨⟨hA.launched, rfl, hA.length⟩, ⟨fun _ => hA.length, hI.small, hI.alive⟩, rfl, rfl,
        fun _ => ⟨rfl, rfl⟩⟩
  case h_8 =>
    split at h
    · next he =>
        cases h
        exact ⟨⟨he, hA⟩, hI, rfl, rfl, fun hr => ⟨hr, rfl⟩⟩
    · cases h
  case h_9 =>
    cases h
    obtain ⟨he, hm⟩ := hA
    exact ⟨⟨he, hm.launched, hm.ready, hm.length⟩, ⟨hI.filled, hI.small, fun _ => he⟩, rfl, rfl,
      fun hr => ⟨hr, rfl⟩⟩
  case h_10 => cases h

theorem reader_step (hA : ReaderAt d l) (h : tNext l d = some (l', d')) :
    ReaderAt d' l' ∧ ReaderStep d d' := by
  unfold tNext at h
  split at h
  case h_1 =>
    split at h
    · cases h
      exact ⟨⟨nofun, hA.exited, (sums_print d .waiting fun _ => nofun).trans hA.sums⟩,
        rfl, rfl, rfl, rfl, id⟩
    · cases h
  case h_2 =>
    split at h
    · next hr =>
        cases h
        exact ⟨⟨fun _ => hr, hA.exited, hA.sums⟩, rfl, rfl, rfl, rfl, id⟩
    · cases h
  case h_3 =>
    cases h
    exact ⟨⟨⟨hA.ready, hA.exited, (sums_print d .waitOver fun _ => nofun).trans hA.sums⟩,
      rfl, Nat.zero_le _, rfl⟩, rfl, rfl, rfl, rfl, id⟩
  case h_4 i last sum =>
    obtain ⟨hr, hlast, hle, hsum⟩ := hA
    split at h
    · next hi =>
        cases h
        rw [hi, hlast, List.take_length] at hsum
        exact ⟨⟨hr, hsum⟩, rfl, rfl, rfl, rfl, id⟩
    · split at h
      · obtain ⟨x, hx, he⟩ := Option.map_eq_some_iff.mp h
        cases he
        refine ⟨⟨hr, hlast, by omega, ?_⟩, rfl, rfl, rfl, rfl, id⟩
        rw [hsum, add_ofNat, total_take_succ hx]
      · cases h
  case h_5 sum =>
    cases h
    obtain ⟨hr, hsum⟩ := hA
    exact ⟨⟨⟨hr.ready, hr.exited, (sums_print d .endOf fun _ => nofun).trans hr.sums⟩, hsum⟩,
      rfl, rfl, rfl, rfl, id⟩
  case h_6 sum =>
    cases h
    obtain ⟨hr, hsum⟩ := hA
    refine ⟨⟨hr.ready, hr.exited, ?_⟩, rfl, rfl, rfl, rfl, id⟩
    have happ : sums (d.print (.sum sum.toInt32)).out = sums d.out ++ [sum.toInt32] :=
      List.filterMap_append ..
    rw [happ, hr.sums, hsum, Int64.toInt32_ofNat']
    rfl
  case h_7 =>
    cases h
    exact ⟨⟨hA.ready, rfl, hA.sums⟩, rfl, rfl, rfl, rfl, fun _ => rfl⟩
  all_goals cases h

/-! ## Neither disturbs the other -/

theorem Main.of_reader {launched ready : Bool} {filled : ℕ} (h : Main d launched ready filled)
    (hs : ReaderStep d d') : Main d' launched ready filled where
  launched := hs.launched.trans h.launched
  ready := hs.ready.trans h.ready
  length := by rw [hs.vector, h.length]

theorem mainAt_of_reader (h : MainAt d l) (hs : ReaderStep d d') : MainAt d' l := by
  cases l with
  | intro | launch | slow i | initializing | notify | setValue | join =>
      exact Main.of_reader h hs
  | fill i => exact ⟨h.1, h.2.of_reader hs⟩
  | destroy | returned => exact ⟨hs.exited h.1, h.2.of_reader hs⟩
  | start | wait | waited | accumulate i last sum | endOf sum | printSum sum | exit | ended =>
      exact h

theorem Reader.of_main {ready exited : Bool} {out : List Int32} (h : Reader d ready exited out)
    (hs : MainStep d d') : Reader d' ready exited out where
  ready hr := (hs.ready (h.ready hr)).1
  exited := hs.exited.trans h.exited
  sums := hs.sums.trans h.sums

theorem readerAt_of_main (h : ReaderAt d l) (hs : MainStep d d') : ReaderAt d' l := by
  cases l with
  | start | wait | waited => exact Reader.of_main h hs
  | accumulate i last sum =>
      obtain ⟨hr, h⟩ := h
      have hv := (hs.ready (hr.ready rfl)).2
      exact ⟨hr.of_main hs, by rw [hv]; exact h⟩
  | endOf sum | printSum sum =>
      obtain ⟨hr, h⟩ := h
      have hv := (hs.ready (hr.ready rfl)).2
      exact ⟨hr.of_main hs, by rw [hv]; exact h⟩
  | exit | ended =>
      have hv := (hs.ready (Reader.ready h rfl)).2
      have h' := Reader.of_main h hs
      rw [← hv] at h'
      exact h'
  | intro | launch | slow i | initializing | fill i | notify | setValue | join | destroy
  | returned => exact h

/-- What a step leaves to the other. -/
def Leaves (w : Who) (d d' : Shared) : Prop :=
  match w with
  | .main => MainStep d d'
  | .t => ReaderStep d d'

theorem assert_reach (h : sys.Reachable c) : Inv c.shared ∧ ∀ w, Assert w (c.loc w) c.shared := by
  refine Threads.rely (I := Inv) (A := Assert) (R := Leaves) ?_ ?_ ?_ h
  · rintro d rfl
    refine ⟨⟨nofun, nofun, nofun⟩, fun w => ?_⟩
    cases w with
    | main => exact ⟨rfl, rfl, rfl⟩
    | t => exact ⟨nofun, rfl, rfl⟩
  · intro w l d b l' d' hI hA hs
    cases w with
    | main =>
        obtain ⟨hA', hI', hm⟩ := main_step hA hI hs
        exact ⟨hI', hA', hm⟩
    | t =>
        obtain ⟨hA', hr⟩ := reader_step hA hs
        refine ⟨⟨?_, ?_, fun ha => hr.exited (hI.alive (hr.alive ▸ ha))⟩, hA', hr⟩
        · rw [hr.ready, hr.vector]
          exact hI.filled
        · rw [hr.vector]
          exact hI.small
  · intro w u l d d' hne hA hR
    cases w <;> cases u
    · exact absurd rfl hne
    · exact mainAt_of_reader hA hR
    · exact readerAt_of_main hA hR
    · exact absurd rfl hne

/-! ## Progress -/

/-- main has returned, or t has ended. -/
def Pc.rest : Pc → Bool
  | .returned | .ended => true
  | _ => false

/-- The steps that are left at most. -/
def Pc.left : Pc → ℕ
  | .intro => 2009
  | .launch => 2008
  | .slow i => (1000 - i) + 1007
  | .initializing => 1006
  | .fill i => (1000 - i) + 5
  | .notify => 4
  | .setValue => 3
  | .join => 2
  | .destroy => 1
  | .start => 1007
  | .wait => 1006
  | .waited => 1005
  | .accumulate i _ _ => (1000 - i) + 4
  | .endOf _ => 3
  | .printSum _ => 2
  | .exit => 1
  | .returned | .ended => 0

theorem main_left_lt (h : mainNext l d b = some (l', d')) : l'.left < l.left := by
  unfold mainNext at h
  split at h
  case h_1 | h_2 | h_4 | h_6 | h_9 =>
    cases h
    simp only [Pc.left]
    omega
  case h_3 | h_5 =>
    split at h
    · obtain ⟨r, -, he⟩ := Option.map_eq_some_iff.mp h
      cases he
      simp only [Pc.left]
      omega
    · cases h
      simp only [Pc.left]
      omega
  case h_7 =>
    split at h
    · cases h
    · cases h
      exact Nat.lt_succ_self _
  case h_8 =>
    split at h
    · cases h
      exact Nat.lt_succ_self _
    · cases h
  case h_10 => cases h

theorem reader_left_lt (hA : ReaderAt d l) (hI : Inv d) (h : tNext l d = some (l', d')) :
    l'.left < l.left := by
  unfold tNext at h
  split at h
  case h_1 | h_2 =>
    split at h
    · cases h
      exact Nat.lt_succ_self _
    · cases h
  case h_3 | h_5 | h_6 | h_7 =>
    cases h
    exact Nat.lt_succ_self _
  case h_4 i last sum =>
    obtain ⟨hr, hlast, hle, -⟩ := hA
    have hlen := hI.filled (hr.ready rfl)
    split at h
    · cases h
      simp only [Pc.left]
      omega
    · split at h
      · obtain ⟨x, -, he⟩ := Option.map_eq_some_iff.mp h
        cases he
        simp only [Pc.left]
        omega
      · cases h
  all_goals cases h

/-- t can make its next step, once it has been started and the value is set. -/
theorem reader_goes (hA : ReaderAt d l) (hI : Inv d) (hl : d.launched = true)
    (hr : d.ready = true) (hne : l ≠ .ended) : tNext l d ≠ none := by
  cases l with
  | start =>
      simp only [tNext, hl, if_true]
      exact Option.some_ne_none _
  | wait =>
      simp only [tNext, hr, if_true]
      exact Option.some_ne_none _
  | accumulate i last sum =>
      obtain ⟨hread, hlast, hle, -⟩ := hA
      simp only [tNext]
      split
      · exact Option.some_ne_none _
      · next hi =>
          have halive : d.alive = true := by
            by_contra ha
            have he := hI.alive (Bool.eq_false_iff.mpr ha)
            rw [hread.exited] at he
            cases he
          have hlt : i < d.vector.length := by omega
          rw [if_pos halive, List.getElem?_eq_getElem hlt]
          exact Option.some_ne_none _
  | waited | endOf sum | printSum sum | exit => exact Option.some_ne_none _
  | ended => exact absurd rfl hne
  | intro | launch | slow i | initializing | fill i | notify | setValue | join | destroy
  | returned => exact hA.elim

/-- main can make its next step, if it does not wait for t. -/
theorem main_goes (hA : MainAt d l) (hrest : l ≠ .returned)
    (hjoin : l = .join → d.exited = true) : mainNext l d b ≠ none := by
  obtain ⟨r, hr, -⟩ := busy_eq b
  cases l with
  | slow i | fill i =>
      simp only [mainNext, hr]
      split <;> exact Option.some_ne_none _
  | setValue =>
      simp only [mainNext, Main.ready hA, Bool.false_eq_true, if_false]
      exact Option.some_ne_none _
  | join =>
      simp only [mainNext, hjoin rfl, if_true]
      exact Option.some_ne_none _
  | intro | launch | initializing | notify | destroy => exact Option.some_ne_none _
  | returned => exact absurd rfl hrest
  | start | wait | waited | accumulate i last sum | endOf sum | printSum sum | exit | ended =>
      exact hA.elim

theorem ended_iff (hA : ReaderAt d l) : d.exited = true ↔ l = .ended := by
  have hno {ready : Bool} {out : List Int32} (h : Reader d ready false out) :
      d.exited ≠ true := by
    rw [h.exited]
    exact Bool.false_ne_true
  cases l with
  | start | wait | waited | exit => exact iff_of_false (hno hA) nofun
  | accumulate i last sum | endOf sum | printSum sum => exact iff_of_false (hno hA.1) nofun
  | ended => exact iff_of_true hA.exited rfl
  | intro | launch | slow i | initializing | fill i | notify | setValue | join | destroy
  | returned => exact hA.elim

/-- One draw after another. -/
def ones : Draws := ⟨fun _ => 1, fun _ => by decide⟩

/-- Where main and t end. -/
def final : Who → Pc
  | .main => .returned
  | .t => .ended

theorem rest_iff {w : Who} (hA : Assert w l d) : l.rest = true ↔ l = final w := by
  cases w with
  | main =>
      cases l with
      | ended => exact hA.elim
      | _ => simp [Pc.rest, final]
  | t =>
      cases l with
      | returned => exact hA.elim
      | _ => simp [Pc.rest, final]

/-- When main has returned, t has ended. -/
theorem main_last (h : sys.Reachable c) (hret : c.loc .main = .returned) (w : Who) :
    c.loc w = final w := by
  obtain ⟨-, hA⟩ := assert_reach h
  have hmain : MainAt c.shared (c.loc .main) := hA .main
  cases w with
  | main => exact hret
  | t =>
      rw [hret] at hmain
      exact (ended_iff (hA .t)).mp hmain.1

/-- Until then main can go on, or t while main waits for it. -/
theorem main_waits (h : sys.Reachable c) (hret : c.loc .main ≠ .returned) :
    ∃ u b, c.loc u ≠ final u ∧ next u (c.loc u) c.shared b ≠ none := by
  obtain ⟨hI, hA⟩ := assert_reach h
  have hmain : MainAt c.shared (c.loc .main) := hA .main
  by_cases hwait : c.loc .main = .join ∧ c.loc .t ≠ .ended
  · obtain ⟨hl, hne⟩ := hwait
    rw [hl] at hmain
    exact ⟨.t, ones, hne, reader_goes (hA .t) hI (Main.launched hmain) (Main.ready hmain) hne⟩
  · refine ⟨.main, ones, hret, main_goes hmain hret fun hl => ?_⟩
    refine (ended_iff (hA .t)).mpr ?_
    by_contra hne
    exact hwait ⟨hl, hne⟩

/-- What t has printed is the sum of the 1000 counts, and no conversion has cut it off. -/
structure Printed (d : Shared) (x : Int32) : Prop where
  sums : sums d.out = [x]
  length : d.vector.length = 1000
  exact : x.toInt = (total d.vector : ℤ)

theorem printed_of_reader {exited : Bool} (hI : Inv d)
    (h : Reader d true exited [Int32.ofNat (total d.vector)]) :
    Printed d (Int32.ofNat (total d.vector)) := by
  have hlen := hI.filled (h.ready rfl)
  have hle := total_le hI.small
  rw [hlen] at hle
  exact ⟨h.sums, hlen, Int32.toInt_ofNat_of_lt (by omega)⟩

/-- main has returned, t has ended, and the sum has been printed. -/
def Done (c : Conf Who Pc Shared) : Prop :=
  c.loc .main = .returned ∧ c.loc .t = .ended ∧ ∃ x, Printed c.shared x

theorem done_of_final (h : sys.Reachable c) (hend : ∀ w, c.loc w = final w) : Done c := by
  obtain ⟨hI, hA⟩ := assert_reach h
  have hreader : ReaderAt c.shared (c.loc .t) := hA .t
  rw [hend .t] at hreader
  exact ⟨hend .main, hend .t, _, printed_of_reader hI hreader⟩

theorem finishes (h : sys.Reachable c) :
    sys.Finishes (Threads.Busy (·.rest = true)) Done (sumAt Pc.left c.loc) c := by
  refine Lts.Finishes.imp ?_ h fun _ hc hend => done_of_final hc hend
  refine Threads.joins (A := Assert) (m := .main) (fun _ hc => assert_reach hc)
    (fun _ _ _ hA => rest_iff hA) (fun w l d _ l' d' hI hA hn => ?_)
    (fun _ hc hret => main_last hc hret) (fun _ hc hret => main_waits hc hret) h
  cases w with
  | main => exact main_left_lt hn
  | t => exact reader_left_lt hA hI hn

/-- **The vector is handed over.** In every reachable state: while t adds up the elements of
    `vector`, main is at the join and `vector` is alive; and what t has printed as the sum is
    nothing yet, or once the sum of all 1000 counts in ℤ. Whatever the scheduler does, main
    returns and t ends with the sum printed. -/
theorem sum_printed (h : sys.Reachable c) :
    (∀ i last sum, c.loc .t = .accumulate i last sum →
      c.loc .main = .join ∧ c.shared.alive = true) ∧
    (sums c.shared.out = [] ∨ ∃ x, Printed c.shared x) ∧
    sys.Finishes (Threads.Busy (·.rest = true)) Done (sumAt Pc.left c.loc) c := by
  obtain ⟨hI, hA⟩ := assert_reach h
  have hmain : MainAt c.shared (c.loc .main) := hA .main
  have hreader : ReaderAt c.shared (c.loc .t) := hA .t
  refine ⟨fun i last sum hl => ?_, ?_, finishes h⟩
  · rw [hl] at hreader
    have hready := hreader.1.ready rfl
    have hexited := hreader.1.exited
    refine ⟨?_, ?_⟩
    · cases hc : c.loc .main with
      | join => rfl
      | intro | launch | slow i | initializing | notify | setValue =>
          rw [hc] at hmain
          cases hready.symm.trans (Main.ready hmain)
      | fill i =>
          rw [hc] at hmain
          cases hready.symm.trans hmain.2.ready
      | destroy | returned =>
          rw [hc] at hmain
          cases hexited.symm.trans hmain.1
      | start | wait | waited | accumulate i last sum | endOf sum | printSum sum | exit | ended =>
          rw [hc] at hmain
          exact hmain.elim
    · by_contra ha
      cases hexited.symm.trans (hI.alive (Bool.eq_false_iff.mpr ha))
  · cases hc : c.loc .t with
    | start | wait | waited =>
        rw [hc] at hreader
        exact .inl (Reader.sums hreader)
    | accumulate i last sum | endOf sum | printSum sum =>
        rw [hc] at hreader
        exact .inl hreader.1.sums
    | exit | ended =>
        rw [hc] at hreader
        exact .inr ⟨_, printed_of_reader hI hreader⟩
    | intro | launch | slow i | initializing | fill i | notify | setValue | join | destroy
    | returned =>
        rw [hc] at hreader
        exact hreader.elim

/-- main wastes time, and t waits. -/
def tWaits : Conf Who Pc Shared :=
  (sys.exec Lts.anyStep
    ⟨fun | .main => .intro | .t => .start, ⟨[], false, true, false, false, []⟩⟩
    [(.main, ones), (.main, ones), (.t, ones)]).get (by decide)

theorem sum_printed_tWaits :
    tWaits.loc .t = .wait ∧
      sys.Finishes (Threads.Busy (·.rest = true)) Done (sumAt Pc.left tWaits.loc) tWaits := by
  have hc : sys.Reachable tWaits := .exec _ (.start ⟨rfl, rfl⟩) (Option.some_get _).symm
  exact ⟨by decide, (sum_printed hc).2.2⟩

end CppConcurrency.Wait
