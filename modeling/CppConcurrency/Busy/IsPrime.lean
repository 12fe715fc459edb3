/-
  Busy::isPrime and Busy::operator() (Busy.h).

      unsigned sqroot = sqrt(n), i = 2;
      for(;i!=sqroot && n%i; ++i);
      return i==sqroot;

  Model. `unsigned` is `UInt32`, and `sqroot` is the integer square root. The loop is a
  transition system whose state is the index (`Loop`); evaluating `n % 0` leads to a state of
  its own. `RandomInt` is a stream of draws, and each sum takes two of them.

  Where the loop stops (`stopIndex`): at the least divisor of `n` or at the root, whichever
  comes first; 2 and 3 have the root 1, which the index has passed from the start, so there
  it stops at `n`.

  Proved:
  * `loop_safe`: the loop divides by no 0, its index does not wrap around, and it stops there.
  * `isPrime_exact`: the answer "the index has reached the root" is right exactly for the `n`
    from 4 on whose least divisor is not the root. It is wrong for 2 and 3, and for 4, 6, 8, 9,
    15 and all others whose least divisor is their root: the root itself is never tried.
    operator() counts the prime sums exactly when as many are missed as are mistaken.
-/
import CppConcurrency.Lib.Lts
import Mathlib.Data.Nat.Prime.Basic
import Mathlib.Data.Nat.Sqrt
import Mathlib.Order.Bounds.Basic

namespace CppConcurrency.Busy

open Concur

/-- `unsigned sqroot = sqrt(n)` -/
def sqroot (n : UInt32) : UInt32 := UInt32.ofNat (Nat.sqrt n.toNat)

/-- The loop is about to evaluate its condition at `i`; it has been left with `i`; or `n % 0`
    has been evaluated. -/
inductive Loop where
  | test (i : UInt32)
  | stopped (i : UInt32)
  | divByZero
  deriving DecidableEq, Repr

/-- One evaluation of `i!=sqroot && n%i`, and `++i` if it is true. -/
def step (n : UInt32) : Loop → Option Loop
  | .test i =>
      if i = sqroot n then some (.stopped i)
      else if i = 0 then some .divByZero
      else if n % i ≠ 0 then some (.test (i + 1))
      else some (.stopped i)
  | .stopped _ => none
  | .divByZero => none

/-- The loop of `isPrime(n)`. -/
def loop (n : UInt32) : Lts Loop Unit where
  init s := s = .test 2
  step s _ := step n s

/-- At most `fuel` steps of the loop. -/
def run (n : UInt32) : ℕ → Loop → Loop
  | 0, s => s
  | fuel + 1, s =>
      match step n s with
      | none => s
      | some s' => run n fuel s'

/-- `isPrime(n)`: what it returns, if the loop stops (then within `n + 1` steps). -/
def isPrime (n : UInt32) : Option Bool :=
  match run n (n.toNat + 1) (.test 2) with
  | .stopped i => some (i == sqroot n)
  | _ => none

/-! ## Where the loop stops -/

/-- The index at which the loop stops. -/
def stopIndex (n : ℕ) : ℕ := if 2 ≤ Nat.sqrt n then min n.minFac (Nat.sqrt n) else n

theorem minFac_isLeast {n : ℕ} (hn : n ≠ 1) : IsLeast {d | 2 ≤ d ∧ d ∣ n} n.minFac :=
  ⟨⟨(Nat.minFac_prime hn).two_le, Nat.minFac_dvd n⟩, fun _ hd => Nat.minFac_le_of_dvd hd.1 hd.2⟩

theorem sqrt_lt {n : ℕ} (hn : 2 ≤ n) : Nat.sqrt n < n := Nat.sqrt_lt_self hn

/-- The root is below 2 for 2 and 3 only. -/
theorem two_le_sqrt {n : ℕ} : 2 ≤ Nat.sqrt n ↔ 4 ≤ n := Nat.le_sqrt

theorem two_le_stopIndex {n : ℕ} (hn : 2 ≤ n) : 2 ≤ stopIndex n := by
  unfold stopIndex
  split
  · next hs => exact le_min (Nat.minFac_prime (by omega)).two_le hs
  · exact hn

theorem stopIndex_le {n : ℕ} (hn : 2 ≤ n) : stopIndex n ≤ n := by
  unfold stopIndex
  split
  · exact (min_le_right _ _).trans (sqrt_lt hn).le
  · exact le_rfl

/-- On the way to `stopIndex` the loop goes on, and there it stops. -/
theorem stops_iff {n k : ℕ} (hk : 2 ≤ k) (hle : k ≤ stopIndex n) :
    k = Nat.sqrt n ∨ k ∣ n ↔ k = stopIndex n := by
  unfold stopIndex at hle ⊢
  split at hle
  · next hs =>
      rw [if_pos hs]
      constructor
      · rintro (rfl | hd)
        · exact le_antisymm hle (min_le_right _ _)
        · exact le_antisymm hle ((min_le_left _ _).trans (Nat.minFac_le_of_dvd hk hd))
      · intro he
        rcases le_total n.minFac (Nat.sqrt n) with hm | hm
        · rw [min_eq_left hm] at he
          exact .inr (he ▸ Nat.minFac_dvd n)
        · rw [min_eq_right hm] at he
          exact .inl he
  · next hs =>
      rw [if_neg hs]
      rw [two_le_sqrt] at hs
      constructor
      · rintro (rfl | hd)
        · rw [two_le_sqrt] at hk
          exact absurd hk hs
        · -- n is 2 or 3
          have hn : n = 2 ∨ n = 3 := by omega
          rcases hn with rfl | rfl
          · omega
          · have hne : k ≠ 2 := by
              rintro rfl
              exact absurd hd (by decide)
            omega
      · rintro rfl
        exact .inr dvd_rfl

/-! ## The loop -/

variable {n i : UInt32}

theorem toNat_sqroot (n : UInt32) : (sqroot n).toNat = Nat.sqrt n.toNat := by
  have hlt : Nat.sqrt n.toNat < 2 ^ 32 := (Nat.sqrt_le_self _).trans_lt n.toNat_lt
  rw [sqroot, UInt32.toNat_ofNat', Nat.mod_eq_of_lt hlt]

theorem mod_eq_zero_iff : n % i = 0 ↔ i.toNat ∣ n.toNat := by
  rw [← UInt32.toNat_inj, UInt32.toNat_mod, Nat.dvd_iff_mod_eq_zero]
  rfl

/-- An index on its way is tested, and goes on by one or stops. -/
theorem step_test (hi : 2 ≤ i.toNat) (hle : i.toNat ≤ stopIndex n.toNat) :
    step n (.test i) =
      some (if i.toNat = stopIndex n.toNat then .stopped i else .test (i + 1)) := by
  have hroot : i = sqroot n ↔ i.toNat = Nat.sqrt n.toNat := by
    rw [← UInt32.toNat_inj, toNat_sqroot]
  have hzero : i ≠ 0 := by
    rintro rfl
    exact absurd hi (by decide)
  have hstop := stops_iff hi hle
  rw [← hroot, ← mod_eq_zero_iff] at hstop
  simp only [step]
  by_cases hs : i.toNat = stopIndex n.toNat
  · rw [if_pos hs]
    rcases hstop.mpr hs with h | h
    · rw [if_pos h]
    · by_cases hr : i = sqroot n
      · rw [if_pos hr]
      · rw [if_neg hr, if_neg hzero, if_neg (not_not.mpr h)]
  · obtain ⟨hr, hm⟩ := not_or.mp (mt hstop.mp hs)
    rw [if_neg hs, if_neg hr, if_neg hzero, if_pos hm]

/-- The index does not wrap around. -/
theorem toNat_succ (hn : 2 ≤ n.toNat) (hlt : i.toNat < stopIndex n.toNat) :
    (i + 1).toNat = i.toNat + 1 := by
  have hmax := n.toNat_lt
  have hle := stopIndex_le hn
  have hone : (1 : UInt32).toNat = 1 := rfl
  rw [UInt32.toNat_add, hone]
  exact Nat.mod_eq_of_lt (by omega)

/-- What holds of the loop at each of its states. -/
def Inside (n : UInt32) : Loop → Prop
  | .test i => 2 ≤ i.toNat ∧ i.toNat ≤ stopIndex n.toNat
  | .stopped i => i.toNat = stopIndex n.toNat
  | .divByZero => False

theorem inside_step (hn : 2 ≤ n.toNat) {s s' : Loop} (h : Inside n s) (hs : step n s = some s') :
    Inside n s' := by
  cases s with
  | test i =>
      obtain ⟨hi, hle⟩ := h
      rw [step_test hi hle] at hs
      cases hs
      split
      · next he => exact he
      · next hne =>
          have hlt := lt_of_le_of_ne hle hne
          rw [Inside, toNat_succ hn hlt]
          omega
  | stopped i => cases hs
  | divByZero => exact h.elim

theorem inside_reach (hn : 2 ≤ n.toNat) {s : Loop} (h : (loop n).Reachable s) : Inside n s := by
  refine h.invariant (fun s hs => ?_) fun s _ s' _ hi _ hs => inside_step hn hi hs
  rw [show s = .test 2 from hs]
  exact ⟨le_rfl, two_le_stopIndex hn⟩

/-- From an index on its way the loop stops, after as many steps as are left. -/
theorem exec_stops (hn : 2 ≤ n.toNat) (k : ℕ) (hi : 2 ≤ i.toNat)
    (hk : i.toNat + k = stopIndex n.toNat) :
    ∃ j : UInt32, j.toNat = stopIndex n.toNat ∧
      (loop n).exec Lts.anyStep (.test i) (List.replicate (k + 1) ()) = some (.stopped j) ∧
      ∀ extra, run n (k + 1 + extra) (.test i) = .stopped j := by
  induction k generalizing i with
  | zero =>
      rw [Nat.add_zero] at hk
      have hstep := step_test hi hk.le
      rw [if_pos hk] at hstep
      refine ⟨i, hk, ?_, fun extra => ?_⟩
      · have hlast : (loop n).step (.test i) () = some (.stopped i) := hstep
        exact Lts.exec_cons_of_step trivial hlast []
      · rw [show 0 + 1 + extra = extra + 1 by omega, run, hstep]
        dsimp only
        cases extra <;> rfl
  | succ k ih =>
      have hlt : i.toNat < stopIndex n.toNat := by omega
      have hstep := step_test hi hlt.le
      rw [if_neg hlt.ne] at hstep
      have hsucc := toNat_succ hn hlt
      obtain ⟨j, hj, hexec, hrun⟩ := ih (i := i + 1) (by omega) (by omega)
      refine ⟨j, hj, ?_, fun extra => ?_⟩
      · rw [← hexec]
        have hnext : (loop n).step (.test i) () = some (.test (i + 1)) := hstep
        exact Lts.exec_cons_of_step trivial hnext _
      · rw [show k + 1 + 1 + extra = (k + 1 + extra) + 1 by omega, run, hstep]
        exact hrun extra

/-- **The loop is safe and ends.** For every `n` from 2 on: the index stays within 2 and `n`
    and grows by one, without wrapping around; there is no division by 0; and the loop stops,
    at the least divisor or at the root, whichever is smaller, if the root is at least 2, and
    at `n` itself if it is 1. -/
theorem loop_safe (n : UInt32) (hn : 2 ≤ n.toNat) :
    (∀ i, (loop n).Reachable (.test i) → 2 ≤ i.toNat ∧ i.toNat ≤ max 2 n.toNat ∧
      ∀ j, step n (.test i) = some (.test j) → j.toNat = i.toNat + 1) ∧
    ¬ (loop n).Reachable .divByZero ∧
    ∃ (k d : ℕ) (j : UInt32),
      (loop n).exec Lts.anyStep (.test 2) (List.replicate k ()) = some (.stopped j) ∧
      IsLeast {d | 2 ≤ d ∧ d ∣ n.toNat} d ∧
      (2 ≤ Nat.sqrt n.toNat → j.toNat = min d (Nat.sqrt n.toNat)) ∧
      (Nat.sqrt n.toNat = 1 → j.toNat = n.toNat) := by
  refine ⟨fun i hi => ?_, fun hz => inside_reach hn hz, ?_⟩
  · obtain ⟨hlow, hle⟩ := inside_reach hn hi
    refine ⟨hlow, (hle.trans (stopIndex_le hn)).trans (le_max_right _ _), fun j hj => ?_⟩
    rw [step_test hlow hle] at hj
    by_cases hs : i.toNat = stopIndex n.toNat
    · rw [if_pos hs] at hj
      cases hj
    · rw [if_neg hs] at hj
      cases hj
      exact toNat_succ hn (lt_of_le_of_ne hle hs)
  · have htwo : (2 : UInt32).toNat = 2 := rfl
    have hstart := two_le_stopIndex hn
    obtain ⟨j, hj, hexec, -⟩ :=
      exec_stops hn (stopIndex n.toNat - 2) (i := 2) (by rw [htwo]) (by rw [htwo]; omega)
    refine ⟨_, n.toNat.minFac, j, hexec, minFac_isLeast (by omega), fun hs => ?_, fun hs => ?_⟩
    · rw [hj, stopIndex, if_pos hs]
    · rw [hj, stopIndex, if_neg (by omega)]

/-- The root of 3 is 1, and the loop stops at 3. -/
theorem loop_safe_three :
    ∃ (k : ℕ) (j : UInt32),
      (loop 3).exec Lts.anyStep (.test 2) (List.replicate k ()) = some (.stopped j) ∧
        j.toNat = 3 := by
  obtain ⟨-, -, k, -, j, hexec, -, -, hj⟩ := loop_safe 3 (by decide)
  refine ⟨k, j, hexec, hj ?_⟩
  exact (Nat.eq_sqrt.mpr (by decide)).symm

/-! ## What isPrime answers -/

theorem stopIndex_eq_sqrt {n : ℕ} (hn : 2 ≤ n) :
    stopIndex n = Nat.sqrt n ↔ 4 ≤ n ∧ Nat.sqrt n ≤ n.minFac := by
  rw [← two_le_sqrt]
  unfold stopIndex
  split
  · next hs => rw [inf_eq_right, and_iff_right hs]
  · next hs => exact iff_of_false (sqrt_lt hn).ne' fun h => hs h.1

/-- The root is at least 2, and no divisor is below it. -/
def Accepted (n : ℕ) : Prop := 4 ≤ n ∧ Nat.sqrt n ≤ n.minFac

instance : DecidablePred Accepted := fun _ => inferInstanceAs (Decidable (_ ∧ _))

/-- The answer is that it is accepted. -/
theorem isPrime_eq (hn : 2 ≤ n.toNat) : isPrime n = some (decide (Accepted n.toNat)) := by
  have htwo : (2 : UInt32).toNat = 2 := rfl
  have hstart := two_le_stopIndex hn
  have hend := stopIndex_le hn
  obtain ⟨j, hj, -, hrun⟩ :=
    exec_stops hn (stopIndex n.toNat - 2) (i := 2) (by rw [htwo]) (by rw [htwo]; omega)
  have hfuel := hrun (n.toNat + 1 - (stopIndex n.toNat - 1))
  have henough : stopIndex n.toNat - 2 + 1 + (n.toNat + 1 - (stopIndex n.toNat - 1)) =
      n.toNat + 1 := by omega
  rw [henough] at hfuel
  unfold isPrime
  rw [hfuel]
  have hiff : j = sqroot n ↔ Accepted n.toNat := by
    rw [← UInt32.toNat_inj, toNat_sqroot, hj, stopIndex_eq_sqrt hn, Accepted]
  simp only [Option.some_inj, ← hiff]
  exact beq_eq_decide _ _

/-- 4, whose least divisor is its root, passes for a prime. -/
theorem four_accepted : isPrime 4 = some true ∧ ¬ Nat.Prime (4 : UInt32).toNat := by
  have hfour : (4 : UInt32).toNat = 4 := rfl
  have htwo : Nat.sqrt 4 = 2 := (Nat.eq_sqrt.mpr (by decide)).symm
  have hacc : Accepted 4 :=
    ⟨le_rfl, htwo.trans_le (Nat.minFac_prime (by decide)).two_le⟩
  rw [isPrime_eq (by decide), hfour, decide_eq_true hacc]
  exact ⟨rfl, by decide⟩

/-- A prime is accepted from 4 on, and other than a prime just the numbers whose least divisor
    is their root. -/
theorem accepted_iff {n : ℕ} (h4 : 4 ≤ n) : Accepted n ↔ n.Prime ∨ n.minFac = Nat.sqrt n := by
  rw [Accepted, and_iff_right h4]
  by_cases hp : n.Prime
  · rw [hp.minFac_eq]
    exact iff_of_true (sqrt_lt (by omega)).le (.inl hp)
  · have hle : n.minFac ≤ Nat.sqrt n := by
      rw [Nat.le_sqrt, ← sq]
      exact Nat.minFac_sq_le_self (by omega) hp
    rw [or_iff_right hp]
    exact ⟨le_antisymm hle, fun h => h.ge⟩

/-- A number whose least divisor is its root is not prime. -/
theorem not_prime_of_root {n : ℕ} (h4 : 4 ≤ n) (hm : n.minFac = Nat.sqrt n) : ¬ n.Prime := by
  intro hp
  rw [hp.minFac_eq] at hm
  exact (sqrt_lt (by omega : 2 ≤ n)).ne' hm

theorem prime_of_lt_four {n : ℕ} (hn : 2 ≤ n) (h4 : n < 4) : n.Prime := by
  have hcases : n = 2 ∨ n = 3 := by omega
  rcases hcases with rfl | rfl
  · exact Nat.prime_two
  · exact Nat.prime_three

/-- The numbers for which the answer is right. -/
theorem answer_iff {n : ℕ} (hn : 2 ≤ n) :
    (Accepted n ↔ n.Prime) ↔ 4 ≤ n ∧ n.minFac ≠ Nat.sqrt n := by
  by_cases h4 : 4 ≤ n
  · rw [accepted_iff h4, and_iff_right h4]
    constructor
    · intro h hm
      exact not_prime_of_root h4 hm (h.mp (.inr hm))
    · intro hm
      exact or_iff_left hm
  · refine iff_of_false (fun h => ?_) fun h => h4 h.1
    exact h4 (h.mpr (prime_of_lt_four hn (not_le.mp h4))).1

/-! ## operator() -/

/-- The counter, and how many draws have been taken. -/
structure St where
  counter : UInt32
  drawn : ℕ

/-- The sums of two draws, for `k` turns of the loop of operator(). -/
def sums (ri : ℕ → UInt32) : ℕ → ℕ → List UInt32
  | 0, _ => []
  | k + 1, drawn => (ri drawn + ri (drawn + 1)) :: sums ri k (drawn + 2)

/-- `if (isPrime(ri()+ri())) ++counter;` -/
def turn (ri : ℕ → UInt32) (b : St) : Option St :=
  (isPrime (ri b.drawn + ri (b.drawn + 1))).map fun p =>
    { counter := if p then b.counter + 1 else b.counter, drawn := b.drawn + 2 }

def turns (ri : ℕ → UInt32) : ℕ → St → Option St
  | 0, b => some b
  | k + 1, b => (turn ri b).bind (turns ri k)

/-- `operator()`: what it returns, and the state after it. -/
def call (ri : ℕ → UInt32) (b : St) : Option (UInt32 × St) :=
  (turns ri 10000 b).map fun b' => (b'.counter, b')

/-- A prime that is not accepted. -/
def Missed (n : ℕ) : Prop := n < 4

/-- An accepted number that is not prime. -/
def Mistaken (n : ℕ) : Prop := 4 ≤ n ∧ n.minFac = Nat.sqrt n

instance : DecidablePred Missed := fun _ => inferInstanceAs (Decidable (_ < _))

instance : DecidablePred Mistaken := fun _ => inferInstanceAs (Decidable (_ ∧ _))

/-- How many of the sums have `p`. -/
def tally (p : ℕ → Prop) [DecidablePred p] (l : List UInt32) : ℕ := l.countP fun x => p x.toNat

section Tally

variable {p : ℕ → Prop} [DecidablePred p] {x : UInt32} {l : List UInt32}

theorem tally_cons : tally p (x :: l) = tally p l + if p x.toNat then 1 else 0 := by
  simp only [tally, List.countP_cons, decide_eq_true_eq]

theorem tally_le (l : List UInt32) : tally p l ≤ l.length := List.countP_le_length

end Tally

/-- What is accepted beside the primes, and what is missing from them. -/
theorem tally_accepted {l : List UInt32} (hl : ∀ x ∈ l, 2 ≤ x.toNat) :
    tally Accepted l + tally Missed l = tally Nat.Prime l + tally Mistaken l := by
  induction l with
  | nil => rfl
  | cons x l ih =>
      obtain ⟨hx, hl⟩ := List.forall_mem_cons.mp hl
      specialize ih hl
      simp only [tally_cons]
      by_cases h4 : 4 ≤ x.toNat
      · have hmiss : ¬ Missed x.toNat := not_lt.mpr h4
        by_cases hm : x.toNat.minFac = Nat.sqrt x.toNat
        · have hacc : Accepted x.toNat := (accepted_iff h4).mpr (.inr hm)
          have hmist : Mistaken x.toNat := ⟨h4, hm⟩
          rw [if_pos hacc, if_neg hmiss, if_neg (not_prime_of_root h4 hm), if_pos hmist]
          omega
        · have hmist : ¬ Mistaken x.toNat := fun h => hm h.2
          have hacc : Accepted x.toNat ↔ x.toNat.Prime := (accepted_iff h4).trans (or_iff_left hm)
          simp only [hacc, if_neg hmiss, if_neg hmist]
          omega
      · have hmiss : Missed x.toNat := not_le.mp h4
        have hacc : ¬ Accepted x.toNat := fun h => h4 h.1
        have hmist : ¬ Mistaken x.toNat := fun h => h4 h.1
        rw [if_neg hacc, if_pos hmiss, if_pos (prime_of_lt_four hx hmiss), if_neg hmist]
        omega

variable {ri : ℕ → UInt32}

theorem length_sums (ri : ℕ → UInt32) (k d : ℕ) : (sums ri k d).length = k := by
  induction k generalizing d with
  | zero => rfl
  | succ k ih => rw [sums, List.length_cons, ih]

/-- Two draws sum to at least 2, without wrapping around. -/
theorem two_le_sums (hri : ∀ i, 1 ≤ (ri i).toNat ∧ (ri i).toNat ≤ 999999) (k d : ℕ) :
    ∀ x ∈ sums ri k d, 2 ≤ x.toNat := by
  induction k generalizing d with
  | zero => exact fun x hx => absurd hx List.not_mem_nil
  | succ k ih =>
      rw [sums]
      refine List.forall_mem_cons.mpr ⟨?_, ih (d + 2)⟩
      have h1 := hri d
      have h2 := hri (d + 1)
      rw [UInt32.toNat_add, Nat.mod_eq_of_lt (by omega)]
      omega

/-- The turns add what is accepted. -/
theorem turns_eq (k : ℕ) (b : St) (hs : ∀ x ∈ sums ri k b.drawn, 2 ≤ x.toNat) :
    turns ri k b = some
      { counter := b.counter + UInt32.ofNat (tally Accepted (sums ri k b.drawn))
        drawn := b.drawn + 2 * k } := by
  induction k generalizing b with
  | zero => simp [turns, sums, tally]
  | succ k ih =>
      obtain ⟨hx, hl⟩ := List.forall_mem_cons.mp hs
      simp only [turns, turn, isPrime_eq hx, Option.map_some, Option.bind_some]
      rw [ih _ hl]
      simp only [sums, tally_cons, UInt32.ofNat_add, decide_eq_true_eq]
      congr 2
      · split
        · rw [UInt32.add_assoc, UInt32.add_comm 1]
          rfl
        · simp
      · omega

/-- **Where isPrime is right.** For every `n` from 2 on, isPrime returns, and its answer is
    whether `n` is prime exactly if `n` is at least 4 and its least divisor is not its root.
    operator() returns, and adds the number of prime sums it drew exactly if as many of them
    are below 4 as have their root for least divisor. -/
theorem isPrime_exact (n : UInt32) (ri : ℕ → UInt32) (b : St) :
    (2 ≤ n.toNat →
      (isPrime n = some (decide n.toNat.Prime) ↔
        4 ≤ n.toNat ∧ n.toNat.minFac ≠ Nat.sqrt n.toNat)) ∧
    ((∀ i, 1 ≤ (ri i).toNat ∧ (ri i).toNat ≤ 999999) →
      ∃ b', call ri b = some (b'.counter, b') ∧
        (b'.counter = b.counter + UInt32.ofNat (tally Nat.Prime (sums ri 10000 b.drawn)) ↔
          tally Missed (sums ri 10000 b.drawn) = tally Mistaken (sums ri 10000 b.drawn))) := by
  refine ⟨fun hn => ?_, fun hri => ?_⟩
  · rw [isPrime_eq hn, Option.some_inj, decide_eq_decide]
    exact answer_iff hn
  · have hs := two_le_sums hri 10000 b.drawn
    refine ⟨_, by rw [call, turns_eq 10000 b hs]; rfl, ?_⟩
    have hacc := tally_accepted hs
    have hlen := length_sums ri 10000 b.drawn
    have hle := (tally_le (p := Accepted) (sums ri 10000 b.drawn)).trans_eq hlen
    have hle' := (tally_le (p := Nat.Prime) (sums ri 10000 b.drawn)).trans_eq hlen
    rw [UInt32.add_right_inj, ← UInt32.toNat_inj, UInt32.toNat_ofNat', UInt32.toNat_ofNat',
      Nat.mod_eq_of_lt (by omega), Nat.mod_eq_of_lt (by omega)]
    omega

end CppConcurrency.Busy
