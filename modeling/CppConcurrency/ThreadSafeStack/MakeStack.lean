/-
  makeStack of ThreadSafeStack_use.cpp.

      operands_stack stack;
      for (unsigned i = 0; i!=n; ++i)
        stack.push({ri(), ri()});
      return stack;

  The members are those of the class, where no step fails (memory suffices, and copying a
  pair of unsigned does not throw). `unsigned` is `UInt32` and `size_t` is `UInt64`: the
  counter is converted for the comparison. The two draws are made in the order they are
  written. The return copies `stack` into the caller's object and destroys it. The loop has
  fuel, and the result says whether it has been left.

  Proved (`makeStack_exact`): the returned stack holds the first `2 * n` draws, two by two in
  draw order, and popping it yields them in reverse, exactly if `n` is below `2 ^ 32`. From
  there on the counter wraps around before it reaches `n`, and the loop is never left.
-/
import CppConcurrency.ThreadSafeStack.Exceptions
import CppConcurrency.ThreadSafeStack.Work
import Mathlib.Algebra.Ring.Nat

namespace CppConcurrency.ThreadSafeStack

open Concur LockedHeap

/-- The local `stack`, and the object of the caller that the result is returned in. -/
inductive Obj where
  | stack
  | result
  deriving DecidableEq, Repr

/-- Nothing fails. -/
abbrev Sure (α : Type) := Member Obj Operands Empty α

/-- The loop at `i`, after `drawn` draws. -/
def fill (ri : ℕ → UInt32) (n : UInt64) : ℕ → UInt32 → ℕ → Sure Bool
  | 0, _, _ => pure false
  | fuel + 1, i, drawn =>
      if i.toUInt64 = n then pure true
      else do
        push .stack (ri drawn, ri (drawn + 1))
        fill ri n fuel (i + 1) (drawn + 2)

/-- `operands_stack makeStack(RandomInt ri, size_t n)` -/
def makeStack (ri : ℕ → UInt32) (n : UInt64) (fuel : ℕ) : Sure Bool := do
  construct .stack
  let left ← fill ri n fuel 0 0
  if left then
    copyConstruct .result .stack
    destroy .stack
  pure left

/-- `k` calls of pop(T&) on the caller's object, and what they yield. -/
def popAll : ℕ → Sure (List Operands)
  | 0 => pure []
  | k + 1 => do
      let v ← popRef .result
      let l ← popAll k
      pure (v :: l)

/-- The first `2 * k` draws, two by two. -/
def pairs (ri : ℕ → UInt32) (k : ℕ) : List Operands :=
  (List.range k).map fun j => (ri (2 * j), ri (2 * j + 1))

/-! ## Members that cannot fail -/

variable {c : Obj → Option (Cell (List Operands))} {d : List Operands} {α : Type}

theorem never_of_fails {P : LockedHeap Obj (List Operands) Empty → Prop} {p : Sure α}
    {Q : α → LockedHeap Obj (List Operands) Empty → Prop} (h : Prog.Triple P p Q (Fails c)) :
    Prog.Triple P p Q Res.never := by
  refine h.exc fun x _ hx => ?_
  cases x with
  | emptyStack => exact hx.1 rfl
  | failed e => exact e.elim

/-- A pop of a stack that is not empty. -/
theorem popRef_some {v : Operands} (hq : c .result = some ⟨d ++ [v], false⟩) :
    Prog.Triple (At c) (popRef .result : Sure Operands)
      (fun w s => w = v ∧ At (Function.update c .result (some ⟨d, false⟩)) s) Res.never := by
  refine (popRef_spec hq).conseq (fun _ h => h) ?_ fun x _ hx => ?_
  · rintro w s ⟨d', he, hs⟩
    obtain ⟨rfl, hv⟩ := List.append_inj' he rfl
    cases hv
    exact ⟨rfl, hs⟩
  · cases x with
    | emptyStack => exact absurd (hx.1.mp rfl) (by simp)
    | failed e => exact e.elim

theorem popAll_spec (d : List Operands) (hq : c .result = some ⟨d, false⟩) :
    Prog.Triple (At c) (popAll d.length)
      (fun l s => l = d.reverse ∧ At (Function.update c .result (some ⟨[], false⟩)) s)
      Res.never := by
  induction d using List.reverseRecOn generalizing c with
  | nil =>
      refine Prog.Triple.ret fun s hs => ⟨rfl, ?_⟩
      rwa [← hq, Function.update_eq_self]
  | append_singleton d v ih =>
      rw [List.length_append, List.length_singleton, List.reverse_append]
      refine Prog.Triple.seq (popRef_some hq) fun w => ?_
      rintro s ⟨rfl, hs⟩
      refine Prog.Triple.seq (ih (Function.update_self ..)) (fun l => ?_) s hs
      refine Prog.Triple.ret ?_
      rintro u ⟨rfl, hu⟩
      rw [Function.update_idem] at hu
      exact ⟨rfl, hu⟩

/-! ## The loop -/

variable (ri : ℕ → UInt32) {n : UInt64} {i : UInt32}

theorem pairs_succ (k : ℕ) : pairs ri (k + 1) = pairs ri k ++ [(ri (2 * k), ri (2 * k + 1))] := by
  rw [pairs, List.range_succ, List.map_append]
  rfl

theorem eq_iff_toNat : i.toUInt64 = n ↔ i.toNat = n.toNat := by
  rw [← UInt64.toNat_inj, UInt32.toNat_toUInt64]

theorem fill_succ (fuel drawn : ℕ) (hi : i.toNat ≠ n.toNat) :
    fill ri n (fuel + 1) i drawn =
      Prog.seq (push .stack (ri drawn, ri (drawn + 1))) fun _ =>
        fill ri n fuel (i + 1) (drawn + 2) := by
  rw [fill, if_neg (mt eq_iff_toNat.mp hi)]
  rfl

/-- At `i` the stack holds the first `i` pairs; the loop is left where it holds the first `n`,
    if there is fuel to get there. -/
theorem fill_spec (hn : n.toNat < 2 ^ 32) (fuel : ℕ) (hle : i.toNat ≤ n.toNat)
    (hq : c .stack = some ⟨pairs ri i.toNat, false⟩) :
    Prog.Triple (At c) (fill ri n fuel i (2 * i.toNat))
      (fun left s => (left = true ↔ n.toNat < i.toNat + fuel) ∧
        (left = true → At (Function.update c .stack (some ⟨pairs ri n.toNat, false⟩)) s))
      Res.never := by
  induction fuel generalizing i c with
  | zero => exact Prog.Triple.ret fun s _ => ⟨iff_of_false nofun (by omega), nofun⟩
  | succ fuel ih =>
      by_cases hi : i.toNat = n.toNat
      · rw [fill, if_pos (eq_iff_toNat.mpr hi)]
        refine Prog.Triple.ret fun s hs => ⟨iff_of_true rfl (by omega), fun _ => ?_⟩
        rwa [← hi, ← hq, Function.update_eq_self]
      · have hone : (1 : UInt32).toNat = 1 := rfl
        have hsucc : (i + 1).toNat = i.toNat + 1 := by
          rw [UInt32.toNat_add, hone]
          exact Nat.mod_eq_of_lt (by omega)
        rw [fill_succ _ _ _ hi]
        refine Prog.Triple.seq (never_of_fails (push_spec hq _)) fun _ => ?_
        have hnext := ih (i := i + 1) (by omega)
          (c := Function.update c .stack (some ⟨pairs ri (i + 1).toNat, false⟩))
          (Function.update_self ..)
        rw [hsucc, pairs_succ, Function.update_idem, Nat.mul_succ] at hnext
        refine hnext.post fun left s hs => ⟨hs.1.trans ?_, hs.2⟩
        omega

/-- A counter that wraps around before `n` does not reach it. -/
theorem fill_diverges (hn : 2 ^ 32 ≤ n.toNat) (fuel drawn : ℕ)
    (hq : c .stack = some ⟨d, false⟩) :
    Prog.Triple (At c) (fill ri n fuel i drawn) (fun left _ => left = false) Res.never := by
  induction fuel generalizing i drawn c d with
  | zero => exact Prog.Triple.ret fun _ _ => rfl
  | succ fuel ih =>
      have hlt := i.toNat_lt
      rw [fill_succ _ _ _ (by omega)]
      refine Prog.Triple.seq (never_of_fails (push_spec hq _)) fun _ => ?_
      exact ih _ (Function.update_self ..)

/-! ## makeStack -/

/-- The caller has no object yet. -/
def noObj : Obj → Option (Cell (List Operands)) := fun _ => none

/-- The object that is returned, alone. -/
def returnedObj (d : List Operands) : Obj → Option (Cell (List Operands)) :=
  Function.update noObj .result (some ⟨d, false⟩)

theorem fill_from_zero (fuel : ℕ) :
    Prog.Triple (At (Function.update noObj .stack (some ⟨[], false⟩))) (fill ri n fuel 0 0)
      (fun left s => (left = true ↔ n.toNat < 2 ^ 32 ∧ n.toNat < fuel) ∧
        (left = true → At (Function.update noObj .stack (some ⟨pairs ri n.toNat, false⟩)) s))
      Res.never := by
  have hzero : (0 : UInt32).toNat = 0 := rfl
  by_cases hn : n.toNat < 2 ^ 32
  · have h := fill_spec ri hn fuel (i := 0) (by rw [hzero]; omega)
      (c := Function.update noObj .stack (some ⟨[], false⟩)) (Function.update_self ..)
    refine h.post fun left s hs => ⟨hs.1.trans ?_, fun hl => ?_⟩
    · rw [hzero]
      omega
    · have hat := hs.2 hl
      rwa [Function.update_idem] at hat
  · refine (fill_diverges ri (not_lt.mp hn) fuel 0 (Function.update_self ..)).post ?_
    rintro left s rfl
    exact ⟨iff_of_false nofun fun h => hn h.1, nofun⟩

/-- makeStack returns if `n` is below `2 ^ 32` and there is fuel, and then with the pairs. -/
theorem makeStack_spec (fuel : ℕ) :
    Prog.Triple (At noObj) (makeStack ri n fuel)
      (fun left s => (left = true ↔ n.toNat < 2 ^ 32 ∧ n.toNat < fuel) ∧
        (left = true → At (returnedObj (pairs ri n.toNat)) s)) Res.never := by
  unfold makeStack
  refine Prog.Triple.seq (never_of_fails (construct_spec Obj.stack)) fun _ => ?_
  refine Prog.Triple.seq (fill_from_zero ri fuel) fun left => ?_
  rintro s ⟨hiff, hat⟩
  cases left with
  | false => exact ⟨hiff, nofun⟩
  | true =>
      let c := Function.update noObj Obj.stack (some ⟨pairs ri n.toNat, false⟩)
      have hstack : c .stack = some ⟨pairs ri n.toNat, false⟩ := Function.update_self ..
      refine Prog.Triple.seq (P := At c)
        (Q := fun _ => At (Function.update c .result (some ⟨pairs ri n.toNat, false⟩)))
        (never_of_fails (copyConstruct_spec hstack .result)) (fun _ => ?_) s (hat rfl)
      have hdestroyed : Function.update
          (Function.update c .result (some ⟨pairs ri n.toNat, false⟩)) .stack none =
            returnedObj (pairs ri n.toNat) := by
        funext q
        cases q <;> rfl
      refine Prog.Triple.seq (destroy_spec (q := Obj.stack) (d := pairs ri n.toNat) rfl) fun _ => ?_
      rw [hdestroyed]
      exact Prog.Triple.ret fun u hu => ⟨hiff, fun _ => hu⟩

theorem at_start (plan : List (Option Empty)) : At noObj (start (fun _ => none) plan) := rfl

/-- What makeStack has returned, if it has. -/
theorem makeStack_data {ri : ℕ → UInt32} {fuel : ℕ} {plan : List (Option Empty)}
    {s : LockedHeap Obj (List Operands) Empty}
    (h : makeStack ri n fuel (start (fun _ => none) plan) = .ok true s) :
    s.data .result = some (pairs ri n.toNat) := by
  have hspec := makeStack_spec ri (n := n) fuel _ (at_start plan)
  rw [h] at hspec
  rw [LockedHeap.data, show s.cell = _ from hspec.2 rfl]
  rfl

/-- **makeStack builds what it is asked for below `2 ^ 32`.** For every `n` and every stream of
    draws: makeStack returns, the returned stack holds the first `2 * n` draws two by two in
    draw order, and `n` pops yield them in reverse order and leave it empty, if and only if
    `n` is below `2 ^ 32`. -/
theorem makeStack_exact (ri : ℕ → UInt32) (n : UInt64) (plan : List (Option Empty)) :
    (∃ fuel s, makeStack ri n fuel (start (fun _ => none) plan) = .ok true s ∧
      s.data .result = some (pairs ri n.toNat) ∧
      ∃ s', popAll n.toNat s = .ok (pairs ri n.toNat).reverse s' ∧
        s'.data .result = some []) ↔ n.toNat < 2 ^ 32 := by
  constructor
  · rintro ⟨fuel, s, hmake, -⟩
    have h := makeStack_spec ri (n := n) fuel _ (at_start plan)
    rw [hmake] at h
    exact (h.1.mp rfl).1
  · intro hn
    obtain ⟨left, s, hmake, hiff, hat⟩ :=
      (makeStack_spec ri (n := n) (n.toNat + 1)).returns (at_start plan)
    have hleft := hiff.mpr ⟨hn, Nat.lt_succ_self _⟩
    subst hleft
    have hcell : s.cell .result = some ⟨pairs ri n.toNat, false⟩ := by
      rw [show s.cell = _ from hat rfl]
      rfl
    have hlen : (pairs ri n.toNat).length = n.toNat := by simp [pairs]
    obtain ⟨l, s', hpop, rfl, hat'⟩ := (popAll_spec (pairs ri n.toNat) hcell).returns rfl
    rw [hlen] at hpop
    refine ⟨_, s, hmake, makeStack_data hmake, s', hpop, data_of_cell (b := false) ?_⟩
    rw [show s'.cell = _ from hat', Function.update_self]

/-- The counter never reaches `2 ^ 32`. -/
theorem loops_forever :
    ¬ ∃ fuel s, makeStack (fun _ => 0) 4294967296 fuel (start (fun _ => none) []) =
      .ok true s := by
  rintro ⟨fuel, s, hmake⟩
  have h := makeStack_spec (fun _ => 0) (n := 4294967296) fuel _ (at_start [])
  rw [hmake] at h
  exact absurd (h.1.mp rfl).1 (by decide)

end CppConcurrency.ThreadSafeStack
