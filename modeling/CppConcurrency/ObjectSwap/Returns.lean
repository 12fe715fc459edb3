/-
  The swaps come to their ends, as far as std::lock lets them.

  Two threads can back off from each other for ever, so a swap need not return. A failed try_lock
  is the only way back, though: it costs its thread three steps.

  Proved (`swaps_complete`), from every reachable state, if no new swaps are begun:
  * a run is no longer than what the swaps have left to do, and three steps for each try_lock that
    fails in it; and when no thread can go on all swaps have completed. So nothing but failing
    tries without end keeps a swap from returning, and there is no deadlock.
  * if, besides, a thread begins to lock only while no mutex is held, and try_lock fails only on a
    mutex that is (a scheduler can have it so), then all swaps complete.

  In the second part two threads or more may hold mutexes in the beginning, and then their tries
  may fail, once each. As soon as there is only one such thread, its try does not fail any more.
-/
import CppConcurrency.Lib.Count
import CppConcurrency.Lib.Progress
import CppConcurrency.ObjectSwap.Serial

namespace CppConcurrency.ObjectSwap

open Concur

variable {ι κ T : Type*} [DecidableEq ι] [DecidableEq κ] {rhsFirst : Bool} {data : κ → T}
  {s s' : St ι κ T} {a : Act ι κ} {t : ι}

/-- All that runs; no swap is begun. -/
def Runs (_ : St ι κ T) : Act ι κ → Prop
  | .call _ _ _ => False
  | .run _ _ | .tryFails _ => True

instance (s : St ι κ T) (a : Act ι κ) : Decidable (Runs s a) :=
  match a with
  | .call _ _ _ => .isFalse id
  | .run _ _ | .tryFails _ => .isTrue trivial

/-- The steps of a swap that are left. `fails`: the next try_lock may fail. -/
def Pc.left (fails : Bool) : Pc κ T → ℕ
  | .idle => 0
  | .test _ _ => 8
  | .lockFirst _ _ _ => 7
  | .tryOther _ _ _ => if fails then 9 else 6
  | .backOff _ _ _ => 8
  | .saveLhs _ _ => 5
  | .assignLhs _ _ _ => 4
  | .assignRhs _ _ _ => 3
  | .unlockOne _ _ => 2
  | .unlockTwo _ => 1

/-- What a failed try_lock costs. -/
def failure : Act ι κ → ℕ
  | .tryFails _ => 3
  | .call _ _ _ | .run _ _ => 0

/-- All swaps have completed: each has had its effect, in the order in which its thread began
    them, and no mutex is held. -/
structure Completed (data : κ → T) (s : St ι κ T) : Prop where
  idle : ∀ t, s.pc t = .idle
  free : ∀ x, s.owner x = none
  calls : ∀ t, logOf s.log t = s.called t
  data : s.data = replay data s.log

/-- The mutex that a thread tries to lock. -/
def Pc.tries : Pc κ T → Option κ
  | .tryOther lhs rhs first => some (otherOf lhs rhs first)
  | _ => none

/-- The thread holds a mutex. -/
def Pc.holding : Pc κ T → Bool
  | .idle | .test _ _ | .lockFirst _ _ _ => false
  | _ => true

/-- No swap is begun, nobody begins to lock while a mutex is held, and nobody fails to lock a
    mutex that is free. -/
def Courteous (s : St ι κ T) : Act ι κ → Prop
  | .call _ _ _ => False
  | .run t _ => (s.pc t).wants ≠ none → ∀ u, (s.pc u).holding = false
  | .tryFails t => ∀ m ∈ (s.pc t).tries, s.owner m ≠ none

instance [Fintype ι] (s : St ι κ T) (a : Act ι κ) : Decidable (Courteous s a) :=
  match a with
  | .call _ _ _ => .isFalse id
  | .run t _ =>
      inferInstanceAs (Decidable ((s.pc t).wants ≠ none → ∀ u, (s.pc u).holding = false))
  | .tryFails t => inferInstanceAs (Decidable (∀ m ∈ (s.pc t).tries, s.owner m ≠ none))

/-! ## One step -/

/-- What a step of `run` does to the place of its thread. -/
theorem pc_of_run {first : Bool} (h : run rhsFirst s t first = some s') :
    ∃ pc, s'.pc = Function.update s.pc t pc ∧ pc.left false < (s.pc t).left false ∧
      ((s.pc t).wants = none →
        pc.left true < (s.pc t).left true ∧ (pc.holding = true → (s.pc t).holding = true)) := by
  unfold run at h
  cases hp : s.pc t with
  | idle =>
      simp only [hp] at h
      cases h
  | test lhs rhs | lockFirst lhs rhs f | tryOther lhs rhs f =>
      simp only [hp] at h
      split at h <;> cases h <;> exact ⟨_, rfl, by simp [Pc.left, Pc.holding, Pc.wants]⟩
  | backOff | saveLhs | assignLhs | assignRhs | unlockOne | unlockTwo =>
      simp only [hp] at h
      cases h
      exact ⟨_, rfl, by simp [Pc.left, Pc.holding]⟩

theorem pc_of_tryFails (h : step rhsFirst s (.tryFails t) = some s') :
    ∃ lhs rhs f, s.pc t = .tryOther lhs rhs f ∧
      s'.pc = Function.update s.pc t (.backOff lhs rhs f) := by
  simp only [step] at h
  split at h
  · next lhs rhs f hp =>
      cases h
      exact ⟨lhs, rhs, f, hp, rfl⟩
  · cases h

theorem left_step [Fintype ι] (hg : Runs s a) (h : (sys rhsFirst data).step s a = some s') :
    sumAt (Pc.left false) s'.pc + 1 ≤ sumAt (Pc.left false) s.pc + failure a := by
  cases a with
  | call t lhs rhs => exact hg.elim
  | run t first =>
      obtain ⟨pc, hpc, hlt, -⟩ := pc_of_run h
      have hsum := sumAt_update (Pc.left false) s.pc t pc
      rw [hpc]
      simp only [failure]
      omega
  | tryFails t =>
      have hfails : step rhsFirst s (.tryFails t) = some s' := h
      obtain ⟨lhs, rhs, f, hp, hpc⟩ := pc_of_tryFails hfails
      have hsum := sumAt_update (Pc.left false) s.pc t (.backOff lhs rhs f)
      rw [hp] at hsum
      rw [hpc]
      simp only [Pc.left, failure, Bool.false_eq_true, if_false] at hsum ⊢
      omega

/-! ## Courteous steps -/

section Courteous

variable [Fintype ι]

/-- Two threads or more hold mutexes. -/
def crowded (s : St ι κ T) : Bool := 2 ≤ countAt Pc.holding s.pc

omit [DecidableEq ι] [DecidableEq κ] [Fintype ι] in
theorem left_mono {b b' : Bool} (h : b' = true → b = true) (pc : Pc κ T) :
    pc.left b' ≤ pc.left b := by
  cases b' with
  | true => rw [h rfl]
  | false =>
      cases pc with
      | tryOther => cases b <;> simp [Pc.left]
      | _ => exact le_rfl

omit [DecidableEq κ] in
theorem left_lt {pc : Pc κ T} (hpc : s'.pc = Function.update s.pc t pc)
    (hcrowd : crowded s' = true → crowded s = true)
    (hlt : pc.left (crowded s) < (s.pc t).left (crowded s)) :
    sumAt (Pc.left (crowded s')) s'.pc < sumAt (Pc.left (crowded s)) s.pc := by
  have hle : sumAt (Pc.left (crowded s')) s'.pc ≤ sumAt (Pc.left (crowded s)) s'.pc :=
    Finset.sum_le_sum fun u _ => left_mono hcrowd (s'.pc u)
  have hsum := sumAt_update (Pc.left (crowded s)) s.pc t pc
  rw [← hpc] at hsum
  omega

omit [DecidableEq ι] [DecidableEq κ] [Fintype ι] in
theorem holding_of_holds {pc : Pc κ T} {x : κ} (h : pc.holds x) : pc.holding = true := by
  cases pc <;> first | rfl | exact h.elim

/-- Whoever fails to lock a mutex that is held is not the only one to hold one. -/
theorem crowded_of_tries (hi : Inv data s) {lhs rhs : κ} {f : Bool}
    (hp : s.pc t = .tryOther lhs rhs f) (ho : s.owner (otherOf lhs rhs f) ≠ none) :
    crowded s = true := by
  obtain ⟨u, hu⟩ := Option.ne_none_iff_exists'.mp ho
  have hholds := (hi.owns _ u).mp hu
  have hut : u ≠ t := by
    rintro rfl
    have hne := hi.distinct u
    rw [hp] at hne hholds
    exact other_ne_first hne f hholds
  have hcount := countAt_update Pc.holding s.pc t .idle
  have hpos : 0 < countAt Pc.holding (Function.update s.pc t .idle) := by
    refine countAt_pos.mpr ⟨u, ?_⟩
    rw [Function.update_of_ne hut]
    exact holding_of_holds hholds
  rw [hp] at hcount
  refine decide_eq_true ?_
  simp only [Pc.holding, Bool.toNat_true, Bool.toNat_false] at hcount
  omega

/-- A courteous step leaves less to do. -/
theorem left_courteous (hi : Inv data s) (hg : Courteous s a)
    (h : (sys rhsFirst data).step s a = some s') :
    sumAt (Pc.left (crowded s')) s'.pc < sumAt (Pc.left (crowded s)) s.pc := by
  cases a with
  | call t lhs rhs => exact hg.elim
  | run t first =>
      obtain ⟨pc, hpc, hfalse, htrue⟩ := pc_of_run h
      have hcount := countAt_update Pc.holding s.pc t pc
      by_cases hw : (s.pc t).wants = none
      · obtain ⟨hlt, hkeep⟩ := htrue hw
        refine left_lt hpc (fun hc => ?_) ?_
        · have hle := of_decide_eq_true hc
          have hmono : pc.holding.toNat ≤ (s.pc t).holding.toNat := by
            cases hb : pc.holding with
            | false => exact Nat.zero_le _
            | true => rw [hkeep hb]
          rw [hpc] at hle
          exact decide_eq_true (by omega)
        · cases crowded s with
          | false => exact hfalse
          | true => exact hlt
      · -- nobody holds a mutex, and `t` is the only one to hold one then
        have hzero := countAt_eq_zero.mpr (hg hw)
        have hone := Bool.toNat_le pc.holding
        have hcrowd : ∀ {s : St ι κ T}, countAt Pc.holding s.pc ≤ 1 → crowded s = false :=
          fun hle => decide_eq_false (by omega)
        refine left_lt hpc (fun hc => ?_) ?_
        · rw [hcrowd (by rw [hpc]; omega)] at hc
          cases hc
        · rw [hcrowd (by omega)]
          exact hfalse
  | tryFails t =>
      have hfails : step rhsFirst s (.tryFails t) = some s' := h
      obtain ⟨lhs, rhs, f, hp, hpc⟩ := pc_of_tryFails hfails
      have hcrowd := crowded_of_tries hi hp (hg _ (by rw [hp]; rfl))
      refine left_lt hpc (fun _ => hcrowd) ?_
      rw [hcrowd, hp]
      simp [Pc.left]

end Courteous

/-! ## Where nobody can go on -/

/-- A thread that holds a mutex can make a courteous step. -/
theorem goes_of_holding (h : (s.pc t).holding = true) :
    ∃ a, Courteous s a ∧ (sys rhsFirst data).step s a ≠ none := by
  cases hp : s.pc t with
  | tryOther lhs rhs f =>
      by_cases ho : s.owner (otherOf lhs rhs f) = none
      · refine ⟨.run t false, fun hw => ?_, ?_⟩
        · rw [hp] at hw
          exact absurd rfl hw
        · simp only [sys, step, run, hp, if_pos ho]
          exact Option.some_ne_none _
      · refine ⟨.tryFails t, fun m hm => ?_, ?_⟩
        · rw [hp] at hm
          cases hm
          exact ho
        · simp only [sys, step, hp]
          exact Option.some_ne_none _
  | backOff | saveLhs | assignLhs | assignRhs | unlockOne | unlockTwo =>
      refine ⟨.run t false, fun hw => ?_, ?_⟩
      · rw [hp] at hw
        exact absurd rfl hw
      · simp only [sys, step, run, hp]
        exact Option.some_ne_none _
  | idle | test | lockFirst =>
      rw [hp] at h
      cases h

theorem completed_of_halted (hi : Inv data s)
    (hend : ∀ a, Courteous s a → (sys rhsFirst data).step s a = none) : Completed data s := by
  have hholding : ∀ t, (s.pc t).holding = false := by
    intro t
    by_contra ht
    obtain ⟨a, ha, hgo⟩ := goes_of_holding (Bool.not_eq_false _ ▸ ht)
    exact hgo (hend a ha)
  have hfree : ∀ x, s.owner x = none := by
    intro x
    cases ho : s.owner x with
    | none => rfl
    | some u =>
        have hu := holding_of_holds ((hi.owns x u).mp ho)
        rw [hholding u] at hu
        cases hu
  have hidle : ∀ t, s.pc t = .idle := by
    intro t
    have hrun := hend (.run t false) fun _ => hholding
    simp only [sys, step, run] at hrun
    cases hp : s.pc t with
    | idle => rfl
    | test lhs rhs =>
        simp only [hp] at hrun
        split at hrun <;> cases hrun
    | lockFirst lhs rhs f =>
        simp only [hp, if_pos (hfree _)] at hrun
        cases hrun
    | _ =>
        have ht := hholding t
        rw [hp] at ht
        cases ht
  refine ⟨hidle, hfree, fun t => ?_, funext fun x => hi.data.settled x fun t hx => ?_⟩
  · have hcalls := hi.calls t
    rw [hidle t] at hcalls
    simpa only [Pc.pending, List.append_nil] using hcalls
  · rw [hidle t] at hx
    exact hx

omit [DecidableEq ι] [DecidableEq κ] in
theorem runs_of_courteous (h : Courteous s a) : Runs s a := by
  cases a with
  | call => exact h.elim
  | run | tryFails => trivial

/-! ## Runs -/

/-- **Swaps complete, or fail to lock for ever.** From every reachable state, if no swaps are
    begun: a run has no more steps than the swaps have left, and three for each try_lock that
    fails in it; when it cannot go on, all swaps have completed. If nobody begins to lock while a
    mutex is held, and nobody fails to lock a free one, then every run is bounded and ends so. -/
theorem swaps_complete [Fintype ι] (h : (sys rhsFirst data).Reachable s) :
    (∀ as s', (sys rhsFirst data).exec Runs s as = some s' →
      as.length ≤ sumAt (Pc.left false) s.pc + (as.map failure).sum ∧
      ((∀ a, Runs s' a → (sys rhsFirst data).step s' a = none) → Completed data s')) ∧
    (sys rhsFirst data).Finishes Courteous (Completed data)
      (sumAt (Pc.left (crowded s)) s.pc) s := by
  refine ⟨fun as s' hs => ⟨?_, fun hend => ?_⟩, ?_⟩
  · have hle := Lts.exec_length_le_cost (P := fun _ => True)
      (fun s a s' _ hg hstep => ⟨trivial, left_step hg hstep⟩) trivial hs
    omega
  · have hs' := h.exec as (Lts.exec_any_of_exec hs)
    exact completed_of_halted (inv_reach hs') fun a ha => hend a (runs_of_courteous ha)
  · refine Lts.finishes_of_measure (P := (sys rhsFirst data).Reachable)
      (μ := fun s => sumAt (Pc.left (crowded s)) s.pc) (fun s a s' hs hg hstep => ?_)
      (fun s hs hend => completed_of_halted (inv_reach hs) hend) h
    exact ⟨.next hs trivial hstep, left_courteous (inv_reach hs) hg hstep⟩

/-- Two threads swap the same two objects, and each has locked the one that the other wants. -/
theorem swaps_complete_opposed :
    ∃ s : St Bool ℕ ℕ, (sys true id).exec Lts.anyStep (initial id)
        [.call false 0 1, .call true 1 0, .run false true, .run true true, .run false true,
          .run true true] = some s ∧
      (sys true id).Finishes Courteous (Completed id) 18 s := by
  have hreach : (sys (ι := Bool) true (id : ℕ → ℕ)).Reachable _ :=
    Lts.Reach.exec (G := Lts.anyStep)
      [.call false 0 1, .call true 1 0, .run false true, .run true true, .run false true,
        .run true true] (.start rfl) rfl
  exact ⟨_, rfl, (swaps_complete hreach).2⟩

end CppConcurrency.ObjectSwap
