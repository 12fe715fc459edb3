/-
  The phases of process_data().

  Every thread arrives at the barrier twice a round, and no thread is ever more than one
  arrival ahead of another (`Turns.gathers`, from the barrier library). So the parity of the
  barrier's phase tells the two halves of a round apart (`Turns.between_iff`): in the odd
  phases all threads are between the two barriers of a round, those that the first one has
  just released included, and in the even phases none is. A thread that has left the loop
  stays outside, and the phase stays even.
-/
import CppConcurrency.LatchBarrier.ProcessData

namespace CppConcurrency.ProcessData

open Concur

variable {n : ℕ} {Block Chunk Res : Type*}

/-- The thread is held in phase `p`. -/
def Thread.waits (p : ℕ) (x : Thread Block Res) : Bool :=
  match x.pc with
  | .wait1 p' => p' = p
  | .wait2 p' => p' = p
  | _ => false

/-- The arrivals that a thread still has to make in its round. -/
def Pc.ahead : Pc Block Res → ℕ
  | .fetch => 2
  | .split _ => 2
  | .arrive1 => 2
  | .wait1 _ => 1
  | .read => 1
  | .set _ => 1
  | .arrive2 => 1
  | _ => 0

/-- The thread is inside a round. -/
def Pc.inRound : Pc Block Res → Bool
  | .test => false
  | .left => false
  | _ => true

/-- The thread fetches or splits a block, or writes to the sink. -/
def Pc.serial : Pc Block Res → Bool
  | .fetch => true
  | .split _ => true
  | .write => true
  | _ => false

/-- The thread reads its chunk or sets its slot of result. -/
def Pc.parallel : Pc Block Res → Bool
  | .read => true
  | .set _ => true
  | _ => false

/-- Where a thread waits that arrives in phase `p`. -/
def Pc.arriving (p : ℕ) : Pc Block Res → Option (Pc Block Res)
  | .arrive1 => some (.wait1 p)
  | .arrive2 => some (.wait2 p)
  | _ => none

/-- The thread is between the two barriers of a round: the first has released it, and the
    second has not. -/
def Thread.between (p : ℕ) (x : Thread Block Res) : Bool :=
  match x.pc with
  | .wait1 p' => p' ≠ p
  | .read => true
  | .set _ => true
  | .arrive2 => true
  | .wait2 p' => p' = p
  | _ => false

/-- How often a thread has arrived. -/
def Thread.made (x : Thread Block Res) : ℕ := 2 * x.rounds - x.pc.ahead

/-- The threads keep step with the barrier, and only thread 0 does the serial parts. -/
structure Turns (s : St n Block Chunk Res) : Prop where
  gathers : Gathers Thread.waits Thread.made s.th s.sync
  begun : ∀ i, (s.th i).pc.inRound = true → 0 < (s.th i).rounds
  serial : ∀ i, (s.th i).pc.serial = true → (i : ℕ) = 0

section Turns

variable {E : Env n Block Chunk Res} {s s' : St n Block Chunk Res} {i : Fin n}

/-! ### One thread -/

theorem Pc.arriving_cases {p : ℕ} {c c' : Pc Block Res} (h : c.arriving p = some c') :
    c = .arrive1 ∧ c' = .wait1 p ∨ c = .arrive2 ∧ c' = .wait2 p := by
  cases c with
  | arrive1 => exact .inl ⟨rfl, (Option.some.inj h).symm⟩
  | arrive2 => exact .inr ⟨rfl, (Option.some.inj h).symm⟩
  | _ => cases h

theorem Pc.inRound_of_arriving {p : ℕ} {c c' : Pc Block Res} (h : c.arriving p = some c') :
    c.inRound = true := by
  obtain ⟨rfl, -⟩ | ⟨rfl, -⟩ := Pc.arriving_cases h <;> rfl

theorem Thread.free_of_arriving {p : ℕ} {x : Thread Block Res} {c : Pc Block Res}
    (h : x.pc.arriving p = some c) : x.waits p = false := by
  unfold Thread.waits
  obtain ⟨hx, -⟩ | ⟨hx, -⟩ := Pc.arriving_cases h <;> rw [hx]

theorem Thread.held_of_arriving {p r : ℕ} {c c' : Pc Block Res} (h : c.arriving p = some c') :
    Thread.waits p ⟨c', r⟩ = true := by
  obtain ⟨-, rfl⟩ | ⟨-, rfl⟩ := Pc.arriving_cases h <;> exact decide_eq_true rfl

theorem Thread.made_of_arriving {p : ℕ} {x : Thread Block Res} {c : Pc Block Res}
    (h : x.pc.arriving p = some c) (hr : 0 < x.rounds) :
    Thread.made ⟨c, x.rounds⟩ = x.made + 1 := by
  unfold Thread.made
  obtain ⟨hx, rfl⟩ | ⟨hx, rfl⟩ := Pc.arriving_cases h
  · rw [hx]
    simp only [Pc.ahead]
    omega
  · rw [hx]
    simp only [Pc.ahead]
    omega

/-- The parity of the phase tells where a thread is that keeps step with the barrier. -/
theorem Thread.between_iff {p : ℕ} {x : Thread Block Res}
    (hb : x.pc.inRound = true → 0 < x.rounds) (hm : x.made = p + (x.waits p).toNat) :
    x.between p = true ↔ p % 2 = 1 := by
  obtain ⟨pc, r⟩ := x
  unfold Thread.made Thread.waits at hm
  cases pc with
  | test | write | left | fetch | split b | arrive1 =>
      simp only [Pc.ahead, Bool.toNat_false] at hm
      simp only [Thread.between, Bool.false_eq_true, false_iff]
      omega
  | read | set x | arrive2 =>
      have hr : 0 < r := hb rfl
      simp only [Pc.ahead, Bool.toNat_false] at hm
      simp only [Thread.between, true_iff]
      omega
  | wait1 q | wait2 q =>
      have hr : 0 < r := hb rfl
      by_cases hq : q = p
      · simp only [Pc.ahead, hq, decide_true, Bool.toNat_true] at hm
        simp only [Thread.between, hq, ne_eq, not_true_eq_false, decide_false, decide_true,
          Bool.false_eq_true, false_iff, true_iff]
        omega
      · simp only [Pc.ahead, hq, decide_false, Bool.toNat_false] at hm
        simp only [Thread.between, hq, ne_eq, not_false_eq_true, decide_false, decide_true,
          Bool.false_eq_true, false_iff, true_iff]
        omega

theorem Thread.not_between_of_serial {p : ℕ} {x : Thread Block Res}
    (h : x.pc.serial = true) : x.between p = false := by
  obtain ⟨pc, r⟩ := x
  cases pc with
  | fetch | split | write => rfl
  | _ => cases h

theorem Thread.between_of_parallel {p : ℕ} {x : Thread Block Res}
    (h : x.pc.parallel = true) : x.between p = true := by
  obtain ⟨pc, r⟩ := x
  cases pc with
  | read | set => rfl
  | _ => cases h

/-! ### All threads -/

/-- A thread waits for one phase only. -/
theorem waits_one (p p' : ℕ) (x : Thread Block Res) (h : x.waits p = true)
    (h' : x.waits p' = true) : p = p' := by
  obtain ⟨pc, r⟩ := x
  cases pc with
  | wait1 q | wait2 q =>
      have hq : q = p := of_decide_eq_true h
      have hq' : q = p' := of_decide_eq_true h'
      omega
  | _ => cases h

/-- What Turns asks of one thread's place: the two fields about single threads. -/
theorem turns_update (h : Turns s) {x : Thread Block Res} {s' : St n Block Chunk Res}
    (hth : s'.th = Function.update s.th i x)
    (hg : Gathers Thread.waits Thread.made s'.th s'.sync)
    (hb : x.pc.inRound = true → 0 < x.rounds) (hs : x.pc.serial = true → (i : ℕ) = 0) :
    Turns s' := by
  refine ⟨hg, ?_, ?_⟩
  · rw [hth]
    exact (Function.forall_update_iff s.th fun _ x => x.pc.inRound = true → 0 < x.rounds).mpr
      ⟨hb, fun j _ => h.begun j⟩
  · rw [hth]
    exact (Function.forall_update_iff s.th fun j x => x.pc.serial = true → (j : ℕ) = 0).mpr
      ⟨hs, fun j _ => h.serial j⟩

/-- A thread that is not held moves, and the barrier does not. -/
theorem turns_stay (h : Turns s) {x : Thread Block Res} {s' : St n Block Chunk Res}
    (hth : s'.th = Function.update s.th i x) (hsync : s'.sync = s.sync)
    (ht : (s.th i).waits s.sync.phase = false) (hx : x.waits s.sync.phase = false)
    (hm : x.made = (s.th i).made) (hb : x.pc.inRound = true → 0 < x.rounds)
    (hs : x.pc.serial = true → (i : ℕ) = 0) : Turns s' := by
  refine turns_update h hth ?_ hb hs
  rw [hth, hsync]
  exact h.gathers.stay ht hx hm

/-- A thread arrives. If the phase ends with it, everybody else is held. -/
theorem gathers_arrive (h : Turns s) {c : Pc Block Res}
    (hc : (s.th i).pc.arriving s.sync.phase = some c) :
    Gathers Thread.waits Thread.made (s.arrive i c).th (s.arrive i c).sync ∧
      ((s.arrive i c).sync.phase = s.sync.phase ∨
        (s.arrive i c).sync.phase = s.sync.phase + 1 ∧
          ∀ j, j ≠ i → (s.th j).waits s.sync.phase = true) := by
  have hfree := Thread.free_of_arriving hc
  have hheld := Thread.held_of_arriving (r := (s.th i).rounds) hc
  have hmade := Thread.made_of_arriving hc (h.begun i (Pc.inRound_of_arriving hc))
  have ha := h.gathers.arrive hfree hheld hmade waits_one
  rwa [Fintype.card_fin] at ha

theorem turns_step (h : Turns s) (hm : Moves E s i s') : Turns s' := by
  have hb := h.begun i
  have hs := h.serial i
  cases hm with
  | leave hpc =>
      refine turns_stay h rfl rfl ?_ ?_ ?_ ?_ ?_ <;>
        simp [Thread.waits, Thread.made, Pc.ahead, Pc.inRound, Pc.serial, hpc]
  | enter hpc =>
      by_cases hi : (i : ℕ) = 0
      · rw [if_pos hi]
        refine turns_stay h rfl rfl ?_ ?_ ?_ ?_ (fun _ => hi) <;>
          simp [Thread.waits, Thread.made, Pc.ahead, hpc, Nat.mul_add]
      · rw [if_neg hi]
        refine turns_stay h rfl rfl ?_ ?_ ?_ ?_ ?_ <;>
          simp [Thread.waits, Thread.made, Pc.ahead, Pc.serial, hpc, Nat.mul_add]
  | fetch hpc | split hpc | read hpc | set hpc =>
      rw [hpc] at hb hs
      refine turns_stay h rfl rfl ?_ ?_ ?_ (fun _ => hb rfl) ?_ <;>
        simp_all [Thread.waits, Thread.made, Pc.ahead, Pc.serial]
  | arrive1 hpc | arrive2 hpc =>
      rw [hpc] at hb
      exact turns_update h rfl (gathers_arrive h (by rw [hpc]; rfl)).1
        (fun _ => hb rfl) (fun hx => by cases hx)
  | pass1 hpc hp =>
      rw [hpc] at hb
      refine turns_stay h rfl rfl ?_ ?_ ?_ (fun _ => hb rfl) ?_ <;>
        simp [Thread.waits, Thread.made, Pc.ahead, Pc.serial, hpc, Ne.symm hp]
  | pass2 hpc hp =>
      rw [hpc] at hb
      by_cases hi : (i : ℕ) = 0
      · rw [if_pos hi]
        refine turns_stay h rfl rfl ?_ ?_ ?_ (fun _ => hb rfl) (fun _ => hi) <;>
          simp [Thread.waits, Thread.made, Pc.ahead, hpc, Ne.symm hp]
      · rw [if_neg hi]
        refine turns_stay h rfl rfl ?_ ?_ ?_ ?_ ?_ <;>
          simp [Thread.waits, Thread.made, Pc.ahead, Pc.inRound, Pc.serial, hpc, Ne.symm hp]
  | write hpc =>
      refine turns_stay h rfl rfl ?_ ?_ ?_ ?_ ?_ <;>
        simp [Thread.waits, Thread.made, Pc.ahead, Pc.inRound, Pc.serial, hpc]

theorem turns_start (blocks : List Block) : Turns (start blocks : St n Block Chunk Res) := by
  refine ⟨⟨?_, fun i => ?_, fun i => rfl⟩, fun i hi => ?_, fun i hi => ?_⟩
  · exact (countAt_eq_zero.mpr fun _ => rfl).symm
  · exact Fintype.card_pos_iff.mpr ⟨i⟩
  · cases hi
  · cases hi

theorem turns_reach {blocks : List Block} (h : (workers E blocks).Reachable s) :
    Turns s := by
  refine h.invariant ?_ ?_
  · intro s hs
    rw [hs]
    exact turns_start blocks
  · intro s i s' _ ih _ hstep
    exact turns_step ih (moves_of_step hstep)

/-- The threads are between the barriers in the odd phases: all of them or none. -/
theorem Turns.between_iff (h : Turns s) (i : Fin n) :
    (s.th i).between s.sync.phase = true ↔ s.sync.phase % 2 = 1 :=
  Thread.between_iff (h.begun i) (h.gathers.made i)

theorem Turns.odd (h : Turns s) (hb : (s.th i).between s.sync.phase = true) :
    s.sync.phase % 2 = 1 := (h.between_iff i).mp hb

theorem Turns.even (h : Turns s) (hb : (s.th i).between s.sync.phase = false) :
    s.sync.phase % 2 = 0 := by
  have hne : ¬ s.sync.phase % 2 = 1 := by
    rw [← h.between_iff i, hb]
    exact Bool.false_ne_true
  omega

theorem Turns.between_of_odd (h : Turns s) (hp : s.sync.phase % 2 = 1) (i : Fin n) :
    (s.th i).between s.sync.phase = true := (h.between_iff i).mpr hp

theorem Turns.not_between_of_even (h : Turns s) (hp : s.sync.phase % 2 = 0) (i : Fin n) :
    (s.th i).between s.sync.phase = false := by
  rw [Bool.eq_false_iff]
  intro hb
  have := h.odd hb
  omega

end Turns

end CppConcurrency.ProcessData
