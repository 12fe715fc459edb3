/-
  A reusable barrier for a fixed group of threads.

  `phase` counts how often the barrier has released its group, and `arrived` the threads
  that have arrived in the phase that is going on. The last one to arrive ends the phase.
  `waits p l` says that a thread at `l` waits for phase `p` to end (it is held while the
  barrier is in phase `p`), and `made l` how many times the thread has arrived so far.

  `Gathers` is the invariant: the threads held are those counted as arrived, fewer than the
  group, and everybody has arrived once in each phase that is over, and those held once more.
  Nobody is more than one arrival ahead of anybody else, however the threads are scheduled
  and also when some of them never come back. `Gathers.stay` and `Gathers.arrive` are the
  two ways a step can touch it.
-/
import CppConcurrency.Lib.Count

namespace Concur

/-- The state of a barrier. -/
structure Barrier where
  phase : ℕ
  arrived : ℕ
  deriving DecidableEq, Repr

/-- One more of `n` threads arrives. -/
def Barrier.arrive (n : ℕ) (b : Barrier) : Barrier :=
  if b.arrived + 1 = n then ⟨b.phase + 1, 0⟩ else ⟨b.phase, b.arrived + 1⟩

variable {ι L : Type*} [Fintype ι]

/-- The barrier agrees with where the threads are. -/
structure Gathers (waits : ℕ → L → Bool) (made : L → ℕ) (loc : ι → L) (b : Barrier) : Prop where
  count : b.arrived = countAt (waits b.phase) loc
  lt : ∀ _ : ι, b.arrived < Fintype.card ι
  made : ∀ t, made (loc t) = b.phase + (waits b.phase (loc t)).toNat

namespace Gathers

variable {waits : ℕ → L → Bool} {made : L → ℕ} {loc : ι → L} {b : Barrier} {t : ι} {l : L}

/-- A thread that is not held is in step with the barrier. -/
theorem made_of_free (h : Gathers waits made loc b) (ht : waits b.phase (loc t) = false) :
    made (loc t) = b.phase := by
  have hm := h.made t
  rw [ht, Bool.toNat_false] at hm
  omega

/-- A thread that is held is one arrival ahead. -/
theorem made_of_held (h : Gathers waits made loc b) (ht : waits b.phase (loc t) = true) :
    made (loc t) = b.phase + 1 := by
  have hm := h.made t
  rw [ht, Bool.toNat_true] at hm
  exact hm

/-- Not everybody is held. -/
theorem exists_free (h : Gathers waits made loc b) (t : ι) :
    ∃ u, waits b.phase (loc u) = false := by
  by_contra hne
  have hall : ∀ u, waits b.phase (loc u) = true := by
    intro u
    cases hu : waits b.phase (loc u) with
    | true => rfl
    | false => exact absurd ⟨u, hu⟩ hne
  have hcount := h.count
  have hlt := h.lt t
  rw [countAt_of_forall hall] at hcount
  omega

variable [DecidableEq ι]

/-- A thread that is not held moves, and neither arrives nor is held afterwards. -/
theorem stay (h : Gathers waits made loc b) (ht : waits b.phase (loc t) = false)
    (hl : waits b.phase l = false) (hm : made l = made (loc t)) :
    Gathers waits made (Function.update loc t l) b := by
  have hc := countAt_update (waits b.phase) loc t l
  rw [ht, hl] at hc
  refine ⟨?_, h.lt, ?_⟩
  · have hcount := h.count
    omega
  · refine (Function.forall_update_iff loc fun _ x =>
      made x = b.phase + (waits b.phase x).toNat).mpr ⟨?_, fun u _ => h.made u⟩
    rw [hm, hl, h.made_of_free ht, Bool.toNat_false, Nat.add_zero]

/-- A thread arrives and waits for the phase that is going on. If it is the last one, all the
    others are held, and the phase is over. -/
theorem arrive (h : Gathers waits made loc b) (ht : waits b.phase (loc t) = false)
    (hl : waits b.phase l = true) (hm : made l = made (loc t) + 1)
    (hone : ∀ p p' l, waits p l = true → waits p' l = true → p = p') :
    Gathers waits made (Function.update loc t l) (b.arrive (Fintype.card ι)) ∧
      ((b.arrive (Fintype.card ι)).phase = b.phase ∨
        (b.arrive (Fintype.card ι)).phase = b.phase + 1 ∧
          ∀ u, u ≠ t → waits b.phase (loc u) = true) := by
  have hc := countAt_update (waits b.phase) loc t l
  rw [ht, hl, Bool.toNat_true, Bool.toNat_false] at hc
  have hcount := h.count
  have hmade : made l = b.phase + 1 := by rw [hm, h.made_of_free ht]
  unfold Barrier.arrive
  split
  · next hlast =>
      have hall : ∀ u, u ≠ t → waits b.phase (loc u) = true :=
        all_of_countAt_succ ht (by omega)
      have hheld : ∀ u, waits b.phase (Function.update loc t l u) = true :=
        (Function.forall_update_iff loc fun _ x => waits b.phase x = true).mpr ⟨hl, hall⟩
      have hmade' : ∀ u, made (Function.update loc t l u) = b.phase + 1 :=
        (Function.forall_update_iff loc fun _ x => made x = b.phase + 1).mpr
          ⟨hmade, fun u hu => h.made_of_held (hall u hu)⟩
      -- whoever waits for the old phase does not wait for the new one
      have hnext : ∀ u, waits (b.phase + 1) (Function.update loc t l u) = false := by
        intro u
        cases hw : waits (b.phase + 1) (Function.update loc t l u) with
        | false => rfl
        | true =>
            have := hone _ _ _ hw (hheld u)
            omega
      refine ⟨⟨?_, fun u => Fintype.card_pos_iff.mpr ⟨u⟩, fun u => ?_⟩, .inr ⟨rfl, hall⟩⟩
      · exact (countAt_eq_zero.mpr hnext).symm
      · dsimp only
        rw [hnext u, hmade' u, Bool.toNat_false]
  · next hmore =>
      refine ⟨⟨?_, fun u => ?_, ?_⟩, .inl rfl⟩
      · dsimp only
        omega
      · have hlt := h.lt u
        dsimp only
        omega
      · refine (Function.forall_update_iff loc fun _ x =>
          made x = b.phase + (waits b.phase x).toNat).mpr ⟨?_, fun u _ => h.made u⟩
        rw [hl, hmade, Bool.toNat_true]

end Gathers

end Concur
