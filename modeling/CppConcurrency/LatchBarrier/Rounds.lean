/-
  The rounds of process_data().

  Each thread evaluates `source.done()` for itself, and thread 0 goes on to take a block out
  of the source before it reaches the first barrier. So a thread that is late at the top of
  the loop sees an empty source where thread 0 has just fetched the last block. It leaves,
  and the others wait for it at the first barrier of a round that it never joins.

  `FetchSafe` is the missing synchronization: thread 0 takes the last block only when every
  other thread has evaluated done() for that round. When workers keep to it, they agree on the
  rounds (`agreed_reach`), and unless all have left one of them can go on (`safe_progress`). The
  condition is exact: any fetch against it leads to a thread that waits for one that has left
  (`deserted_of_unsafe`).
-/
import CppConcurrency.LatchBarrier.Output

namespace CppConcurrency.ProcessData

open Concur

variable {n : ℕ} {Block Chunk Res : Type*}

/-- The thread waits at a barrier of its round, or has one of them before it. -/
def Pc.bound : Pc Block Res → Bool
  | .test => false
  | .write => false
  | .left => false
  | _ => true

/-- The thread is about to take a block out of the source. -/
def Pc.fetching : Pc Block Res → Bool
  | .fetch => true
  | _ => false

/-- The thread has evaluated done() and stands before or at the first barrier. -/
def Pc.tested : Pc Block Res → Bool
  | .arrive1 => true
  | .wait1 _ => true
  | _ => false

/-- A thread has left the loop, and another one is bound for a barrier of a round that the
    first one has not joined. -/
def Deserted (s : St n Block Chunk Res) : Prop :=
  ∃ i j, (s.th i).pc = .left ∧ (s.th j).pc.bound = true ∧ (s.th i).rounds < (s.th j).rounds

/-- If `i` is about to take the last block, every other thread has evaluated done(). -/
def FetchSafe (s : St n Block Chunk Res) (i : Fin n) : Prop :=
  (s.th i).pc.fetching = true → s.source.length = 1 → ∀ j, j ≠ i → (s.th j).pc.tested = true

instance (s : St n Block Chunk Res) (i : Fin n) : Decidable (FetchSafe s i) :=
  inferInstanceAs (Decidable (_ → _ → _))

section Steps

variable {E : Env n Block Chunk Res} {blocks : List Block} {s s' : St n Block Chunk Res}
  {i j : Fin n}

/-! ### Counting rounds -/

/-- A thread that has left has arrived twice in each of its rounds. -/
theorem rounds_of_left (ht : Turns s) (hi : (s.th i).pc = .left) :
    2 * (s.th i).rounds = s.sync.phase := by
  have hm := ht.gathers.made i
  unfold Thread.made Thread.waits at hm
  rw [hi] at hm
  simpa [Pc.ahead] using hm

theorem rounds_update (c : Pc Block Res) (j : Fin n) :
    (Function.update s.th i ⟨c, (s.th i).rounds⟩ j).rounds = (s.th j).rounds := by
  by_cases hj : j = i
  · rw [hj, Function.update_self]
  · rw [Function.update_of_ne hj]

/-- On an empty source nobody begins a round, and it stays empty. -/
theorem rounds_of_empty (hm : Moves E s i s') (hsrc : s.source = []) :
    s'.source = [] ∧ ∀ j, (s'.th j).rounds = (s.th j).rounds := by
  cases hm with
  | enter hpc hne => exact absurd hsrc hne
  | fetch hpc hne =>
      rw [hsrc] at hne
      cases hne
  | _ => exact ⟨hsrc, rounds_update _⟩

/-- Thread 0 has begun a round for each block taken, and one more when it is about to take
    one. Threads leave when the source is empty. -/
structure Drawn (blocks : List Block) (s : St n Block Chunk Res) : Prop where
  count : ∀ z : Fin n, (z : ℕ) = 0 →
    (s.th z).rounds + s.source.length = blocks.length + (s.th z).pc.fetching.toNat
  empty : ∀ i, (s.th i).pc = .left → s.source = []

theorem count_step (ht : Turns s) (h : Drawn blocks s) (hm : Moves E s i s') :
    ∀ z : Fin n, (z : ℕ) = 0 →
      (s'.th z).rounds + s'.source.length = blocks.length + (s'.th z).pc.fetching.toNat := by
  intro z hz
  by_cases hi : (i : ℕ) = 0
  · have hc := h.count i hi
    have he : z = i := Fin.ext (hz.trans hi.symm)
    rw [he]
    cases hm with
    | enter hpc =>
        rw [hpc] at hc
        simp only [Pc.fetching, Bool.toNat_false] at hc
        simp only [St.enter, Function.update_self, if_pos hi, Pc.fetching, Bool.toNat_true]
        omega
    | fetch hpc hsrc =>
        rw [hpc, hsrc] at hc
        simp only [Pc.fetching, Bool.toNat_true, List.length_cons] at hc
        simp only [St.goto, Function.update_self, Pc.fetching, Bool.toNat_false]
        omega
    | leave hpc | split hpc | arrive1 hpc | pass1 hpc | read hpc | set hpc | arrive2 hpc
    | write hpc =>
        rw [hpc] at hc
        simp only [Pc.fetching, Bool.toNat_false] at hc
        simp only [St.arrive, St.goto, Function.update_self, Pc.fetching, Bool.toNat_false]
        exact hc
    | pass2 hpc =>
        rw [hpc] at hc
        simp only [Pc.fetching, Bool.toNat_false] at hc
        simp only [St.goto, Function.update_self, if_pos hi, Pc.fetching, Bool.toNat_false]
        exact hc
  · obtain ⟨hsource, -, -, hth⟩ := frame_of_ne_zero ht hm hi
    rw [hsource, hth z hz]
    exact h.count z hz

/-- A thread that has left had left before, or finds the source empty. -/
theorem left_of_step (hm : Moves E s i s') (hj : (s'.th j).pc = .left) :
    (s.th j).pc = .left ∨ s.source = [] := by
  have other : ∀ {x : Thread Block Res}, x.pc ≠ .left →
      (Function.update s.th i x j).pc = .left → (s.th j).pc = .left := by
    intro x hx hj
    by_cases he : j = i
    · rw [he, Function.update_self] at hj
      exact absurd hj hx
    · rw [Function.update_of_ne he] at hj
      exact hj
  cases hm with
  | leave hpc hsrc => exact .inr hsrc
  | enter hpc =>
      refine .inl (other ?_ hj)
      split <;> simp
  | pass2 hpc =>
      refine .inl (other ?_ hj)
      split <;> simp
  | _ => exact .inl (other (by simp) hj)

theorem drawn_reach (h : (workers E blocks).Reachable s) : Drawn blocks s := by
  refine h.invariant ?_ ?_
  · intro s hs
    rw [hs]
    exact ⟨fun _ _ => Nat.zero_add _, fun _ hi => by cases hi⟩
  · intro s i s' hs ih _ hstep
    have hm := moves_of_step hstep
    refine ⟨count_step (turns_reach hs) ih hm, fun j hj => ?_⟩
    have hsrc : s.source = [] := (left_of_step hm hj).elim (ih.empty j) id
    exact (rounds_of_empty hm hsrc).1

/-! ### Runs in which the last fetch is safe -/

theorem serial_of_fetching {c : Pc Block Res} (h : c.fetching = true) : c.serial = true := by
  cases c with
  | fetch => rfl
  | _ => cases h

/-- What it takes for a fetch to be unsafe. -/
theorem unsafe_fetch (h : ¬ FetchSafe s i) :
    (s.th i).pc = .fetch ∧ (∃ b, s.source = [b]) ∧
      ∃ j, j ≠ i ∧ (s.th j).pc.tested = false := by
  unfold FetchSafe at h
  simp only [not_forall] at h
  obtain ⟨hf, hlen, j, hj, ht⟩ := h
  refine ⟨?_, List.length_eq_one_iff.mp hlen, j, hj, Bool.eq_false_iff.mpr ht⟩
  cases hpc : (s.th i).pc with
  | fetch => rfl
  | _ => rw [hpc] at hf; cases hf

/-- A thread that has evaluated done() is in the round of a thread that is about to fetch. -/
theorem rounds_of_tested (ht : Turns s) (hi : (s.th i).pc = .fetch)
    (hj : (s.th j).pc.tested = true) : (s.th j).rounds = (s.th i).rounds := by
  have hmi := ht.gathers.made i
  have hmj := ht.gathers.made j
  have hri := ht.begun i (by rw [hi]; rfl)
  unfold Thread.made Thread.waits at hmi hmj
  rw [hi, Pc.ahead, Bool.toNat_false] at hmi
  cases hpc : (s.th j).pc with
  | arrive1 =>
      have hrj := ht.begun j (by rw [hpc]; rfl)
      rw [hpc, Pc.ahead, Bool.toNat_false] at hmj
      omega
  | wait1 p =>
      have hrj := ht.begun j (by rw [hpc]; rfl)
      have hle := Bool.toNat_le (decide (p = s.sync.phase))
      rw [hpc, Pc.ahead] at hmj
      dsimp only at hmj
      omega
  | _ => rw [hpc] at hj; cases hj

/-- When the source is empty, everybody has begun one round for each block. -/
def Agreed (blocks : List Block) (s : St n Block Chunk Res) : Prop :=
  s.source = [] → ∀ i, (s.th i).rounds = blocks.length

theorem agreed_step (ht : Turns s) (hd : Drawn blocks s) (h : Agreed blocks s)
    (hg : FetchSafe s i) (hm : Moves E s i s') : Agreed blocks s' := by
  intro hsrc' j
  by_cases hsrc : s.source = []
  · rw [(rounds_of_empty hm hsrc).2 j]
    exact h hsrc j
  · -- the source has become empty, so this step took the last block
    cases hm with
    | @fetch b rest hpc hcons =>
        have hrest : rest = [] := hsrc'
        rw [hrest] at hcons
        have hi : (i : ℕ) = 0 := ht.serial i (by rw [hpc]; rfl)
        have hc := hd.count i hi
        rw [hpc, hcons] at hc
        simp only [Pc.fetching, Bool.toNat_true, List.length_singleton] at hc
        have htested := hg (by rw [hpc]; rfl) (by rw [hcons]; rfl)
        have hj : (s.th j).rounds = (s.th i).rounds := by
          by_cases he : j = i
          · rw [he]
          · exact rounds_of_tested ht hpc (htested j he)
        have hsame := rounds_update (s := s) (i := i) (.split b) j
        simp only [St.goto]
        omega
    | _ => exact absurd hsrc' hsrc

theorem agreed_reach (h : (workers E blocks).Reach FetchSafe s) : Agreed blocks s := by
  refine h.invariant ?_ ?_
  · intro s hs hsrc i
    rw [hs] at hsrc ⊢
    have hblocks : blocks = [] := hsrc
    rw [hblocks]
    rfl
  · intro s i s' hs ih hg hstep
    exact agreed_step (turns_reach hs.reachable) (drawn_reach hs.reachable) ih hg
      (moves_of_step hstep)

/-- Nobody waits for a thread that has left. -/
theorem not_deserted (hd : Drawn blocks s) (h : Agreed blocks s) : ¬ Deserted s := by
  rintro ⟨i, j, hi, -, hlt⟩
  have hsrc := hd.empty i hi
  rw [h hsrc i, h hsrc j] at hlt
  omega

/-- A thread that has not left and is not held by the barrier can go on. -/
theorem exists_step (ht : Turns s) (hc : Contents E blocks s)
    (hfree : (s.th i).waits s.sync.phase = false) (hleft : (s.th i).pc ≠ .left) :
    ∃ s', workerStep E s i = some s' := by
  unfold workerStep
  unfold Thread.waits at hfree
  cases hpc : (s.th i).pc with
  | test => cases s.source <;> exact ⟨_, rfl⟩
  | fetch =>
      obtain ⟨written, -, -, hser⟩ := hc.serial
      have hs := hser i (ht.serial i (by rw [hpc]; rfl))
      rw [hpc] at hs
      obtain ⟨b, rest, hsrc⟩ := List.exists_cons_of_ne_nil hs.2
      rw [hsrc]
      exact ⟨_, rfl⟩
  | read =>
      obtain ⟨fetched, b, -, hchunks⟩ :=
        chunks_of_between (i := i) ht hc (by unfold Thread.between; rw [hpc])
      have hlt : (i : ℕ) < s.chunks.length := by
        rw [hchunks, Vector.length_toList]
        exact i.isLt
      rw [List.getElem?_eq_getElem hlt]
      exact ⟨_, rfl⟩
  | wait1 p | wait2 p =>
      rw [hpc] at hfree
      have hp : s.sync.phase ≠ p := Ne.symm (of_decide_eq_false hfree)
      exact ⟨_, if_neg hp⟩
  | left => exact absurd hpc hleft
  | _ => exact ⟨_, rfl⟩

/-- While thread 0 is about to fetch, a thread that has not evaluated done() is not held. -/
theorem free_of_untested (ht : Turns s) (hi : (s.th i).pc = .fetch)
    (hj : (s.th j).pc.tested = false) : (s.th j).waits s.sync.phase = false := by
  have heven := ht.even (i := i) (by unfold Thread.between; rw [hi])
  have hbetween := ht.not_between_of_even heven j
  unfold Thread.between at hbetween
  unfold Thread.waits
  cases hpc : (s.th j).pc with
  | wait1 p => rw [hpc] at hj; cases hj
  | wait2 p => rw [hpc] at hbetween; exact hbetween
  | _ => rfl

/-- Unless all threads have left, one of them can go on without an unsafe fetch. -/
theorem safe_progress (ht : Turns s) (hc : Contents E blocks s) (hd : Drawn blocks s)
    (ha : Agreed blocks s) (hi : (s.th i).pc ≠ .left) :
    ∃ j s', FetchSafe s j ∧ workerStep E s j = some s' := by
  by_cases hsome : ∃ k, (s.th k).pc = .left
  · -- somebody has left, so the source is empty and nobody has a barrier to wait at
    obtain ⟨k, hk⟩ := hsome
    have hsrc := hd.empty k hk
    have hphase := rounds_of_left ht hk
    rw [ha hsrc k] at hphase
    have hmade := ht.gathers.made i
    unfold Thread.made at hmade
    rw [ha hsrc i] at hmade
    have hfree : (s.th i).waits s.sync.phase = false := by
      rw [← Bool.toNat_eq_zero]
      omega
    obtain ⟨s', hs'⟩ := exists_step ht hc hfree hi
    refine ⟨i, s', fun _ hlen => ?_, hs'⟩
    rw [hsrc] at hlen
    cases hlen
  · have hleft : ∀ k, (s.th k).pc ≠ .left := fun k hk => hsome ⟨k, hk⟩
    obtain ⟨u, hu⟩ := ht.gathers.exists_free i
    by_cases hsafe : FetchSafe s u
    · obtain ⟨s', hs'⟩ := exists_step ht hc hu (hleft u)
      exact ⟨u, s', hsafe, hs'⟩
    · -- the fetch has to wait for a thread that is still to evaluate done()
      obtain ⟨hpc, -, j, hj, htested⟩ := unsafe_fetch hsafe
      have hfree := free_of_untested ht hpc htested
      obtain ⟨s', hs'⟩ := exists_step ht hc hfree (hleft j)
      refine ⟨j, s', fun hf => ?_, hs'⟩
      have hj0 := ht.serial j (serial_of_fetching hf)
      have hu0 := ht.serial u (by rw [hpc]; rfl)
      exact absurd (Fin.ext (hj0.trans hu0.symm)) hj

/-! ### How long the workers run -/

/-- A thread that begins a round has begun fewer than there are blocks. -/
theorem rounds_lt_of_enter (ht : Turns s) (hd : Drawn blocks s) (hpc : (s.th i).pc = .test)
    (hsrc : s.source ≠ []) : (s.th i).rounds < blocks.length := by
  have hc := hd.count ⟨0, i.pos⟩ rfl
  have hz : s.sync.phase ≤ (s.th ⟨0, i.pos⟩).made := by
    rw [ht.gathers.made]
    exact Nat.le_add_right _ _
  have hm := ht.gathers.made_of_free (t := i) (by unfold Thread.waits; rw [hpc])
  have hpos := List.length_pos_iff.mpr hsrc
  unfold Thread.made at hm hz
  rw [hpc] at hm
  simp only [Pc.ahead] at hm
  cases hp : (s.th ⟨0, i.pos⟩).pc with
  | fetch =>
      have hbegun := ht.begun ⟨0, i.pos⟩ (by rw [hp]; rfl)
      rw [hp] at hc hz
      simp only [Pc.fetching, Pc.ahead, Bool.toNat_true] at hc hz
      omega
  | _ =>
      rw [hp] at hc
      simp only [Pc.fetching, Bool.toNat_false] at hc
      omega

theorem rounds_le (h : (workers E blocks).Reachable s) (j : Fin n) :
    (s.th j).rounds ≤ blocks.length := by
  refine h.invariant (I := fun s => ∀ j, (s.th j).rounds ≤ blocks.length) ?_ ?_ j
  · rintro s rfl j
    exact Nat.zero_le _
  · intro s i s' hs ih _ hstep
    have hm := moves_of_step hstep
    cases hm with
    | enter hpc hsrc =>
        exact (Function.forall_update_iff s.th fun _ x => x.rounds ≤ blocks.length).mpr
          ⟨rounds_lt_of_enter (turns_reach hs) (drawn_reach hs) hpc hsrc, fun j _ => ih j⟩
    | _ => exact fun j => (rounds_update _ j).trans_le (ih j)

/-- The steps that are left of a round. -/
def Pc.toGo : Pc Block Res → ℕ
  | .fetch => 10
  | .split _ => 9
  | .arrive1 => 8
  | .wait1 _ => 7
  | .read => 6
  | .set _ => 5
  | .arrive2 => 4
  | .wait2 _ => 3
  | .write => 2
  | .test => 1
  | .left => 0

/-- The steps that a thread has left, if there are `b` blocks. -/
def Thread.toGo (b : ℕ) (x : Thread Block Res) : ℕ := 10 * (b - x.rounds) + x.pc.toGo

theorem toGo_update {b : ℕ} {x : Thread Block Res} (h : x.toGo b < (s.th i).toGo b) :
    sumAt (Thread.toGo b) (Function.update s.th i x) < sumAt (Thread.toGo b) s.th := by
  have hsum := sumAt_update (Thread.toGo b) s.th i x
  omega

/-- Every step leaves less to do. -/
theorem toGo_step (ht : Turns s) (hd : Drawn blocks s) (hm : Moves E s i s') :
    sumAt (Thread.toGo blocks.length) s'.th < sumAt (Thread.toGo blocks.length) s.th := by
  cases hm with
  | enter hpc hsrc =>
      have hlt := rounds_lt_of_enter ht hd hpc hsrc
      refine toGo_update ?_
      unfold Thread.toGo
      split <;> simp only [hpc, Pc.toGo] <;> omega
  | pass2 hpc =>
      refine toGo_update ?_
      unfold Thread.toGo
      split <;> simp only [hpc, Pc.toGo] <;> omega
  | leave hpc | fetch hpc | split hpc | arrive1 hpc | pass1 hpc | read hpc | set hpc
  | arrive2 hpc | write hpc =>
      refine toGo_update ?_
      simp only [Thread.toGo, hpc, Pc.toGo]
      omega

/-! ### Any other fetch -/

/-- A thread at the top of the loop finds the source empty, while another one is in a later
    round. -/
theorem deserted_of_test (hsrc : s.source = []) (hj : (s.th j).pc = .test)
    (hi : (s.th i).pc.bound = true) (hlt : (s.th j).rounds < (s.th i).rounds) :
    workerStep E s j = some (s.goto j .left) ∧ Deserted (s.goto j .left) := by
  have hij : i ≠ j := by
    intro he
    rw [he] at hlt
    exact Nat.lt_irrefl _ hlt
  refine ⟨?_, j, i, ?_, ?_, ?_⟩
  · unfold workerStep
    rw [hj, hsrc]
  · simp only [St.goto, Function.update_self]
  · simp only [St.goto, Function.update_of_ne hij]
    exact hi
  · simp only [St.goto, Function.update_self, Function.update_of_ne hij]
    exact hlt

/-- While thread 0 is about to fetch, a thread that has not evaluated done() is at the top of
    the loop, or is on its way there from the barrier, and is one round behind. -/
theorem late_cases (ht : Turns s) (hd : Drawn blocks s) (hsrc : s.source ≠ [])
    (hi : (s.th i).pc = .fetch) (hji : j ≠ i) (hj : (s.th j).pc.tested = false) :
    (s.th j).rounds < (s.th i).rounds ∧
      ((s.th j).pc = .test ∨ ∃ p, (s.th j).pc = .wait2 p ∧ s.sync.phase ≠ p) := by
  have heven := ht.even (i := i) (by unfold Thread.between; rw [hi])
  have hbetween := ht.not_between_of_even heven j
  have hmi := ht.gathers.made_of_free (t := i) (by unfold Thread.waits; rw [hi])
  have hmj := ht.gathers.made_of_free (free_of_untested ht hi hj)
  have hri := ht.begun i (by rw [hi]; rfl)
  unfold Thread.made at hmi hmj
  rw [hi] at hmi
  simp only [Pc.ahead] at hmi
  have hserial : (s.th j).pc.serial = false := by
    rw [Bool.eq_false_iff]
    intro hs
    have hj0 := ht.serial j hs
    have hi0 := ht.serial i (by rw [hi]; rfl)
    exact hji (Fin.ext (hj0.trans hi0.symm))
  unfold Thread.between at hbetween
  cases hpc : (s.th j).pc with
  | test =>
      rw [hpc] at hmj
      simp only [Pc.ahead] at hmj
      exact ⟨by omega, .inl rfl⟩
  | wait2 p =>
      rw [hpc] at hmj hbetween
      simp only [Pc.ahead] at hmj
      have hp : s.sync.phase ≠ p := Ne.symm (of_decide_eq_false hbetween)
      exact ⟨by omega, .inr ⟨p, rfl, hp⟩⟩
  | left => exact absurd (hd.empty j hpc) hsrc
  | fetch | split b | write => rw [hpc] at hserial; cases hserial
  | arrive1 | wait1 p => rw [hpc] at hj; cases hj
  | read | set r | arrive2 => rw [hpc] at hbetween; cases hbetween

/-- If thread 0 takes the last block while some thread has not evaluated done(), that thread
    may find the source empty and leave, and thread 0 waits for it. -/
theorem deserted_of_unsafe (hs : (workers E blocks).Reachable s) (h : ¬ FetchSafe s i) :
    ∃ u, workerStep E s i = some u ∧
      ∃ as s', (workers E blocks).exec Lts.anyStep u as = some s' ∧ Deserted s' := by
  obtain ⟨hpc, ⟨b, hsrc⟩, j, hji, htested⟩ := unsafe_fetch h
  have ht := turns_reach hs
  have hi0 : (i : ℕ) = 0 := ht.serial i (by rw [hpc]; rfl)
  have hj0 : (j : ℕ) ≠ 0 := fun he => hji (Fin.ext (he.trans hi0.symm))
  obtain ⟨hlt, hlate⟩ :=
    late_cases ht (drawn_reach hs) (by rw [hsrc]; simp) hpc hji htested
  -- thread 0 takes the block
  let s1 : St n Block Chunk Res := { s.goto i (.split b) with source := [] }
  refine ⟨s1, ?_, ?_⟩
  · unfold workerStep
    rw [hpc, hsrc]
  have hi1 : s1.th i = ⟨.split b, (s.th i).rounds⟩ := Function.update_self ..
  have hj1 : s1.th j = s.th j := Function.update_of_ne hji ..
  obtain htest | ⟨p, hwait, hp⟩ := hlate
  · obtain ⟨hstep, hleft⟩ := deserted_of_test (E := E) (s := s1) (i := i) (j := j) rfl
      (by rw [hj1, htest]) (by rw [hi1]; rfl) (by rw [hi1, hj1]; exact hlt)
    exact ⟨[j], _, Lts.exec_cons_of_step trivial hstep [], hleft⟩
  · -- the late thread comes back from the barrier first
    have hstep1 : workerStep E s1 j = some (s1.goto j .test) := by
      unfold workerStep
      rw [hj1, hwait]
      have hp1 : s1.sync.phase ≠ p := hp
      simp only [if_neg hp1, if_neg hj0]
    have hi2 : (s1.goto j .test).th i = s1.th i := Function.update_of_ne (Ne.symm hji) ..
    have hj2 : (s1.goto j .test).th j = ⟨.test, (s1.th j).rounds⟩ := Function.update_self ..
    obtain ⟨hstep2, hleft⟩ := deserted_of_test (E := E) (s := s1.goto j .test) (i := i) (j := j)
      rfl (by rw [hj2]) (by rw [hi2, hi1]; rfl) (by rw [hj2, hi2, hi1, hj1]; exact hlt)
    refine ⟨[j, j], _, ?_, hleft⟩
    rw [Lts.exec_cons_of_step trivial hstep1]
    exact Lts.exec_cons_of_step trivial hstep2 []

end Steps

end CppConcurrency.ProcessData
