/-
  The shared data of process_data(): source, chunks, result and sink.

  Thread 0's place in the loop says what source, chunks and sink hold (`Serial`), and each
  thread's place what its slot of result holds (`Slot`). When the second barrier of a round
  opens, everybody has set a slot (`full_of_arrive2`), so result is complete until thread 0
  has written it (`Contents.full`).

  `excluded`, `chunks_of_between`, `chunks_step` and `sink_written` hold in every state the
  workers reach, also when some thread has left the loop early.
-/
import CppConcurrency.LatchBarrier.Phases

namespace CppConcurrency.ProcessData

open Concur

variable {n : ℕ} {Block Chunk Res : Type*}

/-- What the sink should get for a block: each slot has been set, from its own chunk. -/
def output (E : Env n Block Chunk Res) (b : Block) (i : Fin n) : Option Res :=
  some (E.process (E.divideIntoChunks b)[i])

/-- What slot `i` of result should hold. -/
def slot (E : Env n Block Chunk Res) (chunks : List Chunk) (i : Fin n) : Option Res :=
  chunks[(i : ℕ)]?.map E.process

/-- The blocks, seen from thread 0, which has written the outputs of `written`. -/
def Serial (E : Env n Block Chunk Res) (blocks written source : List Block)
    (chunks : List Chunk) : Pc Block Res → Prop
  | .test => blocks = written ++ source
  | .fetch => blocks = written ++ source ∧ source ≠ []
  | .split b => blocks = written ++ b :: source
  | .left => blocks = written ++ source
  | _ => ∃ b, blocks = written ++ b :: source ∧ chunks = (E.divideIntoChunks b).toList

/-- What a thread knows of its slot of result, in phase `p` of the barrier. -/
def Slot (E : Env n Block Chunk Res) (p : ℕ) (chunks : List Chunk) (i : Fin n)
    (r : Option Res) : Pc Block Res → Prop
  | .set r' => slot E chunks i = some r'
  | .arrive2 => r = slot E chunks i
  | .wait2 p' => p' = p → r = slot E chunks i
  | _ => True

/-- The second barrier has released the thread, and the output is still to be written. -/
def Pc.owes (p : ℕ) : Pc Block Res → Bool
  | .wait2 p' => p' ≠ p
  | .write => true
  | _ => false

/-- The shared data agree with where the threads are. -/
structure Contents (E : Env n Block Chunk Res) (blocks : List Block) (s : St n Block Chunk Res) :
    Prop where
  serial : ∃ written, written <+: blocks ∧ s.sink = written.map (output E) ∧
    ∀ z : Fin n, (z : ℕ) = 0 → Serial E blocks written s.source s.chunks (s.th z).pc
  slots : ∀ i, Slot E s.sync.phase s.chunks i (s.result i) (s.th i).pc
  full : ∀ z : Fin n, (z : ℕ) = 0 → (s.th z).pc.owes s.sync.phase = true →
    ∀ i, s.result i = slot E s.chunks i

section Steps

variable {E : Env n Block Chunk Res} {blocks : List Block} {s s' : St n Block Chunk Res}
  {i : Fin n}

theorem slot_of_split {b : Block} {chunks : List Chunk}
    (h : chunks = (E.divideIntoChunks b).toList) (i : Fin n) : slot E chunks i = output E b i := by
  unfold slot output
  rw [h]
  simp

/-! ### source, chunks and sink -/

/-- Between the barriers thread 0 has a block in hand. -/
theorem held_of_between {p : ℕ} {x : Thread Block Res} {written source : List Block}
    {chunks : List Chunk} (hx : x.between p = true)
    (h : Serial E blocks written source chunks x.pc) :
    ∃ b, blocks = written ++ b :: source ∧ chunks = (E.divideIntoChunks b).toList := by
  obtain ⟨pc, rounds⟩ := x
  cases pc with
  | test | fetch | split | left => cases hx
  | _ => exact h

/-- The other threads touch none of them. -/
theorem frame_of_ne_zero (ht : Turns s) (hm : Moves E s i s') (hi : (i : ℕ) ≠ 0) :
    s'.source = s.source ∧ s'.chunks = s.chunks ∧ s'.sink = s.sink ∧
      ∀ z : Fin n, (z : ℕ) = 0 → s'.th z = s.th z := by
  have hz : ∀ x : Thread Block Res, ∀ z : Fin n, (z : ℕ) = 0 →
      Function.update s.th i x z = s.th z := by
    intro x z hz
    have hne : z ≠ i := by
      intro he
      rw [he] at hz
      exact hi hz
    exact Function.update_of_ne hne x s.th
  cases hm with
  | fetch hpc | split hpc | write hpc =>
      exact absurd (ht.serial i (by rw [hpc]; rfl)) hi
  | _ => exact ⟨rfl, rfl, rfl, hz _⟩

/-- Thread 0 moves. -/
theorem serial_move {written source : List Block} {chunks : List Chunk} {x : Thread Block Res}
    (hi : (i : ℕ) = 0) (hx : Serial E blocks written source chunks x.pc) (z : Fin n)
    (hz : (z : ℕ) = 0) :
    Serial E blocks written source chunks (Function.update s.th i x z).pc := by
  have he : z = i := Fin.ext (hz.trans hi.symm)
  rw [he, Function.update_self]
  exact hx

theorem serial_step (ht : Turns s) (h : Contents E blocks s) (hm : Moves E s i s') :
    ∃ written, written <+: blocks ∧ s'.sink = written.map (output E) ∧
      ∀ z : Fin n, (z : ℕ) = 0 → Serial E blocks written s'.source s'.chunks (s'.th z).pc := by
  obtain ⟨written, hpre, hsink, hser⟩ := h.serial
  by_cases hi : (i : ℕ) = 0
  · have hs := hser i hi
    cases hm with
    | leave hpc hsrc =>
        rw [hpc] at hs
        exact ⟨written, hpre, hsink, serial_move hi hs⟩
    | enter hpc hsrc =>
        rw [hpc] at hs
        refine ⟨written, hpre, hsink, serial_move hi ?_⟩
        rw [if_pos hi]
        exact ⟨hs, hsrc⟩
    | fetch hpc hsrc =>
        rw [hpc] at hs
        refine ⟨written, hpre, hsink, serial_move hi ?_⟩
        have hblocks := hs.1
        rw [hsrc] at hblocks
        exact hblocks
    | @split b hpc =>
        rw [hpc] at hs
        exact ⟨written, hpre, hsink, serial_move hi ⟨b, hs, rfl⟩⟩
    | arrive1 hpc | pass1 hpc hp | read hpc hc | set hpc | arrive2 hpc =>
        rw [hpc] at hs
        exact ⟨written, hpre, hsink, serial_move hi hs⟩
    | pass2 hpc hp =>
        rw [hpc] at hs
        refine ⟨written, hpre, hsink, serial_move hi ?_⟩
        rw [if_pos hi]
        exact hs
    | write hpc =>
        rw [hpc] at hs
        obtain ⟨b, hblocks, hchunks⟩ := hs
        have hresult : s.result = output E b := by
          funext j
          rw [h.full i hi (by rw [hpc]; rfl) j, slot_of_split hchunks]
        have hnext : blocks = (written ++ [b]) ++ s.source := by
          rw [hblocks, List.append_assoc]
          rfl
        refine ⟨written ++ [b], ⟨s.source, hnext.symm⟩, ?_, serial_move hi hnext⟩
        rw [List.map_append, ← hsink, List.map_singleton, ← hresult]
  · obtain ⟨hsource, hchunks, hsink', hz⟩ := frame_of_ne_zero ht hm hi
    refine ⟨written, hpre, hsink'.trans hsink, fun z hz0 => ?_⟩
    rw [hsource, hchunks, hz z hz0]
    exact hser z hz0

/-! ### result -/

/-- Outside the parallel half a slot may hold anything. -/
theorem slot_of_not_between {p : ℕ} {x : Thread Block Res} (h : x.between p = false)
    (chunks : List Chunk) (i : Fin n) (r : Option Res) : Slot E p chunks i r x.pc := by
  obtain ⟨pc, rounds⟩ := x
  cases pc with
  | set r' => cases h
  | arrive2 => cases h
  | wait2 q =>
      intro hq
      exact absurd hq (of_decide_eq_false h)
  | _ => trivial

/-- So it may right after a barrier has opened. -/
theorem slot_of_held {p : ℕ} {x : Thread Block Res} (h : x.waits p = true)
    (chunks : List Chunk) (i : Fin n) (r : Option Res) : Slot E (p + 1) chunks i r x.pc := by
  obtain ⟨pc, rounds⟩ := x
  cases pc with
  | wait2 q =>
      intro hq
      have hp : q = p := of_decide_eq_true h
      omega
  | wait1 q => trivial
  | _ => cases h

/-- Nothing is owed in the parallel half. -/
theorem not_between_of_owes {p : ℕ} {x : Thread Block Res} (h : x.pc.owes p = true) :
    x.between p = false := by
  obtain ⟨pc, rounds⟩ := x
  cases pc with
  | wait2 q =>
      have hq : q ≠ p := of_decide_eq_true h
      exact decide_eq_false hq
  | write => rfl
  | _ => cases h

/-- A thread that the barrier holds between the barriers has set its slot. -/
theorem slot_set {p : ℕ} {x : Thread Block Res} {chunks : List Chunk} {r : Option Res}
    (hbetween : x.between p = true) (hheld : x.waits p = true)
    (h : Slot E p chunks i r x.pc) : r = slot E chunks i := by
  obtain ⟨pc, rounds⟩ := x
  cases pc with
  | wait2 q => exact h (of_decide_eq_true hheld)
  | wait1 q => exact absurd (of_decide_eq_true hheld) (of_decide_eq_true hbetween)
  | _ => cases hheld

/-- When the last thread arrives at the second barrier, every slot has been set. -/
theorem full_of_arrive2 (ht : Turns s) (h : Contents E blocks s) (hpc : (s.th i).pc = .arrive2)
    (hall : ∀ j, j ≠ i → (s.th j).waits s.sync.phase = true) (j : Fin n) :
    s.result j = slot E s.chunks j := by
  have hslot := h.slots j
  by_cases hj : j = i
  · rw [hj, hpc] at hslot
    rw [hj]
    exact hslot
  · have hodd : s.sync.phase % 2 = 1 :=
      ht.odd (i := i) (by unfold Thread.between; rw [hpc])
    exact slot_set (ht.between_of_odd hodd j) (hall j hj) hslot

/-- One thread moves; the phase, chunks and the slots of the others stay. -/
theorem slots_move (h : Contents E blocks s) {x : Thread Block Res} {p : ℕ} {r : Option Res}
    {result : Fin n → Option Res} (hp : p = s.sync.phase) (hi : result i = r)
    (hother : ∀ j, j ≠ i → result j = s.result j) (hx : Slot E p s.chunks i r x.pc) :
    ∀ j, Slot E p s.chunks j (result j) (Function.update s.th i x j).pc := by
  refine (Function.forall_update_iff s.th fun j y => Slot E p s.chunks j (result j) y.pc).mpr
    ⟨?_, fun j hj => ?_⟩
  · rw [hi]
    exact hx
  · rw [hother j hj, hp]
    exact h.slots j

/-- One thread moves, and a phase is over for which all the others are held. -/
theorem slots_release {x : Thread Block Res}
    (hall : ∀ j, j ≠ i → (s.th j).waits s.sync.phase = true)
    (hx : Slot E (s.sync.phase + 1) s.chunks i (s.result i) x.pc) :
    ∀ j, Slot E (s.sync.phase + 1) s.chunks j (s.result j) (Function.update s.th i x j).pc :=
  (Function.forall_update_iff s.th fun j y =>
    Slot E (s.sync.phase + 1) s.chunks j (s.result j) y.pc).mpr
      ⟨hx, fun j hj => slot_of_held (hall j hj) _ j _⟩

theorem slots_step (ht : Turns s) (h : Contents E blocks s) (hm : Moves E s i s') :
    ∀ j, Slot E s'.sync.phase s'.chunks j (s'.result j) (s'.th j).pc := by
  have ht' := turns_step ht hm
  cases hm with
  | leave | fetch | pass1 =>
      refine slots_move h rfl rfl (fun _ _ => rfl) ?_
      trivial
  | enter hpc =>
      refine slots_move h rfl rfl (fun _ _ => rfl) ?_
      split <;> trivial
  | pass2 hpc =>
      refine slots_move h rfl rfl (fun _ _ => rfl) ?_
      split <;> trivial
  | @read c hpc hc =>
      refine slots_move h rfl rfl (fun _ _ => rfl) ?_
      show slot E s.chunks i = some (E.process c)
      unfold slot
      rw [hc]
      rfl
  | set hpc =>
      have hslot := h.slots i
      rw [hpc] at hslot
      refine slots_move h rfl (Function.update_self ..)
        (fun j hj => Function.update_of_ne hj ..) ?_
      exact hslot.symm
  | split hpc | write hpc =>
      have heven : s.sync.phase % 2 = 0 := ht.even (i := i) (by unfold Thread.between; rw [hpc])
      exact fun j => slot_of_not_between (ht'.not_between_of_even heven j) _ j _
  | arrive1 hpc =>
      obtain ⟨-, hp | ⟨hp, hall⟩⟩ := gathers_arrive ht (c := .wait1 s.sync.phase) (by rw [hpc]; rfl)
      · refine slots_move h hp rfl (fun _ _ => rfl) ?_
        trivial
      · rw [hp]
        refine slots_release hall ?_
        trivial
  | arrive2 hpc =>
      have hslot := h.slots i
      rw [hpc] at hslot
      obtain ⟨-, hp | ⟨hp, hall⟩⟩ := gathers_arrive ht (c := .wait2 s.sync.phase) (by rw [hpc]; rfl)
      · refine slots_move h hp rfl (fun _ _ => rfl) ?_
        exact fun _ => hslot
      · rw [hp]
        refine slots_release hall ?_
        exact fun _ => hslot

/-- One thread moves; the phase, chunks and result stay. -/
theorem full_move (h : Contents E blocks s) {x : Thread Block Res} {p : ℕ}
    (hp : p = s.sync.phase)
    (hx : (i : ℕ) = 0 → x.pc.owes p = true → (s.th i).pc.owes p = true) :
    ∀ z : Fin n, (z : ℕ) = 0 → (Function.update s.th i x z).pc.owes p = true →
      ∀ j, s.result j = slot E s.chunks j := by
  rw [hp] at hx ⊢
  exact (Function.forall_update_iff s.th fun z y => (z : ℕ) = 0 →
    y.pc.owes s.sync.phase = true → ∀ j, s.result j = slot E s.chunks j).mpr
      ⟨fun hi ho => h.full i hi (hx hi ho), fun z _ => h.full z⟩

theorem full_step (ht : Turns s) (h : Contents E blocks s) (hm : Moves E s i s') :
    ∀ z : Fin n, (z : ℕ) = 0 → (s'.th z).pc.owes s'.sync.phase = true →
      ∀ j, s'.result j = slot E s'.chunks j := by
  have ht' := turns_step ht hm
  cases hm with
  | leave | fetch | pass1 | read =>
      exact full_move h rfl fun _ ho => by cases ho
  | enter hpc =>
      refine full_move h rfl fun hi ho => ?_
      rw [if_pos hi] at ho
      cases ho
  | pass2 hpc hp =>
      refine full_move h rfl fun _ _ => ?_
      rw [hpc]
      exact decide_eq_true (Ne.symm hp)
  | set hpc =>
      intro z _ ho
      have hodd : s.sync.phase % 2 = 1 := ht.odd (i := i) (by unfold Thread.between; rw [hpc])
      have hz := ht'.between_of_odd hodd z
      rw [not_between_of_owes ho] at hz
      cases hz
  | split hpc | write hpc =>
      intro z hz ho
      have hi : (i : ℕ) = 0 := ht.serial i (by rw [hpc]; rfl)
      have he : z = i := Fin.ext (hz.trans hi.symm)
      rw [he] at ho
      simp only [St.goto, Function.update_self] at ho
      cases ho
  | arrive1 hpc =>
      obtain ⟨-, hp | ⟨hp, -⟩⟩ := gathers_arrive ht (c := .wait1 s.sync.phase) (by rw [hpc]; rfl)
      · exact full_move h hp fun _ ho => by cases ho
      · intro z _ ho
        have heven : s.sync.phase % 2 = 0 :=
          ht.even (i := i) (by unfold Thread.between; rw [hpc])
        have hz := ht'.between_of_odd (by omega) z
        rw [not_between_of_owes ho] at hz
        cases hz
  | arrive2 hpc =>
      obtain ⟨-, hp | ⟨-, hall⟩⟩ := gathers_arrive ht (c := .wait2 s.sync.phase) (by rw [hpc]; rfl)
      · refine full_move h hp fun _ ho => ?_
        exact absurd hp.symm (of_decide_eq_true ho)
      · have hfull := full_of_arrive2 ht h hpc hall
        exact fun _ _ _ => hfull

/-! ### Every reachable state -/

theorem contents_start : Contents E blocks (start blocks) where
  serial := ⟨[], List.nil_prefix, rfl, fun _ _ => rfl⟩
  slots _ := trivial
  full _ _ ho := by cases ho

theorem contents_reach (h : (workers E blocks).Reachable s) : Contents E blocks s := by
  refine h.invariant ?_ ?_
  · intro s hs
    rw [hs]
    exact contents_start
  · intro s i s' hs ih _ hstep
    have ht := turns_reach hs
    have hm := moves_of_step hstep
    exact ⟨serial_step ht ih hm, slots_step ht ih hm, full_step ht ih hm⟩

/-- Thread 0 does its serial parts while nobody is in the parallel part. -/
theorem excluded (ht : Turns s) {i j : Fin n} (hi : (s.th i).pc.serial = true) :
    (s.th j).pc.parallel = false := by
  have heven := ht.even (Thread.not_between_of_serial hi)
  have hj := ht.not_between_of_even heven j
  rw [Bool.eq_false_iff] at hj ⊢
  intro hp
  exact hj (Thread.between_of_parallel hp)

/-- Between the barriers `chunks` is the split of the block fetched last. -/
theorem chunks_of_between (ht : Turns s) (h : Contents E blocks s)
    (hi : (s.th i).between s.sync.phase = true) :
    ∃ fetched b, blocks = fetched ++ b :: s.source ∧ s.chunks = (E.divideIntoChunks b).toList := by
  obtain ⟨written, -, -, hser⟩ := h.serial
  have hz := ht.between_of_odd (ht.odd hi) ⟨0, i.pos⟩
  have hs := hser ⟨0, i.pos⟩ rfl
  exact ⟨written, held_of_between hz hs⟩

/-- Nobody splits a block while a thread is between the barriers. -/
theorem chunks_step (ht : Turns s) (hi : (s.th i).between s.sync.phase = true) {j : Fin n}
    (hm : Moves E s j s') : s'.chunks = s.chunks := by
  cases hm with
  | split hpc =>
      have hj := ht.between_of_odd (ht.odd hi) j
      rw [Thread.not_between_of_serial (by rw [hpc]; rfl)] at hj
      cases hj
  | _ => rfl

/-- The sink holds the outputs of the first blocks, in order, each complete and from its own
    block. -/
theorem sink_written (h : Contents E blocks s) :
    ∃ written, written <+: blocks ∧ s.sink = written.map (output E) := by
  obtain ⟨written, hpre, hsink, -⟩ := h.serial
  exact ⟨written, hpre, hsink⟩

end Steps

end CppConcurrency.ProcessData
