/-
  The program of condition_variable.cpp: what becomes of its two threads.

  Model. The threads are those of the hand-off. there_is_more_data counts a static `counter` of 32
  bits down, from any number `c` on (the source has 4), and so answers `true` c - 1 times;
  prepare_data makes any chunks, `chunk 0`, `chunk 1`, …; and there are no spurious wake-ups.

  Proved:
  * `both_end`: whatever the scheduler does, the threads make at most 15 steps for each chunk and
    4 more. When none can go on, all chunks have been pushed, and the consumer has processed them
    up to the first last chunk, and has returned after that. Only if none of them is a last chunk
    does it sleep for ever. No notify_one is lost, though the producer gives it without the mutex.
-/
import CppConcurrency.ConditionVariable.HandOff
import CppConcurrency.Lib.Progress

namespace CppConcurrency.ConditionVariable

open Concur

variable {T : Type*} {isLastChunk : T → Bool} {c : UInt32} {chunk : ℕ → T} {n k : ℕ} {s s' : St T}
  {a : Act T}

/-! ## The chunks -/

/-- there_is_more_data: what `counter` becomes, and the answer. -/
def thereIsMoreData (counter : UInt32) : UInt32 × Bool :=
  let counter := counter - 1
  (counter, counter != 0)

/-- `counter` after `k` calls, from `c` on. -/
def counterAfter (c : UInt32) : ℕ → UInt32
  | 0 => c
  | k + 1 => (thereIsMoreData (counterAfter c k)).1

/-- The chunks that are made. -/
def chunks (c : UInt32) (chunk : ℕ → T) : List T := (List.range (c - 1).toNat).map chunk

/-- The chunks up to the first one that is last. -/
def upToLast (isLastChunk : T → Bool) : List T → List T
  | [] => []
  | data :: rest => if isLastChunk data then [data] else data :: upToLast isLastChunk rest

/-- What the functions of the source answer, where `pushed` tells how often they have been
    called. -/
def Feeds (c : UInt32) (chunk : ℕ → T) (s : St T) : Act T → Prop
  | .more b => b = (thereIsMoreData (counterAfter c s.pushed.length)).2
  | .prepare data => data = chunk s.pushed.length
  | .preparation | .processing => True
  | .spurious => False

instance [DecidableEq T] (s : St T) (a : Act T) : Decidable (Feeds c chunk s a) :=
  match a with
  | .more b =>
      inferInstanceAs (Decidable (b = (thereIsMoreData (counterAfter c s.pushed.length)).2))
  | .prepare data => inferInstanceAs (Decidable (data = chunk s.pushed.length))
  | .preparation | .processing => .isTrue trivial
  | .spurious => .isFalse id

theorem toNat_counterAfter (h : k ≤ (c - 1).toNat) :
    (counterAfter c k - 1).toNat = (c - 1).toNat - k := by
  induction k with
  | zero => rfl
  | succ k ih =>
      have hk := ih (Nat.le_of_succ_le h)
      have hle : (1 : UInt32) ≤ counterAfter c k - 1 := by
        rw [UInt32.le_iff_toNat_le, hk]
        have hone : (1 : UInt32).toNat = 1 := rfl
        omega
      show (counterAfter c k - 1 - 1).toNat = _
      rw [UInt32.toNat_sub_of_le _ _ hle, hk]
      exact Nat.sub_sub _ _ _

/-- The answer is `true` for the first c - 1 calls. -/
theorem thereIsMoreData_iff (h : k ≤ (c - 1).toNat) :
    (thereIsMoreData (counterAfter c k)).2 = true ↔ k < (c - 1).toNat := by
  have hk := toNat_counterAfter h
  have hzero : counterAfter c k - 1 = 0 ↔ (c - 1).toNat - k = 0 := by
    rw [← hk]
    exact UInt32.toNat_inj.symm
  show (counterAfter c k - 1 != 0) = true ↔ _
  rw [bne_iff_ne, ne_eq, hzero]
  omega

theorem upToLast_eq_self {l : List T} (h : ∀ d ∈ l, isLastChunk d = false) :
    upToLast isLastChunk l = l := by
  induction l with
  | nil => rfl
  | cons data rest ih =>
      obtain ⟨hdata, hrest⟩ := List.forall_mem_cons.mp h
      rw [upToLast, hdata, ih hrest]
      rfl

theorem upToLast_append {before rest : List T} {data : T} (hdata : isLastChunk data = true)
    (h : ∀ d ∈ before, isLastChunk d = false) :
    upToLast isLastChunk (before ++ data :: rest) = before ++ [data] := by
  induction before with
  | nil => simp [upToLast, hdata]
  | cons first before ih =>
      obtain ⟨hfirst, hbefore⟩ := List.forall_mem_cons.mp h
      rw [List.cons_append, upToLast, hfirst, ih hbefore]
      rfl

/-! ## The producer -/

/-- Where the producer stands when it has pushed `k` of its `n` chunks. -/
def Preparation.At (n : ℕ) (chunk : ℕ → T) (k : ℕ) : Preparation T → Prop
  | .more | .unlock | .notify => k ≤ n
  | .prepare => k < n
  | .lock data | .push data => k < n ∧ data = chunk k
  | .returned => k = n

/-- What has been pushed is the first chunks. -/
structure Prepared (n : ℕ) (chunk : ℕ → T) (s : St T) : Prop where
  pushed : s.pushed = (List.range s.pushed.length).map chunk
  place : s.preparation.At n chunk s.pushed.length

/-- The steps the producer has left, with those of the consumer that they lead to, where it has
    `r` chunks left. -/
def Preparation.left (r : ℕ) : Preparation T → ℕ
  | .more => 15 * r + 1
  | .prepare => 15 * r
  | .lock _ => 15 * r - 1
  | .push _ => 15 * r - 2
  | .unlock => 15 * r + 6
  | .notify => 15 * r + 5
  | .returned => 0

/-- The steps the consumer has left on an empty queue. -/
def Processing.left : Processing T → ℕ
  | .lock | .woken => 3
  | .test => 2
  | .sleep | .front => 1
  | .asleep | .pop _ | .returned => 0
  | .unlock _ => 5
  | .process _ => 4

/-- The steps that are left; each chunk in the queue is six of the consumer. -/
def stepsLeft (n : ℕ) (s : St T) : ℕ :=
  s.preparation.left (n - s.pushed.length) + s.processing.left + 6 * s.data_queue.length

theorem left_notified (pc : Processing T) : pc.notified.left ≤ pc.left + 3 := by
  cases pc <;> simp [Processing.notified, Processing.left]

theorem goes_preparation (h : Prepared n chunk s) (hs : stepPreparation s = some s') :
    Prepared n chunk s' ∧ stepsLeft n s' < stepsLeft n s := by
  obtain ⟨hpushed, hplace⟩ := h
  unfold stepPreparation at hs
  split at hs
  · next data hp =>
      split at hs
      · rw [hp] at hplace
        cases hs
        refine ⟨⟨hpushed, hplace⟩, ?_⟩
        obtain ⟨hlt, -⟩ := hplace
        simp only [stepsLeft, hp, Preparation.left]
        omega
      · cases hs
  · next data hp =>
      rw [hp] at hplace
      cases hs
      obtain ⟨hlt, rfl⟩ := hplace
      refine ⟨⟨?_, ?_⟩, ?_⟩
      · simp only [List.length_append, List.length_singleton, List.range_succ, List.map_append,
          List.map_singleton]
        rw [← hpushed]
      · simp only [List.length_append, List.length_singleton]
        exact hlt
      · simp only [stepsLeft, hp, Preparation.left, List.length_append, List.length_singleton]
        omega
  · next hp =>
      rw [hp] at hplace
      cases hs
      refine ⟨⟨hpushed, hplace⟩, ?_⟩
      simp only [stepsLeft, hp, Preparation.left]
      omega
  · next hp =>
      rw [hp] at hplace
      cases hs
      refine ⟨⟨hpushed, hplace⟩, ?_⟩
      have hle := left_notified s.processing
      simp only [stepsLeft, hp, Preparation.left]
      omega
  · cases hs

/-- A statement of the consumer leaves the producer as it is. -/
theorem processing_frame (hs : stepProcessing isLastChunk s = some s') :
    s'.preparation = s.preparation ∧ s'.pushed = s.pushed := by
  unfold stepProcessing at hs
  cases hp : s.processing with
  | lock | woken =>
      simp only [hp] at hs
      split at hs <;> cases hs
      exact ⟨rfl, rfl⟩
  | front | pop =>
      simp only [hp] at hs
      split at hs <;> cases hs
      exact ⟨rfl, rfl⟩
  | test | sleep | unlock | process =>
      simp only [hp] at hs
      cases hs
      exact ⟨rfl, rfl⟩
  | asleep | returned =>
      simp only [hp] at hs
      cases hs

theorem processing_left (hs : stepProcessing isLastChunk s = some s') :
    s'.processing.left + 6 * s'.data_queue.length <
      s.processing.left + 6 * s.data_queue.length := by
  unfold stepProcessing at hs
  cases hp : s.processing with
  | lock | woken =>
      simp only [hp] at hs
      split at hs <;> cases hs
      simp only [Processing.left]
      omega
  | test =>
      simp only [hp] at hs
      cases hs
      cases hq : s.data_queue <;> simp [Processing.left]
  | front =>
      simp only [hp] at hs
      split at hs <;> cases hs
      simp [Processing.left]
  | pop data =>
      simp only [hp] at hs
      split at hs
      · cases hs
      · next hq =>
          cases hs
          simp only [Processing.left, hq, List.length_cons]
          omega
  | process data =>
      simp only [hp] at hs
      cases hs
      cases isLastChunk data <;> simp [Processing.left]
  | sleep | unlock =>
      simp only [hp] at hs
      cases hs
      simp [Processing.left]
  | asleep | returned =>
      simp only [hp] at hs
      cases hs

theorem goes_processing (h : Prepared n chunk s) (hs : stepProcessing isLastChunk s = some s') :
    Prepared n chunk s' ∧ stepsLeft n s' < stepsLeft n s := by
  obtain ⟨hpushed, hplace⟩ := h
  obtain ⟨hpreparation, hsame⟩ := processing_frame hs
  have hlt := processing_left hs
  refine ⟨⟨?_, ?_⟩, ?_⟩
  · rw [hsame]
    exact hpushed
  · rw [hpreparation, hsame]
    exact hplace
  · unfold stepsLeft
    rw [hpreparation, hsame]
    omega

/-- Every step keeps what the producer has made so far, and leaves less to do. -/
theorem goes (h : Prepared (c - 1).toNat chunk s) (hg : Feeds c chunk s a)
    (hs : (sys isLastChunk).step s a = some s') :
    Prepared (c - 1).toNat chunk s' ∧ stepsLeft (c - 1).toNat s' < stepsLeft (c - 1).toNat s := by
  cases a with
  | preparation => exact goes_preparation h hs
  | processing => exact goes_processing h hs
  | spurious => exact hg.elim
  | more b =>
      obtain ⟨hpushed, hplace⟩ := h
      simp only [sys, step] at hs
      cases hp : s.preparation with
      | more =>
          rw [hp] at hplace
          simp only [hp] at hs
          cases hs
          have hb := thereIsMoreData_iff hplace
          rw [← show b = _ from hg] at hb
          cases b with
          | true =>
              have hlt := hb.mp rfl
              refine ⟨⟨hpushed, hlt⟩, ?_⟩
              simp [stepsLeft, hp, Preparation.left]
          | false =>
              have hge : ¬ s.pushed.length < (c - 1).toNat := fun hlt => nomatch hb.mpr hlt
              refine ⟨⟨hpushed, Nat.le_antisymm hplace (Nat.le_of_not_lt hge)⟩, ?_⟩
              simp [stepsLeft, hp, Preparation.left]
      | _ => simp [hp] at hs
  | prepare data =>
      obtain ⟨hpushed, hplace⟩ := h
      simp only [sys, step] at hs
      cases hp : s.preparation with
      | prepare =>
          rw [hp] at hplace
          simp only [hp] at hs
          cases hs
          refine ⟨⟨hpushed, hplace, hg⟩, ?_⟩
          have hlt : s.pushed.length < (c - 1).toNat := hplace
          simp only [stepsLeft, hp, Preparation.left]
          omega
      | _ => simp [hp] at hs

/-! ## The end -/

/-- All chunks are pushed, and processed up to the first last one. -/
structure Done (isLastChunk : T → Bool) (chunks : List T) (s : St T) : Prop where
  preparation : s.preparation = .returned
  pushed : s.pushed = chunks
  processed : s.processed = upToLast isLastChunk chunks
  processing : s.processing = if chunks.any isLastChunk then .returned else .asleep

/-- Nobody holds `mtx` where nobody can go on. -/
theorem free_of_halted (hi : Inv isLastChunk s)
    (hend : ∀ a, Feeds c chunk s a → (sys isLastChunk).step s a = none) : s.owner = none := by
  have hpreparation := hend .preparation trivial
  have hprocessing := hend .processing trivial
  simp only [sys, step, stepPreparation, stepProcessing] at hpreparation hprocessing
  cases ho : s.owner with
  | none => rfl
  | some side =>
      cases side with
      | preparation =>
          have hholds := hi.preparationOwns.mpr ho
          cases hp : s.preparation <;> simp_all [Preparation.holds]
      | processing =>
          have hholds := hi.processingOwns.mpr ho
          have hseen := hi.seen
          cases hp : s.processing with
          | front =>
              rw [hp] at hseen hprocessing
              obtain ⟨data, rest, hq⟩ := List.exists_cons_of_ne_nil hseen
              simp [hq] at hprocessing
          | pop data =>
              rw [hp] at hseen hprocessing
              obtain ⟨rest, hq⟩ := hseen
              simp [hq] at hprocessing
          | _ => simp_all [Processing.holds]

theorem done_of_halted (hi : Inv isLastChunk s) (h : Prepared (c - 1).toNat chunk s)
    (hend : ∀ a, Feeds c chunk s a → (sys isLastChunk).step s a = none) :
    Done isLastChunk (chunks c chunk) s := by
  have hfree := free_of_halted hi hend
  have hpreparation : s.preparation = .returned := by
    have hrun := hend .preparation trivial
    have hmore := hend (.more _) rfl
    have hprepare := hend (.prepare _) rfl
    simp only [sys, step, stepPreparation] at hrun hmore hprepare
    cases hp : s.preparation <;> simp_all
  have hlength : s.pushed.length = (c - 1).toNat := by
    have hplace := h.place
    rw [hpreparation] at hplace
    exact hplace
  have hpushed : s.pushed = chunks c chunk := by
    rw [h.pushed, hlength]
    rfl
  have hrun := hend .processing trivial
  simp only [sys, step, stepProcessing] at hrun
  have hbooks := hi.books
  have hended := hi.ended
  cases hp : s.processing with
  | returned =>
      rw [hp] at hbooks hended
      obtain ⟨before, data, hprocessed, hdata, hbefore⟩ := hended
      simp only [Processing.inHand, List.append_nil] at hbooks
      have hchunks : chunks c chunk = before ++ data :: s.data_queue := by
        rw [← hpushed, hbooks, hprocessed, List.append_assoc, List.singleton_append]
      refine ⟨hpreparation, hpushed, ?_, ?_⟩
      · rw [hprocessed, hchunks, upToLast_append hdata hbefore]
      · rw [hp, hchunks]
        simp [hdata]
  | asleep =>
      rw [hp] at hbooks hended
      -- beside a chunk it would be about to be notified
      have hqueue : s.data_queue = [] := by
        by_contra hq
        rcases hi.window hp hq with hu | hn
        · rw [hpreparation] at hu
          cases hu
        · rw [hpreparation] at hn
          cases hn
      have hprocessed : s.processed = chunks c chunk := by
        rw [← hpushed, hbooks, hqueue]
        simp [Processing.inHand]
      have hnone : ∀ d ∈ chunks c chunk, isLastChunk d = false := by
        rw [← hprocessed]
        exact hended
      refine ⟨hpreparation, hpushed, ?_, ?_⟩
      · rw [hprocessed, upToLast_eq_self hnone]
      · rw [hp, if_neg]
        simpa using hnone
  | lock | woken => simp [hp, hfree] at hrun
  | test | sleep | unlock | process => simp [hp] at hrun
  | front | pop =>
      have hholds := hi.processingOwns.mp (by rw [hp]; rfl)
      rw [hfree] at hholds
      cases hholds

/-- **Both threads come to their ends.** Without spurious wake-ups, whatever the scheduler does,
    they make no more than 15 steps for each chunk and 4 more. When none can go on, all chunks
    have been pushed, the consumer has processed them up to the first last chunk, and it has
    returned, or sleeps if none of them is last. -/
theorem both_end [DecidableEq T] (isLastChunk : T → Bool) (c : UInt32) (chunk : ℕ → T) :
    (sys isLastChunk).Finishes (Feeds c chunk) (Done isLastChunk (chunks c chunk))
      (15 * (c - 1).toNat + 4) initial := by
  have hleft : stepsLeft (c - 1).toNat (initial : St T) = 15 * (c - 1).toNat + 4 := by
    simp [stepsLeft, initial, Preparation.left, Processing.left]
  rw [← hleft]
  refine Lts.finishes_of_measure
    (P := fun s => (sys isLastChunk).Reachable s ∧ Prepared (c - 1).toNat chunk s)
    (fun s a s' hs hg hstep => ?_) (fun s hs hend => ?_) ⟨.start rfl, rfl, Nat.zero_le _⟩
  · obtain ⟨hprepared, hlt⟩ := goes hs.2 hg hstep
    exact ⟨⟨.next hs.1 trivial hstep, hprepared⟩, hlt⟩
  · exact done_of_halted (inv_reach hs.1) hs.2 hend

/-- The program of the source: three chunks are made, and the first one is last. -/
example (chunk : ℕ → ℕ) (s : St ℕ) (h : Done (fun _ => true) (chunks 4 chunk) s) :
    s.pushed.length = 3 ∧ s.processed = [chunk 0] ∧ s.processing = .returned :=
  ⟨by rw [h.pushed]; rfl, h.processed, h.processing⟩

end CppConcurrency.ConditionVariable
