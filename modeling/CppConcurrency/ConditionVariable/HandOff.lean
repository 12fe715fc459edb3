/-
  The hand-off of condition_variable.cpp.

  `Inv` holds in every reachable state: the owner of `mtx` agrees with where the threads
  stand; what was pushed is what was processed, what the consumer has taken out, and what
  is queued, in this order; what the consumer has seen of the queue under the lock is still
  so; a consumer that sleeps on a queue that is not empty is about to be notified; and only
  the chunk processed last, if any, is a last chunk.

  A sleeping consumer is un-notified from the push on, not only from the unlock on: between
  data_queue.push and the end of the scope the producer still holds `mtx`. So the window
  in which it sleeps beside a chunk is from the push to the notify_one.
-/
import CppConcurrency.ConditionVariable.Model
import Mathlib.Data.Nat.Notation

namespace CppConcurrency.ConditionVariable

open Concur

variable {T : Type*} {isLastChunk : T → Bool}

/-- The steps, one case for each statement. -/
inductive Moves (isLastChunk : T → Bool) (s : St T) : St T → Prop
  | more (b : Bool) (h : s.preparation = .more) :
      Moves isLastChunk s { s with preparation := if b then .prepare else .returned }
  | prepare (data : T) (h : s.preparation = .prepare) :
      Moves isLastChunk s { s with preparation := .lock data }
  | lockPreparation (data : T) (h : s.preparation = .lock data) (ho : s.owner = none) :
      Moves isLastChunk s { s with preparation := .push data, owner := some .preparation }
  | push (data : T) (h : s.preparation = .push data) :
      Moves isLastChunk s { s with
        preparation := .unlock
        data_queue := s.data_queue ++ [data]
        pushed := s.pushed ++ [data] }
  | unlockPreparation (h : s.preparation = .unlock) :
      Moves isLastChunk s { s with preparation := .notify, owner := none }
  | notify (h : s.preparation = .notify) :
      Moves isLastChunk s { s with
        preparation := .more
        processing := s.processing.notified }
  | lockProcessing (h : s.processing = .lock ∨ s.processing = .woken) (ho : s.owner = none) :
      Moves isLastChunk s { s with processing := .test, owner := some .processing }
  | testEmpty (h : s.processing = .test) (hq : s.data_queue = []) :
      Moves isLastChunk s { s with processing := .sleep }
  | testFull (h : s.processing = .test) (hq : s.data_queue ≠ []) :
      Moves isLastChunk s { s with processing := .front }
  | sleep (h : s.processing = .sleep) :
      Moves isLastChunk s { s with processing := .asleep, owner := none }
  | spurious (h : s.processing = .asleep) : Moves isLastChunk s { s with processing := .woken }
  | front (data : T) (rest : List T) (h : s.processing = .front)
      (hq : s.data_queue = data :: rest) : Moves isLastChunk s { s with processing := .pop data }
  | pop (data first : T) (rest : List T) (h : s.processing = .pop data)
      (hq : s.data_queue = first :: rest) :
      Moves isLastChunk s { s with processing := .unlock data, data_queue := rest }
  | unlockProcessing (data : T) (h : s.processing = .unlock data) :
      Moves isLastChunk s { s with processing := .process data, owner := none }
  | process (data : T) (h : s.processing = .process data) :
      Moves isLastChunk s { s with
        processing := if isLastChunk data then .returned else .lock
        processed := s.processed ++ [data] }

theorem moves_of_preparation {s s' : St T} (h : stepPreparation s = some s') :
    Moves isLastChunk s s' := by
  unfold stepPreparation at h
  split at h
  · next data hp =>
      split at h
      · next ho =>
          cases h
          exact .lockPreparation data hp ho
      · cases h
  · next data hp =>
      cases h
      exact .push data hp
  · next hp =>
      cases h
      exact .unlockPreparation hp
  · next hp =>
      cases h
      exact .notify hp
  · cases h

theorem moves_of_processing {s s' : St T} (h : stepProcessing isLastChunk s = some s') :
    Moves isLastChunk s s' := by
  unfold stepProcessing at h
  split at h
  · next hp =>
      split at h
      · next ho =>
          cases h
          exact .lockProcessing (Or.inl hp) ho
      · cases h
  · next hp =>
      cases h
      by_cases hq : s.data_queue.isEmpty = true
      · rw [if_pos hq]
        exact .testEmpty hp (List.isEmpty_iff.mp hq)
      · rw [if_neg hq]
        exact .testFull hp fun he => hq (List.isEmpty_iff.mpr he)
  · next hp =>
      cases h
      exact .sleep hp
  · next hp =>
      split at h
      · next ho =>
          cases h
          exact .lockProcessing (Or.inr hp) ho
      · cases h
  · next hp =>
      split at h
      · cases h
      · next data rest hq =>
          cases h
          exact .front data rest hp hq
  · next data hp =>
      split at h
      · cases h
      · next first rest hq =>
          cases h
          exact .pop data first rest hp hq
  · next data hp =>
      cases h
      exact .unlockProcessing data hp
  · next data hp =>
      cases h
      exact .process data hp
  · cases h

/-- Every step is one of these. -/
theorem moves_of_step {s s' : St T} {a : Act T} (h : step isLastChunk s a = some s') :
    Moves isLastChunk s s' := by
  unfold step at h
  split at h
  · next b =>
      split at h
      · next hp =>
          cases h
          refine .more b ?_
          revert hp
          cases s.preparation <;> simp
      · cases h
  · next data =>
      split at h
      · next hp =>
          cases h
          refine .prepare data ?_
          revert hp
          cases s.preparation <;> simp
      · cases h
  · exact moves_of_preparation h
  · exact moves_of_processing h
  · split at h
    · next hp =>
        cases h
        refine .spurious ?_
        revert hp
        cases s.processing <;> simp
    · cases h

/-! ## The invariant -/

/-- The chunk that the consumer has taken out of the queue and not yet processed. -/
def Processing.inHand : Processing T → List T
  | .unlock data => [data]
  | .process data => [data]
  | _ => []

/-- What the consumer knows about the queue while it holds `mtx`. -/
def Processing.Seen (q : List T) : Processing T → Prop
  | .sleep => q = []
  | .front => q ≠ []
  | .pop data => ∃ rest, q = data :: rest
  | _ => True

/-- The consumer has returned after a last chunk, and has met none before. -/
def Ended (isLastChunk : T → Bool) (processed : List T) : Processing T → Prop
  | .returned => ∃ before data, processed = before ++ [data] ∧ isLastChunk data = true ∧
      ∀ d ∈ before, isLastChunk d = false
  | _ => ∀ d ∈ processed, isLastChunk d = false

structure Inv (isLastChunk : T → Bool) (s : St T) : Prop where
  preparationOwns : s.preparation.holds = true ↔ s.owner = some .preparation
  processingOwns : s.processing.holds = true ↔ s.owner = some .processing
  books : s.pushed = s.processed ++ s.processing.inHand ++ s.data_queue
  seen : s.processing.Seen s.data_queue
  window : s.processing = .asleep → s.data_queue ≠ [] →
    s.preparation = .unlock ∨ s.preparation = .notify
  ended : Ended isLastChunk s.processed s.processing

theorem inv_initial : Inv isLastChunk (initial : St T) where
  preparationOwns := by simp [initial, Preparation.holds]
  processingOwns := by simp [initial, Processing.holds]
  books := rfl
  seen := trivial
  window h := by cases h
  ended _ h := by cases h

/-- Who holds `mtx` keeps the other out. -/
theorem Inv.free_of_preparation {s : St T} (hi : Inv isLastChunk s)
    (h : s.preparation.holds = true) : s.processing.holds = false := by
  have ho := hi.preparationOwns.mp h
  by_contra hc
  have hc' := hi.processingOwns.mp ((Bool.not_eq_false _).mp hc)
  rw [ho] at hc'
  cases hc'

/-- A consumer that does not hold `mtx` relies on nothing about the queue. -/
theorem seen_of_not_holds {pc : Processing T} (h : pc.holds = false) (q : List T) :
    pc.Seen q := by
  cases pc <;> trivial

/-- A wake-up changes neither what the consumer holds nor what it has in hand. -/
theorem notified_cases (pc : Processing T) :
    pc.notified = pc ∧ pc ≠ .asleep ∨ pc = .asleep ∧ pc.notified = .woken := by
  cases pc <;> simp [Processing.notified]

theorem inv_notify {s : St T} (hi : Inv isLastChunk s) (h : s.preparation = .notify) :
    Inv isLastChunk { s with preparation := .more, processing := s.processing.notified } := by
  have hown : s.owner ≠ some .preparation := by
    intro ho
    have := hi.preparationOwns.mpr ho
    rw [h] at this
    cases this
  have hprep : (Preparation.more : Preparation T).holds = true ↔ s.owner = some .preparation :=
    ⟨fun hm => (by cases hm), fun ho => absurd ho hown⟩
  rcases notified_cases s.processing with ⟨hsame, hne⟩ | ⟨hasleep, hwoken⟩
  · rw [hsame]
    exact { hi with
      preparationOwns := hprep
      window := fun ha => absurd ha hne }
  · obtain ⟨-, hpo, hb, -, -, he⟩ := hi
    rw [hasleep] at hpo hb he
    rw [hwoken]
    exact ⟨hprep, hpo, hb, trivial, fun ha => (by cases ha), he⟩

/-- Every step keeps the invariant. -/
theorem inv_moves {s s' : St T} (hi : Inv isLastChunk s) (h : Moves isLastChunk s s') :
    Inv isLastChunk s' := by
  cases h with
  | more b h =>
      have hp := hi.preparationOwns
      have hw := hi.window
      rw [h] at hp hw
      refine { hi with preparationOwns := ?_, window := fun ha hq => ?_ }
      · rw [← hp]
        cases b <;> exact Iff.rfl
      · rcases hw ha hq with hc | hc <;> cases hc
  | prepare data h =>
      have hp := hi.preparationOwns
      have hw := hi.window
      rw [h] at hp hw
      refine { hi with preparationOwns := hp, window := fun ha hq => ?_ }
      rcases hw ha hq with hc | hc <;> cases hc
  | lockPreparation data h ho =>
      have hw := hi.window
      have hpo := hi.processingOwns
      rw [h] at hw
      rw [ho] at hpo
      refine { hi with
        preparationOwns := ⟨fun _ => rfl, fun _ => rfl⟩
        processingOwns := ⟨fun hc => (by cases hpo.mp hc), fun hc => (by cases hc)⟩
        window := fun ha hq => ?_ }
      rcases hw ha hq with hc | hc <;> cases hc
  | push data h =>
      have hp := hi.preparationOwns
      have hb := hi.books
      rw [h] at hp
      have hfree := hi.free_of_preparation (by rw [h]; rfl)
      refine { hi with
        preparationOwns := hp
        books := ?_
        seen := seen_of_not_holds hfree _
        window := fun _ _ => Or.inl rfl }
      dsimp only
      rw [hb]
      simp only [List.append_assoc]
  | unlockPreparation h =>
      have hpo := hi.processingOwns
      have hfree := hi.free_of_preparation (by rw [h]; rfl)
      rw [hfree] at hpo
      refine { hi with
        preparationOwns := ⟨fun hc => (by cases hc), fun hc => (by cases hc)⟩
        processingOwns := ?_
        window := fun _ _ => Or.inr rfl }
      dsimp only
      rw [hfree]
      exact ⟨fun hc => (by cases hc), fun hc => (by cases hc)⟩
  | notify h => exact inv_notify hi h
  | lockProcessing h ho =>
      have hp := hi.preparationOwns
      have hb := hi.books
      have he := hi.ended
      rw [ho] at hp
      have hbooks : s.pushed = s.processed ++ [] ++ s.data_queue := by
        rcases h with h | h <;> (rw [h] at hb; exact hb)
      have hended : ∀ d ∈ s.processed, isLastChunk d = false := by
        rcases h with h | h <;> (rw [h] at he; exact he)
      exact ⟨⟨fun hc => (by cases hp.mp hc), fun hc => (by cases hc)⟩,
        ⟨fun _ => rfl, fun _ => rfl⟩, hbooks, trivial, fun ha => (by cases ha), hended⟩
  | testEmpty h hq =>
      obtain ⟨hp, hpo, hb, -, -, he⟩ := hi
      rw [h] at hpo hb he
      exact ⟨hp, hpo, hb, hq, fun ha => (by cases ha), he⟩
  | testFull h hq =>
      obtain ⟨hp, hpo, hb, -, -, he⟩ := hi
      rw [h] at hpo hb he
      exact ⟨hp, hpo, hb, hq, fun ha => (by cases ha), he⟩
  | sleep h =>
      obtain ⟨hp, hpo, hb, hs, -, he⟩ := hi
      rw [h] at hpo hb hs he
      have hown := hpo.mp rfl
      rw [hown] at hp
      exact ⟨⟨fun hc => (by cases hp.mp hc), fun hc => (by cases hc)⟩,
        ⟨fun hc => (by cases hc), fun hc => (by cases hc)⟩, hb, trivial,
        fun _ hq => absurd hs hq, he⟩
  | spurious h =>
      obtain ⟨hp, hpo, hb, -, -, he⟩ := hi
      rw [h] at hpo hb he
      exact ⟨hp, hpo, hb, trivial, fun ha => (by cases ha), he⟩
  | front data rest h hq =>
      obtain ⟨hp, hpo, hb, -, -, he⟩ := hi
      rw [h] at hpo hb he
      exact ⟨hp, hpo, hb, ⟨rest, hq⟩, fun ha => (by cases ha), he⟩
  | pop data first rest h hq =>
      obtain ⟨hp, hpo, hb, hs, -, he⟩ := hi
      rw [h] at hpo hb hs he
      obtain ⟨rest', hs⟩ := hs
      rw [hq] at hs
      obtain ⟨rfl, rfl⟩ := List.cons.inj hs
      refine ⟨hp, hpo, ?_, trivial, fun ha => (by cases ha), he⟩
      rw [hb, hq]
      simp [Processing.inHand]
  | unlockProcessing data h =>
      obtain ⟨hp, hpo, hb, -, -, he⟩ := hi
      rw [h] at hpo hb he
      have hown := hpo.mp rfl
      rw [hown] at hp
      exact ⟨⟨fun hc => (by cases hp.mp hc), fun hc => (by cases hc)⟩,
        ⟨fun hc => (by cases hc), fun hc => (by cases hc)⟩, hb, trivial,
        fun ha => (by cases ha), he⟩
  | process data h =>
      obtain ⟨hp, hpo, hb, -, -, he⟩ := hi
      rw [h] at hpo hb he
      by_cases hl : isLastChunk data = true
      · rw [if_pos hl]
        refine ⟨hp, hpo, ?_, trivial, fun ha => (by cases ha), s.processed, data, rfl, hl, he⟩
        rw [hb]
        simp [Processing.inHand]
      · rw [if_neg hl]
        refine ⟨hp, hpo, ?_, trivial, fun ha => (by cases ha), ?_⟩
        · rw [hb]
          simp [Processing.inHand]
        · intro d hd
          rcases List.mem_append.mp hd with hd | hd
          · exact he d hd
          · rw [List.mem_singleton.mp hd]
            exact (Bool.not_eq_true _).mp hl

/-- The invariant holds in every reachable state. -/
theorem inv_reach {s : St T} (h : (sys isLastChunk).Reachable s) : Inv isLastChunk s := by
  refine h.invariant ?_ ?_
  · rintro s rfl
    exact inv_initial
  · intro s a s' _ hi _ hstep
    exact inv_moves hi (moves_of_step hstep)

/-! ## The hand-off -/

/-- The consumer has returned exactly when the chunk processed last is a last chunk. -/
theorem returned_iff {processed : List T} {pc : Processing T}
    (h : Ended isLastChunk processed pc) :
    pc = .returned ↔ ∃ data, processed.getLast? = some data ∧ isLastChunk data = true := by
  constructor
  · rintro rfl
    obtain ⟨before, data, rfl, hl, -⟩ := h
    exact ⟨data, List.getLast?_concat, hl⟩
  · rintro ⟨data, hlast, hl⟩
    by_contra hne
    have hall : ∀ d ∈ processed, isLastChunk d = false := by
      cases pc <;> first | exact absurd rfl hne | exact h
    rw [hall data (List.mem_of_getLast? hlast)] at hl
    cases hl

theorem none_before {processed : List T} {pc : Processing T} (h : Ended isLastChunk processed pc) :
    ∀ d ∈ processed.dropLast, isLastChunk d = false := by
  intro d hd
  cases pc with
  | returned =>
      obtain ⟨before, data, rfl, -, hbefore⟩ := h
      rw [List.dropLast_concat] at hd
      exact hbefore d hd
  | _ => exact h d (List.dropLast_subset processed hd)

/-- In every reachable state: what was processed is a prefix of what was pushed; the queue
    is not empty where its front is read; the consumer has returned exactly when it has
    processed a last chunk, and has processed none before; and if it sleeps un-notified
    beside a chunk, the producer stands between its push and its notify_one, and past its
    unlock if `mtx` is free. -/
theorem hand_off {s : St T} (h : (sys isLastChunk).Reachable s) :
    s.processed <+: s.pushed ∧
    (s.processing = .front → s.data_queue ≠ []) ∧
    (s.processing = .returned ↔
      ∃ data, s.processed.getLast? = some data ∧ isLastChunk data = true) ∧
    (∀ data ∈ s.processed.dropLast, isLastChunk data = false) ∧
    (s.processing = .asleep → s.data_queue ≠ [] →
      (s.preparation = .unlock ∨ s.preparation = .notify) ∧
      (s.owner = none → s.preparation = .notify)) := by
  have hi := inv_reach h
  refine ⟨⟨s.processing.inHand ++ s.data_queue, ?_⟩, fun hf => ?_, returned_iff hi.ended,
    none_before hi.ended, fun ha hq => ⟨hi.window ha hq, fun ho => ?_⟩⟩
  · rw [hi.books, List.append_assoc]
  · have hs := hi.seen
    rw [hf] at hs
    exact hs
  · rcases hi.window ha hq with hu | hn
    · have hp := hi.preparationOwns
      rw [hu, ho] at hp
      cases hp.mp rfl
    · exact hn

/-- The consumer has gone to sleep on the empty queue, and the producer pushes a chunk. -/
def beforeUnlock : List (Act ℕ) :=
  [.processing, .processing, .processing, .more true, .prepare 7, .preparation, .preparation]

/-- The producer unlocks and notifies; the consumer wakes up and processes the chunk. -/
def handedOver : List (Act ℕ) :=
  beforeUnlock ++ [.preparation, .preparation, .processing, .processing, .processing,
    .processing, .processing, .processing]

theorem hand_off_handedOver :
    ∃ s, (sys fun _ : ℕ => true).exec Lts.anyStep initial handedOver = some s ∧
      s.processed = [7] ∧ s.processed <+: s.pushed ∧ s.processing = .returned := by
  have hreach : (sys fun _ : ℕ => true).Reachable _ :=
    Lts.Reach.exec (G := Lts.anyStep) handedOver (.start rfl) rfl
  exact ⟨_, rfl, rfl, (hand_off hreach).1, rfl⟩

/-- A consumer asleep un-notified beside a chunk, and a producer that has not unlocked. -/
theorem pushed_not_unlocked :
    ∃ s, (sys fun _ : ℕ => true).Reachable s ∧ s.processing = .asleep ∧
      s.data_queue ≠ [] ∧ s.preparation = .unlock ∧ s.owner = some .preparation :=
  ⟨_, Lts.Reach.exec (G := Lts.anyStep) beforeUnlock (.start rfl) rfl, rfl, by decide, rfl, rfl⟩

end CppConcurrency.ConditionVariable
