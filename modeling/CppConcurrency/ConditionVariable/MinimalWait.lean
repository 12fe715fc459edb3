/-
  minimal_wait of condition_variable.cpp against condition_variable::wait.

  Model. data_processing_thread waits in one of two ways (`Waiting`): with data_cond.wait, which
  releases `mtx` and goes to sleep in one step, and after a wake-up has to take `mtx` again; or
  with minimal_wait, which unlocks and locks. Everything else is the same statement in both.
  It shares its state, the queue and any other data, with any number of other threads of any
  kind: `others` says what a thread does next, from where it stands, what it sees of the shared
  state and what the environment chooses. They take and give back `mtx`, write the shared state
  while they hold it, and notify at any time. `pred` is any predicate over the shared state.

  Proved:
  * `minimal_wait_conforms`: minimal_wait evaluates `pred` and returns while `mtx` is held, and
    returns on `pred`; the sequences of processed chunks and the shared states on return are
    those of condition_variable::wait. In one direction every state of minimal_wait is a state
    of the sleeping version, with a spurious wake-up after each sleep; in the other the
    sleeping thread is one that stands before lk.lock().
  * `processed_iff`: data_preparation_thread is such an environment, so the program of the source
    processes the same sequences with minimal_wait.
-/
import CppConcurrency.ConditionVariable.HandOff

namespace CppConcurrency.ConditionVariable

open Concur

/-- The two ways to wait. -/
inductive Waiting where
  | condVar
  | minimal
  deriving DecidableEq, Repr

/-- Where the thread stands when it has released `mtx`: asleep, or before `lk.lock()`. -/
def Waiting.released {T : Type*} : Waiting → Processing T
  | .condVar => .asleep
  | .minimal => .woken

/-- The state under `mtx`: the queue, and whatever else is shared. -/
structure Shared (T D : Type*) where
  data_queue : List T
  rest : D

/-- What another thread does in a step, and where it stands after it. -/
inductive Deed (T D L : Type*) where
  | lock (l : L)
  | write (d : Shared T D) (l : L)
  | unlock (l : L)
  | notify (l : L)
  | other (l : L)

/-- Who may own `mtx`. -/
inductive Party (ι : Type*) where
  | processing
  | other (u : ι)
  deriving DecidableEq, Repr

structure WaitSt (ι L T D : Type*) where
  processing : Processing T
  others : ι → L
  owner : Option (Party ι)
  shared : Shared T D
  processed : List T

/-- Who moves, and what the environment chooses. -/
inductive WaitAct (ι B : Type*) where
  | processing
  | spurious
  | other (u : ι) (choice : B)

variable {ι L T D B : Type*}

/-- The next statement of data_processing_thread. -/
def processingStep (w : Waiting) (pred : Shared T D → Bool) (isLastChunk : T → Bool)
    (s : WaitSt ι L T D) : Option (WaitSt ι L T D) :=
  match s.processing with
  | .lock | .woken =>
      match s.owner with
      | none => some { s with processing := .test, owner := some .processing }
      | some _ => none
  | .test => some { s with processing := if pred s.shared then .front else .sleep }
  | .sleep => some { s with processing := w.released, owner := none }
  | .front =>
      match s.shared.data_queue with
      | [] => none
      | data :: _ => some { s with processing := .pop data }
  | .pop data =>
      match s.shared.data_queue with
      | [] => none
      | _ :: rest =>
          some { s with processing := .unlock data, shared := { s.shared with data_queue := rest } }
  | .unlock data => some { s with processing := .process data, owner := none }
  | .process data =>
      some { s with
        processing := if isLastChunk data then .returned else .lock
        processed := s.processed ++ [data] }
  | .asleep => none
  | .returned => none

section Step

variable [DecidableEq ι] (others : ι → L → Shared T D → B → Option (Deed T D L))
  (w : Waiting) (pred : Shared T D → Bool) (isLastChunk : T → Bool)

/-- Another thread's deed. The shared state is written, and `mtx` given back, by its owner. -/
def deedStep (s : WaitSt ι L T D) (u : ι) : Deed T D L → Option (WaitSt ι L T D)
  | .lock l =>
      match s.owner with
      | none => some { s with
          others := Function.update s.others u l
          owner := some (.other u) }
      | some _ => none
  | .write d l =>
      if s.owner = some (.other u) then
        some { s with others := Function.update s.others u l, shared := d }
      else none
  | .unlock l =>
      if s.owner = some (.other u) then
        some { s with others := Function.update s.others u l, owner := none }
      else none
  | .notify l =>
      some { s with
        processing := s.processing.notified
        others := Function.update s.others u l }
  | .other l => some { s with others := Function.update s.others u l }

def waitStep (s : WaitSt ι L T D) : WaitAct ι B → Option (WaitSt ι L T D)
  | .processing => processingStep w pred isLastChunk s
  | .spurious =>
      match s.processing with
      | .asleep => some { s with processing := .woken }
      | _ => none
  | .other u choice => (others u (s.others u) s.shared choice).bind (deedStep s u)

variable (l₀ : ι → L) (d₀ : Shared T D)

omit [DecidableEq ι] in
/-- data_processing_thread begins, the others stand at `l₀`, and the shared state is `d₀`. -/
def waitStart : WaitSt ι L T D where
  processing := .lock
  others := l₀
  owner := none
  shared := d₀
  processed := []

/-- data_processing_thread beside the other threads. -/
def waiting : Lts (WaitSt ι L T D) (WaitAct ι B) where
  init s := s = waitStart l₀ d₀
  step := waitStep others w pred isLastChunk

end Step

variable [DecidableEq ι] {others : ι → L → Shared T D → B → Option (Deed T D L)}
  {w : Waiting} {pred : Shared T D → Bool} {isLastChunk : T → Bool} {l₀ : ι → L}
  {d₀ : Shared T D} {s s' : WaitSt ι L T D}

/-! ## While the thread owns the mutex -/

/-- The thread owns `mtx` where it says so, and behind the wait `pred` is true. -/
structure Guarded (pred : Shared T D → Bool) (s : WaitSt ι L T D) : Prop where
  owns : s.processing.holds = true ↔ s.owner = some .processing
  returned : s.processing = .front → pred s.shared = true

omit [DecidableEq ι] in
theorem Guarded.owner (h : Guarded pred s) {pc : Processing T} (hpc : s.processing = pc)
    (hh : pc.holds = true) : s.owner = some .processing :=
  h.owns.mp (hpc ▸ hh)

omit [DecidableEq ι] in
theorem Guarded.not_holds (h : Guarded pred s) (ho : s.owner ≠ some .processing) :
    s.processing.holds ≠ true :=
  fun hh => ho (h.owns.mp hh)

omit [DecidableEq ι] in
theorem guarded_processing (h : Guarded pred s)
    (hs : processingStep w pred isLastChunk s = some s') : Guarded pred s' := by
  unfold processingStep at hs
  split at hs
  case h_1 | h_2 =>
    split at hs
    · cases hs
      exact ⟨⟨fun _ => rfl, fun _ => rfl⟩, nofun⟩
    · cases hs
  case h_3 hpc =>
    cases hs
    have ho := h.owner hpc rfl
    cases hp : pred s.shared with
    | true => exact ⟨⟨fun _ => ho, fun _ => rfl⟩, fun _ => hp⟩
    | false => exact ⟨⟨fun _ => ho, fun _ => rfl⟩, nofun⟩
  case h_4 hpc =>
    cases hs
    cases w <;> exact ⟨⟨nofun, nofun⟩, nofun⟩
  case h_5 hpc =>
    have ho := h.owner hpc rfl
    split at hs
    · cases hs
    · cases hs
      exact ⟨⟨fun _ => ho, fun _ => rfl⟩, nofun⟩
  case h_6 hpc =>
    have ho := h.owner hpc rfl
    split at hs
    · cases hs
    · cases hs
      exact ⟨⟨fun _ => ho, fun _ => rfl⟩, nofun⟩
  case h_7 hpc =>
    cases hs
    exact ⟨⟨nofun, nofun⟩, nofun⟩
  case h_8 data hpc =>
    cases hs
    have hown := h.owns
    rw [hpc] at hown
    cases isLastChunk data <;> exact ⟨hown, nofun⟩
  case h_9 => cases hs
  case h_10 => cases hs

theorem holds_notified (pc : Processing T) : pc.notified.holds = pc.holds := by
  cases pc <;> rfl

theorem notified_eq_front {pc : Processing T} (h : pc.notified = .front) : pc = .front := by
  cases pc <;> first | rfl | cases h

theorem guarded_deed {u : ι} {a : Deed T D L} (h : Guarded pred s)
    (hs : deedStep s u a = some s') : Guarded pred s' := by
  cases a with
  | lock l =>
      simp only [deedStep] at hs
      split at hs
      · next ho =>
          cases hs
          have hfree := h.not_holds (by simp [ho])
          exact ⟨⟨fun hh => absurd hh hfree, nofun⟩, h.returned⟩
      · cases hs
  | write d l =>
      simp only [deedStep] at hs
      split at hs
      · next ho =>
          cases hs
          refine ⟨h.owns, fun hf => ?_⟩
          have hp := h.owner hf rfl
          rw [ho] at hp
          cases hp
      · cases hs
  | unlock l =>
      simp only [deedStep] at hs
      split at hs
      · next ho =>
          cases hs
          have hfree := h.not_holds (by simp [ho])
          exact ⟨⟨fun hh => absurd hh hfree, nofun⟩, h.returned⟩
      · cases hs
  | notify l =>
      cases hs
      exact ⟨by rw [holds_notified]; exact h.owns, fun hf => h.returned (notified_eq_front hf)⟩
  | other l =>
      cases hs
      exact ⟨h.owns, h.returned⟩

theorem guarded_reach (h : (waiting others w pred isLastChunk l₀ d₀).Reachable s) :
    Guarded pred s := by
  refine h.invariant ?_ ?_
  · rintro s rfl
    exact ⟨⟨nofun, nofun⟩, nofun⟩
  · intro s a s' _ hi _ hs
    cases a with
    | processing => exact guarded_processing hi hs
    | spurious =>
        simp only [waiting, waitStep] at hs
        split at hs
        · next hpc =>
            cases hs
            have hown := hi.owns
            rw [hpc] at hown
            exact ⟨hown, nofun⟩
        · cases hs
    | other u choice =>
        obtain ⟨a, -, ha⟩ := Option.bind_eq_some_iff.mp hs
        exact guarded_deed hi ha

/-! ## minimal_wait is a wait with a spurious wake-up after each sleep -/

omit [DecidableEq ι] in
/-- The two ways to wait differ in one statement. -/
theorem processingStep_congr (h : s.processing ≠ .sleep) :
    processingStep .minimal pred isLastChunk s = processingStep .condVar pred isLastChunk s := by
  unfold processingStep
  cases hpc : s.processing with
  | sleep => exact absurd hpc h
  | _ => rfl

theorem reachable_condVar
    (h : (waiting others .minimal pred isLastChunk l₀ d₀).Reachable s) :
    (waiting others .condVar pred isLastChunk l₀ d₀).Reachable s := by
  induction h with
  | start h => exact .start h
  | @next s s' a _ _ hs hr =>
      cases a with
      | processing =>
          by_cases hpc : s.processing = .sleep
          · -- falls asleep, and wakes up at once
            simp only [waiting, waitStep, processingStep, hpc] at hs
            cases hs
            have h1 : (waiting others .condVar pred isLastChunk l₀ d₀).step s .processing =
                some { s with processing := .asleep, owner := none } := by
              simp only [waiting, waitStep, processingStep, hpc, Waiting.released]
            exact .next (.next hr trivial h1) trivial (a := .spurious) rfl
          · refine .next hr trivial (a := .processing) ?_
            rw [← hs]
            exact (processingStep_congr hpc).symm
      | spurious => exact .next hr trivial (a := .spurious) hs
      | other u choice => exact .next hr trivial (a := .other u choice) hs

/-! ## A sleeping thread is one that stands before lk.lock() -/

/-- The state with the sleeping thread before `lk.lock()`. -/
def WaitSt.awake (s : WaitSt ι L T D) : WaitSt ι L T D :=
  { s with processing := s.processing.notified }

omit [DecidableEq ι] in
theorem awake_processing (hs : processingStep .condVar pred isLastChunk s = some s') :
    processingStep .minimal pred isLastChunk s.awake = some s'.awake := by
  unfold processingStep at hs
  unfold processingStep WaitSt.awake
  cases hpc : s.processing with
  | lock | woken =>
      simp only [hpc] at hs
      dsimp only [Processing.notified]
      split at hs
      · cases hs
        rfl
      · cases hs
  | test =>
      simp only [hpc] at hs
      cases hs
      dsimp only [Processing.notified]
      cases pred s.shared <;> rfl
  | sleep =>
      simp only [hpc] at hs
      cases hs
      rfl
  | front =>
      simp only [hpc] at hs
      dsimp only [Processing.notified]
      split at hs
      · cases hs
      · cases hs
        rfl
  | pop data =>
      simp only [hpc] at hs
      dsimp only [Processing.notified]
      split at hs
      · cases hs
      · cases hs
        rfl
  | unlock data =>
      simp only [hpc] at hs
      cases hs
      rfl
  | process data =>
      simp only [hpc] at hs
      cases hs
      dsimp only [Processing.notified]
      cases isLastChunk data <;> rfl
  | asleep | returned =>
      simp only [hpc] at hs
      cases hs

theorem awake_deed {u : ι} {a : Deed T D L} (hs : deedStep s u a = some s') :
    deedStep s.awake u a = some s'.awake := by
  cases a with
  | lock l =>
      simp only [deedStep] at hs
      split at hs
      · next ho =>
          cases hs
          simp only [deedStep, WaitSt.awake, ho]
      · cases hs
  | write d l | unlock l =>
      simp only [deedStep] at hs
      split at hs
      · next ho =>
          cases hs
          simp only [deedStep, WaitSt.awake, ho, if_true]
      · cases hs
  | notify l | other l =>
      cases hs
      rfl

theorem reachable_minimal
    (h : (waiting others .condVar pred isLastChunk l₀ d₀).Reachable s) :
    (waiting others .minimal pred isLastChunk l₀ d₀).Reachable s.awake := by
  suffices hsim : ∃ t, (waiting others .minimal pred isLastChunk l₀ d₀).Reachable t ∧
      t = s.awake by
    obtain ⟨t, ht, rfl⟩ := hsim
    exact ht
  refine Lts.Reach.simulate (R := fun s t => t = WaitSt.awake s) ?_ ?_ h
  · rintro s rfl
    exact ⟨_, .start rfl, rfl⟩
  · rintro s a s' t ht rfl hs
    cases a with
    | processing => exact ⟨_, .next ht trivial (a := .processing) (awake_processing hs), rfl⟩
    | spurious =>
        simp only [waiting, waitStep] at hs
        split at hs
        · next hpc =>
            cases hs
            refine ⟨_, ht, ?_⟩
            simp only [WaitSt.awake, hpc, Processing.notified]
        · cases hs
    | other u choice =>
        obtain ⟨a, hd, ha⟩ := Option.bind_eq_some_iff.mp hs
        refine ⟨_, .next ht trivial (a := .other u choice) ?_, rfl⟩
        exact Option.bind_eq_some_iff.mpr ⟨a, hd, awake_deed ha⟩

/-- **minimal_wait conforms to condition_variable::wait.** For any other threads that write the
    shared state only while they own `mtx`, any predicate and any start: minimal_wait evaluates
    the predicate only while `mtx` is owned, and returns with it owned and the predicate true;
    and data_processing_thread reaches the same sequences of processed chunks, and the same
    shared states on return from the wait, with minimal_wait as with data_cond.wait. -/
theorem minimal_wait_conforms (others : ι → L → Shared T D → B → Option (Deed T D L))
    (pred : Shared T D → Bool) (isLastChunk : T → Bool) (l₀ : ι → L) (d₀ : Shared T D) :
    (∀ s, (waiting others .minimal pred isLastChunk l₀ d₀).Reachable s →
      (s.processing = .test → s.owner = some .processing) ∧
      (s.processing = .front → s.owner = some .processing ∧ pred s.shared = true)) ∧
    (∀ chunks : List T,
      (∃ s, (waiting others .minimal pred isLastChunk l₀ d₀).Reachable s ∧
        s.processed = chunks) ↔
      ∃ s, (waiting others .condVar pred isLastChunk l₀ d₀).Reachable s ∧
        s.processed = chunks) ∧
    ∀ d : Shared T D,
      (∃ s, (waiting others .minimal pred isLastChunk l₀ d₀).Reachable s ∧
        s.processing = .front ∧ s.shared = d) ↔
      ∃ s, (waiting others .condVar pred isLastChunk l₀ d₀).Reachable s ∧
        s.processing = .front ∧ s.shared = d := by
  refine ⟨fun s hs => ?_, fun chunks => ⟨?_, ?_⟩, fun d => ⟨?_, ?_⟩⟩
  · have hg := guarded_reach hs
    exact ⟨fun hpc => hg.owner hpc rfl, fun hpc => ⟨hg.owner hpc rfl, hg.returned hpc⟩⟩
  · rintro ⟨s, hs, hp⟩
    exact ⟨s, reachable_condVar hs, hp⟩
  · rintro ⟨s, hs, hp⟩
    exact ⟨s.awake, reachable_minimal hs, hp⟩
  · rintro ⟨s, hs, hpc, hd⟩
    exact ⟨s, reachable_condVar hs, hpc, hd⟩
  · rintro ⟨s, hs, hpc, hd⟩
    refine ⟨s.awake, reachable_minimal hs, ?_, hd⟩
    simp only [WaitSt.awake, hpc, Processing.notified]

/-! ## data_preparation_thread as the other thread -/

/-- What the environment chooses for data_preparation_thread. -/
inductive Answer (T : Type*) where
  | more (b : Bool)
  | prepare (data : T)
  | go

/-- The statements of data_preparation_thread. -/
def preparationThread (_ : Unit) (pc : Preparation T) (d : Shared T Unit) :
    Answer T → Option (Deed T Unit (Preparation T))
  | .more b =>
      match pc with
      | .more => some (.other (if b then .prepare else .returned))
      | _ => none
  | .prepare data =>
      match pc with
      | .prepare => some (.other (.lock data))
      | _ => none
  | .go =>
      match pc with
      | .lock data => some (.lock (.push data))
      | .push data => some (.write { d with data_queue := d.data_queue ++ [data] } .unlock)
      | .unlock => some (.unlock .notify)
      | .notify => some (.notify .more)
      | _ => none

/-- The lambda of data_processing_thread. -/
def queueNotEmpty (d : Shared T Unit) : Bool := !d.data_queue.isEmpty

/-- The program of the source, with either way to wait. -/
def program (w : Waiting) (isLastChunk : T → Bool) :
    Lts (WaitSt Unit (Preparation T) T Unit) (WaitAct Unit (Answer T)) :=
  waiting preparationThread w queueNotEmpty isLastChunk (fun _ => .more) ⟨[], ()⟩

/-- The thread finds the queue empty and unlocks; when it has locked again a chunk is there. -/
def unlockedOnce : List (WaitAct Unit (Answer ℕ)) :=
  [.processing, .processing, .processing, .other () (.more true), .other () (.prepare 7),
    .other () .go, .other () .go, .other () .go, .processing, .processing, .processing,
    .processing, .processing, .processing]

theorem minimal_wait_conforms_unlockedOnce :
    ∃ s, (program .minimal fun _ : ℕ => true).Reachable s ∧ s.processed = [7] ∧
      s.processing = .returned ∧
      ∃ s', (program .condVar fun _ : ℕ => true).Reachable s' ∧ s'.processed = [7] := by
  have hreach : (program .minimal fun _ : ℕ => true).Reachable _ :=
    .exec unlockedOnce (.start rfl) rfl
  obtain ⟨-, hprocessed, -⟩ := minimal_wait_conforms preparationThread queueNotEmpty
    (fun _ : ℕ => true) (fun _ => .more) ⟨[], ()⟩
  exact ⟨_, hreach, rfl, rfl, (hprocessed [7]).mp ⟨_, hreach, rfl⟩⟩

def Side.party : Side → Party Unit
  | .preparation => .other ()
  | .processing => .processing

/-- The same state, and the same action, in this model. -/
def St.view (s : St T) : WaitSt Unit (Preparation T) T Unit where
  processing := s.processing
  others _ := s.preparation
  owner := s.owner.map Side.party
  shared := ⟨s.data_queue, ()⟩
  processed := s.processed

def Act.view : Act T → WaitAct Unit (Answer T)
  | .more b => .other () (.more b)
  | .prepare data => .other () (.prepare data)
  | .preparation => .other () .go
  | .processing => .processing
  | .spurious => .spurious

theorem update_unit {α : Type*} (x y : α) :
    Function.update (fun _ : Unit => x) () y = fun _ => y := by
  funext u
  exact Function.update_self u y fun _ => x

theorem view_owner (s : St T) (p : Side) : s.view.owner = some p.party ↔ s.owner = some p := by
  unfold St.view
  cases s.owner with
  | none => simp
  | some q => cases p <;> cases q <;> simp [Side.party]

/-- data_preparation_thread makes the same steps in both models. -/
theorem preparation_view {s : St T} (hi : Inv isLastChunk s) :
    (program .condVar isLastChunk).step s.view (.other () .go) =
      (stepPreparation s).map St.view := by
  have hown := hi.preparationOwns
  rw [← view_owner] at hown
  simp only [program, waiting, waitStep, stepPreparation]
  cases hp : s.preparation with
  | lock data =>
      cases ho : s.owner with
      | none => simp [St.view, preparationThread, hp, deedStep, ho, update_unit, Side.party]
      | some p => simp [St.view, preparationThread, hp, deedStep, ho]
  | push data | unlock =>
      rw [hp] at hown
      have ho := hown.mp rfl
      simp only [St.view] at ho
      simp [St.view, preparationThread, hp, deedStep, update_unit, ho, Side.party]
  | notify => simp [St.view, preparationThread, hp, deedStep, update_unit]
  | more | prepare | returned => simp [St.view, preparationThread, hp]

theorem processing_view (s : St T) :
    (program .condVar isLastChunk).step s.view .processing =
      (stepProcessing isLastChunk s).map St.view := by
  simp only [program, waiting, waitStep, processingStep, stepProcessing]
  cases hp : s.processing with
  | lock | woken =>
      cases ho : s.owner with
      | none => simp [St.view, hp, ho, Side.party]
      | some p => simp [St.view, hp, ho]
  | test =>
      cases hq : s.data_queue with
      | nil => simp [St.view, hp, hq, queueNotEmpty]
      | cons data rest => simp [St.view, hp, hq, queueNotEmpty]
  | front | pop data => cases hq : s.data_queue <;> simp [St.view, hp, hq]
  | sleep | unlock data | process data | asleep | returned =>
      simp [St.view, hp, Waiting.released]

/-- The two models make the same steps. -/
theorem step_view {s : St T} (hi : Inv isLastChunk s) (a : Act T) :
    (program .condVar isLastChunk).step s.view a.view =
      ((sys isLastChunk).step s a).map St.view := by
  cases a with
  | preparation => exact preparation_view hi
  | processing => exact processing_view s
  | more b =>
      simp only [program, waiting, waitStep, sys, step, Act.view]
      cases hp : s.preparation <;> simp [St.view, preparationThread, hp, deedStep, update_unit]
  | prepare data =>
      simp only [program, waiting, waitStep, sys, step, Act.view]
      cases hp : s.preparation <;> simp [St.view, preparationThread, hp, deedStep, update_unit]
  | spurious =>
      simp only [program, waiting, waitStep, sys, step, Act.view]
      cases hp : s.processing <;> simp [St.view, hp]

theorem view_surjective : Function.Surjective (Act.view : Act T → WaitAct Unit (Answer T)) := by
  rintro (_ | _ | ⟨⟨⟩, b | data | _⟩)
  · exact ⟨.processing, rfl⟩
  · exact ⟨.spurious, rfl⟩
  · exact ⟨.more b, rfl⟩
  · exact ⟨.prepare data, rfl⟩
  · exact ⟨.preparation, rfl⟩

/-- The model of `HandOff` is the program with data_cond.wait. -/
theorem reachable_view {v : WaitSt Unit (Preparation T) T Unit} :
    (program .condVar isLastChunk).Reachable v ↔
      ∃ s, (sys isLastChunk).Reachable s ∧ v = s.view := by
  constructor
  · refine Lts.Reach.simulate (R := fun v s => v = St.view s) ?_ ?_
    · rintro v rfl
      exact ⟨initial, .start rfl, rfl⟩
    · rintro v a v' s hs rfl hv
      obtain ⟨a, rfl⟩ := view_surjective a
      rw [step_view (inv_reach hs)] at hv
      obtain ⟨s', hs', rfl⟩ := Option.map_eq_some_iff.mp hv
      exact ⟨s', .next hs trivial hs', rfl⟩
  · rintro ⟨s, hs, rfl⟩
    induction hs with
    | start h =>
        cases h
        exact .start rfl
    | @next s s' a hr _ hs ih =>
        refine .next ih trivial (a := a.view) ?_
        rw [step_view (inv_reach hr), hs, Option.map_some]

/-- With minimal_wait the program of the source processes the sequences of chunks that it
    processes with data_cond.wait, each a prefix of what its producer pushes (`hand_off`). -/
theorem processed_iff (chunks : List T) :
    (∃ v, (program .minimal isLastChunk).Reachable v ∧ v.processed = chunks) ↔
      ∃ s, (sys isLastChunk).Reachable s ∧ s.processed = chunks := by
  constructor
  · rintro ⟨v, hv, hp⟩
    obtain ⟨s, hs, rfl⟩ := reachable_view.mp (reachable_condVar hv)
    exact ⟨s, hs, hp⟩
  · rintro ⟨s, hs, hp⟩
    exact ⟨s.view.awake, reachable_minimal (reachable_view.mpr ⟨s, hs, rfl⟩), hp⟩

end CppConcurrency.ConditionVariable
