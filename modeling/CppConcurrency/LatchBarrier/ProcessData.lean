/-
  process_data() of barrier.cpp.

  The calling thread starts `n` workers in its for loop and returns. They run the loop over the
  shared source, chunks, result and sink, and meet at the barrier twice a round. The model has
  one step for each access to a shared variable: `source.done()`, the fetch of a block, the split
  into chunks, an arrival at the barrier, the return from it, the read of `chunks[i]`, the write
  of a slot of `result` and the write to the sink. Thread 0 does the serial parts.

  The source is a finite list of blocks: done() tests whether it is empty and
  get_next_data_block() takes its head. divide_into_chunks returns `n` chunks, which is
  carried by its type. `result` has one slot for each thread, `none` where set_chunk has not
  written; write_data moves it away, and what a moved-from result holds is anything.
  Fetching from an empty source, and reading a chunk that is not there, is no step.

  After the for loop the calling thread destroys its variables, the last one first: `result`,
  then `chunks`, and only then `threads`, whose JThreads wait for the workers. The workers refer
  to both. One that uses a variable which is gone makes the behaviour undefined, and there are no
  steps from there. (`sync` is declared before `threads` and outlives the workers.)

  `rounds` counts the rounds a thread has begun. It is not in the source, and no step looks
  at it.
-/
import CppConcurrency.Lib.Barrier
import CppConcurrency.Lib.Lts

namespace CppConcurrency.ProcessData

open Concur

/-- The functions that process_data calls. -/
structure Env (n : ℕ) (Block Chunk Res : Type*) where
  divideIntoChunks : Block → Vector Chunk n
  process : Chunk → Res
  movedFrom : (Fin n → Option Res) → Fin n → Option Res

/-- Where a thread stands in the loop. `wait1 p` and `wait2 p`: it has arrived at the first or
    second barrier of the round, in phase `p`. -/
inductive Pc (Block Res : Type*) where
  | test
  | fetch
  | split (currentBlock : Block)
  | arrive1
  | wait1 (p : ℕ)
  | read
  | set (r : Res)
  | arrive2
  | wait2 (p : ℕ)
  | write
  | left

/-- A thread: where it stands, and the rounds it has begun. -/
structure Thread (Block Res : Type*) where
  pc : Pc Block Res
  rounds : ℕ

/-- What the workers share, and where they stand. -/
structure St (n : ℕ) (Block Chunk Res : Type*) where
  th : Fin n → Thread Block Res
  sync : Barrier
  source : List Block
  chunks : List Chunk
  result : Fin n → Option Res
  sink : List (Fin n → Option Res)

variable {n : ℕ} {Block Chunk Res : Type*}

/-- Thread `i` goes on at `p`. -/
def St.goto (s : St n Block Chunk Res) (i : Fin n) (p : Pc Block Res) : St n Block Chunk Res :=
  { s with th := Function.update s.th i ⟨p, (s.th i).rounds⟩ }

/-- Thread `i` begins a round at `p`. -/
def St.enter (s : St n Block Chunk Res) (i : Fin n) (p : Pc Block Res) : St n Block Chunk Res :=
  { s with th := Function.update s.th i ⟨p, (s.th i).rounds + 1⟩ }

/-- Thread `i` arrives at the barrier, and waits at `p`. -/
def St.arrive (s : St n Block Chunk Res) (i : Fin n) (p : Pc Block Res) : St n Block Chunk Res :=
  { s.goto i p with sync := s.sync.arrive n }

/-- The next statement of thread `i`. -/
def workerStep (E : Env n Block Chunk Res) (s : St n Block Chunk Res) (i : Fin n) :
    Option (St n Block Chunk Res) :=
  match (s.th i).pc with
  | .test =>
      match s.source with
      | [] => some (s.goto i .left)
      | _ :: _ => some (s.enter i (if (i : ℕ) = 0 then .fetch else .arrive1))
  | .fetch =>
      match s.source with
      | [] => none
      | b :: rest => some { s.goto i (.split b) with source := rest }
  | .split b => some { s.goto i .arrive1 with chunks := (E.divideIntoChunks b).toList }
  | .arrive1 => some (s.arrive i (.wait1 s.sync.phase))
  | .wait1 p => if s.sync.phase = p then none else some (s.goto i .read)
  | .read =>
      match s.chunks[(i : ℕ)]? with
      | none => none
      | some c => some (s.goto i (.set (E.process c)))
  | .set r => some { s.goto i .arrive2 with result := Function.update s.result i (some r) }
  | .arrive2 => some (s.arrive i (.wait2 s.sync.phase))
  | .wait2 p =>
      if s.sync.phase = p then none
      else some (s.goto i (if (i : ℕ) = 0 then .write else .test))
  | .write =>
      some { s.goto i .test with
        sink := s.sink ++ [s.result]
        result := E.movedFrom s.result }
  | .left => none

/-- All threads are about to evaluate done() for the first time. -/
def start (blocks : List Block) : St n Block Chunk Res where
  th _ := ⟨.test, 0⟩
  sync := ⟨0, 0⟩
  source := blocks
  chunks := []
  result _ := none
  sink := []

/-- The workers alone, on variables that nobody destroys; an action is the thread that moves. -/
def workers (E : Env n Block Chunk Res) (blocks : List Block) :
    Lts (St n Block Chunk Res) (Fin n) where
  init s := s = start blocks
  step := workerStep E

/-! ## The calling thread -/

/-- Where the calling thread stands. `launch k`: in the for loop, with `k` workers started.
    `endResult`, `endChunks`: about to destroy the variable. `join k`: in the destructor of
    threads, with `k` JThreads joined. -/
inductive Caller where
  | launch (k : ℕ)
  | endResult
  | endChunks
  | join (k : ℕ)
  | returned
  deriving DecidableEq, Repr

/-- The workers that have been started. -/
def Caller.started (n : ℕ) : Caller → ℕ
  | .launch k => k
  | _ => n

/-- `result` has not been destroyed. -/
def Caller.hasResult : Caller → Bool
  | .launch _ | .endResult => true
  | _ => false

/-- `chunks` has not been destroyed. -/
def Caller.hasChunks : Caller → Bool
  | .launch _ | .endResult | .endChunks => true
  | _ => false

/-- The next statement uses `result`. -/
def Pc.usesResult : Pc Block Res → Bool
  | .set _ | .write => true
  | _ => false

/-- The next statement uses `chunks`. -/
def Pc.usesChunks : Pc Block Res → Bool
  | .split _ | .read => true
  | _ => false

/-- The next statement uses no variable that is gone. -/
def Caller.allows (c : Caller) (pc : Pc Block Res) : Bool :=
  (!pc.usesResult || c.hasResult) && (!pc.usesChunks || c.hasChunks)

/-- The state of process_data. -/
structure Call (n : ℕ) (Block Chunk Res : Type*) where
  caller : Caller
  loop : St n Block Chunk Res
  undefined : Bool

/-- `chunks`, unless it has been destroyed. -/
def Call.chunks (s : Call n Block Chunk Res) : Option (List Chunk) :=
  if s.caller.hasChunks then some s.loop.chunks else none

/-- Who moves. -/
inductive Act (n : ℕ) where
  | caller
  | worker (i : Fin n)
  deriving DecidableEq, Repr

/-- The next step of the calling thread. A JThread is joined when its worker has left. -/
def callerStep (s : Call n Block Chunk Res) : Option Caller :=
  match s.caller with
  | .launch k => some (if k < n then .launch (k + 1) else .endResult)
  | .endResult => some .endChunks
  | .endChunks => some (.join 0)
  | .join k =>
      if h : k < n then
        match (s.loop.th ⟨k, h⟩).pc with
        | .left => some (.join (k + 1))
        | _ => none
      else some .returned
  | .returned => none

/-- The next step of anyone. -/
def step (E : Env n Block Chunk Res) (s : Call n Block Chunk Res) :
    Act n → Option (Call n Block Chunk Res)
  | .caller =>
      if s.undefined then none
      else (callerStep s).map fun c => { s with caller := c }
  | .worker i =>
      if s.undefined || s.caller.started n ≤ (i : ℕ) then none
      else if s.caller.allows (s.loop.th i).pc then
        (workerStep E s.loop i).map fun l => { s with loop := l }
      else some { s with undefined := true }

/-- process_data on a source with the given blocks. -/
def processData (E : Env n Block Chunk Res) (blocks : List Block) :
    Lts (Call n Block Chunk Res) (Act n) where
  init s := s = ⟨.launch 0, start blocks, false⟩
  step := step E

/-! ## What a step can be -/

/-- The cases of a step of worker `i`. -/
inductive Moves (E : Env n Block Chunk Res) (s : St n Block Chunk Res) (i : Fin n) :
    St n Block Chunk Res → Prop
  | leave (hpc : (s.th i).pc = .test) (hsrc : s.source = []) : Moves E s i (s.goto i .left)
  | enter (hpc : (s.th i).pc = .test) (hsrc : s.source ≠ []) :
      Moves E s i (s.enter i (if (i : ℕ) = 0 then .fetch else .arrive1))
  | fetch {b rest} (hpc : (s.th i).pc = .fetch) (hsrc : s.source = b :: rest) :
      Moves E s i { s.goto i (.split b) with source := rest }
  | split {b} (hpc : (s.th i).pc = .split b) :
      Moves E s i { s.goto i .arrive1 with chunks := (E.divideIntoChunks b).toList }
  | arrive1 (hpc : (s.th i).pc = .arrive1) : Moves E s i (s.arrive i (.wait1 s.sync.phase))
  | pass1 {p} (hpc : (s.th i).pc = .wait1 p) (hp : s.sync.phase ≠ p) :
      Moves E s i (s.goto i .read)
  | read {c} (hpc : (s.th i).pc = .read) (hc : s.chunks[(i : ℕ)]? = some c) :
      Moves E s i (s.goto i (.set (E.process c)))
  | set {r} (hpc : (s.th i).pc = .set r) :
      Moves E s i { s.goto i .arrive2 with result := Function.update s.result i (some r) }
  | arrive2 (hpc : (s.th i).pc = .arrive2) : Moves E s i (s.arrive i (.wait2 s.sync.phase))
  | pass2 {p} (hpc : (s.th i).pc = .wait2 p) (hp : s.sync.phase ≠ p) :
      Moves E s i (s.goto i (if (i : ℕ) = 0 then .write else .test))
  | write (hpc : (s.th i).pc = .write) :
      Moves E s i { s.goto i .test with
        sink := s.sink ++ [s.result]
        result := E.movedFrom s.result }

/-- The inversion lemma: every step is one of the cases. -/
theorem moves_of_step {E : Env n Block Chunk Res} {s s' : St n Block Chunk Res} {i : Fin n}
    (h : workerStep E s i = some s') : Moves E s i s' := by
  unfold workerStep at h
  split at h
  · next hpc =>
      split at h
      · next hsrc => cases h; exact .leave hpc hsrc
      · next hsrc => cases h; exact .enter hpc (by rw [hsrc]; simp)
  · next hpc =>
      split at h
      · cases h
      · next hsrc => cases h; exact .fetch hpc hsrc
  · next hpc => cases h; exact .split hpc
  · next hpc => cases h; exact .arrive1 hpc
  · next hpc =>
      split at h
      · cases h
      · next hp => cases h; exact .pass1 hpc hp
  · next hpc =>
      split at h
      · cases h
      · next hc => cases h; exact .read hpc hc
  · next hpc => cases h; exact .set hpc
  · next hpc => cases h; exact .arrive2 hpc
  · next hpc =>
      split at h
      · cases h
      · next hp => cases h; exact .pass2 hpc hp
  · next hpc => cases h; exact .write hpc
  · cases h

/-- The cases of a step of the calling thread. -/
inductive CallerMoves (s : Call n Block Chunk Res) : Caller → Prop
  | launch {k} (hc : s.caller = .launch k) (hk : k < n) : CallerMoves s (.launch (k + 1))
  | launched {k} (hc : s.caller = .launch k) (hk : n ≤ k) : CallerMoves s .endResult
  | endResult (hc : s.caller = .endResult) : CallerMoves s .endChunks
  | endChunks (hc : s.caller = .endChunks) : CallerMoves s (.join 0)
  | join {k} (hc : s.caller = .join k) (hk : k < n) (hl : (s.loop.th ⟨k, hk⟩).pc = .left) :
      CallerMoves s (.join (k + 1))
  | joined {k} (hc : s.caller = .join k) (hk : n ≤ k) : CallerMoves s .returned

theorem callerMoves_of_step {s : Call n Block Chunk Res} {c : Caller} (h : callerStep s = some c) :
    CallerMoves s c := by
  unfold callerStep at h
  split at h
  · next k hc =>
      cases h
      split
      · next hk => exact .launch hc hk
      · next hk => exact .launched hc (Nat.not_lt.mp hk)
  · next hc => cases h; exact .endResult hc
  · next hc => cases h; exact .endChunks hc
  · next k hc =>
      split at h
      · next hk =>
          split at h
          · next hl => cases h; exact .join hc hk hl
          · cases h
      · next hk => cases h; exact .joined hc (Nat.not_lt.mp hk)
  · cases h

/-- The cases of a step of anyone. -/
inductive Acts (E : Env n Block Chunk Res) (s : Call n Block Chunk Res) :
    Act n → Call n Block Chunk Res → Prop
  | caller {c} (h : CallerMoves s c) : Acts E s .caller { s with caller := c }
  | work {i : Fin n} {l} (hi : (i : ℕ) < s.caller.started n)
      (ha : s.caller.allows (s.loop.th i).pc = true) (h : workerStep E s.loop i = some l) :
      Acts E s (.worker i) { s with loop := l }
  | misuse {i : Fin n} (hi : (i : ℕ) < s.caller.started n)
      (ha : s.caller.allows (s.loop.th i).pc = false) :
      Acts E s (.worker i) { s with undefined := true }

theorem acts_of_step {E : Env n Block Chunk Res} {s s' : Call n Block Chunk Res} {a : Act n}
    (h : step E s a = some s') : s.undefined = false ∧ Acts E s a s' := by
  cases a with
  | caller =>
      simp only [step] at h
      split at h
      · cases h
      · next hu =>
          obtain ⟨c, hc, rfl⟩ := Option.map_eq_some_iff.mp h
          exact ⟨Bool.not_eq_true _ ▸ hu, .caller (callerMoves_of_step hc)⟩
  | worker i =>
      simp only [step] at h
      split at h
      · cases h
      · next hn =>
          simp only [Bool.or_eq_true, decide_eq_true_eq, not_or, Nat.not_le] at hn
          refine ⟨Bool.not_eq_true _ ▸ hn.1, ?_⟩
          split at h
          · next ha =>
              obtain ⟨l, hl, rfl⟩ := Option.map_eq_some_iff.mp h
              exact .work hn.2 ha hl
          · next ha =>
              cases h
              exact .misuse hn.2 (Bool.not_eq_true _ ▸ ha)

end CppConcurrency.ProcessData
