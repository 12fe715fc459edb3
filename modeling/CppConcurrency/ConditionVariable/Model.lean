/-
  condition_variable.cpp: a producer hands chunks to a consumer through a queue.

  data_preparation_thread and data_processing_thread, statement by statement. What
  there_is_more_data and prepare_data give is the environment's choice, made in the action;
  `isLastChunk` is a parameter. The producer notifies after it has released `mtx`.
  `data_cond.wait(lk, pred)` is `while(!pred()) wait(lk);`: the consumer tests the queue,
  and where it is empty releases `mtx` and goes to sleep in one step; notified or woken
  spuriously it has to take `mtx` again and comes back to the test.

  `pushed` and `processed` record the chunks in the order of data_queue.push and of process.
-/
import CppConcurrency.Lib.Lts

namespace CppConcurrency.ConditionVariable

open Concur

/-- The two threads. -/
inductive Side where
  | preparation
  | processing
  deriving DecidableEq, Repr

/-- Where data_preparation_thread stands. -/
inductive Preparation (T : Type*) where
  | more
  | prepare
  | lock (data : T)
  | push (data : T)
  | unlock
  | notify
  | returned
  deriving DecidableEq, Repr

/-- Where data_processing_thread stands: `sleep` is the wait that follows a failed test,
    `asleep` before and `woken` after a wake-up. -/
inductive Processing (T : Type*) where
  | lock
  | test
  | sleep
  | asleep
  | woken
  | front
  | pop (data : T)
  | unlock (data : T)
  | process (data : T)
  | returned
  deriving DecidableEq, Repr

/-- The threads, the owner of `mtx`, `data_queue` (front first) and the two records. -/
structure St (T : Type*) where
  preparation : Preparation T
  processing : Processing T
  owner : Option Side
  data_queue : List T
  pushed : List T
  processed : List T
  deriving DecidableEq, Repr

/-- Who moves, and what the environment answers. -/
inductive Act (T : Type*) where
  | more (b : Bool)
  | prepare (data : T)
  | preparation
  | processing
  | spurious
  deriving DecidableEq, Repr

variable {T : Type*}

/-- The thread holds `mtx`. -/
def Preparation.holds : Preparation T → Bool
  | .push _ => true
  | .unlock => true
  | _ => false

def Processing.holds : Processing T → Bool
  | .test => true
  | .sleep => true
  | .front => true
  | .pop _ => true
  | .unlock _ => true
  | _ => false

/-- What a notify_one does to the consumer. -/
def Processing.notified : Processing T → Processing T
  | .asleep => .woken
  | pc => pc

/-- The next statement of data_preparation_thread. -/
def stepPreparation (s : St T) : Option (St T) :=
  match s.preparation with
  | .lock data =>
      if s.owner = none then
        some { s with preparation := .push data, owner := some .preparation }
      else none
  | .push data =>
      some { s with
        preparation := .unlock
        data_queue := s.data_queue ++ [data]
        pushed := s.pushed ++ [data] }
  | .unlock => some { s with preparation := .notify, owner := none }
  | .notify => some { s with preparation := .more, processing := s.processing.notified }
  | _ => none

/-- The next statement of data_processing_thread. front() and pop() on an empty queue are
    undefined and have no step. -/
def stepProcessing (isLastChunk : T → Bool) (s : St T) : Option (St T) :=
  match s.processing with
  | .lock =>
      if s.owner = none then some { s with processing := .test, owner := some .processing }
      else none
  | .test => some { s with processing := if s.data_queue.isEmpty then .sleep else .front }
  | .sleep => some { s with processing := .asleep, owner := none }
  | .woken =>
      if s.owner = none then some { s with processing := .test, owner := some .processing }
      else none
  | .front =>
      match s.data_queue with
      | [] => none
      | data :: _ => some { s with processing := .pop data }
  | .pop data =>
      match s.data_queue with
      | [] => none
      | _ :: rest => some { s with processing := .unlock data, data_queue := rest }
  | .unlock data => some { s with processing := .process data, owner := none }
  | .process data =>
      some { s with
        processing := if isLastChunk data then .returned else .lock
        processed := s.processed ++ [data] }
  | _ => none

def step (isLastChunk : T → Bool) (s : St T) : Act T → Option (St T)
  | .more b =>
      if s.preparation matches .more then
        some { s with preparation := if b then .prepare else .returned }
      else none
  | .prepare data =>
      if s.preparation matches .prepare then some { s with preparation := .lock data } else none
  | .preparation => stepPreparation s
  | .processing => stepProcessing isLastChunk s
  | .spurious =>
      if s.processing matches .asleep then some { s with processing := .woken } else none

/-- Both threads begin, the queue is empty. -/
def initial : St T where
  preparation := .more
  processing := .lock
  owner := none
  data_queue := []
  pushed := []
  processed := []

def sys (isLastChunk : T → Bool) : Lts (St T) (Act T) where
  init s := s = initial
  step := step isLastChunk

end CppConcurrency.ConditionVariable
