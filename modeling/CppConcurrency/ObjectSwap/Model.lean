/-
  swap of two locked objects: Foo (unique_lock.cpp) and Cxx17
  (two_or_more_mutexes_no_deadlock.cpp).

  Any number of threads run swaps on any pairs of objects, the same object twice included.
  A swap of an object with itself returns at once. Any other takes both mutexes, swaps the
  data in three assignments and gives the mutexes back: Foo destroys lock_b first, Cxx17's
  scoped_lock unlocks in the order of its arguments (`rhsFirst`).

  std::lock (and the constructor of scoped_lock) tries and backs off: it blocks on one of the
  mutexes while it holds none, tries the other, and if that fails, spuriously or because it
  is taken, gives the first one back and blocks on either of the two again.

  `called` records the swaps each thread has begun, `log` the swaps in the order in which
  their last assignment is made (for a self-swap: in which it returns).
-/
import CppConcurrency.Lib.Lts
import Mathlib.Logic.Equiv.Basic

namespace CppConcurrency.ObjectSwap

open Concur

/-- Where a thread stands in `swap(lhs, rhs)`. `first`: lhs.mtx is the mutex that std::lock
    blocks on. -/
inductive Pc (κ T : Type*) where
  | idle
  | test (lhs rhs : κ)
  | lockFirst (lhs rhs : κ) (first : Bool)
  | tryOther (lhs rhs : κ) (first : Bool)
  | backOff (lhs rhs : κ) (first : Bool)
  | saveLhs (lhs rhs : κ)
  | assignLhs (lhs rhs : κ) (tmp : T)
  | assignRhs (lhs rhs : κ) (tmp : T)
  | unlockOne (lhs rhs : κ)
  | unlockTwo (last : κ)

/-- A state of all threads and objects. -/
structure St (ι κ T : Type*) where
  pc : ι → Pc κ T
  owner : κ → Option ι
  data : κ → T
  called : ι → List (κ × κ)
  log : List (ι × κ × κ)

/-- Who moves. `run t first`: the next step of `t`; where std::lock chooses the mutex to block
    on, `first` is its choice. `tryFails t`: the try_lock of `t` fails. -/
inductive Act (ι κ : Type*) where
  | call (t : ι) (lhs rhs : κ)
  | run (t : ι) (first : Bool)
  | tryFails (t : ι)
  deriving DecidableEq, Repr

variable {ι κ T : Type*}

/-- The mutex that std::lock blocks on, and the one it then tries. -/
def firstOf (lhs rhs : κ) (first : Bool) : κ := if first then lhs else rhs

def otherOf (lhs rhs : κ) (first : Bool) : κ := if first then rhs else lhs

/-- The mutexes a thread holds. -/
def Pc.holds : Pc κ T → κ → Prop
  | .tryOther lhs rhs first, m => m = firstOf lhs rhs first
  | .backOff lhs rhs first, m => m = firstOf lhs rhs first
  | .saveLhs lhs rhs, m => m = lhs ∨ m = rhs
  | .assignLhs lhs rhs _, m => m = lhs ∨ m = rhs
  | .assignRhs lhs rhs _, m => m = lhs ∨ m = rhs
  | .unlockOne lhs rhs, m => m = lhs ∨ m = rhs
  | .unlockTwo last, m => m = last
  | _, _ => False

/-- The objects whose data a thread is at. -/
def Pc.touches : Pc κ T → κ → Prop
  | .saveLhs lhs rhs, x => x = lhs ∨ x = rhs
  | .assignLhs lhs rhs _, x => x = lhs ∨ x = rhs
  | .assignRhs lhs rhs _, x => x = lhs ∨ x = rhs
  | _, _ => False

/-- The mutex a thread is blocked on, or about to block on. -/
def Pc.wants : Pc κ T → Option κ
  | .lockFirst lhs rhs first => some (firstOf lhs rhs first)
  | _ => none

variable [DecidableEq ι] [DecidableEq κ]

/-- Thread `t` moves. -/
def St.goto (s : St ι κ T) (t : ι) (pc : Pc κ T) : St ι κ T :=
  { s with pc := Function.update s.pc t pc }

/-- Thread `t` takes or gives back the mutex `m`. -/
def St.setOwner (s : St ι κ T) (m : κ) (o : Option ι) : St ι κ T :=
  { s with owner := Function.update s.owner m o }

/-- The next step of `t`. -/
def run (rhsFirst : Bool) (s : St ι κ T) (t : ι) (first : Bool) : Option (St ι κ T) :=
  match s.pc t with
  | .idle => none
  | .test lhs rhs =>
      if lhs = rhs then some { s.goto t .idle with log := s.log ++ [(t, lhs, rhs)] }
      else some (s.goto t (.lockFirst lhs rhs first))
  | .lockFirst lhs rhs f =>
      if s.owner (firstOf lhs rhs f) = none then
        some ((s.goto t (.tryOther lhs rhs f)).setOwner (firstOf lhs rhs f) (some t))
      else none
  | .tryOther lhs rhs f =>
      if s.owner (otherOf lhs rhs f) = none then
        some ((s.goto t (.saveLhs lhs rhs)).setOwner (otherOf lhs rhs f) (some t))
      else none
  | .backOff lhs rhs f =>
      some ((s.goto t (.lockFirst lhs rhs first)).setOwner (firstOf lhs rhs f) none)
  | .saveLhs lhs rhs => some (s.goto t (.assignLhs lhs rhs (s.data lhs)))
  | .assignLhs lhs rhs tmp =>
      some { s.goto t (.assignRhs lhs rhs tmp) with
        data := Function.update s.data lhs (s.data rhs) }
  | .assignRhs lhs rhs tmp =>
      some { s.goto t (.unlockOne lhs rhs) with
        data := Function.update s.data rhs tmp
        log := s.log ++ [(t, lhs, rhs)] }
  | .unlockOne lhs rhs =>
      some ((s.goto t (.unlockTwo (otherOf lhs rhs !rhsFirst))).setOwner
        (firstOf lhs rhs !rhsFirst) none)
  | .unlockTwo last => some ((s.goto t .idle).setOwner last none)

def step (rhsFirst : Bool) (s : St ι κ T) : Act ι κ → Option (St ι κ T)
  | .call t lhs rhs =>
      if s.pc t matches .idle then
        some { s.goto t (.test lhs rhs) with
          called := Function.update s.called t (s.called t ++ [(lhs, rhs)]) }
      else none
  | .run t first => run rhsFirst s t first
  | .tryFails t =>
      match s.pc t with
      | .tryOther lhs rhs f => some (s.goto t (.backOff lhs rhs f))
      | _ => none

/-- No swap has begun. -/
def initial (data : κ → T) : St ι κ T where
  pc _ := .idle
  owner _ := none
  data := data
  called _ := []
  log := []

def sys (rhsFirst : Bool) (data : κ → T) : Lts (St ι κ T) (Act ι κ) where
  init s := s = initial data
  step := step rhsFirst

/-- What a swap does to the data. -/
def exchanged (d : κ → T) (e : ι × κ × κ) : κ → T := d ∘ Equiv.swap e.2.1 e.2.2

/-- The data after the swaps of a log, one after another. -/
def replay (data : κ → T) (log : List (ι × κ × κ)) : κ → T := log.foldl exchanged data

end CppConcurrency.ObjectSwap
