/-
  threadsafe_queue (thread_safe_queue.cpp).

  The bodies of the members, statement by statement, as a monitor class: `data_queue` is a
  list whose head is the front, `mut` is the mutex of the object and `data_cond` its
  condition variable. The two overloads of wait_and_pop and of try_pop run the same
  statements and differ in how the element leaves, so they are one member with the
  overload as parameter.

  `data_cond.wait(lk, pred)` is `while (!pred()) wait(lk);`: the test and the sleep are
  `waitTest`, and a woken thread comes back to `waitTest`. front() and pop() on an empty
  queue are undefined, so they have no step here.

  What may throw: the allocation or copy in `data_queue.push`, and the copy assignment or
  make_shared that reads the front.
-/
import CppConcurrency.Lib.Monitor

namespace CppConcurrency.ThreadsafeQueue

open Concur

/-- Which overload: the one that stores through a `T&`, or the one that returns a
    `std::shared_ptr<T>`. -/
inductive Overload where
  | ref
  | ptr
  deriving DecidableEq, Repr

/-- The members. -/
inductive Op (T : Type*) where
  | push (newValue : T)
  | waitAndPop (o : Overload)
  | tryPop (o : Overload)
  | empty
  deriving DecidableEq, Repr

/-- What a member gives back: nothing, the element stored through the reference, a bool and
    what was stored through the reference (if anything), or a pointer (null or to a copy). -/
inductive Ret (T : Type*) where
  | void
  | out (value : T)
  | bool (b : Bool) (value : Option T)
  | ptr (res : Option T)
  deriving DecidableEq, Repr

/-- The statements. `done r`: the return statement. -/
inductive Loc (T : Type*) where
  | pushData (newValue : T)
  | notifyOne
  | waitTest (o : Overload)
  | waitFront (o : Overload)
  | waitPop (o : Overload) (v : T)
  | tryTest (o : Overload)
  | tryFront (o : Overload)
  | tryPopData (o : Overload) (v : T)
  | emptyTest
  | done (r : Ret T)
  deriving DecidableEq, Repr

variable {T : Type*}

/-- What wait_and_pop gives back for the element `v`. -/
def Overload.popped (v : T) : Overload → Ret T
  | .ref => .out v
  | .ptr => .ptr (some v)

/-- What try_pop gives back for the element `v`. -/
def Overload.found (v : T) : Overload → Ret T
  | .ref => .bool true (some v)
  | .ptr => .ptr (some v)

/-- What try_pop gives back on an empty queue. -/
def Overload.missing : Overload → Ret T
  | .ref => .bool false none
  | .ptr => .ptr none

/-- The first statement of a member. -/
def entry : Op T → Loc T
  | .push v => .pushData v
  | .waitAndPop o => .waitTest o
  | .tryPop o => .tryTest o
  | .empty => .emptyTest

/-- One statement on the contents of `data_queue`. -/
def stmt : Loc T → List T → Option (Stmt T (Ret T) (Loc T))
  | .pushData v, d => some (.next (d ++ [v]) .notifyOne)
  | .notifyOne, _ => some (.notify (.done .void))
  | .waitTest o, d =>
      if d.isEmpty then some (.wait (.waitTest o)) else some (.next d (.waitFront o))
  | .waitFront o, d =>
      match d with
      | [] => none
      | v :: _ => some (.next d (.waitPop o v))
  | .waitPop o v, d =>
      match d with
      | [] => none
      | _ :: rest => some (.next rest (.done (o.popped v)))
  | .tryTest o, d =>
      if d.isEmpty then some (.leave o.missing) else some (.next d (.tryFront o))
  | .tryFront o, d =>
      match d with
      | [] => none
      | v :: _ => some (.next d (.tryPopData o v))
  | .tryPopData o v, d =>
      match d with
      | [] => none
      | _ :: rest => some (.next rest (.done (o.found v)))
  | .emptyTest, d => some (.leave (.bool d.isEmpty none))
  | .done r, _ => some (.leave r)

/-- The statements that may throw. -/
def throws : Loc T → Bool
  | .pushData _ => true
  | .waitFront _ => true
  | .tryFront _ => true
  | _ => false

/-- The class. -/
def queue (T : Type*) : MonitorClass T (Op T) (Ret T) (Loc T) where
  entry := entry
  stmt := stmt
  throws := throws

end CppConcurrency.ThreadsafeQueue
