/-
  ThreadSafeStack (ThreadSafeStack.h).

  The bodies of the members, statement by statement, as a monitor class: `data` is a list
  whose last element is the top, and `m` is the mutex of the object. The two overloads of
  pop run the same statements and differ in how the element leaves, so they are one member
  with the overload as parameter. `throw empty_stack()` is a result of its own.

  top() and pop() on an empty std::stack are undefined, so they have no step here. What may
  throw besides: the allocation or move in `data.push`, and the copy assignment or
  make_shared that reads the top.
-/
import CppConcurrency.Lib.Monitor

namespace CppConcurrency.ThreadSafeStack

open Concur

/-- Which overload of pop: `pop(T&)` or the one that returns a `std::shared_ptr<T>`. -/
inductive Overload where
  | ref
  | ptr
  deriving DecidableEq, Repr

/-- The members. -/
inductive Op (T : Type*) where
  | push (newValue : T)
  | pop (o : Overload)
  | empty
  deriving DecidableEq, Repr

/-- What a member gives back: nothing, the element stored through the reference, a pointer
    to a copy of the element, the exception empty_stack, or a bool. -/
inductive Ret (T : Type*) where
  | void
  | out (value : T)
  | ptr (res : T)
  | emptyStack
  | bool (b : Bool)
  deriving DecidableEq, Repr

/-- The statements. `done r`: the return statement. -/
inductive Loc (T : Type*) where
  | pushData (newValue : T)
  | popTest (o : Overload)
  | popTop (o : Overload)
  | popData (o : Overload) (v : T)
  | emptyTest
  | done (r : Ret T)
  deriving DecidableEq, Repr

variable {T : Type*}

/-- What pop gives back for the element `v`. -/
def Overload.popped (v : T) : Overload → Ret T
  | .ref => .out v
  | .ptr => .ptr v

/-- The first statement of a member. -/
def entry : Op T → Loc T
  | .push v => .pushData v
  | .pop o => .popTest o
  | .empty => .emptyTest

/-- One statement on the contents of `data`. -/
def stmt : Loc T → List T → Option (Stmt T (Ret T) (Loc T))
  | .pushData v, d => some (.next (d ++ [v]) (.done .void))
  | .popTest o, d => if d.isEmpty then some (.leave .emptyStack) else some (.next d (.popTop o))
  | .popTop o, d =>
      match d.getLast? with
      | none => none
      | some v => some (.next d (.popData o v))
  | .popData o v, d =>
      match d.getLast? with
      | none => none
      | some _ => some (.next d.dropLast (.done (o.popped v)))
  | .emptyTest, d => some (.leave (.bool d.isEmpty))
  | .done r, _ => some (.leave r)

/-- The statements that may throw something else than empty_stack. -/
def throws : Loc T → Bool
  | .pushData _ => true
  | .popTop _ => true
  | _ => false

/-- The class. -/
def stack (T : Type*) : MonitorClass T (Op T) (Ret T) (Loc T) where
  entry := entry
  stmt := stmt
  throws := throws

end CppConcurrency.ThreadSafeStack
