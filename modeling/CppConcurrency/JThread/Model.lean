/-
  JThread.h: a `std::thread` that is joined when its handle goes away.

  Each operation is the sequence of `std::thread` operations of its body, under `noexcept`
  where the source says so. A parameter of type `std::thread` is an object of its own: it
  is made from the caller's argument and destroyed when the call is over. The caller's
  own `std::thread` objects are made and handed over by the last three operations.
-/
import CppConcurrency.Lib.StdThread

namespace CppConcurrency.JThread

open Concur Handles

variable {κ π : Type*}

/-- The `std::thread` objects: the member `thread` of each JThread, the caller's own
    objects, and the parameter of the call in progress. -/
inductive Obj (κ π : Type*)
  | thread (k : κ)
  | arg (p : π)
  | param
  deriving DecidableEq

/-- The operations on JThreads `k`, and those on the caller's `std::thread` objects `p`. -/
inductive Op (κ π : Type*)
  | construct (k : κ)
  | launch (k : κ) (starts : Bool)
  | fromThread (k : κ) (p : π)
  | moveConstruct (k other : κ)
  | moveAssign (k rhs : κ)
  | assignThread (k : κ) (p : π)
  | swap (k other : κ)
  | join (k : κ)
  | detach (k : κ)
  | destroy (k : κ)
  | argConstruct (p : π)
  | argLaunch (p : π) (starts : Bool)
  | argDestroy (p : π)
  deriving DecidableEq

/-- The operations of JThread that are declared `noexcept`. -/
def Op.isNoexcept : Op κ π → Bool
  | .construct _ | .fromThread _ _ | .moveConstruct _ _ | .moveAssign _ _ => true
  | .assignThread _ _ | .swap _ _ | .destroy _ => true
  | .launch _ _ | .join _ | .detach _ => false
  | .argConstruct _ | .argLaunch _ _ | .argDestroy _ => false

variable [DecidableEq κ] [DecidableEq π]

/-- `JThread() noexcept = default;` -/
def construct (k : κ) : Prog (Handles (Obj κ π)) ThreadExc Unit :=
  .noexcept (Handles.construct (.thread k))

/-- `explicit JThread(Callable&& callable, Args&& ... args)` -/
def launch (k : κ) (starts : Bool) : Prog (Handles (Obj κ π)) ThreadExc Unit :=
  Handles.launch (.thread k) starts

/-- `explicit JThread(std::thread t) noexcept`, called with `std::move(p)`. -/
def fromThread (k : κ) (p : π) : Prog (Handles (Obj κ π)) ThreadExc Unit := do
  Handles.moveConstruct .param (.arg p)
  Prog.noexcept (Handles.moveConstruct (.thread k) .param)
  Handles.destroy .param

/-- `void testJoin() noexcept` -/
def testJoin (k : κ) : Prog (Handles (Obj κ π)) ThreadExc Unit := .noexcept do
  if ← joinable (.thread k) then Handles.join (.thread k)

/-- `~JThread() noexcept`, and then the destructor of the member. -/
def destroy (k : κ) : Prog (Handles (Obj κ π)) ThreadExc Unit := .noexcept do
  testJoin k
  Handles.destroy (.thread k)

/-- `JThread(JThread&& other) noexcept` -/
def moveConstruct (k other : κ) : Prog (Handles (Obj κ π)) ThreadExc Unit :=
  .noexcept (Handles.moveConstruct (.thread k) (.thread other))

/-- `JThread& operator=(JThread&& rhs) noexcept` -/
def moveAssign (k rhs : κ) : Prog (Handles (Obj κ π)) ThreadExc Unit := .noexcept do
  testJoin k
  Handles.moveAssign (.thread k) (.thread rhs)

/-- `JThread& operator=(std::thread rhs) noexcept`, called with `std::move(p)`. -/
def assignThread (k : κ) (p : π) : Prog (Handles (Obj κ π)) ThreadExc Unit := do
  Handles.moveConstruct .param (.arg p)
  Prog.noexcept do
    testJoin k
    Handles.moveAssign (.thread k) .param
  Handles.destroy .param

/-- `void swap(JThread& other) noexcept` -/
def swap (k other : κ) : Prog (Handles (Obj κ π)) ThreadExc Unit :=
  .noexcept (Handles.swap (.thread k) (.thread other))

/-- `void join()` -/
def join (k : κ) : Prog (Handles (Obj κ π)) ThreadExc Unit := Handles.join (.thread k)

/-- `void detach()` -/
def detach (k : κ) : Prog (Handles (Obj κ π)) ThreadExc Unit := Handles.detach (.thread k)

def body : Op κ π → Prog (Handles (Obj κ π)) ThreadExc Unit
  | .construct k => construct k
  | .launch k starts => launch k starts
  | .fromThread k p => fromThread k p
  | .moveConstruct k other => moveConstruct k other
  | .moveAssign k rhs => moveAssign k rhs
  | .assignThread k p => assignThread k p
  | .swap k other => swap k other
  | .join k => join k
  | .detach k => detach k
  | .destroy k => destroy k
  | .argConstruct p => Handles.construct (.arg p)
  | .argLaunch p starts => Handles.launch (.arg p) starts
  | .argDestroy p => Handles.destroy (.arg p)

/-- Objects are created where there is none, and used and destroyed while they live. The
    caller hands its threads over before it destroys its own objects. -/
def pre (s : Handles (Obj κ π)) : Op κ π → Prop
  | .construct k | .launch k _ => s.alive (.thread k) = false
  | .fromThread k p => s.alive (.thread k) = false ∧ s.alive (.arg p) = true
  | .moveConstruct k other => s.alive (.thread k) = false ∧ s.alive (.thread other) = true
  | .moveAssign k other | .swap k other =>
      s.alive (.thread k) = true ∧ s.alive (.thread other) = true
  | .assignThread k p => s.alive (.thread k) = true ∧ s.alive (.arg p) = true
  | .join k | .detach k | .destroy k => s.alive (.thread k) = true
  | .argConstruct p | .argLaunch p _ => s.alive (.arg p) = false
  | .argDestroy p => s.alive (.arg p) = true ∧ s.cell (.arg p) = none

instance (s : Handles (Obj κ π)) (op : Op κ π) : Decidable (pre s op) := by
  cases op <;> unfold pre <;> infer_instance

/-- Any sequence of operations on any number of JThreads. -/
def sys : Lts (Res (Handles (Obj κ π)) ThreadExc Unit) (Op κ π) := calls Handles.empty pre body

end CppConcurrency.JThread
