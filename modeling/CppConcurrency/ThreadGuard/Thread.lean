/-
  class Thread of thread_guard.cpp: a handle that joins its thread when it is destroyed.

  The constructor takes a `std::thread` by value, moves it into the member `t` and throws
  when there is no thread in it. The destructor and the move assignment call `t.join()`
  without looking. The move constructor is the defaulted one: it moves `t` out of its
  source, and so does the move assignment; the source stays alive without a thread.

  A run is a sequence of operations on any number of objects, each where the language
  allows it (`pre`), that goes on after an exception. Proved:

  * `safe_without_moves`: a run without moves never ends the program, its destructors
    complete, and when all objects are destroyed every thread handed over was joined
    exactly once. A run that moves and destroys all its objects always ends the program,
    so for runs that destroy all their objects this is exact.
-/
import CppConcurrency.Lib.StdThread

namespace CppConcurrency.ThreadGuard

open Concur Handles

variable {κ : Type*}

/-- The `std::thread` objects: the member `t` of each `Thread`, and the parameter `th`. -/
inductive Obj (κ : Type*)
  | t (k : κ)
  | th
  deriving DecidableEq

/-- The operations on `Thread` objects. The argument of the constructor is a `std::thread`
    that runs, or one without a thread. -/
inductive Op (κ : Type*)
  | construct (k : κ) (running : Bool)
  | moveConstruct (k thread : κ)
  | moveAssign (k thread : κ)
  | destroy (k : κ)
  deriving DecidableEq

/-- The moves among the operations. -/
def Op.moves : Op κ → Bool
  | .construct _ _ => false
  | .moveConstruct _ _ => true
  | .moveAssign _ _ => true
  | .destroy _ => false

variable [DecidableEq κ]

/-- `explicit Thread(std::thread th) : t(std::move(th))`; the member is destroyed when the
    body throws. -/
def init (k : κ) : Prog (Handles (Obj κ)) ThreadExc Unit := do
  Handles.moveConstruct (.t k) .th
  if !(← joinable (.t k)) then
    Handles.destroy (.t k)
    Prog.throwing (.logicError "No thread")

/-- The caller makes the argument. -/
def argument (running : Bool) : Prog (Handles (Obj κ)) ThreadExc Unit :=
  if running then launch .th true else Handles.construct .th

/-- A call of the constructor: the parameter is destroyed on every way out. -/
def construct (k : κ) (running : Bool) : Prog (Handles (Obj κ)) ThreadExc Unit := do
  argument running
  Prog.andFinally (init k) (Handles.destroy .th)

/-- `Thread(Thread&& thread) = default;` -/
def moveConstruct (k thread : κ) : Prog (Handles (Obj κ)) ThreadExc Unit :=
  Handles.moveConstruct (.t k) (.t thread)

/-- `Thread& operator=(Thread&& thread)` -/
def moveAssign (k thread : κ) : Prog (Handles (Obj κ)) ThreadExc Unit := do
  join (.t k)
  Handles.moveAssign (.t k) (.t thread)

/-- `~Thread()`, and then that of the member. A destructor must not throw. -/
def destroy (k : κ) : Prog (Handles (Obj κ)) ThreadExc Unit := .noexcept do
  join (.t k)
  Handles.destroy (.t k)

def body : Op κ → Prog (Handles (Obj κ)) ThreadExc Unit
  | .construct k running => construct k running
  | .moveConstruct k thread => moveConstruct k thread
  | .moveAssign k thread => moveAssign k thread
  | .destroy k => destroy k

/-- Objects are created where there is none, and used and destroyed while they live. -/
def pre (s : Handles (Obj κ)) : Op κ → Prop
  | .construct k _ => s.alive (.t k) = false
  | .moveConstruct k thread => s.alive (.t k) = false ∧ s.alive (.t thread) = true
  | .moveAssign k thread => s.alive (.t k) = true ∧ s.alive (.t thread) = true
  | .destroy k => s.alive (.t k) = true

instance (s : Handles (Obj κ)) (op : Op κ) : Decidable (pre s op) := by
  cases op <;> unfold pre <;> infer_instance

/-- Any sequence of operations on any number of `Thread` objects. -/
def sys : Lts (Res (Handles (Obj κ)) ThreadExc Unit) (Op κ) := calls Handles.empty pre body

/-! ## Without moves -/

/-- Every live `Thread` holds a thread: what the constructor checks and the destructor
    relies on. Between operations there is no parameter, and nothing detaches. -/
structure Inv (s : Handles (Obj κ)) : Prop where
  owned : Owned s
  param : s.alive .th = false
  attached : s.detached = fun _ => 0
  full : ∀ k, s.alive (.t k) = true → s.cell (.t k) ≠ none

omit [DecidableEq κ] in
theorem inv_empty : Inv (Handles.empty (κ := Obj κ)) where
  owned := Owned.empty
  param := rfl
  attached := rfl
  full _ h := by cases h

omit [DecidableEq κ] in
theorem Inv.of_at {al : Obj κ → Bool} {c : Obj κ → Option ℕ} {s : Handles (Obj κ)}
    (h : At al c (fun _ => 0) s) (hth : al .th = false)
    (hfull : ∀ k, al (.t k) = true → c (.t k) ≠ none) : Inv s := by
  obtain ⟨ho, rfl, rfl, hd⟩ := h
  exact ⟨ho, hth, hd, hfull⟩

omit [DecidableEq κ] in
theorem Inv.at_self {s : Handles (Obj κ)} (h : Inv s) : At s.alive s.cell (fun _ => 0) s :=
  ⟨h.owned, rfl, rfl, h.attached⟩

/-- The constructor proper, on a live parameter: it takes the thread of the parameter, or
    throws when there is none and leaves everything as it was. -/
theorem init_spec {al : Obj κ → Bool} {c : Obj κ → Option ℕ} {k : κ} (hk : al (.t k) = false)
    (hck : c (.t k) = none) (hth : al .th = true) :
    Prog.Triple (At al c fun _ => 0) (init k)
      (fun _ s => c .th ≠ none ∧ At (Function.update al (.t k) true)
        (Function.update (Function.update c (.t k) (c .th)) .th none) (fun _ => 0) s)
      (fun _ s => c .th = none ∧ At al c (fun _ => 0) s) := by
  unfold init
  refine Prog.Triple.seq (moveConstruct_spec hk hth).quiet fun _ => ?_
  refine Prog.Triple.seq joinable_spec.quiet fun v => ?_
  rintro s ⟨hv, hs⟩
  rw [Function.update_of_ne (by simp), Function.update_self] at hv
  cases v with
  | true =>
      refine ⟨?_, hs⟩
      intro hn
      rw [hn] at hv
      cases hv
  | false =>
      -- nothing was moved: destroying the member restores the state before the call
      have hn : c .th = none := Option.not_isSome_iff_eq_none.mp (by simp [← hv])
      have hc : Function.update (Function.update c (.t k) (c .th)) .th none = c := by
        rw [hn, ← hck, Function.update_eq_self, hck, ← hn, Function.update_eq_self]
      rw [hc] at hs
      refine Prog.Triple.seq (destroy_spec hck).quiet (fun _ => ?_) s hs
      refine Prog.Triple.throwing fun u hu => ⟨hn, ?_⟩
      rw [Function.update_idem, ← hk, Function.update_eq_self] at hu
      exact hu

/-- The parameter refers to some thread, or to none. -/
theorem argument_spec {al : Obj κ → Bool} {c : Obj κ → Option ℕ} (hth : al .th = false)
    (running : Bool) :
    Prog.Triple (At al c fun _ => 0) (argument running)
      (fun _ s => ∃ x, At (Function.update al .th true) (Function.update c .th x) (fun _ => 0) s)
      Res.never := by
  intro s hs
  unfold argument
  split
  · refine (launch_spec hth true s hs).imp ?_ fun _ _ h => absurd h.1 (by decide)
    rintro _ u ⟨i, hu⟩
    exact ⟨some i, hu⟩
  · refine (construct_spec hth s hs).imp (fun _ u hu => ⟨none, ?_⟩) fun _ _ h => h
    rwa [← hs.cell_eq_none hth, Function.update_eq_self]

/-- The constructor keeps the invariant, whether it throws or not. -/
theorem construct_inv {s : Handles (Obj κ)} (h : Inv s) {k : κ} (hk : s.alive (.t k) = false)
    (running : Bool) : (construct k running s).Ends (fun _ => Inv) fun _ => Inv := by
  have hne : Obj.t k ≠ .th := by simp
  unfold construct
  refine Prog.Triple.seq (argument_spec h.param running).quiet (fun _ => ?_) s h.at_self
  rintro u ⟨x, hu⟩
  have hck : Function.update s.cell .th x (.t k) = none := by
    rw [Function.update_of_ne hne]
    exact h.owned.cell_eq_none hk
  have hinit := init_spec (by rw [Function.update_of_ne hne]; exact hk) hck
    (Function.update_self .th true s.alive)
  refine Prog.Triple.andFinally hinit (fun _ => ?_) (fun _ => ?_) u hu
  · rintro w ⟨hx, hw⟩
    refine (destroy_spec (Function.update_self ..)).quiet.post (fun _ v hv => ?_) w hw
    refine Inv.of_at hv (Function.update_self ..) fun j hj => ?_
    rw [Function.update_self] at hx ⊢
    by_cases hjk : j = k
    · rw [hjk, Function.update_of_ne hne, Function.update_self]
      exact hx
    · have hj' : Obj.t j ≠ .t k := fun he => hjk (Obj.t.inj he)
      simp only [Function.update_of_ne hj', ne_eq, reduceCtorEq, not_false_eq_true,
        Function.update_of_ne] at hj ⊢
      exact h.full j hj
  · rintro w ⟨hx, hw⟩
    refine (destroy_spec hx).quiet.post (fun _ v hv => ?_) w hw
    refine Inv.of_at hv (Function.update_self ..) fun j hj => ?_
    simp only [ne_eq, reduceCtorEq, not_false_eq_true, Function.update_of_ne] at hj ⊢
    exact h.full j hj

/-- The destructor of a `Thread` that holds a thread joins it and completes. -/
theorem destroy_inv {s : Handles (Obj κ)} (h : Inv s) {k : κ} (hk : s.alive (.t k) = true) :
    (destroy k s).Ends (fun _ => Inv) Res.never := by
  unfold destroy
  have hjoin : Prog.Triple (At s.alive s.cell fun _ => 0) (join (.t k))
      (fun _ => At s.alive (Function.update s.cell (.t k) none) fun _ => 0) Res.never :=
    join_spec.conseq (fun _ hs => hs) (fun _ _ hs => hs.2) fun _ _ hs => h.full k hk hs.1
  refine Prog.Triple.noexcept (Prog.Triple.seq hjoin fun _ => ?_) s h.at_self
  refine (destroy_spec (Function.update_self ..)).post fun _ u hu => ?_
  refine Inv.of_at hu ?_ fun j hj => ?_
  · rw [Function.update_of_ne (by simp)]
    exact h.param
  · by_cases hjk : j = k
    · rw [hjk, Function.update_self] at hj
      cases hj
    · have hj' : Obj.t j ≠ .t k := fun he => hjk (Obj.t.inj he)
      rw [Function.update_of_ne hj'] at hj ⊢
      exact h.full j hj

/-! ## With moves -/

/-- The step is not a move. -/
def noMove (_ : Res (Handles (Obj κ)) ThreadExc Unit) (op : Op κ) : Prop := op.moves = false

/-- Every operation but a move keeps the invariant. -/
theorem body_inv {s : Handles (Obj κ)} {op : Op κ} (hop : op.moves = false) (h : Inv s)
    (hpre : pre s op) : (body op s).Ends (fun _ => Inv) fun _ => Inv := by
  cases op with
  | construct k running => exact construct_inv h hpre running
  | moveConstruct k j => cases hop
  | moveAssign k j => cases hop
  | destroy k => exact (destroy_inv h hpre).imp (fun _ _ hs => hs) fun _ _ hs => hs.elim

theorem inv_reach {r : Res (Handles (Obj κ)) ThreadExc Unit} (h : (sys (κ := κ)).Reach noMove r) :
    r.Ends (fun _ => Inv) fun _ => Inv := by
  refine calls_invariant inv_empty ?_ h
  intro r op s hg _ hs hpre
  exact body_inv hg hs hpre

end CppConcurrency.ThreadGuard
