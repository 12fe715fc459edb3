/-
  foo of call_once.cpp: a resource that is made on first use.

  Model. Any number of threads call foo, as often as they like. The callable is init_resource,
  `resource_ptr.reset(new some_resource)`, in two steps: `new` may throw std::bad_alloc, and so
  may reset, which allocates a control block and deletes the pointer it was given if that
  fails. Resources are numbered as they are made. do_something through a null pointer is
  undefined and has no step.

  Proved (`resource_once`): every do_something works on the one resource that was made, and none
  before it is there; a failed foo has leaked nothing and leaves the making to the next caller;
  the resource stays; and if no new calls are made, every foo returns.
-/
import CppConcurrency.Lib.CallOnce

namespace CppConcurrency.Resource

open Concur CallOnce

/-- The globals: the pointer, the resources made and deleted so far, and the resources on which
    do_something was called. -/
structure Globals where
  resource_ptr : Option ℕ
  made : ℕ
  deleted : ℕ
  done : List ℕ
  deriving DecidableEq, Repr

/-- The statements of init_resource. -/
inductive Loc where
  | new
  | reset (p : ℕ)
  deriving DecidableEq, Repr

inductive Exc where
  | badAlloc
  deriving DecidableEq, Repr

/-- `init_resource()`. The environment says whether the next allocation fails. -/
def initResource : Loc → Globals → Bool → Option (InitStmt Globals Loc Exc)
  | .new, d, fails =>
      some (if fails then .throw d .badAlloc
        else .next { d with made := d.made + 1 } (.reset d.made))
  | .reset p, d, fails =>
      some (if fails then .throw { d with deleted := d.deleted + 1 } .badAlloc
        else .ret { d with
          resource_ptr := some p
          -- what the pointer held before is deleted
          deleted := d.deleted + d.resource_ptr.isSome.toNat })

/-- `resource_ptr->do_something()` -/
def doSomething (_ : Unit) (d : Globals) (_ : Bool) : Option (Globals × Except Exc Unit) :=
  d.resource_ptr.map fun p => ({ d with done := d.done ++ [p] }, .ok ())

/-- `foo()` -/
def foo : OnceClass Globals Unit Unit Loc Exc Bool where
  entry := .new
  init := initResource
  use := doSomething

def initial : Globals := ⟨none, 0, 0, []⟩

/-- Where a thread stands in foo. -/
abbrev FooPc := Pc Unit Unit Unit Loc Exc

/-- Threads that call foo. -/
def sys (ι : Type*) [DecidableEq ι] :
    Lts (Conf ι FooPc (Objects ι Unit Globals)) (ι × Choice Unit Unit Bool) :=
  CallOnce.sys foo fun _ => initial

/-! ## What foo does to the resource -/

/-- There is no resource, and none is lost. -/
structure Fresh (d : Globals) : Prop where
  null : d.resource_ptr = none
  unused : d.done = []
  balance : d.made = d.deleted

/-- `new` has made the resource `p`. -/
structure Made (p : ℕ) (d : Globals) : Prop where
  null : d.resource_ptr = none
  unused : d.done = []
  balance : d.made = d.deleted + 1
  last : d.made = p + 1

/-- There is one resource, and all that was done was done with it. -/
structure Ready (p : ℕ) (d : Globals) : Prop where
  ptr : d.resource_ptr = some p
  same : ∀ x ∈ d.done, x = p
  balance : d.made = d.deleted + 1

def During : Loc → Globals → Prop
  | .new, d => Fresh d
  | .reset p, d => Made p d

theorem ready_use {p : ℕ} (op : Unit) (d : Globals) (b : Bool) (d' : Globals)
    (r : Except Exc Unit) (h : Ready p d) (hu : doSomething op d b = some (d', r)) :
    Ready p d' := by
  rw [doSomething, h.ptr] at hu
  cases hu
  refine ⟨rfl, fun x hx => ?_, h.balance⟩
  rcases List.mem_append.mp hx with hx | hx
  · exact h.same x hx
  · exact List.mem_singleton.mp hx

theorem guarantees : Guarantees foo (fun _ : Unit => Fresh) (fun _ => During)
    fun _ d => ∃ p, Ready p d where
  entry h := h
  next := by
    intro q k d b d' k' h hi
    cases k with
    | new =>
        cases b with
        | true => cases hi
        | false =>
            cases hi
            exact ⟨h.null, h.unused, congrArg (· + 1) h.balance, rfl⟩
    | reset p => cases b <;> cases hi
  ret := by
    intro q k d b d' h hi
    cases k with
    | new => cases b <;> cases hi
    | reset p =>
        cases b with
        | true => cases hi
        | false =>
            cases hi
            refine ⟨p, rfl, ?_, ?_⟩
            · rw [h.unused]
              nofun
            · rw [h.null]
              exact h.balance
  throw := by
    intro q k d b d' e h hi
    cases k with
    | new =>
        cases b with
        | true =>
            cases hi
            exact h
        | false => cases hi
    | reset p =>
        cases b with
        | true =>
            cases hi
            exact ⟨h.null, h.unused, h.balance⟩
        | false => cases hi
  use := by
    rintro q op d b d' r ⟨p, h⟩ hu
    exact ⟨p, ready_use op d b d' r h hu⟩

/-- The statements init_resource has left. -/
def Loc.left : Loc → ℕ
  | .new => 1
  | .reset _ => 0

theorem ends : Ends foo (fun _ : Unit => During) (fun _ d => ∃ p, Ready p d) Loc.left 2 where
  short
    | .new => Nat.one_lt_two
    | .reset _ => Nat.two_pos
  down := by
    intro k d b d' k' hi
    cases k with
    | new =>
        cases b with
        | true => cases hi
        | false =>
            cases hi
            exact Nat.one_pos
    | reset p => cases b <;> cases hi
  init := by
    rintro q k d -
    exact ⟨true, by cases k <;> nofun⟩
  use := by
    rintro op q d ⟨p, h⟩
    refine ⟨true, ?_⟩
    simp [foo, doSomething, h.ptr]

variable {ι : Type*} [DecidableEq ι] {c : Conf ι FooPc (Objects ι Unit Globals)}

theorem fresh_initial : Fresh initial := ⟨rfl, rfl, rfl⟩

/-- **One resource, made once.** In every reachable state: at most one thread is in
    init_resource. Until it has succeeded, nothing was done, `resource_ptr` is null, and every
    resource that was made is deleted or in the hands of the thread that makes it. Afterwards
    there is one resource, on which all do_something work, now and after every further run.
    Behind call_once it is there. If no new calls are made, all calls of foo return after a
    bounded number of steps. -/
theorem resource_once [Fintype ι] (h : (sys ι).Reachable c) :
    (∀ t u k k', c.loc t = .init () () k → c.loc u = .init () () k' → t = u) ∧
    (c.shared.flag () ≠ .finished → (c.shared.data ()).done = [] ∧
      (c.shared.data ()).resource_ptr = none) ∧
    (c.shared.flag () = .idle → (c.shared.data ()).made = (c.shared.data ()).deleted) ∧
    (c.shared.flag () = .finished → ∃ p, ∀ as c', (sys ι).exec Lts.anyStep c as = some c' →
      Ready p (c'.shared.data ())) ∧
    (∀ t, c.loc t = .use () () → (c.shared.data ()).resource_ptr ≠ none) ∧
    (sys ι).Finishes (Threads.Busy Pc.Rest) (fun c => ∀ t, (c.loc t).Rest)
      (sumAt (Pc.left Loc.left 2) c.loc) c := by
  have h₀ : ∀ q : Unit, Fresh initial := fun _ => fresh_initial
  obtain ⟨hs, hp⟩ := guarantees.reach h₀ h
  refine ⟨fun t u k k' ht hu => ?_, fun hf => ?_, fun hf => ((hs ()).1 hf).balance, fun hf => ?_,
    fun t ht => ?_, CallOnce.returns guarantees ends h₀ h⟩
  · have hft := ((hp t).running ()).mpr (by rw [ht]; rfl)
    have hfu := ((hp u).running ()).mpr (by rw [hu]; rfl)
    exact Flag.running.inj (hft.symm.trans hfu)
  · cases hflag : c.shared.flag () with
    | idle =>
        have hfresh := (hs ()).1 hflag
        exact ⟨hfresh.unused, hfresh.null⟩
    | finished => exact absurd hflag hf
    | running t =>
        have hi := ((hp t).running ()).mp hflag
        cases hl : c.loc t with
        | init q op k =>
            have hd := (hp t).during () op k hl
            cases k with
            | new => exact ⟨hd.unused, hd.null⟩
            | reset p => exact ⟨hd.unused, hd.null⟩
        | rest | callOnce | use =>
            rw [hl] at hi
            cases hi
  · obtain ⟨p, hready⟩ := (hs ()).2 hf
    refine ⟨p, fun as c' hc => ?_⟩
    exact (guarantees.finished h₀ (R := Ready p) ready_use h hf hready hc).2
  · obtain ⟨p, hready⟩ := (hs ()).2 ((hp t).behind () () ht)
    rw [hready.ptr]
    nofun

/-- Thread `false` has failed to make the resource, and thread `true` has made it. -/
def secondMade : Conf Bool FooPc (Objects Bool Unit Globals) :=
  ((sys Bool).exec Lts.anyStep ⟨fun _ => .rest none, ⟨fun _ => .idle, fun _ => initial⟩⟩
    [(false, .call () ()), (false, .go true), (true, .call () ()), (false, .go false),
      (false, .go true), (true, .go true), (true, .go false), (true, .go false)]).get (by decide)

theorem resource_once_secondMade :
    (secondMade.shared.data ()).deleted = 1 ∧ (secondMade.shared.data ()).resource_ptr = some 1 ∧
      ∃ p, Ready p (secondMade.shared.data ()) := by
  have hc : (sys Bool).Reachable secondMade :=
    .exec _ (.start ⟨rfl, rfl⟩) (Option.some_get _).symm
  obtain ⟨-, -, -, hready, -⟩ := resource_once hc
  obtain ⟨p, hp⟩ := hready (by decide)
  exact ⟨by decide, by decide, p, hp [] _ rfl⟩

end CppConcurrency.Resource
