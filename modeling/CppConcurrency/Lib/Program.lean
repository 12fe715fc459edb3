/-
  Programs that return, throw or terminate, and sequences of calls to them.

  A `Prog σ ε α` reads and writes a state `σ`. It returns a value, leaves by an exception
  (the state is then the one the exception left behind), or ends the whole program.
  `Prog.noexcept` turns an exception into the end of the program, as a function that
  promises not to throw does; `Prog.tryCatch` hands it to a handler.

  `Triple P p Q E`: from a state with `P`, `p` does not end the program; if it returns,
  `Q` holds of the value and the state, and if it throws, `E` of the exception and the
  state. There is one rule for each way to build a program.

  `Within R p` bounds what `p` can change on any way out: wherever it goes on from is
  related by `R` to where it started.

  `calls` is the transition system of a caller that issues one call after another and
  goes on after an exception. `calls_invariant` is its invariant rule: what every call
  keeps, on return and on exception, holds after every run, and no run ends the program.
-/
import CppConcurrency.Lib.Lts

namespace Concur

variable {σ ε α β : Type*}

/-- How a call ends. -/
inductive Res (σ ε α : Type*)
  | ok (a : α) (s : σ)
  | threw (e : ε) (s : σ)
  | terminated
  deriving DecidableEq, Repr

/-- A program over the state `σ` with exceptions `ε`. -/
def Prog (σ ε α : Type*) := σ → Res σ ε α

namespace Res

/-- It returned with `Q` or threw with `E`; the program goes on. -/
def Ends (Q : α → σ → Prop) (E : ε → σ → Prop) : Res σ ε α → Prop
  | ok a s => Q a s
  | threw e s => E e s
  | terminated => False

/-- The state the program goes on from. -/
def state? : Res σ ε α → Option σ
  | ok _ s => some s
  | threw _ s => some s
  | terminated => none

theorem Ends.imp {Q Q' : α → σ → Prop} {E E' : ε → σ → Prop} {r : Res σ ε α}
    (h : r.Ends Q E) (hQ : ∀ a s, Q a s → Q' a s) (hE : ∀ e s, E e s → E' e s) :
    r.Ends Q' E' := by
  cases r with
  | ok a s => exact hQ a s h
  | threw e s => exact hE e s h
  | terminated => exact h

/-- No exception leaves. -/
def never (_ : ε) (_ : σ) : Prop := False

theorem Ends.quiet {Q : α → σ → Prop} {E : ε → σ → Prop} {r : Res σ ε α}
    (h : r.Ends Q never) : r.Ends Q E :=
  h.imp (fun _ _ hq => hq) fun _ _ he => he.elim

theorem Ends.ne_terminated {Q : α → σ → Prop} {E : ε → σ → Prop} {r : Res σ ε α}
    (h : r.Ends Q E) : r ≠ terminated := by
  intro hr
  rw [hr] at h
  exact h

theorem Ends.exists_state {Q : α → σ → Prop} {E : ε → σ → Prop} {r : Res σ ε α}
    (h : r.Ends Q E) : ∃ s, r.state? = some s := by
  cases r with
  | ok a s => exact ⟨s, rfl⟩
  | threw e s => exact ⟨s, rfl⟩
  | terminated => exact h.elim

/-- A property of the state alone, however the call ended. -/
theorem Ends.state {P : σ → Prop} {r : Res σ ε α} (h : r.Ends (fun _ => P) fun _ => P) {s : σ}
    (hs : r.state? = some s) : P s := by
  cases r with
  | ok a u => cases hs; exact h
  | threw e u => cases hs; exact h
  | terminated => cases hs

end Res

open Res (never)

namespace Prog

/-- Return at once. -/
def ret (a : α) : Prog σ ε α := fun s => .ok a s

/-- Sequence: an exception skips the rest. -/
def seq (p : Prog σ ε α) (f : α → Prog σ ε β) : Prog σ ε β := fun s =>
  match p s with
  | .ok a s' => f a s'
  | .threw e s' => .threw e s'
  | .terminated => .terminated

instance : Monad (Prog σ ε) where
  pure := ret
  bind := seq

/-- Read the state. -/
def read (f : σ → α) : Prog σ ε α := fun s => .ok (f s) s

/-- Change the state. -/
def write (f : σ → σ) : Prog σ ε Unit := fun s => .ok () (f s)

/-- Throw. -/
def throwing (e : ε) : Prog σ ε α := fun s => .threw e s

/-- Run `p`; an exception goes to the handler. -/
def tryCatch (p : Prog σ ε α) (h : ε → Prog σ ε α) : Prog σ ε α := fun s =>
  match p s with
  | .ok a s' => .ok a s'
  | .threw e s' => h e s'
  | .terminated => .terminated

/-- A function that must not throw: an exception that would leave it ends the program. -/
def noexcept (p : Prog σ ε α) : Prog σ ε α := fun s =>
  match p s with
  | .ok a s' => .ok a s'
  | .threw _ _ => .terminated
  | .terminated => .terminated

/-- Run `p`, then `cleanup`, which runs also when `p` throws. -/
def andFinally (p : Prog σ ε α) (cleanup : Prog σ ε Unit) : Prog σ ε α :=
  seq (tryCatch p fun e => seq cleanup fun _ => throwing e) fun a =>
    seq cleanup fun _ => ret a

section Eval

variable {s s' : σ}

end Eval

/-- A function that keeps its promise not to throw. -/
theorem noexcept_ends {p : Prog σ ε α} {s : σ} {Q : α → σ → Prop} {E : ε → σ → Prop}
    (h : (p s).Ends Q never) : (noexcept p s).Ends Q E := by
  unfold noexcept
  cases hps : p s with
  | ok a s' =>
      rw [hps] at h
      exact h
  | threw e s' =>
      rw [hps] at h
      exact h.elim
  | terminated =>
      rw [hps] at h
      exact h

/-! ## Triples -/

/-- From a state with `P` the program ends with `Q` or, by an exception, with `E`. -/
def Triple (P : σ → Prop) (p : Prog σ ε α) (Q : α → σ → Prop) (E : ε → σ → Prop) : Prop :=
  ∀ s, P s → (p s).Ends Q E

namespace Triple

variable {P P' : σ → Prop} {p : Prog σ ε α} {Q Q' : α → σ → Prop} {E E' : ε → σ → Prop}

theorem conseq (h : Triple P p Q E) (hP : ∀ s, P' s → P s) (hQ : ∀ a s, Q a s → Q' a s)
    (hE : ∀ e s, E e s → E' e s) : Triple P' p Q' E' := by
  intro s hs
  exact (h s (hP s hs)).imp hQ hE

theorem post (h : Triple P p Q E) (hQ : ∀ a s, Q a s → Q' a s) : Triple P p Q' E :=
  h.conseq (fun _ hp => hp) hQ fun _ _ he => he

theorem exc (h : Triple P p Q E) (hE : ∀ e s, E e s → E' e s) : Triple P p Q E' :=
  h.conseq (fun _ hp => hp) (fun _ _ hq => hq) hE

/-- A program that never throws meets every exceptional postcondition. -/
theorem quiet (h : Triple P p Q never) : Triple P p Q E :=
  fun s hs => (h s hs).quiet

/-- A program that never throws returns. -/
theorem returns (h : Triple P p Q never) {s : σ} (hs : P s) : ∃ a s', p s = .ok a s' ∧ Q a s' := by
  have hr := h s hs
  cases hps : p s with
  | ok a s' =>
      rw [hps] at hr
      exact ⟨a, s', rfl, hr⟩
  | threw e s' =>
      rw [hps] at hr
      exact hr.elim
  | terminated =>
      rw [hps] at hr
      exact hr.elim

theorem ret {a : α} (h : ∀ s, P s → Q a s) : Triple P (Prog.ret a : Prog σ ε α) Q E := by
  intro s hs
  exact h s hs

theorem seq {f : α → Prog σ ε β} {R : β → σ → Prop} (hp : Triple P p Q E)
    (hf : ∀ a, Triple (Q a) (f a) R E) : Triple P (Prog.seq p f) R E := by
  intro s hs
  have h := hp s hs
  unfold Prog.seq
  cases hr : p s with
  | ok a s' =>
      rw [hr] at h
      exact hf a s' h
  | threw e s' =>
      rw [hr] at h
      exact h
  | terminated =>
      rw [hr] at h
      exact h

theorem read {f : σ → α} (h : ∀ s, P s → Q (f s) s) :
    Triple P (Prog.read f : Prog σ ε α) Q E := by
  intro s hs
  exact h s hs

theorem write {f : σ → σ} {R : Unit → σ → Prop} (h : ∀ s, P s → R () (f s)) :
    Triple P (Prog.write f : Prog σ ε Unit) R E := by
  intro s hs
  exact h s hs

theorem throwing {e : ε} (h : ∀ s, P s → E e s) :
    Triple P (Prog.throwing e : Prog σ ε α) Q E := by
  intro s hs
  exact h s hs

theorem tryCatch {h : ε → Prog σ ε α} (hp : Triple P p Q E') (hh : ∀ e, Triple (E' e) (h e) Q E) :
    Triple P (Prog.tryCatch p h) Q E := by
  intro s hs
  have hr := hp s hs
  unfold Prog.tryCatch
  cases hps : p s with
  | ok a s' =>
      rw [hps] at hr
      exact hr
  | threw e s' =>
      rw [hps] at hr
      exact hh e s' hr
  | terminated =>
      rw [hps] at hr
      exact hr

theorem noexcept (hp : Triple P p Q never) : Triple P (Prog.noexcept p) Q E :=
  fun s hs => noexcept_ends (hp s hs)

theorem andFinally {c : Prog σ ε Unit} {R : α → σ → Prop} (hp : Triple P p Q E')
    (hQ : ∀ a, Triple (Q a) c (fun _ => R a) E) (hE : ∀ e, Triple (E' e) c (fun _ => E e) E) :
    Triple P (Prog.andFinally p c) R E := by
  unfold Prog.andFinally
  refine seq (Q := Q) (tryCatch hp fun e => ?_) fun a => ?_
  · exact seq (hE e) fun _ => throwing fun _ h => h
  · exact seq (hQ a) fun _ => ret fun _ h => h

end Triple

end Prog

/-! ## What a program can change -/

namespace Prog

/-- Wherever `p` goes on from, that state is related to the one it started in. -/
def Within (R : σ → σ → Prop) (p : Prog σ ε α) : Prop :=
  ∀ s s', (p s).state? = some s' → R s s'

namespace Within

variable {R : σ → σ → Prop} {p : Prog σ ε α}

theorem ret (hr : ∀ s, R s s) (a : α) : Within R (Prog.ret a : Prog σ ε α) := by
  intro s s' h
  cases h
  exact hr s

theorem throwing (hr : ∀ s, R s s) (e : ε) : Within R (Prog.throwing e : Prog σ ε α) := by
  intro s s' h
  cases h
  exact hr s

theorem read (hr : ∀ s, R s s) (f : σ → α) : Within R (Prog.read f : Prog σ ε α) := by
  intro s s' h
  cases h
  exact hr s

theorem seq (ht : ∀ s u v, R s u → R u v → R s v) {f : α → Prog σ ε β} (hp : Within R p)
    (hf : ∀ a, Within R (f a)) : Within R (Prog.seq p f) := by
  intro s s' h
  unfold Prog.seq at h
  have hps := hp s
  cases hr : p s with
  | ok a u =>
      rw [hr] at h hps
      exact ht s u s' (hps u rfl) (hf a u s' h)
  | threw e u =>
      rw [hr] at h hps
      exact hps s' h
  | terminated =>
      rw [hr] at h
      cases h

theorem tryCatch (ht : ∀ s u v, R s u → R u v → R s v) {f : ε → Prog σ ε α} (hp : Within R p)
    (hf : ∀ e, Within R (f e)) : Within R (Prog.tryCatch p f) := by
  intro s s' h
  unfold Prog.tryCatch at h
  have hps := hp s
  cases hr : p s with
  | ok a u =>
      rw [hr] at h hps
      exact hps s' h
  | threw e u =>
      rw [hr] at h hps
      exact ht s u s' (hps u rfl) (hf e u s' h)
  | terminated =>
      rw [hr] at h
      cases h

theorem noexcept (hp : Within R p) : Within R (Prog.noexcept p) := by
  intro s s' h
  unfold Prog.noexcept at h
  have hps := hp s
  cases hr : p s with
  | ok a u =>
      rw [hr] at h hps
      exact hps s' h
  | threw e u =>
      rw [hr] at h
      cases h
  | terminated =>
      rw [hr] at h
      cases h

theorem andFinally (hr : ∀ s, R s s) (ht : ∀ s u v, R s u → R u v → R s v)
    {c : Prog σ ε Unit} (hp : Within R p) (hc : Within R c) :
    Within R (Prog.andFinally p c) := by
  unfold Prog.andFinally
  refine seq ht (tryCatch ht hp fun e => ?_) fun a => ?_
  · exact seq ht hc fun _ => throwing hr e
  · exact seq ht hc fun _ => ret hr a

end Within

end Prog

/-! ## Sequences of calls -/

section Calls

variable {κ : Type*} (start : σ) (pre : σ → κ → Prop) [∀ s c, Decidable (pre s c)]
  (body : κ → Prog σ ε Unit)

/-- A caller issues one call after another, each where its precondition holds, and goes on
    after an exception. The state of the system is how the last call ended. -/
def calls : Lts (Res σ ε Unit) κ where
  init r := r = .ok () start
  step r c := r.state?.bind fun s => if pre s c then some (body c s) else none

variable {start pre body}

/-- A step of the caller is a call from the state that the last call left. -/
theorem calls_step {r r' : Res σ ε Unit} {c : κ}
    (h : (calls start pre body).step r c = some r') :
    ∃ s, r.state? = some s ∧ pre s c ∧ r' = body c s := by
  obtain ⟨s, hs, h⟩ := Option.bind_eq_some_iff.mp h
  split at h
  · next hp => exact ⟨s, hs, hp, (Option.some.inj h).symm⟩
  · cases h

/-- A call from the state that the last call left is a step of the caller. -/
theorem calls_step_of {r : Res σ ε Unit} {s : σ} {c : κ} (hs : r.state? = some s)
    (hp : pre s c) : (calls start pre body).step r c = some (body c s) := by
  change (r.state?.bind fun s => if pre s c then some (body c s) else none) = some (body c s)
  rw [hs]
  exact if_pos hp

/-- What every admitted call keeps holds after every run of admitted calls, and such a run
    does not end the program. -/
theorem calls_invariant {G : Res σ ε Unit → κ → Prop} {I : σ → Prop} (hstart : I start)
    (hbody : ∀ r c s, G r c → r.state? = some s → I s → pre s c →
      (body c s).Ends (fun _ => I) fun _ => I)
    {r : Res σ ε Unit} (h : (calls start pre body).Reach G r) :
    r.Ends (fun _ => I) fun _ => I := by
  induction h with
  | start h =>
      rw [show _ = _ from h]
      exact hstart
  | next _ hg h ih =>
      obtain ⟨s, hs, hp, rfl⟩ := calls_step h
      exact hbody _ _ _ hg hs (ih.state hs) hp

end Calls

end Concur
