/-
  The workers of ThreadSafeStack_use.cpp come to their ends.

  Model. That of `ThreadSafeStack.Work`: one or more workers on one stack with any contents.
  An exception that leaves work() ends the program, so that no step follows it (`Running`).

  Proved:
  * `work_ends`: from the start no run is longer than ten steps for each worker and fifteen for
    each pair in the stack, and a run that cannot be continued has ended in one of two ways. A
    worker died of empty_stack, which takes two workers and a stack with something in it. Or all
    workers have left their loops, the stack is empty, its mutex is free, and the equations of
    the contents have been printed, each once.

  A worker that takes an element is at most fifteen steps away from taking the next one, or from
  leaving its loop (`workLeft`).
-/
import CppConcurrency.Lib.Progress
import CppConcurrency.ThreadSafeStack.WorkOutput
import CppConcurrency.ThreadSafeStack.WorkRace

namespace CppConcurrency.ThreadSafeStack

open Concur

/-- The steps of a worker until it takes an element out of the stack. -/
def workLeft : Ctl × StackPc → ℕ
  | (.popping, .body _ _ (.popTest _)) => 3
  | (.popping, .body _ _ (.popTop _)) => 2
  | (.popping, .body _ _ (.popData _ _)) => 1
  | (.popping, .body _ _ _) => 15
  | (.popping, .unlock _ _ (some (.out _))) => 14
  | (.popping, .idle (some (.ret (.out _)))) => 13
  | (.printId _, _) => 12
  | (.printEq _, _) => 11
  | (.test, _) => 10
  | (.testing, .lock _ _) => 9
  | (.testing, .body _ _ _) => 8
  | (.testing, .unlock _ _ _) => 7
  | (.testing, _) => 6
  | (.pop, _) => 5
  | (.popping, .lock _ _) => 4
  -- on its way out with empty_stack
  | (.popping, .unlock _ _ _) => 2
  | (.popping, _) => 1
  | (.left, _) => 0
  | (.died, _) => 0

/-- pop(a_b) has found something there. -/
def Fed (d : List Operands) : StackPc → Prop
  | .body _ _ (.popTop _) => d ≠ []
  | .body _ _ (.popData _ _) => d ≠ []
  | _ => True

variable {ι : Type*} [Fintype ι]

/-- What the workers have in front of them. -/
def workMeasure (s : WorkSt ι) : ℕ :=
  sumAt workLeft (places s.ctl s.mon.pc) + 15 * (s.mon.data ()).length

/-- No exception has left work(). -/
def Running (s : WorkSt ι) (_ : WorkAct ι) : Prop := ∀ t, s.ctl t ≠ .died

instance (s : WorkSt ι) (a : WorkAct ι) : Decidable (Running s a) :=
  inferInstanceAs (Decidable (∀ t, s.ctl t ≠ .died))

/-- How the program ends: a worker died, or all has been printed. -/
def Ended (contents : List Operands) (s : WorkSt ι) : Prop :=
  (1 < Fintype.card ι ∧ contents ≠ [] ∧ ∃ t, s.ctl t = .died) ∨
  ((∀ t, s.ctl t = .left) ∧ s.mon.data () = [] ∧ s.mon.owner () = none ∧
    (equations s.out : Multiset Equation) = stored contents)

variable [DecidableEq ι] {s s' : WorkSt ι} {a : WorkAct ι} {contents : List Operands}

/-! ## Every step leaves less to do -/

/-- A step inside a member. -/
theorem Inside.workLeft_lt {c : Ctl} {d d' : List Operands} {p p' : StackPc}
    (h : Inside c d p d' p') :
    workLeft (c, p') + 15 * d'.length < workLeft (c, p) + 15 * d.length := by
  cases h with
  | @popData v w =>
      -- the one step to an element pays for the fifteen to the next
      rw [List.length_append, List.length_singleton]
      change 15 + 15 * d'.length < 1 + 15 * (d'.length + 1)
      omega
  | _ => exact Nat.add_lt_add_right (by simp only [workLeft, Nat.reduceLT]) _

/-- One worker moves, and has less to do afterwards. -/
theorem workMeasure_lt {t : ι} {c c' : Ctl} {p p' : StackPc} (hc : s.ctl t = c)
    (hpc : s.mon.pc t = p) (hctl : s'.ctl = Function.update s.ctl t c')
    (hpcs : s'.mon.pc = Function.update s.mon.pc t p')
    (hlt : workLeft (c', p') + 15 * (s'.mon.data ()).length <
      workLeft (c, p) + 15 * (s.mon.data ()).length) : workMeasure s' < workMeasure s := by
  have hsum := sumAt_update workLeft (places s.ctl s.mon.pc) t (c', p')
  have hat : places s.ctl s.mon.pc t = (c, p) := by rw [places, hc, hpc]
  rw [hat] at hsum
  unfold workMeasure
  rw [hctl, hpcs, places_both]
  omega

/-- A step of work() itself. -/
theorem workMeasure_ctl {t : ι} (hm : WorkMoves s (.ctl t) s') :
    workMeasure s' < workMeasure s := by
  have hsame : s.mon.pc = Function.update s.mon.pc t (s.mon.pc t) :=
    (Function.update_eq_self t s.mon.pc).symm
  cases hm with
  | callEmpty hc hpc | callPop hc hpc =>
      exact workMeasure_lt hc hpc rfl rfl
        (Nat.add_lt_add_right (by simp only [workLeft, Nat.reduceLT]) _)
  | @sawEmpty _ b hc hpc =>
      refine workMeasure_lt hc hpc rfl (hpc ▸ hsame) (Nat.add_lt_add_right ?_ _)
      cases b <;> simp only [workLeft, Bool.false_eq_true, if_true, if_false, Nat.reduceLT]
  | popped hc hpc | threw hc hpc =>
      exact workMeasure_lt hc hpc rfl (hpc ▸ hsame)
        (Nat.add_lt_add_right (by simp only [workLeft, Nat.reduceLT]) _)
  | printId hc | printEq hc =>
      exact workMeasure_lt hc rfl rfl hsame
        (Nat.add_lt_add_right (by simp only [workLeft, Nat.reduceLT]) _)

theorem workMeasure_step (hst : Staged s) (hm : WorkMoves s a s') :
    workMeasure s' < workMeasure s := by
  cases a with
  | ctl t => exact workMeasure_ctl hm
  | lock t | run t =>
      obtain ⟨p, p', hin⟩ := insideStep_of_moves (t := t) hst hm (by simp)
      refine workMeasure_lt rfl hin.before ?_ hin.after hin.inside.workLeft_lt
      rw [hin.ctl, Function.update_eq_self]

/-! ## Nobody is stuck -/

theorem Inside.fed {c : Ctl} {d d' : List Operands} {p p' : StackPc} (h : Inside c d p d' p')
    (hp : Fed d p) : Fed d' p' := by
  cases h with
  | popTest hd => exact hd
  | popTop hv => exact hp
  | _ => trivial

theorem fed_of_outside {d : List Operands} {p : StackPc}
    (h : Monitor.Pc.mutex p ≠ some ()) : Fed d p := by
  cases p with
  | body => exact absurd rfl h
  | _ => trivial

omit [Fintype ι] in
theorem fed_inside {t : ι} {p p' : StackPc} (hin : InsideStep s s' t p p')
    (ho : Owns (fun pc q => Monitor.Pc.mutex pc = some q) s.mon.pc s.mon.owner)
    (h : ∀ u, Fed (s.mon.data ()) (s.mon.pc u)) (u : ι) : Fed (s'.mon.data ()) (s'.mon.pc u) := by
  rw [hin.after]
  by_cases hu : u = t
  · rw [hu, Function.update_self]
    refine hin.inside.fed ?_
    rw [← hin.before]
    exact h t
  · rw [Function.update_of_ne hu]
    rcases hin.inside.data_eq with hd | hmutex
    · rw [hd]
      exact h u
    · rw [← hin.before] at hmutex
      exact fed_of_outside fun hmu => hu (ho.unique hmu hmutex)

theorem fed_reach (h : (work contents).Reachable s) (t : ι) : Fed (s.mon.data ()) (s.mon.pc t) := by
  revert t
  refine h.invariant (I := fun s => ∀ t, Fed (s.mon.data ()) (s.mon.pc t)) ?_ ?_
  · intro s hs t
    rw [show s = workStart contents from hs]
    trivial
  · intro s a s' hr hi _ hs
    have hst := staged_reach hr
    have hm := workMoves_of_step hst hs
    cases a with
    | ctl t =>
        cases hm with
        | callEmpty | callPop => exact forall_update hi trivial
        | sawEmpty | popped | threw | printId | printEq => exact hi
    | lock t | run t =>
        obtain ⟨p, p', hin⟩ := insideStep_of_moves (t := t) hst hm (by simp)
        exact fed_inside hin (accounted_reach hr).owns hi

/-- A statement of a member can be executed. -/
theorem run_body {t : ι} {op : Op Operands} {l : Loc Operands} (hc : Stage (s.ctl t, .body () op l))
    (hpc : s.mon.pc t = .body () op l) (hf : Fed (s.mon.data ()) (s.mon.pc t)) :
    workStep s (.run t) ≠ none := by
  rw [hpc] at hf
  suffices hs : (∃ d l', stmt l (s.mon.data ()) = some (.next d l')) ∨
      ∃ r, stmt l (s.mon.data ()) = some (.leave r) by
    rcases hs with ⟨d, l', hs⟩ | ⟨r, hs⟩ <;>
      simp only [workStep, Monitor.step, Monitor.St.exec, hpc, stack, hs, Option.map_some] <;>
      exact Option.some_ne_none _
  cases hctl : s.ctl t with
  | testing =>
      rw [hctl] at hc
      obtain ⟨-, rfl⟩ := hc
      exact .inr ⟨_, rfl⟩
  | popping =>
      rw [hctl] at hc
      obtain ⟨-, rfl | rfl | ⟨v, rfl⟩ | ⟨v, rfl⟩⟩ := hc
      · by_cases hd : (s.mon.data ()).isEmpty
        · exact .inr ⟨_, if_pos hd⟩
        · exact .inl ⟨_, _, if_neg hd⟩
      · have hv : (s.mon.data ()).getLast? = _ := List.getLast?_eq_some_getLast hf
        exact .inl ⟨_, _, by simp only [stmt, hv]; rfl⟩
      · have hw : (s.mon.data ()).getLast? = _ := List.getLast?_eq_some_getLast hf
        exact .inl ⟨_, _, by simp only [stmt, hw]; rfl⟩
      · exact .inr ⟨_, rfl⟩
  | test | pop | printId ab | printEq ab | left | died =>
      rw [hctl] at hc
      exact hc.elim

/-- A worker between two calls of members. -/
theorem advance_idle {t : ι} {last} (hlive : s.mon.life () = .live)
    (hc : Stage (s.ctl t, .idle last)) (hpc : s.mon.pc t = .idle last)
    (hleft : s.ctl t ≠ .left) (hdied : s.ctl t ≠ .died) : workStep s (.ctl t) ≠ none := by
  cases hctl : s.ctl t with
  | test | pop =>
      simp only [workStep, WorkSt.advance, hctl, Monitor.step, hpc, Monitor.St.invoke, hlive,
        Option.map_some]
      exact Option.some_ne_none _
  | testing =>
      rw [hctl] at hc
      obtain ⟨b, rfl⟩ := hc
      simp only [workStep, WorkSt.advance, hctl, hpc]
      exact Option.some_ne_none _
  | popping =>
      rw [hctl] at hc
      rcases hc with rfl | ⟨v, rfl⟩ <;> simp only [workStep, WorkSt.advance, hctl, hpc] <;>
        exact Option.some_ne_none _
  | printId ab | printEq ab =>
      simp only [workStep, WorkSt.advance, hctl]
      exact Option.some_ne_none _
  | left => exact absurd hctl hleft
  | died => exact absurd hctl hdied

/-- A worker that has not come to its end can make a step, if it does not wait for the mutex. -/
theorem exists_workStep (h : (work contents).Reachable s) {t : ι} (hleft : s.ctl t ≠ .left)
    (hdied : s.ctl t ≠ .died)
    (hlock : ∀ op, s.mon.pc t = .lock () op → s.mon.owner () = none) :
    ∃ a, workStep s a ≠ none := by
  have hst := staged_reach h
  have hplain := hst.plain (t := t) rfl
  cases hpc : s.mon.pc t with
  | idle last =>
      exact ⟨.ctl t, advance_idle hst.live (hst.stage_pc hpc) hpc hleft hdied⟩
  | lock q op =>
      refine ⟨.lock t, ?_⟩
      simp only [workStep, Monitor.step, hpc, Monitor.St.take, hlock op hpc, Option.map_some]
      exact Option.some_ne_none _
  | body q op l => exact ⟨.run t, run_body (hst.stage_pc hpc) hpc (fed_reach h t)⟩
  | unlock q op r =>
      refine ⟨.run t, ?_⟩
      simp only [workStep, Monitor.step, Monitor.St.exec, hpc, Option.map_some]
      exact Option.some_ne_none _
  | constructing | copyLock | copyData | copyUnlock | asleep | woken =>
      rw [hpc] at hplain
      exact hplain.elim

/-- As long as a worker has not come to its end, some worker can make a step: the one that has
    the mutex, or any. -/
theorem workers_go (h : (work contents).Reachable s) {t : ι} (hleft : s.ctl t ≠ .left)
    (hdied : s.ctl t ≠ .died) : ∃ a, workStep s a ≠ none := by
  have howns := (accounted_reach h).owns
  cases ho : s.mon.owner () with
  | none => exact exists_workStep h hleft hdied fun _ _ => ho
  | some u =>
      have hmutex : Monitor.Pc.mutex (s.mon.pc u) = some () := (howns () u).mp ho
      have hbusy {c : Ctl} (hc : s.ctl u = c) (hidle : ∀ p, Stage (c, p) → ∃ last, p = .idle last) :
          False := by
        obtain ⟨last, hpc⟩ := hidle _ ((staged_reach h).stage_ctl hc)
        rw [hpc] at hmutex
        cases hmutex
      refine exists_workStep (t := u) h (fun hc => hbusy hc fun p hp => ?_)
        (fun hc => hbusy hc fun p hp => ?_) fun op hpc => ?_
      · cases p with
        | idle last => exact ⟨last, rfl⟩
        | _ => exact hp.elim
      · cases p with
        | idle last => exact ⟨last, rfl⟩
        | _ => exact hp.elim
      · rw [hpc] at hmutex
        cases hmutex

/-! ## The end -/

/-- A worker that died was not alone, and the stack was not empty from the start. -/
theorem not_alone (h : (work contents).Reachable s) {t : ι} (ht : s.ctl t = .died) :
    1 < Fintype.card ι ∧ contents ≠ [] := by
  by_contra hcon
  have hone : Fintype.card ι ≤ 1 ∨ contents = [] := by
    rw [← Nat.not_lt, ← not_ne_iff (a := contents)]
    exact not_and_or.mp hcon
  have hr := unhurried_reach hone h
  exact (survives_of_enough (staged_reach h) (enough_reach hr) t).1 ht

variable [Nonempty ι]

/-- All workers have left their loops. -/
theorem ended_of_left (h : (work contents).Reachable s) (hleft : ∀ t, s.ctl t = .left) :
    Ended contents s := by
  have hacc := accounted_reach h
  obtain ⟨t⟩ := ‹Nonempty ι›
  refine .inr ⟨hleft, hacc.told t (by rw [places, hleft t]; rfl), ?_,
    printed_all h hleft ⟨t⟩⟩
  cases ho : s.mon.owner () with
  | none => rfl
  | some u =>
      have hmutex : Monitor.Pc.mutex (s.mon.pc u) = some () := (hacc.owns () u).mp ho
      have hst := (staged_reach h).stage_ctl (hleft u)
      cases hpc : s.mon.pc u with
      | idle last =>
          rw [hpc] at hmutex
          cases hmutex
      | _ =>
          rw [hpc] at hst
          exact hst.elim

theorem ended_of_stuck (h : (work contents).Reachable s)
    (hend : ∀ a, Running s a → (work contents).step s a = none) : Ended contents s := by
  by_cases hdied : ∃ t, s.ctl t = .died
  · obtain ⟨t, ht⟩ := hdied
    obtain ⟨hone, hne⟩ := not_alone h ht
    exact .inl ⟨hone, hne, t, ht⟩
  · have hrun : ∀ t, s.ctl t ≠ .died := not_exists.mp hdied
    refine ended_of_left h fun t => ?_
    by_contra hleft
    obtain ⟨a, ha⟩ := workers_go h hleft (hrun t)
    exact ha (hend a hrun)

omit [DecidableEq ι] [Nonempty ι] in
theorem workMeasure_start :
    workMeasure (workStart contents : WorkSt ι) =
      10 * Fintype.card ι + 15 * contents.length := by
  have hten : sumAt workLeft (places (ι := ι) (workStart contents).ctl
      (workStart contents).mon.pc) = ∑ _t : ι, 10 := rfl
  rw [workMeasure, hten, Finset.sum_const_nat fun _ _ => rfl, Finset.card_univ, Nat.mul_comm]
  rfl

/-- **The workers come to their ends.** Whatever the scheduler does: the workers together make no
    more than ten steps each and fifteen for each pair in the stack. A run that cannot be
    continued has ended with a worker dead of empty_stack, which there is only with two workers
    or more and a stack that was not empty; or with all workers out of their loops, the stack
    empty and its mutex free, and each equation of the contents printed once. -/
theorem work_ends (contents : List Operands) :
    (work contents).Finishes Running (Ended contents)
      (10 * Fintype.card ι + 15 * contents.length) (workStart contents : WorkSt ι) := by
  rw [← workMeasure_start]
  refine Lts.finishes_of_measure (P := (work contents).Reachable) ?_ ?_ (.start rfl)
  · intro s a s' hr _ hs
    have hst := staged_reach hr
    exact ⟨.next hr trivial hs, workMeasure_step hst (workMoves_of_step hst hs)⟩
  · exact fun s hr hend => ended_of_stuck hr hend

/-- Two workers on three pairs. -/
theorem work_ends_two :
    (work [(1, 2), (3, 4), (5, 6)]).Finishes Running (Ended [(1, 2), (3, 4), (5, 6)]) 65
      (workStart [(1, 2), (3, 4), (5, 6)] : WorkSt Bool) :=
  work_ends [(1, 2), (3, 4), (5, 6)]

end CppConcurrency.ThreadSafeStack
