/-
  The workers of ThreadSafeStack_use.cpp.

  Any number of threads run work() on one stack of operands, which holds any contents when
  they start. The loop of a worker is its own layer over the stack: `ctl` is where a worker
  stands in work(), and the two member calls it makes, empty() and pop(a_b), run statement
  by statement in the monitor of the stack (`mon`), interleaved with those of the others.
  `out` is what has been printed, in lines. Copying a pair of unsigned does not throw.

  An exception that leaves work() ends its worker (`died`).

  `Moves` lists what a step can be in a state whose workers are at consistent places
  (`Staged`), and `staged_reach` says that they always are.
-/
import CppConcurrency.Lib.MonitorLinear
import CppConcurrency.ThreadSafeStack.Lifo

namespace CppConcurrency.ThreadSafeStack

open Concur

/-- operands: std::pair<unsigned, unsigned>. -/
abbrev Operands := UInt32 × UInt32

/-- Where a worker stands in work(). `test`: at the loop condition; `testing`: inside
    empty(); `pop`: before pop(a_b); `popping`: inside it. -/
inductive Ctl where
  | test
  | testing
  | pop
  | popping
  | printId (ab : Operands)
  | printEq (ab : Operands)
  | left
  | died
  deriving DecidableEq, Repr

/-- A printed line. -/
inductive Line (ι : Type*) where
  | id (t : ι)
  | eq (a b result : UInt32)
  deriving DecidableEq, Repr

/-- Where a thread stands in the members of the stack. -/
abbrev StackPc := Monitor.Pc Unit Operands (Op Operands) (Ret Operands) (Loc Operands)

/-- The workers and their stack. -/
structure WorkSt (ι : Type*) where
  ctl : ι → Ctl
  mon : Monitor.St ι Unit Operands (Op Operands) (Ret Operands) (Loc Operands)
  out : List (Line ι)

/-- `ctl t`: worker `t` makes a step of work() itself; `lock t` and `run t`: a step inside
    the member it has called. -/
inductive WorkAct (ι : Type*) where
  | ctl (t : ι)
  | lock (t : ι)
  | run (t : ι)
  deriving DecidableEq, Repr

variable {ι : Type*} [DecidableEq ι]

/-- Worker `t` goes on at `c`. -/
def WorkSt.goto (s : WorkSt ι) (t : ι) (c : Ctl) : WorkSt ι :=
  { s with ctl := Function.update s.ctl t c }

variable [Fintype ι]

/-- One statement of work(), outside the members of the stack. -/
def WorkSt.advance (s : WorkSt ι) (t : ι) : Option (WorkSt ι) :=
  match s.ctl t with
  | .test =>
      (Monitor.step (stack Operands) s.mon (.call t (.on () .empty))).map fun m =>
        { s.goto t .testing with mon := m }
  | .testing =>
      match s.mon.pc t with
      | .idle (some (.ret (.bool b))) => some (s.goto t (if b then .left else .pop))
      | _ => none
  | .pop =>
      (Monitor.step (stack Operands) s.mon (.call t (.on () (.pop .ref)))).map fun m =>
        { s.goto t .popping with mon := m }
  | .popping =>
      match s.mon.pc t with
      | .idle (some (.ret (.out ab))) => some (s.goto t (.printId ab))
      | .idle (some (.ret .emptyStack)) => some (s.goto t .died)
      | _ => none
  | .printId ab => some { s.goto t (.printEq ab) with out := s.out ++ [.id t] }
  | .printEq ab => some { s.goto t .test with out := s.out ++ [.eq ab.1 ab.2 (ab.1 * ab.2)] }
  | .left => none
  | .died => none

/-- One step. -/
def workStep (s : WorkSt ι) : WorkAct ι → Option (WorkSt ι)
  | .ctl t => s.advance t
  | .lock t => (Monitor.step (stack Operands) s.mon (.lock t)).map fun m => { s with mon := m }
  | .run t => (Monitor.step (stack Operands) s.mon (.run t)).map fun m => { s with mon := m }

omit [DecidableEq ι] [Fintype ι] in
/-- All workers are about to start, on a stack with the given contents. -/
def workStart (contents : List Operands) : WorkSt ι where
  ctl _ := .test
  mon := { Monitor.initial with data := fun _ => contents, life := fun _ => .live }
  out := []

/-- The workers on a stack with the given contents. -/
def work (contents : List Operands) : Lts (WorkSt ι) (WorkAct ι) where
  init s := s = workStart contents
  step := workStep

/-! ## Where the workers are -/

omit [DecidableEq ι] [Fintype ι] in
/-- The place of each worker: in work() and in the members of the stack. -/
def places (ctl : ι → Ctl) (pc : ι → StackPc) : ι → Ctl × StackPc := fun t => (ctl t, pc t)

omit [Fintype ι] in
theorem places_both (ctl : ι → Ctl) (pc : ι → StackPc) (t : ι) (c : Ctl) (p : StackPc) :
    places (Function.update ctl t c) (Function.update pc t p) =
      Function.update (places ctl pc) t (c, p) := by
  funext u
  by_cases hu : u = t
  · subst hu
    simp only [places, Function.update_self]
  · simp only [places, Function.update_of_ne hu]

omit [Fintype ι] in
theorem places_ctl (ctl : ι → Ctl) (pc : ι → StackPc) (t : ι) (c : Ctl) :
    places (Function.update ctl t c) pc = Function.update (places ctl pc) t (c, pc t) := by
  have h := places_both ctl pc t c (pc t)
  rwa [Function.update_eq_self] at h

omit [Fintype ι] in
theorem places_pc (ctl : ι → Ctl) (pc : ι → StackPc) (t : ι) (p : StackPc) :
    places ctl (Function.update pc t p) = Function.update (places ctl pc) t (ctl t, p) := by
  have h := places_both ctl pc t (ctl t) p
  rwa [Function.update_eq_self] at h

/-- The places at which work() and the member it has called fit together. -/
def Stage : Ctl × StackPc → Prop
  | (.test, .idle _) => True
  | (.testing, .lock _ op) => op = .empty
  | (.testing, .body _ op l) => op = .empty ∧ l = .emptyTest
  | (.testing, .unlock _ op r) => op = .empty ∧ ∃ b, r = some (.bool b)
  | (.testing, .idle last) => ∃ b, last = some (.ret (.bool b))
  | (.pop, .idle _) => True
  | (.popping, .lock _ op) => op = .pop .ref
  | (.popping, .body _ op l) => op = .pop .ref ∧
      (l = .popTest .ref ∨ l = .popTop .ref ∨ (∃ v, l = .popData .ref v) ∨ ∃ v, l = .done (.out v))
  | (.popping, .unlock _ op r) => op = .pop .ref ∧ (r = some .emptyStack ∨ ∃ v, r = some (.out v))
  | (.popping, .idle last) => last = some (.ret .emptyStack) ∨ ∃ v, last = some (.ret (.out v))
  | (.printId _, .idle _) => True
  | (.printEq _, .idle _) => True
  | (.left, .idle last) => last = some (.ret (.bool true))
  | (.died, .idle last) => last = some (.ret .emptyStack)
  | _ => False

/-- The stack exists, and every worker is at a place that fits. -/
structure Staged (s : WorkSt ι) : Prop where
  live : s.mon.life () = .live
  stage : ∀ t, Stage (places s.ctl s.mon.pc t)

/-! ## What a step can be -/

/-- The cases of a step. -/
inductive WorkMoves (s : WorkSt ι) : WorkAct ι → WorkSt ι → Prop
  | callEmpty {t last} (hc : s.ctl t = .test) (hpc : s.mon.pc t = .idle last) :
      WorkMoves s (.ctl t)
        { s with
          ctl := Function.update s.ctl t .testing
          mon := { s.mon with
            pc := Function.update s.mon.pc t (.lock () .empty)
            hist := s.mon.hist ++ [.inv t (.on () .empty)] } }
  | sawEmpty {t b} (hc : s.ctl t = .testing)
      (hpc : s.mon.pc t = .idle (some (.ret (.bool b)))) :
      WorkMoves s (.ctl t)
        { s with ctl := Function.update s.ctl t (if b then .left else .pop) }
  | callPop {t last} (hc : s.ctl t = .pop) (hpc : s.mon.pc t = .idle last) :
      WorkMoves s (.ctl t)
        { s with
          ctl := Function.update s.ctl t .popping
          mon := { s.mon with
            pc := Function.update s.mon.pc t (.lock () (.pop .ref))
            hist := s.mon.hist ++ [.inv t (.on () (.pop .ref))] } }
  | popped {t ab} (hc : s.ctl t = .popping)
      (hpc : s.mon.pc t = .idle (some (.ret (.out ab)))) :
      WorkMoves s (.ctl t) { s with ctl := Function.update s.ctl t (.printId ab) }
  | threw {t} (hc : s.ctl t = .popping) (hpc : s.mon.pc t = .idle (some (.ret .emptyStack))) :
      WorkMoves s (.ctl t) { s with ctl := Function.update s.ctl t .died }
  | printId {t ab} (hc : s.ctl t = .printId ab) :
      WorkMoves s (.ctl t)
        { s with ctl := Function.update s.ctl t (.printEq ab), out := s.out ++ [.id t] }
  | printEq {t ab} (hc : s.ctl t = .printEq ab) :
      WorkMoves s (.ctl t)
        { s with
          ctl := Function.update s.ctl t .test
          out := s.out ++ [.eq ab.1 ab.2 (ab.1 * ab.2)] }
  | lock {t op} (hpc : s.mon.pc t = .lock () op) (hfree : s.mon.owner () = none) :
      WorkMoves s (.lock t)
        { s with
          mon := { s.mon with
            pc := Function.update s.mon.pc t (.body () op (entry op))
            owner := Function.update s.mon.owner () (some t) } }
  | next {t op l d l'} (hpc : s.mon.pc t = .body () op l)
      (hs : stmt l (s.mon.data ()) = some (.next d l')) :
      WorkMoves s (.run t)
        { s with
          mon := { s.mon with
            pc := Function.update s.mon.pc t (.body () op l')
            data := Function.update s.mon.data () d } }
  | leave {t op l r} (hpc : s.mon.pc t = .body () op l)
      (hs : stmt l (s.mon.data ()) = some (.leave r)) :
      WorkMoves s (.run t)
        { s with mon := { s.mon with pc := Function.update s.mon.pc t (.unlock () op (some r)) } }
  | unlock {t op r} (hpc : s.mon.pc t = .unlock () op (some r)) :
      WorkMoves s (.run t)
        { s with
          mon := { s.mon with
            pc := Function.update s.mon.pc t (.idle (some (.ret r)))
            owner := Function.update s.mon.owner () none
            hist := s.mon.hist ++ [.res t (.ret r)] } }

variable {s s' : WorkSt ι} {a : WorkAct ι}

/-- The places of a thread that only calls members of a stack that exists. -/
def Plain : StackPc → Prop
  | .idle _ => True
  | .lock _ _ => True
  | .body _ _ _ => True
  | .unlock _ _ r => r.isSome = true
  | _ => False

theorem plain_of_stage {c : Ctl} {p : StackPc} (h : Stage (c, p)) : Plain p := by
  cases p with
  | unlock q op r =>
      cases c with
      | testing =>
          obtain ⟨-, b, rfl⟩ := h
          rfl
      | popping =>
          obtain ⟨-, rfl | ⟨v, rfl⟩⟩ := h <;> rfl
      | _ => exact h.elim
  | _ => cases c <;> trivial

omit [DecidableEq ι] [Fintype ι] in
theorem Staged.plain (h : Staged s) {t : ι} {p : StackPc} (hpc : s.mon.pc t = p) : Plain p := by
  subst hpc
  exact plain_of_stage (h.stage t)

theorem workMoves_ctl {t : ι} (hs : s.advance t = some s') : WorkMoves s (.ctl t) s' := by
  unfold WorkSt.advance at hs
  split at hs
  case h_1 hc =>
    obtain ⟨m, hm, rfl⟩ := Option.map_eq_some_iff.mp hs
    cases Monitor.moves_call hm with
    | on hpc => exact .callEmpty hc hpc
  case h_2 hc =>
    split at hs
    · next b hpc =>
        cases hs
        exact .sawEmpty hc hpc
    · cases hs
  case h_3 hc =>
    obtain ⟨m, hm, rfl⟩ := Option.map_eq_some_iff.mp hs
    cases Monitor.moves_call hm with
    | on hpc => exact .callPop hc hpc
  case h_4 hc =>
    split at hs
    · next ab hpc =>
        cases hs
        exact .popped hc hpc
    · next hpc =>
        cases hs
        exact .threw hc hpc
    · cases hs
  case h_5 hc =>
    cases hs
    exact .printId hc
  case h_6 hc =>
    cases hs
    exact .printEq hc
  case h_7 => cases hs
  case h_8 => cases hs

theorem workMoves_run (h : Staged s) {t : ι} {m}
    (hm : Monitor.step (stack Operands) s.mon (.run t) = some m) :
    WorkMoves s (.run t) { s with mon := m } := by
  cases Monitor.moves_of_step hm with
  | constructed hpc | copyNext hpc | copyEnd hpc | copied hpc | uncopied hpc =>
      exact (h.plain hpc).elim
  | wait hpc hs => exact absurd hs (stmt_quiet _ _ _).1
  | next hpc hs => exact .next hpc hs
  | leave hpc hs => exact .leave hpc hs
  | @unlock t q op r hpc =>
      obtain ⟨r, rfl⟩ := Option.isSome_iff_exists.mp (h.plain hpc)
      exact .unlock hpc

/-- The inversion lemma for the workers. -/
theorem workMoves_of_step (h : Staged s) (hs : workStep s a = some s') : WorkMoves s a s' := by
  cases a with
  | ctl t => exact workMoves_ctl hs
  | lock t =>
      obtain ⟨m, hm, rfl⟩ := Option.map_eq_some_iff.mp hs
      cases Monitor.moves_of_step hm with
      | lockCopy hpc | relock hpc => exact (h.plain hpc).elim
      | lockOn hpc hfree => exact .lock hpc hfree
  | run t =>
      obtain ⟨m, hm, rfl⟩ := Option.map_eq_some_iff.mp hs
      exact workMoves_run h hm

/-! ## Inside a member -/

/-- The steps a worker makes inside the member it has called: where it stands in work(), and
    the contents of the stack and its place in the member before and after the step. -/
inductive Inside : Ctl → List Operands → StackPc → List Operands → StackPc → Prop
  | lockEmpty {d} :
      Inside .testing d (.lock () .empty) d (.body () .empty .emptyTest)
  | testEmpty {d} :
      Inside .testing d (.body () .empty .emptyTest) d (.unlock () .empty (some (.bool d.isEmpty)))
  | unlockEmpty {d b} :
      Inside .testing d (.unlock () .empty (some (.bool b))) d (.idle (some (.ret (.bool b))))
  | lockPop {d} :
      Inside .popping d (.lock () (.pop .ref)) d (.body () (.pop .ref) (.popTest .ref))
  | popEmpty :
      Inside .popping [] (.body () (.pop .ref) (.popTest .ref)) []
        (.unlock () (.pop .ref) (some .emptyStack))
  | popTest {d} (hd : d ≠ []) :
      Inside .popping d (.body () (.pop .ref) (.popTest .ref)) d
        (.body () (.pop .ref) (.popTop .ref))
  | popTop {d v} (hv : d.getLast? = some v) :
      Inside .popping d (.body () (.pop .ref) (.popTop .ref)) d
        (.body () (.pop .ref) (.popData .ref v))
  | popData {d v w} :
      Inside .popping (d ++ [w]) (.body () (.pop .ref) (.popData .ref v)) d
        (.body () (.pop .ref) (.done (.out v)))
  | done {d v} :
      Inside .popping d (.body () (.pop .ref) (.done (.out v))) d
        (.unlock () (.pop .ref) (some (.out v)))
  | unlockThrew {d} :
      Inside .popping d (.unlock () (.pop .ref) (some .emptyStack)) d
        (.idle (some (.ret .emptyStack)))
  | unlockPopped {d v} :
      Inside .popping d (.unlock () (.pop .ref) (some (.out v))) d
        (.idle (some (.ret (.out v))))

section Inside

variable {c : Ctl} {op : Op Operands} {l l' : Loc Operands} {d d' : List Operands}
  {r : Ret Operands} {p p' : StackPc}

theorem inside_lock (h : Stage (c, .lock () op)) :
    Inside c d (.lock () op) d (.body () op (entry op)) := by
  cases c with
  | testing =>
      cases h
      exact .lockEmpty
  | popping =>
      cases h
      exact .lockPop
  | _ => exact h.elim

theorem inside_next (h : Stage (c, .body () op l)) (hs : stmt l d = some (.next d' l')) :
    Inside c d (.body () op l) d' (.body () op l') := by
  cases c with
  | testing =>
      obtain ⟨-, rfl⟩ := h
      cases hs
  | popping =>
      obtain ⟨rfl, rfl | rfl | ⟨v, rfl⟩ | ⟨v, rfl⟩⟩ := h
      · simp only [stmt] at hs
        split at hs
        · cases hs
        · next hd =>
            cases hs
            exact .popTest fun he => hd (List.isEmpty_iff.mpr he)
      · simp only [stmt] at hs
        split at hs
        · cases hs
        · next v hv =>
            cases hs
            exact .popTop hv
      · simp only [stmt] at hs
        split at hs
        · cases hs
        · next w hw =>
            cases hs
            have hd : d.dropLast ++ [w] = d := List.dropLast_append_getLast? w hw
            nth_rewrite 1 [← hd]
            exact .popData
      · cases hs
  | _ => exact h.elim

theorem inside_leave (h : Stage (c, .body () op l)) (hs : stmt l d = some (.leave r)) :
    Inside c d (.body () op l) d (.unlock () op (some r)) := by
  cases c with
  | testing =>
      obtain ⟨rfl, rfl⟩ := h
      cases hs
      exact .testEmpty
  | popping =>
      obtain ⟨rfl, rfl | rfl | ⟨v, rfl⟩ | ⟨v, rfl⟩⟩ := h
      · simp only [stmt] at hs
        split at hs
        · next hd =>
            cases hs
            rw [List.isEmpty_iff.mp hd]
            exact .popEmpty
        · cases hs
      · simp only [stmt] at hs
        split at hs <;> cases hs
      · simp only [stmt] at hs
        split at hs <;> cases hs
      · cases hs
        exact .done
  | _ => exact h.elim

theorem inside_unlock (h : Stage (c, .unlock () op (some r))) :
    Inside c d (.unlock () op (some r)) d (.idle (some (.ret r))) := by
  cases c with
  | testing =>
      obtain ⟨rfl, b, hb⟩ := h
      cases hb
      exact .unlockEmpty
  | popping =>
      obtain ⟨rfl, hr | ⟨v, hr⟩⟩ := h
      · cases hr
        exact .unlockThrew
      · cases hr
        exact .unlockPopped
  | _ => exact h.elim

/-- A step inside a member leads to a place that fits. -/
theorem Inside.stage (h : Inside c d p d' p') : Stage (c, p') := by
  cases h with
  | lockEmpty => exact ⟨rfl, rfl⟩
  | testEmpty => exact ⟨rfl, _, rfl⟩
  | unlockEmpty => exact ⟨_, rfl⟩
  | lockPop => exact ⟨rfl, .inl rfl⟩
  | popEmpty => exact ⟨rfl, .inl rfl⟩
  | popTest => exact ⟨rfl, .inr (.inl rfl)⟩
  | popTop => exact ⟨rfl, .inr (.inr (.inl ⟨_, rfl⟩))⟩
  | popData => exact ⟨rfl, .inr (.inr (.inr ⟨_, rfl⟩))⟩
  | done => exact ⟨rfl, .inr ⟨_, rfl⟩⟩
  | unlockThrew => exact .inl rfl
  | unlockPopped => exact .inr ⟨_, rfl⟩

/-- Nothing comes out of an empty stack, and the workers put nothing in. -/
theorem Inside.empty_stays (h : Inside c d p d' p') (hd : d = []) : d' = [] := by
  cases h with
  | popData => simp at hd
  | _ => exact hd

end Inside

/-! ## The places stay consistent -/

omit [DecidableEq ι] [Fintype ι] in
theorem Staged.stage_pc (h : Staged s) {t : ι} {p : StackPc} (hpc : s.mon.pc t = p) :
    Stage (s.ctl t, p) := by
  subst hpc
  exact h.stage t

omit [DecidableEq ι] [Fintype ι] in
theorem Staged.stage_ctl (h : Staged s) {t : ι} {c : Ctl} (hc : s.ctl t = c) :
    Stage (c, s.mon.pc t) := by
  subst hc
  exact h.stage t

theorem stage_print {ab : Operands} {p : StackPc} (h : Stage (.printId ab, p)) :
    Stage (.printEq ab, p) := by
  cases p <;> trivial

theorem stage_again {ab : Operands} {p : StackPc} (h : Stage (.printEq ab, p)) :
    Stage (.test, p) := by
  cases p <;> trivial

omit [Fintype ι] in
theorem staged_step (h : Staged s) (hm : WorkMoves s a s') : Staged s' := by
  have hst := h.stage
  refine ⟨by cases hm <;> exact h.live, ?_⟩
  cases hm with
  | callEmpty hc hpc | callPop hc hpc =>
      rw [places_both]
      exact forall_update hst rfl
  | @sawEmpty t b hc hpc =>
      rw [places_ctl, hpc]
      cases b with
      | true => exact forall_update hst rfl
      | false => exact forall_update hst trivial
  | popped hc hpc =>
      rw [places_ctl, hpc]
      exact forall_update hst trivial
  | threw hc hpc =>
      rw [places_ctl, hpc]
      exact forall_update hst rfl
  | @printId t ab hc =>
      rw [places_ctl]
      exact forall_update hst (stage_print (h.stage_ctl hc))
  | @printEq t ab hc =>
      rw [places_ctl]
      exact forall_update hst (stage_again (h.stage_ctl hc))
  | lock hpc hfree =>
      rw [places_pc]
      exact forall_update hst (inside_lock (d := s.mon.data ()) (h.stage_pc hpc)).stage
  | next hpc hs =>
      rw [places_pc]
      exact forall_update hst (inside_next (h.stage_pc hpc) hs).stage
  | leave hpc hs =>
      rw [places_pc]
      exact forall_update hst (inside_leave (h.stage_pc hpc) hs).stage
  | unlock hpc =>
      rw [places_pc]
      exact forall_update hst (inside_unlock (d := s.mon.data ()) (h.stage_pc hpc)).stage

theorem staged_reach {contents : List Operands} {G} (h : (work contents).Reach G s) :
    Staged s := by
  refine h.invariant (fun s hs => ?_) fun s a s' _ hi _ hs =>
    staged_step hi (workMoves_of_step hi hs)
  rw [show s = workStart contents from hs]
  exact ⟨rfl, fun _ => trivial⟩

/-- Worker `t` has made a step inside the member it has called. -/
structure InsideStep (s s' : WorkSt ι) (t : ι) (p p' : StackPc) : Prop where
  inside : Inside (s.ctl t) (s.mon.data ()) p (s'.mon.data ()) p'
  before : s.mon.pc t = p
  after : s'.mon.pc = Function.update s.mon.pc t p'
  ctl : s'.ctl = s.ctl
  out : s'.out = s.out

omit [Fintype ι] in
/-- The steps of the workers that are not steps of work() itself. -/
theorem insideStep_of_moves (h : Staged s) {t : ι} (hm : WorkMoves s a s')
    (ha : a = .lock t ∨ a = .run t) : ∃ p p', InsideStep s s' t p p' := by
  cases hm with
  | callEmpty | callPop | sawEmpty | popped | threw | printId | printEq =>
      rcases ha with ha | ha <;> cases ha
  | lock hpc hfree =>
      rcases ha with ha | ha <;> cases ha
      exact ⟨_, _, inside_lock (h.stage_pc hpc), hpc, rfl, rfl, rfl⟩
  | next hpc hs =>
      rcases ha with ha | ha <;> cases ha
      refine ⟨_, _, ?_, hpc, rfl, rfl, rfl⟩
      dsimp only
      rw [Function.update_self]
      exact inside_next (h.stage_pc hpc) hs
  | leave hpc hs =>
      rcases ha with ha | ha <;> cases ha
      exact ⟨_, _, inside_leave (h.stage_pc hpc) hs, hpc, rfl, rfl, rfl⟩
  | unlock hpc =>
      rcases ha with ha | ha <;> cases ha
      exact ⟨_, _, inside_unlock (h.stage_pc hpc), hpc, rfl, rfl, rfl⟩

omit [Fintype ι] in
/-- The workers put nothing in. -/
theorem empty_stays (h : Staged s) (hd : s.mon.data () = []) (hm : WorkMoves s a s') :
    s'.mon.data () = [] := by
  cases a with
  | ctl t => cases hm <;> exact hd
  | lock t | run t =>
      obtain ⟨p, p', hin⟩ := insideStep_of_moves (t := t) h hm (by simp)
      exact hin.inside.empty_stays hd

end CppConcurrency.ThreadSafeStack
