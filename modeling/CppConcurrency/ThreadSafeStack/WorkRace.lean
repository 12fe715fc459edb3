/-
  Do the workers of ThreadSafeStack_use.cpp survive?

  empty() and pop(a_b) are each atomic, but work() calls one after the other, and another
  worker may take the element in between. A worker is `committed` from the moment empty()
  finds the stack non-empty until its pop has removed an element. A run is `Unhurried` when
  each such test finds more elements than there are workers committed already.

  Proved (`worker_survives`): in unhurried runs no pop throws, and every worker leaves its
  loop because empty() returned true. All runs are like that exactly when there is at most
  one worker or nothing to pop. For the other direction, one worker pops all elements but
  one by itself, and then two workers test before either of them pops.
-/
import CppConcurrency.Lib.Count
import CppConcurrency.Lib.MonitorSolo
import CppConcurrency.ThreadSafeStack.Work
import Mathlib.Data.Fintype.EquivFin

namespace CppConcurrency.ThreadSafeStack

open Concur

/-- The worker has seen a non-empty stack and has not yet removed an element. -/
def committed : Ctl × StackPc → Bool
  | (.testing, .unlock _ _ (some (.bool false))) => true
  | (.testing, .idle (some (.ret (.bool false)))) => true
  | (.pop, _) => true
  | (.popping, .lock _ _) => true
  | (.popping, .body _ _ (.popTest _)) => true
  | (.popping, .body _ _ (.popTop _)) => true
  | (.popping, .body _ _ (.popData _ _)) => true
  | _ => false

/-- The member the thread has called ends in empty_stack. -/
def metEmpty : StackPc → Bool
  | .unlock _ _ (some .emptyStack) => true
  | .idle (some (.ret .emptyStack)) => true
  | _ => false

/-- The worker has not met empty_stack. -/
def Spared (x : Ctl × StackPc) : Prop := x.1 ≠ .died ∧ metEmpty x.2 = false

/-- The worker is about to evaluate `data.empty()` for empty(). -/
def atEmptyTest : StackPc → Bool
  | .body _ _ .emptyTest => true
  | _ => false

variable {ι : Type*} [Fintype ι]

/-- An empty() that returns false finds more elements than workers committed. -/
def Unhurried (s : WorkSt ι) : WorkAct ι → Prop
  | .run t => atEmptyTest (s.mon.pc t) = true → s.mon.data () ≠ [] →
      countAt committed (places s.ctl s.mon.pc) < (s.mon.data ()).length
  | _ => True

/-- The elements suffice for the workers committed, and nobody has met empty_stack. -/
structure Enough (s : WorkSt ι) : Prop where
  count : countAt committed (places s.ctl s.mon.pc) ≤ (s.mon.data ()).length
  spared : ∀ t, Spared (places s.ctl s.mon.pc t)

variable [DecidableEq ι] {s s' : WorkSt ι} {a : WorkAct ι}

/-- A worker moves on, and the count stays covered. -/
theorem enough_both (h : Enough s) {t : ι} {c c' : Ctl} {p p' : StackPc} (hc : s.ctl t = c)
    (hpc : s.mon.pc t = p) (hctl : s'.ctl = Function.update s.ctl t c')
    (hpcs : s'.mon.pc = Function.update s.mon.pc t p')
    (hn : countAt committed (places s.ctl s.mon.pc) + (committed (c', p')).toNat ≤
      (s'.mon.data ()).length + (committed (c, p)).toNat)
    (hs : Spared (c', p')) : Enough s' := by
  have hto : places s'.ctl s'.mon.pc = Function.update (places s.ctl s.mon.pc) t (c', p') := by
    rw [hctl, hpcs, places_both]
  have hcount := countAt_update committed (places s.ctl s.mon.pc) t (c', p')
  have hat : places s.ctl s.mon.pc t = (c, p) := by rw [places, hc, hpc]
  rw [hat] at hcount
  refine ⟨?_, ?_⟩ <;> rw [hto]
  · omega
  · exact forall_update h.spared hs

/-- The member that a worker has called makes a step, and removes an element when the worker
    stops being committed. -/
theorem enough_pc (h : Enough s) {t : ι} {c : Ctl} {p p' : StackPc} (hc : s.ctl t = c)
    (hpc : s.mon.pc t = p) (hctl : s'.ctl = s.ctl)
    (hpcs : s'.mon.pc = Function.update s.mon.pc t p')
    (hn : (s.mon.data ()).length + (committed (c, p')).toNat ≤
      (s'.mon.data ()).length + (committed (c, p)).toNat)
    (hs : metEmpty p' = false) : Enough s' := by
  have hle := h.count
  have hsp := h.spared t
  rw [places, hc] at hsp
  refine enough_both h hc hpc ?_ hpcs (by omega) ⟨hsp.1, hs⟩
  rw [hctl, ← hc, Function.update_eq_self]

/-- A worker makes a step of work() itself. -/
theorem enough_ctl (h : Enough s) {t : ι} {c c' : Ctl} {p : StackPc} (hc : s.ctl t = c)
    (hpc : s.mon.pc t = p) (hctl : s'.ctl = Function.update s.ctl t c') (hmon : s'.mon = s.mon)
    (hn : committed (c', p) = committed (c, p)) (hs : c' ≠ .died) : Enough s' := by
  have hle := h.count
  have hsp := h.spared t
  rw [places, hpc] at hsp
  refine enough_both h hc hpc hctl ?_ ?_ ⟨hs, hsp.2⟩
  · rw [hmon, ← hpc, Function.update_eq_self]
  · rw [hmon, hn]
    omega

omit [DecidableEq ι] in
/-- A committed worker finds an element. -/
theorem Enough.ne_nil (h : Enough s) {t : ι} {c : Ctl} {p : StackPc} (hc : s.ctl t = c)
    (hpc : s.mon.pc t = p) (hcp : committed (c, p) = true) : s.mon.data () ≠ [] := by
  intro hnil
  have hpos : 0 < countAt committed (places s.ctl s.mon.pc) :=
    countAt_pos.mpr ⟨t, by rw [places, hc, hpc, hcp]⟩
  have hle := h.count
  rw [hnil] at hle
  exact absurd (Nat.lt_of_lt_of_le hpos hle) (Nat.lt_irrefl 0)

section Inside

variable {c : Ctl} {d d' : List Operands} {p p' : StackPc}

/-- A step inside a member commits its worker only if empty() has found an element, and a
    worker that takes an element stops being committed. -/
theorem Inside.committed_le (h : Inside c d p d' p') (htest : atEmptyTest p = true → d = []) :
    d.length + (committed (c, p')).toNat ≤ d'.length + (committed (c, p)).toNat := by
  cases h with
  | testEmpty =>
      rw [htest rfl]
      exact le_rfl
  | @unlockEmpty d b => cases b <;> exact le_rfl
  | popData => rw [List.length_append]; exact le_rfl
  | popEmpty => exact Nat.zero_le _
  | _ => exact le_rfl

/-- A committed worker that finds an element does not get empty_stack. -/
theorem Inside.metEmpty_eq (h : Inside c d p d' p') (hp : metEmpty p = false)
    (hne : committed (c, p) = true → d ≠ []) : metEmpty p' = false := by
  cases h with
  | popEmpty => exact absurd rfl (hne rfl)
  | unlockThrew => cases hp
  | _ => rfl

theorem Inside.data_of_test (h : Inside c d p d' p') (hp : atEmptyTest p = true) : d' = d := by
  cases h with
  | testEmpty => rfl
  | _ => cases hp

end Inside

/-- A step inside a member. An unhurried empty() commits its worker only if there is an
    element left for it. -/
theorem enough_inside (h : Enough s) {t : ι} {p p' : StackPc} (hin : InsideStep s s' t p p')
    (hg : Unhurried s (.run t)) : Enough s' := by
  have hsp := h.spared t
  rw [places, hin.before] at hsp
  have hmet := hin.inside.metEmpty_eq hsp.2 fun hcp => h.ne_nil rfl hin.before hcp
  rw [Unhurried, hin.before] at hg
  by_cases htest : atEmptyTest p = true → s.mon.data () = []
  · exact enough_pc h rfl hin.before hin.ctl hin.after (hin.inside.committed_le htest) hmet
  · obtain ⟨hp, hne⟩ := Classical.not_imp.mp htest
    have hlt := hg hp hne
    have hone := Bool.toNat_le (committed (s.ctl t, p'))
    have hctl : s'.ctl = Function.update s.ctl t (s.ctl t) := by
      rw [hin.ctl, Function.update_eq_self]
    refine enough_both h rfl hin.before hctl hin.after ?_ ⟨hsp.1, hmet⟩
    rw [hin.inside.data_of_test hp]
    omega

/-- Taking the mutex is no test. -/
theorem unhurried_lock {t : ι} (hm : WorkMoves s (.lock t) s') :
    Unhurried s (.run t) := by
  cases hm with
  | lock hpc hfree =>
      intro hat
      rw [hpc] at hat
      cases hat

theorem enough_step (hst : Staged s) (h : Enough s) (hg : Unhurried s a)
    (hm : WorkMoves s a s') : Enough s' := by
  cases a with
  | ctl t =>
      cases hm with
      | callEmpty hc hpc => exact enough_both h hc hpc rfl rfl h.count ⟨by simp, rfl⟩
      | callPop hc hpc =>
          exact enough_both h hc hpc rfl rfl (Nat.succ_le_succ h.count) ⟨by simp, rfl⟩
      | @sawEmpty t b hc hpc =>
          cases b with
          | true => exact enough_ctl h hc hpc rfl rfl rfl (by simp)
          | false => exact enough_ctl h hc hpc rfl rfl rfl (by simp)
      | popped hc hpc => exact enough_ctl h hc hpc rfl rfl rfl (by simp)
      | threw hc hpc =>
          have hsp := h.spared t
          rw [places, hpc] at hsp
          cases hsp.2
      | printId hc | printEq hc => exact enough_ctl h hc rfl rfl rfl rfl (by simp)
  | lock t =>
      obtain ⟨p, p', hin⟩ := insideStep_of_moves hst hm (.inl rfl)
      exact enough_inside h hin (unhurried_lock hm)
  | run t =>
      obtain ⟨p, p', hin⟩ := insideStep_of_moves hst hm (.inr rfl)
      exact enough_inside h hin hg

variable {contents d : List Operands} {t u : ι}

theorem enough_reach (h : (work contents).Reach Unhurried s) : Enough s := by
  refine h.invariant (fun s hs => ?_) fun s a s' hr hi hg hs =>
    enough_step (staged_reach hr) hi hg (workMoves_of_step (staged_reach hr) hs)
  rw [show s = workStart contents from hs]
  refine ⟨?_, fun _ => ⟨by simp [places, workStart], rfl⟩⟩
  rw [countAt_eq_zero.mpr fun _ => rfl]
  exact Nat.zero_le _

/-- No exception has ended worker `t` or is about to, and if it has left its loop, then
    because empty() returned true. -/
def Survives (s : WorkSt ι) (t : ι) : Prop :=
  s.ctl t ≠ .died ∧ metEmpty (s.mon.pc t) = false ∧
    (s.ctl t = .left → s.mon.pc t = .idle (some (.ret (.bool true))))

omit [DecidableEq ι] in
theorem survives_of_enough (hst : Staged s) (h : Enough s) (t : ι) : Survives s t := by
  refine ⟨(h.spared t).1, (h.spared t).2, fun hc => ?_⟩
  have hs := hst.stage_ctl hc
  cases hpc : s.mon.pc t with
  | idle last =>
      rw [hpc] at hs
      rw [show last = some (.ret (.bool true)) from hs]
  | _ =>
      rw [hpc] at hs
      exact hs.elim

/-! ## Runs that are always unhurried -/

omit [DecidableEq ι] in
theorem unhurried_of_subsingleton (hcard : Fintype.card ι ≤ 1) (hst : Staged s)
    (a : WorkAct ι) : Unhurried s a := by
  cases a with
  | run t =>
      intro hat hne
      have hzero : countAt committed (places s.ctl s.mon.pc) = 0 := by
        refine countAt_eq_zero.mpr fun u => ?_
        have hu : u = t := Fintype.card_le_one_iff.mp hcard u t
        subst hu
        have hs := hst.stage u
        cases hpc : s.mon.pc u with
        | body q op l =>
            rw [hpc] at hat
            rw [places, hpc] at hs ⊢
            cases l <;> cases hat
            cases hc : s.ctl u <;> rw [hc] at hs <;> first | rfl | exact hs.elim
        | _ =>
            rw [hpc] at hat
            cases hat
      rw [hzero]
      exact List.length_pos_iff.mpr hne
  | _ => trivial

/-! ## Calls one at a time -/

/-- Nobody is inside a member of the stack, which holds `d`. -/
structure Ready (s : WorkSt ι) (d : List Operands) : Prop where
  live : s.mon.life () = .live
  free : s.mon.owner () = none
  data : s.mon.data () = d
  idle : ∀ t, ∃ last, s.mon.pc t = .idle last

/-- Steps of a thread inside the stack are steps of the workers. -/
theorem reachable_run {n : ℕ} {m} (hr : (work contents).Reachable s)
    (hm : (Monitor.sys (stack Operands)).exec Lts.anyStep s.mon (List.replicate n (.run t)) =
      some m) : (work contents).Reachable { s with mon := m } := by
  induction n generalizing s with
  | zero =>
      cases hm
      exact hr
  | succ n ih =>
      rw [List.replicate_succ, Lts.exec_cons, if_pos (show Lts.anyStep _ _ from trivial)] at hm
      obtain ⟨m₁, h1, hm⟩ := Option.bind_eq_some_iff.mp hm
      have hs : (work contents).step s (.run t) = some { s with mon := m₁ } := by
        simp only [work, workStep]
        rw [show Monitor.step (stack Operands) s.mon (.run t) = some m₁ from h1]
        rfl
      exact ih (s := { s with mon := m₁ }) (.next hr trivial hs) hm

/-- A worker calls a member, which runs alone. -/
theorem Ready.member (h : Ready s d) (hr : (work contents).Reachable s) (t : ι) (c : Ctl)
    (op : Op Operands) {d' : List Operands} {r : Ret Operands}
    (hcall : ∀ m, Monitor.step (stack Operands) s.mon (.call t (.on () op)) = some m →
      s.advance t = some { s.goto t c with mon := m })
    (hb : Monitor.Body (stack Operands) (entry op) d d' r) :
    ∃ s', (work contents).Reachable s' ∧ Ready s' d' ∧
      s'.ctl = Function.update s.ctl t c ∧ s'.mon.pc t = .idle (some (.ret r)) := by
  obtain ⟨last, hidle⟩ := h.idle t
  let m₁ : Monitor.St ι Unit Operands (Op Operands) (Ret Operands) (Loc Operands) :=
    { s.mon.goto t (.lock () op) with hist := s.mon.hist ++ [.inv t (.on () op)] }
  have h1 : Monitor.step (stack Operands) s.mon (.call t (.on () op)) = some m₁ := by
    simp only [Monitor.step, hidle, Monitor.St.invoke, h.live, Monitor.St.goto, m₁]
  let m₂ : Monitor.St ι Unit Operands (Op Operands) (Ret Operands) (Loc Operands) :=
    { m₁.goto t (.body () op (entry op)) with owner := Function.update m₁.owner () (some t) }
  have h2 : Monitor.step (stack Operands) m₁ (.lock t) = some m₂ := by
    simp only [Monitor.step, Monitor.St.goto, m₁, Function.update_self, Monitor.St.take, h.free,
      m₂]
    rfl
  have hpc2 : m₂.pc t = .body () op (entry op) := Function.update_self _ _ _
  obtain ⟨n, h3⟩ := Monitor.exec_body hb hpc2 h.data
  have hr1 : (work contents).Reachable { s.goto t c with mon := m₁ } :=
    .next hr trivial (a := .ctl t) (hcall m₁ h1)
  have hr2 : (work contents).Reachable { s.goto t c with mon := m₂ } := by
    refine .next hr1 trivial (a := .lock t) ?_
    simp only [work, workStep]
    rw [h2]
    rfl
  refine ⟨_, reachable_run hr2 h3, ⟨h.live, ?_, ?_, fun u => ?_⟩, rfl, ?_⟩
  · simp only [Monitor.St.finish, Function.update_self]
  · simp only [Monitor.St.finish, Function.update_self]
  · simp only [Monitor.St.finish, Monitor.St.goto, m₂, m₁, Function.update_idem]
    exact forall_update (P := fun p : StackPc => ∃ last, p = .idle last) h.idle ⟨_, rfl⟩ u
  · simp only [Monitor.St.finish, Function.update_self]

/-- A worker makes a step of work() itself. -/
theorem Ready.advance (h : Ready s d) (hr : (work contents).Reachable s) (c : Ctl)
    (out : List (Line ι)) (hs : s.advance t = some { s.goto t c with out := out }) :
    ∃ s', (work contents).Reachable s' ∧ Ready s' d ∧ s'.ctl = Function.update s.ctl t c :=
  ⟨_, .next hr trivial (a := .ctl t) hs, ⟨h.live, h.free, h.data, h.idle⟩, rfl⟩

/-- A worker tests the loop condition. -/
theorem Ready.test (h : Ready s d) (hr : (work contents).Reachable s) (hc : s.ctl t = .test) :
    ∃ s', (work contents).Reachable s' ∧ Ready s' d ∧
      s'.ctl = Function.update s.ctl t (if d.isEmpty then .left else .pop) := by
  obtain ⟨s₁, hr1, h1, hctl, hpc⟩ := h.member hr t .testing .empty
    (fun m hm => by simp only [WorkSt.advance, hc, hm, Option.map_some]) (.leave rfl)
  have hc1 : s₁.ctl t = .testing := by rw [hctl, Function.update_self]
  have hs : s₁.advance t = some (s₁.goto t (if d.isEmpty then .left else .pop)) := by
    simp only [WorkSt.advance, hc1, hpc]
  obtain ⟨s₂, hr2, h2, hctl2⟩ := h1.advance hr1 _ _ hs
  refine ⟨s₂, hr2, h2, ?_⟩
  rw [hctl2, hctl, Function.update_idem]

/-- A worker that has seen a non-empty stack pops, and finds an element. -/
theorem Ready.popSome {v : Operands} (h : Ready s (d ++ [v])) (hr : (work contents).Reachable s)
    (hc : s.ctl t = .pop) :
    ∃ s', (work contents).Reachable s' ∧ Ready s' d ∧
      s'.ctl = Function.update s.ctl t (.printId v) := by
  obtain ⟨s₁, hr1, h1, hctl, hpc⟩ := h.member hr t .popping (.pop .ref)
    (fun m hm => by simp only [WorkSt.advance, hc, hm, Option.map_some])
    (body_of_lifo (lifo_pop_concat .ref d v))
  have hc1 : s₁.ctl t = .popping := by rw [hctl, Function.update_self]
  have hs : s₁.advance t = some (s₁.goto t (.printId v)) := by
    simp only [WorkSt.advance, hc1, hpc, Overload.popped]
  obtain ⟨s₂, hr2, h2, hctl2⟩ := h1.advance hr1 _ _ hs
  refine ⟨s₂, hr2, h2, ?_⟩
  rw [hctl2, hctl, Function.update_idem]

/-- A worker that has seen a non-empty stack pops, and finds it empty. -/
theorem Ready.popNone (h : Ready s []) (hr : (work contents).Reachable s)
    (hc : s.ctl t = .pop) :
    ∃ s', (work contents).Reachable s' ∧ s'.ctl t = .died := by
  obtain ⟨s₁, hr1, h1, hctl, hpc⟩ := h.member hr t .popping (.pop .ref)
    (fun m hm => by simp only [WorkSt.advance, hc, hm, Option.map_some]) (.leave rfl)
  have hc1 : s₁.ctl t = .popping := by rw [hctl, Function.update_self]
  have hs : s₁.advance t = some (s₁.goto t .died) := by
    simp only [WorkSt.advance, hc1, hpc]
  obtain ⟨s₂, hr2, -, hctl2⟩ := h1.advance hr1 _ _ hs
  exact ⟨s₂, hr2, by rw [hctl2, Function.update_self]⟩

/-- A worker prints, and is back at its loop condition. -/
theorem Ready.print {v : Operands} (h : Ready s d) (hr : (work contents).Reachable s)
    (hc : s.ctl t = .printId v) :
    ∃ s', (work contents).Reachable s' ∧ Ready s' d ∧
      s'.ctl = Function.update s.ctl t .test := by
  obtain ⟨s₁, hr1, h1, hctl⟩ := h.advance hr (t := t) (.printEq v) (s.out ++ [.id t])
    (by simp only [WorkSt.advance, hc])
  have hc1 : s₁.ctl t = .printEq v := by rw [hctl, Function.update_self]
  obtain ⟨s₂, hr2, h2, hctl2⟩ := h1.advance hr1 (t := t) .test
    (s₁.out ++ [.eq v.1 v.2 (v.1 * v.2)]) (by simp only [WorkSt.advance, hc1])
  refine ⟨s₂, hr2, h2, ?_⟩
  rw [hctl2, hctl, Function.update_idem]

/-- From a stack that is not empty, worker `t` can pop until one element is left, and then
    `t` and `u` both test before `t` takes it. -/
theorem exists_died (htu : t ≠ u) (d : List Operands) :
    ∀ (v : Operands) (s : WorkSt ι), (work contents).Reachable s → Ready s (d ++ [v]) →
      s.ctl t = .test → s.ctl u = .test →
      ∃ s' : WorkSt ι, (work contents).Reachable s' ∧ ∃ u, s'.ctl u = .died := by
  have hne (d : List Operands) (v : Operands) : (d ++ [v]).isEmpty = false := by simp
  induction d using List.reverseRecOn with
  | nil =>
      intro v s hr h ht hu
      obtain ⟨s₁, hr1, h1, hc1⟩ := h.test hr ht
      obtain ⟨s₂, hr2, h2, hc2⟩ := h1.test hr1 (t := u)
        (by rw [hc1, Function.update_of_ne htu.symm, hu])
      rw [hne] at hc1 hc2
      obtain ⟨s₃, hr3, h3, hc3⟩ := h2.popSome hr2 (t := t)
        (by rw [hc2, Function.update_of_ne htu, hc1, Function.update_self]; rfl)
      obtain ⟨s₄, hr4, hd⟩ := h3.popNone hr3 (t := u)
        (by rw [hc3, Function.update_of_ne htu.symm, hc2, Function.update_self]; rfl)
      exact ⟨s₄, hr4, u, hd⟩
  | append_singleton d w ih =>
      intro v s hr h ht hu
      obtain ⟨s₁, hr1, h1, hc1⟩ := h.test hr ht
      rw [hne] at hc1
      obtain ⟨s₂, hr2, h2, hc2⟩ := h1.popSome hr1 (t := t)
        (by rw [hc1, Function.update_self]; rfl)
      obtain ⟨s₃, hr3, h3, hc3⟩ := h2.print hr2 (t := t) (v := v)
        (by rw [hc2, Function.update_self])
      refine ih w s₃ hr3 h3 (by rw [hc3, Function.update_self]) ?_
      rw [hc3, Function.update_of_ne htu.symm, hc2, Function.update_of_ne htu.symm, hc1,
        Function.update_of_ne htu.symm, hu]

/-! ## The result -/

/-- A single worker, or any number on an empty stack, is never hurried. -/
theorem unhurried_reach (hone : Fintype.card ι ≤ 1 ∨ contents = [])
    (hs : (work contents).Reachable s) : (work contents).Reach Unhurried s := by
  have hboth : (work contents).Reach Unhurried s ∧ (contents = [] → s.mon.data () = []) := by
    induction hs with
    | start h =>
        refine ⟨.start h, fun he => ?_⟩
        rw [show _ = workStart contents from h]
        exact he
    | @next s s' a hr _ hstep ih =>
        have hst := staged_reach hr
        have hg : Unhurried s a := by
          rcases hone with hcard | he
          · exact unhurried_of_subsingleton hcard hst a
          · cases a with
            | run t => exact fun _ hne => absurd (ih.2 he) hne
            | _ => trivial
        refine ⟨.next ih.1 hg hstep, fun he => ?_⟩
        exact empty_stays hst (ih.2 he) (workMoves_of_step hst hstep)
  exact hboth.1

/-- **When the workers survive.** For every initial contents of the stack: in unhurried runs
    no pop(a_b) throws empty_stack and every worker leaves its loop because empty() returned
    true. This is so in all runs if and only if there is at most one worker, or the stack
    is empty from the start. -/
theorem worker_survives (contents : List Operands) :
    (∀ s : WorkSt ι, (work contents).Reach Unhurried s → ∀ t, Survives s t) ∧
    ((∀ s : WorkSt ι, (work contents).Reachable s → ∀ t, Survives s t) ↔
      Fintype.card ι ≤ 1 ∨ contents = []) := by
  have hguarded (s : WorkSt ι) (hs : (work contents).Reach Unhurried s) :=
    survives_of_enough (staged_reach hs) (enough_reach hs)
  refine ⟨hguarded, fun hall => ?_, fun hone s hs => hguarded s (unhurried_reach hone hs)⟩
  by_contra hcon
  obtain ⟨hcard, hne⟩ := not_or.mp hcon
  obtain ⟨t, u, htu⟩ := Fintype.one_lt_card_iff.mp (Nat.not_le.mp hcard)
  have hready : Ready (workStart contents : WorkSt ι)
      (contents.dropLast ++ [contents.getLast hne]) :=
    ⟨rfl, rfl, (List.dropLast_append_getLast hne).symm, fun _ => ⟨none, rfl⟩⟩
  obtain ⟨s, hs, u, hu⟩ := exists_died htu _ _ _ (.start rfl) hready rfl rfl
  exact (hall s hs u).1 hu

/-- Two workers find the one element there; `false` pops it, and then `true` pops. -/
def raceForOne : List (WorkAct Bool) :=
  [.ctl false, .lock false, .run false, .run false, .ctl false,
   .ctl true, .lock true, .run true, .run true, .ctl true,
   .ctl false, .lock false, .run false, .run false, .run false, .run false, .run false,
   .ctl true, .lock true, .run true, .run true, .ctl true]

/-- The state after `raceForOne`. -/
def raced : WorkSt (Bool) :=
  ((work [(10000, 99999)]).exec Lts.anyStep (workStart [(10000, 99999)]) raceForOne).get
    (by decide)

theorem raced_reachable : (work [(10000, 99999)]).Reachable raced :=
  .exec raceForOne (.start rfl) (Option.some_get _).symm

/-- Two workers and one element: one of them dies of empty_stack. -/
theorem worker_dies :
    ¬ ∀ s : WorkSt (Bool), (work [(10000, 99999)]).Reachable s → ∀ t, Survives s t :=
  fun h => (h raced raced_reachable true).1 rfl

end CppConcurrency.ThreadSafeStack
