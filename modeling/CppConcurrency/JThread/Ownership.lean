/-
  JThread never leaks, overwrites or doubly joins a thread.

  `Inv`: the handles are owned (`Handles.Owned`) and no parameter is left over between
  calls. Every operation keeps it and none ends the program, self-moves, self-swaps and
  moved-from operands included: `testJoin` empties the target before it is assigned or
  destroyed, and a move empties its source.
-/
import CppConcurrency.JThread.Model

namespace CppConcurrency.JThread

open Concur Handles

variable {κ π : Type*}

/-- No thread is lost or shared, and between calls there is no parameter. -/
def Inv (s : Handles (Obj κ π)) : Prop := Owned s ∧ s.alive .param = false

theorem Inv.of_at {al : Obj κ π → Bool} {c : Obj κ π → Option ℕ} {d : ℕ → ℕ}
    {s : Handles (Obj κ π)} (h : At al c d s) (hp : al .param = false) : Inv s := by
  obtain ⟨ho, rfl, -, -⟩ := h
  exact ⟨ho, hp⟩

variable [DecidableEq κ] [DecidableEq π]

section Specs

variable {al : Obj κ π → Bool} {c : Obj κ π → Option ℕ} {d : ℕ → ℕ} {k : κ}

/-- `testJoin` never throws, and leaves the object without a thread. -/
theorem testJoin_spec :
    Prog.Triple (At al c d) (testJoin k)
      (fun _ => At al (Function.update c (.thread k) none) d) Res.never := by
  unfold testJoin
  refine Prog.Triple.noexcept (Prog.Triple.seq joinable_spec fun v => ?_)
  rintro s ⟨hv, hs⟩
  split
  · next htrue =>
      refine (join_spec s hs).imp (fun _ _ h => h.2) fun _ _ h => ?_
      rw [htrue, h.1] at hv
      cases hv
  · next hfalse =>
      have hc : c (.thread k) = none := Option.not_isSome_iff_eq_none.mp (hv ▸ hfalse)
      rw [← hc, Function.update_eq_self]
      exact hs

/-- Handing a plain `std::thread` to the parameter. -/
theorem pass_spec {p : π} (hparam : al .param = false) (hp : al (.arg p) = true) :
    Prog.Triple (At al c d) (Handles.moveConstruct .param (.arg p))
      (fun _ => At (Function.update al .param true)
        (Function.update (Function.update c .param (c (.arg p))) (.arg p) none) d)
      Res.never :=
  moveConstruct_spec hparam hp

end Specs

section Operations

variable {s : Handles (Obj κ π)} {k : κ}

/-- A default constructed `std::thread`, as a member or as the caller's own object. -/
theorem construct_inv {a : Obj κ π} (h : Inv s) (ha : s.alive a = false) (hne : a ≠ .param) :
    (Handles.construct a s).Ends (fun _ => Inv) Res.never := by
  refine (construct_spec ha s h.1.at_self).imp (fun _ u hu => ?_) fun _ _ hu => hu
  refine Inv.of_at hu ?_
  rw [Function.update_of_ne hne.symm]
  exact h.2

/-- A `std::thread` made with its thread; when the system fails to start it nothing changes. -/
theorem launch_inv {a : Obj κ π} (h : Inv s) (ha : s.alive a = false) (hne : a ≠ .param)
    (starts : Bool) : (Handles.launch a starts s).Ends (fun _ => Inv) fun _ => Inv := by
  refine (launch_spec ha starts s h.1.at_self).imp ?_ fun _ u hu => Inv.of_at hu.2 h.2
  rintro _ u ⟨i, hu⟩
  refine Inv.of_at hu ?_
  rw [Function.update_of_ne hne.symm]
  exact h.2

theorem fromThread_inv {p : π} (h : Inv s) (hk : s.alive (.thread k) = false)
    (hp : s.alive (.arg p) = true) : (fromThread k p s).Ends (fun _ => Inv) Res.never := by
  unfold fromThread
  refine Prog.Triple.seq (pass_spec h.2 hp) (fun _ => ?_) s h.1.at_self
  refine Prog.Triple.seq (Prog.Triple.noexcept (moveConstruct_spec ?_ ?_)) fun _ => ?_
  · rw [Function.update_of_ne (by simp)]
    exact hk
  · exact Function.update_self ..
  · refine (destroy_spec (Function.update_self ..)).post fun _ u hu => ?_
    exact Inv.of_at hu (Function.update_self ..)

theorem moveConstruct_inv {other : κ} (h : Inv s) (hk : s.alive (.thread k) = false)
    (ho : s.alive (.thread other) = true) :
    (moveConstruct k other s).Ends (fun _ => Inv) Res.never := by
  refine Prog.Triple.noexcept ((moveConstruct_spec hk ho).post fun _ u hu => ?_) s h.1.at_self
  refine Inv.of_at hu ?_
  rw [Function.update_of_ne (by simp)]
  exact h.2

theorem moveAssign_inv {rhs : κ} (h : Inv s) (hk : s.alive (.thread k) = true)
    (hr : s.alive (.thread rhs) = true) :
    (moveAssign k rhs s).Ends (fun _ => Inv) Res.never := by
  unfold moveAssign
  refine Prog.Triple.noexcept (Prog.Triple.seq testJoin_spec fun _ => ?_) s h.1.at_self
  refine (moveAssign_spec hk hr (Function.update_self ..)).post fun _ u hu => ?_
  exact Inv.of_at hu h.2

theorem assignThread_inv {p : π} (h : Inv s) (hk : s.alive (.thread k) = true)
    (hp : s.alive (.arg p) = true) : (assignThread k p s).Ends (fun _ => Inv) Res.never := by
  unfold assignThread
  refine Prog.Triple.seq (pass_spec h.2 hp) (fun _ => ?_) s h.1.at_self
  refine Prog.Triple.seq (Prog.Triple.noexcept
    (Prog.Triple.seq testJoin_spec fun _ => moveAssign_spec ?_ ?_ ?_)) fun _ => ?_
  · rw [Function.update_of_ne (by simp)]
    exact hk
  · exact Function.update_self ..
  · exact Function.update_self ..
  · refine (destroy_spec (Function.update_self ..)).post fun _ u hu => ?_
    exact Inv.of_at hu (Function.update_self ..)

theorem swap_inv {other : κ} (h : Inv s) (hk : s.alive (.thread k) = true)
    (ho : s.alive (.thread other) = true) : (swap k other s).Ends (fun _ => Inv) Res.never := by
  refine Prog.Triple.noexcept ((swap_spec hk ho).post fun _ u hu => ?_) s h.1.at_self
  exact Inv.of_at hu h.2

theorem join_inv (h : Inv s) : (join k s).Ends (fun _ => Inv) fun _ => Inv := by
  refine (join_spec s h.1.at_self).imp (fun _ u hu => ?_) fun _ u hu => ?_
  · exact Inv.of_at hu.2 h.2
  · exact Inv.of_at hu.2 h.2

theorem detach_inv (h : Inv s) : (detach k s).Ends (fun _ => Inv) fun _ => Inv := by
  refine (detach_spec s h.1.at_self).imp ?_ fun _ u hu => Inv.of_at hu.2 h.2
  rintro _ u ⟨d', hu⟩
  exact Inv.of_at hu h.2

theorem destroy_inv (h : Inv s) : (destroy k s).Ends (fun _ => Inv) Res.never := by
  unfold destroy
  refine Prog.Triple.noexcept (Prog.Triple.seq testJoin_spec fun _ => ?_) s h.1.at_self
  refine (destroy_spec (Function.update_self ..)).post fun _ u hu => ?_
  refine Inv.of_at hu ?_
  rw [Function.update_of_ne (by simp)]
  exact h.2

/-- What the destructor does. -/
theorem destroy_cases (k : κ) (s : Handles (Obj κ π)) :
    s.cell (.thread k) = none ∧
      destroy k s = .ok () { s with alive := Function.update s.alive (.thread k) false } ∨
    ∃ i, s.cell (.thread k) = some i ∧
      destroy k s = .ok () { s with
        alive := Function.update s.alive (.thread k) false
        cell := Function.update s.cell (.thread k) none
        joined := Function.update s.joined i (s.joined i + 1) } := by
  cases hc : s.cell (.thread k) with
  | none =>
      refine .inl ⟨rfl, ?_⟩
      simp [destroy, testJoin, Prog.noexcept, bind, Prog.seq, joinable, Prog.read, hc,
        Handles.destroy, pure, Prog.ret]
  | some i =>
      refine .inr ⟨i, rfl, ?_⟩
      simp [destroy, testJoin, Prog.noexcept, bind, Prog.seq, joinable, Prog.read, hc,
        Handles.join, Handles.destroy]

/-- The destructor ends the object, and has joined the thread that it had. -/
theorem destroy_joins (h : Inv s) :
    ∃ s', destroy k s = .ok () s' ∧ s'.alive (.thread k) = false ∧ s'.cell (.thread k) = none ∧
      ∀ i, s.cell (.thread k) = some i → s'.joined i = 1 ∧ s'.detached i = 0 := by
  obtain ⟨hc, hd⟩ | ⟨i, hc, hd⟩ := destroy_cases k s
  · refine ⟨_, hd, Function.update_self .., hc, fun i hi => ?_⟩
    rw [hc] at hi
    cases hi
  · refine ⟨_, hd, Function.update_self .., Function.update_self .., fun j hj => ?_⟩
    rw [hc] at hj
    cases hj
    have hpending := (h.1.pending _ i hc).2
    dsimp only
    rw [Function.update_self]
    omega

/-- The caller destroys an object of its own that no longer has a thread. -/
theorem argDestroy_inv {p : π} (h : Inv s) (hc : s.cell (.arg p) = none) :
    (Handles.destroy (.arg p) s).Ends (fun _ => Inv) Res.never := by
  refine (destroy_spec hc s h.1.at_self).imp (fun _ u hu => ?_) fun _ _ hu => hu
  refine Inv.of_at hu ?_
  rw [Function.update_of_ne (by simp)]
  exact h.2

end Operations

/-! ## Whole runs -/

/-- Every operation keeps the invariant; one declared `noexcept` returns. -/
theorem body_inv {s : Handles (Obj κ π)} {op : Op κ π} (h : Inv s) (hpre : pre s op) :
    (body op s).Ends (fun _ => Inv) fun _ u => op.isNoexcept = false ∧ Inv u := by
  cases op with
  | construct k => exact Prog.noexcept_ends (construct_inv h hpre (by simp))
  | launch k starts =>
      exact (launch_inv h hpre (by simp) starts).imp (fun _ _ hs => hs) fun _ _ hs => ⟨rfl, hs⟩
  | fromThread k p => exact (fromThread_inv h hpre.1 hpre.2).quiet
  | moveConstruct k other => exact (moveConstruct_inv h hpre.1 hpre.2).quiet
  | moveAssign k rhs => exact (moveAssign_inv h hpre.1 hpre.2).quiet
  | assignThread k p => exact (assignThread_inv h hpre.1 hpre.2).quiet
  | swap k other => exact (swap_inv h hpre.1 hpre.2).quiet
  | join k => exact (join_inv h).imp (fun _ _ hs => hs) fun _ _ hs => ⟨rfl, hs⟩
  | detach k => exact (detach_inv h).imp (fun _ _ hs => hs) fun _ _ hs => ⟨rfl, hs⟩
  | destroy k => exact (destroy_inv h).quiet
  | argConstruct p => exact (construct_inv h hpre (by simp)).quiet
  | argLaunch p starts =>
      exact (launch_inv h hpre (by simp) starts).imp (fun _ _ hs => hs) fun _ _ hs => ⟨rfl, hs⟩
  | argDestroy p => exact (argDestroy_inv h hpre.2).quiet

theorem inv_reach {r : Res (Handles (Obj κ π)) ThreadExc Unit}
    (h : (sys (κ := κ) (π := π)).Reachable r) : r.Ends (fun _ => Inv) fun _ => Inv := by
  refine calls_invariant ⟨Owned.empty, rfl⟩ ?_ h
  intro r op s _ _ hs hpre
  exact (body_inv hs hpre).imp (fun _ _ hu => hu) fun _ _ hu => hu.2

/-- Thread `i` has exactly one owner, a live JThread or a live argument. -/
def OneOwner (s : Handles (Obj κ π)) (i : ℕ) : Prop :=
  (∃ k, s.alive (.thread k) = true ∧ s.cell (.thread k) = some i ∧
    (∀ k', s.cell (.thread k') = some i → k' = k) ∧ ∀ p, s.cell (.arg p) ≠ some i) ∨
  (∃ p, s.alive (.arg p) = true ∧ s.cell (.arg p) = some i ∧
    (∀ p', s.cell (.arg p') = some i → p' = p) ∧ ∀ k, s.cell (.thread k) ≠ some i)

omit [DecidableEq κ] [DecidableEq π] in
/-- A thread that was launched, and neither joined nor detached, has exactly one owner. -/
theorem Inv.oneOwner {s : Handles (Obj κ π)} (h : Inv s) {i : ℕ} (hi : i < s.next)
    (hj : s.joined i + s.detached i = 0) : OneOwner s i := by
  obtain ⟨x, hx⟩ : ∃ x, s.cell x = some i := by
    by_contra hno
    have := h.1.ended i hi fun x hx => hno ⟨x, hx⟩
    omega
  have halive := h.1.alive x i hx
  cases x with
  | thread k =>
      refine Or.inl ⟨k, halive, hx, fun k' hk' => ?_, fun p hp => ?_⟩
      · exact Obj.thread.inj (h.1.unique _ _ i hk' hx)
      · cases h.1.unique _ _ i hp hx
  | arg p =>
      refine Or.inr ⟨p, halive, hx, fun p' hp' => ?_, fun k hk => ?_⟩
      · exact Obj.arg.inj (h.1.unique _ _ i hp' hx)
      · cases h.1.unique _ _ i hk hx
  | param =>
      rw [h.2] at halive
      cases halive

omit [DecidableEq κ] [DecidableEq π] in
/-- Once all JThreads are destroyed, every thread that was handed to one has been joined or
    detached exactly once. -/
theorem Inv.ended_once {s : Handles (Obj κ π)} (h : Inv s)
    (hdone : ∀ k, s.alive (.thread k) = false) {i : ℕ} (hi : i < s.next)
    (harg : ∀ p, s.cell (.arg p) ≠ some i) : s.joined i + s.detached i = 1 := by
  refine h.1.ended i hi fun x hx => ?_
  have halive := h.1.alive x i hx
  cases x with
  | thread k =>
      rw [hdone k] at halive
      cases halive
  | arg p => exact harg p hx
  | param =>
      rw [h.2] at halive
      cases halive

/-- In every reachable state the program goes on (no thread was destroyed or assigned over,
    and nothing declared `noexcept` threw), each pending thread has one owner, every
    `noexcept` operation returns, the destructor ends its object and has joined the thread
    that was in it, and threads whose JThreads are gone were ended once. -/
theorem never_leaks {r : Res (Handles (Obj κ π)) ThreadExc Unit}
    (h : (sys (κ := κ) (π := π)).Reachable r) :
    ∃ s, r.state? = some s ∧
      (∀ i, i < s.next → s.joined i + s.detached i = 0 → OneOwner s i) ∧
      (∀ i, s.joined i + s.detached i ≤ 1) ∧
      (∀ op r', op.isNoexcept = true → sys.step r op = some r' → ∃ s', r' = .ok () s') ∧
      (∀ k r', sys.step r (.destroy k) = some r' → ∃ s', r' = .ok () s' ∧
        s'.alive (.thread k) = false ∧ s'.cell (.thread k) = none ∧
        ∀ i, s.cell (.thread k) = some i → s'.joined i = 1 ∧ s'.detached i = 0) ∧
      ((∀ k, s.alive (.thread k) = false) →
        ∀ i, i < s.next → (∀ p, s.cell (.arg p) ≠ some i) → s.joined i + s.detached i = 1) := by
  have hinv := inv_reach h
  obtain ⟨s, hs⟩ := hinv.exists_state
  have hi := hinv.state hs
  refine ⟨s, hs, fun i hlt hj => hi.oneOwner hlt hj, fun i => ?_, fun op r' hop hstep => ?_,
    fun k r' hstep => ?_, fun hdone i hlt harg => hi.ended_once hdone hlt harg⟩
  · by_cases hlt : i < s.next
    · by_cases hj : s.joined i + s.detached i = 0
      · omega
      · have := hi.1.ended i hlt fun x hx => hj (hi.1.pending x i hx).2
        omega
    · have := hi.1.fresh i (by omega)
      omega
  · obtain ⟨u, hu, hpre, rfl⟩ := calls_step hstep
    have hend := body_inv (hinv.state hu) hpre
    cases hb : body op u with
    | ok a s' => exact ⟨s', rfl⟩
    | threw e s' =>
        rw [hb] at hend
        rw [hend.1] at hop
        cases hop
    | terminated =>
        rw [hb] at hend
        exact hend.elim
  · obtain ⟨u, hu, -, rfl⟩ := calls_step hstep
    rw [hs] at hu
    cases hu
    exact destroy_joins hi

/-- A thread is moved into another JThread, the two are swapped, one of them is assigned to
    itself, and both are destroyed. -/
def swappedAndMoved : List (Op Bool Empty) :=
  [.launch false true, .construct true, .moveAssign true false, .swap false true,
    .moveAssign true true, .destroy true]

/-- The last destructor joins the thread. -/
theorem never_leaks_destroyed :
    ∃ r r' s', (sys (κ := Bool) (π := Empty)).exec Lts.anyStep (.ok () Handles.empty)
        swappedAndMoved = some r ∧
      sys.step r (.destroy false) = some r' ∧ r' = .ok () s' ∧
      s'.joined 0 = 1 ∧ s'.joined 0 + s'.detached 0 = 1 := by
  have hreach : (sys (κ := Bool) (π := Empty)).Reachable _ :=
    Lts.Reach.exec swappedAndMoved (.start rfl) rfl
  have hreach' : (sys (κ := Bool) (π := Empty)).Reachable _ :=
    Lts.Reach.exec (swappedAndMoved ++ [.destroy false]) (.start rfl) rfl
  obtain ⟨s, hs, -, -, -, hdestroy, -⟩ := never_leaks hreach
  cases hs
  obtain ⟨s', hs', -, -, hjoined⟩ := hdestroy false _ rfl
  obtain ⟨u, hu, -, -, -, -, hdone⟩ := never_leaks hreach'
  cases hu
  refine ⟨_, _, s', rfl, rfl, hs', (hjoined 0 rfl).1, ?_⟩
  cases hs'
  exact hdone (by decide) 0 (by decide) fun p => p.elim

end CppConcurrency.JThread
