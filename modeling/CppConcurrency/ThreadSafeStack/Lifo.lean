/-
  ThreadSafeStack refines a sequential LIFO stack.

  `lifo` is the plain stack. `Rel` annotates the statements of the members, `correct` checks
  the annotations, and the rules for monitor classes give linearizability and the frame, in
  all runs: an operation whose element copy throws has no effect and is left out of the
  order. pop reads the top and removes it in two statements; that both see the same element
  is the annotation at `popData`.
-/
import CppConcurrency.Lib.MonitorLinear
import CppConcurrency.Lib.MonitorSolo
import CppConcurrency.ThreadSafeStack.Model

namespace CppConcurrency.ThreadSafeStack

open Concur Concur.Monitor

variable {T : Type*}

/-- A plain LIFO stack. -/
def lifo : ObjSpec T (Op T) (Ret T) where
  apply
    | d, .push v => some (d ++ [v], .void)
    | d, .pop o =>
        match d.getLast? with
        | none => some (d, .emptyStack)
        | some v => some (d.dropLast, o.popped v)
    | d, .empty => some (d, .bool d.isEmpty)

theorem lifo_pop_concat (o : Overload) (d : List T) (v : T) :
    lifo.apply (d ++ [v]) (.pop o) = some (d, o.popped v) := by
  simp only [lifo, List.getLast?_concat, List.dropLast_concat]

/-- The element a member has handed out, read off its result. -/
def Ret.taken : Ret T → List T
  | .out v => [v]
  | .ptr v => [v]
  | _ => []

/-- push puts its argument in; pop takes out what it gives back. -/
def ledger : Ledger T (Op T) (Ret T) where
  put
    | .push v, _ => [v]
    | _, _ => []
  got
    | .pop _, r => r.taken
    | _, _ => []

/-- The assertion at each statement: contents `d` now, `a` at the start of the section. -/
def Rel : Loc T → Op T → List T → List T → Prop
  | .pushData v, op, d, a => op = .push v ∧ d = a
  | .popTest o, op, d, a => op = .pop o ∧ d = a
  | .popTop o, op, d, a => op = .pop o ∧ d = a ∧ d ≠ []
  | .popData o v, op, d, a => op = .pop o ∧ d = a ∧ d.getLast? = some v
  | .emptyTest, op, d, a => op = .empty ∧ d = a
  | .done r, op, d, a => lifo.apply a op = some (d, r)

theorem rel_entry (op : Op T) (a : List T) : Rel ((stack T).entry op) op a a := by
  cases op <;> exact ⟨rfl, rfl⟩

theorem rel_next {l l' : Loc T} {op : Op T} {d a d' : List T} (h : Rel l op d a)
    (hs : (stack T).stmt l d = some (.next d' l')) : Rel l' op d' a := by
  simp only [stack] at hs
  cases l with
  | pushData v =>
      obtain ⟨rfl, rfl⟩ := h
      cases hs
      rfl
  | popTest o =>
      obtain ⟨rfl, rfl⟩ := h
      simp only [stmt] at hs
      split at hs
      · cases hs
      · next hd =>
          cases hs
          exact ⟨rfl, rfl, fun he => hd (by rw [he]; rfl)⟩
  | popTop o =>
      obtain ⟨rfl, rfl, -⟩ := h
      simp only [stmt] at hs
      split at hs
      · cases hs
      · next v hv =>
          cases hs
          exact ⟨rfl, rfl, hv⟩
  | popData o v =>
      obtain ⟨rfl, rfl, hv⟩ := h
      simp only [stmt, hv] at hs
      cases hs
      simp only [Rel, lifo, hv]
  | emptyTest | done => cases hs

/-- No member waits or notifies. -/
theorem stmt_quiet (l l' : Loc T) (d : List T) :
    (stack T).stmt l d ≠ some (.wait l') ∧ (stack T).stmt l d ≠ some (.notify l') := by
  simp only [stack]
  cases l with
  | popTest | popTop | popData =>
      simp only [stmt]
      split <;> exact ⟨nofun, nofun⟩
  | pushData | emptyTest | done => exact ⟨nofun, nofun⟩

theorem rel_leave {l : Loc T} {op : Op T} {d a : List T} {r : Ret T} (h : Rel l op d a)
    (hs : (stack T).stmt l d = some (.leave r)) : lifo.apply a op = some (d, r) := by
  simp only [stack] at hs
  cases l with
  | popTest o =>
      obtain ⟨rfl, rfl⟩ := h
      simp only [stmt] at hs
      split at hs
      · next hd =>
          cases hs
          rw [List.isEmpty_iff.mp hd]
          rfl
      · cases hs
  | emptyTest =>
      obtain ⟨rfl, rfl⟩ := h
      cases hs
      rfl
  | done r =>
      cases hs
      exact h
  | popTop | popData =>
      simp only [stmt] at hs
      split at hs <;> cases hs
  | pushData => cases hs

theorem rel_throws {l : Loc T} {op : Op T} {d a : List T} (h : Rel l op d a)
    (hl : (stack T).throws l = true) : d = a := by
  cases l with
  | pushData v => exact h.2
  | popTop o => exact h.2.1
  | _ => cases hl

/-- Run alone, each member does what the plain stack does. -/
theorem correct : Correct (stack T) lifo Rel where
  entry := rel_entry
  next := rel_next
  notify _ hs := absurd hs (stmt_quiet _ _ _).2
  wait _ hs := absurd hs (stmt_quiet _ _ _).1
  leave := rel_leave
  throws := rel_throws

/-- What the plain stack does, the statements of the member do when they run alone. -/
theorem body_of_lifo {op : Op T} {d d' : List T} {r : Ret T}
    (h : lifo.apply d op = some (d', r)) : Body (stack T) (entry op) d d' r := by
  cases op with
  | push v =>
      cases h
      exact .next rfl (.leave rfl)
  | pop o =>
      rcases List.eq_nil_or_concat' d with rfl | ⟨e, v, rfl⟩
      · cases h
        exact .leave rfl
      · rw [lifo_pop_concat] at h
        cases h
        have h1 : stmt (.popTest o) (d' ++ [v]) = some (.next (d' ++ [v]) (.popTop o)) := by
          simp [stmt]
        have h2 : stmt (.popTop o) (d' ++ [v]) = some (.next (d' ++ [v]) (.popData o v)) := by
          simp [stmt]
        have h3 : stmt (.popData o v) (d' ++ [v]) = some (.next d' (.done (o.popped v))) := by
          simp [stmt]
        exact .next h1 (.next h2 (.next h3 (.leave rfl)))
  | empty =>
      cases h
      exact .leave rfl

/-- In a LIFO stack, what went in is what came out and what is stored, up to order. -/
theorem lifo_accounts (a b d : List T) (op : Op T) (d' : List T) (r : Ret T)
    (h : a.Perm (b ++ d)) (ha : lifo.apply d op = some (d', r)) :
    (a ++ ledger.put op r).Perm ((b ++ ledger.got op r) ++ d') := by
  cases op with
  | push v =>
      cases ha
      simpa [ledger] using h.append_right [v]
  | pop o =>
      simp only [lifo] at ha
      split at ha
      · cases ha
        simpa [ledger, Ret.taken] using h
      · next v hv =>
          cases ha
          have hd : d.dropLast ++ [v] = d := List.dropLast_append_getLast? v hv
          have hg : ledger.got (.pop o) (o.popped v) = [v] := by cases o <;> rfl
          have hp : (b ++ (d.dropLast ++ [v])).Perm ((b ++ [v]) ++ d.dropLast) := by
            rw [List.append_assoc]
            exact List.perm_append_comm.append_left b
          rw [hd] at hp
          rw [hg, show ledger.put (.pop o) (o.popped v) = [] from rfl, List.append_nil]
          exact h.trans hp
  | empty =>
      cases ha
      simpa [ledger] using h

section Runs

variable {ι κ : Type*} [Fintype ι] [DecidableEq ι] [DecidableEq κ]
  {s s' : St ι κ T (Op T) (Ret T) (Loc T)} {t : ι} {q : κ}

/-- The statement that removes the top removes the very element that was copied. -/
theorem pop_removes_copied (hi : Inv lifo Rel s) {op : Op T} {o : Overload} {v : T}
    (hpc : s.pc t = .body q op (.popData o v)) (hs : step (stack T) s (.run t) = some s') :
    s.data q = s'.data q ++ [v] ∧ s'.pc t = .body q op (.done (o.popped v)) := by
  obtain ⟨abs, hsim⟩ := hi.sim
  obtain ⟨d, -, hr⟩ := rel_of_body hi hsim hpc rfl
  have htop : (s.data q).getLast? = some v := hr.2.2
  simp only [step, St.exec, hpc, stack, stmt, htop, Option.some.injEq] at hs
  subst hs
  simp only [Function.update_self, St.goto]
  exact ⟨(List.dropLast_append_getLast? v htop).symm, trivial⟩

/-- **ThreadSafeStack is a LIFO stack.** In every state of every run the operations that
    returned (all that completed, unless an element copy has thrown) have a linearization:
    one order, consistent with real time, in which each returns what a plain LIFO stack
    returns. In that order the elements supplied to a stack are those handed out and those
    it holds, and once nobody is inside an operation it holds them in `data`. A pop removes
    the element it copied, and a step changes no stack but the one its call is on. -/
theorem refines_lifo (s : St ι κ T (Op T) (Ret T) (Loc T)) (h : (sys (stack T)).Reachable s) :
    WellFormed s.hist ∧
    ((sys (stack T)).Reach NoFail s → returned s.hist = completed s.hist) ∧
    (∃ order abs, Linearization lifo.objects (returned s.hist) order abs ∧
      (∀ q d, abs q = some d →
        (ledger.supplied q (order.map OpRec.sig) : Multiset T) =
          ledger.delivered q (order.map OpRec.sig) + d) ∧
      (∀ q d, abs q = some d → s.owner q = none → s.data q = d) ∧
      ((∀ t, pendingOp s.hist t = none) → ∀ q d, abs q = some d → s.data q = d)) ∧
    (∀ t q op o v s', s.pc t = .body q op (.popData o v) →
      step (stack T) s (.run t) = some s' →
      s.data q = s'.data q ++ [v] ∧ s'.pc t = .body q op (.done (o.popped v))) ∧
    (∀ a s', step (stack T) s a = some s' → ∀ q,
      (∀ c, (s'.pc a.mover).call = some c → c.target ≠ q) → s'.data q = s.data q) := by
  obtain ⟨hwf, abs, hlin, -, hg⟩ := linearizable correct h
  have hi := inv_reach correct h
  refine ⟨hwf, returned_eq_completed correct, ⟨_, abs, hlin, fun q d hd => ?_,
    fun q d hd hfree => hg.of_free hfree hd, fun hquiet q d hd => hg.of_free ?_ hd⟩,
    fun t q op o v s' hpc hs => pop_removes_copied hi hpc hs,
    fun a s' hs q hq => data_frame hs hq⟩
  · have hq := ledger_of_legal (L := ledger) (K := fun a b d => a.Perm (b ++ d))
      (fun d => List.Perm.refl d) lifo_accounts hlin.legal q
    rw [hd] at hq
    exact Multiset.coe_eq_coe.mpr hq
  · exact hi.free_of_quiet hquiet q

/-- Thread `false` creates stack `false` and pushes 7 and 8; thread `true` copies it to stack
    `true`, pops from it, and pops from the copy. -/
def copyAndPop : List (Act Bool Bool (Op ℕ)) :=
  [.call false (.construct false), .run false,
   .call false (.on false (.push 7)), .lock false, .run false, .run false, .run false,
   .call false (.on false (.push 8)), .lock false, .run false, .run false, .run false,
   .call true (.copy true false), .lock true, .run true, .run true, .run true, .run true,
   .call true (.on false (.pop .ptr)), .lock true, .run true, .run true, .run true, .run true,
   .run true,
   .call true (.on true (.pop .ref)), .lock true, .run true, .run true, .run true, .run true,
   .run true]

/-- The state after `copyAndPop`. -/
def copied : St Bool Bool ℕ (Op ℕ) (Ret ℕ) (Loc ℕ) :=
  ((sys (stack ℕ)).exec Lts.anyStep initial copyAndPop).get (by decide)

theorem copied_reachable : (sys (stack ℕ)).Reachable copied :=
  .exec copyAndPop (.start rfl) (Option.some_get _).symm

theorem refines_lifo_copied :
    ops copied.hist =
        [(.construct false, .made []), (.on false (.push 7), .ret .void),
          (.on false (.push 8), .ret .void), (.copy true false, .made [7, 8]),
          (.on false (.pop .ptr), .ret (.ptr 8)), (.on true (.pop .ref), .ret (.out 8))] ∧
      ∃ order abs, Linearization lifo.objects (returned copied.hist) order abs := by
  obtain ⟨-, -, ⟨order, abs, hlin, -⟩, -⟩ := refines_lifo copied copied_reachable
  exact ⟨by decide, order, abs, hlin⟩

end Runs

end CppConcurrency.ThreadSafeStack
