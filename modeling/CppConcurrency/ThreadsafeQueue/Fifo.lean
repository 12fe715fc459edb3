/-
  threadsafe_queue refines a sequential FIFO queue.

  `fifo` is the plain queue: push appends, a pop takes the head, try_pop says so when there
  is none. `Rel` annotates each statement of the members with what it knows about the
  contents now and at the start of its critical section, and `correct` checks the
  annotations one statement at a time. Linearizability, the accounting of the elements and
  the frame then come from the rules for monitor classes.
-/
import CppConcurrency.Lib.MonitorLinear
import CppConcurrency.ThreadsafeQueue.Model

namespace CppConcurrency.ThreadsafeQueue

open Concur Concur.Monitor

variable {T : Type*}

/-- A plain FIFO queue. -/
def fifo : ObjSpec T (Op T) (Ret T) where
  apply
    | d, .push v => some (d ++ [v], .void)
    | [], .waitAndPop _ => none
    | v :: d, .waitAndPop o => some (d, o.popped v)
    | [], .tryPop o => some ([], o.missing)
    | v :: d, .tryPop o => some (d, o.found v)
    | d, .empty => some (d, .bool d.isEmpty none)

/-- The element a member has taken out, read off its result. -/
def Ret.taken : Ret T → List T
  | .out v => [v]
  | .bool _ value => value.toList
  | .ptr res => res.toList
  | .void => []

/-- push puts its argument in; the pops take out what they give back. -/
def ledger : Ledger T (Op T) (Ret T) where
  put
    | .push v, _ => [v]
    | _, _ => []
  got
    | .push _, _ => []
    | _, r => r.taken

/-- The assertion at each statement: contents `d` now, `a` at the start of the section. -/
def Rel : Loc T → Op T → List T → List T → Prop
  | .pushData v, op, d, a => op = .push v ∧ d = a
  | .notifyOne, op, d, a => ∃ v, op = .push v ∧ d = a ++ [v]
  | .waitTest o, op, d, a => op = .waitAndPop o ∧ d = a
  | .waitFront o, op, d, a => op = .waitAndPop o ∧ d = a ∧ d ≠ []
  | .waitPop o v, op, d, a => op = .waitAndPop o ∧ d = a ∧ d.head? = some v
  | .tryTest o, op, d, a => op = .tryPop o ∧ d = a
  | .tryFront o, op, d, a => op = .tryPop o ∧ d = a ∧ d ≠ []
  | .tryPopData o v, op, d, a => op = .tryPop o ∧ d = a ∧ d.head? = some v
  | .emptyTest, op, d, a => op = .empty ∧ d = a
  | .done r, op, d, a => fifo.apply a op = some (d, r)

theorem rel_entry (op : Op T) (a : List T) : Rel ((queue T).entry op) op a a := by
  cases op <;> exact ⟨rfl, rfl⟩

theorem rel_next {l l' : Loc T} {op : Op T} {d a d' : List T} (h : Rel l op d a)
    (hs : (queue T).stmt l d = some (.next d' l')) : Rel l' op d' a := by
  simp only [queue] at hs
  cases l with
  | pushData v =>
      obtain ⟨rfl, rfl⟩ := h
      cases hs
      exact ⟨v, rfl, rfl⟩
  | waitTest o | tryTest o =>
      obtain ⟨rfl, rfl⟩ := h
      simp only [stmt] at hs
      split at hs
      · cases hs
      · next hd =>
          cases hs
          exact ⟨rfl, rfl, fun he => hd (by rw [he]; rfl)⟩
  | waitFront o | tryFront o =>
      obtain ⟨rfl, rfl, -⟩ := h
      simp only [stmt] at hs
      split at hs
      · cases hs
      · cases hs
        exact ⟨rfl, rfl, rfl⟩
  | waitPop o v | tryPopData o v =>
      obtain ⟨rfl, rfl, hv⟩ := h
      simp only [stmt] at hs
      split at hs
      · cases hs
      · cases hs
        cases hv
        rfl
  | notifyOne | emptyTest | done => cases hs

theorem rel_notify {l l' : Loc T} {op : Op T} {d a : List T} (h : Rel l op d a)
    (hs : (queue T).stmt l d = some (.notify l')) : Rel l' op d a := by
  simp only [queue] at hs
  cases l with
  | notifyOne =>
      obtain ⟨v, rfl, rfl⟩ := h
      cases hs
      rfl
  | waitTest | tryTest | waitFront | tryFront | waitPop | tryPopData =>
      simp only [stmt] at hs
      split at hs <;> cases hs
  | pushData | emptyTest | done => cases hs

theorem rel_wait {l l' : Loc T} {op : Op T} {d a : List T} (h : Rel l op d a)
    (hs : (queue T).stmt l d = some (.wait l')) : d = a ∧ ∀ b, Rel l' op b b := by
  simp only [queue] at hs
  cases l with
  | waitTest o =>
      obtain ⟨rfl, rfl⟩ := h
      simp only [stmt] at hs
      split at hs
      · cases hs
        exact ⟨rfl, fun b => ⟨rfl, rfl⟩⟩
      · cases hs
  | tryTest | waitFront | tryFront | waitPop | tryPopData =>
      simp only [stmt] at hs
      split at hs <;> cases hs
  | pushData | notifyOne | emptyTest | done => cases hs

theorem rel_leave {l : Loc T} {op : Op T} {d a : List T} {r : Ret T} (h : Rel l op d a)
    (hs : (queue T).stmt l d = some (.leave r)) : fifo.apply a op = some (d, r) := by
  simp only [queue] at hs
  cases l with
  | tryTest o =>
      obtain ⟨rfl, rfl⟩ := h
      simp only [stmt] at hs
      split at hs
      · next hd =>
          cases hs
          rw [List.isEmpty_iff.mp hd]
          rfl
      · cases hs
  | emptyTest =>
      obtain ⟨rfl, rfl⟩ := h
      cases hs
      cases d <;> rfl
  | done r =>
      cases hs
      exact h
  | waitTest | waitFront | tryFront | waitPop | tryPopData =>
      simp only [stmt] at hs
      split at hs <;> cases hs
  | pushData | notifyOne => cases hs

theorem rel_throws {l : Loc T} {op : Op T} {d a : List T} (h : Rel l op d a)
    (hl : (queue T).throws l = true) : d = a := by
  cases l with
  | pushData v => exact h.2
  | waitFront o | tryFront o => exact h.2.1
  | _ => cases hl

/-- Run alone, each member does what the plain queue does. -/
theorem correct : Correct (queue T) fifo Rel where
  entry := rel_entry
  next := rel_next
  notify := rel_notify
  wait := rel_wait
  leave := rel_leave
  throws := rel_throws

/-- In a FIFO queue, what went in is what came out followed by what is stored. -/
theorem fifo_accounts (a b d : List T) (op : Op T) (d' : List T) (r : Ret T)
    (h : a = b ++ d) (ha : fifo.apply d op = some (d', r)) :
    a ++ ledger.put op r = (b ++ ledger.got op r) ++ d' := by
  subst h
  cases op with
  | push v =>
      cases ha
      simp [ledger]
  | waitAndPop o =>
      cases d with
      | nil => cases ha
      | cons v d => cases ha; cases o <;> simp [ledger, Overload.popped, Ret.taken]
  | tryPop o =>
      cases d with
      | nil => cases ha; cases o <;> simp [ledger, Overload.missing, Ret.taken]
      | cons v d => cases ha; cases o <;> simp [ledger, Overload.found, Ret.taken]
  | empty =>
      cases d <;> cases ha <;> simp [ledger, Ret.taken]

section Runs

variable {ι κ : Type*} [Fintype ι] [DecidableEq ι] [DecidableEq κ]
  {s : St ι κ T (Op T) (Ret T) (Loc T)}

/-- Whoever is about to read the front finds a queue that is not empty. -/
theorem front_ne_nil {G} (h : (sys (queue T)).Reach G s) {t : ι} {q : κ} {op : Op T}
    {o : Overload} (hpc : s.pc t = .body q op (.waitFront o) ∨ s.pc t = .body q op (.tryFront o)) :
    s.data q ≠ [] := by
  have hi := inv_reach correct h
  obtain ⟨abs, hsim⟩ := hi.sim
  rcases hpc with hpc | hpc
  · obtain ⟨d, -, hr⟩ := rel_of_body hi hsim hpc rfl
    exact hr.2.2
  · obtain ⟨d, -, hr⟩ := rel_of_body hi hsim hpc rfl
    exact hr.2.2

/-- **threadsafe_queue is a FIFO queue.** In every state of a run without exceptions the
    completed operations have a linearization: one order, consistent with real time, in which
    each returns what a plain FIFO queue returns. In that order the elements popped from a
    queue are a prefix of those supplied to it, and the rest is what it holds. Nobody reads
    the front of an empty queue, and a step changes no queue but the one its call is on. -/
theorem refines_fifo (s : St ι κ T (Op T) (Ret T) (Loc T))
    (h : (sys (queue T)).Reach NoFail s) :
    WellFormed s.hist ∧
    (∃ order abs, Linearization fifo.objects (completed s.hist) order abs ∧
      (∀ q, ledger.delivered q (order.map OpRec.sig) <+:
        ledger.supplied q (order.map OpRec.sig)) ∧
      (∀ q d, abs q = some d →
        ledger.supplied q (order.map OpRec.sig) =
          ledger.delivered q (order.map OpRec.sig) ++ d) ∧
      (∀ q d, abs q = some d → s.owner q = none → s.data q = d)) ∧
    (∀ t q op o, s.pc t = .body q op (.waitFront o) ∨ s.pc t = .body q op (.tryFront o) →
      s.data q ≠ []) ∧
    (∀ a s', step (queue T) s a = some s' → ∀ q,
      (∀ c, (s'.pc a.mover).call = some c → c.target ≠ q) → s'.data q = s.data q) := by
  obtain ⟨hwf, abs, hlin, -, hg⟩ := linearizable correct h
  rw [returned_eq_completed correct h] at hlin
  have hled := fun q => ledger_of_legal (L := ledger) (K := fun a b d => a = b ++ d)
    (fun _ => rfl) fifo_accounts hlin.legal q
  refine ⟨hwf, ⟨_, abs, hlin, fun q => ?_, fun q d hd => ?_, fun q d hd hfree => ?_⟩,
    fun t q op o hpc => front_ne_nil h hpc, fun a s' hs q hq => data_frame hs hq⟩
  · have hq := hled q
    cases habs : abs q with
    | none =>
        rw [habs] at hq
        rw [hq.1, hq.2]
    | some d =>
        rw [habs] at hq
        exact ⟨d, hq.symm⟩
  · have hq := hled q
    rw [hd] at hq
    exact hq
  · exact hg.of_free hfree hd

/-- Thread `false` creates queue `false` and pushes 7; thread `true` copies it to queue `true`
    and pops it. -/
def handOver : List (Act Bool Bool (Op ℕ)) :=
  [.call false (.construct false), .run false,
   .call false (.on false (.push 7)), .lock false, .run false, .notify false none, .run false,
   .run false,
   .call true (.copy true false), .lock true, .run true, .run true, .run true,
   .call true (.on false (.waitAndPop .ptr)), .lock true, .run true, .run true, .run true,
   .run true, .run true]

/-- The state after `handOver`. -/
def handedOver : St Bool Bool ℕ (Op ℕ) (Ret ℕ) (Loc ℕ) :=
  ((sys (queue ℕ)).exec NoFail initial handOver).get (by decide)

theorem handedOver_reach : (sys (queue ℕ)).Reach NoFail handedOver :=
  .exec handOver (.start rfl) (Option.some_get _).symm

theorem refines_fifo_handedOver :
    ops handedOver.hist =
        [(.construct false, .made []), (.on false (.push 7), .ret .void),
          (.copy true false, .made [7]),
          (.on false (.waitAndPop .ptr), .ret (.ptr (some 7)))] ∧
      ∃ order abs, Linearization fifo.objects (completed handedOver.hist) order abs := by
  obtain ⟨-, ⟨order, abs, hlin, -⟩, -⟩ := refines_fifo handedOver handedOver_reach
  exact ⟨by decide, order, abs, hlin⟩

end Runs

end CppConcurrency.ThreadsafeQueue
