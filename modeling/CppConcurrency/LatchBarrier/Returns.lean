/-
  The return of process_data().

  `Safe` puts the two conditions together: thread 0 takes the last block only when every other
  thread has evaluated done() for that round, and the calling thread destroys result and chunks
  only when nobody is going to use them.

  Proved (`same_rounds`): in all runs that keep to it no thread waits for one that has left, the
  run is bounded, and when nobody can go on within the condition, process_data has returned and
  all threads have left after one round for each block. The condition is exact: from any state
  that such a run reaches, a step against it leads on to a thread that waits for one that has
  left, or to undefined behaviour.
-/
import CppConcurrency.Lib.Progress
import CppConcurrency.LatchBarrier.Scope

namespace CppConcurrency.ProcessData

open Concur

variable {n : ℕ} {Block Chunk Res : Type*}

/-- Thread 0 takes the last block when all the others have evaluated done(), and the calling
    thread destroys result and chunks when nobody is going to use them. -/
def Safe (s : Call n Block Chunk Res) : Act n → Prop
  | .caller => ScopeSafe s .caller
  | .worker i => FetchSafe s.loop i

instance (s : Call n Block Chunk Res) (a : Act n) : Decidable (Safe s a) :=
  match a with
  | .caller => inferInstanceAs (Decidable (ScopeSafe s .caller))
  | .worker i => inferInstanceAs (Decidable (FetchSafe s.loop i))

/-- process_data has returned, after one round for each block in every thread. -/
structure Over (E : Env n Block Chunk Res) (blocks : List Block)
    (s : Call n Block Chunk Res) : Prop where
  returned : s.caller = .returned
  rounds : ∀ i, (s.loop.th i).pc = .left ∧ (s.loop.th i).rounds = blocks.length
  written : 0 < n → s.loop.sink = blocks.map (output E)

/-- The JThreads that have been joined. -/
def Caller.joined (n : ℕ) : Caller → ℕ
  | .join k => k
  | .returned => n
  | _ => 0

/-- The steps that the calling thread has left. -/
def Caller.toGo (n : ℕ) : Caller → ℕ
  | .launch k => (n - k) + n + 4
  | .endResult => n + 3
  | .endChunks => n + 2
  | .join k => (n - k) + 1
  | .returned => 0

/-- The steps that are left, if there are `b` blocks. -/
def Call.toGo (b : ℕ) (s : Call n Block Chunk Res) : ℕ :=
  s.caller.toGo n + sumAt (Thread.toGo b) s.loop.th

section Steps

variable {E : Env n Block Chunk Res} {blocks : List Block} {s s' : Call n Block Chunk Res}
  {a : Act n}

theorem scopeSafe_of_safe (h : Safe s a) : ScopeSafe s a := by
  cases a with
  | caller => exact h
  | worker i => trivial

theorem scope_reach (h : (processData E blocks).Reach Safe s) :
    (processData E blocks).Reach ScopeSafe s := h.mono fun _ _ => scopeSafe_of_safe

theorem agreed_of_safe (h : (processData E blocks).Reach Safe s) : Agreed blocks s.loop :=
  agreed_reach (loop_reach (fun _ _ hg => hg) h)

/-! ### The joins -/

theorem left_stays {l l' : St n Block Chunk Res} {i j : Fin n} (hm : Moves E l i l')
    (hj : (l.th j).pc = .left) : (l'.th j).pc = .left := by
  have hne : j ≠ i := by
    rintro rfl
    cases hm with
    | leave hpc | enter hpc | fetch hpc | split hpc | arrive1 hpc | pass1 hpc | read hpc | set hpc
    | arrive2 hpc | pass2 hpc | write hpc =>
        rw [hj] at hpc
        cases hpc
  rw [th_of_ne hm hne]
  exact hj

/-- A JThread is joined when its worker has left. -/
theorem left_of_joined {G : Call n Block Chunk Res → Act n → Prop}
    (h : (processData E blocks).Reach G s) (i : Fin n) (hi : (i : ℕ) < s.caller.joined n) :
    (s.loop.th i).pc = .left := by
  refine h.invariant
    (I := fun s => ∀ i : Fin n, (i : ℕ) < s.caller.joined n → (s.loop.th i).pc = .left)
    ?_ ?_ i hi
  · rintro s rfl i hi
    exact absurd hi (Nat.not_lt_zero _)
  · intro s a s' _ ih _ hstep j hj
    obtain ⟨-, hacts⟩ := acts_of_step hstep
    cases hacts with
    | misuse => exact ih j hj
    | work _ _ hl => exact left_stays (moves_of_step hl) (ih j hj)
    | caller hc =>
        cases hc with
        | @join k hcaller hk hleft =>
            by_cases hjk : (j : ℕ) = k
            · subst hjk
              exact hleft
            · have hlt : (j : ℕ) < k + 1 := hj
              refine ih j ?_
              rw [hcaller]
              exact Nat.lt_of_le_of_ne (Nat.le_of_lt_succ hlt) hjk
        | joined hcaller hk =>
            refine ih j ?_
            rw [hcaller]
            exact j.isLt.trans_le hk
        | _ => exact absurd hj (Nat.not_lt_zero _)

/-! ### The end -/

theorem caller_toGo {c : Caller} (h : CallerMoves s c) : c.toGo n < s.caller.toGo n := by
  cases h with
  | launch hc | launched hc | endResult hc | endChunks hc | join hc | joined hc =>
      rw [hc]
      simp only [Caller.toGo]
      omega

theorem call_toGo (h : (processData E blocks).Reach Safe s) (hstep : step E s a = some s') :
    s'.toGo blocks.length < s.toGo blocks.length := by
  have hl := loop_reachable h
  have ht := turns_reach hl
  obtain ⟨-, hacts⟩ := acts_of_step hstep
  cases hacts with
  | caller hc => exact Nat.add_lt_add_right (caller_toGo hc) _
  | work _ _ hw => exact Nat.add_lt_add_left (toGo_step ht (drawn_reach hl) (moves_of_step hw)) _
  | @misuse i _ ha =>
      rw [(intact_reach (scope_reach h)).allows ht i] at ha
      cases ha

/-- Unless process_data has returned, somebody can go on without breaking the condition. -/
theorem call_progress (h : (processData E blocks).Reach Safe s) (hr : s.caller ≠ .returned) :
    ∃ a, Safe s a ∧ step E s a ≠ none := by
  have hl := loop_reachable h
  have ht := turns_reach hl
  have hi := intact_reach (scope_reach h)
  have caller : callerStep s ≠ none → ScopeSafe s .caller →
      ∃ a, Safe s a ∧ step E s a ≠ none := by
    intro hgo hg
    obtain ⟨c, hc⟩ := Option.ne_none_iff_exists'.mp hgo
    refine ⟨.caller, hg, ?_⟩
    rw [step_caller hi.undefined hc]
    exact Option.some_ne_none _
  have worker : s.caller.started n = n → ∀ i, (s.loop.th i).pc ≠ .left →
      ∃ a, Safe s a ∧ step E s a ≠ none := by
    intro hall i hne
    obtain ⟨j, l, hsafe, hstep⟩ :=
      safe_progress ht (contents_reach hl) (drawn_reach hl) (agreed_of_safe h) hne
    refine ⟨.worker j, hsafe, ?_⟩
    rw [step_worker hi.undefined (by rw [hall]; exact j.isLt) (hi.allows ht j) hstep]
    exact Option.some_ne_none _
  cases hc : s.caller with
  | launch k => exact caller (by simp [callerStep, hc]) fun he => by rw [hc] at he; cases he
  | endResult =>
      by_cases hq : Quiet s.loop
      · exact caller (by simp [callerStep, hc]) fun _ => hq
      · -- the variables are still needed, so a worker that needs them goes on
        obtain ⟨z, -, hw, -⟩ := wanted_of_not_quiet hq
        exact worker (by rw [hc]; rfl) z (not_left_of_wanted (drawn_reach hl) hw)
  | endChunks =>
      exact caller (by simp [callerStep, hc]) fun _ => hi.quiet (by rw [hc]; rfl)
  | join k =>
      have hno : ScopeSafe s .caller := fun he => by rw [hc] at he; cases he
      by_cases hk : k < n
      · by_cases hleft : (s.loop.th ⟨k, hk⟩).pc = .left
        · exact caller (by simp [callerStep, hc, hk, hleft]) hno
        · exact worker (by rw [hc]; rfl) _ hleft
      · exact caller (by simp [callerStep, hc, hk]) hno
  | returned => exact absurd hc hr

theorem over_of_returned (h : (processData E blocks).Reach Safe s) (hr : s.caller = .returned) :
    Over E blocks s := by
  have hl := loop_reachable h
  have hleft : ∀ i, (s.loop.th i).pc = .left := fun i =>
    left_of_joined h i (by rw [hr]; exact i.isLt)
  have hsrc : ∀ i : Fin n, s.loop.source = [] := fun i => (drawn_reach hl).empty i (hleft i)
  refine ⟨hr, fun i => ⟨hleft i, agreed_of_safe h (hsrc i) i⟩, fun hn => ?_⟩
  obtain ⟨written, -, hsink, hser⟩ := (contents_reach hl).serial
  have hz := hser ⟨0, hn⟩ rfl
  rw [hleft, hsrc ⟨0, hn⟩] at hz
  have hblocks : blocks = written ++ [] := hz
  rw [hsink, hblocks, List.append_nil]

/-! ### Any other fetch -/

variable (E blocks) in
/-- The calling thread goes on with its for loop. -/
theorem exists_launch (hu : s.undefined = false) (hr : s.caller.hasResult = true) :
    ∃ as u, (processData E blocks).exec Lts.anyStep s as = some u ∧ u.loop = s.loop ∧
      u.undefined = false ∧ u.caller.hasResult = true ∧ n ≤ u.caller.started n := by
  cases hc : s.caller with
  | endResult => exact ⟨[], s, rfl, rfl, hu, hr, by rw [hc]; rfl⟩
  | launch k =>
      induction hd : n - k generalizing s k with
      | zero => exact ⟨[], s, rfl, rfl, hu, hr, by rw [hc]; exact Nat.sub_eq_zero_iff_le.mp hd⟩
      | succ d ih =>
          have hk : k < n := by omega
          have hstep : step E s .caller = some { s with caller := .launch (k + 1) } :=
            step_caller hu (by simp [callerStep, hc, hk])
          obtain ⟨as, u, hrun, hu'⟩ :=
            ih (s := { s with caller := .launch (k + 1) }) hu rfl (k + 1) rfl (by omega)
          refine ⟨.caller :: as, u, ?_, hu'⟩
          rw [Lts.exec_cons_of_step trivial hstep]
          exact hrun
  | endChunks | join | returned =>
      rw [hc] at hr
      cases hr

/-- While result and chunks are there, the workers run as they would alone. -/
theorem exec_workers (hu : s.undefined = false) (hr : s.caller.hasResult = true)
    (hstarted : n ≤ s.caller.started n) {as : List (Fin n)} {l : St n Block Chunk Res}
    (h : (workers E blocks).exec Lts.anyStep s.loop as = some l) :
    (processData E blocks).exec Lts.anyStep s (as.map .worker) = some { s with loop := l } := by
  induction as generalizing s with
  | nil =>
      cases h
      rfl
  | cons i as ih =>
      obtain ⟨u, hstep, h⟩ := Lts.exec_any_cons h
      have hi := step_worker hu (i.isLt.trans_le hstarted) (allows_of_hasResult hr _) hstep
      rw [List.map_cons, Lts.exec_cons_of_step trivial hi]
      exact ih (s := { s with loop := u }) hu hr hstarted h

/-- If thread 0 takes the last block while some thread has not evaluated done(), that thread
    may be left behind. -/
theorem deserted_of_unsafe_call {i : Fin n} (h : (processData E blocks).Reach Safe s)
    (hn : ¬ FetchSafe s.loop i) :
    ∃ as s', (processData E blocks).exec Lts.anyStep s (.worker i :: as) = some s' ∧
      Deserted s'.loop := by
  have hl := loop_reachable h
  have hi := intact_reach (scope_reach h)
  obtain ⟨u, hstep, as, l, has, hl'⟩ := deserted_of_unsafe hl hn
  obtain ⟨hpc, ⟨b, hsrc⟩, -⟩ := unsafe_fetch hn
  have hstarted : (i : ℕ) < s.caller.started n := by
    by_contra hge
    rw [test_of_unstarted h i (Nat.not_lt.mp hge)] at hpc
    cases hpc
  have hr : s.caller.hasResult = true := by
    by_contra hne
    obtain ⟨hempty, -⟩ := hi.quiet (Bool.not_eq_true _ ▸ hne) ⟨0, i.pos⟩ rfl
    rw [hsrc] at hempty
    cases hempty
  have hfetch := step_worker hi.undefined hstarted (allows_of_hasResult hr _) hstep
  obtain ⟨bs, v, hbs, hloop, hu, hv, hall⟩ :=
    exists_launch E blocks (s := { s with loop := u }) hi.undefined hr
  refine ⟨bs ++ as.map .worker, { v with loop := l }, ?_, hl'⟩
  rw [Lts.exec_cons_of_step trivial hfetch]
  exact Lts.exec_append hbs (exec_workers hu hv hall (by rw [hloop]; exact has))

/-! ### All runs that keep to the condition -/

/-- In all runs in which thread 0 takes the last block only when all the others have evaluated
    done() for that round, and the calling thread destroys result and chunks only when nobody is
    going to use them: no thread waits at a barrier for one that has left, nothing that is gone is
    used, and the run is bounded and ends with process_data having returned and everybody having
    left after one round for each block. A step that breaks the condition leads on to a thread
    that waits for one that has left, or to the use of what is gone. -/
theorem same_rounds (E : Env n Block Chunk Res) (blocks : List Block)
    (s : Call n Block Chunk Res) (h : (processData E blocks).Reach Safe s) :
    ¬ Deserted s.loop ∧ s.undefined = false ∧
    (processData E blocks).Finishes Safe (Over E blocks) (s.toGo blocks.length) s ∧
    ∀ a, ¬ Safe s a → ∃ as s',
      (processData E blocks).exec Lts.anyStep s (a :: as) = some s' ∧
        (Deserted s'.loop ∨ s'.undefined = true) := by
  refine ⟨not_deserted (drawn_reach (loop_reachable h)) (agreed_of_safe h),
    (intact_reach (scope_reach h)).undefined, ?_, fun a hn => ?_⟩
  · refine Lts.finishes_of_measure (P := (processData E blocks).Reach Safe)
      (fun s a s' hs hg hstep => ⟨.next hs hg hstep, call_toGo hs hstep⟩)
      (fun s hs hend => ?_) h
    refine over_of_returned hs ?_
    by_contra hr
    obtain ⟨a, ha, hgo⟩ := call_progress hs hr
    exact hgo (hend a ha)
  · cases a with
    | caller =>
        have hscope : ¬ ScopeSafe s .caller := hn
        obtain ⟨as, s', hrun, hs'⟩ := undefined_of_unsafe (scope_reach h) hscope
        exact ⟨as, s', hrun, .inr hs'⟩
    | worker i =>
        obtain ⟨as, s', hrun, hs'⟩ := deserted_of_unsafe_call h hn
        exact ⟨as, s', hrun, .inl hs'⟩

end Steps

/-! ## Two threads and one block -/

/-- Thread 0 takes the block before thread 1 evaluates done(). The calling thread comes to the
    joins. -/
def tooSoon : List (Act 2) :=
  launched [zeroth, zeroth, first, zeroth, zeroth] ++ [.caller, .caller, .caller]

/-- The state after `tooSoon`: thread 1 has left, and thread 0 waits at the first barrier. -/
def abandoned : Call 2 ℕ ℕ ℕ :=
  ((processData adding [5]).exec Lts.anyStep ⟨.launch 0, start [5], false⟩ tooSoon).get
    (by decide)

theorem abandoned_reachable : (processData adding [5]).Reachable abandoned :=
  .exec tooSoon (.start rfl) (Option.some_get _).symm

theorem abandoned_stuck : (processData adding [5]).Stuck abandoned := by
  intro a
  cases a with
  | caller => rfl
  | worker i =>
      have hnone : ∀ i, (step adding abandoned (.worker i)).isNone = true := by decide
      exact Option.isNone_iff_eq_none.mp (hnone i)

/-- The threads need not agree on the number of rounds, and the run may end with thread 0
    waiting at the barrier. -/
theorem tooSoon_deserted :
    (¬ ∀ s, (processData adding [5]).Reachable s → ¬ Deserted s.loop) ∧
    ¬ ∀ s, (processData adding [5]).Reachable s → (processData adding [5]).Stuck s →
      ∀ i, (s.loop.th i).pc = .left := by
  refine ⟨fun hall => ?_, fun hall => ?_⟩
  · refine hall abandoned abandoned_reachable ⟨first, zeroth, rfl, rfl, ?_⟩
    decide
  · have hleft := hall abandoned abandoned_reachable abandoned_stuck zeroth
    have hwait : (abandoned.loop.th zeroth).pc = .wait1 0 := rfl
    rw [hwait] at hleft
    cases hleft

/-- Thread 1 evaluates done() before thread 0 takes the block, and the calling thread ends its
    scope when thread 0 has written the output. -/
def together : List (Act 2) :=
  launched [zeroth, first, zeroth, zeroth, first, zeroth, first, first, first, zeroth, zeroth,
    zeroth, first, zeroth, first, zeroth, first, zeroth, zeroth] ++
  [.caller, .caller, .caller, .caller, .caller, .caller]

/-- The state after `together`. -/
def finished : Call 2 ℕ ℕ ℕ :=
  ((processData adding [5]).exec Safe ⟨.launch 0, start [5], false⟩ together).get (by decide)

theorem finished_reach : (processData adding [5]).Reach Safe finished :=
  .exec together (.start rfl) (Option.some_get _).symm

theorem same_rounds_finished : ¬ Deserted finished.loop ∧ Over adding [5] finished := by
  obtain ⟨hkept, -, hend, -⟩ := same_rounds adding [5] finished finished_reach
  refine ⟨hkept, hend.ends [] finished rfl fun a _ => ?_⟩
  cases a with
  | caller => rfl
  | worker i =>
      have hnone : ∀ i, (step adding finished (.worker i)).isNone = true := by decide
      exact Option.isNone_iff_eq_none.mp (hnone i)

end CppConcurrency.ProcessData
