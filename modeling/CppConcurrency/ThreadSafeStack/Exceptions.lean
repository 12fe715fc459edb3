/-
  ThreadSafeStack under exceptions.

  The members with every step that may fail: the allocations, and each copy or assignment of
  an element. Which of them fail is any plan. The members lock through `std::lock_guard`; a
  member called with the mutex still locked would not return. An object under construction
  exists for others from the end of its constructor. What `std::stack::push` stores it stores
  or throws without effect (the strong guarantee), and destructors do not throw. The object
  that a failed `value=data.top()` leaves behind in the caller is not modelled.

  A run is any sequence of calls on any number of stacks that goes on after an exception.

  Proved:
  * `member_spec`: a member that returns has done what the plain stack does, and one that
    throws has done nothing. `returned_alone`: what it returned is what the statements of
    the monitor class return when they run alone.
  * `all_or_nothing`: this after any run. A mutex is never left locked, and an element leaves
    a stack exactly by a pop that returned a copy of it.
-/
import CppConcurrency.Lib.LockedHeap
import CppConcurrency.ThreadSafeStack.Lifo

namespace CppConcurrency.ThreadSafeStack

open Concur LockedHeap

variable {T : Type} {κ ε : Type*}

/-- What a member may throw: empty_stack, or what a failed copy or allocation throws. -/
inductive Exc (ε : Type*) where
  | emptyStack
  | failed (e : ε)
  deriving DecidableEq, Repr

/-- A member of a stack among the stacks `κ`. -/
abbrev Member (κ : Type*) (T : Type) (ε : Type*) (α : Type) :=
  Prog (LockedHeap κ (List T) ε) (Exc ε) α

/-- A step that may fail. -/
def mayFail : Member κ T ε Unit := attempt Exc.failed

/-- `data.top()`, undefined on an empty stack. -/
def top (q : κ) : Member κ T ε T := do
  match (← get q).getLast? with
  | none => undefined
  | some v => pure v

/-- Copies of all elements, one after the other. -/
def copyAll : List T → Member κ T ε (List T)
  | [] => pure []
  | v :: l => do
      mayFail
      let l' ← copyAll l
      pure (v :: l')

variable [DecidableEq κ]

/-- `data.pop()`, undefined on an empty stack. -/
def popData (q : κ) : Member κ T ε Unit := do
  let d ← get q
  if d.isEmpty then undefined
  set q d.dropLast

/-- `data.push(std::move(new_value))` -/
def pushData (q : κ) (newValue : T) : Member κ T ε Unit := do
  mayFail
  set q ((← get q) ++ [newValue])

/-- `ThreadSafeStack() = default;` -/
def construct (q : κ) : Member κ T ε Unit := do
  mayFail
  create q []

/-- `ThreadSafeStack(const ThreadSafeStack& other)`: `data` is default-constructed, and then
    assigned under the lock of `other`. -/
def copyConstruct (q other : κ) : Member κ T ε Unit := do
  mayFail
  let data ← lockGuard other do
    mayFail
    copyAll (← get other)
  create q data

/-- `void push(T new_value)`: the caller's argument is copied into the parameter first. -/
def push (q : κ) (newValue : T) : Member κ T ε Unit := do
  mayFail
  lockGuard q (pushData q newValue)

/-- The body of pop. The overloads differ in how they take a copy of the top. -/
def popWith (copyTop : T → Member κ T ε T) (q : κ) : Member κ T ε T := lockGuard q do
  if (← get q).isEmpty then Prog.throwing .emptyStack
  let res ← copyTop (← top q)
  popData q
  pure res

/-- `std::shared_ptr<T> pop()`: make_shared allocates, and copies the top. -/
def popPtr (q : κ) : Member κ T ε T := popWith (fun v => do mayFail; mayFail; pure v) q

/-- `void pop(T& value)`: the top is assigned to `value`. -/
def popRef (q : κ) : Member κ T ε T := popWith (fun v => do mayFail; pure v) q

/-- `bool empty() const` -/
def empty (q : κ) : Member κ T ε Bool := lockGuard q do
  let d ← get q
  pure d.isEmpty

/-- The calls. -/
inductive Call (κ T : Type*) where
  | construct (q : κ)
  | copy (q other : κ)
  | on (q : κ) (op : Op T)
  deriving DecidableEq, Repr

/-- The member that is called, and what it returns. -/
def member : Call κ T → Member κ T ε (Ret T)
  | .construct q => do
      construct q
      pure .void
  | .copy q other => do
      copyConstruct q other
      pure .void
  | .on q (.push v) => do
      push q v
      pure .void
  | .on q (.pop .ptr) => do
      let v ← popPtr q
      pure (.ptr v)
  | .on q (.pop .ref) => do
      let v ← popRef q
      pure (.out v)
  | .on q .empty => do
      let b ← empty q
      pure (.bool b)

omit [DecidableEq κ] in
/-- Objects are constructed where there is none, and used while they live. -/
def pre (s : LockedHeap κ (List T) ε) : Call κ T → Prop
  | .construct q => s.live q = false
  | .copy q other => s.live q = false ∧ s.live other = true
  | .on q _ => s.live q = true

instance (s : LockedHeap κ (List T) ε) (c : Call κ T) : Decidable (pre s c) := by
  cases c <;> unfold pre <;> infer_instance

/-- Any sequence of calls, on stacks with any contents to begin with. -/
def sys (contents : κ → Option (List T)) (plan : List (Option ε)) :
    Lts (Res (LockedHeap κ (List T) ε) (Exc ε) Unit) (Call κ T) :=
  calls (start contents plan) pre fun c => Prog.seq (member c) fun _ => Prog.ret ()

/-! ## The members -/

section Specs

variable {c : κ → Option (Cell (List T))} {q : κ} {d : List T} {b : Bool}

/-- It returns with `Q`, and if it throws, it is for a failed step and with nothing done. -/
def Fails (c : κ → Option (Cell (List T))) (x : Exc ε) (s : LockedHeap κ (List T) ε) : Prop :=
  x ≠ .emptyStack ∧ At c s

omit [DecidableEq κ] in
theorem mayFail_spec :
    Prog.Triple (At c) (mayFail : Member κ T ε Unit) (fun _ => At c) (Fails c) := by
  refine (attempt_spec _).exc ?_
  rintro _ s ⟨⟨e, rfl⟩, hs⟩
  exact ⟨nofun, hs⟩

omit [DecidableEq κ] in
theorem top_spec {v : T} (hq : c q = some ⟨d ++ [v], b⟩) :
    Prog.Triple (At c) (top q : Member κ T ε T) (fun w s => w = v ∧ At c s) Res.never := by
  unfold top
  refine Prog.Triple.seq (get_spec hq) fun e => ?_
  rintro s ⟨rfl, hs⟩
  rw [List.getLast?_concat]
  exact ⟨rfl, hs⟩

theorem isEmpty_concat (l : List T) (v : T) : (l ++ [v]).isEmpty = false :=
  List.isEmpty_eq_false_iff.mpr (by simp)

theorem popData_spec {v : T} (hq : c q = some ⟨d ++ [v], b⟩) :
    Prog.Triple (At c) (popData q : Member κ T ε Unit)
      (fun _ => At (Function.update c q (some ⟨d, b⟩))) Res.never := by
  unfold popData
  refine Prog.Triple.seq (get_spec hq) fun e => ?_
  rintro s ⟨rfl, hs⟩
  rw [isEmpty_concat, List.dropLast_concat]
  exact set_spec hq d s hs

omit [DecidableEq κ] in
theorem copyAll_spec (l : List T) :
    Prog.Triple (At c) (copyAll l : Member κ T ε (List T)) (fun l' s => l' = l ∧ At c s)
      (Fails c) := by
  induction l with
  | nil => exact Prog.Triple.ret fun _ hs => ⟨rfl, hs⟩
  | cons v l ih =>
      unfold copyAll
      refine Prog.Triple.seq mayFail_spec fun _ => Prog.Triple.seq ih fun l' => ?_
      refine Prog.Triple.ret ?_
      rintro s ⟨rfl, hs⟩
      exact ⟨rfl, hs⟩

theorem construct_spec (q : κ) :
    Prog.Triple (At c) (construct q : Member κ T ε Unit)
      (fun _ => At (Function.update c q (some ⟨[], false⟩))) (Fails c) := by
  unfold construct
  exact Prog.Triple.seq mayFail_spec fun _ => (create_spec q []).quiet

/-- What a guarded block that only reads leaves behind. -/
theorem lockGuard_reads {α : Type} {p : Member κ T ε α} {Q : α → Prop}
    (hq : c q = some ⟨d, false⟩)
    (hp : ∀ c' : κ → Option (Cell (List T)), c' q = some ⟨d, true⟩ →
      Prog.Triple (At c') p (fun a s => Q a ∧ At c' s) (Fails c')) :
    Prog.Triple (At c) (lockGuard q p) (fun a s => Q a ∧ At c s) (Fails c) := by
  have hself := hp (Function.update c q (some ⟨d, true⟩)) (Function.update_self ..)
  have hguard := lockGuard_spec (Q := fun a d' => Q a ∧ d' = d) hq
    (hself.post fun a s hs => ⟨d, ⟨hs.1, rfl⟩, hs.2⟩)
  refine hguard.post ?_
  rintro a s ⟨d', ⟨hQ, rfl⟩, hs⟩
  rw [← hq, Function.update_eq_self] at hs
  exact ⟨hQ, hs⟩

theorem copyConstruct_spec {other : κ} (hq : c other = some ⟨d, false⟩) (q : κ) :
    Prog.Triple (At c) (copyConstruct q other : Member κ T ε Unit)
      (fun _ => At (Function.update c q (some ⟨d, false⟩))) (Fails c) := by
  unfold copyConstruct
  refine Prog.Triple.seq mayFail_spec fun _ => ?_
  refine Prog.Triple.seq (Q := fun l s => l = d ∧ At c s) (lockGuard_reads hq fun c' hc' => ?_)
    fun l => ?_
  · refine Prog.Triple.seq mayFail_spec fun _ => ?_
    refine Prog.Triple.seq (get_spec hc').quiet fun e => ?_
    rintro s ⟨rfl, hs⟩
    exact copyAll_spec e s hs
  · rintro s ⟨rfl, hs⟩
    exact (create_spec q l).quiet s hs

theorem push_spec (hq : c q = some ⟨d, false⟩) (v : T) :
    Prog.Triple (At c) (push q v : Member κ T ε Unit)
      (fun _ => At (Function.update c q (some ⟨d ++ [v], false⟩))) (Fails c) := by
  unfold push
  refine Prog.Triple.seq mayFail_spec fun _ => ?_
  refine (lockGuard_spec (Q := fun _ d' => d' = d ++ [v]) hq ?_).post ?_
  · have hin : Function.update c q (some ⟨d, true⟩) q = some ⟨d, true⟩ := Function.update_self ..
    unfold pushData
    refine Prog.Triple.seq mayFail_spec fun _ => ?_
    refine Prog.Triple.seq (get_spec hin).quiet fun e => ?_
    rintro s ⟨rfl, hs⟩
    refine (set_spec hin _).quiet.post (fun _ u hu => ?_) s hs
    rw [Function.update_idem] at hu
    exact ⟨_, rfl, hu⟩
  · rintro _ s ⟨d', rfl, hs⟩
    exact hs

/-- A copy of an element, or a failure. -/
def Copies (copyTop : T → Member κ T ε T) : Prop :=
  ∀ (c : κ → Option (Cell (List T))) v,
    Prog.Triple (At c) (copyTop v) (fun w s => w = v ∧ At c s) (Fails c)

theorem popWith_spec {copyTop : T → Member κ T ε T} (hcopy : Copies copyTop)
    (hq : c q = some ⟨d, false⟩) :
    Prog.Triple (At c) (popWith copyTop q)
      (fun v s => ∃ d', d = d' ++ [v] ∧ At (Function.update c q (some ⟨d', false⟩)) s)
      fun x s => (x = .emptyStack ↔ d = []) ∧ At c s := by
  have hin : Function.update c q (some ⟨d, true⟩) q = some ⟨d, true⟩ := Function.update_self ..
  refine lockGuard_spec hq (Prog.Triple.seq (get_spec hin).quiet fun e => ?_)
  rintro s ⟨rfl, hs⟩
  rcases List.eq_nil_or_concat' e with rfl | ⟨d', v, rfl⟩
  · exact ⟨iff_of_true rfl rfl, hs⟩
  · rw [isEmpty_concat]
    refine Prog.Triple.seq (top_spec hin).quiet (fun w => ?_) s hs
    rintro s ⟨rfl, hs⟩
    -- a failed copy does not pass for empty_stack
    have hne : d' ++ [w] ≠ [] := List.append_ne_nil_of_right_ne_nil _ (List.cons_ne_nil _ _)
    refine Prog.Triple.seq ((hcopy _ w).exc fun x u hx => ⟨iff_of_false hx.1 hne, hx.2⟩)
      (fun res => ?_) s hs
    rintro s ⟨rfl, hs⟩
    refine Prog.Triple.seq (popData_spec hin).quiet (fun _ => ?_) s hs
    refine Prog.Triple.ret fun u hu => ?_
    rw [Function.update_idem] at hu
    exact ⟨d', rfl, hu⟩

theorem popPtr_spec (hq : c q = some ⟨d, false⟩) :
    Prog.Triple (At c) (popPtr q : Member κ T ε T)
      (fun v s => ∃ d', d = d' ++ [v] ∧ At (Function.update c q (some ⟨d', false⟩)) s)
      fun x s => (x = .emptyStack ↔ d = []) ∧ At c s := by
  refine popWith_spec (fun c' v => ?_) hq
  refine Prog.Triple.seq mayFail_spec fun _ => Prog.Triple.seq mayFail_spec fun _ => ?_
  exact Prog.Triple.ret fun s hs => ⟨rfl, hs⟩

theorem popRef_spec (hq : c q = some ⟨d, false⟩) :
    Prog.Triple (At c) (popRef q : Member κ T ε T)
      (fun v s => ∃ d', d = d' ++ [v] ∧ At (Function.update c q (some ⟨d', false⟩)) s)
      fun x s => (x = .emptyStack ↔ d = []) ∧ At c s := by
  refine popWith_spec (fun c' v => ?_) hq
  exact Prog.Triple.seq mayFail_spec fun _ => Prog.Triple.ret fun s hs => ⟨rfl, hs⟩

theorem empty_spec (hq : c q = some ⟨d, false⟩) :
    Prog.Triple (At c) (empty q : Member κ T ε Bool) (fun b s => b = d.isEmpty ∧ At c s)
      (Fails c) := by
  refine lockGuard_reads hq fun c' hc' => ?_
  refine Prog.Triple.seq (get_spec hc').quiet fun e => Prog.Triple.ret ?_
  rintro s ⟨rfl, hs⟩
  exact ⟨rfl, hs⟩

omit [DecidableEq κ] in
theorem lifo_pop_empty (o : Overload) :
    lifo.apply d (.pop o) = some (d, .emptyStack) ↔ d = [] := by
  rcases List.eq_nil_or_concat' d with rfl | ⟨d', v, rfl⟩
  · exact iff_of_true rfl rfl
  · rw [lifo_pop_concat]
    cases o <;> simp [Overload.popped]

/-- What the plain stack does with `d` and `op` is what the call has done. -/
def Applied (c : κ → Option (Cell (List T))) (q : κ) (d : List T) (op : Op T) (r : Ret T)
    (s : LockedHeap κ (List T) ε) : Prop :=
  ∃ d', lifo.apply d op = some (d', r) ∧ At (Function.update c q (some ⟨d', false⟩)) s

/-- The call has done nothing, and has thrown empty_stack where the plain stack does. -/
def Refused (c : κ → Option (Cell (List T))) (d : List T) (op : Op T) (x : Exc ε)
    (s : LockedHeap κ (List T) ε) : Prop :=
  (x = .emptyStack ↔ lifo.apply d op = some (d, .emptyStack)) ∧ At c s

/-- **A member is all or nothing.** If it returns, it has done what the plain stack does. If
    it throws, it has done nothing. -/
theorem member_spec (hq : c q = some ⟨d, false⟩) (op : Op T) :
    Prog.Triple (At c) (member (.on q op) : Member κ T ε (Ret T)) (Applied c q d op)
      (Refused c d op) := by
  have hself : Function.update c q (some ⟨d, false⟩) = c := by rw [← hq, Function.update_eq_self]
  cases op with
  | push v =>
      refine Prog.Triple.seq (Q := fun _ => At (Function.update c q (some ⟨d ++ [v], false⟩)))
        ((push_spec hq v).exc fun x s hx => ?_) fun _ => ?_
      · exact ⟨iff_of_false hx.1 (by simp [lifo]), hx.2⟩
      · exact Prog.Triple.ret fun s hs => ⟨_, rfl, hs⟩
  | pop o =>
      have hexc (x : Exc ε) (s : LockedHeap κ (List T) ε)
          (hx : (x = .emptyStack ↔ d = []) ∧ At c s) : Refused c d (.pop o) x s :=
        ⟨hx.1.trans (lifo_pop_empty o).symm, hx.2⟩
      cases o with
      | ref =>
          refine Prog.Triple.seq ((popRef_spec hq).exc hexc) fun v => Prog.Triple.ret ?_
          rintro s ⟨d', rfl, hs⟩
          exact ⟨d', lifo_pop_concat _ d' v, hs⟩
      | ptr =>
          refine Prog.Triple.seq ((popPtr_spec hq).exc hexc) fun v => Prog.Triple.ret ?_
          rintro s ⟨d', rfl, hs⟩
          exact ⟨d', lifo_pop_concat _ d' v, hs⟩
  | empty =>
      refine Prog.Triple.seq ((empty_spec hq).exc fun x s hx => ?_) fun b => Prog.Triple.ret ?_
      · exact ⟨iff_of_false hx.1 (by simp [lifo]), hx.2⟩
      · rintro s ⟨rfl, hs⟩
        exact ⟨d, rfl, by rwa [hself]⟩

end Specs

/-- The statements of the member, run alone, return what the member has returned, and leave
    what it has left in the stack; likewise for empty_stack. -/
theorem returned_alone {s : LockedHeap κ (List T) ε} (h : s.Free) {q : κ} {d : List T}
    (hd : s.data q = some d) (op : Op T) :
    (member (.on q op) s).Ends
      (fun r s' => ∃ d', s'.data q = some d' ∧ Monitor.Body (stack T) (entry op) d d' r)
      fun x _ => x = .emptyStack → Monitor.Body (stack T) (entry op) d d .emptyStack := by
  refine (member_spec (h.cell_eq hd) op s rfl).imp ?_ fun x s' hx he => body_of_lifo (hx.1.mp he)
  rintro r s' ⟨d', ha, hs'⟩
  refine ⟨d', ?_, body_of_lifo ha⟩
  rw [LockedHeap.data, show s'.cell = _ from hs', Function.update_self]
  rfl

/-! ## Runs -/

section Runs

variable {s s' : LockedHeap κ (List T) ε} {c : Call κ T}

theorem free_update (h : s.Free) {q : κ} {d : List T}
    (hs : s'.cell = Function.update s.cell q (some ⟨d, false⟩)) : s'.Free := by
  intro p x hx
  rw [hs] at hx
  by_cases hp : p = q
  · subst hp
    rw [Function.update_self] at hx
    cases hx
    rfl
  · rw [Function.update_of_ne hp] at hx
    exact h p x hx

/-- What a call that returns `r` has done. -/
def Completed : Call κ T → Ret T → LockedHeap κ (List T) ε → LockedHeap κ (List T) ε → Prop
  | .construct q, _, s, s' => s'.cell = Function.update s.cell q (some ⟨[], false⟩)
  | .copy q other, _, s, s' => ∃ d, s.data other = some d ∧
      s'.cell = Function.update s.cell q (some ⟨d, false⟩)
  | .on q op, r, s, s' => ∃ d d', s.data q = some d ∧ lifo.apply d op = some (d', r) ∧
      s'.cell = Function.update s.cell q (some ⟨d', false⟩)

/-- Every call returns with its work done, or throws with nothing done. -/
theorem member_ends (h : s.Free) (hc : pre s c) :
    (member c s).Ends (fun r s' => Completed c r s s') fun _ s' => s'.cell = s.cell := by
  cases c with
  | construct q =>
      refine Prog.Triple.seq ((construct_spec q).exc fun _ _ hx => hx.2) (fun _ => ?_) s rfl
      exact Prog.Triple.ret fun _ hs => hs
  | copy q other =>
      obtain ⟨d, hd⟩ := live_iff.mp hc.2
      refine Prog.Triple.seq ((copyConstruct_spec (h.cell_eq hd) q).exc fun _ _ hx => hx.2)
        (fun _ => ?_) s rfl
      exact Prog.Triple.ret fun _ hs => ⟨d, hd, hs⟩
  | on q op =>
      obtain ⟨d, hd⟩ := live_iff.mp hc
      refine (member_spec (h.cell_eq hd) op s rfl).imp ?_ fun _ _ hx => hx.2
      rintro r s' ⟨d', ha, hs'⟩
      exact ⟨d, d', hd, ha, hs'⟩

theorem Completed.free {r : Ret T} (h : s.Free) (hc : Completed c r s s') : s'.Free := by
  cases c with
  | construct q => exact free_update h hc
  | copy q other =>
      obtain ⟨d, -, hs'⟩ := hc
      exact free_update h hs'
  | on q op =>
      obtain ⟨d, d', -, -, hs'⟩ := hc
      exact free_update h hs'

omit [DecidableEq κ] in
theorem free_of_cell (h : s.Free) (hs : s'.cell = s.cell) : s'.Free := by
  intro q x hx
  rw [hs] at hx
  exact h q x hx

theorem free_reach {contents : κ → Option (List T)} {plan : List (Option ε)} {r}
    (h : (sys contents plan).Reachable r) : r.Ends (fun _ => Free) fun _ => Free := by
  refine calls_invariant (free_start contents plan) (fun _ c s _ _ hs hc => ?_) h
  have hm := (member_ends hs hc).imp (fun _ _ hr => hr.free hs) fun _ _ hx => free_of_cell hs hx
  unfold Prog.seq
  cases hr : member c s with
  | ok a u =>
      rw [hr] at hm
      exact hm
  | threw e u =>
      rw [hr] at hm
      exact hm
  | terminated =>
      rw [hr] at hm
      exact hm

omit [DecidableEq κ] in
theorem data_of_cell {q : κ} {d : List T} {b : Bool} (h : s.cell q = some ⟨d, b⟩) :
    s.data q = some d := by rw [LockedHeap.data, h, Option.map_some]

theorem data_update {p q : κ} {d : List T} {b : Bool}
    (h : s'.cell = Function.update s.cell p (some ⟨d, b⟩)) (hne : q ≠ p) :
    s'.data q = s.data q := by
  rw [LockedHeap.data, LockedHeap.data, h, Function.update_of_ne hne]

/-- A stack after a call that returned: the call was on it, or it is as before. -/
theorem Completed.data {r : Ret T} (hpre : pre s c) (hc : Completed c r s s') {q : κ} {d : List T}
    (hd : s.data q = some d) :
    (∃ op d', c = .on q op ∧ lifo.apply d op = some (d', r) ∧ s'.data q = some d') ∨
      (∀ op, c ≠ .on q op) ∧ s'.data q = some d := by
  -- a new object is another one
  have hnew {p : κ} (hp : s.live p = false) : q ≠ p := by
    rintro rfl
    rw [LockedHeap.data, cell_of_not_live hp] at hd
    cases hd
  cases c with
  | construct p =>
      exact .inr ⟨nofun, (data_update hc (hnew hpre)).trans hd⟩
  | copy p other =>
      obtain ⟨e, -, hs'⟩ := hc
      exact .inr ⟨nofun, (data_update hs' (hnew hpre.1)).trans hd⟩
  | on p op =>
      obtain ⟨e, d', he, ha, hs'⟩ := hc
      by_cases hp : q = p
      · subst hp
        rw [hd] at he
        cases he
        refine .inl ⟨op, d', rfl, ha, data_of_cell (b := false) ?_⟩
        rw [hs', Function.update_self]
      · refine .inr ⟨?_, (data_update hs' hp).trans hd⟩
        rintro _ ⟨⟩
        exact hp rfl

omit [DecidableEq κ] in
/-- The top leaves the plain stack by a pop that hands it out. -/
theorem lifo_leaves {d d' : List T} {op : Op T} {r : Ret T}
    (h : lifo.apply d op = some (d', r)) :
    (∀ v, d = d' ++ [v] ↔ ∃ o, op = .pop o ∧ r = o.popped v) ∧
      ((∀ v, d ≠ d' ++ [v]) → d <+: d') := by
  cases op with
  | push w =>
      cases h
      refine ⟨fun v => iff_of_false (fun he => ?_) nofun, fun _ => List.prefix_append d [w]⟩
      have hlen := congrArg List.length he
      simp only [List.length_append, List.length_singleton] at hlen
      omega
  | pop o =>
      rcases List.eq_nil_or_concat' d with rfl | ⟨e, w, rfl⟩
      · cases h
        exact ⟨fun v => iff_of_false nofun (by rintro ⟨o, -, h⟩; cases o <;> cases h),
          fun _ => List.prefix_rfl⟩
      · rw [lifo_pop_concat] at h
        cases h
        refine ⟨fun v => ?_, fun hne => absurd rfl (hne w)⟩
        cases o <;> simp [Overload.popped]
  | empty =>
      cases h
      exact ⟨fun v => iff_of_false (by simp) nofun, fun _ => List.prefix_rfl⟩

/-- **All or nothing.** After any run of calls, some of which have thrown: no mutex is
    locked, and every call ends. If it throws, all stacks are as before; if it returns, it has
    done its work; either way no mutex is left locked. The top of a stack leaves it if and
    only if the call is a pop that returned with a copy of it, and otherwise nothing leaves. -/
theorem all_or_nothing {contents : κ → Option (List T)} {plan : List (Option ε)} {r}
    (h : (sys contents plan).Reachable r) :
    ∃ s, r.state? = some s ∧ s.Free ∧ ∀ c, pre s c →
      ∃ s', (member c s).state? = some s' ∧ s'.Free ∧
        (∀ x, member c s = .threw x s' → s'.cell = s.cell) ∧
        (∀ a, member c s = .ok a s' → Completed c a s s') ∧
        ∀ q d, s.data q = some d → ∃ d', s'.data q = some d' ∧
          (∀ v, d = d' ++ [v] ↔ ∃ o, c = .on q (.pop o) ∧ member c s = .ok (o.popped v) s') ∧
          ((∀ v, d ≠ d' ++ [v]) → d <+: d') := by
  have hfree := free_reach h
  obtain ⟨s, hs⟩ := hfree.exists_state
  have hsfree := hfree.state hs
  refine ⟨s, hs, hsfree, fun c hc => ?_⟩
  have hm := member_ends hsfree hc
  cases hr : member c s with
  | terminated => exact absurd hr hm.ne_terminated
  | threw x s' =>
      rw [hr] at hm
      have hdata (q : κ) : s'.data q = s.data q := by
        rw [LockedHeap.data, LockedHeap.data, show s'.cell = s.cell from hm]
      refine ⟨s', rfl, free_of_cell hsfree hm, fun _ _ => hm, nofun, fun q d hd => ?_⟩
      refine ⟨d, (hdata q).trans hd, fun v => ?_, fun _ => List.prefix_rfl⟩
      exact iff_of_false (by simp) nofun
  | ok a s' =>
      rw [hr] at hm
      refine ⟨s', rfl, Completed.free hsfree hm, nofun, ?_, fun q d hd => ?_⟩
      · rintro _ ⟨⟩
        exact hm
      · rcases Completed.data hc hm hd with ⟨op, d', rfl, ha, hd'⟩ | ⟨hne, hd'⟩
        · obtain ⟨htop, hrest⟩ := lifo_leaves ha
          refine ⟨d', hd', fun v => (htop v).trans ?_, hrest⟩
          simp
        · refine ⟨d, hd', fun v => ?_, fun _ => List.prefix_rfl⟩
          refine iff_of_false (by simp) ?_
          rintro ⟨o, ho, -⟩
          exact hne _ ho

/-- A stack with 7 and 8. -/
def sevenEight : Bool → Option (List ℕ)
  | false => some [7, 8]
  | true => none

/-- The first assignment of a copy fails. -/
def failedPop : Res (LockedHeap Bool (List ℕ) Unit) (Exc Unit) Unit :=
  ((sys sevenEight [some ()]).exec Lts.anyStep (.ok () (start sevenEight [some ()]))
    [.on false (.pop .ref)]).get (by decide)

theorem failedPop_reachable : (sys sevenEight [some ()]).Reachable failedPop :=
  .exec [.on false (.pop .ref)] (.start rfl) (Option.some_get _).symm

/-- The stack still holds them, and another pop returns the 8. -/
theorem all_or_nothing_failedPop :
    ∃ s s' : LockedHeap Bool (List ℕ) Unit, failedPop.state? = some s ∧ s.Free ∧
      s.data false = some [7, 8] ∧ member (.on false (.pop .ptr)) s = .ok (.ptr 8) s' ∧
        s'.Free ∧ s'.data false = some [7] := by
  obtain ⟨s, hs, hfree, hnext⟩ := all_or_nothing failedPop_reachable
  have hdata : failedPop.state?.bind (fun s => s.data false) = some [7, 8] := by decide
  have hleft : failedPop.state?.bind (fun s =>
      (member (.on false (.pop .ptr)) s).state?.bind fun s' => s'.data false) = some [7] := by
    decide
  rw [hs] at hdata hleft
  have hlive : pre s (.on false (.pop .ptr)) := live_iff.mpr ⟨_, hdata⟩
  obtain ⟨s', hs', hfree', -, -, htop⟩ := hnext _ hlive
  rw [Option.bind_some, hs', Option.bind_some] at hleft
  obtain ⟨d', hd', hpopped, -⟩ := htop false _ hdata
  rw [hleft] at hd'
  cases hd'
  obtain ⟨o, ho, hret⟩ := (hpopped 8).mp rfl
  cases ho
  exact ⟨s, s', hs, hfree, hdata, hret, hfree', hleft⟩

end Runs

end CppConcurrency.ThreadSafeStack
