/-
  The two loops of Atomic/compare_exchange.cpp, on the LL/SC of Atomic/CE_LLSC_CAS.cpp.

      // So we can ask, is there any difference between the following two loops?
      while (!compare_exchange_weak(..));
      while (!compare_exchange_strong(..));

  Model. A memory cell with load-link and store-conditional. A store to the cell breaks all links,
  "even if the value read by the load-link has since been restored". A store-conditional stores
  if the link is whole, and unless it fails spuriously. Both exchanges load-link the cell and
  compare: if they find something else than the expected value, this becomes the expected value,
  and they fail. Otherwise they store-conditional the desired value. Then
  * the weak one returns whether that has stored;
  * the strong one has "its own loop to detect a spurious failure and mask it".
  Any number of threads run the loop, each with its own expected and desired value, and other
  threads store to the cell at any time.

  `loop` is what the loops are for: each attempt compares and exchanges in one step, and there
  are no spurious failures.

  Proved:
  * `loops_exact`: of both loops exactly the attempts and stores of `loop` are seen. So there is
    no difference between them but the steps inside.
  * `attempts_le`: if nobody else stores, then n threads make at most n(n + 3)/2 attempts in all
    that exchange or find another value. A store-conditional that fails, spuriously or because
    another exchange has broken the link, is not counted.
-/
import CppConcurrency.Lib.Count
import CppConcurrency.Lib.Divide
import CppConcurrency.Lib.Refine

namespace CppConcurrency.CasLoop

open Concur

/-- Where a thread stands. -/
inductive Pc (V : Type*) where
  /-- before the load-link -/
  | link
  /-- it has loaded `found` -/
  | compare (found : V)
  | storeCond
  /-- at the loop condition inside the strong exchange -/
  | check (stored : Bool)
  /-- at the loop condition -/
  | test (exchanged : Bool)
  | left

structure Place (V : Type*) where
  pc : Pc V
  expected : V

/-- The cell, whose links to it are whole, and the threads. -/
structure St (ι V : Type*) where
  val : V
  linked : ι → Bool
  loc : ι → Place V

/-- Another thread stores `v`; or thread `t` makes a step, where `fails` is whether a
    store-conditional is to fail spuriously. -/
inductive Act (ι V : Type*) where
  | store (v : V)
  | step (t : ι) (fails : Bool)

/-- What is seen of the loops. -/
inductive Event (ι V : Type*) where
  | store (v : V)
  /-- The exchange of thread `t` has been made. -/
  | exchanged (t : ι)
  /-- That of thread `t` has failed, as it has found `found`. -/
  | mismatch (t : ι) (found : V)

variable {ι V : Type*} [DecidableEq ι] [DecidableEq V]

/-- Thread `t` goes on. -/
def St.goto (s : St ι V) (t : ι) (l : Place V) : St ι V :=
  { s with loc := Function.update s.loc t l }

/-- The statements of the loop around `compare_exchange_weak`, or `compare_exchange_strong`. -/
def step (strong : Bool) (desired : ι → V) (s : St ι V) : Act ι V → Option (St ι V)
  | .store v => some { s with val := v, linked := fun _ => false }
  | .step t fails =>
      let expected := (s.loc t).expected
      match (s.loc t).pc with
      | .link =>
          some (St.goto { s with linked := Function.update s.linked t true } t
            ⟨.compare s.val, expected⟩)
      | .compare found =>
          some (s.goto t (if found = expected then ⟨.storeCond, expected⟩
            else ⟨.test false, found⟩))
      | .storeCond =>
          let result (ok : Bool) : Place V := ⟨if strong then .check ok else .test ok, expected⟩
          if s.linked t = true ∧ fails = false then
            some (St.goto { s with val := desired t, linked := fun _ => false } t (result true))
          else
            some (St.goto { s with linked := Function.update s.linked t false } t (result false))
      | .check stored => some (s.goto t ⟨if stored then .test true else .link, expected⟩)
      | .test exchanged => some (s.goto t ⟨if exchanged then .left else .link, expected⟩)
      | .left => none

/-- What is seen of a step: the load-link that finds something else, and the store-conditional
    that stores. -/
def seen (s : St ι V) : Act ι V → Option (Event ι V)
  | .store v => some (.store v)
  | .step t fails =>
      match (s.loc t).pc with
      | .link => if s.val = (s.loc t).expected then none else some (.mismatch t s.val)
      | .storeCond => if s.linked t = true ∧ fails = false then some (.exchanged t) else none
      | _ => none

/-- Before the loops. -/
def start (expected : ι → V) (v : V) : St ι V := ⟨v, fun _ => false, fun t => ⟨.link, expected t⟩⟩

/-- The loops, on LL/SC. -/
def sys (strong : Bool) (desired : ι → V) : Lts (St ι V) (Act ι V) where
  init s := ∃ expected v, s = start expected v
  step := step strong desired

/-! ## What the loops are for -/

/-- A thread in the loop, or behind it. -/
structure Thread (V : Type*) where
  left : Bool
  expected : V

structure Loop (ι V : Type*) where
  val : V
  thread : ι → Thread V

inductive LoopAct (ι V : Type*) where
  | store (v : V)
  | attempt (t : ι)

/-- An attempt compares and exchanges in one step. -/
def loopStep (desired : ι → V) (s : Loop ι V) : LoopAct ι V → Option (Loop ι V)
  | .store v => some { s with val := v }
  | .attempt t =>
      let expected := (s.thread t).expected
      if (s.thread t).left then none
      else if s.val = expected then
        some ⟨desired t, Function.update s.thread t ⟨true, expected⟩⟩
      else some { s with thread := Function.update s.thread t ⟨false, s.val⟩ }

def loopSeen (s : Loop ι V) : LoopAct ι V → Option (Event ι V)
  | .store v => some (.store v)
  | .attempt t => some (if s.val = (s.thread t).expected then .exchanged t else .mismatch t s.val)

/-- Before the loops. -/
def loopStart (expected : ι → V) (v : V) : Loop ι V := ⟨v, fun t => ⟨false, expected t⟩⟩

def loop (desired : ι → V) : Lts (Loop ι V) (LoopAct ι V) where
  init s := ∃ expected v, s = loopStart expected v
  step := loopStep desired

/-! ## The loops do what they are for -/

/-- A thread that has compared, or is about to, is trying what it has found. -/
def Place.thread (l : Place V) : Thread V :=
  match l.pc with
  | .link | .storeCond => ⟨false, l.expected⟩
  | .compare found => ⟨false, found⟩
  | .check ok | .test ok => ⟨ok, l.expected⟩
  | .left => ⟨true, l.expected⟩

def St.loop (s : St ι V) : Loop ι V := ⟨s.val, fun t => (s.loc t).thread⟩

/-- What a thread knows of the cell while its link is whole. -/
def Knows (val : V) (l : Place V) : Prop :=
  match l.pc with
  | .compare found => val = found
  | .storeCond => val = l.expected
  | _ => True

/-- Every thread with a whole link knows. -/
def Linked (s : St ι V) : Prop := ∀ t, s.linked t = true → Knows s.val (s.loc t)

variable {strong : Bool} {desired : ι → V} {s s' : St ι V} {t : ι}

omit [DecidableEq V] in
/-- The step of one thread, seen from above. -/
theorem loop_goto (s : St ι V) (t : ι) (l : Place V) :
    (s.goto t l).loop = ⟨s.val, Function.update s.loop.thread t l.thread⟩ := by
  have h := Function.comp_update Place.thread s.loc t l
  exact congrArg (Loop.mk s.val) h

omit [DecidableEq V] in
/-- A step inside. -/
theorem loop_goto_quiet {l : Place V} (hl : l.thread = (s.loc t).thread) :
    (s.goto t l).loop = s.loop := by
  rw [loop_goto, hl]
  exact congrArg (Loop.mk s.val) (Function.update_eq_self t s.loop.thread)

omit [DecidableEq V] in
/-- The other threads know what they knew, unless the cell changes. -/
theorem Linked.goto (h : Linked s) {linked : ι → Bool} {l : Place V}
    (hother : ∀ u, u ≠ t → linked u = s.linked u) (hown : linked t = true → Knows s.val l) :
    Linked (St.goto { s with linked := linked } t l) := by
  intro u hu
  change linked u = true at hu
  change Knows s.val (Function.update s.loc t l u)
  by_cases hut : u = t
  · subst hut
    rw [Function.update_self]
    exact hown hu
  · rw [Function.update_of_ne hut]
    rw [hother u hut] at hu
    exact h u hu

theorem linked_step {a : Act ι V} (h : Linked s) (hs : (sys strong desired).step s a = some s') :
    Linked s' := by
  cases a with
  | store v =>
      cases hs
      intro t ht
      cases ht
  | step t fails =>
      have hsame : ∀ u, u ≠ t → s.linked u = s.linked u := fun _ _ => rfl
      simp only [sys, step] at hs
      split at hs
      case h_1 hpc =>
        cases hs
        exact h.goto (fun u hu => Function.update_of_ne hu _ _) fun _ => rfl
      case h_2 found hpc =>
        cases hs
        refine h.goto hsame fun ht => ?_
        have hfound := h t ht
        rw [Knows, hpc] at hfound
        split
        · next heq => exact hfound.trans heq
        · trivial
      case h_3 hpc =>
        split at hs
        · cases hs
          intro u hu
          cases hu
        · cases hs
          refine h.goto (fun u hu => Function.update_of_ne hu _ _) fun ht => ?_
          rw [Function.update_self] at ht
          cases ht
      case h_4 stored hpc =>
        cases hs
        exact h.goto hsame fun _ => by cases stored <;> trivial
      case h_5 exchanged hpc =>
        cases hs
        exact h.goto hsame fun _ => by cases exchanged <;> trivial
      case h_6 => cases hs

/-- A step is an attempt or a store of the loop, or a step inside. -/
theorem sound {a : Act ι V} (h : Linked s) (hs : (sys strong desired).step s a = some s') :
    (seen s a = none ∧ s'.loop = s.loop) ∨
    ∃ b, loopStep desired s.loop b = some s'.loop ∧ loopSeen s.loop b = seen s a := by
  cases a with
  | store v =>
      cases hs
      exact .inr ⟨.store v, rfl, rfl⟩
  | step t fails =>
      simp only [sys, step] at hs
      split at hs
      case h_1 hpc =>
        cases hs
        have hthread : s.loop.thread t = ⟨false, (s.loc t).expected⟩ := by
          simp only [St.loop, Place.thread, hpc]
        by_cases heq : s.val = (s.loc t).expected
        · refine .inl ⟨?_, loop_goto_quiet ?_⟩
          · simp only [seen, hpc, if_pos heq]
          · rw [heq]
            exact hthread.symm
        · refine .inr ⟨.attempt t, ?_, ?_⟩
          · rw [loop_goto]
            simp only [loopStep, hthread]
            rw [if_neg Bool.false_ne_true]
            exact if_neg heq
          · simp only [loopSeen, seen, hpc, hthread]
            rw [if_neg heq]
            exact congrArg some (if_neg heq)
      case h_2 found hpc =>
        cases hs
        refine .inl ⟨?_, loop_goto_quiet ?_⟩
        · simp only [seen, hpc]
        · have hthread : (s.loc t).thread = ⟨false, found⟩ := by simp only [Place.thread, hpc]
          rw [hthread]
          by_cases heq : found = (s.loc t).expected
          · rw [if_pos heq, heq]
            rfl
          · rw [if_neg heq]
            rfl
      case h_3 hpc =>
        have hthread : s.loop.thread t = ⟨false, (s.loc t).expected⟩ := by
          simp only [St.loop, Place.thread, hpc]
        split at hs
        · next hok =>
            cases hs
            have hval := h t hok.1
            rw [Knows, hpc] at hval
            refine .inr ⟨.attempt t, ?_, ?_⟩
            · rw [loop_goto]
              simp only [loopStep, hthread]
              rw [if_neg Bool.false_ne_true]
              refine (if_pos hval).trans ?_
              cases strong <;> rfl
            · simp only [loopSeen, seen, hpc, hthread]
              rw [if_pos hok]
              exact congrArg some (if_pos hval)
        · next hfail =>
            cases hs
            refine .inl ⟨?_, loop_goto_quiet ?_⟩
            · simp only [seen, hpc, if_neg hfail]
            · refine Eq.trans ?_ hthread.symm
              cases strong <;> rfl
      case h_4 stored hpc =>
        cases hs
        refine .inl ⟨?_, loop_goto_quiet ?_⟩
        · simp only [seen, hpc]
        · simp only [Place.thread, hpc]
          cases stored <;> rfl
      case h_5 exchanged hpc =>
        cases hs
        refine .inl ⟨?_, loop_goto_quiet ?_⟩
        · simp only [seen, hpc]
        · simp only [Place.thread, hpc]
          cases exchanged <;> rfl
      case h_6 => cases hs

theorem loop_of_quiet {a : Act ι V} (h : Linked s) (hs : (sys strong desired).step s a = some s')
    (hq : seen s a = none) : s'.loop = s.loop := by
  rcases sound h hs with ⟨-, hloop⟩ | ⟨b, -, hb⟩
  · exact hloop
  · rw [hq] at hb
    cases b <;> cases hb

/-- An attempt that is seen is that of the loop. -/
theorem loop_of_attempt {a : Act ι V} {x : Loop ι V} (h : Linked s)
    (hs : (sys strong desired).step s a = some s')
    (hseen : seen s a = loopSeen s.loop (.attempt t))
    (hx : loopStep desired s.loop (.attempt t) = some x) : s'.loop = x := by
  rcases sound h hs with ⟨hq, -⟩ | ⟨b, hb, hsb⟩
  · rw [hseen] at hq
    cases hq
  · have hbt : b = .attempt t := by
      rw [hseen] at hsb
      cases b with
      | store v =>
          simp only [loopSeen] at hsb
          split at hsb <;> cases hsb
      | attempt u =>
          simp only [loopSeen] at hsb
          split at hsb <;> split at hsb <;> cases hsb <;> rfl
    rw [hbt, hx] at hb
    exact (Option.some.inj hb).symm

/-! ### Where a thread goes -/

section Steps

variable (strong : Bool) (desired : ι → V)

theorem step_link (hp : (s.loc t).pc = .link) (fails : Bool) :
    (sys strong desired).step s (.step t fails) =
      some (St.goto { s with linked := Function.update s.linked t true } t
        ⟨.compare s.val, (s.loc t).expected⟩) := by
  simp only [sys, step, hp]

theorem step_compare {found : V} (hp : (s.loc t).pc = .compare found) (fails : Bool) :
    (sys strong desired).step s (.step t fails) =
      some (s.goto t (if found = (s.loc t).expected then ⟨.storeCond, (s.loc t).expected⟩
        else ⟨.test false, found⟩)) := by
  simp only [sys, step, hp]

theorem step_stored {fails : Bool} (hp : (s.loc t).pc = .storeCond)
    (hok : s.linked t = true ∧ fails = false) :
    (sys strong desired).step s (.step t fails) =
      some (St.goto { s with val := desired t, linked := fun _ => false } t
        ⟨if strong then .check true else .test true, (s.loc t).expected⟩) := by
  simp only [sys, step, hp, if_pos hok]

theorem step_fail {fails : Bool} (hp : (s.loc t).pc = .storeCond)
    (hfail : ¬ (s.linked t = true ∧ fails = false)) :
    (sys strong desired).step s (.step t fails) =
      some (St.goto { s with linked := Function.update s.linked t false } t
        ⟨if strong then .check false else .test false, (s.loc t).expected⟩) := by
  simp only [sys, step, hp, if_neg hfail]

theorem step_check {stored : Bool} (hp : (s.loc t).pc = .check stored) (fails : Bool) :
    (sys strong desired).step s (.step t fails) =
      some (s.goto t ⟨if stored then .test true else .link, (s.loc t).expected⟩) := by
  simp only [sys, step, hp]

theorem step_test {exchanged : Bool} (hp : (s.loc t).pc = .test exchanged) (fails : Bool) :
    (sys strong desired).step s (.step t fails) =
      some (s.goto t ⟨if exchanged then .left else .link, (s.loc t).expected⟩) := by
  simp only [sys, step, hp]

end Steps

/-- How far a thread is from its next load-link, if its store-conditional fails. -/
def Pc.rank : Pc V → ℕ
  | .compare _ => 3
  | .storeCond => 2
  | .check _ | .test _ => 1
  | .link | .left => 0

omit [DecidableEq V] in
theorem goto_loc (s : St ι V) (t : ι) (l : Place V) : (s.goto t l).loc t = l :=
  Function.update_self ..

theorem rank_step (hleft : (s.loc t).thread.left = false) (hpc : (s.loc t).pc ≠ .link) :
    ∃ u, (sys strong desired).step s (.step t true) = some u ∧ seen s (.step t true) = none ∧
      (u.loc t).pc.rank < (s.loc t).pc.rank := by
  rw [Place.thread] at hleft
  cases hp : (s.loc t).pc with
  | link => exact absurd hp hpc
  | compare found =>
      refine ⟨_, step_compare strong desired hp true, by simp only [seen, hp], ?_⟩
      rw [goto_loc]
      split <;> (dsimp only [Pc.rank]; decide)
  | storeCond =>
      have hfail : ¬ (s.linked t = true ∧ true = false) := fun h => Bool.noConfusion h.2
      refine ⟨_, step_fail strong desired hp hfail, by simp only [seen, hp, if_neg hfail], ?_⟩
      rw [goto_loc]
      cases strong <;> exact Nat.one_lt_two
  | check stored =>
      rw [hp] at hleft
      obtain rfl : stored = false := hleft
      refine ⟨_, step_check strong desired hp true, by simp only [seen, hp], ?_⟩
      rw [goto_loc]
      exact Nat.one_pos
  | test exchanged =>
      rw [hp] at hleft
      obtain rfl : exchanged = false := hleft
      refine ⟨_, step_test strong desired hp true, by simp only [seen, hp], ?_⟩
      rw [goto_loc]
      exact Nat.one_pos
  | left =>
      rw [hp] at hleft
      cases hleft

/-- A thread can get to its next load-link without being seen. -/
theorem to_link (h : Linked s) (hleft : (s.loc t).thread.left = false) :
    ∃ u, (sys strong desired).Run seen s [] u ∧ Linked u ∧ u.loop = s.loop ∧
      (u.loc t).pc = .link := by
  induction hr : (s.loc t).pc.rank using Nat.strongRecOn generalizing s with
  | ind r ih =>
      by_cases hpc : (s.loc t).pc = .link
      · exact ⟨s, .nil s, h, rfl, hpc⟩
      · obtain ⟨u, hu, hq, hlt⟩ := rank_step hleft hpc
        have hloop := loop_of_quiet h hu hq
        have hleft' : (u.loc t).thread.left = false := by
          have hthread := congrArg (fun x => (x.thread t).left) hloop
          exact hthread.trans hleft
        obtain ⟨w, hw, hlw, hloopw, hpcw⟩ := ih _ (hr ▸ hlt) (linked_step h hu) hleft' rfl
        exact ⟨w, .quiet hu hq hw, hlw, hloopw.trans hloop, hpcw⟩

/-- The attempt of the loop can be made: from the load-link, with no spurious failure. -/
theorem complete {b : LoopAct ι V} {x : Loop ι V} (h : Linked s)
    (hx : loopStep desired s.loop b = some x) :
    ∃ s', (sys strong desired).Run seen s (loopSeen s.loop b).toList s' ∧ s'.loop = x := by
  cases b with
  | store v =>
      cases hx
      exact ⟨_, .cons (a := Act.store v) rfl (.nil _), rfl⟩
  | attempt t =>
      have hleft : (s.loc t).thread.left = false := by
        cases hl : (s.loc t).thread.left with
        | false => rfl
        | true =>
            have hnone : loopStep desired s.loop (.attempt t) = none := if_pos hl
            rw [hnone] at hx
            cases hx
      obtain ⟨u, hu, hlu, hloop, hpc⟩ := to_link h hleft
      rw [← hloop] at hx ⊢
      have hthread : u.loop.thread t = ⟨false, (u.loc t).expected⟩ := by
        simp only [St.loop, Place.thread, hpc]
      suffices hrun : ∃ s', (sys strong desired).Run seen u
          (loopSeen u.loop (.attempt t)).toList s' ∧ s'.loop = x by
        obtain ⟨s', hs', hx'⟩ := hrun
        exact ⟨s', hu.append hs', hx'⟩
      have hlink := step_link strong desired hpc false
      by_cases heq : u.val = (u.loc t).expected
      · obtain ⟨s₁, hs₁, hp₁, hl₁⟩ : ∃ s₁, (sys strong desired).step u (.step t false) = some s₁ ∧
            s₁.loc t = ⟨.compare u.val, (u.loc t).expected⟩ ∧ s₁.linked t = true :=
          ⟨_, hlink, goto_loc .., Function.update_self ..⟩
        have hq₁ : seen u (.step t false) = none := by simp only [seen, hpc, if_pos heq]
        have hlu₁ := linked_step hlu hs₁
        have hloop₁ := loop_of_quiet hlu hs₁ hq₁
        have hpc₁ : (s₁.loc t).pc = .compare u.val := congrArg Place.pc hp₁
        have hcompare := step_compare strong desired hpc₁ false
        rw [hp₁, if_pos heq] at hcompare
        obtain ⟨s₂, hs₂, hp₂, hl₂⟩ : ∃ s₂, (sys strong desired).step s₁ (.step t false) = some s₂ ∧
            s₂.loc t = ⟨.storeCond, (u.loc t).expected⟩ ∧ s₂.linked t = true :=
          ⟨_, hcompare, goto_loc .., hl₁⟩
        have hq₂ : seen s₁ (.step t false) = none := by simp only [seen, hpc₁]
        have hlu₂ := linked_step hlu₁ hs₂
        have hloop₂ := (loop_of_quiet hlu₁ hs₂ hq₂).trans hloop₁
        have hpc₂ : (s₂.loc t).pc = .storeCond := congrArg Place.pc hp₂
        have hstored := step_stored strong desired hpc₂ ⟨hl₂, rfl⟩
        rw [← hloop₂] at hx hthread ⊢
        -- nobody has stored in between
        have hval : s₂.loop.val = (u.loc t).expected := by
          have := hlu₂ t hl₂
          rw [Knows, hp₂] at this
          exact this
        have hsee : seen s₂ (.step t false) = loopSeen s₂.loop (.attempt t) := by
          simp only [seen, hpc₂, loopSeen, hthread]
          rw [if_pos ⟨hl₂, trivial⟩]
          exact congrArg some (if_pos hval).symm
        refine ⟨_, ?_, loop_of_attempt hlu₂ hstored hsee hx⟩
        refine .quiet hs₁ hq₁ (.quiet hs₂ hq₂ ?_)
        rw [← hsee, ← List.append_nil (Option.toList _)]
        exact .cons hstored (.nil _)
      · -- it finds something else
        have hsee : seen u (.step t false) = loopSeen u.loop (.attempt t) := by
          simp only [seen, hpc, loopSeen, hthread]
          rw [if_neg heq]
          exact congrArg some (if_neg heq).symm
        refine ⟨_, ?_, loop_of_attempt hlu hlink hsee hx⟩
        rw [← hsee, ← List.append_nil (Option.toList _)]
        exact .cons hlink (.nil _)

theorem implements (strong : Bool) (desired : ι → V) :
    (sys strong desired).Implements seen (loop desired) loopSeen Linked St.loop where
  keeps _ _ _ := linked_step
  sound _ _ _ := sound
  complete _ _ _ := complete

omit [DecidableEq ι] [DecidableEq V] in
theorem linked_start (expected : ι → V) (v : V) : Linked (start expected v) := by
  intro t ht
  cases ht

/-- **There is no difference between the two loops.** Of the loop around the weak exchange, and of
    that around the strong one, the same is seen, for any threads, values, stores by others and
    spurious failures: what the loops are for. -/
theorem loops_exact (strong : Bool) (desired expected : ι → V) (v : V) (tr : List (Event ι V))
    (x : Loop ι V) :
    (∃ s, (sys strong desired).Run seen (start expected v) tr s ∧ s.loop = x) ↔
      (loop desired).Run loopSeen (loopStart expected v) tr x :=
  (implements strong desired).run_iff (s := start expected v) (linked_start expected v)

/-! ## How many attempts -/

section Attempts

variable [Fintype ι] {x y : Loop ι V} {tr : List (Event ι V)}

omit [DecidableEq ι] [DecidableEq V] in
/-- The threads in the loop. -/
def Loop.inside (x : Loop ι V) : ℕ := countAt (fun l => !l.left) x.thread

omit [DecidableEq ι] in
/-- Those of them that expect something else than there is. -/
def Loop.mistaken (x : Loop ι V) : ℕ :=
  countAt (fun l => !l.left && decide (x.val ≠ l.expected)) x.thread

omit [DecidableEq ι] in
/-- The attempts that there may be: when a thread leaves, all others may be mistaken. -/
def Loop.attempts (x : Loop ι V) : ℕ := x.inside.choose 2 + x.inside + x.mistaken

omit [DecidableEq ι] in
theorem mistaken_le (x : Loop ι V) : x.mistaken ≤ x.inside :=
  countAt_mono fun _ h => (Bool.and_eq_true_iff.mp h).1

/-- Every attempt is one of them. -/
theorem attempts_lt {t : ι} (h : loopStep desired x (.attempt t) = some y) :
    y.attempts < x.attempts := by
  simp only [loopStep] at h
  split at h
  · cases h
  · next hleft =>
      have hin : (!(x.thread t).left) = true := by
        rw [Bool.not_eq_true', Bool.eq_false_iff.mpr hleft]
      split at h
      · -- it leaves
        cases h
        have hcount := countAt_update (fun l : Thread V => !l.left) x.thread t
          ⟨true, (x.thread t).expected⟩
        have hle := mistaken_le (Loop.mk (desired t)
          (Function.update x.thread t ⟨true, (x.thread t).expected⟩))
        rw [hin] at hcount
        change Loop.inside (Loop.mk (desired t)
          (Function.update x.thread t ⟨true, (x.thread t).expected⟩)) + 1 = x.inside at hcount
        unfold Loop.attempts
        rw [← hcount, choose_two_empty]
        omega
      · -- it is no longer mistaken
        next hne =>
          cases h
          have hcount := countAt_update (fun l : Thread V => !l.left) x.thread t ⟨false, x.val⟩
          have hwrong := countAt_update
            (fun l : Thread V => !l.left && decide (x.val ≠ l.expected)) x.thread t ⟨false, x.val⟩
          rw [hin] at hcount hwrong
          rw [decide_eq_true hne, decide_eq_false (not_not.mpr rfl)] at hwrong
          simp only [Bool.and_self, Bool.and_false, Bool.toNat_true, Bool.toNat_false,
            Nat.add_zero] at hwrong
          have hsame := Nat.add_right_cancel hcount
          simp only [Loop.attempts, Loop.inside, Loop.mistaken]
          rw [hsame]
          omega

theorem length_add_attempts_le (h : (loop desired).Run loopSeen x tr y)
    (hstore : ∀ v, Event.store v ∉ tr) : tr.length + y.attempts ≤ x.attempts := by
  induction h with
  | nil => exact Nat.le_of_eq (Nat.zero_add _)
  | @cons x u y a tr hs hr ih =>
      have hrest := ih fun v hv => hstore v (List.mem_append_right _ hv)
      cases a with
      | store v => exact absurd List.mem_cons_self (hstore v)
      | attempt t =>
          have hlt := attempts_lt hs
          have hlen : ((loopSeen x (.attempt t)).toList ++ tr).length = tr.length + 1 := rfl
          omega

/-- **The loops get on.** If nobody else stores, then the threads make at most n(n + 3)/2 attempts
    in all that exchange or find another value, in both loops and whatever the values. -/
theorem attempts_le (strong : Bool) (desired expected : ι → V) (v : V) {s : St ι V}
    (h : (sys strong desired).Run seen (start expected v) tr s)
    (hstore : ∀ w, Event.store w ∉ tr) :
    tr.length ≤ (Fintype.card ι).choose 2 + 2 * Fintype.card ι := by
  have hrun := (implements strong desired).run (linked_start expected v) h
  have hle := length_add_attempts_le hrun hstore
  have hmis := mistaken_le (start expected v).loop
  have hin : (start expected v).loop.inside = Fintype.card ι := countAt_of_forall fun _ => rfl
  simp only [Loop.attempts] at hle
  rw [hin] at hle hmis
  omega

/-- Two threads that are mistaken at first, and one that is again: five attempts. -/
theorem attempts_le_two :
    let tr : List (Event (Fin 2) ℕ) :=
      [.mismatch 0 5, .mismatch 1 5, .exchanged 0, .mismatch 1 7, .exchanged 1]
    tr.length ≤ (Fintype.card (Fin 2)).choose 2 + 2 * Fintype.card (Fin 2) := by
  intro tr
  let schedule (t : Fin 2) : List (Act (Fin 2) ℕ) := List.replicate 3 (.step t false)
  have h : (sys true fun _ : Fin 2 => 7).Run seen (start (fun _ => 0) 5) tr _ :=
    Lts.run_of_watch (schedule 0 ++ schedule 1 ++ schedule 0 ++ schedule 1 ++ schedule 1) rfl
  exact attempts_le true _ _ 5 h (by simp [tr])

end Attempts

end CppConcurrency.CasLoop
