/-
  Wake-ups of threadsafe_queue.

  push issues one notify_one for each element, and other consumers may take the element
  before the woken thread runs. The invariant that survives this counts, for each queue
  on which some thread sleeps un-notified: the elements stored are at most the threads
  that are `due` on it. Due is a thread that has been woken and has yet to take the mutex
  again, and the owner of the mutex from its notify_one on (it still has a thread to
  wake), or from its re-test until it has removed an element.

  The one step that breaks the count is a wait_and_pop that throws: it was due and leaves
  its element behind. `ThrowCovered` admits such a throw only where nobody sleeps or the
  threads woken cover the elements without it.

  Proved:
  * `no_lost_wakeup`: without exceptions, while the mutex is free the threads woken are at
    least as many as the elements, as long as anybody sleeps.
  * `throw_strands_nobody`: in runs whose throws are covered, no sleeper is stranded.
  * `stranded_reachable`: a throw that is not covered strands one.
-/
import CppConcurrency.Lib.Count
import CppConcurrency.ThreadsafeQueue.Fifo

namespace CppConcurrency.ThreadsafeQueue

open Concur Concur.Monitor

variable {ι κ T : Type*} [DecidableEq κ]

/-- From notify_one, and from the re-test to the removal: the owner is due. -/
def Loc.owes : Loc T → Bool
  | .notifyOne => true
  | .waitTest _ => true
  | .waitFront _ => true
  | .waitPop _ _ => true
  | _ => false

/-- The thread is due on queue `q`. -/
def due (q : κ) : Pc κ T (Op T) (Ret T) (Loc T) → Bool
  | .woken q' _ _ => q' = q
  | .body q' _ l => q' = q && l.owes
  | _ => false

/-- Threads wait for the queue to be non-empty, and nowhere else. -/
def Parked : Pc κ T (Op T) (Ret T) (Loc T) → Prop
  | .asleep _ _ l => ∃ o, l = .waitTest o
  | .woken _ _ l => ∃ o, l = .waitTest o
  | _ => True

variable [Fintype ι]

/-- The queue whose front a wait_and_pop is about to read. -/
def fronting : Pc κ T (Op T) (Ret T) (Loc T) → Option κ
  | .body q _ (.waitFront _) => some q
  | _ => none

/-- A wait_and_pop throws only where nobody sleeps un-notified on the queue, or where the
    threads woken that have yet to take the mutex are as many as the elements. -/
def ThrowCovered (s : St ι κ T (Op T) (Ret T) (Loc T)) : Act ι κ (Op T) → Prop
  | .fail t => ∀ q ∈ fronting (s.pc t), (∀ u, (s.pc u).asleepOn q = false) ∨
      (s.data q).length ≤ countAt (Pc.wokenOn q) s.pc
  | _ => True

instance (s : St ι κ T (Op T) (Ret T) (Loc T)) (a : Act ι κ (Op T)) :
    Decidable (ThrowCovered s a) :=
  match a with
  | .fail t => inferInstanceAs (Decidable (∀ q ∈ fronting (s.pc t),
      (∀ u, (s.pc u).asleepOn q = false) ∨ (s.data q).length ≤ countAt (Pc.wokenOn q) s.pc))
  | .call _ _ | .lock _ | .run _ | .notify _ _ | .spurious _ => .isTrue trivial

/-- Queue `q` has elements and a sleeper, and nobody is on the way to either of them. -/
def Stranded (s : St ι κ T (Op T) (Ret T) (Loc T)) (q : κ) : Prop :=
  s.data q ≠ [] ∧ (∃ t, (s.pc t).asleepOn q = true) ∧
    ∀ t, (s.pc t).uses = some q → (s.pc t).asleepOn q = true

/-- The elements of a queue with sleepers are covered by threads that are due. -/
structure Covered (s : St ι κ T (Op T) (Ret T) (Loc T)) : Prop where
  parked : ∀ t, Parked (s.pc t)
  due : ∀ q, 0 < countAt (Pc.asleepOn q) s.pc → (s.data q).length ≤ countAt (due q) s.pc

/-! ## What a statement does to the count -/

omit [DecidableEq κ] [Fintype ι] in
theorem owes_next {l l' : Loc T} {d d' : List T} (h : stmt l d = some (.next d' l')) :
    d'.length + l.owes.toNat ≤ d.length + l'.owes.toNat := by
  cases l with
  | pushData v =>
      cases h
      simp [Loc.owes]
  | waitTest o | tryTest o =>
      simp only [stmt] at h
      split at h <;> cases h
      simp [Loc.owes]
  | waitFront o | waitPop o v | tryFront o | tryPopData o v =>
      simp only [stmt] at h
      split at h <;> cases h
      simp [Loc.owes]
  | notifyOne | emptyTest | done => cases h

omit [DecidableEq κ] [Fintype ι] in
theorem owes_leave {l : Loc T} {d : List T} {r : Ret T} (h : stmt l d = some (.leave r)) :
    l.owes = false := by
  cases l with
  | waitTest | waitFront | waitPop =>
      simp only [stmt] at h
      split at h <;> cases h
  | notifyOne => cases h
  | _ => rfl

omit [DecidableEq κ] [Fintype ι] in
theorem stmt_wait {l l' : Loc T} {d : List T} (h : stmt l d = some (.wait l')) :
    d = [] ∧ ∃ o, l' = .waitTest o := by
  cases l with
  | waitTest o =>
      simp only [stmt] at h
      split at h
      · next hd =>
          cases h
          exact ⟨List.isEmpty_iff.mp hd, o, rfl⟩
      · cases h
  | tryTest | waitFront | tryFront | waitPop | tryPopData =>
      simp only [stmt] at h
      split at h <;> cases h
  | pushData | notifyOne | emptyTest | done => cases h

omit [DecidableEq κ] [Fintype ι] in
theorem stmt_notify {l l' : Loc T} {d : List T} (h : stmt l d = some (.notify l')) :
    l = .notifyOne ∧ l' = .done .void := by
  cases l with
  | notifyOne =>
      cases h
      exact ⟨rfl, rfl⟩
  | waitTest | tryTest | waitFront | tryFront | waitPop | tryPopData =>
      simp only [stmt] at h
      split at h <;> cases h
  | pushData | emptyTest | done => cases h

/-! ## One step -/

section Steps

variable [DecidableEq ι] {s s' : St ι κ T (Op T) (Ret T) (Loc T)} {a : Act ι κ (Op T)}

/-- A thread moves and does not go to sleep. -/
theorem due_move {loc : ι → Pc κ T (Op T) (Ret T) (Loc T)} {q : κ} {n n' : ℕ}
    (h : 0 < countAt (Pc.asleepOn q) loc → n ≤ countAt (due q) loc) {t : ι}
    {pc pc' : Pc κ T (Op T) (Ret T) (Loc T)} (hpc : loc t = pc)
    (hs : pc'.asleepOn q = true → pc.asleepOn q = true)
    (hd : n' + (due q pc).toNat ≤ n + (due q pc').toNat) :
    0 < countAt (Pc.asleepOn q) (Function.update loc t pc') →
      n' ≤ countAt (due q) (Function.update loc t pc') := by
  intro hpos
  have h1 := countAt_update (Pc.asleepOn q) loc t pc'
  have h2 := countAt_update (due q) loc t pc'
  rw [hpc] at h1 h2
  have hle : (pc'.asleepOn q).toNat ≤ (pc.asleepOn q).toNat := by
    cases hb : pc'.asleepOn q with
    | false => exact Nat.zero_le _
    | true => rw [hs hb]
  have := h (by omega)
  omega

/-- Nobody sleeps on an object that is not live. -/
theorem no_sleeper (hi : Inv fifo Rel s) {q : κ} (hq : s.life q ≠ .live) :
    countAt (Pc.asleepOn q) s.pc = 0 := by
  refine countAt_eq_zero.mpr fun t => ?_
  cases hb : (s.pc t).asleepOn q with
  | false => rfl
  | true =>
      refine absurd (hi.uses t q ?_) hq
      cases hpc : s.pc t <;> rw [hpc] at hb <;> simp_all [Pc.asleepOn, Pc.uses]

omit [Fintype ι] in
theorem parked_step (h : ∀ t, Parked (s.pc t)) (hm : Moves (queue T) s a s') :
    ∀ t, Parked (s'.pc t) := by
  cases hm with
  | construct | copy | on | lockCopy | lockOn | relock | constructed | copyEnd | copied
  | uncopied | next | leave | unlock | notifyNone | failCopy | fail =>
      exact forall_update h trivial
  | copyNext => exact h
  | wait hpc hs => exact forall_update h (stmt_wait hs).2
  | @notifyOne t u q op l l' op' k hpc hu hs =>
      have hru := h u
      rw [hu] at hru
      exact forall_update (forall_update h hru) trivial
  | @spurious u q op l hpc =>
      have hru := h u
      rw [hpc] at hru
      exact forall_update h hru

/-- A covered throw: the elements are covered without the thread that throws. -/
theorem due_throw {t : ι} {q : κ} {op : Op T} {o : Overload}
    {r : Option (Ret T)} (hpc : s.pc t = .body q op (.waitFront o))
    (hg : ThrowCovered s (.fail t)) :
    0 < countAt (Pc.asleepOn q) (Function.update s.pc t (.unlock q op r)) →
      (s.data q).length ≤ countAt (due q) (Function.update s.pc t (.unlock q op r)) := by
  intro hpos
  rcases hg q (by rw [hpc]; rfl) with hnone | hle
  · obtain ⟨u, hu⟩ := countAt_pos.mp hpos
    have hall := forall_update (P := fun pc => Pc.asleepOn q pc = false) hnone
      (t := t) (l := Pc.unlock q op r) rfl u
    rw [hall] at hu
    cases hu
  · have hw := countAt_update (Pc.wokenOn q) s.pc t (.unlock q op r)
    have hmono : countAt (Pc.wokenOn q) (Function.update s.pc t (.unlock q op r)) ≤
        countAt (due q) (Function.update s.pc t (.unlock q op r)) := by
      refine countAt_mono fun i hi => ?_
      cases hp : Function.update s.pc t (.unlock q op r) i <;> rw [hp] at hi <;>
        simp_all [Pc.wokenOn, due]
    simp only [hpc, Pc.wokenOn, Bool.toNat_false] at hw
    omega

theorem due_step (hi : Inv fifo Rel s) (h : Covered s) (hg : ThrowCovered s a)
    (hm : Moves (queue T) s a s') (q : κ) (hpos : 0 < countAt (Pc.asleepOn q) s'.pc) :
    (s'.data q).length ≤ countAt (due q) s'.pc := by
  have hd := h.due q
  revert hpos
  cases hm with
  | @construct t q' last hpc | @copy t q' other last hpc =>
      refine due_move hd hpc (by simp [Pc.asleepOn]) ?_
      by_cases hq : q = q'
      · subst hq
        simp [due]
      · simp [due, Function.update_of_ne hq]
  | on hpc | lockCopy hpc | lockOn hpc | constructed hpc | copyEnd hpc | copied hpc
  | uncopied hpc | unlock hpc | failCopy hpc | spurious hpc =>
      exact due_move hd hpc (by simp [Pc.asleepOn]) (by simp [due])
  | @relock t q' op l hpc =>
      have hp := h.parked t
      rw [hpc] at hp
      obtain ⟨o, rfl⟩ := hp
      exact due_move hd hpc (by simp [Pc.asleepOn]) (by simp [due, Loc.owes])
  | @copyNext t q' other v hpc =>
      intro hpos
      have hq : q ≠ q' := by
        rintro rfl
        rw [no_sleeper hi (not_live_of_builds hi hpc rfl)] at hpos
        exact Nat.lt_irrefl _ hpos
      simpa only [Function.update_of_ne hq] using hd hpos
  | @next t q' op l d l' hpc hs =>
      refine due_move hd hpc (by simp [Pc.asleepOn]) ?_
      by_cases hq : q = q'
      · subst hq
        simpa [due] using owes_next hs
      · simp [due, Ne.symm hq, Function.update_of_ne hq]
  | @wait t q' op l l' hpc hs =>
      by_cases hq : q = q'
      · subst hq
        intro _
        simp [(stmt_wait hs).1]
      · exact due_move hd hpc (by simp [Pc.asleepOn, Ne.symm hq]) (by simp [due, Ne.symm hq])
  | leave hpc hs =>
      exact due_move hd hpc (by simp [Pc.asleepOn]) (by simp [due, owes_leave hs])
  | @notifyNone t q' op l l' hpc hs hnone =>
      by_cases hq : q = q'
      · subst hq
        intro hpos
        obtain ⟨u, hu⟩ := countAt_pos.mp hpos
        have hall := forall_update (P := fun pc => Pc.asleepOn q pc = false) hnone
          (t := t) (l := Pc.body q op l') rfl u
        rw [hall] at hu
        cases hu
      · exact due_move hd hpc (by simp [Pc.asleepOn]) (by simp [due, Ne.symm hq])
  | @notifyOne t u q' op l l' op' k hpc hu hs =>
      obtain ⟨rfl, rfl⟩ := stmt_notify hs
      have ht : Function.update s.pc u (.woken q' op' k) t = .body q' op .notifyOne := by
        rw [Function.update_of_ne (ne_of_body_asleep hpc hu)]
        exact hpc
      by_cases hq : q = q'
      · subst hq
        -- the thread woken is due from now on, and the notifier no longer is
        have h1 : 0 < countAt (Pc.asleepOn q) (Function.update s.pc u (.woken q op' k)) →
            (s.data q).length + 1 ≤ countAt (due q) (Function.update s.pc u (.woken q op' k)) :=
          due_move hd hu (by simp [Pc.asleepOn]) (by simp [due])
        exact due_move h1 ht (by simp [Pc.asleepOn]) (by simp [due, Loc.owes])
      · have h1 : 0 < countAt (Pc.asleepOn q) (Function.update s.pc u (.woken q' op' k)) →
            (s.data q).length ≤ countAt (due q) (Function.update s.pc u (.woken q' op' k)) :=
          due_move hd hu (by simp [Pc.asleepOn]) (by simp [due])
        exact due_move h1 ht (by simp [Pc.asleepOn]) (by simp [due, Ne.symm hq])
  | @fail t q' op l hpc hl =>
      by_cases hq : q = q'
      · subst hq
        cases l with
        | waitFront o => exact due_throw hpc hg
        | pushData | tryFront =>
            exact due_move hd hpc (by simp [Pc.asleepOn]) (by simp [due, Loc.owes])
        | _ => cases hl
      · exact due_move hd hpc (by simp [Pc.asleepOn]) (by simp [due, Ne.symm hq])

end Steps

/-! ## Runs -/

section Runs

variable [DecidableEq ι] {s : St ι κ T (Op T) (Ret T) (Loc T)}

theorem covered_reach (h : (sys (queue T)).Reach ThrowCovered s) : Covered s := by
  refine h.invariant (fun s hs => ?_) fun s a s' hr hc hg hs =>
    ⟨parked_step hc.parked (moves_of_step hs),
      due_step (inv_reach correct hr) hc hg (moves_of_step hs)⟩
  rw [show s = initial from hs]
  exact ⟨fun _ => trivial, fun q _ => Nat.zero_le _⟩

omit [DecidableEq ι] in
theorem throwCovered_of_noFail (a : Act ι κ (Op T)) (h : NoFail s a) : ThrowCovered s a := by
  cases a with
  | fail t => exact h.elim
  | _ => trivial

/-- While the mutex is free, only the threads woken are due. -/
theorem due_eq_woken (hi : Inv fifo Rel s) {q : κ} (hfree : s.owner q = none) :
    countAt (due q) s.pc ≤ countAt (Pc.wokenOn q) s.pc := by
  refine countAt_mono fun t ht => ?_
  cases hpc : s.pc t with
  | woken q' op l =>
      rw [hpc] at ht
      exact ht
  | body q' op l =>
      rw [hpc] at ht
      have hq : q' = q := by simp_all [due]
      have howner := hi.owner_eq (t := t) (q := q') (by rw [hpc]; rfl)
      rw [hq, hfree] at howner
      cases howner
  | _ =>
      rw [hpc] at ht
      cases ht

/-- **No lost wake-up.** In every state of a run without exceptions: while the mutex is free
    and a thread sleeps un-notified, the threads that have been woken and have yet to take
    the mutex again are at least as many as the elements, so there is one as soon as an
    element is queued. Also while the mutex is held, a queued element and a sleeper mean
    that somebody is due. -/
theorem no_lost_wakeup (s : St ι κ T (Op T) (Ret T) (Loc T))
    (h : (sys (queue T)).Reach NoFail s) (q : κ) (hsleep : ∃ t, (s.pc t).asleepOn q = true) :
    (s.owner q = none → (s.data q).length ≤ countAt (Pc.wokenOn q) s.pc) ∧
    (s.owner q = none → s.data q ≠ [] → ∃ t, (s.pc t).wokenOn q = true) ∧
    (s.data q ≠ [] → ∃ t, due q (s.pc t) = true) := by
  have hc := (covered_reach (h.mono fun _ a => throwCovered_of_noFail a)).due q
    (countAt_pos.mpr hsleep)
  have hw : s.owner q = none → (s.data q).length ≤ countAt (Pc.wokenOn q) s.pc :=
    fun hfree => hc.trans (due_eq_woken (inv_reach correct h) hfree)
  refine ⟨hw, fun hfree hne => ?_, fun hne => ?_⟩
  · exact countAt_pos.mp (Nat.lt_of_lt_of_le (List.length_pos_iff.mpr hne) (hw hfree))
  · exact countAt_pos.mp (Nat.lt_of_lt_of_le (List.length_pos_iff.mpr hne) hc)

/-- Threads 1 and 2 go to sleep on the queue; thread 0 pushes 7 and wakes thread 1. -/
def sleepAndPush : List (Act (Fin 3) Unit (Op ℕ)) :=
  [.call 0 (.construct ()), .run 0,
   .call 1 (.on () (.waitAndPop .ptr)), .lock 1, .run 1,
   .call 2 (.on () (.waitAndPop .ref)), .lock 2, .run 2,
   .call 0 (.on () (.push 7)), .lock 0, .run 0, .notify 0 (some 1), .run 0, .run 0]

/-- The state after `sleepAndPush`. -/
def pushed : St (Fin 3) Unit ℕ (Op ℕ) (Ret ℕ) (Loc ℕ) :=
  ((sys (queue ℕ)).exec NoFail initial sleepAndPush).get (by decide)

theorem pushed_reach : (sys (queue ℕ)).Reach NoFail pushed :=
  .exec sleepAndPush (.start rfl) (Option.some_get _).symm

theorem no_lost_wakeup_pushed :
    pushed.data () = [7] ∧ ∃ t, (pushed.pc t).wokenOn () = true :=
  ⟨by decide, (no_lost_wakeup pushed pushed_reach () ⟨2, by decide⟩).2.1 (by decide) (by decide)⟩

/-! ## Exceptions -/

/-- A wait_and_pop that throws has no effect on the queue, and its next statement is to
    give the mutex back and leave by the exception. -/
theorem throw_restores {s s' : St ι κ T (Op T) (Ret T) (Loc T)} {t : ι} {q : κ} {op : Op T}
    {o : Overload} (hpc : s.pc t = .body q op (.waitFront o))
    (h : step (queue T) s (.fail t) = some s') :
    s'.data = s.data ∧ ∃ s'', step (queue T) s' (.run t) = some s'' ∧
      s''.data = s.data ∧ s''.owner q = none ∧ s''.pc t = .idle (some .threw) := by
  have hpc' : s'.pc t = .unlock q op none ∧ s'.data = s.data := by
    cases moves_of_step h with
    | failCopy hc =>
        rw [hpc] at hc
        cases hc
    | fail hb =>
        rw [hpc] at hb
        cases hb
        exact ⟨Function.update_self _ _ _, rfl⟩
  refine ⟨hpc'.2, { s'.respond t .threw with owner := Function.update s'.owner q none }, ?_,
    hpc'.2, ?_, ?_⟩
  · simp only [step, St.exec, hpc'.1]
    rfl
  · exact Function.update_self _ _ _
  · exact Function.update_self _ _ _

/-- **Throws that strand nobody.** In every state of a run whose throwing wait_and_pops are
    covered: no queue strands a sleeper, and a wait_and_pop that throws leaves the queue as
    it was and releases the mutex with its next step. -/
theorem throw_strands_nobody (s : St ι κ T (Op T) (Ret T) (Loc T))
    (h : (sys (queue T)).Reach ThrowCovered s) :
    (∀ q, ¬ Stranded s q) ∧
    (∀ t q op o s', s.pc t = .body q op (.waitFront o) →
      step (queue T) s (.fail t) = some s' →
      s'.data = s.data ∧ ∃ s'', step (queue T) s' (.run t) = some s'' ∧
        s''.data = s.data ∧ s''.owner q = none ∧ s''.pc t = .idle (some .threw)) := by
  refine ⟨?_, fun t q op o s' hpc hs => throw_restores hpc hs⟩
  rintro q ⟨hne, hsleep, hall⟩
  have hc := (covered_reach h).due q (countAt_pos.mpr hsleep)
  obtain ⟨t, ht⟩ := countAt_pos.mp (Nat.lt_of_lt_of_le (List.length_pos_iff.mpr hne) hc)
  cases hpc : s.pc t with
  | woken q' op l | body q' op l =>
      rw [hpc] at ht
      have hq : q' = q := by simp_all [due]
      have ha := hall t (by rw [hpc, ← hq]; rfl)
      rw [hpc] at ha
      cases ha
  | _ =>
      rw [hpc] at ht
      cases ht

/-- Thread `true` alone waits; it is woken by a push, throws, and pops again. -/
def throwAndRetry : List (Act Bool Unit (Op ℕ)) :=
  [.call false (.construct ()), .run false,
   .call true (.on () (.waitAndPop .ptr)), .lock true, .run true,
   .call false (.on () (.push 7)), .lock false, .run false, .notify false (some true),
   .run false, .run false,
   .lock true, .run true, .fail true, .run true,
   .call true (.on () (.waitAndPop .ptr)), .lock true, .run true]

/-- The state after `throwAndRetry`. -/
def retried : St Bool Unit ℕ (Op ℕ) (Ret ℕ) (Loc ℕ) :=
  ((sys (queue ℕ)).exec ThrowCovered initial throwAndRetry).get (by decide)

theorem retried_reach : (sys (queue ℕ)).Reach ThrowCovered retried :=
  .exec throwAndRetry (.start rfl) (Option.some_get _).symm

theorem throw_strands_nobody_retried :
    retried.pc true = .body () (.waitAndPop .ptr) (.waitFront .ptr) ∧ retried.data () = [7] ∧
      ¬ Stranded retried () :=
  ⟨rfl, by decide, (throw_strands_nobody retried retried_reach).1 ()⟩

/-- After `sleepAndPush`, the thread woken throws and returns. -/
def throwAway : List (Act (Fin 3) Unit (Op ℕ)) :=
  sleepAndPush ++ [.lock 1, .run 1, .fail 1, .run 1]

/-- The state after `throwAway`: 7 is queued, thread 2 sleeps, and nobody else is there. -/
def thrownAway : St (Fin 3) Unit ℕ (Op ℕ) (Ret ℕ) (Loc ℕ) :=
  ((sys (queue ℕ)).exec Lts.anyStep initial throwAway).get (by decide)

theorem thrownAway_reachable : (sys (queue ℕ)).Reachable thrownAway :=
  .exec throwAway (.start rfl) (Option.some_get _).symm

/-- A throw that is not covered strands a sleeper. -/
theorem stranded_reachable :
    ¬ ∀ s : St (Fin 3) Unit ℕ (Op ℕ) (Ret ℕ) (Loc ℕ),
      (sys (queue ℕ)).Reachable s → ∀ q, ¬ Stranded s q := by
  intro h
  refine h thrownAway thrownAway_reachable () ⟨by decide, ⟨2, by decide⟩, by decide⟩

end Runs

end CppConcurrency.ThreadsafeQueue
