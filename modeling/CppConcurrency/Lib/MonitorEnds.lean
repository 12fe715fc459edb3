/-
  The calls of a monitor come to their ends.

  `Terminates C left wake`: the bodies of `C` have no loops. `left l` bounds the statements from
  `l` to the end of the body or to its next wait. A statement that notifies accounts for the
  `wake` steps of the thread that it wakes, and no statement makes the contents longer by more
  than it takes off what is left.

  Proved:
  * `settles`: then from every reachable state, if there are no new calls and no spurious wake-ups,
    the threads make a bounded number of steps, in any order, and when none can go on every
    thread has returned or sleeps. No thread waits for a mutex for ever, then.

  A copy has as many steps left as elements of its source are missing, and the source may grow
  until the copy has the mutex, but only by what the threads have left to do.
-/
import CppConcurrency.Lib.Count
import CppConcurrency.Lib.MonitorLinear
import CppConcurrency.Lib.Progress

namespace Concur.Monitor

open Finset

variable {ι κ T Op Ret Loc : Type*}

/-- The bodies come to their ends. -/
structure Terminates (C : MonitorClass T Op Ret Loc) (left : Loc → ℕ) (wake : ℕ) : Prop where
  next : ∀ {l d d' l'}, C.stmt l d = some (.next d' l') →
    left l' < left l ∧ d'.length + left l' ≤ d.length + left l
  notify : ∀ {l d l'}, C.stmt l d = some (.notify l') → left l' + wake < left l
  wait : ∀ {l d l'}, C.stmt l d = some (.wait l') → left l' + 3 ≤ wake

/-- The steps that a thread has left, a copy apart. -/
def work (C : MonitorClass T Op Ret Loc) (left : Loc → ℕ) : Pc κ T Op Ret Loc → ℕ
  | .idle _ | .asleep _ _ _ => 0
  | .constructing _ | .copyUnlock _ _ _ | .unlock _ _ _ => 1
  | .copyData _ _ => 2
  | .copyLock _ _ => 3
  | .body _ _ l => left l + 2
  | .lock _ op => left (C.entry op) + 3
  | .woken _ _ l => left l + 3

/-- The elements that a thread has yet to copy at most, where all threads have `w` to do. -/
def copyLeft (data : κ → List T) (w : ℕ) : Pc κ T Op Ret Loc → ℕ
  | .copyLock _ other => (data other).length + w
  | .copyData q other => (data other).length - (data q).length
  | _ => 0

/-- A thread that waits accounts for no more than the one that wakes it. -/
def Waits (left : Loc → ℕ) (wake : ℕ) : Pc κ T Op Ret Loc → Prop
  | .asleep _ _ l | .woken _ _ l => left l + 3 ≤ wake
  | _ => True

/-- A thread that has returned, or sleeps. -/
def Pc.Rest : Pc κ T Op Ret Loc → Prop
  | .idle _ | .asleep _ _ _ => True
  | _ => False

/-- No new calls and no spurious wake-ups, and no exceptions unless `fails`. -/
def Quiet (fails : Bool) (_ : St ι κ T Op Ret Loc) : Act ι κ Op → Prop
  | .call _ _ | .spurious _ => False
  | .fail _ => fails = true
  | _ => True

instance (fails : Bool) (s : St ι κ T Op Ret Loc) (a : Act ι κ Op) :
    Decidable (Quiet fails s a) :=
  match a with
  | .call _ _ | .spurious _ => .isFalse id
  | .fail _ => inferInstanceAs (Decidable (fails = true))
  | .lock _ | .run _ | .notify _ _ => .isTrue trivial

theorem quiet_of_quiet {s : St ι κ T Op Ret Loc} {a : Act ι κ Op} {fails : Bool}
    (h : Quiet false s a) : Quiet fails s a := by
  cases a with
  | fail t => cases h
  | _ => exact h

variable [DecidableEq ι] [DecidableEq κ] [Fintype ι] {C : MonitorClass T Op Ret Loc}
  {left : Loc → ℕ} {wake : ℕ} {S : ObjSpec T Op Ret} {Rel : Loc → Op → List T → List T → Prop}
  {s s' : St ι κ T Op Ret Loc} {a : Act ι κ Op} {fails : Bool} {t : ι}

omit [DecidableEq ι] [DecidableEq κ] in
/-- What all threads have left to do. -/
def stepsLeft (C : MonitorClass T Op Ret Loc) (left : Loc → ℕ) (s : St ι κ T Op Ret Loc) : ℕ :=
  sumAt (work C left) s.pc + ∑ t, copyLeft s.data (sumAt (work C left) s.pc) (s.pc t)

omit [Fintype ι] in
theorem waits_step (hT : Terminates C left wake) (h : ∀ t, Waits left wake (s.pc t))
    (hm : Moves C s a s') : ∀ t, Waits left wake (s'.pc t) := by
  cases hm with
  | wait hpc hs => exact forall_update h (hT.wait hs)
  | @notifyOne t u q op l l' op' k hpc hu hs =>
      have hk := h u
      rw [hu] at hk
      have hwoken : ∀ v, Waits left wake (Function.update s.pc u (.woken q op' k) v) :=
        forall_update h hk
      exact forall_update hwoken trivial
  | @spurious u q op l hpc =>
      have hk := h u
      rw [hpc] at hk
      exact forall_update h hk
  | construct | copy | on | lockCopy | lockOn | relock | constructed | copyEnd | copied | uncopied
  | next | leave | unlock | notifyNone | failCopy | fail => exact forall_update h trivial
  | copyNext => exact h

/-! ## Every step counts -/

omit [DecidableEq ι] [DecidableEq κ] [Fintype ι] in
theorem copyLeft_mono {data : κ → List T} {w w' : ℕ} (h : w' ≤ w) (pc : Pc κ T Op Ret Loc) :
    copyLeft data w' pc ≤ copyLeft data w pc := by
  cases pc with
  | copyLock q other => exact Nat.add_le_add_left h _
  | _ => exact le_rfl

omit [DecidableEq ι] [DecidableEq κ] in
/-- A step that leaves the contents alone. -/
theorem stepsLeft_lt (hdata : s'.data = s.data)
    (hwork : sumAt (work C left) s'.pc < sumAt (work C left) s.pc)
    (hcopy : ∀ u w, copyLeft s.data w (s'.pc u) ≤ copyLeft s.data w (s.pc u)) :
    stepsLeft C left s' < stepsLeft C left s := by
  have hle : ∑ u, copyLeft s'.data (sumAt (work C left) s'.pc) (s'.pc u) ≤
      ∑ u, copyLeft s.data (sumAt (work C left) s.pc) (s.pc u) := by
    refine sum_le_sum fun u _ => (copyLeft_mono hwork.le _).trans ?_
    rw [hdata]
    exact hcopy u _
  unfold stepsLeft
  omega

omit [DecidableEq κ] in
/-- A step of one thread that leaves the contents alone. -/
theorem stepsLeft_move {pc pc' : Pc κ T Op Ret Loc} (hpc : s.pc t = pc)
    (hpc' : s'.pc = Function.update s.pc t pc') (hdata : s'.data = s.data)
    (hwork : work C left pc' < work C left pc)
    (hcopy : ∀ w, copyLeft s.data w pc' ≤ copyLeft s.data w pc) :
    stepsLeft C left s' < stepsLeft C left s := by
  subst hpc
  refine stepsLeft_lt hdata ?_ fun u w => ?_
  · have hsum := sumAt_update (work C left) s.pc t pc'
    rw [hpc']
    omega
  · rw [hpc', Function.update_apply]
    split
    · next hu =>
        rw [hu]
        exact hcopy w
    · exact le_rfl

/-- A statement that works on the contents of its object. -/
theorem stepsLeft_next (hT : Terminates C left wake) (hi : Inv S Rel s) {q : κ} {op : Op}
    {l l' : Loc} {d : List T} (hpc : s.pc t = .body q op l)
    (hs : C.stmt l (s.data q) = some (.next d l')) :
    stepsLeft C left { s with
      pc := Function.update s.pc t (.body q op l')
      data := Function.update s.data q d } < stepsLeft C left s := by
  obtain ⟨hlt, hlen⟩ := hT.next hs
  have hsum := sumAt_update (work C left) s.pc t (.body q op l')
  rw [hpc] at hsum
  simp only [work] at hsum
  have hmutex : (s.pc t).mutex = some q := by
    rw [hpc]
    rfl
  have hlive := hi.live_of_mutex hmutex
  have hle : ∑ u, copyLeft (Function.update s.data q d)
      (sumAt (work C left) (Function.update s.pc t (.body q op l')))
      (Function.update s.pc t (.body q op l') u) ≤
      ∑ u, copyLeft s.data (sumAt (work C left) s.pc) (s.pc u) := by
    refine sum_le_sum fun u _ => ?_
    by_cases hu : u = t
    · subst hu
      rw [Function.update_self]
      exact Nat.zero_le _
    · rw [Function.update_of_ne hu]
      cases hc : s.pc u with
      | copyLock p other =>
          simp only [copyLeft]
          by_cases ho : other = q
          · subst ho
            rw [Function.update_self]
            omega
          · rw [Function.update_of_ne ho]
            omega
      | copyData p other =>
          -- it holds another mutex, and `q` has been constructed before
          have ho : other ≠ q := by
            rintro rfl
            have hu' := hi.owner_eq (t := u) (q := other) (by rw [hc]; rfl)
            rw [hi.owner_eq hmutex] at hu'
            exact hu (Option.some.inj hu').symm
          have hp : p ≠ q := (hi.ne_of_builds (t := u) (by rw [hc]; rfl) hlive).symm
          simp only [copyLeft]
          rw [Function.update_of_ne ho, Function.update_of_ne hp]
      | _ => exact le_rfl
  unfold stepsLeft
  dsimp only
  omega

/-- One element is copied. -/
theorem stepsLeft_copyNext (hi : Inv S Rel s) {q other : κ} {v : T}
    (hpc : s.pc t = .copyData q other) (hv : (s.data other)[(s.data q).length]? = some v) :
    stepsLeft C left { s with data := Function.update s.data q (s.data q ++ [v]) } <
      stepsLeft C left s := by
  have hbuilds : (s.pc t).builds = some q := by
    rw [hpc]
    rfl
  have hne {u : ι} {p : κ} (hp : (s.pc u).uses = some p) : p ≠ q :=
    hi.ne_of_builds hbuilds (hi.uses u p hp)
  have hlt : ∑ u, copyLeft (Function.update s.data q (s.data q ++ [v]))
      (sumAt (work C left) s.pc) (s.pc u) <
      ∑ u, copyLeft s.data (sumAt (work C left) s.pc) (s.pc u) := by
    refine sum_lt_sum (fun u _ => ?_) ⟨t, mem_univ t, ?_⟩
    · cases hc : s.pc u with
      | copyLock p o =>
          simp only [copyLeft]
          rw [Function.update_of_ne (hne (u := u) (by rw [hc]; rfl))]
      | copyData p o =>
          simp only [copyLeft]
          rw [Function.update_of_ne (hne (u := u) (by rw [hc]; rfl)), Function.update_apply]
          split
          · next hp =>
              rw [hp, List.length_append]
              omega
          · exact le_rfl
      | _ => exact le_rfl
    · rw [hpc]
      simp only [copyLeft]
      rw [Function.update_of_ne (hne (u := t) (by rw [hpc]; rfl)), Function.update_self,
        List.length_append, List.length_singleton]
      obtain ⟨hlen, -⟩ := List.getElem?_eq_some_iff.mp hv
      omega
  unfold stepsLeft
  dsimp only
  omega

omit [DecidableEq κ] in
/-- A notify_one that wakes a thread pays for its steps. -/
theorem stepsLeft_notifyOne (hT : Terminates C left wake) (hw : ∀ t, Waits left wake (s.pc t))
    {u : ι} {q : κ} {op op' : Op} {l l' k : Loc} (hpc : s.pc t = .body q op l)
    (hu : s.pc u = .asleep q op' k) (hs : C.stmt l (s.data q) = some (.notify l')) :
    stepsLeft C left { s with
      pc := Function.update (Function.update s.pc u (.woken q op' k)) t (.body q op l') } <
      stepsLeft C left s := by
  have hwake := hw u
  rw [hu] at hwake
  have hpay := hT.notify hs
  have ht : Function.update s.pc u (.woken q op' k) t = .body q op l := by
    rw [Function.update_of_ne (ne_of_body_asleep hpc hu)]
    exact hpc
  have hwoken := sumAt_update (work C left) s.pc u (.woken q op' k)
  have hnotify :=
    sumAt_update (work C left) (Function.update s.pc u (.woken q op' k)) t (.body q op l')
  rw [hu] at hwoken
  rw [ht] at hnotify
  simp only [work, Waits] at hwoken hnotify hwake
  refine stepsLeft_lt rfl (by dsimp only; omega) fun v w => ?_
  dsimp only
  rw [Function.update_apply]
  split
  · exact Nat.zero_le _
  · rw [Function.update_apply]
    split
    · exact Nat.zero_le _
    · exact le_rfl

/-- Every step leaves less to do. -/
theorem stepsLeft_step (hT : Terminates C left wake) (hi : Inv S Rel s)
    (hw : ∀ t, Waits left wake (s.pc t)) (hq : Quiet fails s a) (hm : Moves C s a s') :
    stepsLeft C left s' < stepsLeft C left s := by
  cases hm with
  | construct | copy | on | spurious => exact hq.elim
  | constructed hpc | copied hpc | uncopied hpc | unlock hpc | lockOn hpc | relock hpc
  | leave hpc | copyEnd hpc | failCopy hpc | fail hpc =>
      exact stepsLeft_move hpc rfl rfl (by simp [work]) fun _ => Nat.zero_le _
  | lockCopy hpc =>
      exact stepsLeft_move hpc rfl rfl (by simp [work]) fun w =>
        (Nat.sub_le _ _).trans (Nat.le_add_right _ w)
  | wait hpc => exact stepsLeft_move hpc rfl rfl (by simp [work]) fun _ => Nat.zero_le _
  | notifyNone hpc hs =>
      have hpay := hT.notify hs
      exact stepsLeft_move hpc rfl rfl (by simp only [work]; omega) fun _ => le_rfl
  | copyNext hpc hv => exact stepsLeft_copyNext hi hpc hv
  | next hpc hs => exact stepsLeft_next hT hi hpc hs
  | notifyOne hpc hu hs => exact stepsLeft_notifyOne hT hw hpc hu hs

/-! ## Whoever has not returned and does not sleep can go on, or waits for somebody who can -/

/-- No step but a call, a spurious wake-up or an exception. -/
def Halted (C : MonitorClass T Op Ret Loc) (s : St ι κ T Op Ret Loc) : Prop :=
  ∀ a, Quiet false s a → (sys C).step s a = none

theorem Halted.no_mutex (hgo : ∀ {l op d a}, Rel l op d a → C.stmt l d ≠ none)
    (hi : Inv S Rel s) (h : Halted C s) (t : ι) : (s.pc t).mutex = none := by
  have hrun := h (.run t) trivial
  cases hpc : s.pc t with
  | copyData q other =>
      simp only [sys, step, St.exec, hpc] at hrun
      split at hrun <;> cases hrun
  | copyUnlock q other ok =>
      cases ok <;> simp [sys, step, St.exec, hpc] at hrun
  | unlock q op r => simp [sys, step, St.exec, hpc] at hrun
  | body q op l =>
      obtain ⟨abs, hsim⟩ := hi.sim
      obtain ⟨d, -, hrel⟩ := rel_of_body hi hsim hpc rfl
      obtain ⟨st, hs⟩ := Option.ne_none_iff_exists'.mp (hgo hrel)
      cases st with
      | next | wait | leave => simp [sys, step, St.exec, hpc, hs] at hrun
      | notify l' =>
          by_cases hsleep : ∃ u, (s.pc u).asleepOn q = true
          · obtain ⟨u, hu⟩ := hsleep
            have hnotify := h (.notify t (some u)) trivial
            cases hpu : s.pc u <;> rw [hpu] at hu <;>
              simp_all [sys, step, Pc.asleepOn]
          · have hnotify := h (.notify t none) trivial
            simp_all [sys, step]
  | idle | constructing | copyLock | lock | asleep | woken => rfl

theorem Halted.rest (hgo : ∀ {l op d a}, Rel l op d a → C.stmt l d ≠ none)
    (hi : Inv S Rel s) (h : Halted C s) (t : ι) : (s.pc t).Rest := by
  -- all mutexes are free
  have hfree : ∀ q, s.owner q = none := by
    intro q
    cases ho : s.owner q with
    | none => rfl
    | some u =>
        have hm : (s.pc u).mutex = some q := (hi.owns q u).mp ho
        rw [h.no_mutex hgo hi u] at hm
        cases hm
  have hmutex := h.no_mutex hgo hi t
  have hrun := h (.run t) trivial
  have hlock := h (.lock t) trivial
  cases hpc : s.pc t with
  | idle | asleep => trivial
  | constructing => simp [sys, step, St.exec, hpc] at hrun
  | copyLock | lock | woken => simp [sys, step, hpc, St.take, hfree] at hlock
  | copyData | copyUnlock | body | unlock =>
      rw [hpc] at hmutex
      cases hmutex

/-! ## Runs -/

theorem waits_reach {G : St ι κ T Op Ret Loc → Act ι κ Op → Prop} (hT : Terminates C left wake)
    (h : (sys C).Reach G s) : ∀ t, Waits left wake (s.pc t) := by
  refine h.invariant (I := fun s => ∀ t, Waits left wake (s.pc t)) (fun s hs t => ?_)
    fun s a s' _ hw _ hs => waits_step hT hw (moves_of_step hs)
  rw [show s = initial from hs]
  exact trivial

/-- The calls come to their ends, or to their sleep. -/
theorem settles {G : St ι κ T Op Ret Loc → Act ι κ Op → Prop} (hC : Correct C S Rel)
    (hT : Terminates C left wake) (hgo : ∀ {l op d a}, Rel l op d a → C.stmt l d ≠ none)
    (hG : ∀ s a, Quiet fails s a → G s a) (h : (sys C).Reach G s) :
    (sys C).Finishes (Quiet fails) (fun s' => (sys C).Reach G s' ∧ ∀ t, (s'.pc t).Rest)
      (stepsLeft C left s) s := by
  refine Lts.finishes_of_measure (P := (sys C).Reach G) (fun s a s' hs hq hstep => ?_)
    (fun s hs hend => ⟨hs, ?_⟩) h
  · exact ⟨.next hs (hG s a hq) hstep,
      stepsLeft_step hT (inv_reach hC hs) (waits_reach hT hs) hq (moves_of_step hstep)⟩
  · have hhalted : Halted C s := fun a ha => hend a (quiet_of_quiet ha)
    exact hhalted.rest hgo (inv_reach hC hs)

end Concur.Monitor
