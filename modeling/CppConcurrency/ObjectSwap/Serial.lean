/-
  Concurrent object swaps are serializable.

  `Owns Pc.holds` is mutual exclusion; a thread at the data of two objects holds both of
  their mutexes, so no two such threads share an object. `Data` relates the data to the
  swaps logged so far, run one after another: equal, except at the left object of a swap
  between its second and its third assignment, where it is what the swap is to leave there.
  The third assignment completes both objects at once and logs the swap. `Calls` says that
  the log keeps each thread's order and lacks only the swaps in progress.

  A thread that is blocked on a mutex holds none, so chains of waits have length one.
-/
import CppConcurrency.Lib.Mutual
import CppConcurrency.Lib.WaitFor
import CppConcurrency.ObjectSwap.Model

namespace CppConcurrency.ObjectSwap

open Concur

variable {ι κ T : Type*} [DecidableEq ι] [DecidableEq κ] {rhsFirst : Bool}

/-- The steps, one case for each statement. -/
inductive Moves (rhsFirst : Bool) (s : St ι κ T) : St ι κ T → Prop
  | call (t : ι) (lhs rhs : κ) (h : s.pc t = .idle) :
      Moves rhsFirst s { s.goto t (.test lhs rhs) with
        called := Function.update s.called t (s.called t ++ [(lhs, rhs)]) }
  | self (t : ι) (x : κ) (h : s.pc t = .test x x) :
      Moves rhsFirst s { s.goto t .idle with log := s.log ++ [(t, x, x)] }
  | enter (t : ι) (lhs rhs : κ) (first : Bool) (h : s.pc t = .test lhs rhs) (hne : lhs ≠ rhs) :
      Moves rhsFirst s (s.goto t (.lockFirst lhs rhs first))
  | lockFirst (t : ι) (lhs rhs : κ) (first : Bool) (h : s.pc t = .lockFirst lhs rhs first)
      (ho : s.owner (firstOf lhs rhs first) = none) :
      Moves rhsFirst s
        ((s.goto t (.tryOther lhs rhs first)).setOwner (firstOf lhs rhs first) (some t))
  | tryOther (t : ι) (lhs rhs : κ) (first : Bool) (h : s.pc t = .tryOther lhs rhs first)
      (ho : s.owner (otherOf lhs rhs first) = none) :
      Moves rhsFirst s
        ((s.goto t (.saveLhs lhs rhs)).setOwner (otherOf lhs rhs first) (some t))
  | tryFails (t : ι) (lhs rhs : κ) (first : Bool) (h : s.pc t = .tryOther lhs rhs first) :
      Moves rhsFirst s (s.goto t (.backOff lhs rhs first))
  | backOff (t : ι) (lhs rhs : κ) (first next : Bool) (h : s.pc t = .backOff lhs rhs first) :
      Moves rhsFirst s
        ((s.goto t (.lockFirst lhs rhs next)).setOwner (firstOf lhs rhs first) none)
  | saveLhs (t : ι) (lhs rhs : κ) (h : s.pc t = .saveLhs lhs rhs) :
      Moves rhsFirst s (s.goto t (.assignLhs lhs rhs (s.data lhs)))
  | assignLhs (t : ι) (lhs rhs : κ) (tmp : T) (h : s.pc t = .assignLhs lhs rhs tmp) :
      Moves rhsFirst s { s.goto t (.assignRhs lhs rhs tmp) with
        data := Function.update s.data lhs (s.data rhs) }
  | assignRhs (t : ι) (lhs rhs : κ) (tmp : T) (h : s.pc t = .assignRhs lhs rhs tmp) :
      Moves rhsFirst s { s.goto t (.unlockOne lhs rhs) with
        data := Function.update s.data rhs tmp
        log := s.log ++ [(t, lhs, rhs)] }
  | unlockOne (t : ι) (lhs rhs : κ) (h : s.pc t = .unlockOne lhs rhs) :
      Moves rhsFirst s ((s.goto t (.unlockTwo (otherOf lhs rhs !rhsFirst))).setOwner
        (firstOf lhs rhs !rhsFirst) none)
  | unlockTwo (t : ι) (last : κ) (h : s.pc t = .unlockTwo last) :
      Moves rhsFirst s ((s.goto t .idle).setOwner last none)

theorem moves_of_run {s s' : St ι κ T} {t : ι} {first : Bool}
    (h : run rhsFirst s t first = some s') : Moves rhsFirst s s' := by
  unfold run at h
  split at h
  · cases h
  · next lhs rhs hp =>
      split at h
      · next he =>
          subst he
          cases h
          exact .self t lhs hp
      · next hne =>
          cases h
          exact .enter t lhs rhs first hp hne
  · next lhs rhs f hp =>
      split at h
      · next ho =>
          cases h
          exact .lockFirst t lhs rhs f hp ho
      · cases h
  · next lhs rhs f hp =>
      split at h
      · next ho =>
          cases h
          exact .tryOther t lhs rhs f hp ho
      · cases h
  · next lhs rhs f hp =>
      cases h
      exact .backOff t lhs rhs f first hp
  · next lhs rhs hp =>
      cases h
      exact .saveLhs t lhs rhs hp
  · next lhs rhs tmp hp =>
      cases h
      exact .assignLhs t lhs rhs tmp hp
  · next lhs rhs tmp hp =>
      cases h
      exact .assignRhs t lhs rhs tmp hp
  · next lhs rhs hp =>
      cases h
      exact .unlockOne t lhs rhs hp
  · next last hp =>
      cases h
      exact .unlockTwo t last hp

/-- Every step is one of these. -/
theorem moves_of_step {s s' : St ι κ T} {a : Act ι κ} (h : step rhsFirst s a = some s') :
    Moves rhsFirst s s' := by
  unfold step at h
  split at h
  · next t lhs rhs =>
      split at h
      · next hp =>
          cases h
          refine .call t lhs rhs ?_
          revert hp
          cases s.pc t <;> simp
      · cases h
  · exact moves_of_run h
  · next t =>
      split at h
      · next lhs rhs f hp =>
          cases h
          exact .tryFails t lhs rhs f hp
      · cases h

/-! ## Mutual exclusion -/

/-- Past the test, a swap is of two different objects. -/
def Pc.Distinct : Pc κ T → Prop
  | .lockFirst lhs rhs _ => lhs ≠ rhs
  | .tryOther lhs rhs _ => lhs ≠ rhs
  | .backOff lhs rhs _ => lhs ≠ rhs
  | .saveLhs lhs rhs => lhs ≠ rhs
  | .assignLhs lhs rhs _ => lhs ≠ rhs
  | .assignRhs lhs rhs _ => lhs ≠ rhs
  | .unlockOne lhs rhs => lhs ≠ rhs
  | _ => True

theorem distinct_step {s s' : St ι κ T} (h : Moves rhsFirst s s')
    (hd : ∀ t, (s.pc t).Distinct) : ∀ t, (s'.pc t).Distinct := by
  cases h with
  | call t lhs rhs h => exact forall_update hd trivial
  | self t x h => exact forall_update hd trivial
  | enter t lhs rhs first h hne => exact forall_update hd hne
  | lockFirst t lhs rhs first h ho | tryOther t lhs rhs first h ho
  | tryFails t lhs rhs first h | backOff t lhs rhs first next h | saveLhs t lhs rhs h
  | assignLhs t lhs rhs tmp h | assignRhs t lhs rhs tmp h =>
      have ht := hd t
      rw [h] at ht
      exact forall_update hd ht
  | unlockOne t lhs rhs h => exact forall_update hd trivial
  | unlockTwo t last h => exact forall_update hd trivial

omit [DecidableEq κ] in
theorem other_iff {lhs rhs m : κ} (first : Bool) :
    m = lhs ∨ m = rhs ↔ m = otherOf lhs rhs first ∨ m = firstOf lhs rhs first := by
  cases first
  · exact Iff.rfl
  · exact or_comm

omit [DecidableEq κ] in
theorem other_ne_first {lhs rhs : κ} (h : lhs ≠ rhs) (first : Bool) :
    otherOf lhs rhs first ≠ firstOf lhs rhs first := by
  cases first
  · exact h
  · exact h.symm

theorem owns_step {s s' : St ι κ T} (h : Moves rhsFirst s s') (hd : ∀ t, (s.pc t).Distinct)
    (ho : Owns Pc.holds s.pc s.owner) : Owns Pc.holds s'.pc s'.owner := by
  cases h with
  | call t lhs rhs h | self t x h | enter t lhs rhs first h hne | tryFails t lhs rhs first h
  | saveLhs t lhs rhs h | assignLhs t lhs rhs tmp h | assignRhs t lhs rhs tmp h =>
      refine ho.stay fun m => ?_
      rw [h]
      exact Iff.rfl
  | lockFirst t lhs rhs first h hfree =>
      refine ho.acquire hfree fun m => ?_
      rw [h]
      exact (or_iff_left id).symm
  | tryOther t lhs rhs first h hfree =>
      refine ho.acquire hfree fun m => ?_
      rw [h]
      exact other_iff first
  | backOff t lhs rhs first next h =>
      have hheld : (s.pc t).holds (firstOf lhs rhs first) := by
        rw [h]
        rfl
      refine ho.release hheld fun m => ?_
      rw [h]
      exact ⟨False.elim, fun hm => hm.1 hm.2⟩
  | unlockOne t lhs rhs h =>
      have hne := hd t
      rw [h] at hne
      have hother := other_ne_first hne !rhsFirst
      have hheld : (s.pc t).holds (firstOf lhs rhs !rhsFirst) := by
        rw [h]
        exact (other_iff _).mpr (Or.inr rfl)
      refine ho.release hheld fun m => ?_
      rw [h]
      constructor
      · rintro rfl
        exact ⟨hother, (other_iff _).mpr (Or.inl rfl)⟩
      · rintro ⟨hm, hor⟩
        exact ((other_iff _).mp hor).resolve_right hm
  | unlockTwo t last h =>
      have hheld : (s.pc t).holds last := by
        rw [h]
        rfl
      refine ho.release hheld fun m => ?_
      rw [h]
      exact ⟨False.elim, fun hm => hm.1 hm.2⟩

/-! ## The data -/

omit [DecidableEq ι] [DecidableEq κ] in
/-- A thread at the data of an object holds its mutex. -/
theorem holds_of_touches {pc : Pc κ T} {x : κ} (h : pc.touches x) : pc.holds x := by
  cases pc <;> first | exact h | exact h.elim

/-- The data of `x` is what a swap is to leave there, not yet what is logged. -/
def Pc.ahead : Pc κ T → κ → Prop
  | .assignRhs lhs _ _, x => x = lhs
  | _, _ => False

/-- What a thread in the middle of a swap knows of the logged value of its objects. -/
def Pc.Mid (data serial : κ → T) : Pc κ T → Prop
  | .assignLhs lhs _ tmp => tmp = serial lhs
  | .assignRhs lhs rhs tmp => tmp = serial lhs ∧ data lhs = serial rhs
  | _ => True

omit [DecidableEq ι] [DecidableEq κ] in
theorem touches_of_ahead {pc : Pc κ T} {x : κ} (h : pc.ahead x) : pc.touches x := by
  cases pc <;> first | exact Or.inl h | exact h.elim

omit [DecidableEq ι] [DecidableEq κ] in
/-- A thread's knowledge is about the objects whose data it is at. -/
theorem Pc.Mid.congr {pc : Pc κ T} {data data' serial serial' : κ → T}
    (h : pc.Mid data serial) (hd : ∀ x, pc.touches x → data' x = data x)
    (hs : ∀ x, pc.touches x → serial' x = serial x) : pc.Mid data' serial' := by
  cases pc with
  | assignLhs lhs rhs tmp => exact h.trans (hs lhs (Or.inl rfl)).symm
  | assignRhs lhs rhs tmp =>
      refine ⟨h.1.trans (hs lhs (Or.inl rfl)).symm, ?_⟩
      rw [hd lhs (Or.inl rfl), hs rhs (Or.inr rfl)]
      exact h.2
  | _ => trivial

/-- The data and the logged swaps. -/
structure Data (data : κ → T) (s : St ι κ T) : Prop where
  settled : ∀ x, (∀ t, ¬ (s.pc t).ahead x) → s.data x = replay data s.log x
  mid : ∀ t, (s.pc t).Mid s.data (replay data s.log)

omit [DecidableEq ι] in
theorem replay_snoc (data : κ → T) (log : List (ι × κ × κ)) (t : ι) (lhs rhs : κ) :
    replay data (log ++ [(t, lhs, rhs)]) = replay data log ∘ Equiv.swap lhs rhs := by
  unfold replay
  rw [List.foldl_append]
  rfl

omit [DecidableEq ι] in
/-- An object that a thread is at is settled, unless this thread is ahead there. -/
theorem Data.settled_at {data : κ → T} {s : St ι κ T} (hdata : Data data s)
    (ho : Owns Pc.holds s.pc s.owner) {t : ι} {x : κ} (ht : (s.pc t).touches x)
    (hx : ¬ (s.pc t).ahead x) : s.data x = replay data s.log x := by
  refine hdata.settled x fun u hu => ?_
  have hut : u = t :=
    ho.unique (holds_of_touches (touches_of_ahead hu)) (holds_of_touches ht)
  rw [hut] at hu
  exact hx hu

omit [DecidableEq κ] in
/-- Where no thread is ahead after `t` has moved, and `t` was not, no thread was. -/
theorem not_ahead_of_update {pcs : ι → Pc κ T} {t : ι} {pc : Pc κ T} {x : κ}
    (ht : ¬ (pcs t).ahead x) (hx : ∀ u, ¬ (Function.update pcs t pc u).ahead x) :
    ∀ u, ¬ (pcs u).ahead x := by
  intro u
  by_cases hut : u = t
  · rw [hut]
    exact ht
  · have hu := hx u
    rwa [Function.update_of_ne hut] at hu

/-- A thread moves between places that are not ahead, and no data changes. -/
theorem Data.stay {data : κ → T} {s s' : St ι κ T} (hdata : Data data s) {t : ι} {pc : Pc κ T}
    (hpc : s'.pc = Function.update s.pc t pc) (hd : s'.data = s.data)
    (hl : replay data s'.log = replay data s.log) (ht : ∀ x, ¬ (s.pc t).ahead x)
    (hmid : pc.Mid s.data (replay data s.log)) : Data data s' where
  settled := by
    intro x hx
    rw [hd, hl]
    rw [hpc] at hx
    exact hdata.settled x (not_ahead_of_update (ht x) hx)
  mid := by
    rw [hpc, hd, hl]
    exact forall_update hdata.mid hmid

omit [DecidableEq ι] [DecidableEq κ] in
/-- What another thread is at, a thread that holds its mutex is not. -/
theorem ne_of_touches {s : St ι κ T} (ho : Owns Pc.holds s.pc s.owner) {t u : ι} {x y : κ}
    (hut : u ≠ t) (ht : (s.pc t).holds y) (hu : (s.pc u).touches x) : x ≠ y := by
  intro he
  exact hut (ho.unique (holds_of_touches hu) (he ▸ ht))

theorem data_assignLhs {data : κ → T} {s : St ι κ T} (hdata : Data data s)
    (ho : Owns Pc.holds s.pc s.owner) {t : ι} {lhs rhs : κ} {tmp : T}
    (h : s.pc t = .assignLhs lhs rhs tmp) :
    Data data { s.goto t (.assignRhs lhs rhs tmp) with
      data := Function.update s.data lhs (s.data rhs) } where
  settled := by
    intro x hx
    have hxl : x ≠ lhs := by
      intro he
      refine hx t ?_
      change (Function.update s.pc t _ t).ahead x
      rw [Function.update_self]
      exact he
    have hsettled := hdata.settled x (not_ahead_of_update (by rw [h]; exact id) hx)
    exact (Function.update_of_ne hxl ..).trans hsettled
  mid := by
    have hold : (s.pc t).holds lhs := by
      rw [h]
      exact Or.inl rfl
    have htmp : tmp = replay data s.log lhs := by
      have hm := hdata.mid t
      rw [h] at hm
      exact hm
    have hrhs : s.data rhs = replay data s.log rhs :=
      hdata.settled_at ho (t := t) (by rw [h]; exact Or.inr rfl) (by rw [h]; exact id)
    refine (Function.forall_update_iff s.pc fun _ pc => pc.Mid _ _).mpr ⟨?_, fun u hut => ?_⟩
    · exact ⟨htmp, (Function.update_self ..).trans hrhs⟩
    · refine (hdata.mid u).congr (fun x hx => ?_) fun _ _ => rfl
      exact Function.update_of_ne (ne_of_touches ho hut hold hx) ..

theorem data_assignRhs {data : κ → T} {s : St ι κ T} (hdata : Data data s)
    (ho : Owns Pc.holds s.pc s.owner) {t : ι} {lhs rhs : κ} {tmp : T}
    (h : s.pc t = .assignRhs lhs rhs tmp) :
    Data data { s.goto t (.unlockOne lhs rhs) with
      data := Function.update s.data rhs tmp
      log := s.log ++ [(t, lhs, rhs)] } where
  settled := by
    have hm := hdata.mid t
    rw [h] at hm
    intro x hx
    change Function.update s.data rhs tmp x = replay data (s.log ++ [(t, lhs, rhs)]) x
    rw [replay_snoc, Function.comp_apply]
    by_cases hxr : x = rhs
    · rw [hxr, Function.update_self, Equiv.swap_apply_right]
      exact hm.1
    · rw [Function.update_of_ne hxr]
      by_cases hxl : x = lhs
      · rw [hxl, Equiv.swap_apply_left]
        exact hm.2
      · rw [Equiv.swap_apply_of_ne_of_ne hxl hxr]
        exact hdata.settled x (not_ahead_of_update (by rw [h]; exact hxl) hx)
  mid := by
    refine (Function.forall_update_iff s.pc fun _ pc => pc.Mid _ _).mpr
      ⟨trivial, fun u hut => ?_⟩
    have hl : ∀ x, (s.pc u).touches x → x ≠ lhs := fun x =>
      ne_of_touches ho hut (by rw [h]; exact Or.inl rfl)
    have hr : ∀ x, (s.pc u).touches x → x ≠ rhs := fun x =>
      ne_of_touches ho hut (by rw [h]; exact Or.inr rfl)
    refine (hdata.mid u).congr (fun x hx => ?_) fun x hx => ?_
    · exact Function.update_of_ne (hr x hx) ..
    · change replay data (s.log ++ [(t, lhs, rhs)]) x = _
      rw [replay_snoc, Function.comp_apply,
        Equiv.swap_apply_of_ne_of_ne (hl x hx) (hr x hx)]

theorem data_step {data : κ → T} {s s' : St ι κ T} (h : Moves rhsFirst s s')
    (ho : Owns Pc.holds s.pc s.owner) (hdata : Data data s) : Data data s' := by
  cases h with
  | call t lhs rhs h | enter t lhs rhs first h hne | lockFirst t lhs rhs first h hfree
  | tryOther t lhs rhs first h hfree | tryFails t lhs rhs first h
  | backOff t lhs rhs first next h | unlockOne t lhs rhs h | unlockTwo t last h =>
      refine hdata.stay rfl rfl rfl (fun x => ?_) trivial
      rw [h]
      exact id
  | self t x h =>
      refine hdata.stay rfl rfl ?_ (fun y => ?_) trivial
      · change replay data (s.log ++ [(t, x, x)]) = _
        rw [replay_snoc, Equiv.swap_self]
        rfl
      · rw [h]
        exact id
  | saveLhs t lhs rhs h =>
      refine hdata.stay rfl rfl rfl (fun x => ?_) ?_
      · rw [h]
        exact id
      · exact hdata.settled_at ho (t := t) (by rw [h]; exact Or.inl rfl) (by rw [h]; exact id)
  | assignLhs t lhs rhs tmp h => exact data_assignLhs hdata ho h
  | assignRhs t lhs rhs tmp h => exact data_assignRhs hdata ho h

/-! ## The calls -/

/-- The swap a thread has begun and not yet logged. -/
def Pc.pending : Pc κ T → List (κ × κ)
  | .test lhs rhs => [(lhs, rhs)]
  | .lockFirst lhs rhs _ => [(lhs, rhs)]
  | .tryOther lhs rhs _ => [(lhs, rhs)]
  | .backOff lhs rhs _ => [(lhs, rhs)]
  | .saveLhs lhs rhs => [(lhs, rhs)]
  | .assignLhs lhs rhs _ => [(lhs, rhs)]
  | .assignRhs lhs rhs _ => [(lhs, rhs)]
  | _ => []

/-- The swaps of one thread in a log. -/
def logOf (log : List (ι × κ × κ)) (t : ι) : List (κ × κ) :=
  (log.filter fun e => e.1 = t).map Prod.snd

omit [DecidableEq κ] in
theorem logOf_self (log : List (ι × κ × κ)) (t : ι) (lhs rhs : κ) :
    logOf (log ++ [(t, lhs, rhs)]) t = logOf log t ++ [(lhs, rhs)] := by
  simp [logOf]

omit [DecidableEq κ] in
theorem logOf_of_ne (log : List (ι × κ × κ)) {t u : ι} (h : u ≠ t) (lhs rhs : κ) :
    logOf (log ++ [(t, lhs, rhs)]) u = logOf log u := by
  simp [logOf, h.symm]

/-- What a thread has called is what is logged of it, and the swap it is in. -/
def Calls (s : St ι κ T) : Prop := ∀ t, logOf s.log t ++ (s.pc t).pending = s.called t

omit [DecidableEq κ] in
/-- A thread moves without beginning or finishing a swap. -/
theorem Calls.stay {s s' : St ι κ T} (hc : Calls s) {t : ι} {pc : Pc κ T}
    (hpc : s'.pc = Function.update s.pc t pc) (hl : s'.log = s.log)
    (hcalled : s'.called = s.called) (hp : pc.pending = (s.pc t).pending) : Calls s' := by
  intro u
  rw [hpc, hl, hcalled]
  by_cases hut : u = t
  · rw [hut, Function.update_self, hp]
    exact hc t
  · rw [Function.update_of_ne hut]
    exact hc u

omit [DecidableEq κ] in
/-- A thread's swap is logged. -/
theorem Calls.finish {s s' : St ι κ T} (hc : Calls s) {t : ι} {pc : Pc κ T} {lhs rhs : κ}
    (hpc : s'.pc = Function.update s.pc t pc) (hl : s'.log = s.log ++ [(t, lhs, rhs)])
    (hcalled : s'.called = s.called) (hbefore : (s.pc t).pending = [(lhs, rhs)])
    (hafter : pc.pending = []) : Calls s' := by
  intro u
  rw [hpc, hl, hcalled]
  by_cases hut : u = t
  · rw [hut, Function.update_self, hafter, logOf_self, List.append_nil, ← hbefore]
    exact hc t
  · rw [Function.update_of_ne hut, logOf_of_ne _ hut]
    exact hc u

theorem calls_step {s s' : St ι κ T} (h : Moves rhsFirst s s') (hc : Calls s) : Calls s' := by
  cases h with
  | call t lhs rhs h =>
      intro u
      change logOf s.log u ++ (Function.update s.pc t _ u).pending =
        Function.update s.called t _ u
      by_cases hut : u = t
      · have ht := hc t
        rw [h] at ht
        rw [hut, Function.update_self, Function.update_self, ← ht]
        simp only [Pc.pending, List.append_nil]
      · rw [Function.update_of_ne hut, Function.update_of_ne hut]
        exact hc u
  | self t x h => exact hc.finish rfl rfl rfl (by rw [h]; rfl) rfl
  | assignRhs t lhs rhs tmp h => exact hc.finish rfl rfl rfl (by rw [h]; rfl) rfl
  | enter t lhs rhs first h hne | lockFirst t lhs rhs first h hfree
  | tryOther t lhs rhs first h hfree | tryFails t lhs rhs first h
  | backOff t lhs rhs first next h | saveLhs t lhs rhs h | assignLhs t lhs rhs tmp h
  | unlockOne t lhs rhs h | unlockTwo t last h =>
      refine hc.stay rfl rfl rfl ?_
      rw [h]
      rfl

/-! ## Whole runs -/

structure Inv (data : κ → T) (s : St ι κ T) : Prop where
  distinct : ∀ t, (s.pc t).Distinct
  owns : Owns Pc.holds s.pc s.owner
  data : Data data s
  calls : Calls s

theorem inv_initial (data : κ → T) : Inv data (initial data : St ι κ T) where
  distinct _ := trivial
  owns _ _ := ⟨fun h => (by cases h), fun h => h.elim⟩
  data := ⟨fun _ _ => rfl, fun _ => trivial⟩
  calls _ := rfl

theorem inv_reach {data : κ → T} {s : St ι κ T} (h : (sys rhsFirst data).Reachable s) :
    Inv data s := by
  refine h.invariant ?_ ?_
  · rintro s rfl
    exact inv_initial data
  · intro s a s' _ hi _ hstep
    have hm := moves_of_step hstep
    exact ⟨distinct_step hm hi.distinct, owns_step hm hi.distinct hi.owns,
      data_step hm hi.owns hi.data, calls_step hm hi.calls⟩

omit [DecidableEq ι] in
/-- Swaps only move the data around. -/
theorem replay_perm (data : κ → T) (log : List (ι × κ × κ)) :
    ∃ σ : Equiv.Perm κ, replay data log = data ∘ σ := by
  induction log generalizing data with
  | nil => exact ⟨Equiv.refl κ, rfl⟩
  | cons e log ih =>
      obtain ⟨σ, hσ⟩ := ih (exchanged data e)
      exact ⟨σ.trans (Equiv.swap e.2.1 e.2.2), hσ⟩

omit [DecidableEq ι] [DecidableEq κ] in
/-- A thread that is blocked on a mutex holds none. -/
theorem holds_nothing {pc : Pc κ T} {m : κ} (h : pc.wants = some m) (m' : κ) :
    ¬ pc.holds m' := by
  cases pc <;> first | exact id | cases h

/-- No thread waits for itself along a chain of threads, each holding what the one before
    wants: nobody in a chain holds anything but its end. -/
theorem no_wait_cycle {data : κ → T} {s : St ι κ T} (hi : Inv data s) (t : ι) :
    ¬ Relation.TransGen (WaitsFor (fun u => (s.pc u).wants) s.owner) t t := by
  have hord : Ordered (fun _ => 0) (fun u => (s.pc u).wants) s.owner := by
    intro u m m' ho hw
    exact absurd ((hi.owns m u).mp ho) (holds_nothing hw m)
  exact hord.acyclic t

/-- Whenever no swap is in progress the data is that of the swaps in the order of the log,
    which is each thread's own order and lacks none, so it is a permutation of the initial
    data; no two threads are ever at the data of the same object; and there is no cycle of
    waiting threads. -/
theorem serializable {data : κ → T} {s : St ι κ T} (h : (sys rhsFirst data).Reachable s) :
    ((∀ t, s.pc t = .idle) →
      s.data = replay data s.log ∧
      (∀ t, (s.log.filter fun e => e.1 = t).map Prod.snd = s.called t) ∧
      ∃ σ : Equiv.Perm κ, s.data = data ∘ σ) ∧
    (∀ t u x, t ≠ u → (s.pc t).touches x → ¬ (s.pc u).touches x) ∧
    ∀ t, ¬ Relation.TransGen (WaitsFor (fun u => (s.pc u).wants) s.owner) t t := by
  have hi := inv_reach h
  refine ⟨fun hidle => ?_, fun t u x htu ht hu => ?_, no_wait_cycle hi⟩
  · have hdata : s.data = replay data s.log := by
      funext x
      refine hi.data.settled x fun t hx => ?_
      rw [hidle t] at hx
      exact hx
    obtain ⟨σ, hσ⟩ := replay_perm data s.log
    refine ⟨hdata, fun t => ?_, σ, hdata.trans hσ⟩
    have hc := hi.calls t
    rw [hidle t] at hc
    exact (List.append_nil _).symm.trans hc
  · exact htu (hi.owns.unique (holds_of_touches ht) (holds_of_touches hu))

/-- Two threads swap the same two objects in opposite argument orders; one has to back off. -/
def opposed : List (Act Bool ℕ) :=
  [.call true 0 1, .call false 1 0, .run true true, .run true true, .run false true,
    .run false true, .tryFails false, .run false true] ++
  List.replicate 6 (.run true true) ++ List.replicate 7 (.run false true)

theorem serializable_opposed :
    ∃ s : St Bool ℕ ℕ, (sys true id).exec Lts.anyStep (initial id) opposed = some s ∧
      s.log = [(true, 0, 1), (false, 1, 0)] ∧ s.data = replay id s.log := by
  have hreach : (sys (ι := Bool) true (id : ℕ → ℕ)).Reachable _ :=
    Lts.Reach.exec (G := Lts.anyStep) opposed (.start rfl) rfl
  refine ⟨_, rfl, rfl, ((serializable hreach).1 fun t => ?_).1⟩
  cases t <;> rfl

end CppConcurrency.ObjectSwap
