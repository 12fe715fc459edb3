/-
  Threads over a shared state.

  Every thread is at a place `L` of its program and makes one step at a time on the shared state
  `D`. `next t l d b` is its step from place `l`: where it stands afterwards, and what it has
  made of `d`; `none` when it is blocked or finished. `b` is what the environment chooses (an
  allocation that fails, a time-out, a spurious wake-up).

  Proved:
  * `Threads.invariant`: assertions at the places of the threads, checked one step at a time. A
    step has to establish the assertion at the place it leads to, and to keep those of the
    other threads.
  * `Threads.rely`: the same rule, where each thread says what its steps leave to the others.
  * `Threads.finishes`: threads come to rest, if their steps make a measure smaller and some of
    them can always go on.
  * `Threads.ended_of_stuck`, `Threads.joins`: the rules for a thread that starts the others and
    joins them.
  * `MutexStep.own`, `MutexStep.other`: a mutex belongs to the thread that says it holds it.
-/
import CppConcurrency.Lib.Count
import CppConcurrency.Lib.Progress

namespace Concur

/-- Where the threads stand, and what they share. -/
structure Conf (ι L D : Type*) where
  loc : ι → L
  shared : D

variable {ι L D B : Type*} [DecidableEq ι]

/-- Threads that start at `start`, on a shared state with `init`. -/
def threads (next : ι → L → D → B → Option (L × D)) (start : ι → L) (init : D → Prop) :
    Lts (Conf ι L D) (ι × B) where
  init c := c.loc = start ∧ init c.shared
  step c a := (next a.1 (c.loc a.1) c.shared a.2).map fun x =>
    ⟨Function.update c.loc a.1 x.1, x.2⟩

namespace Threads

variable {next : ι → L → D → B → Option (L × D)} {start : ι → L} {init : D → Prop}
  {c c' : Conf ι L D}

/-- A step of the system is a step of one thread. -/
theorem step_eq_some {t : ι} {b : B} (h : (threads next start init).step c (t, b) = some c') :
    ∃ l d, next t (c.loc t) c.shared b = some (l, d) ∧ c' = ⟨Function.update c.loc t l, d⟩ := by
  obtain ⟨⟨l, d⟩, hn, rfl⟩ := Option.map_eq_some_iff.mp h
  exact ⟨l, d, hn, rfl⟩

/-- A step of one thread is a step of the system. -/
theorem step_of_next {t : ι} {b : B} {l : L} {d : D}
    (h : next t (c.loc t) c.shared b = some (l, d)) :
    (threads next start init).step c (t, b) = some ⟨Function.update c.loc t l, d⟩ := by
  change (next t (c.loc t) c.shared b).map _ = _
  rw [h]
  rfl

/-- A step of one thread leads from a reachable state to another. -/
theorem reachable_next {t : ι} {b : B} {l l' : L} {d : D}
    (hc : (threads next start init).Reachable c) (hl : c.loc t = l)
    (h : next t l c.shared b = some (l', d)) :
    (threads next start init).Reachable ⟨Function.update c.loc t l', d⟩ := by
  subst hl
  exact .next hc trivial (step_of_next h)

/-- The rule of assertions. `I` is an invariant of the shared state, and `A t l d` is what
    holds while thread `t` is at place `l`. -/
theorem invariant {I : D → Prop} {A : ι → L → D → Prop}
    (hstart : ∀ d, init d → I d ∧ ∀ t, A t (start t) d)
    (hown : ∀ t l d b l' d', I d → A t l d → next t l d b = some (l', d') → I d' ∧ A t l' d')
    (hother : ∀ t u l k d b k' d', u ≠ t → I d → A t l d → A u k d →
      next u k d b = some (k', d') → A t l d')
    (h : (threads next start init).Reachable c) : I c.shared ∧ ∀ t, A t (c.loc t) c.shared := by
  refine Lts.Reach.invariant (I := fun c => I c.shared ∧ ∀ t, A t (c.loc t) c.shared) ?_ ?_ h
  · rintro c ⟨hloc, hc⟩
    rw [hloc]
    exact hstart c.shared hc
  · rintro c ⟨u, b⟩ c' _ ⟨hI, hA⟩ _ hstep
    obtain ⟨l, d, hn, rfl⟩ := step_eq_some hstep
    obtain ⟨hI', hu⟩ := hown u _ _ b l d hI (hA u) hn
    refine ⟨hI', fun t => ?_⟩
    dsimp only
    by_cases ht : t = u
    · subst ht
      rw [Function.update_self]
      exact hu
    · rw [Function.update_of_ne ht]
      exact hother t u _ _ _ b l d (Ne.symm ht) hI (hA t) (hA u) hn

/-- The rule of assertions with reliance. Every step of thread `u` is in `R u`, and whatever is in
    `R u` keeps the assertions of the others. -/
theorem rely {I : D → Prop} {A : ι → L → D → Prop} {R : ι → D → D → Prop}
    (hstart : ∀ d, init d → I d ∧ ∀ t, A t (start t) d)
    (hstep : ∀ t l d b l' d', I d → A t l d → next t l d b = some (l', d') →
      I d' ∧ A t l' d' ∧ R t d d')
    (hkept : ∀ t u l d d', u ≠ t → A t l d → R u d d' → A t l d')
    (h : (threads next start init).Reachable c) : I c.shared ∧ ∀ t, A t (c.loc t) c.shared := by
  refine invariant hstart (fun t l d b l' d' hI hA hn => ?_)
    (fun t u l k d b k' d' hne hI hA hB hn => ?_) h
  · obtain ⟨hI', hA', -⟩ := hstep t l d b l' d' hI hA hn
    exact ⟨hI', hA'⟩
  · obtain ⟨-, -, hR⟩ := hstep u k d b k' d' hI hB hn
    exact hkept t u l d d' hne hA hR

/-- Only threads that are not at rest move. -/
def Busy (rest : L → Prop) (c : Conf ι L D) (a : ι × B) : Prop := ¬ rest (c.loc a.1)

omit [DecidableEq ι] in
instance (rest : L → Prop) [DecidablePred rest] (c : Conf ι L D) (a : ι × B) :
    Decidable (Busy rest c a) :=
  inferInstanceAs (Decidable (¬ rest (c.loc a.1)))

/-- The rule of measures. `P` is an invariant under which every step of a thread that is not at
    rest makes a measure of its place and of the shared state smaller, and under which some
    thread can go on while not all are at rest. Then all of them come to rest. -/
theorem finishes [Fintype ι] {rest : L → Prop} [DecidablePred rest] {P : Conf ι L D → Prop}
    {ν : L → ℕ} {κ : D → ℕ}
    (hP : ∀ c t b c', P c → ¬ rest (c.loc t) → (threads next start init).step c (t, b) = some c' →
      P c')
    (hlt : ∀ c t b l d, P c → ¬ rest (c.loc t) → next t (c.loc t) c.shared b = some (l, d) →
      ν l + κ d < ν (c.loc t) + κ c.shared)
    (hgo : ∀ c t, P c → ¬ rest (c.loc t) →
      ∃ u b, ¬ rest (c.loc u) ∧ next u (c.loc u) c.shared b ≠ none)
    (hc : P c) :
    (threads next start init).Finishes (Busy rest) (fun c => ∀ t, rest (c.loc t))
      (sumAt ν c.loc + κ c.shared) c := by
  refine Lts.finishes_of_measure (P := P) (μ := fun c => sumAt ν c.loc + κ c.shared) ?_ ?_ hc
  · rintro c ⟨t, b⟩ c' hc hg hs
    refine ⟨hP c t b c' hc hg hs, ?_⟩
    obtain ⟨l, d, hn, rfl⟩ := step_eq_some hs
    have hstep := hlt c t b l d hc hg hn
    have hsum := sumAt_update ν c.loc t l
    dsimp only
    omega
  · intro c hc hend t
    by_contra ht
    obtain ⟨u, b, hu, hn⟩ := hgo c t hc ht
    exact hn (Option.map_eq_none_iff.mp (hend (u, b) hu))

/-! ### One thread that starts the others and joins them -/

omit [DecidableEq ι] in
/-- Thread `m` comes to its end last. Where nobody can go on, all have come to theirs, if `m` can
    go on as long as it is not at its end, or another one can that is not at its own. -/
theorem ended_of_stuck {final : ι → L} {m : ι}
    (hlast : c.loc m = final m → ∀ t, c.loc t = final t)
    (hgo : c.loc m ≠ final m → ∃ u b, c.loc u ≠ final u ∧ next u (c.loc u) c.shared b ≠ none)
    (hend : ∀ u b, c.loc u ≠ final u → next u (c.loc u) c.shared b = none) :
    ∀ t, c.loc t = final t := by
  refine hlast ?_
  by_contra hm
  obtain ⟨u, b, hu, hn⟩ := hgo hm
  exact hn (hend u b hu)

/-- The rule for threads that `m` starts and joins: they come to their ends, if the assertions do
    not let them rest anywhere else and their steps make a measure smaller. -/
theorem joins [Fintype ι] {rest : L → Prop} [DecidablePred rest] {I : D → Prop}
    {A : ι → L → D → Prop} {ν : L → ℕ} {final : ι → L} {m : ι}
    (hassert : ∀ c, (threads next start init).Reachable c →
      I c.shared ∧ ∀ t, A t (c.loc t) c.shared)
    (hrest : ∀ t l d, A t l d → (rest l ↔ l = final t))
    (hlt : ∀ t l d b l' d', I d → A t l d → next t l d b = some (l', d') → ν l' < ν l)
    (hlast : ∀ c, (threads next start init).Reachable c → c.loc m = final m →
      ∀ t, c.loc t = final t)
    (hgo : ∀ c, (threads next start init).Reachable c → c.loc m ≠ final m →
      ∃ u b, c.loc u ≠ final u ∧ next u (c.loc u) c.shared b ≠ none)
    (h : (threads next start init).Reachable c) :
    (threads next start init).Finishes (Busy rest) (fun c => ∀ t, c.loc t = final t)
      (sumAt ν c.loc) c := by
  have hiff : ∀ c, (threads next start init).Reachable c → ∀ t,
      rest (c.loc t) ↔ c.loc t = final t :=
    fun c hc t => hrest t _ _ ((hassert c hc).2 t)
  suffices hall : (threads next start init).Finishes (Busy rest) (fun c => ∀ t, rest (c.loc t))
      (sumAt ν c.loc) c from
    hall.imp h fun c hc hall t => (hiff c hc t).mp (hall t)
  refine finishes (P := (threads next start init).Reachable) (κ := fun _ => 0) ?_ ?_ ?_ h
  · exact fun c t b c' hc _ hs => .next hc trivial hs
  · intro c t b l d hc _ hn
    obtain ⟨hI, hA⟩ := hassert c hc
    exact hlt t _ _ b l d hI (hA t) hn
  · intro c t hc ht
    by_contra hno
    refine ht ((hiff c hc t).mpr (ended_of_stuck (hlast c hc) (hgo c hc) (fun u b hu => ?_) t))
    by_contra hn
    exact hno ⟨u, b, fun hr => hu ((hiff c hc u).mp hr), hn⟩

end Threads

/-! ## One mutex -/

/-- What a step of thread `t` can do to a mutex: whether `t` holds it, and who owns it, before
    and after the step. -/
inductive MutexStep (t : ι) : Bool → Option ι → Bool → Option ι → Prop
  | stay (b : Bool) (o : Option ι) : MutexStep t b o b o
  | lock : MutexStep t false none true (some t)
  | unlock (o : Option ι) : MutexStep t true o false none

namespace MutexStep

variable {t u : ι} {b b' x : Bool} {o o' : Option ι}

omit [DecidableEq ι] in
theorem own (h : MutexStep t b o b' o') (ht : b = true ↔ o = some t) :
    b' = true ↔ o' = some t := by
  cases h with
  | stay => exact ht
  | lock => exact iff_of_true rfl rfl
  | unlock => exact iff_of_false Bool.false_ne_true nofun

omit [DecidableEq ι] in
theorem other (h : MutexStep t b o b' o') (ht : b = true ↔ o = some t) (hne : t ≠ u)
    (hu : x = true ↔ o = some u) : x = true ↔ o' = some u := by
  cases h with
  | stay => exact hu
  | lock =>
      refine iff_of_false (fun hx => ?_) (fun ho => hne (Option.some.inj ho))
      cases hu.mp hx
  | unlock =>
      refine iff_of_false (fun hx => ?_) nofun
      rw [ht.mp rfl] at hu
      exact hne (Option.some.inj (hu.mp hx))

end MutexStep

end Concur
