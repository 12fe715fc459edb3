/-
  Mutual exclusion.

  A mutex table maps a mutex to the thread that owns it. `Owns holds loc owner` says that
  the table and the threads' local states agree: a thread owns exactly the mutexes that
  its local state `holds`. The three ways a step can touch the table are `Owns.stay`
  (no mutex taken or released), `Owns.acquire` and `Owns.release`.

  `Guarded Rel loc owner data abs` relates the data behind each mutex to an abstract
  value: equal while the mutex is free, and related by `Rel` at the owner's local state
  while it is held. A critical section may pass through any intermediate data as long
  as `Rel` accounts for it, and has to be back at the abstract value when it releases.
-/
import Mathlib.Logic.Function.Basic
import Mathlib.Tactic.TypeStar

namespace Concur

variable {ι μ L : Type*}

/-- One thread moves to a place with `P`; the others stay. -/
theorem forall_update [DecidableEq ι] {P : L → Prop} {loc : ι → L} {t : ι} {l : L}
    (h : ∀ u, P (loc u)) (hl : P l) : ∀ u, P (Function.update loc t l u) :=
  (Function.forall_update_iff loc fun _ x => P x).mpr ⟨hl, fun u _ => h u⟩

/-- The mutex table agrees with the threads' local states. -/
def Owns (holds : L → μ → Prop) (loc : ι → L) (owner : μ → Option ι) : Prop :=
  ∀ m t, owner m = some t ↔ holds (loc t) m

namespace Owns

variable {holds : L → μ → Prop} {loc : ι → L} {owner : μ → Option ι}

theorem unique (h : Owns holds loc owner) {m : μ} {t u : ι} (ht : holds (loc t) m)
    (hu : holds (loc u) m) : t = u :=
  Option.some.inj (((h m t).mpr ht).symm.trans ((h m u).mpr hu))

theorem not_holds_of_free (h : Owns holds loc owner) {m : μ} (hm : owner m = none) (t : ι) :
    ¬ holds (loc t) m := by
  intro ht
  rw [(h m t).mpr ht] at hm
  cases hm

variable [DecidableEq ι]

/-- A thread moves and neither takes nor releases a mutex. -/
theorem stay (h : Owns holds loc owner) {t : ι} {l : L}
    (hl : ∀ m, holds l m ↔ holds (loc t) m) : Owns holds (Function.update loc t l) owner := by
  intro m u
  by_cases hu : u = t
  · subst hu
    rw [Function.update_self, hl]
    exact h m u
  · rw [Function.update_of_ne hu]
    exact h m u

variable [DecidableEq μ]

/-- A thread takes a free mutex. -/
theorem acquire (h : Owns holds loc owner) {t : ι} {l : L} {m : μ} (hm : owner m = none)
    (hl : ∀ m', holds l m' ↔ m' = m ∨ holds (loc t) m') :
    Owns holds (Function.update loc t l) (Function.update owner m (some t)) := by
  intro m' u
  by_cases hm' : m' = m
  · subst hm'
    rw [Function.update_self]
    by_cases hu : u = t
    · subst hu
      rw [Function.update_self, hl]
      exact ⟨fun _ => Or.inl rfl, fun _ => rfl⟩
    · rw [Function.update_of_ne hu]
      constructor
      · intro he
        exact absurd (Option.some.inj he).symm hu
      · intro hu'
        exact absurd hu' (h.not_holds_of_free hm u)
  · rw [Function.update_of_ne hm']
    by_cases hu : u = t
    · subst hu
      rw [Function.update_self, hl, h m' u]
      exact ⟨Or.inr, fun hor => hor.resolve_left hm'⟩
    · rw [Function.update_of_ne hu]
      exact h m' u

/-- A thread releases a mutex that it holds. -/
theorem release (h : Owns holds loc owner) {t : ι} {l : L} {m : μ} (hm : holds (loc t) m)
    (hl : ∀ m', holds l m' ↔ m' ≠ m ∧ holds (loc t) m') :
    Owns holds (Function.update loc t l) (Function.update owner m none) := by
  intro m' u
  by_cases hm' : m' = m
  · subst hm'
    rw [Function.update_self]
    by_cases hu : u = t
    · subst hu
      rw [Function.update_self, hl]
      simp
    · rw [Function.update_of_ne hu]
      constructor
      · intro he
        cases he
      · intro hu'
        exact absurd (h.unique hu' hm) hu
  · rw [Function.update_of_ne hm']
    by_cases hu : u = t
    · subst hu
      rw [Function.update_self, hl, h m' u]
      exact ⟨fun hh => ⟨hm', hh⟩, fun hh => hh.2⟩
    · rw [Function.update_of_ne hu]
      exact h m' u

end Owns

/-- The data behind a mutex is the abstract value while the mutex is free, and is related
    to it by the owner's local state while it is held. Mutexes without an abstract value
    (nothing to protect yet) are not constrained. -/
def Guarded {D : Type*} (Rel : L → D → D → Prop) (loc : ι → L) (owner : μ → Option ι)
    (data : μ → D) (abs : μ → Option D) : Prop :=
  ∀ m a, abs m = some a →
    match owner m with
    | none => data m = a
    | some t => Rel (loc t) (data m) a

namespace Guarded

variable {D : Type*} {Rel : L → D → D → Prop} {loc : ι → L} {owner : μ → Option ι}
  {data : μ → D} {abs : μ → Option D} {t : ι} {l : L} {m : μ}

theorem of_free (h : Guarded Rel loc owner data abs) (hm : owner m = none) {a : D}
    (ha : abs m = some a) : data m = a := by
  have hr := h m a ha
  rw [hm] at hr
  exact hr

theorem of_owner (h : Guarded Rel loc owner data abs) (hm : owner m = some t) {a : D}
    (ha : abs m = some a) : Rel (loc t) (data m) a := by
  have hr := h m a ha
  rw [hm] at hr
  exact hr

/-- Data without an abstract value may change freely. -/
theorem congr_data (h : Guarded Rel loc owner data abs) {data' : μ → D}
    (hd : ∀ m a, abs m = some a → data' m = data m) : Guarded Rel loc owner data' abs := by
  intro m a ha
  rw [hd m a ha]
  exact h m a ha

variable [DecidableEq ι]

/-- A thread that owns nothing moves. -/
theorem stay (h : Guarded Rel loc owner data abs) (hown : ∀ m, owner m ≠ some t) :
    Guarded Rel (Function.update loc t l) owner data abs := by
  intro m a ha
  have hr := h m a ha
  cases ho : owner m with
  | none => rw [ho] at hr; exact hr
  | some u =>
      have hne : u ≠ t := fun he => hown m (he ▸ ho)
      rw [ho] at hr
      simpa only [Function.update_of_ne hne] using hr

variable [DecidableEq μ]

/-- The owner of `m`, which owns nothing else, works on the data behind `m`. -/
theorem work (h : Guarded Rel loc owner data abs) (hm : owner m = some t)
    (hown : ∀ m', owner m' = some t → m' = m) {d : D}
    (hr : ∀ a, abs m = some a → Rel (loc t) (data m) a → Rel l d a) :
    Guarded Rel (Function.update loc t l) owner (Function.update data m d) abs := by
  intro m' a ha
  by_cases hm' : m' = m
  · subst hm'
    rw [hm]
    simp only [Function.update_self]
    exact hr a ha (h.of_owner hm ha)
  · have hr' := h m' a ha
    rw [Function.update_of_ne hm']
    cases ho : owner m' with
    | none => rw [ho] at hr'; exact hr'
    | some u =>
        have hne : u ≠ t := fun he => hm' (hown m' (he ▸ ho))
        rw [ho] at hr'
        simpa only [Function.update_of_ne hne] using hr'

/-- The owner of `m` moves without touching the data. -/
theorem move (h : Guarded Rel loc owner data abs) (hm : owner m = some t)
    (hown : ∀ m', owner m' = some t → m' = m)
    (hr : ∀ a, abs m = some a → Rel (loc t) (data m) a → Rel l (data m) a) :
    Guarded Rel (Function.update loc t l) owner data abs := by
  have hw := h.work hm hown (d := data m) hr
  rwa [Function.update_eq_self] at hw

/-- A thread that owns nothing takes a free mutex. -/
theorem acquire (h : Guarded Rel loc owner data abs) (hm : owner m = none)
    (hown : ∀ m, owner m ≠ some t) (hr : ∀ d, Rel l d d) :
    Guarded Rel (Function.update loc t l) (Function.update owner m (some t)) data abs := by
  intro m' a ha
  by_cases hm' : m' = m
  · subst hm'
    rw [Function.update_self]
    simp only [Function.update_self]
    rw [h.of_free hm ha]
    exact hr a
  · rw [Function.update_of_ne hm']
    exact h.stay hown m' a ha

/-- The owner of `m` releases it, having brought the data to the new abstract value. -/
theorem release (h : Guarded Rel loc owner data abs) (hm : owner m = some t)
    (hown : ∀ m', owner m' = some t → m' = m) {abs' : μ → Option D}
    (hself : ∀ a', abs' m = some a' → data m = a') (hother : ∀ m', m' ≠ m → abs' m' = abs m') :
    Guarded Rel (Function.update loc t l) (Function.update owner m none) data abs' := by
  intro m' a ha
  by_cases hm' : m' = m
  · subst hm'
    rw [Function.update_self]
    exact hself a ha
  · rw [hother m' hm'] at ha
    have hr := h m' a ha
    rw [Function.update_of_ne hm']
    cases ho : owner m' with
    | none => rw [ho] at hr; exact hr
    | some u =>
        have hne : u ≠ t := fun he => hm' (hown m' (he ▸ ho))
        rw [ho] at hr
        simpa only [Function.update_of_ne hne] using hr

omit [DecidableEq ι] in
/-- A free mutex gets an abstract value: the data it has. -/
theorem extend (h : Guarded Rel loc owner data abs) (hm : owner m = none) {d : D}
    (hd : data m = d) : Guarded Rel loc owner data (Function.update abs m (some d)) := by
  intro m' a ha
  by_cases hm' : m' = m
  · subst hm'
    rw [Function.update_self] at ha
    rw [hm]
    exact hd.trans (Option.some.inj ha)
  · rw [Function.update_of_ne hm'] at ha
    exact h m' a ha

end Guarded

end Concur
