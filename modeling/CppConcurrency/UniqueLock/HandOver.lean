/-
  get_lock and process_data of unique_lock.cpp.

  Model. Any number of threads call process_data, as often as they like. A std::unique_lock is
  `owning` the mutex or not; get_lock returns its local `lk` by moving it into the `lk` of
  process_data, and destroys it afterwards. A destructor unlocks the mutex if its object owns
  it. prepare_data and work begin and end in steps of their own, and `log` records them.

  Proved (`process_data_atomic`): the mutex stays locked from before prepare_data until after
  work, though the object that locked it is destroyed in between, so the log is a sequence of
  whole calls, each prepare_data followed by work of the same thread, and at most one
  unfinished call. If no new calls are made, the calls in progress all return.
-/
import CppConcurrency.Lib.Threads

namespace CppConcurrency.UniqueLock

open Concur

/-- Where a thread stands in process_data, with the locks that exist there: `inner` is the `lk`
    of get_lock, and `outer` that of process_data. -/
inductive Pc where
  | idle
  | construct
  | prepare (inner : Bool)
  | preparing (inner : Bool)
  | moveOut (inner : Bool)
  | destroyInner (inner outer : Bool)
  | work (outer : Bool)
  | working (outer : Bool)
  | destroyOuter (outer : Bool)
  deriving DecidableEq, Repr

/-- What a thread does between taking the mutex and giving it back. -/
inductive Phase where
  | prepareBegin
  | prepareEnd
  | workBegin
  | workEnd
  deriving DecidableEq, Repr

structure Shared (ι : Type*) where
  mtx : Option ι
  log : List (ι × Phase)
  deriving DecidableEq, Repr

variable {ι : Type*}

def Shared.record (d : Shared ι) (t : ι) (p : Phase) : Shared ι :=
  { d with log := d.log ++ [(t, p)] }

/-- `~unique_lock()` -/
def Shared.destroy (d : Shared ι) (owning : Bool) : Shared ι :=
  if owning then { d with mtx := none } else d

/-- The next statement of a thread. -/
def next (t : ι) (l : Pc) (d : Shared ι) (_ : Unit) : Option (Pc × Shared ι) :=
  match l with
  | .idle => some (.construct, d)
  | .construct =>
      match d.mtx with
      | none => some (.prepare true, { d with mtx := some t })
      | some _ => none
  | .prepare inner => some (.preparing inner, d.record t .prepareBegin)
  | .preparing inner => some (.moveOut inner, d.record t .prepareEnd)
  | .moveOut inner => some (.destroyInner false inner, d)
  | .destroyInner inner outer => some (.work outer, d.destroy inner)
  | .work outer => some (.working outer, d.record t .workBegin)
  | .working outer => some (.destroyOuter outer, d.record t .workEnd)
  | .destroyOuter outer => some (.idle, d.destroy outer)

variable [DecidableEq ι]

def sys : Lts (Conf ι Pc (Shared ι)) (ι × Unit) :=
  threads next (fun _ => .idle) (· = ⟨none, []⟩)

/-- The log of one call. -/
def call (t : ι) : List (ι × Phase) :=
  [(t, .prepareBegin), (t, .prepareEnd), (t, .workBegin), (t, .workEnd)]

/-- Whether the thread is behind the lock, and how much of its call is in the log. -/
def Pc.logged : Pc → Option ℕ
  | .idle | .construct => none
  | .prepare _ => some 0
  | .preparing _ => some 1
  | .moveOut _ | .destroyInner _ _ | .work _ => some 2
  | .working _ => some 3
  | .destroyOuter _ => some 4

/-- Exactly one of the locks of the thread owns the mutex, once it has been locked. -/
def Pc.Owning : Pc → Prop
  | .idle | .construct => True
  | .prepare inner | .preparing inner | .moveOut inner => inner = true
  | .destroyInner inner outer => inner = false ∧ outer = true
  | .work outer | .working outer | .destroyOuter outer => outer = true

variable {t u : ι} {l l' : Pc} {d d' : Shared ι} {b : Unit} {c : Conf ι Pc (Shared ι)}

/-! ## Steps -/

/-- The cases of a step. `k` is how much of the call is in the log before the step. -/
inductive Moves (t : ι) (d : Shared ι) : Option ℕ → Option ℕ → Shared ι → Prop
  | outside : Moves t d none none d
  | lock (h : d.mtx = none) : Moves t d none (some 0) { d with mtx := some t }
  | record (k : ℕ) (p : Phase) (h : (call t)[k]? = some (t, p)) :
      Moves t d (some k) (some (k + 1)) (d.record t p)
  | inside (k : ℕ) : Moves t d (some k) (some k) d
  | unlock : Moves t d (some 4) none { d with mtx := none }

omit [DecidableEq ι] in
theorem moves_of_next (ho : l.Owning) (h : next t l d b = some (l', d')) :
    Moves t d l.logged l'.logged d' ∧ l'.Owning := by
  cases l with
  | idle =>
      cases h
      exact ⟨.outside, trivial⟩
  | construct =>
      simp only [next] at h
      split at h
      · next hm =>
          cases h
          exact ⟨.lock hm, rfl⟩
      · cases h
  | prepare inner =>
      cases h
      exact ⟨.record 0 .prepareBegin rfl, ho⟩
  | preparing inner =>
      cases h
      exact ⟨.record 1 .prepareEnd rfl, ho⟩
  | moveOut inner =>
      cases h
      exact ⟨.inside 2, rfl, ho⟩
  | destroyInner inner outer =>
      obtain ⟨rfl, rfl⟩ := ho
      cases h
      exact ⟨.inside 2, rfl⟩
  | work outer =>
      cases h
      exact ⟨.record 2 .workBegin rfl, ho⟩
  | working outer =>
      cases h
      exact ⟨.record 3 .workEnd rfl, ho⟩
  | destroyOuter outer =>
      obtain rfl : outer = true := ho
      cases h
      exact ⟨.unlock, trivial⟩

omit [DecidableEq ι] in
/-- What a step does to the mutex. -/
theorem Moves.mutexStep {k k' : Option ℕ} (h : Moves t d k k' d') :
    MutexStep t k.isSome d.mtx k'.isSome d'.mtx := by
  cases h with
  | outside => exact .stay false d.mtx
  | lock hm =>
      rw [hm]
      exact .lock
  | record | inside => exact .stay true d.mtx
  | unlock => exact .unlock d.mtx

/-! ## Safety -/

/-- While nobody owns the mutex, the log consists of whole calls. -/
def Whole (d : Shared ι) : Prop := d.mtx = none → ∃ ts : List ι, d.log = ts.flatMap call

/-- Thread `t` owns the mutex if it is behind the lock, and then the log ends with what it has
    done of its call. -/
structure Held (t : ι) (k : Option ℕ) (d : Shared ι) : Prop where
  owns : k.isSome = true ↔ d.mtx = some t
  log : ∀ n, k = some n → ∃ ts : List ι, d.log = ts.flatMap call ++ (call t).take n

variable {k k' : Option ℕ}

omit [DecidableEq ι] in
theorem held_own (hw : Whole d) (h : Held t k d) (hm : Moves t d k k' d') :
    Whole d' ∧ Held t k' d' := by
  have howns := hm.mutexStep.own h.owns
  cases hm with
  | outside => exact ⟨hw, howns, nofun⟩
  | lock hfree =>
      obtain ⟨ts, hts⟩ := hw hfree
      refine ⟨nofun, howns, ?_⟩
      rintro n ⟨⟩
      exact ⟨ts, hts.trans (List.append_nil _).symm⟩
  | record n p hp =>
      obtain ⟨ts, hts⟩ := h.log n rfl
      refine ⟨fun hfree => ?_, howns, ?_⟩
      · cases (h.owns.mp rfl).symm.trans hfree
      · rintro _ ⟨⟩
        refine ⟨ts, ?_⟩
        rw [List.take_add_one, hp, ← List.append_assoc, ← hts]
        rfl
  | inside n =>
      exact ⟨hw, howns, h.log⟩
  | unlock =>
      obtain ⟨ts, hts⟩ := h.log 4 rfl
      refine ⟨fun _ => ⟨ts ++ [t], ?_⟩, howns, nofun⟩
      rw [List.flatMap_append, List.flatMap_singleton]
      exact hts

omit [DecidableEq ι] in
theorem held_other {k₀ : Option ℕ} (h : Held t k₀ d) (hu : Held u k d) (hne : u ≠ t)
    (hm : Moves u d k k' d') : Held t k₀ d' where
  owns := hm.mutexStep.other hu.owns hne h.owns
  log n hn := by
    obtain ⟨ts, hts⟩ := h.log n hn
    refine ⟨ts, ?_⟩
    cases hm with
    | outside | lock | inside | unlock => exact hts
    | record m p hp =>
        -- both would own the mutex
        have ho := (hu.owns.mp rfl).symm.trans (h.owns.mp (by rw [hn]; rfl))
        exact absurd (Option.some.inj ho) hne

theorem held_reach (h : sys.Reachable c) :
    Whole c.shared ∧ ∀ t, Held t (c.loc t).logged c.shared ∧ (c.loc t).Owning := by
  refine Threads.invariant (A := fun t l d => Held t l.logged d ∧ l.Owning) ?_ ?_ ?_ h
  · rintro d rfl
    exact ⟨fun _ => ⟨[], rfl⟩, fun t => ⟨⟨⟨nofun, nofun⟩, nofun⟩, trivial⟩⟩
  · rintro t l d b l' d' hw ⟨ht, ho⟩ hs
    obtain ⟨hm, ho'⟩ := moves_of_next ho hs
    obtain ⟨hw', ht'⟩ := held_own hw ht hm
    exact ⟨hw', ht', ho'⟩
  · rintro t u l k d b k' d' hne - ⟨ht, ho⟩ ⟨hu, huo⟩ hs
    exact ⟨held_other ht hu hne (moves_of_next huo hs).1, ho⟩

/-- What has been done is a sequence of whole calls of process_data, followed by the part that the
    owner of the mutex has done of its own. -/
theorem atomic (h : sys.Reachable c) :
    (∀ t n, (c.loc t).logged = some n → c.shared.mtx = some t) ∧
    ∃ ts : List ι, match c.shared.mtx with
      | none => c.shared.log = ts.flatMap call
      | some t => ∃ n, (c.loc t).logged = some n ∧
          c.shared.log = ts.flatMap call ++ (call t).take n := by
  obtain ⟨hw, hheld⟩ := held_reach h
  refine ⟨fun t n hn => (hheld t).1.owns.mp (by rw [hn]; rfl), ?_⟩
  cases hm : c.shared.mtx with
  | none => exact hw hm
  | some t =>
      obtain ⟨n, hn⟩ := Option.isSome_iff_exists.mp ((hheld t).1.owns.mpr hm)
      obtain ⟨ts, hts⟩ := (hheld t).1.log n hn
      exact ⟨ts, n, hn, hts⟩

/-! ## Progress -/

/-- The steps a call has left. -/
def Pc.left : Pc → ℕ
  | .idle => 0
  | .construct => 8
  | .prepare _ => 7
  | .preparing _ => 6
  | .moveOut _ => 5
  | .destroyInner _ _ => 4
  | .work _ => 3
  | .working _ => 2
  | .destroyOuter _ => 1

omit [DecidableEq ι] in
theorem left_lt (hl : l ≠ .idle) (h : next t l d b = some (l', d')) : l'.left < l.left := by
  cases l with
  | idle => exact absurd rfl hl
  | construct =>
      simp only [next] at h
      split at h
      · cases h
        exact Nat.lt_succ_self 7
      · cases h
  | prepare | preparing | moveOut | destroyInner | work | working | destroyOuter =>
      cases h
      exact Nat.lt_succ_self _

/-- While a call is in progress some call can go on: the one that owns the mutex, or any. -/
theorem next_of_busy (h : sys.Reachable c) (ht : c.loc t ≠ .idle) :
    ∃ u, c.loc u ≠ .idle ∧ next u (c.loc u) c.shared () ≠ none := by
  obtain ⟨u, hu, hgo⟩ : ∃ u, c.loc u ≠ .idle ∧ (c.loc u = .construct → c.shared.mtx = none) := by
    cases hm : c.shared.mtx with
    | none => exact ⟨t, ht, fun _ => rfl⟩
    | some u =>
        have hu := ((held_reach h).2 u).1.owns.mpr hm
        refine ⟨u, fun hl => ?_, fun hl => ?_⟩ <;> (rw [hl] at hu; cases hu)
  refine ⟨u, hu, ?_⟩
  cases hl : c.loc u with
  | construct =>
      simp only [next, hgo hl]
      nofun
  | idle | prepare | preparing | moveOut | destroyInner | work | working | destroyOuter => nofun

variable [Fintype ι]

/-- The calls in progress come to their ends. -/
theorem returns (h : sys.Reachable c) :
    sys.Finishes (Threads.Busy (· = .idle)) (fun c => ∀ t, c.loc t = .idle)
      (sumAt Pc.left c.loc) c := by
  refine Threads.finishes (P := sys.Reachable) (κ := fun _ => 0) ?_ ?_ ?_ h
  · intro c t b c' hc _ hs
    exact .next hc trivial hs
  · intro c t b l d _ hl hn
    exact left_lt hl hn
  · intro c t hc ht
    obtain ⟨u, hu, hn⟩ := next_of_busy hc ht
    exact ⟨u, (), hu, hn⟩

/-- **The mutex is handed over.** In every reachable state: prepare_data and work run while their
    thread owns the mutex, and what has been done is a sequence of whole calls of process_data,
    followed by the part that the owner of the mutex has done of its own. If no new calls are
    made, the calls in progress make no more steps than they have left, in any order, and when
    none can go on all of them have returned. -/
theorem process_data_atomic (h : sys.Reachable c) :
    (∀ t n, (c.loc t).logged = some n → c.shared.mtx = some t) ∧
    (∃ ts : List ι, match c.shared.mtx with
      | none => c.shared.log = ts.flatMap call
      | some t => ∃ n, (c.loc t).logged = some n ∧
          c.shared.log = ts.flatMap call ++ (call t).take n) ∧
    sys.Finishes (Threads.Busy (· = .idle)) (fun c => ∀ t, c.loc t = .idle)
      (sumAt Pc.left c.loc) c := by
  obtain ⟨howns, hlog⟩ := atomic h
  exact ⟨howns, hlog, returns h⟩

/-- Thread `false` is at work, with the lock that get_lock has given it; thread `true` waits. -/
def oneWorks : Conf Bool Pc (Shared Bool) :=
  (sys.exec Lts.anyStep ⟨fun _ => .idle, ⟨none, []⟩⟩
    [(false, ()), (true, ()), (false, ()), (false, ()), (false, ()), (false, ()), (false, ()),
      (false, ())]).get (by decide)

theorem process_data_atomic_oneWorks :
    oneWorks.loc false = .working true ∧ oneWorks.shared.mtx = some false ∧
      sys.Finishes (Threads.Busy (· = .idle)) (fun c => ∀ t, c.loc t = .idle)
        (sumAt Pc.left oneWorks.loc) oneWorks := by
  have hc : sys.Reachable oneWorks := .exec _ (.start ⟨rfl, rfl⟩) (Option.some_get _).symm
  obtain ⟨howns, -, hends⟩ := process_data_atomic hc
  have hl : oneWorks.loc false = .working true := by decide
  exact ⟨hl, howns false 3 (by rw [hl]; rfl), hends⟩

end CppConcurrency.UniqueLock
