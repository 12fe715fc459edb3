/-
  ProtVector of mutex.cpp.

  Model. Any number of threads call push_back (`add`) and show on one vector, as often as they
  like. Each member runs under `mutex`, one statement a step: show writes the elements, the
  blanks and the line end one by one, and evaluates `begin()` and `end()` once, before the loop.
  An element outside the vector is undefined and has no step. push_back of the vector may throw
  std::bad_alloc and then changes nothing. `log` is a ghost: the members that have run to their
  ends, in the order in which they gave the mutex back.

  Proved (`protVector_atomic`): the vector and the output are always those of the members in
  `log` run one after another, up to the member that runs at the moment; so a line of the output
  is one whole state of the vector, from one show, and a prefix of every later one. If no new
  calls are made, all calls return after a bounded number of steps.
-/
import CppConcurrency.Lib.Mutual
import CppConcurrency.Lib.Threads

namespace CppConcurrency.ProtVector

open Concur

/-- What is written to std::cout. -/
inductive Tok (T : Type*) where
  | elem (v : T)
  | blank
  | endl
  deriving DecidableEq, Repr

/-- The members. -/
inductive Op (T : Type*) where
  | pushBack (elem : T)
  | showVec
  deriving DecidableEq, Repr

/-- Where a thread stands. `loop i last`: at the test of the loop with the iterator at `i`;
    `blank`: the element at `i` has been written; `unlock`: the destructor of the guard, with
    the member that has done its work, if it has. -/
inductive Pc (T : Type*) where
  | idle
  | lock (op : Op T)
  | push (elem : T)
  | loop (i last : ℕ)
  | blank (i last : ℕ)
  | unlock (done : Option (Op T))
  deriving Repr

instance (T : Type*) (l : Pc T) : Decidable (l = .idle) :=
  match l with
  | .idle => isTrue rfl
  | .lock _ | .push _ | .loop _ _ | .blank _ _ | .unlock _ => isFalse nofun

structure Shared (ι T : Type*) where
  vec : List T
  mutex : Option ι
  out : List (Tok T)
  log : List (ι × Op T)
  deriving DecidableEq, Repr

/-- What the environment chooses: the next call of a thread, and whether push_back throws. -/
inductive Choice (T : Type*) where
  | call (op : Op T)
  | run
  | throws
  deriving DecidableEq, Repr

variable {ι T : Type*}

/-- The first statement under the guard. -/
def Op.first (vec : List T) : Op T → Pc T
  | .pushBack v => .push v
  | .showVec => .loop 0 vec.length

/-- The next statement of a thread. -/
def next (t : ι) (l : Pc T) (d : Shared ι T) (b : Choice T) : Option (Pc T × Shared ι T) :=
  match l, b with
  | .idle, .call op => some (.lock op, d)
  | .lock op, .run =>
      match d.mutex with
      | none => some (op.first d.vec, { d with mutex := some t })
      | some _ => none
  | .push v, .run => some (.unlock (some (.pushBack v)), { d with vec := d.vec ++ [v] })
  | .push _, .throws => some (.unlock none, d)
  | .loop i last, .run =>
      if i = last then some (.unlock (some .showVec), { d with out := d.out ++ [.endl] })
      else d.vec[i]?.map fun v => (.blank i last, { d with out := d.out ++ [.elem v] })
  | .blank i last, .run => some (.loop (i + 1) last, { d with out := d.out ++ [.blank] })
  | .unlock done, .run =>
      some (.idle, { d with mutex := none, log := d.log ++ done.toList.map (t, ·) })
  | _, _ => none

variable [DecidableEq ι]

/-- The threads and an empty vector. -/
def sys : Lts (Conf ι (Pc T) (Shared ι T)) (ι × Choice T) :=
  threads next (fun _ => .idle) (· = ⟨[], none, [], []⟩)

/-! ## One member after another -/

/-- The elements with a blank behind each. -/
def spaced (vec : List T) : List (Tok T) := vec.flatMap fun v => [.elem v, .blank]

/-- The line that show writes. -/
def line (vec : List T) : List (Tok T) := spaced vec ++ [.endl]

/-- A member by itself, on the vector and the output. -/
def Op.apply : Op T → List T × List (Tok T) → List T × List (Tok T)
  | .pushBack v, x => (x.1 ++ [v], x.2)
  | .showVec, x => (x.1, x.2 ++ line x.1)

/-- One member after another. -/
def replay (log : List (ι × Op T)) : List T × List (Tok T) :=
  log.foldl (fun x e => e.2.apply x) ([], [])

omit [DecidableEq ι] in
theorem replay_concat (log : List (ι × Op T)) (t : ι) (op : Op T) :
    replay (log ++ [(t, op)]) = op.apply (replay log) := List.foldl_concat ..

theorem spaced_take {vec : List T} {i : ℕ} {v : T} (h : vec[i]? = some v) :
    spaced (vec.take (i + 1)) = spaced (vec.take i) ++ [.elem v, .blank] := by
  obtain ⟨hi, rfl⟩ := List.getElem?_eq_some_iff.mp h
  rw [List.take_succ_eq_append_getElem hi, spaced, List.flatMap_append]
  rfl

theorem Op.apply_extends (op : Op T) (x : List T × List (Tok T)) :
    x.1 <+: (op.apply x).1 ∧ x.2 <+: (op.apply x).2 := by
  cases op with
  | pushBack v => exact ⟨List.prefix_append _ _, List.prefix_rfl⟩
  | showVec => exact ⟨List.prefix_rfl, List.prefix_append _ _⟩

omit [DecidableEq ι] in
/-- What later members do comes behind what there is. -/
theorem replay_extends (log rest : List (ι × Op T)) :
    (replay log).1 <+: (replay (log ++ rest)).1 ∧ (replay log).2 <+: (replay (log ++ rest)).2 := by
  induction rest using List.reverseRecOn with
  | nil =>
      rw [List.append_nil]
      exact ⟨List.prefix_rfl, List.prefix_rfl⟩
  | append_singleton rest e ih =>
      rw [← List.append_assoc, replay_concat]
      have hop := e.2.apply_extends (replay (log ++ rest))
      exact ⟨ih.1.trans hop.1, ih.2.trans hop.2⟩

/-! ## The invariant -/

/-- The thread holds `mutex`. -/
def Pc.holds : Pc T → Bool
  | .idle | .lock _ => false
  | _ => true

/-- What the member at hand has made of the vector and the output `x`. -/
def Partial (l : Pc T) (x : List T × List (Tok T)) (d : Shared ι T) : Prop :=
  match l with
  | .idle | .lock _ | .push _ | .unlock none => (d.vec, d.out) = x
  | .loop i last => d.vec = x.1 ∧ last = x.1.length ∧ i ≤ last ∧
      d.out = x.2 ++ spaced (x.1.take i)
  | .blank i last => d.vec = x.1 ∧ last = x.1.length ∧
      ∃ v, x.1[i]? = some v ∧ d.out = x.2 ++ spaced (x.1.take i) ++ [.elem v]
  | .unlock (some op) => (d.vec, d.out) = op.apply x

/-- What holds at the places of thread `t`. -/
def Assert (t : ι) (l : Pc T) (d : Shared ι T) : Prop :=
  (l.holds = true ↔ d.mutex = some t) ∧ (l.holds = true → Partial l (replay d.log) d)

/-- The vector and the output while nobody holds `mutex`. -/
def Whole (d : Shared ι T) : Prop := d.mutex = none → (d.vec, d.out) = replay d.log

variable {t u : ι} {l l' : Pc T} {d d' : Shared ι T} {b : Choice T}
  {c : Conf ι (Pc T) (Shared ι T)}

/-- The cases of a step. -/
inductive Moves (t : ι) (d : Shared ι T) : Pc T → Choice T → Pc T → Shared ι T → Prop
  | call (op : Op T) : Moves t d .idle (.call op) (.lock op) d
  | lock (op : Op T) (h : d.mutex = none) :
      Moves t d (.lock op) .run (op.first d.vec) { d with mutex := some t }
  | pushed (v : T) :
      Moves t d (.push v) .run (.unlock (some (.pushBack v))) { d with vec := d.vec ++ [v] }
  | threw (v : T) : Moves t d (.push v) .throws (.unlock none) d
  | written (i last : ℕ) (v : T) (hi : i ≠ last) (hv : d.vec[i]? = some v) :
      Moves t d (.loop i last) .run (.blank i last) { d with out := d.out ++ [.elem v] }
  | ended (i : ℕ) :
      Moves t d (.loop i i) .run (.unlock (some .showVec)) { d with out := d.out ++ [.endl] }
  | spaced (i last : ℕ) :
      Moves t d (.blank i last) .run (.loop (i + 1) last) { d with out := d.out ++ [.blank] }
  | unlock (done : Option (Op T)) :
      Moves t d (.unlock done) .run .idle
        { d with mutex := none, log := d.log ++ done.toList.map (t, ·) }

omit [DecidableEq ι] in
/-- Every step is one of these. -/
theorem moves_of_next (h : next t l d b = some (l', d')) : Moves t d l b l' d' := by
  unfold next at h
  split at h
  case h_1 op =>
    cases h
    exact .call op
  case h_2 op =>
    split at h
    · next hm =>
        cases h
        exact .lock op hm
    · cases h
  case h_3 v =>
    cases h
    exact .pushed v
  case h_4 v =>
    cases h
    exact .threw v
  case h_5 i last =>
    split at h
    · next hi =>
        cases h
        subst hi
        exact .ended i
    · next hi =>
        obtain ⟨v, hv, he⟩ := Option.map_eq_some_iff.mp h
        cases he
        exact .written i last v hi hv
  case h_6 i last =>
    cases h
    exact .spaced i last
  case h_7 done =>
    cases h
    exact .unlock done
  case h_8 => cases h

omit [DecidableEq ι] in
theorem mutexStep (h : Moves t d l b l' d') :
    MutexStep t l.holds d.mutex l'.holds d'.mutex := by
  cases h with
  | call => exact .stay false d.mutex
  | lock op hm =>
      rw [hm]
      cases op <;> exact .lock
  | unlock => exact .unlock d.mutex
  | _ => exact .stay true d.mutex

omit [DecidableEq ι] in
theorem whole_of_owner (h : d.mutex = some t) : Whole d := by
  intro hn
  rw [h] at hn
  cases hn

omit [DecidableEq ι] in
/-- The work of a thread under `mutex`. -/
theorem partial_step (h : Moves t d l b l' d') (hw : Whole d)
    (hm : l.holds = true ↔ d.mutex = some t)
    (hp : l.holds = true → Partial l (replay d.log) d) :
    Whole d' ∧ (l'.holds = true → Partial l' (replay d'.log) d') := by
  cases h with
  | call op => exact ⟨hw, nofun⟩
  | lock op hfree =>
      refine ⟨nofun, fun _ => ?_⟩
      have hx := hw hfree
      cases op with
      | pushBack v => exact hx
      | showVec =>
          obtain ⟨hv, ho⟩ := Prod.mk.inj hx
          refine ⟨hv, congrArg List.length hv, Nat.zero_le _, ?_⟩
          exact ho.trans (List.append_nil _).symm
  | pushed v =>
      refine ⟨whole_of_owner (t := t) (hm.mp rfl), fun _ => ?_⟩
      have hx : (d.vec, d.out) = replay d.log := hp rfl
      change (d.vec ++ [v], d.out) = _
      rw [← hx]
      rfl
  | threw v => exact ⟨hw, fun _ => hp rfl⟩
  | written i last v hi hv =>
      refine ⟨whole_of_owner (t := t) (hm.mp rfl), fun _ => ?_⟩
      obtain ⟨hx, hlast, -, hout⟩ := hp rfl
      rw [hx] at hv
      exact ⟨hx, hlast, v, hv, congrArg (· ++ [.elem v]) hout⟩
  | ended i =>
      refine ⟨whole_of_owner (t := t) (hm.mp rfl), fun _ => ?_⟩
      obtain ⟨hx, hlast, -, hout⟩ := hp rfl
      rw [hlast, List.take_length] at hout
      change (d.vec, d.out ++ [.endl]) = _
      rw [hx, hout, List.append_assoc]
      rfl
  | spaced i last =>
      refine ⟨whole_of_owner (t := t) (hm.mp rfl), fun _ => ?_⟩
      obtain ⟨hx, hlast, v, hv, hout⟩ := hp rfl
      refine ⟨hx, hlast, ?_, ?_⟩
      · rw [hlast]
        exact (List.getElem?_eq_some_iff.mp hv).1
      · change d.out ++ [.blank] = _
        rw [spaced_take hv, hout, List.append_assoc, List.append_assoc]
        rfl
  | unlock done =>
      refine ⟨fun _ => ?_, nofun⟩
      have hx := hp rfl
      change (d.vec, d.out) = replay (d.log ++ done.toList.map (t, ·))
      cases done with
      | none =>
          rw [show d.log ++ (none : Option (Op T)).toList.map (t, ·) = d.log from
            List.append_nil _]
          exact hx
      | some op => exact hx.trans (replay_concat d.log t op).symm

omit [DecidableEq ι] in
/-- A thread that does not hold `mutex` leaves the vector, the output and the log alone. -/
theorem kept_of_outside (h : Moves t d l b l' d') (hl : l.holds = false) :
    d'.vec = d.vec ∧ d'.out = d.out ∧ d'.log = d.log := by
  cases h with
  | call | lock => exact ⟨rfl, rfl, rfl⟩
  | _ => cases hl

omit [DecidableEq ι] in
theorem partial_congr {x : List T × List (Tok T)} (hv : d'.vec = d.vec) (ho : d'.out = d.out)
    (h : Partial l x d) : Partial l x d' := by
  unfold Partial at h ⊢
  rw [hv, ho]
  exact h

omit [DecidableEq ι] in
/-- The member at hand only adds to the vector and to the output. -/
theorem partial_extends {x : List T × List (Tok T)} (h : Partial l x d) :
    x.1 <+: d.vec ∧ x.2 <+: d.out := by
  have hsame (hx : (d.vec, d.out) = x) : x.1 <+: d.vec ∧ x.2 <+: d.out := by
    rw [← hx]
    exact ⟨List.prefix_rfl, List.prefix_rfl⟩
  cases l with
  | idle | lock op | push v => exact hsame h
  | loop i last =>
      obtain ⟨hx, -, -, ho⟩ := h
      rw [hx, ho]
      exact ⟨List.prefix_rfl, List.prefix_append _ _⟩
  | blank i last =>
      obtain ⟨hx, -, v, -, ho⟩ := h
      rw [hx, ho, List.append_assoc]
      exact ⟨List.prefix_rfl, List.prefix_append _ _⟩
  | unlock done =>
      cases done with
      | none => exact hsame h
      | some op =>
          obtain ⟨hv, ho⟩ := Prod.mk.inj (show (d.vec, d.out) = op.apply x from h)
          rw [hv, ho]
          exact op.apply_extends x

theorem assert_reach (h : sys.Reachable c) :
    Whole c.shared ∧ ∀ t, Assert t (c.loc t) c.shared := by
  refine Threads.invariant (I := Whole) (A := Assert) ?_ ?_ ?_ h
  · rintro d rfl
    exact ⟨fun _ => rfl, fun t => ⟨⟨nofun, nofun⟩, nofun⟩⟩
  · rintro t l d b l' d' hw ⟨hm, hp⟩ hs
    have hmove := moves_of_next hs
    obtain ⟨hw', hp'⟩ := partial_step hmove hw hm hp
    exact ⟨hw', (mutexStep hmove).own hm, hp'⟩
  · rintro t u l k d b k' d' hne - ⟨hm, hp⟩ ⟨hu, -⟩ hs
    have hmove := moves_of_next hs
    refine ⟨(mutexStep hmove).other hu hne hm, fun hl => ?_⟩
    have hk : k.holds = false := by
      rw [Bool.eq_false_iff]
      intro hk
      have he := (hu.mp hk).symm.trans (hm.mp hl)
      exact hne (Option.some.inj he)
    obtain ⟨hv, ho, hlog⟩ := kept_of_outside hmove hk
    rw [hlog]
    exact partial_congr hv ho (hp hl)

/-! ## Lines -/

/-- The vector has only grown since any of its earlier states, and each show has put the state
    it found into one line. -/
theorem lines (h : sys.Reachable c) {log rest : List (ι × Op T)} {t : ι}
    (hlog : c.shared.log = log ++ (t, .showVec) :: rest) :
    (replay log).1 <+: c.shared.vec ∧
      (replay log).2 ++ line (replay log).1 <+: c.shared.out := by
  obtain ⟨hw, hA⟩ := assert_reach h
  have hpre := replay_extends (log ++ [(t, .showVec)]) rest
  rw [List.append_assoc, List.singleton_append, ← hlog, replay_concat] at hpre
  suffices hx : (replay c.shared.log).1 <+: c.shared.vec ∧
      (replay c.shared.log).2 <+: c.shared.out from
    ⟨hpre.1.trans hx.1, hpre.2.trans hx.2⟩
  cases hm : c.shared.mutex with
  | none =>
      rw [← hw hm]
      exact ⟨List.prefix_rfl, List.prefix_rfl⟩
  | some u => exact partial_extends ((hA u).2 ((hA u).1.mpr hm))

/-! ## Progress -/

/-- The call of push_back has yet to put its element in. -/
def Pc.pushing : Pc T → Bool
  | .lock (.pushBack _) | .push _ => true
  | _ => false

/-- The steps that a call has left at most, if the vector gets no longer than `n`. -/
def Pc.left (n : ℕ) : Pc T → ℕ
  | .idle => 0
  | .unlock _ => 1
  | .push _ => 2
  | .loop i last => 2 * (last - i) + 2
  | .blank i last => 2 * (last - i) + 1
  | .lock _ => 2 * n + 3

omit [DecidableEq ι] in
/-- Every step of a call makes it shorter. -/
theorem left_lt {n : ℕ} (h : Moves t d l b l' d') (hl : l ≠ .idle)
    (hp : l.holds = true → Partial l (replay d.log) d) (hn : d.vec.length ≤ n) :
    l'.left n < l.left n := by
  cases h with
  | call => exact absurd rfl hl
  | lock op =>
      cases op <;> simp only [Op.first, Pc.left] <;> omega
  | written i last v hi hv =>
      simp only [Pc.left]
      omega
  | spaced i last =>
      obtain ⟨-, hlast, v, hv, -⟩ := hp rfl
      have hi := (List.getElem?_eq_some_iff.mp hv).1
      simp only [Pc.left]
      omega
  | pushed | threw | ended | unlock =>
      simp only [Pc.left]
      omega

omit [DecidableEq ι] in
/-- The length of the vector, and the elements that are on their way to it. -/
theorem length_add_pushing_le (h : Moves t d l b l' d') (hl : l ≠ .idle) :
    d'.vec.length + l'.pushing.toNat ≤ d.vec.length + l.pushing.toNat := by
  cases h with
  | call => exact absurd rfl hl
  | lock op => cases op <;> exact le_rfl
  | pushed v => exact (List.length_append ..).le
  | threw | written | ended | spaced | unlock => exact Nat.le_add_right _ _

omit [DecidableEq ι] in
/-- A thread in a call can make its next step, if it does not wait for `mutex`. -/
theorem next_ne_none (hl : l ≠ .idle) (hlock : ∀ op, l = .lock op → d.mutex = none)
    (hp : l.holds = true → Partial l (replay d.log) d) : next t l d .run ≠ none := by
  cases l with
  | idle => exact absurd rfl hl
  | lock op =>
      simp only [next, hlock op rfl]
      exact Option.some_ne_none _
  | push v | blank i last | unlock done => exact Option.some_ne_none _
  | loop i last =>
      obtain ⟨hx, hlast, hle, -⟩ := hp rfl
      simp only [next]
      split
      · exact Option.some_ne_none _
      · next hi =>
          have hlt : i < d.vec.length := by
            rw [hx]
            omega
          rw [List.getElem?_eq_getElem hlt]
          exact Option.some_ne_none _

/-- Some call can go on: the one that holds `mutex`, or any. -/
theorem next_of_busy (h : sys.Reachable c) (ht : c.loc t ≠ .idle) :
    ∃ u, c.loc u ≠ .idle ∧ next u (c.loc u) c.shared .run ≠ none := by
  obtain ⟨-, hA⟩ := assert_reach h
  cases hm : c.shared.mutex with
  | none => exact ⟨t, ht, next_ne_none ht (fun _ _ => hm) (hA t).2⟩
  | some u =>
      have hu := (hA u).1.mpr hm
      have hne {l : Pc T} (hl : l.holds = false) : c.loc u ≠ l := by
        intro he
        rw [he, hl] at hu
        cases hu
      exact ⟨u, hne rfl, next_ne_none (hne rfl) (fun op he => absurd he (hne rfl)) (hA u).2⟩

variable [Fintype ι]

/-- The longest the vector can get before new calls come. -/
def reach (c : Conf ι (Pc T) (Shared ι T)) : ℕ :=
  c.shared.vec.length + countAt Pc.pushing c.loc

/-- The calls in progress come to their ends. -/
theorem returns (h : sys.Reachable c) :
    sys.Finishes (Threads.Busy (· = .idle)) (fun c => ∀ t, c.loc t = .idle)
      (sumAt (Pc.left (reach c)) c.loc) c := by
  refine Threads.finishes (P := fun c' => sys.Reachable c' ∧ reach c' ≤ reach c)
    (κ := fun _ => 0) ?_ ?_ ?_ ⟨h, le_rfl⟩
  · rintro c₁ t b c₂ ⟨hc, hr⟩ hl hs
    refine ⟨.next hc trivial hs, ?_⟩
    obtain ⟨l, d, hn, rfl⟩ := Threads.step_eq_some hs
    have hlen := length_add_pushing_le (moves_of_next hn) hl
    have hcount := countAt_update Pc.pushing c₁.loc t l
    unfold reach at hr ⊢
    dsimp only
    omega
  · rintro c₁ t b l d ⟨hc, hr⟩ hl hn
    exact left_lt (moves_of_next hn) hl ((assert_reach hc).2 t).2
      (Nat.le_trans (Nat.le_add_right _ _) hr)
  · rintro c₁ t ⟨hc, -⟩ ht
    obtain ⟨u, hu, hn⟩ := next_of_busy hc ht
    exact ⟨u, .run, hu, hn⟩

/-- **The members of ProtVector are atomic.** In every reachable state: while nobody holds
    `mutex`, the vector and the output are those of the members in `log` run one after another,
    and otherwise those with a part of the owner's member added. So each show in the log has
    written one line behind what was there, with the whole of the vector as it then was, and
    the vector has only grown since. If no new calls are made, the calls in progress return after
    a bounded number of steps, in any order. -/
theorem protVector_atomic (h : sys.Reachable c) :
    (c.shared.mutex = none → (c.shared.vec, c.shared.out) = replay c.shared.log) ∧
    (∀ t, c.shared.mutex = some t → Partial (c.loc t) (replay c.shared.log) c.shared) ∧
    (∀ log t rest, c.shared.log = log ++ (t, .showVec) :: rest →
      (replay log).1 <+: c.shared.vec ∧
        (replay log).2 ++ line (replay log).1 <+: c.shared.out) ∧
    sys.Finishes (Threads.Busy (· = .idle)) (fun c => ∀ t, c.loc t = .idle)
      (sumAt (Pc.left (reach c)) c.loc) c := by
  obtain ⟨hw, hA⟩ := assert_reach h
  exact ⟨hw, fun t ht => (hA t).2 ((hA t).1.mpr ht), fun _ _ _ hlog => lines h hlog, returns h⟩

/-- Thread `false` adds 11, thread `true` shows it, thread `false` wants to add 22 and thread
    `true` is in the middle of its next line. -/
def addAndShow : Conf Bool (Pc ℕ) (Shared Bool ℕ) :=
  (sys.exec Lts.anyStep ⟨fun _ => .idle, ⟨[], none, [], []⟩⟩
    [(false, .call (.pushBack 11)), (false, .run), (false, .run), (false, .run),
      (true, .call .showVec), (true, .run), (true, .run), (true, .run), (true, .run), (true, .run),
      (true, .call .showVec), (true, .run), (false, .call (.pushBack 22)),
      (true, .run)]).get (by decide)

theorem protVector_atomic_addAndShow :
    addAndShow.shared.out = [.elem 11, .blank, .endl, .elem 11] ∧
      line (T := ℕ) [11] <+: addAndShow.shared.out ∧
      sys.Finishes (Threads.Busy (· = .idle)) (fun c => ∀ t, c.loc t = .idle)
        (sumAt (Pc.left (reach addAndShow)) addAndShow.loc) addAndShow := by
  have hc : sys.Reachable addAndShow := .exec _ (.start ⟨rfl, rfl⟩) (Option.some_get _).symm
  obtain ⟨-, -, hlines, hends⟩ := protVector_atomic hc
  exact ⟨by decide, (hlines [(false, .pushBack 11)] true [] (by decide)).2, hends⟩

end CppConcurrency.ProtVector
