/-
  `std::thread` objects as handles of threads.

  An object `a : κ` is alive or not, and while alive refers to a thread (`cell a = some i`,
  the object is joinable) or to none. Threads are numbered as they are launched; `joined i`
  and `detached i` count the calls that ended the handle of thread `i`. The operations are
  those of the standard: moving and swapping pass a thread on, `join` and `detach` of an
  object without a thread throw `std::system_error` and change nothing, and destroying or
  assigning over an object with a thread ends the program.

  `Owned`: every thread launched is referred to by exactly one live object and has not been
  joined or detached, or is referred to by none and was joined or detached exactly once.
  Each operation that does not end the program keeps it.

  The operations' triples are over `At al c d`: an owned state with the given live objects,
  cells and detach counts. They say what an operation does to every object at once.
-/
import CppConcurrency.Lib.Program
import Mathlib.Logic.Equiv.Basic

namespace Concur

/-- The exceptions of the operations on threads and of the code that wraps them:
    `std::logic_error` with its text, and `std::system_error` with its code. -/
inductive ThreadExc
  | logicError (what : String)
  | invalidArgument
  | resourceUnavailable
  deriving DecidableEq, Repr

/-- The `std::thread` objects `κ` and the threads launched so far. -/
structure Handles (κ : Type*) where
  alive : κ → Bool
  cell : κ → Option ℕ
  next : ℕ
  joined : ℕ → ℕ
  detached : ℕ → ℕ

namespace Handles

variable {κ : Type*}

/-- No object, no thread. -/
def empty : Handles κ where
  alive _ := false
  cell _ := none
  next := 0
  joined _ := 0
  detached _ := 0

variable [DecidableEq κ]

/-! ## The operations -/

/-- `std::thread a;` -/
def construct (a : κ) : Prog (Handles κ) ThreadExc Unit := .write fun s =>
  { s with alive := Function.update s.alive a true, cell := Function.update s.cell a none }

/-- `std::thread a(callable, args...);` where the system may fail to start the thread. -/
def launch (a : κ) (starts : Bool) : Prog (Handles κ) ThreadExc Unit := fun s =>
  if starts then
    .ok () { s with
      alive := Function.update s.alive a true
      cell := Function.update s.cell a (some s.next)
      next := s.next + 1 }
  else .threw .resourceUnavailable s

/-- `std::thread a(std::move(b));` -/
def moveConstruct (a b : κ) : Prog (Handles κ) ThreadExc Unit := .write fun s =>
  { s with
    alive := Function.update s.alive a true
    cell := Function.update (Function.update s.cell a (s.cell b)) b none }

/-- `a.joinable()` -/
def joinable (a : κ) : Prog (Handles κ) ThreadExc Bool := .read fun s => (s.cell a).isSome

/-- `a = std::move(b);` -/
def moveAssign (a b : κ) : Prog (Handles κ) ThreadExc Unit := fun s =>
  if (s.cell a).isSome then .terminated
  else .ok () { s with cell := Function.update (Function.update s.cell a (s.cell b)) b none }

/-- `a.swap(b);` -/
def swap (a b : κ) : Prog (Handles κ) ThreadExc Unit := .write fun s =>
  { s with cell := Function.update (Function.update s.cell a (s.cell b)) b (s.cell a) }

/-- `a.join();` once the thread has finished. -/
def join (a : κ) : Prog (Handles κ) ThreadExc Unit := fun s =>
  match s.cell a with
  | none => .threw .invalidArgument s
  | some i => .ok () { s with
      cell := Function.update s.cell a none
      joined := Function.update s.joined i (s.joined i + 1) }

/-- `a.detach();` -/
def detach (a : κ) : Prog (Handles κ) ThreadExc Unit := fun s =>
  match s.cell a with
  | none => .threw .invalidArgument s
  | some i => .ok () { s with
      cell := Function.update s.cell a none
      detached := Function.update s.detached i (s.detached i + 1) }

/-- The destructor. -/
def destroy (a : κ) : Prog (Handles κ) ThreadExc Unit := fun s =>
  if (s.cell a).isSome then .terminated
  else .ok () { s with alive := Function.update s.alive a false }

/-! ## Ownership -/

omit [DecidableEq κ] in
/-- No thread is lost, shared or ended twice. -/
structure Owned (s : Handles κ) : Prop where
  alive : ∀ a i, s.cell a = some i → s.alive a = true
  unique : ∀ a b i, s.cell a = some i → s.cell b = some i → a = b
  pending : ∀ a i, s.cell a = some i → i < s.next ∧ s.joined i + s.detached i = 0
  ended : ∀ i, i < s.next → (∀ a, s.cell a ≠ some i) → s.joined i + s.detached i = 1
  fresh : ∀ i, s.next ≤ i → s.joined i + s.detached i = 0

namespace Owned

variable {s : Handles κ}

omit [DecidableEq κ] in
theorem empty : Owned (Handles.empty (κ := κ)) where
  alive _ _ h := by cases h
  unique _ _ _ h := by cases h
  pending _ _ h := by cases h
  ended _ h := by cases h
  fresh _ _ := rfl

omit [DecidableEq κ] in
theorem cell_eq_none (h : Owned s) {a : κ} (ha : s.alive a = false) : s.cell a = none := by
  rw [Option.eq_none_iff_forall_ne_some]
  intro i hi
  rw [h.alive a i hi] at ha
  cases ha

omit [DecidableEq κ] in
/-- Once no object is alive, every thread was joined or detached exactly once. -/
theorem ended_once (h : Owned s) (hs : ∀ a, s.alive a = false) {i : ℕ} (hi : i < s.next) :
    s.joined i + s.detached i = 1 := by
  refine h.ended i hi fun a ha => ?_
  rw [h.cell_eq_none (hs a)] at ha
  cases ha

omit [DecidableEq κ] in
/-- Objects are created, or destroyed without a thread. -/
theorem set_alive (h : Owned s) {al : κ → Bool} (hal : ∀ a i, s.cell a = some i → al a = true) :
    Owned { s with alive := al } where
  alive := hal
  unique := h.unique
  pending := h.pending
  ended := h.ended
  fresh := h.fresh

/-- A dead object comes to life. -/
theorem set_alive_true (h : Owned s) (a : κ) :
    Owned { s with alive := Function.update s.alive a true } := by
  refine h.set_alive fun b i hb => ?_
  by_cases hba : b = a
  · rw [hba, Function.update_self]
  · rw [Function.update_of_ne hba]
    exact h.alive b i hb

/-- Two live objects exchange what they refer to. -/
theorem exchange (h : Owned s) {a b : κ} (ha : s.alive a = true) (hb : s.alive b = true) :
    Owned { s with cell := s.cell ∘ Equiv.swap a b } where
  alive := by
    intro c i hc
    have hsw : s.alive (Equiv.swap a b c) = true := h.alive _ i hc
    rw [Equiv.swap_apply_def] at hsw
    split_ifs at hsw with hca hcb
    · rw [hca]; exact ha
    · rw [hcb]; exact hb
    · exact hsw
  unique := by
    intro c c' i hc hc'
    exact (Equiv.swap a b).injective (h.unique _ _ i hc hc')
  pending := fun c i hc => h.pending _ i hc
  ended := by
    intro i hi hne
    refine h.ended i hi fun c hc => hne (Equiv.swap a b c) ?_
    dsimp only
    rw [Function.comp_apply, Equiv.swap_apply_self]
    exact hc
  fresh := h.fresh

/-- A new thread, in a live object that refers to none. -/
theorem start (h : Owned s) {a : κ} (ha : s.alive a = true) (hc : s.cell a = none) :
    Owned { s with cell := Function.update s.cell a (some s.next), next := s.next + 1 } where
  alive := by
    intro b i hb
    by_cases hab : b = a
    · rw [hab]; exact ha
    · exact h.alive b i (by simpa only [Function.update_of_ne hab] using hb)
  unique := by
    have hold : ∀ b i, Function.update s.cell a (some s.next) b = some i → i = s.next → b = a := by
      intro b i hb hi
      by_contra hba
      rw [Function.update_of_ne hba, hi] at hb
      have := (h.pending b _ hb).1
      omega
    intro b b' i hb hb'
    by_cases hi : i = s.next
    · exact (hold b i hb hi).trans (hold b' i hb' hi).symm
    · have hne : ∀ x, Function.update s.cell a (some s.next) x = some i → x ≠ a := by
        intro x hx hxa
        rw [hxa, Function.update_self] at hx
        exact hi (Option.some.inj hx).symm
      have hba := hne b hb
      have hba' := hne b' hb'
      simp only [Function.update_of_ne hba] at hb
      simp only [Function.update_of_ne hba'] at hb'
      exact h.unique b b' i hb hb'
  pending := by
    intro b i hb
    dsimp only at hb ⊢
    by_cases hab : b = a
    · rw [hab, Function.update_self] at hb
      cases hb
      exact ⟨Nat.lt_succ_self _, h.fresh _ (Nat.le_refl _)⟩
    · rw [Function.update_of_ne hab] at hb
      have := h.pending b i hb
      omega
  ended := by
    intro i hi hne
    dsimp only at hi hne ⊢
    have hin : i ≠ s.next := by
      intro he
      have := hne a
      rw [Function.update_self, he] at this
      exact this rfl
    refine h.ended i (by omega) fun b hb => hne b ?_
    have hba : b ≠ a := by
      intro he
      rw [he, hc] at hb
      cases hb
    rw [Function.update_of_ne hba]
    exact hb
  fresh := by
    intro i hi
    dsimp only at hi
    exact h.fresh i (by omega)

/-- The thread of an object is joined or detached: its handle ends. -/
theorem finish (h : Owned s) {a : κ} {i : ℕ} (ha : s.cell a = some i) {j d : ℕ → ℕ}
    (hi : j i + d i = 1) (hne : ∀ k, k ≠ i → j k + d k = s.joined k + s.detached k) :
    Owned { s with cell := Function.update s.cell a none, joined := j, detached := d } := by
  have hcell : ∀ b k, Function.update s.cell a none b = some k → b ≠ a ∧ s.cell b = some k := by
    intro b k hb
    by_cases hba : b = a
    · rw [hba, Function.update_self] at hb
      cases hb
    · rw [Function.update_of_ne hba] at hb
      exact ⟨hba, hb⟩
  have hother : ∀ b k, Function.update s.cell a none b = some k → k ≠ i := by
    intro b k hb hk
    obtain ⟨hba, hb⟩ := hcell b k hb
    exact hba (h.unique b a i (hk ▸ hb) ha)
  have hlt := (h.pending a i ha).1
  constructor
  · intro b k hb
    exact h.alive b k (hcell b k hb).2
  · intro b b' k hb hb'
    exact h.unique b b' k (hcell b k hb).2 (hcell b' k hb').2
  · intro b k hb
    dsimp only
    rw [hne k (hother b k hb)]
    exact h.pending b k (hcell b k hb).2
  · intro k hk hnone
    dsimp only at hk hnone ⊢
    by_cases hki : k = i
    · rw [hki]; exact hi
    · rw [hne k hki]
      refine h.ended k hk fun b hb => hnone b ?_
      have hba : b ≠ a := by
        intro he
        rw [he, ha] at hb
        exact hki (Option.some.inj hb).symm
      rw [Function.update_of_ne hba]
      exact hb
  · intro k hk
    dsimp only at hk ⊢
    rw [hne k (by omega)]
    exact h.fresh k hk

end Owned

/-! ## What each operation does -/

omit [DecidableEq κ] in
/-- An owned state with these live objects, cells and detach counts. -/
def At (al : κ → Bool) (c : κ → Option ℕ) (d : ℕ → ℕ) (s : Handles κ) : Prop :=
  Owned s ∧ s.alive = al ∧ s.cell = c ∧ s.detached = d

omit [DecidableEq κ] in
theorem Owned.at_self {s : Handles κ} (h : Owned s) : At s.alive s.cell s.detached s :=
  ⟨h, rfl, rfl, rfl⟩

omit [DecidableEq κ] in
theorem At.cell_eq_none {al : κ → Bool} {c : κ → Option ℕ} {d : ℕ → ℕ} {s : Handles κ}
    (h : At al c d s) {a : κ} (ha : al a = false) : c a = none := by
  obtain ⟨ho, rfl, rfl, rfl⟩ := h
  exact ho.cell_eq_none ha

theorem update_swap (c : κ → Option ℕ) (a b : κ) :
    Function.update (Function.update c a (c b)) b (c a) = c ∘ Equiv.swap a b := by
  funext x
  rw [Function.comp_apply, Equiv.swap_apply_def]
  by_cases hxb : x = b
  · subst hxb
    rw [Function.update_self, if_pos rfl]
    split_ifs with hxa
    · rw [hxa]
    · rfl
  · rw [Function.update_of_ne hxb, if_neg hxb]
    by_cases hxa : x = a
    · rw [hxa, Function.update_self, if_pos rfl]
    · rw [Function.update_of_ne hxa, if_neg hxa]

/-- Moving into an object without a thread exchanges the cells. -/
theorem update_move {c : κ → Option ℕ} {a : κ} (b : κ) (ha : c a = none) :
    Function.update (Function.update c a (c b)) b none = c ∘ Equiv.swap a b := by
  have h := update_swap c a b
  rwa [ha] at h

section Specs

variable {al : κ → Bool} {c : κ → Option ℕ} {d : ℕ → ℕ} {a b : κ}

theorem construct_spec (ha : al a = false) :
    Prog.Triple (At al c d) (construct a) (fun _ => At (Function.update al a true) c d)
      Res.never := by
  refine Prog.Triple.write ?_
  rintro s ⟨h, rfl, rfl, rfl⟩
  rw [show Function.update s.cell a none = s.cell by
    rw [← h.cell_eq_none ha, Function.update_eq_self]]
  exact ⟨h.set_alive_true a, rfl, rfl, rfl⟩

theorem launch_spec (ha : al a = false) (starts : Bool) :
    Prog.Triple (At al c d) (launch a starts)
      (fun _ s => ∃ i, At (Function.update al a true) (Function.update c a (some i)) d s)
      (fun _ s => starts = false ∧ At al c d s) := by
  rintro s ⟨h, rfl, rfl, rfl⟩
  unfold launch
  split
  · have hc := h.cell_eq_none ha
    exact ⟨s.next, (h.set_alive_true a).start (Function.update_self ..) hc, rfl, rfl, rfl⟩
  · next hs => exact ⟨Bool.not_eq_true _ ▸ hs, h, rfl, rfl, rfl⟩

theorem moveConstruct_spec (ha : al a = false) (hb : al b = true) :
    Prog.Triple (At al c d) (moveConstruct a b)
      (fun _ => At (Function.update al a true)
        (Function.update (Function.update c a (c b)) b none) d) Res.never := by
  refine Prog.Triple.write ?_
  rintro s ⟨h, rfl, rfl, rfl⟩
  refine ⟨?_, rfl, rfl, rfl⟩
  rw [update_move b (h.cell_eq_none ha)]
  have hne : b ≠ a := by
    intro he
    rw [he, ha] at hb
    cases hb
  refine (h.set_alive_true a).exchange (Function.update_self ..) ?_
  dsimp only
  rw [Function.update_of_ne hne]
  exact hb

omit [DecidableEq κ] in
theorem joinable_spec :
    Prog.Triple (At al c d) (joinable a) (fun v s => v = (c a).isSome ∧ At al c d s)
      Res.never := by
  refine Prog.Triple.read ?_
  rintro s ⟨h, rfl, rfl, rfl⟩
  exact ⟨rfl, h, rfl, rfl, rfl⟩

theorem moveAssign_spec (ha : al a = true) (hb : al b = true) (hc : c a = none) :
    Prog.Triple (At al c d) (moveAssign a b)
      (fun _ => At al (Function.update (Function.update c a (c b)) b none) d) Res.never := by
  rintro s ⟨h, rfl, rfl, rfl⟩
  unfold moveAssign
  rw [hc]
  refine ⟨?_, rfl, rfl, rfl⟩
  rw [update_move b hc]
  exact h.exchange ha hb

theorem swap_spec (ha : al a = true) (hb : al b = true) :
    Prog.Triple (At al c d) (swap a b)
      (fun _ => At al (Function.update (Function.update c a (c b)) b (c a)) d) Res.never := by
  refine Prog.Triple.write ?_
  rintro s ⟨h, rfl, rfl, rfl⟩
  refine ⟨?_, rfl, rfl, rfl⟩
  rw [update_swap]
  exact h.exchange ha hb

theorem join_spec :
    Prog.Triple (At al c d) (join a)
      (fun _ s => c a ≠ none ∧ At al (Function.update c a none) d s)
      (fun _ s => c a = none ∧ At al c d s) := by
  rintro s ⟨h, rfl, rfl, rfl⟩
  unfold join
  cases hi : s.cell a with
  | none => exact ⟨rfl, h, rfl, rfl, rfl⟩
  | some i =>
      have hp := (h.pending a i hi).2
      refine ⟨Option.some_ne_none i, ?_, rfl, rfl, rfl⟩
      refine h.finish hi ?_ fun k hk => ?_
      · rw [Function.update_self]
        omega
      · rw [Function.update_of_ne hk]

theorem detach_spec :
    Prog.Triple (At al c d) (detach a)
      (fun _ s => ∃ d', At al (Function.update c a none) d' s)
      (fun _ s => c a = none ∧ At al c d s) := by
  rintro s ⟨h, rfl, rfl, rfl⟩
  unfold detach
  cases hi : s.cell a with
  | none => exact ⟨rfl, h, rfl, rfl, rfl⟩
  | some i =>
      have hp := (h.pending a i hi).2
      refine ⟨_, ?_, rfl, rfl, rfl⟩
      refine h.finish hi ?_ fun k hk => ?_
      · rw [Function.update_self]
        omega
      · rw [Function.update_of_ne hk]

theorem destroy_spec (hc : c a = none) :
    Prog.Triple (At al c d) (destroy a) (fun _ => At (Function.update al a false) c d)
      Res.never := by
  rintro s ⟨h, rfl, rfl, rfl⟩
  unfold destroy
  rw [hc]
  refine ⟨?_, rfl, rfl, rfl⟩
  refine h.set_alive fun b i hb => ?_
  have hba : b ≠ a := by
    intro he
    rw [he, hc] at hb
    cases hb
  rw [Function.update_of_ne hba]
  exact h.alive b i hb

end Specs

/-! ## What each operation leaves alone -/

omit [DecidableEq κ] in
/-- Nothing outside `A` was touched. -/
def Same (A : κ → Prop) (s s' : Handles κ) : Prop :=
  ∀ x, ¬ A x → s'.alive x = s.alive x ∧ s'.cell x = s.cell x

namespace Same

variable {A : κ → Prop}

omit [DecidableEq κ] in
theorem refl (s : Handles κ) : Same A s s := fun _ _ => ⟨rfl, rfl⟩

omit [DecidableEq κ] in
theorem trans (s u v : Handles κ) (h : Same A s u) (h' : Same A u v) : Same A s v := by
  intro x hx
  exact ⟨(h' x hx).1.trans (h x hx).1, (h' x hx).2.trans (h x hx).2⟩

theorem construct {a : κ} (ha : A a) : Prog.Within (Same A) (construct a) := by
  intro s s' h x hx
  cases h
  have hxa : x ≠ a := fun he => hx (he ▸ ha)
  exact ⟨Function.update_of_ne hxa .., Function.update_of_ne hxa ..⟩

theorem launch {a : κ} (ha : A a) (starts : Bool) : Prog.Within (Same A) (launch a starts) := by
  intro s s' h x hx
  have hxa : x ≠ a := fun he => hx (he ▸ ha)
  unfold Handles.launch at h
  split at h
  · cases h
    exact ⟨Function.update_of_ne hxa .., Function.update_of_ne hxa ..⟩
  · cases h
    exact ⟨rfl, rfl⟩

theorem moveConstruct {a b : κ} (ha : A a) (hb : A b) :
    Prog.Within (Same A) (moveConstruct a b) := by
  intro s s' h x hx
  cases h
  have hxa : x ≠ a := fun he => hx (he ▸ ha)
  have hxb : x ≠ b := fun he => hx (he ▸ hb)
  refine ⟨Function.update_of_ne hxa .., ?_⟩
  dsimp only
  rw [Function.update_of_ne hxb, Function.update_of_ne hxa]

theorem join {a : κ} (ha : A a) : Prog.Within (Same A) (join a) := by
  intro s s' h x hx
  have hxa : x ≠ a := fun he => hx (he ▸ ha)
  unfold Handles.join at h
  split at h
  · cases h
    exact ⟨rfl, rfl⟩
  · cases h
    exact ⟨rfl, Function.update_of_ne hxa ..⟩

theorem destroy {a : κ} (ha : A a) : Prog.Within (Same A) (destroy a) := by
  intro s s' h x hx
  have hxa : x ≠ a := fun he => hx (he ▸ ha)
  unfold Handles.destroy at h
  split at h
  · cases h
  · cases h
    exact ⟨Function.update_of_ne hxa .., rfl⟩

end Same

end Handles

end Concur
