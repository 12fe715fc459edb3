/-
  std::call_once.

  A `OnceClass` is what is done with an object that is initialized on first use: the callable
  `init`, one statement at a time, and `use`, what a member does behind its call_once. Any number
  of threads call members of any number of objects, each of which has a once_flag:
  * a call_once on an `idle` flag runs the callable; while it is `running` every other call_once
    on the flag waits; on a `finished` flag call_once returns at once;
  * a callable that throws leaves the flag idle, and the exception leaves the member that ran
    it; one that returns leaves the flag finished.

  Proved:
  * `Guarantees.reach`: the rule of call_once. From what the callable does to an object that is
    not initialized, and what the members do to one that is, follows what the objects are like
    in every reachable state; nobody uses an object that is not initialized, and the callable
    does not run twice at a time.
  * `Guarantees.finished`: what the members keep stays for ever, once it is there.
  * `returns`: if the callable and the members come to an end by themselves, and no new calls are
    made, every call returns, also when callables throw.
-/
import CppConcurrency.Lib.Threads

namespace Concur

/-- What a statement of the callable does: go on, return or throw. -/
inductive InitStmt (D Loc E : Type*) where
  | next (d : D) (l : Loc)
  | ret (d : D)
  | throw (d : D) (e : E)

/-- A callable, and the members that pass it to call_once. `B` is what the environment chooses. -/
structure OnceClass (D Op Ret Loc E B : Type*) where
  entry : Loc
  init : Loc → D → B → Option (InitStmt D Loc E)
  use : Op → D → B → Option (D × Except E Ret)

namespace CallOnce

/-- A std::once_flag. -/
inductive Flag (ι : Type*) where
  | idle
  | running (t : ι)
  | finished
  deriving DecidableEq, Repr

/-- Where a thread stands in a member of the object `q`. -/
inductive Pc (κ Op Ret Loc E : Type*) where
  | rest (last : Option (Except E Ret))
  | callOnce (q : κ) (op : Op)
  | init (q : κ) (op : Op) (l : Loc)
  | use (q : κ) (op : Op)

/-- The objects and their flags. -/
structure Objects (ι κ D : Type*) where
  flag : κ → Flag ι
  data : κ → D

/-- A thread calls a member, or goes on. -/
inductive Choice (κ Op B : Type*) where
  | call (q : κ) (op : Op)
  | go (b : B)

variable {ι κ D Op Ret Loc E B : Type*} [DecidableEq κ]

def Objects.put (d : Objects ι κ D) (q : κ) (f : Flag ι) (x : D) : Objects ι κ D where
  flag := Function.update d.flag q f
  data := Function.update d.data q x

/-- The next step of a thread. -/
def next (C : OnceClass D Op Ret Loc E B) (t : ι) (l : Pc κ Op Ret Loc E) (d : Objects ι κ D)
    (b : Choice κ Op B) : Option (Pc κ Op Ret Loc E × Objects ι κ D) :=
  match l, b with
  | .rest _, .call q op => some (.callOnce q op, d)
  | .callOnce q op, .go _ =>
      match d.flag q with
      | .idle => some (.init q op C.entry, d.put q (.running t) (d.data q))
      | .running _ => none
      | .finished => some (.use q op, d)
  | .init q op l, .go b =>
      match C.init l (d.data q) b with
      | some (.next x l') => some (.init q op l', d.put q (d.flag q) x)
      | some (.ret x) => some (.use q op, d.put q .finished x)
      | some (.throw x e) => some (.rest (some (.error e)), d.put q .idle x)
      | none => none
  | .use q op, .go b =>
      match C.use op (d.data q) b with
      | some (x, r) => some (.rest (some r), d.put q (d.flag q) x)
      | none => none
  | _, _ => none

variable [DecidableEq ι]

/-- Threads that use the objects, which are in the state `d₀` before they are initialized. -/
def sys (C : OnceClass D Op Ret Loc E B) (d₀ : κ → D) :
    Lts (Conf ι (Pc κ Op Ret Loc E) (Objects ι κ D)) (ι × Choice κ Op B) :=
  threads (next C) (fun _ => .rest none) (· = ⟨fun _ => .idle, d₀⟩)

variable {C : OnceClass D Op Ret Loc E B} {d₀ : κ → D} {t u : ι} {q p : κ} {op : Op}
  {l l' : Pc κ Op Ret Loc E} {d d' : Objects ι κ D} {b : Choice κ Op B} {f : Flag ι} {x : D}

omit [DecidableEq ι] in
theorem put_flag (hp : p ≠ q) : (d.put q f x).flag p = d.flag p := Function.update_of_ne hp ..

omit [DecidableEq ι] in
theorem put_data (hp : p ≠ q) : (d.put q f x).data p = d.data p := Function.update_of_ne hp ..

omit [DecidableEq ι] in
@[simp] theorem put_flag_self : (d.put q f x).flag q = f := Function.update_self ..

omit [DecidableEq ι] in
@[simp] theorem put_data_self : (d.put q f x).data q = x := Function.update_self ..

/-! ## What a step can be -/

/-- The cases of a step of thread `t`. -/
inductive Moves (C : OnceClass D Op Ret Loc E B) (t : ι) (d : Objects ι κ D) :
    Pc κ Op Ret Loc E → Pc κ Op Ret Loc E → Objects ι κ D → Prop
  | call (last : Option (Except E Ret)) (q : κ) (op : Op) :
      Moves C t d (.rest last) (.callOnce q op) d
  | begin (q : κ) (op : Op) (hf : d.flag q = .idle) :
      Moves C t d (.callOnce q op) (.init q op C.entry) (d.put q (.running t) (d.data q))
  | passed (q : κ) (op : Op) (hf : d.flag q = .finished) :
      Moves C t d (.callOnce q op) (.use q op) d
  | next (q : κ) (op : Op) (k k' : Loc) (c : B) (y : D)
      (hi : C.init k (d.data q) c = some (.next y k')) :
      Moves C t d (.init q op k) (.init q op k') (d.put q (d.flag q) y)
  | ret (q : κ) (op : Op) (k : Loc) (c : B) (y : D) (hi : C.init k (d.data q) c = some (.ret y)) :
      Moves C t d (.init q op k) (.use q op) (d.put q .finished y)
  | threw (q : κ) (op : Op) (k : Loc) (c : B) (y : D) (e : E)
      (hi : C.init k (d.data q) c = some (.throw y e)) :
      Moves C t d (.init q op k) (.rest (some (.error e))) (d.put q .idle y)
  | used (q : κ) (op : Op) (c : B) (y : D) (r : Except E Ret)
      (hu : C.use op (d.data q) c = some (y, r)) :
      Moves C t d (.use q op) (.rest (some r)) (d.put q (d.flag q) y)

omit [DecidableEq ι] in
theorem moves_of_next (h : next C t l d b = some (l', d')) : Moves C t d l l' d' := by
  unfold next at h
  split at h
  · cases h
    exact .call ..
  · split at h
    · next hf =>
        cases h
        exact .begin _ _ hf
    · cases h
    · next hf =>
        cases h
        exact .passed _ _ hf
  · split at h
    · next hi =>
        cases h
        exact .next _ _ _ _ _ _ hi
    · next hi =>
        cases h
        exact .ret _ _ _ _ _ hi
    · next hi =>
        cases h
        exact .threw _ _ _ _ _ _ hi
    · cases h
  · split at h
    · next hu =>
        cases h
        exact .used _ _ _ _ _ hu
    · cases h
  · cases h

/-! ## The rule of call_once -/

/-- What the callable does to an object that is not initialized (`Fresh`), through places
    `During`, and the members to one that is (`Ready`). -/
structure Guarantees (C : OnceClass D Op Ret Loc E B) (Fresh : κ → D → Prop)
    (During : κ → Loc → D → Prop) (Ready : κ → D → Prop) : Prop where
  entry : ∀ {q d}, Fresh q d → During q C.entry d
  next : ∀ {q k d b x k'}, During q k d → C.init k d b = some (.next x k') → During q k' x
  ret : ∀ {q k d b x}, During q k d → C.init k d b = some (.ret x) → Ready q x
  throw : ∀ {q k d b x e}, During q k d → C.init k d b = some (.throw x e) → Fresh q x
  use : ∀ {q op d b x r}, Ready q d → C.use op d b = some (x, r) → Ready q x

/-- The object whose callable a thread is running. -/
def Pc.inits : Pc κ Op Ret Loc E → Option κ
  | .init q _ _ => some q
  | _ => none

/-- An object is initialized once its flag is finished, and not before. -/
def Sound (Fresh Ready : κ → D → Prop) (d : Objects ι κ D) : Prop :=
  ∀ q, (d.flag q = .idle → Fresh q (d.data q)) ∧ (d.flag q = .finished → Ready q (d.data q))

/-- What holds while thread `t` is at place `l`. -/
structure Place (During : κ → Loc → D → Prop) (t : ι) (l : Pc κ Op Ret Loc E)
    (d : Objects ι κ D) : Prop where
  running : ∀ q, d.flag q = .running t ↔ l.inits = some q
  during : ∀ q op k, l = .init q op k → During q k (d.data q)
  behind : ∀ q op, l = .use q op → d.flag q = .finished

variable {Fresh Ready : κ → D → Prop} {During : κ → Loc → D → Prop}

omit [DecidableEq ι] in
theorem Sound.put (h : Sound Fresh Ready d) (hx : f = .idle → Fresh q x)
    (hx' : f = .finished → Ready q x) : Sound Fresh Ready (d.put q f x) := by
  intro p
  by_cases hp : p = q
  · subst hp
    rw [put_flag_self, put_data_self]
    exact ⟨hx, hx'⟩
  · rw [put_flag hp, put_data hp]
    exact h p

omit [DecidableEq ι] in
/-- A thread comes to a place, and touches the object that it is about to work on. -/
theorem Place.put (h : Place During t l d) (hold : ∀ p, p ≠ q → l.inits ≠ some p)
    (hflag : f = .running t ↔ l'.inits = some q) (hnew : ∀ p, p ≠ q → l'.inits ≠ some p)
    (hduring : ∀ p op k, l' = .init p op k → p = q ∧ During q k x)
    (hbehind : ∀ p op, l' = .use p op → p = q ∧ f = .finished) :
    Place During t l' (d.put q f x) where
  running p := by
    by_cases hp : p = q
    · subst hp
      rw [put_flag_self]
      exact hflag
    · rw [put_flag hp]
      exact iff_of_false (fun hr => hold p hp ((h.running p).mp hr)) (hnew p hp)
  during p op k hl := by
    obtain ⟨rfl, hd⟩ := hduring p op k hl
    rwa [put_data_self]
  behind p op hl := by
    obtain ⟨rfl, hf⟩ := hbehind p op hl
    rwa [put_flag_self]

omit [DecidableEq κ] [DecidableEq ι] in
theorem Place.idle (h : Place During t l d) (hl : l.inits = none) (p : κ) :
    d.flag p ≠ .running t := by
  intro hf
  rw [(h.running p).mp hf] at hl
  cases hl

omit [DecidableEq ι] in
theorem place_own (hC : Guarantees C Fresh During Ready) (hs : Sound Fresh Ready d)
    (h : Place During t l d) (hm : Moves C t d l l' d') :
    Sound Fresh Ready d' ∧ Place During t l' d' := by
  cases hm with
  | call last q op =>
      refine ⟨hs, fun p => iff_of_false (h.idle rfl p) nofun, nofun, nofun⟩
  | begin q op hf =>
      refine ⟨hs.put nofun nofun, h.put nofun (iff_of_true rfl rfl) ?_ ?_ nofun⟩
      · rintro p hp ⟨⟩
        exact hp rfl
      · rintro p op k ⟨⟩
        exact ⟨rfl, hC.entry ((hs q).1 hf)⟩
  | passed q op hf =>
      refine ⟨hs, fun p => iff_of_false (h.idle rfl p) nofun, nofun, ?_⟩
      rintro p op ⟨⟩
      exact hf
  | next q op k k' c y hi =>
      have hf := (h.running q).mpr rfl
      rw [hf]
      refine ⟨hs.put nofun nofun, h.put ?_ (iff_of_true rfl rfl) ?_ ?_ nofun⟩
      · rintro p hp ⟨⟩
        exact hp rfl
      · rintro p hp ⟨⟩
        exact hp rfl
      · rintro p op' k'' ⟨⟩
        exact ⟨rfl, hC.next (h.during q op k rfl) hi⟩
  | ret q op k c y hi =>
      refine ⟨hs.put nofun fun _ => hC.ret (h.during q op k rfl) hi,
        h.put ?_ (iff_of_false nofun nofun) nofun nofun ?_⟩
      · rintro p hp ⟨⟩
        exact hp rfl
      · rintro p op' ⟨⟩
        exact ⟨rfl, rfl⟩
  | threw q op k c y e hi =>
      refine ⟨hs.put (fun _ => hC.throw (h.during q op k rfl) hi) nofun,
        h.put ?_ (iff_of_false nofun nofun) nofun nofun nofun⟩
      rintro p hp ⟨⟩
      exact hp rfl
  | used q op c y r hu =>
      have hf := h.behind q op rfl
      rw [hf]
      exact ⟨hs.put nofun fun _ => hC.use ((hs q).2 hf) hu,
        h.put nofun (iff_of_false nofun nofun) nofun nofun nofun⟩

/-- What a step of `t` does to the flag of the object it touches. -/
inductive Turns (t : ι) : Flag ι → Flag ι → Prop
  | begin : Turns t .idle (.running t)
  | goOn : Turns t (.running t) (.running t)
  | ret : Turns t (.running t) .finished
  | threw : Turns t (.running t) .idle
  | stay : Turns t .finished .finished

omit [DecidableEq ι] in
/-- A step touches one object at most. -/
theorem Moves.touches (hm : Moves C t d l l' d') (h : Place During t l d) :
    d' = d ∨ ∃ q f x, d' = d.put q f x ∧ Turns t (d.flag q) f := by
  cases hm with
  | call | passed => exact .inl rfl
  | begin q op hf =>
      refine .inr ⟨q, _, _, rfl, ?_⟩
      rw [hf]
      exact .begin
  | next q op =>
      refine .inr ⟨q, _, _, rfl, ?_⟩
      rw [(h.running q).mpr rfl]
      exact .goOn
  | ret q op =>
      refine .inr ⟨q, _, _, rfl, ?_⟩
      rw [(h.running q).mpr rfl]
      exact .ret
  | threw q op =>
      refine .inr ⟨q, _, _, rfl, ?_⟩
      rw [(h.running q).mpr rfl]
      exact .threw
  | used q op =>
      refine .inr ⟨q, _, _, rfl, ?_⟩
      rw [h.behind q op rfl]
      exact .stay

omit [DecidableEq ι] in
theorem place_other {k : Pc κ Op Ret Loc E} (h : Place During t k d) (hu : Place During u l d)
    (hne : u ≠ t) (hm : Moves C u d l l' d') : Place During t k d' := by
  rcases hm.touches hu with rfl | ⟨q, f, x, rfl, ht⟩
  · exact h
  have hkeep (p : κ) : (d.put q f x).flag p = .running t ↔ d.flag p = .running t := by
    by_cases hp : p = q
    · subst hp
      rw [put_flag_self]
      generalize d.flag p = g at ht
      cases ht <;> simp [hne]
    · rw [put_flag hp]
  refine ⟨fun p => (hkeep p).trans (h.running p), fun p op k hl => ?_, fun p op hl => ?_⟩
  · have hf := (h.running p).mpr (by rw [hl]; rfl)
    have hp : p ≠ q := by
      rintro rfl
      rw [hf] at ht
      cases ht <;> exact hne rfl
    rw [put_data hp]
    exact h.during p op k hl
  · have hf := h.behind p op hl
    by_cases hp : p = q
    · subst hp
      rw [hf] at ht
      rw [put_flag_self]
      cases ht
      rfl
    · rwa [put_flag hp]

/-- **The rule of call_once.** -/
theorem Guarantees.reach (hC : Guarantees C Fresh During Ready) (h₀ : ∀ q, Fresh q (d₀ q))
    {c : Conf ι (Pc κ Op Ret Loc E) (Objects ι κ D)} (h : (sys C d₀).Reachable c) :
    Sound Fresh Ready c.shared ∧ ∀ t, Place During t (c.loc t) c.shared := by
  refine Threads.invariant ?_ ?_ ?_ h
  · rintro d rfl
    refine ⟨fun q => ⟨fun _ => h₀ q, nofun⟩, fun t => ⟨fun q => ?_, nofun, nofun⟩⟩
    exact iff_of_false nofun nofun
  · intro t l d b l' d' hs ht hn
    exact place_own hC hs ht (moves_of_next hn)
  · intro t u l k d b k' d' hne _ ht hu hn
    exact place_other ht hu hne (moves_of_next hn)

omit [DecidableEq ι] in
theorem finished_step {R : D → Prop} {q : κ}
    (hR : ∀ op x b y r, R x → C.use op x b = some (y, r) → R y) (h : Place During t l d)
    (hf : d.flag q = .finished) (hd : R (d.data q)) (hm : Moves C t d l l' d') :
    d'.flag q = .finished ∧ R (d'.data q) := by
  by_cases hq : ∃ op, l = .use q op
  · obtain ⟨op, rfl⟩ := hq
    cases hm with
    | used _ _ c y r hu =>
        rw [put_flag_self, put_data_self]
        exact ⟨hf, hR op _ c y r hd hu⟩
  · have hne {p : κ} (hp : d.flag p ≠ .finished) : q ≠ p := by
      rintro rfl
      exact hp hf
    cases hm with
    | call | passed => exact ⟨hf, hd⟩
    | begin p op hi =>
        have hp := hne (by rw [hi]; nofun)
        rw [put_flag hp, put_data hp]
        exact ⟨hf, hd⟩
    | next p | ret p | threw p =>
        have hp := hne (p := p) (by rw [(h.running p).mpr rfl]; nofun)
        rw [put_flag hp, put_data hp]
        exact ⟨hf, hd⟩
    | used p op =>
        have hp : q ≠ p := by
          rintro rfl
          exact hq ⟨op, rfl⟩
        rw [put_flag hp, put_data hp]
        exact ⟨hf, hd⟩

/-- Once initialized, an object is changed by its members only. -/
theorem Guarantees.finished (hC : Guarantees C Fresh During Ready) (h₀ : ∀ q, Fresh q (d₀ q))
    {R : D → Prop} (hR : ∀ op x b y r, R x → C.use op x b = some (y, r) → R y)
    {c c' : Conf ι (Pc κ Op Ret Loc E) (Objects ι κ D)} (h : (sys C d₀).Reachable c) {q : κ}
    (hf : c.shared.flag q = .finished) (hd : R (c.shared.data q)) {as : List (ι × Choice κ Op B)}
    (hc : (sys C d₀).exec Lts.anyStep c as = some c') :
    c'.shared.flag q = .finished ∧ R (c'.shared.data q) := by
  refine (Lts.exec_keeps (P := fun c => (sys C d₀).Reachable c ∧
    c.shared.flag q = .finished ∧ R (c.shared.data q)) ?_ ⟨h, hf, hd⟩ hc).2
  rintro c ⟨t, b⟩ c' ⟨hc, hf, hd⟩ _ hs
  refine ⟨.next hc trivial hs, ?_⟩
  obtain ⟨l, d, hn, rfl⟩ := Threads.step_eq_some hs
  exact finished_step hR ((hC.reach h₀ hc).2 t) hf hd (moves_of_next hn)

/-! ## Progress -/

/-- A thread between two calls. -/
def Pc.Rest : Pc κ Op Ret Loc E → Prop
  | .rest _ => True
  | _ => False

instance : DecidablePred (Pc.Rest : Pc κ Op Ret Loc E → Prop) := by
  intro l
  cases l <;> unfold Pc.Rest <;> infer_instance

/-- The callable comes to an end by itself, in fewer than `n` steps, and so do the members. -/
structure Ends (C : OnceClass D Op Ret Loc E B) (During : κ → Loc → D → Prop)
    (Ready : κ → D → Prop) (left : Loc → ℕ) (n : ℕ) : Prop where
  short : ∀ k, left k < n
  down : ∀ {k d b x k'}, C.init k d b = some (.next x k') → left k' < left k
  init : ∀ {q k d}, During q k d → ∃ b, C.init k d b ≠ none
  use : ∀ op {q d}, Ready q d → ∃ b, C.use op d b ≠ none

/-- The steps a call has left. -/
def Pc.left (left : Loc → ℕ) (n : ℕ) : Pc κ Op Ret Loc E → ℕ
  | .rest _ => 0
  | .use _ _ => 1
  | .init _ _ k => left k + 2
  | .callOnce _ _ => n + 2

variable {left : Loc → ℕ} {n : ℕ}

omit [DecidableEq ι] in
theorem Moves.left_lt (he : Ends C During Ready left n) (hl : ¬ l.Rest)
    (hm : Moves C t d l l' d') : l'.left left n < l.left left n := by
  cases hm with
  | call => exact absurd trivial hl
  | begin => exact Nat.add_lt_add_right (he.short C.entry) 2
  | passed => exact Nat.lt_add_left n (Nat.lt_succ_self 1)
  | next q op k k' c y hi => exact Nat.add_lt_add_right (he.down hi) 2
  | ret => exact Nat.lt_add_left _ (Nat.lt_succ_self 1)
  | threw => exact Nat.succ_pos _
  | used => exact Nat.succ_pos 0

omit [DecidableEq ι] in
/-- A thread that is running a callable, or is behind it, can go on. -/
theorem next_ne_none (he : Ends C During Ready left n) (hs : Sound Fresh Ready d)
    (h : Place During t l d) (hl : ¬ l.Rest) (hwait : ∀ q op, l ≠ .callOnce q op) :
    ∃ b, next C t l d b ≠ none := by
  cases l with
  | rest last => exact absurd trivial hl
  | callOnce q op => exact absurd rfl (hwait q op)
  | init q op k =>
      obtain ⟨b, hb⟩ := he.init (h.during q op k rfl)
      refine ⟨.go b, ?_⟩
      obtain ⟨x, hx⟩ := Option.ne_none_iff_exists'.mp hb
      cases x <;> simp [next, hx]
  | use q op =>
      obtain ⟨b, hb⟩ := he.use op ((hs q).2 (h.behind q op rfl))
      refine ⟨.go b, ?_⟩
      obtain ⟨x, hx⟩ := Option.ne_none_iff_exists'.mp hb
      simp [next, hx]

omit [DecidableEq ι] in
/-- While a call is in progress some call can go on: the one that runs the callable a thread
    waits for, or the thread itself. -/
theorem next_of_busy [Nonempty B] (he : Ends C During Ready left n)
    {c : Conf ι (Pc κ Op Ret Loc E) (Objects ι κ D)} (hs : Sound Fresh Ready c.shared)
    (h : ∀ t, Place During t (c.loc t) c.shared) (ht : ¬ (c.loc t).Rest) :
    ∃ u b, ¬ (c.loc u).Rest ∧ next C u (c.loc u) c.shared b ≠ none := by
  by_cases hwait : ∃ q op, c.loc t = .callOnce q op
  · obtain ⟨q, op, hl⟩ := hwait
    cases hf : c.shared.flag q with
    | idle | finished =>
        obtain ⟨b⟩ := ‹Nonempty B›
        refine ⟨t, .go b, ht, ?_⟩
        rw [hl]
        simp only [next, hf]
        nofun
    | running u =>
        have hu := ((h u).running q).mp hf
        have hinit : ∃ q op k, c.loc u = .init q op k := by
          cases hlu : c.loc u with
          | init q op k => exact ⟨q, op, k, rfl⟩
          | rest | callOnce | use =>
              rw [hlu] at hu
              cases hu
        obtain ⟨q', op', k, hlu⟩ := hinit
        have hrest : ¬ (c.loc u).Rest := by
          rw [hlu]
          exact id
        obtain ⟨b, hb⟩ := next_ne_none he hs (h u) hrest (by rw [hlu]; nofun)
        exact ⟨u, b, hrest, hb⟩
  · obtain ⟨b, hb⟩ := next_ne_none he hs (h t) ht fun q op hl => hwait ⟨q, op, hl⟩
    exact ⟨t, b, ht, hb⟩

/-- **Every call returns**, in any order of steps, if no new calls are made. -/
theorem returns [Fintype ι] [Nonempty B] (hC : Guarantees C Fresh During Ready)
    (he : Ends C During Ready left n) (h₀ : ∀ q, Fresh q (d₀ q))
    {c : Conf ι (Pc κ Op Ret Loc E) (Objects ι κ D)} (h : (sys C d₀).Reachable c) :
    (sys C d₀).Finishes (Threads.Busy Pc.Rest) (fun c => ∀ t, (c.loc t).Rest)
      (sumAt (Pc.left left n) c.loc) c := by
  refine Threads.finishes (P := (sys C d₀).Reachable) (κ := fun _ => 0) ?_ ?_ ?_ h
  · intro c t b c' hc _ hs
    exact .next hc trivial hs
  · intro c t b l d _ hl hn
    exact (moves_of_next hn).left_lt he hl
  · intro c t hc ht
    obtain ⟨hs, hp⟩ := hC.reach h₀ hc
    exact next_of_busy he hs hp ht

end CallOnce

end Concur
