/-
  The examples of Atomic/memory_modes.cpp.

  Model. Threads with a fixed list of statements each, on the atomics `x` and `y`, with all
  accesses in the same mode.

  Proved:
  * `loads_monotone`: "The assert cannot fail. Once the store of 2 is seen by Thread 2, it can no
    longer see the value 1", for all values that do not decrease, any number of readers and any
    number of loads, in every mode.
  * `summary_fail_iff`: of the asserts of the summary, that of thread 2 can fail if and only if
    the mode is relaxed, as the comments say; and so can that of thread 3. Here the comments say
    that it can fail in acquire/release mode too, but thread 1 synchronizes with thread 2 and
    thread 2 with thread 3, and so 10 in `x` has happened before.
  * `independent_passed_iff`: of the readers of independent writes, "both of these asserts can
    pass", as long as the mode is not sequentially consistent or the readers look at the atomics
    in the same order. They do in the example, so it does not tell the modes apart.
-/
import CppConcurrency.Lib.Memory
import CppConcurrency.Lib.Threads

namespace CppConcurrency.MemoryModes

open Concur Memory

inductive Atomic where
  | x
  | y
  deriving DecidableEq, Repr

/-- The statements of the examples. -/
inductive Stmt (V : Type*) where
  /-- `a.store(v)` -/
  | store (a : Atomic) (v : V)
  /-- `a.load()`, into a variable -/
  | load (a : Atomic)
  /-- `if (a.load() == v)`, around what follows -/
  | when (a : Atomic) (v : V)
  /-- `assert(a.load() == v)` -/
  | assert (a : Atomic) (v : V)

/-- Where a thread stands: what it has still to do, what it has loaded, whether an assert has
    failed, and what it knows. -/
structure Place (ι V : Type*) where
  rest : List (Stmt V)
  loaded : List V
  failed : Bool
  know : Know ι Atomic

/-- The memory of the examples has no plain cells. -/
abbrev Mem (ι V : Type*) := Memory ι Atomic V Empty Unit

variable {ι V : Type*} [DecidableEq V]

/-- The next statement. `time` is which write a load reads, and where a store goes. -/
def next (m : MemoryMode) (_ : ι) (l : Place ι V) (d : Mem ι V) (time : ℕ) :
    Option (Place ι V × Mem ι V) :=
  match l.rest with
  | [] => none
  | .store a v :: rest =>
      (store m d l.know a v time).map fun r => ({ l with rest := rest, know := r.1 }, r.2)
  | .load a :: rest =>
      (load m d l.know a time).map fun r =>
        ({ l with rest := rest, loaded := l.loaded ++ [r.1], know := r.2 }, d)
  | .when a v :: rest =>
      (load m d l.know a time).map fun r =>
        ({ l with rest := if r.1 = v then rest else [], know := r.2 }, d)
  | .assert a v :: rest =>
      (load m d l.know a time).map fun r =>
        ({ l with rest := if r.1 = v then rest else [], failed := decide (r.1 ≠ v), know := r.2 },
          d)

/-- Threads with the statements `prog`, on atomics that are `v₀` initially. -/
def sys [DecidableEq ι] (m : MemoryMode) (prog : ι → List (Stmt V)) (v₀ : V) :
    Lts (Conf ι (Place ι V) (Mem ι V)) (ι × ℕ) :=
  threads (next m) (fun t => ⟨prog t, [], false, ⊥⟩)
    fun d => d = Memory.initial (fun _ => v₀) Empty.elim

variable {m : MemoryMode} {t : ι} {l l' : Place ι V} {d d' : Mem ι V} {time : ℕ}

/-- A step adds at most the write of the store that is next. -/
theorem mem_of_next (h : next m t l d time = some (l', d')) {a : Atomic}
    {w : Write ι Atomic V} (hw : w ∈ d'.atomic a) :
    w ∈ d.atomic a ∨ ∃ rest, l.rest = .store a w.val :: rest := by
  unfold next at h
  split at h
  case h_1 => cases h
  case h_2 a' v rest hl =>
    obtain ⟨⟨k, mem⟩, hs, he⟩ := Option.map_eq_some_iff.mp h
    cases he
    rcases mem_of_store hs hw with hw | ⟨rfl, -, rfl, -⟩
    · exact .inl hw
    · exact .inr ⟨rest, hl⟩
  all_goals
    obtain ⟨_, -, he⟩ := Option.map_eq_some_iff.mp h
    cases he
    exact .inl hw

/-- Writes stay. -/
theorem mem_next (h : next m t l d time = some (l', d')) {a : Atomic} {w : Write ι Atomic V}
    (hw : w ∈ d.atomic a) : w ∈ d'.atomic a := by
  unfold next at h
  split at h
  case h_1 => cases h
  case h_2 a' v rest hl =>
    obtain ⟨⟨k, mem⟩, hs, he⟩ := Option.map_eq_some_iff.mp h
    cases he
    exact mem_store hs hw
  all_goals
    obtain ⟨_, -, he⟩ := Option.map_eq_some_iff.mp h
    cases he
    exact hw

/-! ## Loads of one atomic -/

section Monotone

variable [Preorder V]

/-- `none` stores the values `vs` in `x`, and `some i` loads `x` `n i` times. -/
def loads (vs : List V) (n : ι → ℕ) : Option ι → List (Stmt V)
  | none => vs.map (.store .x)
  | some i => List.replicate (n i) (.load .x)

/-- Later writes of `x` do not have smaller values. -/
def Grows (d : Mem ι V) : Prop :=
  ∀ w ∈ d.atomic .x, ∀ w' ∈ d.atomic .x, w.time ≤ w'.time → w.val ≤ w'.val

/-- What holds at the places of the threads. -/
inductive Assert (d : Mem (Option ι) V) : Option ι → Place (Option ι) V → Prop
  /-- The writer knows all writes, and has only larger values left. -/
  | writer (vs : List V) (loaded : List V) (failed : Bool) (k : Know (Option ι) Atomic)
      (hvs : vs.Pairwise (· ≤ ·))
      (hd : ∀ w ∈ d.atomic .x, w.time ≤ k.1 .x ∧ ∀ v ∈ vs, w.val ≤ v) :
      Assert d none ⟨vs.map (.store .x), loaded, failed, k⟩
  /-- What a reader has loaded is in order, and is known to it. -/
  | reader (i : ι) (n : ℕ) (loaded : List V) (failed : Bool) (k : Know (Option ι) Atomic)
      (hmono : loaded.Pairwise (· ≤ ·))
      (hd : ∀ v ∈ loaded, ∃ w ∈ d.atomic .x, w.val = v ∧ w.time ≤ k.1 .x) :
      Assert d (some i) ⟨List.replicate n (.load .x), loaded, failed, k⟩

theorem assert_own {t : Option ι} {l l' : Place (Option ι) V} {d d' : Mem (Option ι) V}
    (hI : Grows d) (hA : Assert d t l) (h : next m t l d time = some (l', d')) :
    Grows d' ∧ Assert d' t l' := by
  cases hA with
  | writer vs loaded failed k hvs hd =>
      cases vs with
      | nil => cases h
      | cons v vs =>
          obtain ⟨⟨k', mem⟩, hs, he⟩ := Option.map_eq_some_iff.mp h
          cases he
          obtain ⟨hv, hvs⟩ := List.pairwise_cons.mp hvs
          obtain ⟨hlt, hk, -⟩ := store_eq_some (k := k) hs
          have hself : k'.1 .x = time := by
            rw [hk]
            exact Know.saw_self k .x time
          constructor
          · intro w hw w' hw' hle
            rcases mem_of_store hs hw with hw | ⟨-, htime, hval, -⟩
            · rcases mem_of_store hs hw' with hw' | ⟨-, -, hval', -⟩
              · exact hI w hw w' hw' hle
              · rw [hval']
                exact (hd w hw).2 v List.mem_cons_self
            · rcases mem_of_store hs hw' with hw' | ⟨-, -, hval', -⟩
              · -- an old write is before the new one
                have hold := (hd w' hw').1
                omega
              · rw [hval, hval']
          · refine .writer vs loaded failed k' hvs fun w hw => ?_
            rw [hself]
            rcases mem_of_store hs hw with hw | ⟨-, htime, hval, -⟩
            · exact ⟨(hd w hw).1.trans hlt.le,
                fun v' hv' => (hd w hw).2 v' (List.mem_cons_of_mem _ hv')⟩
            · rw [hval]
              exact ⟨htime.le, hv⟩
  | reader i n loaded failed k hmono hd =>
      cases n with
      | zero => cases h
      | succ n =>
          obtain ⟨⟨v, k'⟩, hload, he⟩ := Option.map_eq_some_iff.mp h
          cases he
          refine ⟨hI, ?_⟩
          obtain ⟨w, hw, htime, hval, hle, hk, -⟩ := load_eq_some (k := k) hload
          have hknow : w.time ≤ k'.1 .x := htime.trans_le (Know.le_of_saw_le hk)
          refine .reader i n _ failed k' ?_ fun v' hv' => ?_
          · refine List.pairwise_append.mpr ⟨hmono, List.pairwise_singleton .., ?_⟩
            intro v' hv' u hu
            obtain ⟨w', hw', hval', htime'⟩ := hd v' hv'
            rw [List.mem_singleton.mp hu, ← hval, ← hval']
            exact hI w' hw' w hw (by omega)
          · rcases List.mem_append.mp hv' with hv' | hv'
            · obtain ⟨w', hw', hval', htime'⟩ := hd v' hv'
              exact ⟨w', hw', hval', by omega⟩
            · rw [List.mem_singleton.mp hv']
              exact ⟨w, hw, hval, hknow⟩

theorem assert_other {t u : Option ι} {l k k' : Place (Option ι) V} {d d' : Mem (Option ι) V}
    (hne : u ≠ t) (hA : Assert d t l) (hB : Assert d u k)
    (h : next m u k d time = some (k', d')) : Assert d' t l := by
  cases hA with
  | writer vs loaded failed know hvs hd =>
      refine .writer vs loaded failed know hvs fun w hw => hd w ?_
      cases hB with
      | writer => exact absurd rfl hne
      | reader i n loaded failed k =>
          -- a reader does not store
          rcases mem_of_next h hw with hw | ⟨rest, hrest⟩
          · exact hw
          · cases n with
            | zero => cases hrest
            | succ n => cases hrest
  | reader i n loaded failed know hmono hd =>
      refine .reader i n loaded failed know hmono fun v hv => ?_
      obtain ⟨w, hw, hval, htime⟩ := hd v hv
      exact ⟨w, mem_next h hw, hval, htime⟩

/-- **No reader sees an earlier value again.** Whatever the mode, the values and the number of
    readers: if the stores do not decrease, the initial value included, then what a reader loads
    does not either. -/
theorem loads_monotone [DecidableEq ι] (m : MemoryMode) (v₀ : V) (vs : List V)
    (hvs : (v₀ :: vs).Pairwise (· ≤ ·)) (n : ι → ℕ)
    {c : Conf (Option ι) (Place (Option ι) V) (Mem (Option ι) V)}
    (h : (sys m (loads vs n) v₀).Reachable c) (i : ι) :
    (c.loc (some i)).loaded.Pairwise (· ≤ ·) := by
  have hA := (Threads.invariant (I := Grows) (A := fun t l d => Assert d t l) ?_ ?_ ?_ h).2 (some i)
  · generalize c.loc (some i) = l at hA
    cases hA with
    | reader _ _ _ _ _ hmono => exact hmono
  · rintro d rfl
    obtain ⟨hv₀, hvs⟩ := List.pairwise_cons.mp hvs
    refine ⟨fun w hw w' hw' _ => ?_, fun t => ?_⟩
    · rw [List.mem_singleton.mp hw, List.mem_singleton.mp hw']
    · cases t with
      | none =>
          refine .writer vs [] false ⊥ hvs fun w hw => ?_
          rw [List.mem_singleton.mp hw]
          exact ⟨le_rfl, hv₀⟩
      | some i => exact .reader i (n i) [] false ⊥ .nil nofun
  · intro t l d time l' d' hI hA hs
    exact assert_own hI hA hs
  · intro t u l k d time k' d' hne _ hA hB hs
    exact assert_other hne hA hB hs

/-- A reader loads 1 and then 2. -/
theorem loads_monotone_oneTwo :
    ∃ c : Conf (Option Unit) (Place (Option Unit) ℕ) (Mem (Option Unit) ℕ),
      (c.loc (some ())).loaded = [1, 2] ∧ (c.loc (some ())).loaded.Pairwise (· ≤ ·) := by
  let M := sys .relaxed (loads [1, 2] fun _ : Unit => 2) 0
  let c₀ : Conf (Option Unit) (Place (Option Unit) ℕ) (Mem (Option Unit) ℕ) :=
    ⟨fun t => ⟨loads [1, 2] (fun _ => 2) t, [], false, ⊥⟩, Memory.initial (fun _ => 0) Empty.elim⟩
  let run : List (Option Unit × ℕ) := [(none, 1), (some (), 1), (none, 2), (some (), 2)]
  have h : M.Reachable ((M.exec Lts.anyStep c₀ run).get (by decide)) :=
    .exec _ (.start ⟨rfl, rfl⟩) (Option.some_get _).symm
  exact ⟨_, by decide, loads_monotone .relaxed 0 [1, 2] (by decide) _ h ()⟩

end Monotone

/-! ## The summary -/

section Summary

/-- Threads 1, 2 and 3. -/
def summary : Fin 3 → List (Stmt ℕ)
  | 0 => [.store .y 20, .store .x 10]
  | 1 => [.when .x 10, .assert .y 20, .store .y 10]
  | 2 => [.when .y 10, .assert .x 10]

/-- What the writes say: 10 in `x` has been released by a thread that knew of the 20 in `y`, and
    10 in `y` by one that knew of the 10 in `x`. -/
def Released : Atomic → Write (Fin 3) Atomic ℕ → Prop
  | .x, w => w.time = 0 ∧ w.val = 0 ∨ 0 < w.time ∧ w.val = 10 ∧ 0 < w.released.1 .y
  | .y, w => w.time = 0 ∧ w.val = 0 ∨ 0 < w.time ∧ (w.val = 20 ∨ w.val = 10 ∧ 0 < w.released.1 .x)

/-- Thread 2 has not stored yet. -/
def NoTen (d : Mem (Fin 3) ℕ) : Prop := ∀ w ∈ d.atomic .y, w.val ≠ 10

/-- The places of the threads, with what they know there. No assert has failed. -/
inductive At (d : Mem (Fin 3) ℕ) : Fin 3 → Place (Fin 3) ℕ → Prop
  | storeY (k : Know (Fin 3) Atomic) :
      At d 0 ⟨[.store .y 20, .store .x 10], [], false, k⟩
  | storeX (k : Know (Fin 3) Atomic) (hy : 0 < k.1 .y) :
      At d 0 ⟨[.store .x 10], [], false, k⟩
  | whenX (k : Know (Fin 3) Atomic) (hd : NoTen d) :
      At d 1 ⟨[.when .x 10, .assert .y 20, .store .y 10], [], false, k⟩
  | assertY (k : Know (Fin 3) Atomic) (hx : 0 < k.1 .x) (hy : 0 < k.1 .y) (hd : NoTen d) :
      At d 1 ⟨[.assert .y 20, .store .y 10], [], false, k⟩
  | storeTen (k : Know (Fin 3) Atomic) (hx : 0 < k.1 .x) :
      At d 1 ⟨[.store .y 10], [], false, k⟩
  | whenY (k : Know (Fin 3) Atomic) :
      At d 2 ⟨[.when .y 10, .assert .x 10], [], false, k⟩
  | assertX (k : Know (Fin 3) Atomic) (hx : 0 < k.1 .x) :
      At d 2 ⟨[.assert .x 10], [], false, k⟩
  | done (t : Fin 3) (loaded : List ℕ) (k : Know (Fin 3) Atomic) :
      At d t ⟨[], loaded, false, k⟩

variable {t u : Fin 3} {l l' k k' : Place (Fin 3) ℕ} {d d' : Mem (Fin 3) ℕ}

theorem at_own (hm : m ≠ .relaxed) (hI : Says Released d) (hA : At d t l)
    (h : next m t l d time = some (l', d')) : Says Released d' ∧ At d' t l' := by
  cases hA with
  | storeY k =>
      obtain ⟨⟨k', mem⟩, hs, he⟩ := Option.map_eq_some_iff.mp h
      cases he
      obtain ⟨hlt, hk, -⟩ := store_eq_some (k := k) hs
      constructor
      · refine hI.store hs fun w ht hv _ => .inr ⟨?_, .inl hv⟩
        omega
      · refine .storeX k' ?_
        rw [hk, Know.saw_self]
        exact Nat.zero_lt_of_lt hlt
  | storeX k hy =>
      obtain ⟨⟨k', mem⟩, hs, he⟩ := Option.map_eq_some_iff.mp h
      cases he
      obtain ⟨hlt, hk, -⟩ := store_eq_some (k := k) hs
      refine ⟨hI.store hs fun w ht hv hrel => .inr ⟨by omega, hv, ?_⟩, .done 0 _ k'⟩
      rw [hrel hm]
      exact hy.trans_le ((le_of_store (k := k) hs).1 .y)
  | whenX k hd =>
      obtain ⟨⟨v, k'⟩, hload, he⟩ := Option.map_eq_some_iff.mp h
      cases he
      refine ⟨hI, ?_⟩
      dsimp only
      split
      · next hv =>
          -- it has acquired what thread 1 knew when it stored 10
          obtain ⟨w, hw, ht, hval, -, hk, hrel, -⟩ := load_eq_some (k := k) hload
          rcases hI .x w hw with ⟨-, h0⟩ | ⟨hpos, -, hy⟩
          · omega
          · refine .assertY k' ?_ (hy.trans_le ((hrel hm).1 .y)) hd
            exact (ht ▸ hpos).trans_le (Know.le_of_saw_le hk)
      · exact .done 1 _ k'
  | assertY k hx hy hd =>
      obtain ⟨⟨v, k'⟩, hload, he⟩ := Option.map_eq_some_iff.mp h
      cases he
      obtain ⟨w, hw, ht, hval, hle, -⟩ := load_eq_some (k := k) hload
      have hv : v = 20 := by
        rcases hI .y w hw with ⟨h0, -⟩ | ⟨-, h20 | ⟨h10, -⟩⟩
        · omega
        · exact hval.symm.trans h20
        · exact absurd h10 (hd w hw)
      subst hv
      exact ⟨hI, .storeTen k' (hx.trans_le ((le_of_load (k := k) hload).1 .x))⟩
  | storeTen k hx =>
      obtain ⟨⟨k', mem⟩, hs, he⟩ := Option.map_eq_some_iff.mp h
      cases he
      obtain ⟨hlt, hk, -⟩ := store_eq_some (k := k) hs
      refine ⟨hI.store hs fun w ht hv hrel => .inr ⟨by omega, .inr ⟨hv, ?_⟩⟩, .done 1 _ k'⟩
      rw [hrel hm]
      exact hx.trans_le ((le_of_store (k := k) hs).1 .x)
  | whenY k =>
      obtain ⟨⟨v, k'⟩, hload, he⟩ := Option.map_eq_some_iff.mp h
      cases he
      refine ⟨hI, ?_⟩
      dsimp only
      split
      · next hv =>
          -- it has acquired what thread 2 knew, and so what thread 1 knew
          obtain ⟨w, hw, -, hval, -, -, hrel, -⟩ := load_eq_some (k := k) hload
          rcases hI .y w hw with ⟨-, h0⟩ | ⟨-, h20 | ⟨-, hx⟩⟩
          · omega
          · omega
          · exact .assertX k' (hx.trans_le ((hrel hm).1 .x))
      · exact .done 2 _ k'
  | assertX k hx =>
      obtain ⟨⟨v, k'⟩, hload, he⟩ := Option.map_eq_some_iff.mp h
      cases he
      obtain ⟨w, hw, ht, hval, hle, -⟩ := load_eq_some (k := k) hload
      have hv : v = 10 := by
        rcases hI .x w hw with ⟨h0, -⟩ | ⟨-, h10, -⟩
        · omega
        · exact hval.symm.trans h10
      subst hv
      exact ⟨hI, .done 2 _ k'⟩
  | done t loaded k => cases h

theorem at_other (hne : u ≠ t) (hA : At d t l) (hB : At d u k)
    (h : next m u k d time = some (k', d')) : At d' t l := by
  have hten (ht : t = 1) (hd : NoTen d) : NoTen d' := by
    intro w hw hv
    rcases mem_of_next h hw with hw | ⟨rest, hrest⟩
    · exact hd w hw hv
    · rw [hv] at hrest
      cases hB with
      | storeTen => exact hne ht.symm
      | storeY | storeX | whenX | assertY | whenY | assertX | done => cases hrest
  cases hA with
  | storeY k => exact .storeY k
  | storeX k hy => exact .storeX k hy
  | whenX k hd => exact .whenX k (hten rfl hd)
  | assertY k hx hy hd => exact .assertY k hx hy (hten rfl hd)
  | storeTen k hx => exact .storeTen k hx
  | whenY k => exact .whenY k
  | assertX k hx => exact .assertX k hx
  | done t loaded k => exact .done t loaded k

/-- No assert fails, unless the mode is relaxed. -/
theorem failed_eq_false (hm : m ≠ .relaxed) {c : Conf (Fin 3) (Place (Fin 3) ℕ) (Mem (Fin 3) ℕ)}
    (h : (sys m summary 0).Reachable c) (t : Fin 3) : (c.loc t).failed = false := by
  have hA := (Threads.invariant (I := Says Released) (A := fun t l d => At d t l) ?_ ?_ ?_ h).2 t
  · generalize c.loc t = l at hA
    cases hA <;> rfl
  · rintro d rfl
    refine ⟨fun a w hw => ?_, fun t => ?_⟩
    · rw [List.mem_singleton.mp hw]
      cases a <;> exact .inl ⟨rfl, rfl⟩
    · have hten : NoTen (Memory.initial (fun _ => 0) Empty.elim) := by
        intro w hw
        rw [List.mem_singleton.mp hw]
        decide
      match t with
      | 0 => exact .storeY ⊥
      | 1 => exact .whenX ⊥ hten
      | 2 => exact .whenY ⊥
  · intro t l d time l' d' hI hA hs
    exact at_own hm hI hA hs
  · intro t u l k d time k' d' hne _ hA hB hs
    exact at_other hne hA hB hs

/-- The start of a run. -/
def start : Conf (Fin 3) (Place (Fin 3) ℕ) (Mem (Fin 3) ℕ) :=
  ⟨fun t => ⟨summary t, [], false, ⊥⟩, Memory.initial (fun _ => 0) Empty.elim⟩

/-- **The asserts of the summary.** The assert of thread 2 can fail if and only if the mode is
    relaxed. The same goes for the assert of thread 3, where that of thread 2 has not failed. -/
theorem summary_fail_iff (m : MemoryMode) :
    ((∃ c, (sys m summary 0).Reachable c ∧ (c.loc 1).failed = true) ↔ m = .relaxed) ∧
    ((∃ c, (sys m summary 0).Reachable c ∧ (c.loc 1).failed = false ∧
      (c.loc 2).failed = true) ↔ m = .relaxed) := by
  refine ⟨⟨?_, ?_⟩, ⟨?_, ?_⟩⟩
  · rintro ⟨c, hc, hf⟩
    by_contra hm
    rw [failed_eq_false hm hc] at hf
    cases hf
  · rintro rfl
    -- thread 2 has seen the store to `x`, but reads the `y` of before
    let run : List (Fin 3 × ℕ) := [(0, 1), (0, 1), (1, 1), (1, 0)]
    exact Lts.Reach.exists_of_exec (s := start) (.start ⟨rfl, rfl⟩) run (by decide)
  · rintro ⟨c, hc, -, hf⟩
    by_contra hm
    rw [failed_eq_false hm hc] at hf
    cases hf
  · rintro rfl
    -- thread 3 has seen the 10 of thread 2, but reads the `x` of before
    let run : List (Fin 3 × ℕ) := [(0, 1), (0, 1), (1, 1), (1, 1), (1, 2), (2, 2), (2, 0)]
    exact Lts.Reach.exists_of_exec (s := start) (.start ⟨rfl, rfl⟩) run (by decide)

end Summary

/-! ## Independent writes -/

section Independent

/-- Threads 1 to 4. `opposite`: thread 4 looks at `x` first. -/
def independent (opposite : Bool) : Fin 4 → List (Stmt ℕ)
  | 0 => [.store .y 20]
  | 1 => [.store .x 10]
  | 2 => [.assert .y 20, .assert .x 0]
  | 3 => if opposite then [.assert .x 10, .assert .y 0] else [.assert .y 0, .assert .x 10]

/-- The thread is through, and its asserts have passed. -/
def Passed (l : Place (Fin 4) ℕ) : Prop := l.rest = [] ∧ l.failed = false

instance (l : Place (Fin 4) ℕ) : Decidable (Passed l) :=
  inferInstanceAs (Decidable (_ ∧ _))

/-- The atomic that thread 3 or 4 expects to be set, the threads looking in opposite order. -/
def set : Fin 4 → Atomic
  | 0 | 2 => .y
  | 1 | 3 => .x

/-- The atomic that it expects not to be set. -/
def unset : Fin 4 → Atomic
  | 0 | 2 => .x
  | 1 | 3 => .y

/-- Only stores write something other than 0. -/
def Initially (_ : Atomic) (w : Write (Fin 4) Atomic ℕ) : Prop := w.val = 0 ↔ w.time = 0

def Stored (a : Atomic) (d : Mem (Fin 4) ℕ) : Prop := ∃ w ∈ d.atomic a, w.time ≠ 0

/-- The places of the threads; a reader goes on if the first atomic has been stored. -/
inductive Looks (d : Mem (Fin 4) ℕ) (t : Fin 4) : Place (Fin 4) ℕ → Prop
  | writer (ht : t < 2) (v : ℕ) (hv : v ≠ 0) (k : Know (Fin 4) Atomic) :
      Looks d t ⟨[.store (set t) v], [], false, k⟩
  | written (ht : t < 2) (k : Know (Fin 4) Atomic) : Looks d t ⟨[], [], false, k⟩
  | first (v : ℕ) (hv : v ≠ 0) (k : Know (Fin 4) Atomic) :
      Looks d t ⟨[.assert (set t) v, .assert (unset t) 0], [], false, k⟩
  | second (k : Know (Fin 4) Atomic) (hd : Stored (set t) d) :
      Looks d t ⟨[.assert (unset t) 0], [], false, k⟩
  | passed (k : Know (Fin 4) Atomic) (hd : Stored (set t) d) :
      Looks d t ⟨[], [], false, k⟩
  | failed (k : Know (Fin 4) Atomic) : Looks d t ⟨[], [], true, k⟩

variable {t u : Fin 4} {l l' k k' : Place (Fin 4) ℕ} {d d' : Mem (Fin 4) ℕ}
  {c : Conf (Fin 4) (Place (Fin 4) ℕ) (Mem (Fin 4) ℕ)}

theorem looks_own (hI : Says Initially d) (hA : Looks d t l)
    (h : next m t l d time = some (l', d')) : Says Initially d' ∧ Looks d' t l' := by
  cases hA with
  | writer ht v hv k =>
      obtain ⟨⟨k', mem⟩, hs, he⟩ := Option.map_eq_some_iff.mp h
      cases he
      obtain ⟨hlt, -⟩ := store_eq_some (k := k) hs
      refine ⟨hI.store hs fun w htime hval _ => ?_, .written ht k'⟩
      exact iff_of_false (hval ▸ hv) (by omega)
  | first v hv k =>
      obtain ⟨⟨v', k'⟩, hload, he⟩ := Option.map_eq_some_iff.mp h
      cases he
      obtain ⟨w, hw, -, hval, -⟩ := load_eq_some (k := k) hload
      refine ⟨hI, ?_⟩
      by_cases hv' : v' = v
      · subst hv'
        simp only [if_pos, ne_eq, not_true_eq_false, decide_false]
        refine .second k' ⟨w, hw, fun h0 => hv ?_⟩
        rw [← hval]
        exact (hI _ w hw).mpr h0
      · simp only [ne_eq, hv', not_false_eq_true, decide_true]
        exact .failed k'
  | second k hd =>
      obtain ⟨⟨v', k'⟩, hload, he⟩ := Option.map_eq_some_iff.mp h
      cases he
      refine ⟨hI, ?_⟩
      by_cases hv' : v' = 0
      · simp only [hv', if_pos, ne_eq, not_true_eq_false, decide_false]
        exact .passed k' hd
      · simp only [ne_eq, hv', not_false_eq_true, decide_true]
        exact .failed k'
  | written | passed | failed => cases h

theorem looks_other (hA : Looks d t l) (h : next m u k d time = some (k', d')) :
    Looks d' t l := by
  have hstored {a : Atomic} : Stored a d → Stored a d' :=
    fun ⟨w, hw, h0⟩ => ⟨w, mem_next h hw, h0⟩
  cases hA with
  | writer ht v hv k => exact .writer ht v hv k
  | written ht k => exact .written ht k
  | first v hv k => exact .first v hv k
  | second k hd => exact .second k (hstored hd)
  | passed k hd => exact .passed k (hstored hd)
  | failed k => exact .failed k

theorem looks_reach (h : (sys m (independent true) 0).Reachable c) :
    Says Initially c.shared ∧ ∀ t, Looks c.shared t (c.loc t) := by
  refine Threads.invariant (A := fun t l d => Looks d t l) ?_ ?_ ?_ h
  · rintro d rfl
    refine ⟨fun a w hw => ?_, fun t => ?_⟩
    · rw [List.mem_singleton.mp hw]
      exact iff_of_true rfl rfl
    · match t with
      | 0 => exact .writer (by decide) 20 (by decide) ⊥
      | 1 => exact .writer (by decide) 10 (by decide) ⊥
      | 2 => exact .first 20 (by decide) ⊥
      | 3 => exact .first 10 (by decide) ⊥
  · intro t l d time l' d' hI hA hs
    exact looks_own hI hA hs
  · intro t u l k d time k' d' _ _ hA _ hs
    exact looks_other hA hs

/-- When the second assert of a reader passes in sequentially consistent mode, there has been no
    store to that atomic. -/
theorem not_stored_of_passed (hI : Says Initially d) (hA : Looks d t l) (ht : ¬ t < 2)
    (h : next .seqCst t l d time = some (l', d')) (hl : Passed l') : ¬ Stored (unset t) d := by
  cases hA with
  | writer ht' | written ht' => exact absurd ht' ht
  | first v hv k =>
      obtain ⟨⟨v', k'⟩, -, he⟩ := Option.map_eq_some_iff.mp h
      cases he
      obtain ⟨hrest, hfailed⟩ := hl
      dsimp only at hrest hfailed
      rw [if_pos (by simpa using hfailed)] at hrest
      cases hrest
  | second k hd =>
      obtain ⟨⟨v', k'⟩, hload, he⟩ := Option.map_eq_some_iff.mp h
      cases he
      obtain ⟨w, hw, htime, hval, -, -, -, hlast⟩ := load_eq_some (k := k) hload
      have hv : v' = 0 := by simpa using hl.2
      rintro ⟨w', hw', h0⟩
      -- the latest write is the initial one
      have hle := hlast rfl w' hw'
      have hinit := (hI _ w hw).mp (hval.trans hv)
      omega
  | passed | failed => cases h

theorem stored_of_passed (hA : Looks d t l) (ht : ¬ t < 2) (hl : Passed l) : Stored (set t) d := by
  cases hA with
  | written ht' => exact absurd ht' ht
  | passed k hd => exact hd
  | writer | first | second => cases hl.1
  | failed => cases hl.2

theorem not_both_passed (h : (sys .seqCst (independent true) 0).Reachable c) :
    ¬ (Passed (c.loc 2) ∧ Passed (c.loc 3)) := by
  refine h.invariant (I := fun c => ¬ (Passed (c.loc 2) ∧ Passed (c.loc 3))) ?_ ?_
  · rintro c ⟨hloc, -⟩ ⟨h2, -⟩
    rw [hloc] at h2
    cases h2.1
  · rintro c ⟨u, time⟩ c' hc hnot - hstep ⟨h2, h3⟩
    obtain ⟨hI, hA⟩ := looks_reach hc
    obtain ⟨l, d, hn, rfl⟩ := Threads.step_eq_some hstep
    by_cases hu2 : u = 2
    · subst hu2
      -- thread 4 has passed before, so `x` has been stored
      dsimp only at h2 h3
      rw [Function.update_self] at h2
      rw [Function.update_of_ne (by decide)] at h3
      exact not_stored_of_passed hI (hA 2) (by decide) hn h2
        (stored_of_passed (hA 3) (by decide) h3)
    · by_cases hu3 : u = 3
      · subst hu3
        dsimp only at h2 h3
        rw [Function.update_self] at h3
        rw [Function.update_of_ne (by decide)] at h2
        exact not_stored_of_passed hI (hA 3) (by decide) hn h3
          (stored_of_passed (hA 2) (by decide) h2)
      · dsimp only at h2 h3
        rw [Function.update_of_ne (Ne.symm hu2)] at h2
        rw [Function.update_of_ne (Ne.symm hu3)] at h3
        exact hnot ⟨h2, h3⟩

/-- The start of a run of the independent writes and reads. -/
def startIndependent (opposite : Bool) : Conf (Fin 4) (Place (Fin 4) ℕ) (Mem (Fin 4) ℕ) :=
  ⟨fun t => ⟨independent opposite t, [], false, ⊥⟩, Memory.initial (fun _ => 0) Empty.elim⟩

/-- Thread 4 has looked at `y` before it is stored. -/
theorem same_order_passed (m : MemoryMode) :
    ∃ c, (sys m (independent false) 0).Reachable c ∧ Passed (c.loc 2) ∧ Passed (c.loc 3) := by
  let run : List (Fin 4 × ℕ) := [(3, 0), (0, 1), (2, 1), (2, 0), (1, 1), (3, 1)]
  refine Lts.Reach.exists_of_exec (s := startIndependent false) (.start ⟨rfl, rfl⟩) run ?_
  cases m <;> decide

/-- Each reader has missed the other store. -/
theorem opposite_order_passed (hm : m ≠ .seqCst) :
    ∃ c, (sys m (independent true) 0).Reachable c ∧ Passed (c.loc 2) ∧ Passed (c.loc 3) := by
  let run : List (Fin 4 × ℕ) := [(0, 1), (1, 1), (2, 1), (2, 0), (3, 1), (3, 0)]
  refine Lts.Reach.exists_of_exec (s := startIndependent true) (.start ⟨rfl, rfl⟩) run ?_
  cases m with
  | relaxed | acqRel => decide
  | seqCst => exact absurd rfl hm

/-- **Independent writes.** The asserts of both readers can pass, unless the mode is sequentially
    consistent and the readers look at the atomics in opposite order. -/
theorem independent_passed_iff (m : MemoryMode) (opposite : Bool) :
    (∃ c, (sys m (independent opposite) 0).Reachable c ∧ Passed (c.loc 2) ∧ Passed (c.loc 3)) ↔
      ¬ (m = .seqCst ∧ opposite = true) := by
  constructor
  · rintro ⟨c, hc, hpassed⟩ ⟨rfl, rfl⟩
    exact not_both_passed hc hpassed
  · intro h
    cases opposite with
    | false => exact same_order_passed m
    | true => exact opposite_order_passed fun hm => h ⟨hm, rfl⟩

end Independent

end CppConcurrency.MemoryModes
