/-
  Memory with atomics in three modes, and with plain cells.

  Every atomic has its writes, with their times, which are their places in its modification
  order. A thread knows some of what has happened (`Know`): which write of each atomic it has
  seen last, and how many plain accesses of each thread happened before. It may read any write
  that is not older than the one it has seen last, and write at any free time behind it.
  * `relaxed`: nothing more.
  * `acqRel`: a store releases what its thread knows, and a load that reads it acquires that.
  * `seqCst`: besides, a load reads the latest write, and a store is the latest. This is right
    as long as all accesses have this mode.
  There are no fences and no read-modify-writes, and no load sees a store that is made later.

  A plain cell keeps its value, and for each thread its last read and its last write. An access
  races, if a conflicting one has not happened before it (`readPlain`, `writePlain` are `none`).

  Proved: what each operation makes of the memory and of what the thread knows; a thread never
  forgets; an acquire load knows what was released; and what all writes of an atomic say
  (`Says`), if the stores keep to it.
-/
import Mathlib.Data.Fintype.Pi
import Mathlib.Order.Lattice
import Mathlib.Order.Lattice.Nat

namespace Concur

/-- The modes of the accesses to atomics. -/
inductive MemoryMode where
  | relaxed
  | acqRel
  | seqCst
  deriving DecidableEq, Repr

/-- The write of each atomic that was seen last, and the number of plain accesses of each thread
    that happened before. -/
abbrev Know (ι X : Type*) := (X → ℕ) × (ι → ℕ)

/-- A write of an atomic. -/
structure Write (ι X V : Type*) where
  time : ℕ
  val : V
  released : Know ι X

/-- A plain cell, with the number of the last write and of the last read of each thread. -/
structure PlainCell (ι W : Type*) where
  val : W
  writes : ι → ℕ
  reads : ι → ℕ

structure Memory (ι X V Y W : Type*) where
  atomic : X → List (Write ι X V)
  plain : Y → PlainCell ι W

variable {ι X V Y W : Type*}

/-- The memory before the threads start. -/
def Memory.initial (a : X → V) (p : Y → W) : Memory ι X V Y W :=
  ⟨fun x => [⟨0, a x, ⊥⟩], fun y => ⟨p y, ⊥, ⊥⟩⟩

namespace Know

variable [DecidableEq X] [DecidableEq ι]

/-- The thread has seen the write of `x` at `time`. -/
def saw (k : Know ι X) (x : X) (time : ℕ) : Know ι X := (Function.update k.1 x time, k.2)

/-- Thread `t` makes a plain access. -/
def tick (k : Know ι X) (t : ι) : Know ι X := (k.1, Function.update k.2 t (k.2 t + 1))

omit [DecidableEq ι] in
theorem le_saw {k : Know ι X} {x : X} {time : ℕ} (h : k.1 x ≤ time) : k ≤ k.saw x time := by
  refine ⟨fun x' => ?_, le_rfl⟩
  dsimp only [saw]
  rw [Function.update_apply]
  split
  · next hx =>
      rw [hx]
      exact h
  · exact le_rfl

omit [DecidableEq ι] in
theorem saw_self (k : Know ι X) (x : X) (time : ℕ) : (k.saw x time).1 x = time :=
  Function.update_self ..

omit [DecidableEq ι] in
theorem le_of_saw_le {k k' : Know ι X} {x : X} {time : ℕ} (h : k.saw x time ≤ k') :
    time ≤ k'.1 x := by
  rw [← saw_self k x time]
  exact h.1 x

omit [DecidableEq X] in
theorem le_tick (k : Know ι X) (t : ι) : k ≤ k.tick t := by
  refine ⟨le_rfl, fun u => ?_⟩
  dsimp only [tick]
  rw [Function.update_apply]
  split
  · next hu =>
      rw [hu]
      exact Nat.le_succ _
  · exact le_rfl

omit [DecidableEq X] in
theorem tick_self (k : Know ι X) (t : ι) : (k.tick t).2 t = k.2 t + 1 := Function.update_self ..

end Know

namespace Memory

/-! ## Atomics -/

section Atomic

variable [DecidableEq X] {m : MemoryMode} {d d' : Memory ι X V Y W} {k k' : Know ι X} {x : X}
  {v : V} {time : ℕ}

/-- `x.load(m)`, of the write at `time`: the value, and what the thread knows afterwards. -/
def load (m : MemoryMode) (d : Memory ι X V Y W) (k : Know ι X) (x : X) (time : ℕ) :
    Option (V × Know ι X) :=
  match (d.atomic x).find? (·.time == time) with
  | some w =>
      if k.1 x ≤ time ∧ (m = .seqCst → ∀ w' ∈ d.atomic x, w'.time ≤ time) then
        some (w.val, if m = .relaxed then k.saw x time else k.saw x time ⊔ w.released)
      else none
  | none => none

/-- `x.store(v, m)`, at `time`: what the thread knows afterwards, and the memory. -/
def store (m : MemoryMode) (d : Memory ι X V Y W) (k : Know ι X) (x : X) (v : V) (time : ℕ) :
    Option (Know ι X × Memory ι X V Y W) :=
  if k.1 x < time ∧ (∀ w ∈ d.atomic x, w.time ≠ time) ∧
      (m = .seqCst → ∀ w ∈ d.atomic x, w.time < time) then
    some (k.saw x time, { d with
      atomic := Function.update d.atomic x
        (⟨time, v, if m = .relaxed then ⊥ else k.saw x time⟩ :: d.atomic x) })
  else none

/-- What a load does. -/
theorem load_eq_some (h : load m d k x time = some (v, k')) :
    ∃ w ∈ d.atomic x, w.time = time ∧ w.val = v ∧ k.1 x ≤ time ∧ k.saw x time ≤ k' ∧
      (m ≠ .relaxed → w.released ≤ k') ∧
      (m = .seqCst → ∀ w' ∈ d.atomic x, w'.time ≤ time) := by
  unfold load at h
  split at h
  · next w hw =>
      split at h
      · next hc =>
          obtain ⟨hv, rfl⟩ := Prod.mk.inj (Option.some.inj h)
          have htime : w.time = time := by simpa using List.find?_some hw
          refine ⟨w, List.mem_of_find?_eq_some hw, htime, hv, hc.1, ?_, fun hm => ?_, hc.2⟩
          · split
            · exact le_rfl
            · exact le_sup_left
          · rw [if_neg hm]
            exact le_sup_right
      · cases h
  · cases h

/-- What a thread has seen and released before a load, it has afterwards. -/
theorem le_of_load (h : load m d k x time = some (v, k')) : k ≤ k' := by
  obtain ⟨w, -, -, -, hle, hk, -⟩ := load_eq_some h
  exact (Know.le_saw hle).trans hk

/-- What a store does. -/
theorem store_eq_some (h : store m d k x v time = some (k', d')) :
    k.1 x < time ∧ k' = k.saw x time ∧ d'.plain = d.plain ∧
      (∃ rel, (m ≠ .relaxed → rel = k') ∧
        d'.atomic = Function.update d.atomic x (⟨time, v, rel⟩ :: d.atomic x)) ∧
      (m = .seqCst → ∀ w ∈ d.atomic x, w.time < time) := by
  unfold store at h
  split at h
  · next hc =>
      cases h
      exact ⟨hc.1, rfl, rfl, ⟨_, fun hm => if_neg hm, rfl⟩, hc.2.2⟩
  · cases h

theorem le_of_store (h : store m d k x v time = some (k', d')) : k ≤ k' := by
  obtain ⟨hlt, rfl, -⟩ := store_eq_some h
  exact Know.le_saw hlt.le

/-- The writes after a store: the old ones, and the one of the store. -/
theorem mem_of_store (h : store m d k x v time = some (k', d')) {x' : X} {w : Write ι X V}
    (hw : w ∈ d'.atomic x') :
    w ∈ d.atomic x' ∨ x' = x ∧ w.time = time ∧ w.val = v ∧ (m ≠ .relaxed → w.released = k') := by
  obtain ⟨-, -, -, ⟨rel, hrel, ha⟩, -⟩ := store_eq_some h
  rw [ha, Function.update_apply] at hw
  split at hw
  · next hx =>
      subst hx
      rcases List.mem_cons.mp hw with rfl | hw
      · exact .inr ⟨rfl, rfl, rfl, hrel⟩
      · exact .inl hw
  · exact .inl hw

/-- Writes stay. -/
theorem mem_store (h : store m d k x v time = some (k', d')) {x' : X} {w : Write ι X V}
    (hw : w ∈ d.atomic x') : w ∈ d'.atomic x' := by
  obtain ⟨-, -, -, ⟨rel, -, ha⟩, -⟩ := store_eq_some h
  rw [ha, Function.update_apply]
  split
  · next hx =>
      subst hx
      exact List.mem_cons_of_mem _ hw
  · exact hw

/-- What all writes of all atomics say. -/
def Says (Φ : X → Write ι X V → Prop) (d : Memory ι X V Y W) : Prop :=
  ∀ x, ∀ w ∈ d.atomic x, Φ x w

/-- A store that keeps to it. -/
theorem Says.store {Φ : X → Write ι X V → Prop} (hd : Says Φ d)
    (h : Memory.store m d k x v time = some (k', d'))
    (hΦ : ∀ w : Write ι X V, w.time = time → w.val = v → (m ≠ .relaxed → w.released = k') →
      Φ x w) : Says Φ d' := by
  intro x' w hw
  rcases mem_of_store h hw with hw | ⟨rfl, ht, hv, hr⟩
  · exact hd x' w hw
  · exact hΦ w ht hv hr

end Atomic

/-! ## Plain cells -/

section Plain

variable [Fintype ι] [DecidableEq ι] [DecidableEq Y]

/-- Read `y`: the value, what thread `t` knows afterwards, and the memory. -/
def readPlain (d : Memory ι X V Y W) (k : Know ι X) (t : ι) (y : Y) :
    Option (W × Know ι X × Memory ι X V Y W) :=
  let c := d.plain y
  if ∀ u, c.writes u ≤ k.2 u then
    some (c.val, k.tick t, { d with
      plain := Function.update d.plain y
        { c with reads := Function.update c.reads t ((k.tick t).2 t) } })
  else none

/-- Write `v` to `y`. -/
def writePlain (d : Memory ι X V Y W) (k : Know ι X) (t : ι) (y : Y) (v : W) :
    Option (Know ι X × Memory ι X V Y W) :=
  let c := d.plain y
  if ∀ u, c.writes u ≤ k.2 u ∧ c.reads u ≤ k.2 u then
    some (k.tick t, { d with
      plain := Function.update d.plain y
        { c with val := v, writes := Function.update c.writes t ((k.tick t).2 t) } })
  else none

/-- Who knows this has nothing to race with. -/
def Covers (k : Know ι X) (d : Memory ι X V Y W) : Prop :=
  ∀ y, (d.plain y).writes ≤ k.2 ∧ (d.plain y).reads ≤ k.2

omit [Fintype ι] [DecidableEq ι] [DecidableEq Y] in
theorem Covers.mono {d : Memory ι X V Y W} {k k' : Know ι X} (h : Covers k d) (hk : k ≤ k') :
    Covers k' d :=
  fun y => ⟨(h y).1.trans hk.2, (h y).2.trans hk.2⟩

variable {d : Memory ι X V Y W} {k : Know ι X} {t : ι} {y : Y}

omit [Fintype ι] [DecidableEq Y] in
/-- A stamp of thread `t` that it makes now. -/
theorem update_le_tick {f : ι → ℕ} (hf : f ≤ k.2) :
    Function.update f t ((k.tick t).2 t) ≤ (k.tick t).2 := by
  intro u
  rw [Function.update_apply]
  split
  · next hu =>
      rw [hu]
  · exact (hf u).trans ((Know.le_tick k t).2 u)

/-- Who covers the memory can read, and covers it afterwards. -/
theorem Covers.read (h : Covers k d) :
    ∃ d', readPlain d k t y = some ((d.plain y).val, k.tick t, d') ∧ Covers (k.tick t) d' ∧
      d'.atomic = d.atomic := by
  refine ⟨_, if_pos (h y).1, fun y' => ?_, rfl⟩
  dsimp only
  rw [Function.update_apply]
  split
  · exact ⟨(h y).1.trans (Know.le_tick k t).2, update_le_tick (h y).2⟩
  · exact h.mono (Know.le_tick k t) y'

/-- Who covers the memory can write, and covers it afterwards. -/
theorem Covers.write (h : Covers k d) (v : W) :
    ∃ d', writePlain d k t y v = some (k.tick t, d') ∧ Covers (k.tick t) d' ∧
      d'.atomic = d.atomic := by
  refine ⟨_, if_pos fun u => ⟨(h y).1 u, (h y).2 u⟩, fun y' => ?_, rfl⟩
  dsimp only
  rw [Function.update_apply]
  split
  · exact ⟨update_le_tick (h y).1, (h y).2.trans (Know.le_tick k t).2⟩
  · exact h.mono (Know.le_tick k t) y'

/-- Who does not know of a write has a race with it. -/
theorem readPlain_eq_none {u : ι} (h : k.2 u < (d.plain y).writes u) :
    readPlain d k t y = none :=
  if_neg fun hle => Nat.not_le.mpr h (hle u)

/-- A write leaves its number. -/
theorem writes_of_write {k' : Know ι X} {d' : Memory ι X V Y W} {v : W}
    (h : writePlain d k t y v = some (k', d')) : (d'.plain y).writes t = k.2 t + 1 := by
  unfold writePlain at h
  dsimp only at h
  split at h
  · cases h
    dsimp only
    rw [Function.update_self]
    dsimp only
    rw [Function.update_self, Know.tick_self]
  · cases h

end Plain

end Memory

end Concur
