/-
  Handing memory over through atomics, as described in Atomic/memory_modes.cpp.

      - Let's say Thread 1 reads/writes to some memory M;
      - Then Thread 1 performs a release store to a variable A. Then it stops touching that memory;
      - If Thread 2 then performs an acquire load of the same variable A,
        this load is said to synchronize with the corresponding store in Thread 1;
      - Now Thread 2 can safely read/write to that memory M.

  Model. Two threads or more, chained ("You can chain synchronizations across multiple threads"):
  thread `i` loads the atomic `i` until it is set, then reads and writes any cells of M as often
  as it likes, and then sets the atomic `i + 1` and stops. The first atomic is set from the start.
  All loads and stores have the same mode. A thread whose access to M races is at `raced`.

  Proved (`transfer_safe_iff`): no access to M ever races, for any number of threads and any
  accesses, if and only if the mode is not `relaxed`.
-/
import CppConcurrency.Lib.Memory
import CppConcurrency.Lib.Threads

namespace CppConcurrency.Transfer

open Concur Memory

/-- Where a thread stands. `turn`: M is its own. -/
inductive Pc where
  | wait
  | turn
  | passed
  | raced
  deriving DecidableEq, Repr

/-- What a thread does next; `time` is which write a load reads, and where a store goes. -/
inductive Choice (Y W : Type*) where
  | load (time : ℕ)
  | read (y : Y)
  | write (y : Y) (v : W)
  | pass (time : ℕ)

/-- The atomics and M; `turn` is a ghost: how often M has been passed on. -/
structure Shared (n : ℕ) (Y W : Type*) where
  mem : Memory (Fin n) ℕ Bool Y W
  turn : ℕ

/-- Where a thread stands, and what it knows. -/
abbrev Place (n : ℕ) := Pc × Know (Fin n) ℕ

variable {n : ℕ} {Y W : Type*} [DecidableEq Y]

/-- The next statement of thread `i`. -/
def next (m : MemoryMode) (i : Fin n) (l : Place n) (d : Shared n Y W) (b : Choice Y W) :
    Option (Place n × Shared n Y W) :=
  match l.1, b with
  | .wait, .load time =>
      (load m d.mem l.2 i time).map fun x => ((if x.1 then .turn else .wait, x.2), d)
  | .turn, .read y =>
      match readPlain d.mem l.2 i y with
      | some (_, k, mem) => some ((.turn, k), { d with mem := mem })
      | none => some ((.raced, l.2), d)
  | .turn, .write y v =>
      match writePlain d.mem l.2 i y v with
      | some (k, mem) => some ((.turn, k), { d with mem := mem })
      | none => some ((.raced, l.2), d)
  | .turn, .pass time =>
      (store m d.mem l.2 (i + 1) true time).map fun x => ((.passed, x.1), ⟨x.2, d.turn + 1⟩)
  | _, _ => none

/-- Threads that hand M over, with any contents. -/
def sys (m : MemoryMode) (n : ℕ) (Y W : Type*) [DecidableEq Y] :
    Lts (Conf (Fin n) (Place n) (Shared n Y W)) (Fin n × Choice Y W) :=
  threads (next m) (fun _ => (.wait, ⊥)) fun d => ∃ p, d = ⟨Memory.initial (· == 0) p, 0⟩

variable {m : MemoryMode} {i j : Fin n} {l l' : Place n} {d d' : Shared n Y W} {b : Choice Y W}
  {c : Conf (Fin n) (Place n) (Shared n Y W)}

/-! ## Nothing races if the mode is not relaxed -/

/-- A set atomic has been released by a thread that knew all accesses to M. -/
def Offered (i : ℕ) (d : Shared n Y W) : Prop :=
  ∀ w ∈ d.mem.atomic i, w.val = true → d.turn = i ∧ Covers w.released d.mem

/-- What holds at the places of thread `i`. -/
def Assert (i : Fin n) (l : Place n) (d : Shared n Y W) : Prop :=
  match l.1 with
  | .wait => Offered i d
  | .turn => d.turn = i ∧ Covers l.2 d.mem
  | .passed => True
  | .raced => False

/-- The cases of a step, where M belongs to the thread in its turn. -/
inductive Moves (m : MemoryMode) (i : Fin n) (l : Place n) (d : Shared n Y W) :
    Place n → Shared n Y W → Prop
  | missed (k : Know (Fin n) ℕ) (hl : l.1 = .wait) : Moves m i l d (.wait, k) d
  | taken (k : Know (Fin n) ℕ) (hl : l.1 = .wait) (w : Write (Fin n) ℕ Bool)
      (hw : w ∈ d.mem.atomic i) (hv : w.val = true) (hk : m ≠ .relaxed → w.released ≤ k) :
      Moves m i l d (.turn, k) d
  | accessed (k : Know (Fin n) ℕ) (mem : Memory (Fin n) ℕ Bool Y W) (hl : l.1 = .turn)
      (hk : Covers k mem) (ha : mem.atomic = d.mem.atomic) :
      Moves m i l d (.turn, k) { d with mem := mem }
  | passed (k : Know (Fin n) ℕ) (mem : Memory (Fin n) ℕ Bool Y W) (time : ℕ) (hl : l.1 = .turn)
      (hs : store m d.mem l.2 (i + 1) true time = some (k, mem)) :
      Moves m i l d (.passed, k) ⟨mem, d.turn + 1⟩

theorem moves_of_next (hA : Assert i l d) (h : next m i l d b = some (l', d')) :
    Moves m i l d l' d' := by
  unfold next at h
  unfold Assert at hA
  split at h
  case h_1 time hl =>
    obtain ⟨⟨v, k⟩, hload, he⟩ := Option.map_eq_some_iff.mp h
    obtain ⟨w, hw, -, hv, -, -, hk, -⟩ := load_eq_some hload
    cases he
    cases v with
    | true => exact .taken k hl w hw hv hk
    | false => exact .missed k hl
  case h_2 y hl =>
    rw [hl] at hA
    obtain ⟨mem, hr, hk, ha⟩ := hA.2.read (t := i) (y := y)
    rw [hr] at h
    cases h
    exact .accessed _ mem hl hk ha
  case h_3 y v hl =>
    rw [hl] at hA
    obtain ⟨mem, hr, hk, ha⟩ := hA.2.write (t := i) (y := y) v
    rw [hr] at h
    cases h
    exact .accessed _ mem hl hk ha
  case h_4 time hl =>
    obtain ⟨⟨k, mem⟩, hs, he⟩ := Option.map_eq_some_iff.mp h
    cases he
    exact .passed k mem time hl hs
  case h_5 => cases h

omit [DecidableEq Y] in
theorem assert_own (hm : m ≠ .relaxed) (hA : Assert i l d) (h : Moves m i l d l' d') :
    Assert i l' d' := by
  unfold Assert at hA
  cases h with
  | missed k hl =>
      rw [hl] at hA
      exact hA
  | taken k hl w hw hv hk =>
      rw [hl] at hA
      obtain ⟨hturn, hcov⟩ := hA w hw hv
      exact ⟨hturn, hcov.mono (hk hm)⟩
  | accessed k mem hl hk ha =>
      rw [hl] at hA
      exact ⟨hA.1, hk⟩
  | passed => trivial

omit [DecidableEq Y] in
/-- While another thread has its turn, nothing is offered to thread `i`. -/
theorem Offered.elim (h : Offered i d) (hij : i ≠ j) (hturn : d.turn = j) {P : Prop}
    {w : Write (Fin n) ℕ Bool} (hw : w ∈ d.mem.atomic i) (hv : w.val = true) : P := by
  have hi := (h w hw hv).1
  exact absurd (Fin.ext (hi.symm.trans hturn)) hij

omit [DecidableEq Y] in
theorem assert_other (hm : m ≠ .relaxed) (hij : i ≠ j) (hA : Assert i l d) {k k' : Place n}
    (hB : Assert j k d) (h : Moves m j k d k' d') : Assert i l d' := by
  unfold Assert at hA hB ⊢
  cases h with
  | missed | taken => exact hA
  | accessed know mem hk hcov ha =>
      rw [hk] at hB
      cases hl : l.1 with
      | wait =>
          rw [hl] at hA
          intro w hw hv
          exact hA.elim hij hB.1 (by rw [← ha]; exact hw) hv
      | turn =>
          rw [hl] at hA
          exact absurd (Fin.ext (hA.1.symm.trans hB.1)) hij
      | passed => trivial
      | raced =>
          rw [hl] at hA
          exact hA
  | passed know mem time hk hs =>
      rw [hk] at hB
      obtain ⟨-, hknow, hplain, -⟩ := store_eq_some hs
      cases hl : l.1 with
      | wait =>
          rw [hl] at hA
          intro w hw hv
          rcases mem_of_store hs hw with hw | ⟨hi, -, -, hrel⟩
          · exact hA.elim hij hB.1 hw hv
          · -- the atomic of thread `i` is the one that has just been set
            refine ⟨by rw [hB.1, hi], ?_⟩
            rw [hrel hm]
            intro y
            dsimp only
            rw [hplain]
            exact hB.2.mono (le_of_store hs) y
      | turn =>
          rw [hl] at hA
          exact absurd (Fin.ext (hA.1.symm.trans hB.1)) hij
      | passed => trivial
      | raced =>
          rw [hl] at hA
          exact hA

theorem assert_reach (hm : m ≠ .relaxed) (h : (sys m n Y W).Reachable c) (i : Fin n) :
    Assert i (c.loc i) c.shared := by
  refine (Threads.invariant (I := fun _ => True) (A := Assert) ?_ ?_ ?_ h).2 i
  · rintro d ⟨p, rfl⟩
    refine ⟨trivial, fun i w hw hv => ?_⟩
    rw [List.mem_singleton.mp hw] at hv ⊢
    exact ⟨(beq_iff_eq.mp hv).symm, fun y => ⟨le_rfl, le_rfl⟩⟩
  · intro i l d b l' d' _ hA hs
    exact ⟨trivial, assert_own hm hA (moves_of_next hA hs)⟩
  · intro i j l k d b k' d' hne _ hA hB hs
    exact assert_other hm (Ne.symm hne) hA hB (moves_of_next hB hs)

/-! ## A race if it is -/

section Race

variable [Inhabited Y] [Inhabited W]

/-- Thread 0 writes to a cell and passes M on, and thread 1 reads the cell. -/
theorem raced_reach :
    ∃ c, (sys .relaxed (n + 2) Y W).Reachable c ∧ (c.loc 1).1 = .raced := by
  let d₀ : Shared (n + 2) Y W := ⟨Memory.initial (· == 0) fun _ => default, 0⟩
  let k₁ : Know (Fin (n + 2)) ℕ := Know.saw ⊥ 0 0
  let k₂ : Know (Fin (n + 2)) ℕ := k₁.tick 0
  have hcov : Covers k₁ d₀.mem := fun y => ⟨le_rfl, le_rfl⟩
  obtain ⟨mem₂, hwrite, -, ha⟩ := hcov.write (t := 0) (y := default) default
  let mem₃ : Memory (Fin (n + 2)) ℕ Bool Y W :=
    { mem₂ with atomic := Function.update mem₂.atomic 1 (⟨1, true, ⊥⟩ :: mem₂.atomic 1) }
  let l₁ : Fin (n + 2) → Place (n + 2) := fun _ => (.wait, ⊥)
  have h1 : next .relaxed 0 (l₁ 0) d₀ (.load 0) = some ((.turn, k₁), d₀) := by
    simp [next, load, d₀, k₁, l₁, Memory.initial]
  have h2 : next .relaxed 0 (.turn, k₁) d₀ (.write default default) =
      some ((.turn, k₂), ⟨mem₂, 0⟩) := by
    simp only [next, hwrite]
    rfl
  have h3 : next .relaxed 0 (.turn, k₂) ⟨mem₂, 0⟩ (.pass 1) =
      some ((.passed, k₂.saw 1 1), ⟨mem₃, 1⟩) := by
    simp [next, store, ha, mem₃, k₂, k₁, d₀, Memory.initial, Know.tick, Know.saw]
  have h4 : next .relaxed 1 (l₁ 1) ⟨mem₃, 1⟩ (.load 1) =
      some ((.turn, Know.saw ⊥ 1 1), ⟨mem₃, 1⟩) := by
    simp [next, load, l₁, mem₃]
  have h5 : next .relaxed 1 (.turn, Know.saw ⊥ 1 1) ⟨mem₃, 1⟩ (.read default) =
      some ((.raced, Know.saw ⊥ 1 1), ⟨mem₃, 1⟩) := by
    have hstamp : (mem₂.plain default).writes 0 = k₁.2 0 + 1 := writes_of_write hwrite
    have hlt : (Know.saw ⊥ 1 1 : Know (Fin (n + 2)) ℕ).2 0 < (mem₃.plain default).writes 0 := by
      change 0 < (mem₂.plain default).writes 0
      rw [hstamp]
      exact Nat.succ_pos _
    simp only [next, readPlain_eq_none hlt]
  have hne : (1 : Fin (n + 2)) ≠ 0 := Fin.zero_ne_one.symm
  have hr₀ : (sys .relaxed (n + 2) Y W).Reachable ⟨l₁, d₀⟩ := .start ⟨rfl, _, rfl⟩
  have hr₁ := Threads.reachable_next hr₀ rfl h1
  have hr₂ := Threads.reachable_next hr₁ (Function.update_self ..) h2
  have hr₃ := Threads.reachable_next hr₂ (Function.update_self ..) h3
  have hr₄ := Threads.reachable_next hr₃ (t := 1) (l := l₁ 1)
    (by simp only [Function.update_of_ne hne]) h4
  have hr₅ := Threads.reachable_next hr₄ (Function.update_self ..) h5
  refine ⟨_, hr₅, ?_⟩
  dsimp only
  rw [Function.update_self]

/-- **Memory is handed over safely, unless relaxed.** For two or more threads, any cells and any
    accesses to them: no access races, in any run, if and only if the mode is not `relaxed`. -/
theorem transfer_safe_iff (m : MemoryMode) (n : ℕ) :
    (∀ c, (sys m (n + 2) Y W).Reachable c → ∀ i, (c.loc i).1 ≠ .raced) ↔ m ≠ .relaxed := by
  constructor
  · rintro h rfl
    obtain ⟨c, hc, hraced⟩ := raced_reach (n := n) (Y := Y) (W := W)
    exact h c hc 1 hraced
  · intro hm c hc i hraced
    have hA := assert_reach hm hc i
    rw [Assert, hraced] at hA
    exact hA

end Race

end CppConcurrency.Transfer
