/-
  Objects whose data is guarded by a mutex, and calls that may fail on the way.

  `LockedHeap κ D ε` holds the objects: the data of each, and whether its mutex is locked. `plan`
  says what the next steps that may fail do: succeed, or fail with an `ε`. It is any list, and
  after its end nothing fails.

  `attempt` is a step that may fail. `lockGuard q p` runs `p` with the mutex of `q` locked,
  and unlocks it on every way out of `p`. A mutex that is locked already cannot be locked (its
  owner is the one caller there is), and undefined behaviour ends the program, so a program
  with a `Triple` does neither.

  `lockGuard_spec`: if `p`, when it throws, leaves everything alone, then so does
  `lockGuard q p`, and the mutex is unlocked.
-/
import CppConcurrency.Lib.Program

namespace Concur

variable {κ D ε η α : Type*}

/-- The data of an object, and whether its mutex is locked. -/
structure Cell (D : Type*) where
  data : D
  locked : Bool
  deriving DecidableEq, Repr

/-- The objects that exist, and which of the next attempts fail. -/
structure LockedHeap (κ D ε : Type*) where
  cell : κ → Option (Cell D)
  plan : List (Option ε)

namespace LockedHeap

def live (s : LockedHeap κ D ε) (q : κ) : Bool := (s.cell q).isSome

def data (s : LockedHeap κ D ε) (q : κ) : Option D := (s.cell q).map Cell.data

/-- No mutex is locked. -/
def Free (s : LockedHeap κ D ε) : Prop := ∀ q c, s.cell q = some c → c.locked = false

/-- Objects with the given data. -/
def start (data : κ → Option D) (plan : List (Option ε)) : LockedHeap κ D ε where
  cell q := (data q).map fun d => ⟨d, false⟩
  plan := plan

theorem free_start (data : κ → Option D) (plan : List (Option ε)) : (start data plan).Free := by
  intro q c hc
  obtain ⟨d, -, rfl⟩ := Option.map_eq_some_iff.mp hc
  rfl

/-- The data of an object of a state in which no mutex is locked. -/
theorem Free.cell_eq {s : LockedHeap κ D ε} (h : s.Free) {q : κ} {d : D} (hd : s.data q = some d) :
    s.cell q = some ⟨d, false⟩ := by
  obtain ⟨c, hc, rfl⟩ := Option.map_eq_some_iff.mp hd
  rw [hc, ← h q c hc]

/-- An object that exists has data. -/
theorem live_iff {s : LockedHeap κ D ε} {q : κ} : s.live q = true ↔ ∃ d, s.data q = some d := by
  rw [live, ← Option.isSome_map (f := Cell.data), Option.isSome_iff_exists]
  rfl

theorem cell_of_not_live {s : LockedHeap κ D ε} {q : κ} (h : s.live q = false) :
    s.cell q = none := by
  rwa [live, Option.isSome_eq_false_iff, Option.isNone_iff_eq_none] at h

/-- Undefined behaviour. -/
def undefined : Prog (LockedHeap κ D ε) η α := fun _ => .terminated

/-- A step that may fail. -/
def attempt (failed : ε → η) : Prog (LockedHeap κ D ε) η Unit := fun s =>
  match s.plan with
  | [] => .ok () s
  | none :: plan => .ok () { s with plan := plan }
  | some e :: plan => .threw (failed e) { s with plan := plan }

/-- Read the data of `q`. -/
def get (q : κ) : Prog (LockedHeap κ D ε) η D := fun s =>
  match s.cell q with
  | none => .terminated
  | some c => .ok c.data s

variable [DecidableEq κ]

def put (s : LockedHeap κ D ε) (q : κ) (c : Cell D) : LockedHeap κ D ε :=
  { s with cell := Function.update s.cell q (some c) }

/-- Store `d` in `q`. -/
def set (q : κ) (d : D) : Prog (LockedHeap κ D ε) η Unit := fun s =>
  match s.cell q with
  | none => .terminated
  | some c => .ok () (s.put q ⟨d, c.locked⟩)

/-- The object `q` comes into being. -/
def create (q : κ) (d : D) : Prog (LockedHeap κ D ε) η Unit := .write fun s => s.put q ⟨d, false⟩

/-- The object `q` is destroyed, with its mutex unlocked. -/
def destroy (q : κ) : Prog (LockedHeap κ D ε) η Unit := fun s =>
  match s.cell q with
  | none => .terminated
  | some c =>
      if c.locked then .terminated
      else .ok () { s with cell := Function.update s.cell q none }

/-- `m.lock()` -/
def lock (q : κ) : Prog (LockedHeap κ D ε) η Unit := fun s =>
  match s.cell q with
  | none => .terminated
  | some c => if c.locked then .terminated else .ok () (s.put q ⟨c.data, true⟩)

/-- `m.unlock()` -/
def unlock (q : κ) : Prog (LockedHeap κ D ε) η Unit := fun s =>
  match s.cell q with
  | none => .terminated
  | some c => if c.locked then .ok () (s.put q ⟨c.data, false⟩) else .terminated

/-- `std::lock_guard<std::mutex> lock(m);` and the rest of the block. -/
def lockGuard (q : κ) (p : Prog (LockedHeap κ D ε) η α) : Prog (LockedHeap κ D ε) η α :=
  Prog.seq (lock q) fun _ => Prog.andFinally p (unlock q)

/-! ## Triples -/

omit [DecidableEq κ] in
/-- These are the objects, whatever the plan is. -/
def At (c : κ → Option (Cell D)) (s : LockedHeap κ D ε) : Prop := s.cell = c

section Specs

variable {c : κ → Option (Cell D)} {q : κ} {d : D} {b : Bool}

omit [DecidableEq κ] in
theorem attempt_spec (failed : ε → η) :
    Prog.Triple (At c) (attempt failed : Prog (LockedHeap κ D ε) η Unit) (fun _ => At c)
      fun x s => (∃ e, x = failed e) ∧ At c s := by
  intro s hs
  unfold attempt
  split
  · exact hs
  · exact hs
  · exact ⟨⟨_, rfl⟩, hs⟩

omit [DecidableEq κ] in
theorem get_spec (hq : c q = some ⟨d, b⟩) :
    Prog.Triple (At c) (get q : Prog (LockedHeap κ D ε) η D) (fun v s => v = d ∧ At c s)
      Res.never := by
  rintro s rfl
  unfold get
  rw [hq]
  exact ⟨rfl, rfl⟩

theorem set_spec (hq : c q = some ⟨d, b⟩) (d' : D) :
    Prog.Triple (At c) (set q d' : Prog (LockedHeap κ D ε) η Unit)
      (fun _ => At (Function.update c q (some ⟨d', b⟩))) Res.never := by
  rintro s rfl
  unfold set
  rw [hq]
  exact rfl

theorem create_spec (q : κ) (d : D) :
    Prog.Triple (At c) (create q d : Prog (LockedHeap κ D ε) η Unit)
      (fun _ => At (Function.update c q (some ⟨d, false⟩))) Res.never := by
  refine Prog.Triple.write ?_
  rintro s rfl
  exact rfl

theorem destroy_spec (hq : c q = some ⟨d, false⟩) :
    Prog.Triple (At c) (destroy q : Prog (LockedHeap κ D ε) η Unit)
      (fun _ => At (Function.update c q none)) Res.never := by
  rintro s rfl
  unfold destroy
  rw [hq]
  exact rfl

theorem lock_spec (hq : c q = some ⟨d, false⟩) :
    Prog.Triple (At c) (lock q : Prog (LockedHeap κ D ε) η Unit)
      (fun _ => At (Function.update c q (some ⟨d, true⟩))) Res.never := by
  rintro s rfl
  unfold lock
  rw [hq]
  exact rfl

theorem unlock_spec (hq : c q = some ⟨d, true⟩) :
    Prog.Triple (At c) (unlock q : Prog (LockedHeap κ D ε) η Unit)
      (fun _ => At (Function.update c q (some ⟨d, false⟩))) Res.never := by
  rintro s rfl
  unfold unlock
  rw [hq]
  exact rfl

/-- A guarded block that leaves the data alone when it throws is all or nothing. -/
theorem lockGuard_spec {p : Prog (LockedHeap κ D ε) η α} {Q : α → D → Prop} {E : η → Prop}
    (hq : c q = some ⟨d, false⟩)
    (hp : Prog.Triple (At (Function.update c q (some ⟨d, true⟩))) p
      (fun a s => ∃ d', Q a d' ∧ At (Function.update c q (some ⟨d', true⟩)) s)
      fun e s => E e ∧ At (Function.update c q (some ⟨d, true⟩)) s) :
    Prog.Triple (At c) (lockGuard q p)
      (fun a s => ∃ d', Q a d' ∧ At (Function.update c q (some ⟨d', false⟩)) s)
      fun e s => E e ∧ At c s := by
  have hfree (d' : D) : Prog.Triple (At (Function.update c q (some ⟨d', true⟩)))
      (unlock q : Prog (LockedHeap κ D ε) η Unit)
      (fun _ => At (Function.update c q (some ⟨d', false⟩))) Res.never := by
    refine (unlock_spec (Function.update_self ..)).post fun _ s hs => ?_
    rwa [Function.update_idem] at hs
  have hback : Function.update c q (some ⟨d, false⟩) = c := by rw [← hq, Function.update_eq_self]
  unfold lockGuard
  refine Prog.Triple.seq (lock_spec hq).quiet fun _ => ?_
  refine Prog.Triple.andFinally hp (fun a => ?_) fun e => ?_
  · rintro s ⟨d', hQ, hs⟩
    exact ((hfree d').quiet s hs).imp (fun _ u hu => ⟨d', hQ, hu⟩) fun _ _ he => he
  · rintro s ⟨hE, hs⟩
    refine ((hfree d).quiet s hs).imp (fun _ u hu => ⟨hE, ?_⟩) fun _ _ he => he
    rwa [hback] at hu

end Specs

end LockedHeap

end Concur
