/-
  Histories and linearizability.

  A history is the list of invocations and responses of a run, in the order of their
  occurrence. `reading h` reads it from left to right: which call each thread has pending,
  and the completed operations with the positions of their invocation and response.

  A sequential object `SeqSpec` says what an operation returns and does in a given state,
  or that it is not possible there. `Legal S ops s` says that `ops`, run one after another
  from the initial state, return what they are recorded to return and end in `s`.

  `Linearization S done order s`: `order` lists exactly the completed operations `done`, never
  puts an operation after one that was invoked only after its response, and is legal.

  Proved:
  * `realTime_completed`: the order of the responses respects real time, so the completed
    operations linearize as soon as they are legal in that order.
  * `Tracks` and its three rules relate a history to the calls that the threads' local
    states say are in progress, one rule for each way a step can extend the history.
-/
import Mathlib.Data.List.Induction
import Mathlib.Logic.Function.Basic

namespace Concur

/-- An invocation or a response. -/
inductive Event (ι Op Ret : Type*) where
  | inv (t : ι) (op : Op)
  | res (t : ι) (r : Ret)
  deriving DecidableEq, Repr

/-- A completed operation, with the positions of its two events in the history. -/
structure OpRec (ι Op Ret : Type*) where
  tid : ι
  op : Op
  ret : Ret
  invAt : ℕ
  resAt : ℕ
  deriving DecidableEq, Repr

/-- What was called and what it returned. -/
def OpRec.sig {ι Op Ret : Type*} (o : OpRec ι Op Ret) : Op × Ret := (o.op, o.ret)

/-- A history read so far. `wellFormed` turns false when a thread calls inside a call or
    responds outside one. -/
structure Reading (ι Op Ret : Type*) where
  clock : ℕ
  pending : ι → Option (Op × ℕ)
  completed : List (OpRec ι Op Ret)
  wellFormed : Bool

variable {ι Op Ret : Type*} [DecidableEq ι]

/-- Read one event. -/
def Reading.read (x : Reading ι Op Ret) : Event ι Op Ret → Reading ι Op Ret
  | .inv t op =>
      { clock := x.clock + 1
        pending := Function.update x.pending t (some (op, x.clock))
        completed := x.completed
        wellFormed := x.wellFormed && (x.pending t).isNone }
  | .res t r =>
      match x.pending t with
      | some (op, i) =>
          { clock := x.clock + 1
            pending := Function.update x.pending t none
            completed := x.completed ++ [⟨t, op, r, i, x.clock⟩]
            wellFormed := x.wellFormed }
      | none => { x with clock := x.clock + 1, wellFormed := false }

/-- Read a whole history. -/
def reading (h : List (Event ι Op Ret)) : Reading ι Op Ret :=
  h.foldl Reading.read ⟨0, fun _ => none, [], true⟩

/-- The completed operations, in the order of their responses. -/
def completed (h : List (Event ι Op Ret)) : List (OpRec ι Op Ret) := (reading h).completed

/-- What the completed operations were and returned, in the order of their responses. -/
def ops (h : List (Event ι Op Ret)) : List (Op × Ret) := (completed h).map OpRec.sig

/-- The call a thread has pending. -/
def pendingOp (h : List (Event ι Op Ret)) (t : ι) : Option Op :=
  ((reading h).pending t).map Prod.fst

/-- Every thread alternates invocations and responses. -/
def WellFormed (h : List (Event ι Op Ret)) : Prop := (reading h).wellFormed = true

theorem reading_snoc (h : List (Event ι Op Ret)) (e : Event ι Op Ret) :
    reading (h ++ [e]) = (reading h).read e := by
  rw [reading, List.foldl_append]
  rfl

/-! ## Real time -/

/-- The positions recorded by a reading are those of events already read, invocations come
    before their responses, and the completed operations are in the order of responses. -/
structure Timed (x : Reading ι Op Ret) : Prop where
  pending : ∀ t op i, x.pending t = some (op, i) → i < x.clock
  completed : ∀ o ∈ x.completed, o.invAt < o.resAt ∧ o.resAt < x.clock
  sorted : x.completed.Pairwise fun a b => a.resAt < b.resAt

theorem Timed.read {x : Reading ι Op Ret} (h : Timed x) (e : Event ι Op Ret) :
    Timed (x.read e) := by
  cases e with
  | inv t op =>
      refine ⟨fun u op' i hu => ?_, fun o ho => ?_, h.sorted⟩
      · by_cases hut : u = t
        · subst hut
          simp only [Reading.read, Function.update_self, Option.some.injEq, Prod.mk.injEq] at hu
          exact hu.2 ▸ Nat.lt_succ_self _
        · simp only [Reading.read, Function.update_of_ne hut] at hu
          exact Nat.lt_succ_of_lt (h.pending u op' i hu)
      · obtain ⟨h1, h2⟩ := h.completed o ho
        exact ⟨h1, Nat.lt_succ_of_lt h2⟩
  | res t r =>
      cases hp : x.pending t with
      | none =>
          simp only [Reading.read, hp]
          refine ⟨fun u op' i hu => Nat.lt_succ_of_lt (h.pending u op' i hu), fun o ho => ?_,
            h.sorted⟩
          obtain ⟨h1, h2⟩ := h.completed o ho
          exact ⟨h1, Nat.lt_succ_of_lt h2⟩
      | some c =>
          obtain ⟨op, i⟩ := c
          have hi := h.pending t op i hp
          simp only [Reading.read, hp]
          refine ⟨fun u op' j hu => ?_, fun o ho => ?_, ?_⟩
          · dsimp only at hu ⊢
            by_cases hut : u = t
            · subst hut
              rw [Function.update_self] at hu
              cases hu
            · rw [Function.update_of_ne hut] at hu
              exact Nat.lt_succ_of_lt (h.pending u op' j hu)
          · rcases List.mem_append.mp ho with ho | ho
            · obtain ⟨h1, h2⟩ := h.completed o ho
              exact ⟨h1, Nat.lt_succ_of_lt h2⟩
            · rw [List.mem_singleton.mp ho]
              exact ⟨hi, Nat.lt_succ_self _⟩
          · refine List.pairwise_append.mpr ⟨h.sorted, List.pairwise_singleton _ _, ?_⟩
            intro a ha b hb
            rw [List.mem_singleton.mp hb]
            exact (h.completed a ha).2

theorem timed_reading (h : List (Event ι Op Ret)) : Timed (reading h) := by
  induction h using List.reverseRecOn with
  | nil => exact ⟨fun _ _ _ hu => (nomatch hu), fun _ ho => (nomatch ho), List.Pairwise.nil⟩
  | append_singleton h e ih =>
      rw [reading_snoc]
      exact ih.read e

/-- The order respects real time: nothing is put after an operation that was invoked only
    after its response. -/
def RealTime (order : List (OpRec ι Op Ret)) : Prop :=
  order.Pairwise fun a b => ¬ b.resAt < a.invAt

theorem realTime_completed (h : List (Event ι Op Ret)) : RealTime (completed h) := by
  have ht := timed_reading h
  refine ht.sorted.imp_of_mem fun {a b} ha _ hlt hb => ?_
  exact absurd (Nat.lt_trans hb (ht.completed a ha).1) (Nat.not_lt.mpr (Nat.le_of_lt hlt))

/-! ## Sequential objects -/

/-- A sequential object: what an operation does and returns in a state, or `none` where it
    is not possible. -/
structure SeqSpec (σ Op Ret : Type*) where
  init : σ
  apply : σ → Op → Option (σ × Ret)

/-- The operations, run in this order from the initial state, return what is recorded. -/
inductive Legal {σ : Type*} (S : SeqSpec σ Op Ret) : List (Op × Ret) → σ → Prop
  | nil : Legal S [] S.init
  | snoc {os : List (Op × Ret)} {s s' : σ} {op : Op} {r : Ret} (h : Legal S os s)
      (ha : S.apply s op = some (s', r)) : Legal S (os ++ [(op, r)]) s'

omit [DecidableEq ι] in
/-- Every operation of a legal sequence is possible after those before it. -/
theorem Legal.split {σ : Type*} {S : SeqSpec σ Op Ret} {before after : List (Op × Ret)}
    {op : Op} {r : Ret} {s : σ} (h : Legal S (before ++ (op, r) :: after) s) :
    ∃ u u', Legal S before u ∧ S.apply u op = some (u', r) := by
  induction after using List.reverseRecOn generalizing s with
  | nil =>
      generalize hos : before ++ [(op, r)] = os at h
      cases h with
      | nil => exact absurd hos (by simp)
      | snoc h ha =>
          obtain ⟨rfl, he⟩ := List.append_inj' hos rfl
          cases he
          exact ⟨_, _, h, ha⟩
  | append_singleton after e ih =>
      generalize hos : before ++ (op, r) :: (after ++ [e]) = os at h
      cases h with
      | nil => exact absurd hos (by simp)
      | snoc h ha =>
          rw [← List.cons_append, ← List.append_assoc] at hos
          obtain ⟨rfl, -⟩ := List.append_inj' hos rfl
          exact ih h

/-- `order` is a sequential order of the completed operations `done`, consistent with real
    time, in which the object `S` returns what they returned; it ends in `s`. -/
structure Linearization {σ : Type*} (S : SeqSpec σ Op Ret) (done order : List (OpRec ι Op Ret))
    (s : σ) : Prop where
  perm : order.Perm done
  realTime : RealTime order
  legal : Legal S (order.map OpRec.sig) s

omit [DecidableEq ι] in
/-- An order that respects real time linearizes as soon as it is legal. -/
theorem linearization_of_legal {σ : Type*} {S : SeqSpec σ Op Ret}
    {order : List (OpRec ι Op Ret)} {s : σ} (ht : RealTime order)
    (hl : Legal S (order.map OpRec.sig) s) : Linearization S order order s :=
  ⟨List.Perm.refl _, ht, hl⟩

/-! ## Histories of systems -/

/-- The history is well formed, and the pending call of each thread is the one its local
    state says it is in. -/
structure Tracks {L : Type*} (opOf : L → Option Op) (loc : ι → L)
    (h : List (Event ι Op Ret)) : Prop where
  wellFormed : WellFormed h
  pending : ∀ t, pendingOp h t = opOf (loc t)

namespace Tracks

variable {L : Type*} {opOf : L → Option Op} {loc : ι → L} {h : List (Event ι Op Ret)} {t : ι}
  {l : L}

/-- A step inside a call, or between calls, adds no event. -/
theorem stay (ht : Tracks opOf loc h) (hl : opOf l = opOf (loc t)) :
    Tracks opOf (Function.update loc t l) h := by
  refine ⟨ht.wellFormed, fun u => ?_⟩
  by_cases hu : u = t
  · subst hu
    rw [Function.update_self, hl]
    exact ht.pending u
  · rw [Function.update_of_ne hu]
    exact ht.pending u

/-- A thread outside any call invokes `op`. -/
theorem invoke (ht : Tracks opOf loc h) (hold : opOf (loc t) = none) {op : Op}
    (hl : opOf l = some op) : Tracks opOf (Function.update loc t l) (h ++ [.inv t op]) := by
  have hnone : (reading h).pending t = none := by
    have := ht.pending t
    rw [hold, pendingOp, Option.map_eq_none_iff] at this
    exact this
  refine ⟨?_, fun u => ?_⟩
  · unfold WellFormed
    rw [reading_snoc, Reading.read, hnone]
    simpa [WellFormed] using ht.wellFormed
  · unfold pendingOp
    rw [reading_snoc]
    by_cases hu : u = t
    · subst hu
      simp only [Reading.read, Function.update_self, Option.map_some, hl]
    · simp only [Reading.read, Function.update_of_ne hu]
      exact ht.pending u

theorem ops_invoke (h : List (Event ι Op Ret)) (t : ι) (op : Op) :
    ops (h ++ [.inv t op]) = ops h := by
  unfold ops completed
  rw [reading_snoc]
  rfl

/-- A thread inside a call responds. -/
theorem respond (ht : Tracks opOf loc h) {op : Op} (hold : opOf (loc t) = some op)
    (hl : opOf l = none) (r : Ret) :
    Tracks opOf (Function.update loc t l) (h ++ [.res t r]) := by
  have hp := ht.pending t
  rw [hold, pendingOp, Option.map_eq_some_iff] at hp
  obtain ⟨c, hc, -⟩ := hp
  refine ⟨?_, fun u => ?_⟩
  · unfold WellFormed
    rw [reading_snoc]
    simp only [Reading.read, hc]
    exact ht.wellFormed
  · unfold pendingOp
    rw [reading_snoc]
    by_cases hu : u = t
    · subst hu
      simp only [Reading.read, hc, Function.update_self, Option.map_none, hl]
    · simp only [Reading.read, hc, Function.update_of_ne hu]
      exact ht.pending u

/-- The response completes the pending call. -/
theorem ops_respond (ht : Tracks opOf loc h) {op : Op} (hold : opOf (loc t) = some op)
    (r : Ret) : ops (h ++ [.res t r]) = ops h ++ [(op, r)] := by
  have hp := ht.pending t
  rw [hold, pendingOp, Option.map_eq_some_iff] at hp
  obtain ⟨⟨op', i⟩, hc, rfl⟩ := hp
  unfold ops completed
  rw [reading_snoc]
  simp only [Reading.read, hc, List.map_append, List.map_cons, List.map_nil, OpRec.sig]

end Tracks

end Concur
