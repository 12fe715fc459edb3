/-
  Classes whose members run under the mutex of their object.

  A `MonitorClass` gives the bodies of the members: `entry op` is the first statement after
  the lock is taken, and `stmt l d` executes the statement at `l` on the contents `d` of the
  object. `Monitor.step` is everything around the bodies, one small step at a time, for any
  number of threads and objects:
  * a member call waits for the mutex of its object, runs its statements while holding it,
    and gives it back last (`unlock`), also when a statement throws;
  * `Stmt.wait` is condition_variable::wait: it releases the mutex and goes to sleep in one
    step; a sleeping thread becomes `woken` by a notify_one or spuriously, and has to take
    the mutex again before it goes on;
  * `Stmt.notify` is notify_one: one thread asleep on the same object, if there is one;
  * the default constructor makes an empty object; the copy constructor locks the mutex of
    its source only and copies the contents element by element, in order.
  Objects are used from the moment their constructor has returned.

  The history of invocations and responses is recorded in `hist`. An operation responds in
  the step that releases the mutex.

  `Moves` lists what a step can be, one rule for each case; `moves_of_step` is the
  inversion lemma that every invariant is derived from.
-/
import CppConcurrency.Lib.Lts
import CppConcurrency.Lib.Objects
import Mathlib.Data.Fintype.Card

namespace Concur

/-- The effect of one statement of a body. -/
inductive Stmt (T Ret Loc : Type*) where
  | next (d : List T) (l : Loc)
  | notify (l : Loc)
  | wait (l : Loc)
  | leave (r : Ret)

/-- The bodies of the members of a class. `throws l`: the statement at `l` may throw, in
    which case it has no effect. -/
structure MonitorClass (T Op Ret Loc : Type*) where
  entry : Op → Loc
  stmt : Loc → List T → Option (Stmt T Ret Loc)
  throws : Loc → Bool

namespace Monitor

/-- Where a thread stands. -/
inductive Pc (κ T Op Ret Loc : Type*) where
  | idle (last : Option (ObjRet T Ret))
  | constructing (q : κ)
  | copyLock (q other : κ)
  | copyData (q other : κ)
  | copyUnlock (q other : κ) (ok : Bool)
  | lock (q : κ) (op : Op)
  | body (q : κ) (op : Op) (l : Loc)
  | asleep (q : κ) (op : Op) (l : Loc)
  | woken (q : κ) (op : Op) (l : Loc)
  | unlock (q : κ) (op : Op) (r : Option Ret)

/-- The lifetime of an object; `building t`: thread `t` runs its constructor. -/
inductive Life (ι : Type*) where
  | raw
  | building (t : ι)
  | live

/-- A state of the monitor. -/
structure St (ι κ T Op Ret Loc : Type*) where
  pc : ι → Pc κ T Op Ret Loc
  owner : κ → Option ι
  data : κ → List T
  life : κ → Life ι
  hist : List (Event ι (ObjOp κ Op) (ObjRet T Ret))

/-- Who moves. `run` is the next statement of a thread, `notify t u` a notify_one of `t` that
    wakes `u`, and `fail` the exceptional exit of the next statement. -/
inductive Act (ι κ Op : Type*) where
  | call (t : ι) (c : ObjOp κ Op)
  | lock (t : ι)
  | run (t : ι)
  | notify (t : ι) (u : Option ι)
  | spurious (u : ι)
  | fail (t : ι)
  deriving DecidableEq, Repr

variable {ι κ T Op Ret Loc : Type*}

namespace Pc

/-- The mutex a thread holds. -/
def mutex : Pc κ T Op Ret Loc → Option κ
  | .copyData _ other => some other
  | .copyUnlock _ other _ => some other
  | .body q _ _ => some q
  | .unlock q _ _ => some q
  | _ => none

/-- The object a thread is constructing. -/
def builds : Pc κ T Op Ret Loc → Option κ
  | .constructing q => some q
  | .copyLock q _ => some q
  | .copyData q _ => some q
  | .copyUnlock q _ _ => some q
  | _ => none

/-- The constructed object a thread is using. -/
def uses : Pc κ T Op Ret Loc → Option κ
  | .copyLock _ other => some other
  | .copyData _ other => some other
  | .copyUnlock _ other _ => some other
  | .lock q _ => some q
  | .body q _ _ => some q
  | .asleep q _ _ => some q
  | .woken q _ _ => some q
  | .unlock q _ _ => some q
  | _ => none

/-- The call a thread is in. -/
def call : Pc κ T Op Ret Loc → Option (ObjOp κ Op)
  | .idle _ => none
  | .constructing q => some (.construct q)
  | .copyLock q other => some (.copy q other)
  | .copyData q other => some (.copy q other)
  | .copyUnlock q other _ => some (.copy q other)
  | .lock q op => some (.on q op)
  | .body q op _ => some (.on q op)
  | .asleep q op _ => some (.on q op)
  | .woken q op _ => some (.on q op)
  | .unlock q op _ => some (.on q op)

variable [DecidableEq κ]

/-- The thread sleeps un-notified on object `q`. -/
def asleepOn (q : κ) : Pc κ T Op Ret Loc → Bool
  | .asleep q' _ _ => q' = q
  | _ => false

/-- The thread has been woken on object `q` and has yet to take the mutex again. -/
def wokenOn (q : κ) : Pc κ T Op Ret Loc → Bool
  | .woken q' _ _ => q' = q
  | _ => false

end Pc

/-- The thread that runs the constructor of an object. -/
def Life.builder : Life ι → Option ι
  | .building t => some t
  | _ => none

/-- The result of a member: what it returned, or that it threw. -/
def result : Option Ret → ObjRet T Ret
  | some r => .ret r
  | none => .threw

variable [DecidableEq ι]

/-- Move thread `t` to `pc`. -/
def St.goto (s : St ι κ T Op Ret Loc) (t : ι) (pc : Pc κ T Op Ret Loc) : St ι κ T Op Ret Loc :=
  { s with pc := Function.update s.pc t pc }

/-- Thread `t` returns from its call. -/
def St.respond (s : St ι κ T Op Ret Loc) (t : ι) (r : ObjRet T Ret) : St ι κ T Op Ret Loc :=
  { s with pc := Function.update s.pc t (.idle (some r)), hist := s.hist ++ [.res t r] }

variable [DecidableEq κ]

/-- Thread `t` calls `c`. -/
def St.invoke (s : St ι κ T Op Ret Loc) (t : ι) (c : ObjOp κ Op) :
    Option (St ι κ T Op Ret Loc) :=
  let s' : St ι κ T Op Ret Loc := { s with hist := s.hist ++ [.inv t c] }
  match c with
  | .construct q =>
      match s.life q with
      | .raw => some { s'.goto t (.constructing q) with
          life := Function.update s.life q (.building t)
          data := Function.update s.data q [] }
      | _ => none
  | .copy q other =>
      match s.life q, s.life other with
      | .raw, .live => some { s'.goto t (.copyLock q other) with
          life := Function.update s.life q (.building t)
          data := Function.update s.data q [] }
      | _, _ => none
  | .on q op =>
      match s.life q with
      | .live => some (s'.goto t (.lock q op))
      | _ => none

/-- Thread `t` takes the mutex of `q`, if it is free, and goes on at `pc`. -/
def St.take (s : St ι κ T Op Ret Loc) (t : ι) (q : κ) (pc : Pc κ T Op Ret Loc) :
    Option (St ι κ T Op Ret Loc) :=
  match s.owner q with
  | none => some { s.goto t pc with owner := Function.update s.owner q (some t) }
  | some _ => none

/-- The next statement of thread `t`. -/
def St.exec (C : MonitorClass T Op Ret Loc) (s : St ι κ T Op Ret Loc) (t : ι) :
    Option (St ι κ T Op Ret Loc) :=
  match s.pc t with
  | .constructing q =>
      some { s.respond t (.made (s.data q)) with life := Function.update s.life q .live }
  | .copyData q other =>
      -- the element at the position the copy has reached, or the end of the source
      match (s.data other)[(s.data q).length]? with
      | some v => some { s with data := Function.update s.data q (s.data q ++ [v]) }
      | none => some (s.goto t (.copyUnlock q other true))
  | .copyUnlock q other true =>
      some { s.respond t (.made (s.data q)) with
        owner := Function.update s.owner other none
        life := Function.update s.life q .live }
  | .copyUnlock q other false =>
      some { s.respond t .threw with
        owner := Function.update s.owner other none
        life := Function.update s.life q .raw }
  | .body q op l =>
      match C.stmt l (s.data q) with
      | some (.next d l') =>
          some { s.goto t (.body q op l') with data := Function.update s.data q d }
      | some (.wait l') =>
          some { s.goto t (.asleep q op l') with owner := Function.update s.owner q none }
      | some (.leave r) => some (s.goto t (.unlock q op (some r)))
      | _ => none
  | .unlock q _ r =>
      some { s.respond t (result r) with owner := Function.update s.owner q none }
  | _ => none

variable [Fintype ι]

/-- One step of the monitor. -/
def step (C : MonitorClass T Op Ret Loc) (s : St ι κ T Op Ret Loc) :
    Act ι κ Op → Option (St ι κ T Op Ret Loc)
  | .call t c =>
      match s.pc t with
      | .idle _ => s.invoke t c
      | _ => none
  | .lock t =>
      match s.pc t with
      | .copyLock q other => s.take t other (.copyData q other)
      | .lock q op => s.take t q (.body q op (C.entry op))
      | .woken q op l => s.take t q (.body q op l)
      | _ => none
  | .run t => s.exec C t
  | .notify t none =>
      match s.pc t with
      | .body q op l =>
          match C.stmt l (s.data q) with
          | some (.notify l') =>
              if ∀ u, (s.pc u).asleepOn q = false then some (s.goto t (.body q op l')) else none
          | _ => none
      | _ => none
  | .notify t (some u) =>
      match s.pc t, s.pc u with
      | .body q op l, .asleep q' op' k =>
          match C.stmt l (s.data q) with
          | some (.notify l') =>
              if q' = q then some ((s.goto u (.woken q op' k)).goto t (.body q op l')) else none
          | _ => none
      | _, _ => none
  | .spurious u =>
      match s.pc u with
      | .asleep q op l => some (s.goto u (.woken q op l))
      | _ => none
  | .fail t =>
      match s.pc t with
      | .copyData q other => some (s.goto t (.copyUnlock q other false))
      | .body q op l => if C.throws l then some (s.goto t (.unlock q op none)) else none
      | _ => none

omit [DecidableEq ι] [DecidableEq κ] [Fintype ι] in
/-- No object exists and nobody has called anything. -/
def initial : St ι κ T Op Ret Loc where
  pc _ := .idle none
  owner _ := none
  data _ := []
  life _ := .raw
  hist := []

/-- Any number of threads using any number of objects of the class. -/
def sys (C : MonitorClass T Op Ret Loc) : Lts (St ι κ T Op Ret Loc) (Act ι κ Op) where
  init s := s = initial
  step := step C

/-! ## What a step can be -/

/-- The cases of a step. -/
inductive Moves (C : MonitorClass T Op Ret Loc) (s : St ι κ T Op Ret Loc) :
    Act ι κ Op → St ι κ T Op Ret Loc → Prop
  | construct {t q last} (hpc : s.pc t = .idle last) (hq : s.life q = .raw) :
      Moves C s (.call t (.construct q))
        { s with
          pc := Function.update s.pc t (.constructing q)
          life := Function.update s.life q (.building t)
          data := Function.update s.data q []
          hist := s.hist ++ [.inv t (.construct q)] }
  | copy {t q other last} (hpc : s.pc t = .idle last) (hq : s.life q = .raw)
      (ho : s.life other = .live) :
      Moves C s (.call t (.copy q other))
        { s with
          pc := Function.update s.pc t (.copyLock q other)
          life := Function.update s.life q (.building t)
          data := Function.update s.data q []
          hist := s.hist ++ [.inv t (.copy q other)] }
  | on {t q op last} (hpc : s.pc t = .idle last) (hq : s.life q = .live) :
      Moves C s (.call t (.on q op))
        { s with
          pc := Function.update s.pc t (.lock q op)
          hist := s.hist ++ [.inv t (.on q op)] }
  | lockCopy {t q other} (hpc : s.pc t = .copyLock q other) (hfree : s.owner other = none) :
      Moves C s (.lock t)
        { s with
          pc := Function.update s.pc t (.copyData q other)
          owner := Function.update s.owner other (some t) }
  | lockOn {t q op} (hpc : s.pc t = .lock q op) (hfree : s.owner q = none) :
      Moves C s (.lock t)
        { s with
          pc := Function.update s.pc t (.body q op (C.entry op))
          owner := Function.update s.owner q (some t) }
  | relock {t q op l} (hpc : s.pc t = .woken q op l) (hfree : s.owner q = none) :
      Moves C s (.lock t)
        { s with
          pc := Function.update s.pc t (.body q op l)
          owner := Function.update s.owner q (some t) }
  | constructed {t q} (hpc : s.pc t = .constructing q) :
      Moves C s (.run t)
        { s with
          pc := Function.update s.pc t (.idle (some (.made (s.data q))))
          life := Function.update s.life q .live
          hist := s.hist ++ [.res t (.made (s.data q))] }
  | copyNext {t q other v} (hpc : s.pc t = .copyData q other)
      (hv : (s.data other)[(s.data q).length]? = some v) :
      Moves C s (.run t) { s with data := Function.update s.data q (s.data q ++ [v]) }
  | copyEnd {t q other} (hpc : s.pc t = .copyData q other)
      (hv : (s.data other)[(s.data q).length]? = none) :
      Moves C s (.run t) { s with pc := Function.update s.pc t (.copyUnlock q other true) }
  | copied {t q other} (hpc : s.pc t = .copyUnlock q other true) :
      Moves C s (.run t)
        { s with
          pc := Function.update s.pc t (.idle (some (.made (s.data q))))
          owner := Function.update s.owner other none
          life := Function.update s.life q .live
          hist := s.hist ++ [.res t (.made (s.data q))] }
  | uncopied {t q other} (hpc : s.pc t = .copyUnlock q other false) :
      Moves C s (.run t)
        { s with
          pc := Function.update s.pc t (.idle (some .threw))
          owner := Function.update s.owner other none
          life := Function.update s.life q .raw
          hist := s.hist ++ [.res t .threw] }
  | next {t q op l d l'} (hpc : s.pc t = .body q op l)
      (hs : C.stmt l (s.data q) = some (.next d l')) :
      Moves C s (.run t)
        { s with
          pc := Function.update s.pc t (.body q op l')
          data := Function.update s.data q d }
  | wait {t q op l l'} (hpc : s.pc t = .body q op l)
      (hs : C.stmt l (s.data q) = some (.wait l')) :
      Moves C s (.run t)
        { s with
          pc := Function.update s.pc t (.asleep q op l')
          owner := Function.update s.owner q none }
  | leave {t q op l r} (hpc : s.pc t = .body q op l)
      (hs : C.stmt l (s.data q) = some (.leave r)) :
      Moves C s (.run t) { s with pc := Function.update s.pc t (.unlock q op (some r)) }
  | unlock {t q op r} (hpc : s.pc t = .unlock q op r) :
      Moves C s (.run t)
        { s with
          pc := Function.update s.pc t (.idle (some (result r)))
          owner := Function.update s.owner q none
          hist := s.hist ++ [.res t (result r)] }
  | notifyNone {t q op l l'} (hpc : s.pc t = .body q op l)
      (hs : C.stmt l (s.data q) = some (.notify l'))
      (hnone : ∀ u, (s.pc u).asleepOn q = false) :
      Moves C s (.notify t none) { s with pc := Function.update s.pc t (.body q op l') }
  | notifyOne {t u q op l l' op' k} (hpc : s.pc t = .body q op l)
      (hu : s.pc u = .asleep q op' k) (hs : C.stmt l (s.data q) = some (.notify l')) :
      Moves C s (.notify t (some u))
        { s with
          pc := Function.update (Function.update s.pc u (.woken q op' k)) t (.body q op l') }
  | spurious {u q op l} (hpc : s.pc u = .asleep q op l) :
      Moves C s (.spurious u) { s with pc := Function.update s.pc u (.woken q op l) }
  | failCopy {t q other} (hpc : s.pc t = .copyData q other) :
      Moves C s (.fail t) { s with pc := Function.update s.pc t (.copyUnlock q other false) }
  | fail {t q op l} (hpc : s.pc t = .body q op l) (hl : C.throws l = true) :
      Moves C s (.fail t) { s with pc := Function.update s.pc t (.unlock q op none) }

variable {C : MonitorClass T Op Ret Loc} {s s' : St ι κ T Op Ret Loc}

omit [Fintype ι] in
theorem take_eq_some {t : ι} {q : κ} {pc : Pc κ T Op Ret Loc} (h : s.take t q pc = some s') :
    s.owner q = none ∧ s' = { s with
      pc := Function.update s.pc t pc, owner := Function.update s.owner q (some t) } := by
  unfold St.take at h
  split at h
  · next hq => cases h; exact ⟨hq, rfl⟩
  · cases h

theorem moves_call {t : ι} {c : ObjOp κ Op} (h : step C s (.call t c) = some s') :
    Moves C s (.call t c) s' := by
  simp only [step] at h
  split at h
  · next last hpc =>
      cases c with
      | construct q =>
          simp only [St.invoke] at h
          split at h
          · next hq => cases h; exact .construct hpc hq
          · cases h
      | copy q other =>
          simp only [St.invoke] at h
          split at h
          · next hq ho => cases h; exact .copy hpc hq ho
          · cases h
      | on q op =>
          simp only [St.invoke] at h
          split at h
          · next hq => cases h; exact .on hpc hq
          · cases h
  · cases h

theorem moves_run {t : ι} (h : step C s (.run t) = some s') : Moves C s (.run t) s' := by
  simp only [step, St.exec] at h
  split at h
  · next q hpc => cases h; exact .constructed hpc
  · next q other hpc =>
      split at h
      · next v hv => cases h; exact .copyNext hpc hv
      · next hv => cases h; exact .copyEnd hpc hv
  · next q other hpc => cases h; exact .copied hpc
  · next q other hpc => cases h; exact .uncopied hpc
  · next q op l hpc =>
      split at h
      · next d l' hs => cases h; exact .next hpc hs
      · next l' hs => cases h; exact .wait hpc hs
      · next r hs => cases h; exact .leave hpc hs
      · cases h
  · next q op r hpc => cases h; exact .unlock hpc
  · cases h

/-- The inversion lemma: every step is one of the cases of `Moves`. -/
theorem moves_of_step {a : Act ι κ Op} (h : step C s a = some s') : Moves C s a s' := by
  cases a with
  | call t c => exact moves_call h
  | lock t =>
      simp only [step] at h
      split at h
      · next hpc => obtain ⟨hq, rfl⟩ := take_eq_some h; exact .lockCopy hpc hq
      · next hpc => obtain ⟨hq, rfl⟩ := take_eq_some h; exact .lockOn hpc hq
      · next hpc => obtain ⟨hq, rfl⟩ := take_eq_some h; exact .relock hpc hq
      · cases h
  | run t => exact moves_run h
  | notify t u =>
      cases u with
      | none =>
          simp only [step] at h
          split at h
          · next q op l hpc =>
              split at h
              · next l' hs =>
                  split at h
                  · next hnone => cases h; exact .notifyNone hpc hs hnone
                  · cases h
              · cases h
          · cases h
      | some u =>
          simp only [step] at h
          split at h
          · next q op l q' op' k hpc hu =>
              split at h
              · next l' hs =>
                  split at h
                  · next hq => cases hq; cases h; exact .notifyOne hpc hu hs
                  · cases h
              · cases h
          · cases h
  | spurious u =>
      simp only [step] at h
      split at h
      · next hpc => cases h; exact .spurious hpc
      · cases h
  | fail t =>
      simp only [step] at h
      split at h
      · next hpc => cases h; exact .failCopy hpc
      · next hpc =>
          split at h
          · next hl => cases h; exact .fail hpc hl
          · cases h
      · cases h

end Monitor

end Concur
