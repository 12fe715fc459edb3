/-
  Promises that are set from a thread: Future/promise_future_basic.cpp and
  Future/set_exception.cpp.

  Model. main prints some lines, starts the thread t1 with a promise moved into it, calls get() on
  the future some times, and joins t1. t1 prints lines, and sets the promise, to a value or to an
  exception, as often as its `body` says. At its end the promise is destroyed.
  * The first call that sets the promise does so. Every other one throws a std::future_error, that
    the promise is already satisfied, which is caught and printed.
  * A promise that is destroyed before it has been set stores a std::future_error, that the
    promise is broken.
  * The first get() waits for the outcome and gives it. After that the future is not valid, and
    get() throws a std::future_error, that there is no state (the standard only encourages this).
    What get() gives is printed, and what it throws is caught and printed.
  A line is printed in one step. A failed start of t1 ends the program, and is left out.

  Proved (`delivered`): whatever t1 does, the outcome is the first one that it sets; main and t1
  print the lines they should (`mainLines`, `bodyLines`), each in this order; and they get to
  their ends.
-/
import CppConcurrency.Lib.Threads

namespace CppConcurrency.Promise

open Concur

/-- main, and the thread that it starts. -/
inductive Who where
  | main
  | t1
  deriving DecidableEq, Repr

instance : Fintype Who where
  elems := {.main, .t1}
  complete := by rintro ⟨⟩ <;> decide

/-- What is thrown: a std::future_error, or an exception of the program. -/
inductive Exc (E : Type*) where
  | alreadySatisfied
  | brokenPromise
  | noState
  | other (e : E)
  deriving DecidableEq, Repr

/-- A printed line. -/
inductive Line (T V E : Type*) where
  | text (s : T)
  | value (v : V)
  | caught (e : Exc E)
  deriving DecidableEq, Repr

/-- A statement of t1. -/
inductive Stmt (T V E : Type*) where
  | print (s : T)
  | setValue (v : V)
  | setException (e : E)

/-- What main prints before it starts t1, what t1 does, and how often main calls get(). -/
structure Prog (T V E : Type*) where
  before : List T
  body : List (Stmt T V E)
  gets : ℕ

/-- Where main and t1 stand. -/
inductive Pc (T V E : Type*) where
  | before (rest : List T)
  | gets (k : ℕ)
  | join
  | returned
  | start
  | body (rest : List (Stmt T V E))
  | exit
  | ended

/-- What they share. `valid`: get() has not been called yet. -/
structure Shared (T V E : Type*) where
  outcome : Option (Except (Exc E) V)
  valid : Bool
  launched : Bool
  exited : Bool
  out : List (Who × Line T V E)

variable {T V E : Type*}

def Shared.print (d : Shared T V E) (w : Who) (l : Line T V E) : Shared T V E :=
  { d with out := d.out ++ [(w, l)] }

/-- What main prints of an outcome. -/
def shown : Except (Exc E) V → Line T V E
  | .ok v => .value v
  | .error e => .caught e

/-- `set_value` and `set_exception` of t1, with the handler around them. -/
def Shared.set (d : Shared T V E) (o : Except (Exc E) V) : Shared T V E :=
  match d.outcome with
  | none => { d with outcome := some o }
  | some _ => d.print .t1 (.caught .alreadySatisfied)

/-- The next statement of main. -/
def mainNext (p : Prog T V E) (l : Pc T V E) (d : Shared T V E) :
    Option (Pc T V E × Shared T V E) :=
  match l with
  | .before (s :: rest) => some (.before rest, d.print .main (.text s))
  | .before [] => some (.gets p.gets, { d with launched := true })
  | .gets 0 => some (.join, d)
  | .gets (k + 1) =>
      if d.valid then
        d.outcome.map fun o => (.gets k, { d with valid := false }.print .main (shown o))
      else some (.gets k, d.print .main (.caught .noState))
  | .join => if d.exited then some (.returned, d) else none
  | _ => none

/-- The next statement of t1. -/
def t1Next (p : Prog T V E) (l : Pc T V E) (d : Shared T V E) :
    Option (Pc T V E × Shared T V E) :=
  match l with
  | .start => if d.launched then some (.body p.body, d) else none
  | .body (.print s :: rest) => some (.body rest, d.print .t1 (.text s))
  | .body (.setValue v :: rest) => some (.body rest, d.set (.ok v))
  | .body (.setException e :: rest) => some (.body rest, d.set (.error (.other e)))
  | .body [] =>
      some (.exit, { d with outcome := some (d.outcome.getD (.error .brokenPromise)) })
  | .exit => some (.ended, { d with exited := true })
  | _ => none

def next (p : Prog T V E) : Who → Pc T V E → Shared T V E → Unit →
    Option (Pc T V E × Shared T V E)
  | .main => fun l d _ => mainNext p l d
  | .t1 => fun l d _ => t1Next p l d

/-- main begins, and t1 is not there. -/
def sys (p : Prog T V E) : Lts (Conf Who (Pc T V E) (Shared T V E)) (Who × Unit) :=
  threads (next p) (fun | .main => .before p.before | .t1 => .start)
    (· = ⟨none, true, false, false, []⟩)

/-! ## What should be printed -/

/-- The first outcome that t1 sets. -/
def first : List (Stmt T V E) → Except (Exc E) V
  | [] => .error .brokenPromise
  | .print _ :: rest => first rest
  | .setValue v :: _ => .ok v
  | .setException e :: _ => .error (.other e)

/-- The lines of t1, where `set` says whether the promise has been set. -/
def bodyLines (set : Bool) : List (Stmt T V E) → List (Line T V E)
  | [] => []
  | .print s :: rest => .text s :: bodyLines set rest
  | .setValue _ :: rest | .setException _ :: rest =>
      if set then .caught .alreadySatisfied :: bodyLines true rest else bodyLines true rest

/-- The lines of `k` calls of get(), where the outcome is `o`. -/
def getLines (valid : Bool) (o : Except (Exc E) V) : ℕ → List (Line T V E)
  | 0 => []
  | k + 1 => (if valid then shown o else .caught .noState) :: getLines false o k

def Prog.mainLines (p : Prog T V E) : List (Line T V E) :=
  p.before.map .text ++ getLines true (first p.body) p.gets

/-- The lines of one of them. -/
def lines (w : Who) (out : List (Who × Line T V E)) : List (Line T V E) :=
  out.filterMap fun x => if x.1 = w then some x.2 else none

inductive Text where
  | mainId
  | start
  | over
  deriving DecidableEq, Repr

/-- Future/promise_future_basic.cpp; `result` is what Busy gives. -/
def promiseFutureBasic (result : ℕ) : Prog Text ℕ Empty where
  before := [.mainId]
  body := [.print .start, .setValue result, .print .over, .setValue 43]
  gets := 2

/-- Future/set_exception.cpp -/
def setException : Prog Empty ℤ String where
  before := []
  body := [.setException "In-thread exception"]
  gets := 1

/-- The second value is never printed. -/
example (result : ℕ) : (promiseFutureBasic result).mainLines =
    [.text .mainId, .value result, .caught .noState] := rfl

example (result : ℕ) : bodyLines false (promiseFutureBasic result).body =
    [.text .start, .text .over, .caught .alreadySatisfied] := rfl

example : setException.mainLines = [.caught (.other "In-thread exception")] := rfl

/-! ## Assertions -/

variable {p : Prog T V E} {l l' : Pc T V E} {d d' : Shared T V E} {w u : Who}

/-- What holds all the time. -/
def Inv (p : Prog T V E) (d : Shared T V E) : Prop := ∀ o, d.outcome = some o → o = first p.body

/-- What main knows, where it has the lines `rest` to print. -/
structure Main (p : Prog T V E) (d : Shared T V E) (launched : Bool) (rest : List (Line T V E)) :
    Prop where
  launched : d.launched = launched
  lines : lines .main d.out ++ rest = p.mainLines

/-- What t1 knows, where it has the lines `rest` to print. -/
structure Body (p : Prog T V E) (d : Shared T V E) (exited : Bool) (rest : List (Line T V E)) :
    Prop where
  exited : d.exited = exited
  lines : lines .t1 d.out ++ rest = bodyLines false p.body

def MainAt (p : Prog T V E) (d : Shared T V E) : Pc T V E → Prop
  | .before rest => d.valid = true ∧
      Main p d false (rest.map .text ++ getLines true (first p.body) p.gets)
  | .gets k => Main p d true (getLines d.valid (first p.body) k)
  | .join => Main p d true []
  | .returned => d.exited = true ∧ Main p d true []
  | _ => False

def BodyAt (p : Prog T V E) (d : Shared T V E) : Pc T V E → Prop
  | .start => d.outcome = none ∧ Body p d false (bodyLines false p.body)
  | .body rest => (d.outcome = none → first rest = first p.body) ∧
      Body p d false (bodyLines d.outcome.isSome rest)
  | .exit => d.outcome.isSome = true ∧ Body p d false []
  | .ended => d.outcome.isSome = true ∧ Body p d true []
  | _ => False

def Assert (p : Prog T V E) (w : Who) (l : Pc T V E) (d : Shared T V E) : Prop :=
  match w with
  | .main => MainAt p d l
  | .t1 => BodyAt p d l

theorem lines_print (d : Shared T V E) (w : Who) (x : Line T V E) :
    lines w (d.print w x).out = lines w d.out ++ [x] := by
  refine (List.filterMap_append ..).trans ?_
  rw [List.filterMap_cons, if_pos rfl]
  rfl

theorem lines_print_ne (d : Shared T V E) (h : u ≠ w) (x : Line T V E) :
    lines w (d.print u x).out = lines w d.out := by
  refine (List.filterMap_append ..).trans ?_
  rw [List.filterMap_cons, if_neg h]
  exact List.append_nil _

theorem Main.print {launched : Bool} {x : Line T V E} {rest : List (Line T V E)}
    (h : Main p d launched (x :: rest)) : Main p (d.print .main x) launched rest where
  launched := h.launched
  lines := by
    rw [lines_print, List.append_assoc]
    exact h.lines

theorem Body.print {exited : Bool} {x : Line T V E} {rest : List (Line T V E)}
    (h : Body p d exited (x :: rest)) : Body p (d.print .t1 x) exited rest where
  exited := h.exited
  lines := by
    rw [lines_print, List.append_assoc]
    exact h.lines

/-! ## Steps -/

/-- What a step of main leaves to t1. -/
structure MainStep (d d' : Shared T V E) : Prop where
  outcome : d'.outcome = d.outcome
  exited : d'.exited = d.exited
  lines : lines .t1 d'.out = lines .t1 d.out

/-- What a step of t1 leaves to main. -/
structure BodyStep (d d' : Shared T V E) : Prop where
  valid : d'.valid = d.valid
  launched : d'.launched = d.launched
  exited : d.exited = true → d'.exited = true
  lines : lines .main d'.out = lines .main d.out

theorem main_print (d : Shared T V E) (x : Line T V E) : MainStep d (d.print .main x) :=
  ⟨rfl, rfl, lines_print_ne d (by decide) x⟩

theorem body_print (d : Shared T V E) (x : Line T V E) : BodyStep d (d.print .t1 x) :=
  ⟨rfl, rfl, id, lines_print_ne d (by decide) x⟩

theorem main_step (hI : Inv p d) (hA : MainAt p d l) (h : mainNext p l d = some (l', d')) :
    MainAt p d' l' ∧ MainStep d d' := by
  unfold mainNext at h
  split at h
  case h_1 s rest =>
    cases h
    exact ⟨⟨hA.1, hA.2.print⟩, main_print d _⟩
  case h_2 =>
    cases h
    obtain ⟨hv, hm⟩ := hA
    refine ⟨⟨rfl, ?_⟩, rfl, rfl, rfl⟩
    rw [hv]
    exact hm.lines
  case h_3 =>
    cases h
    exact ⟨hA, rfl, rfl, rfl⟩
  case h_4 k =>
    have hm : Main p d true (getLines d.valid (first p.body) (k + 1)) := hA
    rw [getLines] at hm
    split at h
    · next hv =>
        -- the first get()
        obtain ⟨o, ho, he⟩ := Option.map_eq_some_iff.mp h
        cases he
        rw [if_pos hv, ← hI o ho] at hm
        refine ⟨?_, rfl, rfl, lines_print_ne _ (by decide) _⟩
        have hm' : Main p { d with valid := false } true (shown o :: getLines false o k) :=
          ⟨hm.launched, hm.lines⟩
        have hp := hm'.print
        rw [hI o ho] at hp ⊢
        exact hp
    · next hv =>
        cases h
        rw [if_neg hv] at hm
        refine ⟨?_, main_print d _⟩
        have hp := hm.print
        rw [← Bool.eq_false_iff.mpr hv] at hp
        exact hp
  case h_5 =>
    split at h
    · next he =>
        cases h
        exact ⟨⟨he, hA⟩, rfl, rfl, rfl⟩
    · cases h
  case h_6 => cases h

/-- `set_value` or `set_exception`. -/
theorem set_step {o : Except (Exc E) V} {rest : List (Stmt T V E)} (hI : Inv p d)
    (hfirst : d.outcome = none → o = first p.body)
    (hb : Body p d false (if d.outcome.isSome then .caught .alreadySatisfied :: bodyLines true rest
      else bodyLines true rest)) :
    Inv p (d.set o) ∧ BodyAt p (d.set o) (.body rest) ∧ BodyStep d (d.set o) := by
  unfold Shared.set
  cases ho : d.outcome with
  | none =>
      rw [ho] at hb
      refine ⟨fun o' ho' => ?_, ⟨nofun, hb.exited, hb.lines⟩, rfl, rfl, id, rfl⟩
      cases ho'
      exact hfirst ho
  | some o' =>
      rw [ho] at hb
      refine ⟨hI, ⟨fun hn => ?_, ?_⟩, body_print d _⟩
      · cases ho.symm.trans hn
      · have hp := hb.print
        change Body p _ false (bodyLines d.outcome.isSome rest)
        rw [ho]
        exact hp

theorem body_step (hI : Inv p d) (hA : BodyAt p d l) (h : t1Next p l d = some (l', d')) :
    Inv p d' ∧ BodyAt p d' l' ∧ BodyStep d d' := by
  unfold t1Next at h
  split at h
  case h_1 =>
    obtain ⟨hn, hb⟩ := hA
    split at h
    · cases h
      refine ⟨hI, ⟨fun _ => rfl, ?_⟩, rfl, rfl, id, rfl⟩
      rw [hn]
      exact hb
    · cases h
  case h_2 s rest =>
    cases h
    exact ⟨hI, ⟨hA.1, hA.2.print⟩, body_print d _⟩
  case h_3 v rest =>
    cases h
    exact set_step hI hA.1 hA.2
  case h_4 e rest =>
    cases h
    exact set_step hI hA.1 hA.2
  case h_5 =>
    cases h
    obtain ⟨hfirst, hb⟩ := hA
    refine ⟨fun o ho => ?_, ⟨rfl, hb.exited, hb.lines⟩, rfl, rfl, id, rfl⟩
    cases ho
    cases ho : d.outcome with
    | none => exact hfirst ho
    | some o => exact hI o ho
  case h_6 =>
    cases h
    exact ⟨hI, ⟨hA.1, rfl, hA.2.lines⟩, rfl, rfl, fun _ => rfl, rfl⟩
  case h_7 => cases h

theorem Main.of_body {launched : Bool} {rest : List (Line T V E)} (h : Main p d launched rest)
    (hs : BodyStep d d') : Main p d' launched rest where
  launched := hs.launched.trans h.launched
  lines := by rw [hs.lines, h.lines]

theorem Body.of_main {exited : Bool} {rest : List (Line T V E)} (h : Body p d exited rest)
    (hs : MainStep d d') : Body p d' exited rest where
  exited := hs.exited.trans h.exited
  lines := by rw [hs.lines, h.lines]

theorem mainAt_of_body (hA : MainAt p d l) (hs : BodyStep d d') : MainAt p d' l := by
  cases l with
  | before rest => exact ⟨hs.valid.trans hA.1, hA.2.of_body hs⟩
  | gets k =>
      have hm := Main.of_body hA hs
      rw [← hs.valid] at hm
      exact hm
  | join => exact Main.of_body hA hs
  | returned => exact ⟨hs.exited hA.1, hA.2.of_body hs⟩
  | start | body | exit | ended => exact hA

theorem bodyAt_of_main (hA : BodyAt p d l) (hs : MainStep d d') : BodyAt p d' l := by
  cases l with
  | start => exact ⟨hs.outcome.trans hA.1, hA.2.of_main hs⟩
  | body rest =>
      have hb := hA.2.of_main hs
      rw [← hs.outcome] at hb
      exact ⟨fun hn => hA.1 (hs.outcome.symm.trans hn), hb⟩
  | exit | ended =>
      refine ⟨?_, hA.2.of_main hs⟩
      rw [hs.outcome]
      exact hA.1
  | before | gets | join | returned => exact hA

variable {c : Conf Who (Pc T V E) (Shared T V E)}

/-- What a step leaves to the other. -/
def Leaves (w : Who) (d d' : Shared T V E) : Prop :=
  match w with
  | .main => MainStep d d'
  | .t1 => BodyStep d d'

theorem assert_reach (h : (sys p).Reachable c) :
    Inv p c.shared ∧ ∀ w, Assert p w (c.loc w) c.shared := by
  refine Threads.rely (I := Inv p) (A := Assert p) (R := Leaves) ?_ ?_ ?_ h
  · rintro d rfl
    refine ⟨nofun, fun w => ?_⟩
    cases w with
    | main => exact ⟨rfl, rfl, rfl⟩
    | t1 => exact ⟨rfl, rfl, rfl⟩
  · intro w l d _ l' d' hI hA hs
    cases w with
    | main =>
        obtain ⟨hA', hm⟩ := main_step hI hA hs
        exact ⟨fun o ho => hI o (hm.outcome.symm.trans ho), hA', hm⟩
    | t1 => exact body_step hI hA hs
  · intro w u l d d' hne hA hR
    cases w <;> cases u
    · exact absurd rfl hne
    · exact mainAt_of_body hA hR
    · exact bodyAt_of_main hA hR
    · exact absurd rfl hne

/-! ## Progress -/

/-- main has returned, or t1 has ended. -/
def Pc.rest : Pc T V E → Bool
  | .returned | .ended => true
  | _ => false

/-- The steps that are left at most. -/
def Pc.left (p : Prog T V E) : Pc T V E → ℕ
  | .before rest => rest.length + p.gets + 3
  | .gets k => k + 2
  | .join => 1
  | .start => p.body.length + 3
  | .body rest => rest.length + 2
  | .exit => 1
  | .returned | .ended => 0

theorem main_left_lt (h : mainNext p l d = some (l', d')) : l'.left p < l.left p := by
  unfold mainNext at h
  split at h
  case h_1 | h_2 | h_3 =>
    cases h
    simp only [Pc.left, List.length_cons, List.length_nil]
    omega
  case h_4 k =>
    split at h
    · obtain ⟨o, -, he⟩ := Option.map_eq_some_iff.mp h
      cases he
      exact Nat.lt_succ_self _
    · cases h
      exact Nat.lt_succ_self _
  case h_5 =>
    split at h
    · cases h
      exact Nat.one_pos
    · cases h
  case h_6 => cases h

theorem body_left_lt (h : t1Next p l d = some (l', d')) : l'.left p < l.left p := by
  unfold t1Next at h
  split at h
  case h_1 =>
    split at h
    · cases h
      exact Nat.lt_succ_self _
    · cases h
  case h_2 | h_3 | h_4 | h_5 | h_6 =>
    cases h
    simp only [Pc.left, List.length_cons, List.length_nil]
    omega
  case h_7 => cases h

/-- Where main and t1 end. -/
def final : Who → Pc T V E
  | .main => .returned
  | .t1 => .ended

theorem rest_iff (hA : Assert p w l d) : l.rest = true ↔ l = final w := by
  cases w with
  | main =>
      cases l with
      | ended => exact hA.elim
      | _ => simp [Pc.rest, final]
  | t1 =>
      cases l with
      | returned => exact hA.elim
      | _ => simp [Pc.rest, final]

/-- t1 can make its next step, once it has been started. -/
theorem body_goes (hA : BodyAt p d l) (hl : d.launched = true) (hne : l ≠ .ended) :
    t1Next p l d ≠ none := by
  cases l with
  | start =>
      simp only [t1Next, hl, if_true]
      exact Option.some_ne_none _
  | body rest =>
      cases rest with
      | nil => exact Option.some_ne_none _
      | cons s rest => cases s <;> exact Option.some_ne_none _
  | exit => exact Option.some_ne_none _
  | ended => exact absurd rfl hne
  | before | gets | join | returned => exact hA.elim

/-- main can make its next step, unless it waits for t1. -/
theorem main_goes (hA : MainAt p d l) (hret : l ≠ .returned) :
    mainNext p l d ≠ none ∨ d.launched = true ∧ (d.outcome = none ∨ d.exited = false) := by
  cases l with
  | before rest =>
      left
      cases rest <;> exact Option.some_ne_none _
  | gets k =>
      cases k with
      | zero => exact .inl (Option.some_ne_none _)
      | succ k =>
          cases ho : d.outcome with
          | none => exact .inr ⟨Main.launched hA, .inl rfl⟩
          | some o =>
              left
              rw [mainNext, ho]
              split <;> exact Option.some_ne_none _
  | join =>
      cases he : d.exited with
      | false => exact .inr ⟨Main.launched hA, .inr rfl⟩
      | true =>
          left
          simp only [mainNext, he, if_true]
          exact Option.some_ne_none _
  | returned => exact absurd rfl hret
  | start | body | exit | ended => exact hA.elim

/-- t1 has ended when main says so. -/
theorem ended_of_exited (hA : BodyAt p d l) (he : d.exited = true) : l = .ended := by
  cases l with
  | start | body | exit => cases hA.2.exited.symm.trans he
  | ended => rfl
  | before | gets | join | returned => exact hA.elim

/-- When main has returned, t1 has ended. -/
theorem main_last (h : (sys p).Reachable c) (hret : c.loc .main = .returned) (w : Who) :
    c.loc w = final w := by
  obtain ⟨-, hA⟩ := assert_reach h
  have hmain : MainAt p c.shared (c.loc .main) := hA .main
  cases w with
  | main => exact hret
  | t1 =>
      rw [hret] at hmain
      exact ended_of_exited (hA .t1) hmain.1

/-- Until then main can go on, or t1 while main waits for it. -/
theorem main_waits (h : (sys p).Reachable c) (hret : c.loc .main ≠ .returned) :
    ∃ u b, c.loc u ≠ final u ∧ next p u (c.loc u) c.shared b ≠ none := by
  obtain ⟨-, hA⟩ := assert_reach h
  have hbody : BodyAt p c.shared (c.loc .t1) := hA .t1
  rcases main_goes (hA .main) hret with hgo | ⟨hl, hwait⟩
  · exact ⟨.main, (), hret, hgo⟩
  · have hne : c.loc .t1 ≠ .ended := by
      intro hend
      rw [hend] at hbody
      rcases hwait with hn | he
      · have hsome := hbody.1
        rw [hn] at hsome
        cases hsome
      · cases hbody.2.exited.symm.trans he
    exact ⟨.t1, (), hne, body_goes hbody hl hne⟩

/-- main and t1 have come to their ends and have printed what they should. -/
def Done (p : Prog T V E) (c : Conf Who (Pc T V E) (Shared T V E)) : Prop :=
  c.loc .main = .returned ∧ c.loc .t1 = .ended ∧
    lines .main c.shared.out = p.mainLines ∧ lines .t1 c.shared.out = bodyLines false p.body

theorem done_of_final (h : (sys p).Reachable c) (hend : ∀ w, c.loc w = final w) : Done p c := by
  obtain ⟨-, hA⟩ := assert_reach h
  have hmain : MainAt p c.shared (c.loc .main) := hA .main
  have hbody : BodyAt p c.shared (c.loc .t1) := hA .t1
  rw [hend .main] at hmain
  rw [hend .t1] at hbody
  have hml := hmain.2.lines
  have hbl := hbody.2.lines
  rw [List.append_nil] at hml hbl
  exact ⟨hend .main, hend .t1, hml, hbl⟩

theorem finishes (h : (sys p).Reachable c) :
    (sys p).Finishes (Threads.Busy (·.rest = true)) (Done p) (sumAt (Pc.left p) c.loc) c := by
  refine Lts.Finishes.imp ?_ h fun _ hc hend => done_of_final hc hend
  refine Threads.joins (A := Assert p) (m := .main) (fun _ hc => assert_reach hc)
    (fun _ _ _ hA => rest_iff hA) (fun w l d _ l' d' _ hA hn => ?_)
    (fun _ hc hret => main_last hc hret) (fun _ hc hret => main_waits hc hret) h
  cases w with
  | main => exact main_left_lt hn
  | t1 => exact body_left_lt hn

theorem lines_begin (h : (sys p).Reachable c) :
    lines .main c.shared.out <+: p.mainLines ∧
      lines .t1 c.shared.out <+: bodyLines false p.body := by
  obtain ⟨-, hA⟩ := assert_reach h
  have hmain : MainAt p c.shared (c.loc .main) := hA .main
  have hbody : BodyAt p c.shared (c.loc .t1) := hA .t1
  constructor
  · cases hc : c.loc .main with
    | before rest =>
        rw [hc] at hmain
        exact ⟨_, hmain.2.lines⟩
    | gets k | join =>
        rw [hc] at hmain
        exact ⟨_, Main.lines hmain⟩
    | returned =>
        rw [hc] at hmain
        exact ⟨_, hmain.2.lines⟩
    | start | body | exit | ended =>
        rw [hc] at hmain
        exact hmain.elim
  · cases hc : c.loc .t1 with
    | start | body | exit | ended =>
        rw [hc] at hbody
        exact ⟨_, hbody.2.lines⟩
    | before | gets | join | returned =>
        rw [hc] at hbody
        exact hbody.elim

/-- **The first outcome is delivered.** In every reachable state of every such program: the outcome
    is none yet or the first one that t1 sets, or that the promise is broken if t1 sets none; main
    and t1 have printed the beginnings of the lines they should. Whatever the scheduler does, main
    returns and t1 ends with all of them printed. -/
theorem delivered (h : (sys p).Reachable c) :
    (∀ o, c.shared.outcome = some o → o = first p.body) ∧
    (lines .main c.shared.out <+: p.mainLines ∧
      lines .t1 c.shared.out <+: bodyLines false p.body) ∧
    (sys p).Finishes (Threads.Busy (·.rest = true)) (Done p) (sumAt (Pc.left p) c.loc) c :=
  ⟨(assert_reach h).1, lines_begin h, finishes h⟩

/-- t1 has set the promise, and main has not been told. -/
def resultSet : Conf Who (Pc Text ℕ Empty) (Shared Text ℕ Empty) :=
  ((sys (promiseFutureBasic 7)).exec Lts.anyStep
    ⟨fun | .main => .before [.mainId] | .t1 => .start, ⟨none, true, false, false, []⟩⟩
    [(.main, ()), (.main, ()), (.t1, ()), (.t1, ()), (.t1, ())]).get (by decide)

theorem delivered_resultSet :
    resultSet.shared.outcome = some (.ok 7) ∧ resultSet.shared.valid = true ∧
      (sys (promiseFutureBasic 7)).Finishes (Threads.Busy (·.rest = true))
        (Done (promiseFutureBasic 7)) (sumAt (Pc.left (promiseFutureBasic 7)) resultSet.loc)
        resultSet := by
  have hc : (sys (promiseFutureBasic 7)).Reachable resultSet :=
    .exec _ (.start ⟨rfl, rfl⟩) (Option.some_get _).symm
  exact ⟨rfl, rfl, (delivered hc).2.2⟩

end CppConcurrency.Promise
