/-
  Communication of call_once.cpp: connections that are opened on first use.

  Model. Any number of threads call send_data and receive_data on any number of Communication
  objects. The callable of both is open_connection, `connection = manager.open(connection_details)`:
  the call of open, and the assignment. The connection manager and the connections themselves are
  not in the source: open returns any handle or throws, and so may the transfers, whose results
  the environment chooses. `opened` and `transfers` record what was asked of them. A connection
  that was never assigned has no transfers.

  Proved (`opened_once`): every object asks for its own connection, with its own details, until it
  gets one, and never again; everything sent and received goes through that one, whichever thread
  sends it; nothing is sent before; and if no new calls are made, all calls return.
-/
import CppConcurrency.Lib.CallOnce

namespace CppConcurrency.Communication

open Concur CallOnce

/-- What goes over a connection. -/
inductive Transfer (P : Type*) where
  | sent (data : P)
  | received (data : P)
  deriving DecidableEq, Repr

/-- A Communication object. `opened`: the calls of open, with their results; `transfers`: what
    went over which handle. -/
structure Object (I H P E : Type*) where
  connection_details : I
  connection : Option H
  opened : List (I × Except E H)
  transfers : List (H × Transfer P)

/-- The members. -/
inductive Op (P : Type*) where
  | sendData (data : P)
  | receiveData
  deriving DecidableEq, Repr

inductive Ret (P : Type*) where
  | void
  | packet (data : P)
  deriving DecidableEq, Repr

/-- The statements of open_connection. -/
inductive Loc (H : Type*) where
  | call
  | assign (h : H)
  deriving DecidableEq, Repr

/-- What the environment answers: the result of open, or of a transfer, which for send_data
    comes without data. -/
inductive Answer (H P E : Type*) where
  | opened (r : Except E H)
  | transferred (r : Except E P)

variable {κ I H P E : Type*}

/-- `open_connection()` -/
def openConnection : Loc H → Object I H P E → Answer H P E →
    Option (InitStmt (Object I H P E) (Loc H) E)
  | .call, d, .opened r =>
      let d' := { d with opened := d.opened ++ [(d.connection_details, r)] }
      some (match r with
        | .ok h => .next d' (.assign h)
        | .error e => .throw d' e)
  | .assign h, d, _ => some (.ret { d with connection := some h })
  | _, _, _ => none

/-- `connection.send_data(data)` and `connection.receive_data()`. A transfer that throws has not
    taken place. -/
def transfer : Op P → Object I H P E → Answer H P E → Option (Object I H P E × Except E (Ret P))
  | .sendData data, d, .transferred r =>
      d.connection.map fun h =>
        match r with
        | .ok _ => ({ d with transfers := d.transfers ++ [(h, .sent data)] }, .ok .void)
        | .error e => (d, .error e)
  | .receiveData, d, .transferred r =>
      d.connection.map fun h =>
        match r with
        | .ok data =>
            ({ d with transfers := d.transfers ++ [(h, .received data)] }, .ok (.packet data))
        | .error e => (d, .error e)
  | _, _, _ => none

/-- The class. -/
def communication (I H P E : Type*) :
    OnceClass (Object I H P E) (Op P) (Ret P) (Loc H) E (Answer H P E) where
  entry := .call
  init := openConnection
  use := transfer

/-- `Communication(cd, mgr)` -/
def construct (cd : I) : Object I H P E := ⟨cd, none, [], []⟩

/-- Where a thread stands. -/
abbrev CommPc (κ H P E : Type*) := Pc κ (Op P) (Ret P) (Loc H) E

/-- Threads that use objects with the given details. -/
def sys (ι H P E : Type*) [DecidableEq ι] [DecidableEq κ] (cd : κ → I) :
    Lts (Conf ι (CommPc κ H P E) (Objects ι κ (Object I H P E)))
      (ι × Choice κ (Op P) (Answer H P E)) :=
  CallOnce.sys (communication I H P E) fun q => construct (cd q)

/-! ## What the members do to an object -/

/-- The calls of open that have failed, each with the details of the object. -/
def Failed (cd : I) (calls : List (I × Except E H)) : Prop :=
  ∀ x ∈ calls, x.1 = cd ∧ ∃ e, x.2 = .error e

/-- No connection yet. -/
structure Fresh (cd : I) (d : Object I H P E) : Prop where
  details : d.connection_details = cd
  none : d.connection = none
  silent : d.transfers = []
  failed : Failed cd d.opened

/-- One open has returned `h`, and all before it have failed. -/
structure Obtained (cd : I) (h : H) (d : Object I H P E) : Prop where
  details : d.connection_details = cd
  opened : ∃ calls, d.opened = calls ++ [(cd, .ok h)] ∧ Failed cd calls

structure Assigning (cd : I) (h : H) (d : Object I H P E) : Prop extends Obtained cd h d where
  none : d.connection = none
  silent : d.transfers = []

structure Ready (cd : I) (h : H) (d : Object I H P E) : Prop extends Obtained cd h d where
  connection : d.connection = some h
  through : ∀ x ∈ d.transfers, x.1 = h

def During (cd : I) : Loc H → Object I H P E → Prop
  | .call, d => Fresh cd d
  | .assign h, d => Assigning cd h d

theorem ready_use {cd : I} {h : H} (op : Op P) (d : Object I H P E) (b : Answer H P E)
    (d' : Object I H P E) (r : Except E (Ret P)) (hd : Ready cd h d)
    (hu : transfer op d b = some (d', r)) : Ready cd h d' := by
  have hrecord (x : Transfer P) :
      Ready cd h { d with connection := some h, transfers := d.transfers ++ [(h, x)] } := by
    refine ⟨⟨hd.details, hd.opened⟩, rfl, fun y hy => ?_⟩
    rcases List.mem_append.mp hy with hy | hy
    · exact hd.through y hy
    · rw [List.mem_singleton.mp hy]
  cases b with
  | opened r => cases op <;> cases hu
  | transferred a =>
      cases op with
      | sendData | receiveData =>
          simp only [transfer, hd.connection, Option.map_some] at hu
          cases a with
          | ok p =>
              cases hu
              exact hrecord _
          | error e =>
              cases hu
              exact hd

theorem guarantees (cd : κ → I) :
    Guarantees (communication I H P E) (fun q => Fresh (cd q)) (fun q => During (cd q))
      fun q d => ∃ h, Ready (cd q) h d where
  entry h := h
  next := by
    intro q k d b d' k' h hi
    cases k with
    | assign g => cases hi
    | call =>
        cases b with
        | transferred r => cases hi
        | opened r =>
            cases r with
            | error e => cases hi
            | ok g =>
                cases hi
                exact ⟨⟨h.details, d.opened, by rw [h.details], h.failed⟩, h.none, h.silent⟩
  ret := by
    intro q k d b d' h hi
    cases k with
    | assign g =>
        cases hi
        refine ⟨g, ⟨h.details, h.opened⟩, rfl, ?_⟩
        rw [h.silent]
        nofun
    | call =>
        cases b with
        | transferred r => cases hi
        | opened r => cases r <;> cases hi
  throw := by
    intro q k d b d' e h hi
    cases k with
    | assign g => cases hi
    | call =>
        cases b with
        | transferred r => cases hi
        | opened r =>
            cases r with
            | ok g => cases hi
            | error e =>
                cases hi
                refine ⟨h.details, h.none, h.silent, fun x hx => ?_⟩
                rcases List.mem_append.mp hx with hx | hx
                · exact h.failed x hx
                · rw [List.mem_singleton.mp hx]
                  exact ⟨h.details, e, rfl⟩
  use := by
    rintro q op d b d' r ⟨g, h⟩ hu
    exact ⟨g, ready_use op d b d' r h hu⟩

/-- The statements open_connection has left. -/
def Loc.left : Loc H → ℕ
  | .call => 1
  | .assign _ => 0

theorem ends (cd : κ → I) (e : E) :
    Ends (communication I H P E) (fun q => During (cd q)) (fun q d => ∃ h, Ready (cd q) h d)
      Loc.left 2 where
  short
    | .call => Nat.one_lt_two
    | .assign _ => Nat.two_pos
  down := by
    intro k d b d' k' hi
    cases k with
    | assign g => cases hi
    | call =>
        cases b with
        | transferred r => cases hi
        | opened r =>
            cases r with
            | error e => cases hi
            | ok g =>
                cases hi
                exact Nat.one_pos
  init := by
    rintro q k d -
    exact ⟨.opened (.error e), by cases k <;> nofun⟩
  use := by
    rintro op q d ⟨h, hd⟩
    exact ⟨.transferred (.error e), by cases op <;> simp [communication, transfer, hd.connection]⟩

variable {ι : Type*} [DecidableEq ι] [DecidableEq κ] {cd : κ → I}
  {c : Conf ι (CommPc κ H P E) (Objects ι κ (Object I H P E))}

/-- **A connection is opened once.** In every reachable state, for every object: until
    open_connection has returned there are no transfers, and every open that was tried, with the
    details of the object, has failed, except one whose result is being assigned. Afterwards all
    transfers, now and after every further run, go through the handle of the last open, the only
    one that succeeded. Behind call_once the connection is there. If no new calls are made, all
    calls return after a bounded number of steps. -/
theorem opened_once [Fintype ι] [Inhabited E] (h : (sys ι H P E cd).Reachable c) (q : κ) :
    (∀ t u op op' k k', c.loc t = .init q op k → c.loc u = .init q op' k' → t = u) ∧
    (c.shared.flag q ≠ .finished → (c.shared.data q).transfers = []) ∧
    (c.shared.flag q = .idle → Failed (cd q) (c.shared.data q).opened) ∧
    (c.shared.flag q = .finished → ∃ g, ∀ as c', (sys ι H P E cd).exec Lts.anyStep c as = some c' →
      Ready (cd q) g (c'.shared.data q)) ∧
    (∀ t op, c.loc t = .use q op → (c.shared.data q).connection ≠ none) ∧
    (sys ι H P E cd).Finishes (Threads.Busy Pc.Rest) (fun c => ∀ t, (c.loc t).Rest)
      (sumAt (Pc.left Loc.left 2) c.loc) c := by
  have hC := guarantees (H := H) (P := P) (E := E) cd
  have h₀ : ∀ q, Fresh (cd q) (construct (cd q) : Object I H P E) :=
    fun q => ⟨rfl, rfl, rfl, nofun⟩
  obtain ⟨hs, hp⟩ := hC.reach h₀ h
  have : Nonempty (Answer H P E) := ⟨.opened (.error default)⟩
  refine ⟨fun t u op op' k k' ht hu => ?_, fun hf => ?_, fun hf => ((hs q).1 hf).failed,
    fun hf => ?_, fun t op ht => ?_, CallOnce.returns hC (ends cd default) h₀ h⟩
  · have hft := ((hp t).running q).mpr (by rw [ht]; rfl)
    have hfu := ((hp u).running q).mpr (by rw [hu]; rfl)
    exact Flag.running.inj (hft.symm.trans hfu)
  · cases hflag : c.shared.flag q with
    | idle => exact ((hs q).1 hflag).silent
    | finished => exact absurd hflag hf
    | running t =>
        have hi := ((hp t).running q).mp hflag
        cases hl : c.loc t with
        | init p op k =>
            rw [hl] at hi
            cases hi
            have hd := (hp t).during q op k hl
            cases k with
            | call => exact hd.silent
            | assign g => exact hd.silent
        | rest | callOnce | use =>
            rw [hl] at hi
            cases hi
  · obtain ⟨g, hready⟩ := (hs q).2 hf
    refine ⟨g, fun as c' hc => ?_⟩
    exact (hC.finished h₀ (R := Ready (cd q) g) ready_use h hf hready hc).2
  · obtain ⟨g, hready⟩ := (hs q).2 ((hp t).behind q op ht)
    rw [hready.connection]
    nofun

/-- Thread `false` could not open the connection to 7, and thread `true` could. -/
def secondOpened :
    Conf Bool (CommPc Unit ℕ ℕ Unit) (Objects Bool Unit (Object ℕ ℕ ℕ Unit)) :=
  ((sys Bool ℕ ℕ Unit fun _ : Unit => 7).exec Lts.anyStep
    ⟨fun _ => .rest none, ⟨fun _ => .idle, fun _ => construct 7⟩⟩
    [(false, .call () .receiveData), (false, .go (.opened (.ok 3))),
      (false, .go (.opened (.error ()))), (true, .call () (.sendData 5)),
      (true, .go (.opened (.ok 3))), (true, .go (.opened (.ok 4))), (true, .go (.opened (.ok 3))),
      (true, .go (.transferred (.ok 0)))]).get (by decide)

theorem opened_once_secondOpened :
    ∃ g, Ready 7 g (secondOpened.shared.data ()) := by
  have hc : (sys Bool ℕ ℕ Unit fun _ : Unit => 7).Reachable secondOpened :=
    .exec _ (.start ⟨rfl, rfl⟩) (Option.some_get _).symm
  obtain ⟨-, -, -, hready, -⟩ := opened_once hc ()
  obtain ⟨g, hg⟩ := hready (by decide)
  exact ⟨g, hg [] _ rfl⟩

end CppConcurrency.Communication
