/-
  Many objects of one class, created by default and by copying.

  `ObjSpec` is one sequential object whose contents are a list. `ObjSpec.objects` lifts it
  to a store of objects named by `κ`: an operation works on one object, a default
  construction makes an empty one, and a copy makes one with the contents the source has
  at that moment. A constructor reports the contents of the object it made.

  `supplied q os` are the values the operations `os` put into object `q` (a copy supplies the
  contents it was made with) and `delivered q os` the values they took out, in order.
  `ledger_of_legal` is the accounting rule: a relation between supplied, delivered and stored
  values that a fresh object satisfies and every operation keeps holds of every object
  after any legal sequence of operations.
-/
import CppConcurrency.Lib.Linearize

namespace Concur

/-- An operation on a store of objects. -/
inductive ObjOp (κ Op : Type*) where
  | construct (q : κ)
  | copy (q other : κ)
  | on (q : κ) (op : Op)
  deriving DecidableEq, Repr

/-- How an operation on a store of objects ended: a constructor with the contents of the new
    object, a member with its result, or either with an exception. -/
inductive ObjRet (T Ret : Type*) where
  | made (d : List T)
  | ret (r : Ret)
  | threw
  deriving DecidableEq, Repr

/-- The call did not end in an exception. -/
def ObjRet.returned {T Ret : Type*} : ObjRet T Ret → Bool
  | .threw => false
  | _ => true

/-- What a member of the class does to the contents of its object, where it is possible. -/
structure ObjSpec (T Op Ret : Type*) where
  apply : List T → Op → Option (List T × Ret)

variable {κ T Op Ret : Type*} [DecidableEq κ]

/-- The store of objects, as one sequential object. -/
def ObjSpec.objects (S : ObjSpec T Op Ret) :
    SeqSpec (κ → Option (List T)) (ObjOp κ Op) (ObjRet T Ret) where
  init := fun _ => none
  apply abs
    | .construct q =>
        match abs q with
        | none => some (Function.update abs q (some []), .made [])
        | some _ => none
    | .copy q other =>
        match abs q, abs other with
        | none, some d => some (Function.update abs q (some d), .made d)
        | _, _ => none
    | .on q op =>
        match abs q with
        | none => none
        | some d =>
            match S.apply d op with
            | none => none
            | some (d', r) => some (Function.update abs q (some d'), .ret r)

/-- The object an operation creates or changes. -/
def ObjOp.target : ObjOp κ Op → κ
  | .construct q => q
  | .copy q _ => q
  | .on q _ => q

/-- What an operation on the store can do, case by case. -/
inductive Applied (S : ObjSpec T Op Ret) (abs : κ → Option (List T)) :
    ObjOp κ Op → κ → List T → ObjRet T Ret → Prop
  | construct {q : κ} (h : abs q = none) : Applied S abs (.construct q) q [] (.made [])
  | copy {q other : κ} {d : List T} (h : abs q = none) (ho : abs other = some d) :
      Applied S abs (.copy q other) q d (.made d)
  | on {q : κ} {op : Op} {d d' : List T} {r : Ret} (h : abs q = some d)
      (ha : S.apply d op = some (d', r)) : Applied S abs (.on q op) q d' (.ret r)

theorem apply_objects_iff {S : ObjSpec T Op Ret} {abs abs' : κ → Option (List T)}
    {c : ObjOp κ Op} {r : ObjRet T Ret} :
    S.objects.apply abs c = some (abs', r) ↔
      ∃ q d, Applied S abs c q d r ∧ abs' = Function.update abs q (some d) := by
  constructor
  · intro h
    cases c with
    | construct q =>
        simp only [ObjSpec.objects] at h
        split at h
        · next hq => cases h; exact ⟨q, [], .construct hq, rfl⟩
        · cases h
    | copy q other =>
        simp only [ObjSpec.objects] at h
        split at h
        · next d hq ho => cases h; exact ⟨q, d, .copy hq ho, rfl⟩
        · cases h
    | on q op =>
        simp only [ObjSpec.objects] at h
        split at h
        · cases h
        · next d hq =>
            split at h
            · cases h
            · next d' r' ha => cases h; exact ⟨q, d', .on hq ha, rfl⟩
  · rintro ⟨q, d, ha, rfl⟩
    cases ha with
    | construct hq => simp only [ObjSpec.objects, hq]
    | copy hq ho => simp only [ObjSpec.objects, hq, ho]
    | on hq ha => simp only [ObjSpec.objects, hq, ha]

/-! ## Accounting -/

/-- The values that a member puts into its object and takes out of it. -/
structure Ledger (T Op Ret : Type*) where
  put : Op → Ret → List T
  got : Op → Ret → List T

/-- The values one operation supplies to object `q`. -/
def Ledger.supply (L : Ledger T Op Ret) (q : κ) : ObjOp κ Op × ObjRet T Ret → List T
  | (.construct q', .made d) => if q' = q then d else []
  | (.copy q' _, .made d) => if q' = q then d else []
  | (.on q' op, .ret r) => if q' = q then L.put op r else []
  | _ => []

/-- The values one operation takes out of object `q`. -/
def Ledger.deliver (L : Ledger T Op Ret) (q : κ) : ObjOp κ Op × ObjRet T Ret → List T
  | (.on q' op, .ret r) => if q' = q then L.got op r else []
  | _ => []

/-- The values the operations supply to object `q`, in their order. -/
def Ledger.supplied (L : Ledger T Op Ret) (q : κ) (os : List (ObjOp κ Op × ObjRet T Ret)) :
    List T := os.flatMap (L.supply q)

/-- The values the operations take out of object `q`, in their order. -/
def Ledger.delivered (L : Ledger T Op Ret) (q : κ) (os : List (ObjOp κ Op × ObjRet T Ret)) :
    List T := os.flatMap (L.deliver q)

section Accounting

variable {S : ObjSpec T Op Ret} {L : Ledger T Op Ret} {K : List T → List T → List T → Prop}

theorem supplied_snoc (q : κ) (os : List (ObjOp κ Op × ObjRet T Ret)) (o) :
    L.supplied q (os ++ [o]) = L.supplied q os ++ L.supply q o := by
  simp only [Ledger.supplied, List.flatMap_append, List.flatMap_cons, List.flatMap_nil,
    List.append_nil]

theorem delivered_snoc (q : κ) (os : List (ObjOp κ Op × ObjRet T Ret)) (o) :
    L.delivered q (os ++ [o]) = L.delivered q os ++ L.deliver q o := by
  simp only [Ledger.delivered, List.flatMap_append, List.flatMap_cons, List.flatMap_nil,
    List.append_nil]

/-- An operation moves no value into or out of the objects it does not target. -/
theorem supply_deliver_of_ne {abs : κ → Option (List T)} {c : ObjOp κ Op} {q q' : κ}
    {d : List T} {r : ObjRet T Ret} (ha : Applied S abs c q d r) (hq : q' ≠ q) :
    L.supply q' (c, r) = [] ∧ L.deliver q' (c, r) = [] := by
  cases ha <;> simp [Ledger.supply, Ledger.deliver, Ne.symm hq]

/-- The accounting rule. `K a b d`: the values `a` were supplied, `b` taken out, and `d` are
    stored. -/
theorem ledger_of_legal (hnew : ∀ d, K d [] d)
    (hstep : ∀ a b d op d' r, K a b d → S.apply d op = some (d', r) →
      K (a ++ L.put op r) (b ++ L.got op r) d')
    {os : List (ObjOp κ Op × ObjRet T Ret)} {abs : κ → Option (List T)}
    (h : Legal S.objects os abs) (q : κ) :
    match abs q with
    | none => L.supplied q os = [] ∧ L.delivered q os = []
    | some d => K (L.supplied q os) (L.delivered q os) d := by
  induction h with
  | nil => exact ⟨rfl, rfl⟩
  | snoc _ ha ih =>
      obtain ⟨q', d', hap, rfl⟩ := apply_objects_iff.mp ha
      rw [supplied_snoc, delivered_snoc]
      by_cases hq : q = q'
      · subst hq
        rw [Function.update_self]
        cases hap with
        | construct hn =>
            rw [hn] at ih
            simp only [ih.1, ih.2, Ledger.supply, Ledger.deliver, if_true, List.nil_append]
            exact hnew []
        | copy hn ho =>
            rw [hn] at ih
            simp only [ih.1, ih.2, Ledger.supply, Ledger.deliver, if_true, List.nil_append]
            exact hnew d'
        | on hs hop =>
            rw [hs] at ih
            simp only [Ledger.supply, Ledger.deliver, if_true]
            exact hstep _ _ _ _ _ _ ih hop
      · obtain ⟨h1, h2⟩ := supply_deliver_of_ne (L := L) hap hq
        rw [Function.update_of_ne hq, h1, h2, List.append_nil, List.append_nil]
        exact ih

end Accounting

end Concur
