/-
  What the workers of ThreadSafeStack_use.cpp print.

  `result = a*b` is a product of unsigned. A worker that has taken a pair out of the stack
  owes an equation until it has printed it. `Accounted`: the equations stored, owed and
  printed are together those of the contents the workers started on, and a worker that has
  seen the stack empty finds it empty for good. This is for all interleavings.

  Proved:
  * `printed_all`: when all workers, at least one, have left their loops, the printed
    equations are those of the contents, each once.
  * `output_exact`: on the stack that makeStack returns, these are the products in ℕ exactly
    if each pair has a product below `2 ^ 32`. Operands up to 99999 do not ensure that.
-/
import CppConcurrency.Lib.Count
import CppConcurrency.ThreadSafeStack.MakeStack

namespace CppConcurrency.ThreadSafeStack

open Concur

/-- A printed equation: the operands and the result. -/
abbrev Equation := UInt32 × UInt32 × UInt32

/-- The equation a worker prints for a pair. -/
def equation (ab : Operands) : Equation := (ab.1, ab.2, ab.1 * ab.2)

/-- The equations of the pairs in the stack. -/
def stored (d : List Operands) : Multiset Equation := (d : Multiset Operands).map equation

/-- What a worker has taken out of the stack and has not printed. -/
def owed : Ctl × StackPc → Multiset Equation
  | (.popping, .body _ _ (.done (.out v))) => {equation v}
  | (.popping, .unlock _ _ (some (.out v))) => {equation v}
  | (.popping, .idle (some (.ret (.out v)))) => {equation v}
  | (.printId v, _) => {equation v}
  | (.printEq v, _) => {equation v}
  | _ => 0

/-- The equations among the printed lines. -/
def equations {ι : Type*} (out : List (Line ι)) : List Equation :=
  out.filterMap fun
    | .id _ => none
    | .eq a b result => some (a, b, result)

/-- The worker has been told that the stack is empty, or is about to be told. -/
def sawEmpty : Ctl × StackPc → Bool
  | (.testing, .unlock _ _ (some (.bool b))) => b
  | (.testing, .idle (some (.ret (.bool b)))) => b
  | (.left, _) => true
  | _ => false

/-- The element that pop has read is the top. -/
def TopRead (d : List Operands) : StackPc → Prop
  | .body _ _ (.popData _ v) => d.getLast? = some v
  | _ => True

variable {ι : Type*} [Fintype ι]

/-- Every equation is stored, owed or printed. -/
def Total (contents : List Operands) (s : WorkSt ι) : Prop :=
  stored (s.mon.data ()) + sumAt owed (places s.ctl s.mon.pc) + equations s.out = stored contents

/-- The invariant of the output. -/
structure Accounted (contents : List Operands) (s : WorkSt ι) : Prop where
  owns : Owns (fun pc q => Monitor.Pc.mutex pc = some q) s.mon.pc s.mon.owner
  top : ∀ t, TopRead (s.mon.data ()) (s.mon.pc t)
  told : ∀ t, sawEmpty (places s.ctl s.mon.pc t) = true → s.mon.data () = []
  total : Total contents s

variable [DecidableEq ι] {s s' : WorkSt ι} {a : WorkAct ι} {contents : List Operands}

/-! ## One step -/

/-- One worker moves, and the balance of its step carries over to the sum. -/
theorem total_move (h : Total contents s) {t : ι} {c c' : Ctl} {p p' : StackPc}
    (hc : s.ctl t = c) (hpc : s.mon.pc t = p) (hctl : s'.ctl = Function.update s.ctl t c')
    (hpcs : s'.mon.pc = Function.update s.mon.pc t p')
    (hstep : stored (s'.mon.data ()) + owed (c', p') + equations s'.out =
      stored (s.mon.data ()) + owed (c, p) + equations s.out) : Total contents s' := by
  have hsum := sumAt_update owed (places s.ctl s.mon.pc) t (c', p')
  have hat : places s.ctl s.mon.pc t = (c, p) := by rw [places, hc, hpc]
  rw [hat] at hsum
  unfold Total at h ⊢
  rw [hctl, hpcs, places_both, ← h]
  refine add_right_cancel (b := owed (c, p)) ?_
  calc stored (s'.mon.data ()) + sumAt owed (Function.update (places s.ctl s.mon.pc) t (c', p')) +
        equations s'.out + owed (c, p)
      = stored (s'.mon.data ()) + equations s'.out +
          (sumAt owed (Function.update (places s.ctl s.mon.pc) t (c', p')) + owed (c, p)) := by
        abel
    _ = (stored (s'.mon.data ()) + owed (c', p') + equations s'.out) +
          sumAt owed (places s.ctl s.mon.pc) := by
        rw [hsum]
        abel
    _ = stored (s.mon.data ()) + sumAt owed (places s.ctl s.mon.pc) + equations s.out +
          owed (c, p) := by
        rw [hstep]
        abel

omit [Fintype ι] [DecidableEq ι] in
theorem equations_id (out : List (Line ι)) (t : ι) :
    equations (out ++ [.id t]) = equations out := by
  simp [equations]

omit [Fintype ι] [DecidableEq ι] in
theorem equations_eq (out : List (Line ι)) (ab : Operands) :
    equations (out ++ [.eq ab.1 ab.2 (ab.1 * ab.2)]) = equations out ++ [equation ab] := by
  simp [equations, equation]

theorem stored_concat (d : List Operands) (v : Operands) :
    stored (d ++ [v]) = stored d + {equation v} := by
  rw [stored, ← Multiset.coe_add, Multiset.map_add]
  rfl

/-- A step inside a member passes an element on from the stack to the worker, or nothing. -/
theorem Inside.owed_eq {c : Ctl} {d d' : List Operands} {p p' : StackPc} (h : Inside c d p d' p')
    (htop : TopRead d p) : stored d' + owed (c, p') = stored d + owed (c, p) := by
  cases h with
  | @popData d v w =>
      have hw : w = v := by
        rw [TopRead, List.getLast?_concat] at htop
        exact Option.some.inj htop
      rw [stored_concat, hw]
      exact (add_zero _).symm
  | _ => rfl

/-- After a step inside a member, the element that pop has read is the top. -/
theorem Inside.topRead {c : Ctl} {d d' : List Operands} {p p' : StackPc}
    (h : Inside c d p d' p') : TopRead d' p' := by
  cases h with
  | popTop hv => exact hv
  | _ => trivial

/-- empty() returns true on an empty stack. -/
theorem Inside.told {c : Ctl} {d d' : List Operands} {p p' : StackPc} (h : Inside c d p d' p')
    (hd : sawEmpty (c, p) = true → d = []) (hsaw : sawEmpty (c, p') = true) : d' = [] := by
  cases h with
  | testEmpty => exact List.isEmpty_iff.mp hsaw
  | unlockEmpty => exact hd hsaw
  | _ => cases hsaw

omit [Fintype ι] in
theorem owns_moves
    (h : Owns (fun pc q => Monitor.Pc.mutex pc = some q) s.mon.pc s.mon.owner)
    (hm : WorkMoves s a s') :
    Owns (fun pc q => Monitor.Pc.mutex pc = some q) s'.mon.pc s'.mon.owner := by
  cases hm with
  | callEmpty hc hpc | callPop hc hpc | next hpc | leave hpc =>
      exact h.stay fun m => by simp [hpc, Monitor.Pc.mutex]
  | sawEmpty | popped | threw | printId | printEq => exact h
  | lock hpc hfree => exact h.acquire hfree fun m => by simp [hpc, Monitor.Pc.mutex]
  | @unlock t op r hpc =>
      refine h.release (t := t) (m := ()) (by simp [hpc, Monitor.Pc.mutex]) fun m => ?_
      simp [Monitor.Pc.mutex]

/-- Who does not hold the mutex has not read the top. -/
theorem topRead_of_outside {d : List Operands} {p : StackPc}
    (h : Monitor.Pc.mutex p ≠ some ()) : TopRead d p := by
  cases p with
  | body => exact absurd rfl h
  | _ => trivial

/-- The contents change by the owner of the mutex only. -/
theorem Inside.data_eq {c : Ctl} {d d' : List Operands} {p p' : StackPc}
    (h : Inside c d p d' p') : d' = d ∨ Monitor.Pc.mutex p = some () := by
  cases h with
  | popData => exact .inr rfl
  | _ => exact .inl rfl

omit [Fintype ι] in
theorem top_inside {t : ι} {p p' : StackPc} (hin : InsideStep s s' t p p')
    (ho : Owns (fun pc q => Monitor.Pc.mutex pc = some q) s.mon.pc s.mon.owner)
    (h : ∀ u, TopRead (s.mon.data ()) (s.mon.pc u)) (u : ι) :
    TopRead (s'.mon.data ()) (s'.mon.pc u) := by
  rw [hin.after]
  by_cases hu : u = t
  · rw [hu, Function.update_self]
    exact hin.inside.topRead
  · rw [Function.update_of_ne hu]
    rcases hin.inside.data_eq with hd | hmutex
    · rw [hd]
      exact h u
    · rw [← hin.before] at hmutex
      exact topRead_of_outside fun hmu => hu (ho.unique hmu hmutex)

omit [Fintype ι] in
theorem told_move (h : ∀ u, sawEmpty (places s.ctl s.mon.pc u) = true → s.mon.data () = [])
    (hd : s.mon.data () = [] → s'.mon.data () = []) {t : ι} {c' : Ctl} {p' : StackPc}
    (hctl : s'.ctl = Function.update s.ctl t c') (hpcs : s'.mon.pc = Function.update s.mon.pc t p')
    (hnew : sawEmpty (c', p') = true → s'.mon.data () = []) (u : ι) :
    sawEmpty (places s'.ctl s'.mon.pc u) = true → s'.mon.data () = [] := by
  rw [hctl, hpcs, places_both]
  exact forall_update (P := fun x => sawEmpty x = true → s'.mon.data () = [])
    (fun u hu => hd (h u hu)) hnew u

/-! ## All steps -/

/-- A step of work() that calls no member. -/
theorem accounted_own (h : Accounted contents s) {t : ι} {c c' : Ctl} {p : StackPc}
    (hc : s.ctl t = c) (hpc : s.mon.pc t = p) (hctl : s'.ctl = Function.update s.ctl t c')
    (hmon : s'.mon = s.mon) (hsaw : sawEmpty (c', p) = true → sawEmpty (c, p) = true)
    (hstep : owed (c', p) + equations s'.out = owed (c, p) + equations s.out) :
    Accounted contents s' := by
  have hpcs : s'.mon.pc = Function.update s.mon.pc t p := by
    rw [hmon, ← hpc, Function.update_eq_self]
  have hnew (hs : sawEmpty (c', p) = true) : s'.mon.data () = [] := by
    have hat : places s.ctl s.mon.pc t = (c, p) := by rw [places, hc, hpc]
    rw [hmon]
    exact h.told t (by rw [hat, hsaw hs])
  refine ⟨by rw [hmon]; exact h.owns, by rw [hmon]; exact h.top, ?_, ?_⟩
  · exact told_move h.told (by rw [hmon]; exact id) hctl hpcs hnew
  · refine total_move h.total hc hpc hctl hpcs ?_
    rw [hmon, add_assoc, hstep, add_assoc]

/-- A step of work(). -/
theorem accounted_ctl (h : Accounted contents s) {t : ι} (hm : WorkMoves s (.ctl t) s') :
    Accounted contents s' := by
  have ho := owns_moves h.owns hm
  cases hm with
  | @callEmpty t last hc hpc | @callPop t last hc hpc =>
      exact ⟨ho, forall_update h.top trivial, told_move h.told id rfl rfl nofun,
        total_move h.total hc hpc rfl rfl rfl⟩
  | @sawEmpty t b hc hpc =>
      cases b with
      | true => exact accounted_own h hc hpc rfl rfl (fun _ => rfl) rfl
      | false => exact accounted_own h hc hpc rfl rfl nofun rfl
  | popped hc hpc => exact accounted_own h hc hpc rfl rfl nofun rfl
  | threw hc hpc => exact accounted_own h hc hpc rfl rfl nofun rfl
  | @printId t ab hc =>
      refine accounted_own h hc rfl rfl rfl nofun ?_
      rw [equations_id]
      rfl
  | @printEq t ab hc =>
      refine accounted_own h hc rfl rfl rfl nofun ?_
      rw [equations_eq, ← Multiset.coe_add]
      exact (zero_add _).trans (add_comm _ _)

/-- A step inside a member. -/
theorem accounted_inside (h : Accounted contents s) (hm : WorkMoves s a s') {t : ι}
    {p p' : StackPc} (hin : InsideStep s s' t p p') : Accounted contents s' := by
  have hctl : s'.ctl = Function.update s.ctl t (s.ctl t) := by
    rw [hin.ctl, Function.update_eq_self]
  have htold := h.told t
  rw [places, hin.before] at htold
  have htop := h.top t
  rw [hin.before] at htop
  refine ⟨owns_moves h.owns hm, top_inside hin h.owns h.top, ?_, ?_⟩
  · exact told_move h.told hin.inside.empty_stays hctl hin.after (hin.inside.told htold)
  · refine total_move h.total rfl hin.before hctl hin.after ?_
    rw [hin.inside.owed_eq htop, hin.out]

theorem accounted_step (hst : Staged s) (h : Accounted contents s) (hm : WorkMoves s a s') :
    Accounted contents s' := by
  cases a with
  | ctl t => exact accounted_ctl h hm
  | lock t | run t =>
      obtain ⟨p, p', hin⟩ := insideStep_of_moves (t := t) hst hm (by simp)
      exact accounted_inside h hm hin

theorem accounted_reach (h : (work contents).Reachable s) : Accounted contents s := by
  refine h.invariant (fun s hs => ?_) fun s a s' hr hi _ hs =>
    accounted_step (staged_reach hr) hi (workMoves_of_step (staged_reach hr) hs)
  rw [show s = workStart contents from hs]
  refine ⟨fun _ _ => iff_of_false nofun nofun, fun _ => trivial, fun _ => nofun, ?_⟩
  have hnone : sumAt owed (places (ι := ι) (workStart contents).ctl (workStart contents).mon.pc) =
      0 := sumAt_eq_zero fun _ => rfl
  rw [Total, hnone, add_zero]
  exact add_zero _

/-! ## What has been printed in the end -/

omit [DecidableEq ι] in
theorem owed_left {c : Ctl} {p : StackPc} (hc : c = .left) : owed (c, p) = 0 := by
  subst hc
  rfl

/-- When all workers have left their loops, and there is one, all has been printed. -/
theorem printed_all (h : (work contents).Reachable s) (hleft : ∀ t, s.ctl t = .left)
    (hone : Nonempty ι) : (equations s.out : Multiset Equation) = stored contents := by
  obtain ⟨t⟩ := hone
  have hacc := accounted_reach h
  have hempty : s.mon.data () = [] := hacc.told t (by rw [places, hleft t]; rfl)
  have hnone : sumAt owed (places s.ctl s.mon.pc) = 0 :=
    sumAt_eq_zero fun u => owed_left (hleft u)
  have htotal := hacc.total
  rw [Total, hempty, hnone, add_zero] at htotal
  exact (zero_add _).symm.trans htotal

/-- Without workers nothing is printed. -/
theorem printed_none (h : (work contents).Reachable s) (hnone : IsEmpty ι) : s.out = [] := by
  cases h with
  | start h =>
      rw [show s = workStart contents from h]
      rfl
  | @next _ _ a =>
      cases a with
      | ctl t | lock t | run t => exact hnone.elim t

/-- A printed equation, in ℕ. -/
def Equation.toNat (e : Equation) : ℕ × ℕ × ℕ := (e.1.toNat, e.2.1.toNat, e.2.2.toNat)

/-- The operands and their product in ℕ. -/
def product (ab : Operands) : ℕ × ℕ × ℕ := (ab.1.toNat, ab.2.toNat, ab.1.toNat * ab.2.toNat)

/-- What has been printed is true and complete for `contents`. -/
def Exact {ι : Type*} (out : List (Line ι)) (contents : List Operands) : Prop :=
  ((equations out).map Equation.toNat : Multiset (ℕ × ℕ × ℕ)) = contents.map product

theorem toNat_equation (ab : Operands) :
    (equation ab).toNat = (ab.1.toNat, ab.2.toNat, ab.1.toNat * ab.2.toNat % 2 ^ 32) := by
  rw [equation, Equation.toNat, UInt32.toNat_mul]

/-- The operands determine the pair. -/
theorem product_eq_iff {ab cd : Operands} :
    (equation ab).toNat = product cd ↔ ab = cd ∧ ab.1.toNat * ab.2.toNat < 2 ^ 32 := by
  obtain ⟨a, b⟩ := ab
  obtain ⟨c, d⟩ := cd
  rw [toNat_equation, product]
  simp only [Prod.mk.injEq, UInt32.toNat_inj]
  constructor
  · rintro ⟨rfl, rfl, hmul⟩
    exact ⟨⟨rfl, rfl⟩, hmul ▸ Nat.mod_lt _ (by decide)⟩
  · rintro ⟨⟨rfl, rfl⟩, hlt⟩
    exact ⟨rfl, rfl, Nat.mod_eq_of_lt hlt⟩

/-- The equations of the pairs are their products exactly if no product is cut off. -/
theorem map_equation_iff (l : List Operands) :
    (l.map fun ab => (equation ab).toNat).Perm (l.map product) ↔
      ∀ ab ∈ l, ab.1.toNat * ab.2.toNat < 2 ^ 32 := by
  constructor
  · intro h ab hab
    have hmem : (equation ab).toNat ∈ l.map product :=
      h.mem_iff.mp (List.mem_map.mpr ⟨ab, hab, rfl⟩)
    obtain ⟨cd, -, hcd⟩ := List.mem_map.mp hmem
    exact (product_eq_iff.mp hcd.symm).2
  · intro h
    have hmap : (l.map fun ab => (equation ab).toNat) = l.map product :=
      List.map_congr_left fun ab hab => product_eq_iff.mpr ⟨rfl, h ab hab⟩
    rw [hmap]

/-- What all workers have printed in the end. -/
theorem exact_iff (h : (work contents).Reachable s) (hleft : ∀ t, s.ctl t = .left) :
    Exact s.out contents ↔
      (∀ ab ∈ contents, ab.1.toNat * ab.2.toNat < 2 ^ 32) ∧ (Nonempty ι ∨ contents = []) := by
  rcases isEmpty_or_nonempty ι with hnone | hone
  · have hn : ¬ Nonempty ι := not_nonempty_iff.mpr hnone
    rw [Exact, printed_none h hnone]
    constructor
    · intro he
      have hnil : contents = [] := by simpa [equations] using he.symm
      subst hnil
      exact ⟨fun _ hab => absurd hab List.not_mem_nil, .inr rfl⟩
    · rintro ⟨-, hor⟩
      rw [hor.resolve_left hn]
      rfl
  · have hall := congrArg (Multiset.map Equation.toNat) (printed_all h hleft hone)
    rw [stored, Multiset.map_coe, Multiset.map_coe, Multiset.map_coe, List.map_map] at hall
    rw [Exact, hall, Multiset.coe_eq_coe, and_iff_left (.inl hone)]
    exact map_equation_iff contents

/-- **The output is true and complete if no product overflows.** Take the stack that makeStack
    returns, any workers, and any run in which all workers leave their loops. The printed
    equations are those of the pairs pushed, each once, with the product in ℕ, if and only if
    the product of each pair is below `2 ^ 32`, and there is a worker, or nothing to do. -/
theorem output_exact {ri : ℕ → UInt32} {n : UInt64} {fuel : ℕ} {plan : List (Option Empty)}
    {r : LockedHeap Obj (List Operands) Empty}
    (hmake : makeStack ri n fuel (LockedHeap.start (fun _ => none) plan) = .ok true r) :
    ∃ contents, r.data .result = some contents ∧ contents = pairs ri n.toNat ∧
      ∀ s : WorkSt ι, (work contents).Reachable s → (∀ t, s.ctl t = .left) →
        (Exact s.out contents ↔
          (∀ ab ∈ contents, ab.1.toNat * ab.2.toNat < 2 ^ 32) ∧
            (Nonempty ι ∨ contents = [])) :=
  ⟨_, makeStack_data hmake, rfl, fun _ hs hleft => exact_iff hs hleft⟩

/-- A worker tests, pops, prints, tests again and leaves. -/
def oneWorker : List (WorkAct Unit) :=
  [.ctl (), .lock (), .run (), .run (), .ctl (),
   .ctl (), .lock (), .run (), .run (), .run (), .run (), .run (), .ctl (),
   .ctl (), .ctl (),
   .ctl (), .lock (), .run (), .run (), .ctl ()]

/-- The state after `oneWorker` on a single pair. -/
def worked (ab : Operands) : Option (WorkSt Unit) :=
  (work [ab]).exec Lts.anyStep (workStart [ab]) oneWorker

theorem worked_reachable {ab : Operands} {s : WorkSt Unit} (h : worked ab = some s) :
    (work [ab]).Reachable s := .exec oneWorker (.start rfl) h

/-- One worker on one pair, and the product fits. -/
theorem output_exact_oneWorker :
    ∃ s : WorkSt Unit, worked (10000, 10000) = some s ∧ Exact s.out [(10000, 10000)] := by
  have hmake : ∃ r, makeStack (fun _ => 10000) 1 2 (LockedHeap.start (fun _ => none) []) =
      .ok true r := ⟨_, rfl⟩
  obtain ⟨r, hr⟩ := hmake
  obtain ⟨contents, -, hpairs, hall⟩ := output_exact (ι := Unit) hr
  obtain ⟨s, hs⟩ := Option.isSome_iff_exists.mp (show (worked (10000, 10000)).isSome by decide)
  have hleft : (worked (10000, 10000)).map (fun s => s.ctl ()) = some .left := by decide
  rw [hs] at hleft
  have hone : pairs (fun _ => 10000) (UInt64.toNat 1) = [(10000, 10000)] := by decide
  rw [hpairs, hone] at hall
  have hfits : ∀ ab ∈ [((10000, 10000) : Operands)], ab.1.toNat * ab.2.toNat < 2 ^ 32 := by
    intro ab hab
    have htoNat : (10000 : UInt32).toNat = 10000 := rfl
    rw [List.mem_singleton.mp hab]
    dsimp only
    rw [htoNat]
    omega
  exact ⟨s, hs, (hall s (worked_reachable hs) fun _ => Option.some.inj hleft).mpr
    ⟨hfits, .inl ⟨()⟩⟩⟩

/-- One worker on the largest pair of operands: the product is cut off. -/
theorem output_overflows :
    ∃ r, makeStack (fun _ => 99999) 1 2 (LockedHeap.start (fun _ => none) []) = .ok true r ∧
      r.data .result = some [(99999, 99999)] ∧
      ∃ s : WorkSt Unit, (work [(99999, 99999)]).Reachable s ∧ (∀ t, s.ctl t = .left) ∧
        equations s.out = [(99999, 99999, 1409865409)] ∧ ¬ Exact s.out [(99999, 99999)] := by
  refine ⟨_, rfl, by decide, ?_⟩
  obtain ⟨s, hs⟩ := Option.isSome_iff_exists.mp (show (worked (99999, 99999)).isSome by decide)
  have hleft : (worked (99999, 99999)).map (fun s => s.ctl ()) = some .left := by decide
  have hout : (worked (99999, 99999)).map (fun s => equations s.out) =
      some [(99999, 99999, 1409865409)] := by decide
  rw [hs] at hleft hout
  have hctl (t : Unit) : s.ctl t = .left := Option.some.inj hleft
  refine ⟨s, worked_reachable hs, hctl, Option.some.inj hout, fun he => ?_⟩
  have hfits := ((exact_iff (worked_reachable hs) hctl).mp he).1 (99999, 99999)
    (List.mem_singleton.mpr rfl)
  have htoNat : (99999 : UInt32).toNat = 99999 := rfl
  dsimp only at hfits
  rw [htoNat] at hfits
  omega

end CppConcurrency.ThreadSafeStack
