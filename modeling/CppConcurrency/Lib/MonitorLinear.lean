/-
  A monitor class linearizes.

  `Correct C S Rel`: run without interference, each body of `C` computes what the sequential
  object `S` says. `Rel l op d a` is the assertion at location `l` of member `op`: the
  contents are now `d` and were `a` when the section of the body that counts began (a body
  that waits begins anew). It is checked statement by statement.

  `linearizable`: then in every reachable state, for any number of threads and objects, the
  operations that returned, taken in the order of their responses, are a linearization of
  the history for the store of objects of `S`, and the contents of every object whose
  mutex is free are what that order leaves in it. Operations that ended in an exception
  have had no effect.

  The invariant (`Inv`) has one field for each concern: who holds which mutex, who constructs
  which object, who uses an object that is already constructed, what the history says about
  the calls in progress, how far a copy has come, and the simulation itself.
-/
import CppConcurrency.Lib.Monitor
import CppConcurrency.Lib.Mutual

namespace Concur.Monitor

variable {ι κ T Op Ret Loc : Type*}

/-- The bodies of `C` compute what `S` says, by the assertions `Rel`. -/
structure Correct (C : MonitorClass T Op Ret Loc) (S : ObjSpec T Op Ret)
    (Rel : Loc → Op → List T → List T → Prop) : Prop where
  entry : ∀ op a, Rel (C.entry op) op a a
  next : ∀ {l op d a d' l'}, Rel l op d a → C.stmt l d = some (.next d' l') → Rel l' op d' a
  notify : ∀ {l op d a l'}, Rel l op d a → C.stmt l d = some (.notify l') → Rel l' op d a
  wait : ∀ {l op d a l'}, Rel l op d a → C.stmt l d = some (.wait l') →
    d = a ∧ ∀ b, Rel l' op b b
  leave : ∀ {l op d a r}, Rel l op d a → C.stmt l d = some (.leave r) →
    S.apply a op = some (d, r)
  throws : ∀ {l op d a}, Rel l op d a → C.throws l = true → d = a

/-- What the owner of a mutex has made of the contents: `a` before, `d` now. -/
def RelPc (S : ObjSpec T Op Ret) (Rel : Loc → Op → List T → List T → Prop) :
    Pc κ T Op Ret Loc → List T → List T → Prop
  | .copyData _ _, d, a => d = a
  | .copyUnlock _ _ _, d, a => d = a
  | .body _ op l, d, a => Rel l op d a
  | .unlock _ op (some r), d, a => S.apply a op = some (d, r)
  | .unlock _ _ none, d, a => d = a
  | _, _, _ => False

/-- How far a constructor has come. -/
def Built (data : κ → List T) : Pc κ T Op Ret Loc → Prop
  | .constructing q => data q = []
  | .copyLock q _ => data q = []
  | .copyData q other => data q <+: data other
  | .copyUnlock q other true => data q = data other
  | _ => True

/-- A thread that waits may start its body anew on any contents. -/
def Resumes (Rel : Loc → Op → List T → List T → Prop) : Pc κ T Op Ret Loc → Prop
  | .asleep _ op l => ∀ b, Rel l op b b
  | .woken _ op l => ∀ b, Rel l op b b
  | _ => True

/-- The thread that runs the constructor of each object. -/
def builderOf (life : κ → Life ι) (q : κ) : Option ι := (life q).builder

/-- The operations that returned, in the order of their responses. -/
def returned [DecidableEq ι] (h : List (Event ι (ObjOp κ Op) (ObjRet T Ret))) :
    List (OpRec ι (ObjOp κ Op) (ObjRet T Ret)) :=
  (completed h).filter fun o => o.ret.returned

/-- What they were and returned. -/
def returnedOps [DecidableEq ι] (h : List (Event ι (ObjOp κ Op) (ObjRet T Ret))) :
    List (ObjOp κ Op × ObjRet T Ret) :=
  (ops h).filter fun o => o.2.returned

theorem returned_map_sig [DecidableEq ι] (h : List (Event ι (ObjOp κ Op) (ObjRet T Ret))) :
    (returned h).map OpRec.sig = returnedOps h := by
  rw [returnedOps, ops, List.filter_map]
  rfl

/-- The contents of the objects are what the operations that returned have left in them. -/
structure Simulates [DecidableEq ι] [DecidableEq κ] (S : ObjSpec T Op Ret)
    (Rel : Loc → Op → List T → List T → Prop)
    (s : St ι κ T Op Ret Loc) (abs : κ → Option (List T)) : Prop where
  legal : Legal S.objects (returnedOps s.hist) abs
  live : ∀ q, s.life q = .live ↔ (abs q).isSome = true
  guarded : Guarded (RelPc S Rel) s.pc s.owner s.data abs

/-- The invariant of a monitor. -/
structure Inv [DecidableEq ι] [DecidableEq κ] (S : ObjSpec T Op Ret)
    (Rel : Loc → Op → List T → List T → Prop) (s : St ι κ T Op Ret Loc) : Prop where
  owns : Owns (fun pc q => Pc.mutex pc = some q) s.pc s.owner
  builds : Owns (fun pc q => Pc.builds pc = some q) s.pc (builderOf s.life)
  uses : ∀ t q, (s.pc t).uses = some q → s.life q = .live
  tracks : Tracks Pc.call s.pc s.hist
  resumes : ∀ t, Resumes Rel (s.pc t)
  built : ∀ t, Built s.data (s.pc t)
  sim : ∃ abs, Simulates S Rel s abs

/-! ## Consequences of the invariant -/

theorem uses_of_mutex {pc : Pc κ T Op Ret Loc} {q : κ} (h : pc.mutex = some q) :
    pc.uses = some q := by
  cases pc <;> simp_all [Pc.mutex, Pc.uses]

theorem built_congr {data data' : κ → List T} {pc : Pc κ T Op Ret Loc}
    (hb : ∀ q, pc.builds = some q → data' q = data q)
    (hm : ∀ q, pc.mutex = some q → data' q = data q) (h : Built data pc) : Built data' pc := by
  cases pc with
  | constructing q => exact (hb q rfl).trans h
  | copyLock q other => exact (hb q rfl).trans h
  | copyData q other =>
      show data' q <+: data' other
      rw [hb q rfl, hm other rfl]
      exact h
  | copyUnlock q other ok =>
      cases ok with
      | false => trivial
      | true => exact (hb q rfl).trans (h.trans (hm other rfl).symm)
  | _ => trivial

section

variable [DecidableEq ι] [DecidableEq κ] {S : ObjSpec T Op Ret}
  {Rel : Loc → Op → List T → List T → Prop} {s : St ι κ T Op Ret Loc} {t u : ι} {q : κ}

theorem Inv.owner_eq (h : Inv S Rel s) (hq : (s.pc t).mutex = some q) : s.owner q = some t :=
  (h.owns q t).mpr hq

theorem Inv.only (h : Inv S Rel s) (hq : (s.pc t).mutex = some q) :
    ∀ q', s.owner q' = some t → q' = q := by
  intro q' ho
  have hq' : (s.pc t).mutex = some q' := (h.owns q' t).mp ho
  exact Option.some.inj (hq'.symm.trans hq)

theorem Inv.owns_nothing (h : Inv S Rel s) (hq : (s.pc t).mutex = none) :
    ∀ q', s.owner q' ≠ some t := by
  intro q' ho
  have hq' : (s.pc t).mutex = some q' := (h.owns q' t).mp ho
  rw [hq] at hq'
  cases hq'

theorem Inv.live_of_mutex (h : Inv S Rel s) (hq : (s.pc t).mutex = some q) : s.life q = .live :=
  h.uses t q (uses_of_mutex hq)

theorem Inv.life_of_builds (h : Inv S Rel s) (hq : (s.pc t).builds = some q) :
    s.life q = .building t := by
  have hb : builderOf s.life q = some t := (h.builds q t).mpr hq
  unfold builderOf Life.builder at hb
  cases hl : s.life q with
  | building u => rw [hl] at hb; rw [Option.some.inj hb]
  | raw => rw [hl] at hb; cases hb
  | live => rw [hl] at hb; cases hb

/-- An object under construction is not used by anybody. -/
theorem Inv.ne_of_builds (h : Inv S Rel s) {q' : κ} (hq : (s.pc t).builds = some q)
    (hq' : s.life q' = .live) : q' ≠ q := by
  rintro rfl
  rw [h.life_of_builds hq] at hq'
  cases hq'

/-- An object that is not live has a free mutex. -/
theorem Inv.free_of_not_live (h : Inv S Rel s) (hq : s.life q ≠ .live) : s.owner q = none := by
  cases ho : s.owner q with
  | none => rfl
  | some u =>
      have hm : (s.pc u).mutex = some q := (h.owns q u).mp ho
      exact absurd (h.live_of_mutex hm) hq

/-- While no call is in progress every mutex is free. -/
theorem Inv.free_of_quiet (h : Inv S Rel s) (hquiet : ∀ t, pendingOp s.hist t = none) (q : κ) :
    s.owner q = none := by
  cases ho : s.owner q with
  | none => rfl
  | some t =>
      have hm : (s.pc t).mutex = some q := (h.owns q t).mp ho
      have hc := (h.tracks.pending t).symm.trans (hquiet t)
      cases hpc : s.pc t <;> rw [hpc] at hm hc <;> simp_all [Pc.mutex, Pc.call]

theorem Simulates.none_of_not_live {abs : κ → Option (List T)} (h : Simulates S Rel s abs)
    (hq : s.life q ≠ .live) : abs q = none := by
  cases ha : abs q with
  | none => rfl
  | some d => exact absurd ((h.live q).mpr (by rw [ha]; rfl)) hq

theorem Simulates.some_of_live {abs : κ → Option (List T)} (h : Simulates S Rel s abs)
    (hq : s.life q = .live) : ∃ d, abs q = some d :=
  Option.isSome_iff_exists.mp ((h.live q).mp hq)

end

/-! ## The initial state -/

theorem inv_initial [DecidableEq ι] [DecidableEq κ] {S : ObjSpec T Op Ret}
    {Rel : Loc → Op → List T → List T → Prop} :
    Inv S Rel (initial : St ι κ T Op Ret Loc) where
  owns q t := by simp [initial, Pc.mutex]
  builds q t := by simp [initial, Pc.builds, builderOf, Life.builder]
  uses t q hq := by cases hq
  tracks := ⟨rfl, fun _ => rfl⟩
  resumes _ := trivial
  built _ := trivial
  sim := ⟨fun _ => none, .nil, fun q => by simp [initial], fun q a ha => nomatch ha⟩

/-! ## Steps keep the invariant -/

section Steps

variable [DecidableEq ι] [DecidableEq κ] {C : MonitorClass T Op Ret Loc}
  {S : ObjSpec T Op Ret} {Rel : Loc → Op → List T → List T → Prop}
  {s s' : St ι κ T Op Ret Loc} {a : Act ι κ Op}

omit [DecidableEq ι] [DecidableEq κ] in
theorem ne_of_body_asleep {t u : ι} {q q' : κ} {op op' : Op} {l k : Loc}
    (hpc : s.pc t = .body q op l) (hu : s.pc u = .asleep q' op' k) : t ≠ u := by
  rintro rfl
  rw [hpc] at hu
  cases hu

theorem owns_step (h : Owns (fun pc q => Pc.mutex pc = some q) s.pc s.owner)
    (hm : Moves C s a s') : Owns (fun pc q => Pc.mutex pc = some q) s'.pc s'.owner := by
  cases hm with
  | construct hpc | copy hpc | on hpc | constructed hpc | copyEnd hpc | next hpc | leave hpc
  | notifyNone hpc | spurious hpc | failCopy hpc | fail hpc =>
      exact h.stay fun m => by simp [hpc, Pc.mutex]
  | copyNext => exact h
  | lockCopy hpc hfree | lockOn hpc hfree | relock hpc hfree =>
      exact h.acquire hfree fun m => by simp [hpc, Pc.mutex, eq_comm]
  | copied hpc | uncopied hpc | wait hpc | unlock hpc =>
      refine h.release (by simp [hpc, Pc.mutex]) fun m => ?_
      simpa [hpc, Pc.mutex] using fun h1 h2 => h1 h2.symm
  | notifyOne hpc hu =>
      refine (h.stay fun m => ?_).stay fun m => ?_
      · simp [hu, Pc.mutex]
      · rw [Function.update_of_ne (ne_of_body_asleep hpc hu)]
        simp [hpc, Pc.mutex]

omit [DecidableEq ι] in
theorem builderOf_update (life : κ → Life ι) (q : κ) (x : Life ι) :
    builderOf (Function.update life q x) = Function.update (builderOf life) q x.builder := by
  funext q'
  by_cases hq : q' = q
  · subst hq
    simp only [builderOf, Function.update_self]
  · simp only [builderOf, Function.update_of_ne hq]

theorem builds_step (h : Inv S Rel s) (hm : Moves C s a s') :
    Owns (fun pc q => Pc.builds pc = some q) s'.pc (builderOf s'.life) := by
  have hb := h.builds
  cases hm with
  | construct hpc hq | copy hpc hq =>
      rw [builderOf_update]
      refine hb.acquire ?_ fun m => by simp [hpc, Pc.builds, eq_comm]
      rw [builderOf, hq]
      rfl
  | on hpc | lockCopy hpc | lockOn hpc | relock hpc | copyEnd hpc | next hpc | wait hpc
  | leave hpc | unlock hpc | notifyNone hpc | spurious hpc | failCopy hpc | fail hpc =>
      exact hb.stay fun m => by simp [hpc, Pc.builds]
  | copyNext => exact hb
  | constructed hpc | copied hpc | uncopied hpc =>
      rw [builderOf_update]
      refine hb.release (by simp [hpc, Pc.builds]) fun m => ?_
      simpa [hpc, Pc.builds] using fun h1 h2 => h1 h2.symm
  | notifyOne hpc hu =>
      refine (hb.stay fun m => ?_).stay fun m => ?_
      · simp [hu, Pc.builds]
      · rw [Function.update_of_ne (ne_of_body_asleep hpc hu)]
        simp [hpc, Pc.builds]

theorem tracks_step (h : Tracks Pc.call s.pc s.hist) (hm : Moves C s a s') :
    Tracks Pc.call s'.pc s'.hist := by
  cases hm with
  | construct hpc | copy hpc | on hpc => exact h.invoke (by simp [hpc, Pc.call]) rfl
  | lockCopy hpc | lockOn hpc | relock hpc | copyEnd hpc | next hpc | wait hpc | leave hpc
  | notifyNone hpc | spurious hpc | failCopy hpc | fail hpc =>
      exact h.stay (by simp [hpc, Pc.call])
  | copyNext => exact h
  | constructed hpc | copied hpc | uncopied hpc | unlock hpc =>
      exact h.respond (by rw [hpc]; rfl) rfl _
  | notifyOne hpc hu =>
      refine (h.stay ?_).stay ?_
      · simp [hu, Pc.call]
      · rw [Function.update_of_ne (ne_of_body_asleep hpc hu)]
        simp [hpc, Pc.call]

/-! Whoever uses an object uses a live one. -/

theorem not_live_of_builds (h : Inv S Rel s) {t : ι} {pc : Pc κ T Op Ret Loc} {q : κ}
    (hpc : s.pc t = pc) (hq : pc.builds = some q) : s.life q ≠ .live := by
  subst hpc
  rw [h.life_of_builds hq]
  nofun

/-- What a thread uses is live. -/
def UsesLive (life : κ → Life ι) (pc : Pc κ T Op Ret Loc) : Prop :=
  ∀ q, pc.uses = some q → life q = .live

omit [DecidableEq ι] in
/-- A live object stays live when the life of one that is not live changes. -/
theorem live_update {life : κ → Life ι} {q q' : κ} (x : Life ι) (hq : life q ≠ .live)
    (h : life q' = .live) : Function.update life q x q' = .live := by
  have hne : q' ≠ q := by
    rintro rfl
    exact hq h
  rw [Function.update_of_ne hne]
  exact h

/-- A thread moves, and the life of an object that is not live changes. -/
theorem uses_update (h : Inv S Rel s) {t : ι} {pc : Pc κ T Op Ret Loc} {q : κ} {x : Life ι}
    (hq : s.life q ≠ .live) (hl : ∀ q', pc.uses = some q' → s.life q' = .live) :
    ∀ u q', (Function.update s.pc t pc u).uses = some q' →
      Function.update s.life q x q' = .live :=
  forall_update (P := UsesLive (Function.update s.life q x))
    (fun u q' hq' => live_update x hq (h.uses u q' hq'))
    fun q' hq' => live_update x hq (hl q' hq')

omit [DecidableEq κ] in
/-- A thread moves on within its call, or responds. -/
theorem uses_stay {loc : ι → Pc κ T Op Ret Loc} {life : κ → Life ι}
    (h : ∀ u q, (loc u).uses = some q → life q = .live) {t : ι} {pc pc' : Pc κ T Op Ret Loc}
    (hpc : loc t = pc) (hl : pc'.uses = pc.uses ∨ pc'.uses = none) :
    ∀ u q, (Function.update loc t pc' u).uses = some q → life q = .live := by
  refine forall_update (P := UsesLive life) h fun q hq => ?_
  rcases hl with hl | hl
  · exact h t q (by rw [hpc, ← hl, hq])
  · rw [hl] at hq
    cases hq

theorem uses_step (h : Inv S Rel s) (hm : Moves C s a s') :
    ∀ t q, (s'.pc t).uses = some q → s'.life q = .live := by
  cases hm with
  | construct hpc hq => exact uses_update h (by simp [hq]) (by simp [Pc.uses])
  | copy hpc hq ho => exact uses_update h (by simp [hq]) (by simp [Pc.uses, ho])
  | on hpc hq =>
      exact forall_update (P := UsesLive s.life) h.uses (by simp [UsesLive, Pc.uses, hq])
  | constructed hpc | copied hpc | uncopied hpc =>
      exact uses_update h (not_live_of_builds h hpc rfl) (by simp [Pc.uses])
  | lockCopy hpc | lockOn hpc | relock hpc | copyEnd hpc | next hpc | wait hpc | leave hpc
  | notifyNone hpc | spurious hpc | failCopy hpc | fail hpc =>
      exact uses_stay h.uses hpc (.inl rfl)
  | unlock hpc => exact uses_stay h.uses hpc (.inr rfl)
  | copyNext => exact h.uses
  | @notifyOne t u q op l l' op' k hpc hu =>
      have ht : Function.update s.pc u (.woken q op' k) t = .body q op l := by
        rw [Function.update_of_ne (ne_of_body_asleep hpc hu)]
        exact hpc
      have h1 : ∀ v q', (Function.update s.pc u (.woken q op' k) v).uses = some q' →
          s.life q' = .live := uses_stay h.uses hu (.inl rfl)
      exact uses_stay h1 ht (.inl rfl)

/-! What the owner of a mutex knows about the contents behind it. -/

/-- The assertion holds at the statement a thread is about to execute. -/
theorem rel_of_body (h : Inv S Rel s) {abs : κ → Option (List T)} (hsim : Simulates S Rel s abs)
    {t : ι} {pc : Pc κ T Op Ret Loc} {q : κ} (hpc : s.pc t = pc) (hq : pc.mutex = some q) :
    ∃ d, abs q = some d ∧ RelPc S Rel pc (s.data q) d := by
  subst hpc
  obtain ⟨d, hd⟩ := hsim.some_of_live (h.live_of_mutex hq)
  exact ⟨d, hd, hsim.guarded.of_owner (h.owner_eq hq) hd⟩

theorem resumes_step (hC : Correct C S Rel) (h : Inv S Rel s) (hm : Moves C s a s') :
    ∀ t, Resumes Rel (s'.pc t) := by
  have hr := h.resumes
  cases hm with
  | construct | copy | on | lockCopy | lockOn | relock | constructed | copyEnd | copied
  | uncopied | next | leave | unlock | notifyNone | failCopy | fail =>
      exact forall_update hr trivial
  | copyNext => exact hr
  | wait hpc hs =>
      obtain ⟨abs, hsim⟩ := h.sim
      obtain ⟨d, -, hrel⟩ := rel_of_body h hsim hpc rfl
      exact forall_update hr (hC.wait hrel hs).2
  | @notifyOne t u q op l l' op' k hpc hu hs =>
      have hru := hr u
      rw [hu] at hru
      exact forall_update (forall_update hr hru) trivial
  | @spurious u q op l hpc =>
      have hru := hr u
      rw [hpc] at hru
      exact forall_update hr hru

/-! A constructor finds what it has written so far, and a copy what it has to read. -/

/-- Thread `t` may write into object `q`. -/
def Writer (s : St ι κ T Op Ret Loc) (t : ι) (q : κ) : Prop :=
  (s.pc t).builds = some q ∨ (s.pc t).mutex = some q ∨ s.life q = .raw

/-- What another thread constructs or copies from is not what `t` may write into. -/
theorem ne_of_writer (h : Inv S Rel s) {t u : ι} {q q' : κ} (hw : Writer s t q) (hu : u ≠ t)
    (hq' : (s.pc u).builds = some q' ∨ (s.pc u).mutex = some q') : q' ≠ q := by
  rintro rfl
  rcases hq' with hb | hm
  · rcases hw with ht | ht | ht
    · exact hu (h.builds.unique hb ht)
    · exact h.ne_of_builds hb (h.live_of_mutex ht) rfl
    · rw [h.life_of_builds hb] at ht
      cases ht
  · rcases hw with ht | ht | ht
    · exact h.ne_of_builds ht (h.live_of_mutex hm) rfl
    · exact hu (h.owns.unique hm ht)
    · rw [h.live_of_mutex hm] at ht
      cases ht

theorem built_write (h : Inv S Rel s) {t : ι} {q : κ} (hw : Writer s t q) {d : List T}
    {pc : Pc κ T Op Ret Loc} (hpc : Built (Function.update s.data q d) pc) :
    ∀ u, Built (Function.update s.data q d) (Function.update s.pc t pc u) := by
  intro u
  by_cases hu : u = t
  · subst hu
    rw [Function.update_self]
    exact hpc
  · rw [Function.update_of_ne hu]
    refine built_congr (fun q' hq' => ?_) (fun q' hq' => ?_) (h.built u)
    · exact Function.update_of_ne (ne_of_writer h hw hu (.inl hq')) _ _
    · exact Function.update_of_ne (ne_of_writer h hw hu (.inr hq')) _ _

omit [DecidableEq κ] in
theorem prefix_snoc {d e : List T} {v : T} (hp : d <+: e) (hv : e[d.length]? = some v) :
    d ++ [v] <+: e := by
  obtain ⟨r, rfl⟩ := hp
  cases r with
  | nil => simp at hv
  | cons w r =>
      rw [List.getElem?_append_right (le_refl _), Nat.sub_self] at hv
      cases hv
      exact ⟨r, by simp⟩

omit [DecidableEq κ] in
theorem prefix_end {d e : List T} (hp : d <+: e) (hv : e[d.length]? = none) : d = e :=
  hp.eq_of_length_le (List.getElem?_eq_none_iff.mp hv)

theorem built_step (h : Inv S Rel s) (hm : Moves C s a s') :
    ∀ t, Built s'.data (s'.pc t) := by
  have hb := h.built
  cases hm with
  | construct hpc hq | copy hpc hq =>
      exact built_write h (.inr (.inr hq)) (by simp [Built])
  | @next t q op l d l' hpc =>
      exact built_write h (t := t) (.inr (.inl (by rw [hpc]; rfl))) trivial
  | @lockCopy t q other hpc =>
      have hbt : s.data q = [] := by
        have hbt := hb t
        rw [hpc] at hbt
        exact hbt
      refine forall_update hb ?_
      show s.data q <+: s.data other
      rw [hbt]
      exact List.nil_prefix
  | @copyNext t q other v hpc hv =>
      have hbt := hb t
      rw [hpc] at hbt
      have hne : other ≠ q := h.ne_of_builds (t := t) (by rw [hpc]; rfl)
        (h.live_of_mutex (t := t) (by rw [hpc]; rfl))
      have hb' : Built (Function.update s.data q (s.data q ++ [v])) (s.pc t) := by
        rw [hpc]
        show Function.update s.data q (s.data q ++ [v]) q <+: _
        rw [Function.update_self, Function.update_of_ne hne]
        exact prefix_snoc hbt hv
      have hw := built_write h (t := t) (.inl (by rw [hpc]; rfl)) hb'
      rwa [Function.update_eq_self] at hw
  | @copyEnd t q other hpc hv =>
      have hbt := hb t
      rw [hpc] at hbt
      exact forall_update hb (prefix_end hbt hv)
  | on | lockOn | relock | constructed | copied | uncopied | wait | leave | unlock | notifyNone
  | spurious | failCopy | fail => exact forall_update hb trivial
  | notifyOne => exact forall_update (forall_update hb trivial) trivial

/-! The simulation: each response extends the sequential run by what the call did. -/

omit [DecidableEq κ] in
theorem returnedOps_inv (h : List (Event ι (ObjOp κ Op) (ObjRet T Ret))) (t : ι)
    (c : ObjOp κ Op) : returnedOps (h ++ [.inv t c]) = returnedOps h := by
  rw [returnedOps, Tracks.ops_invoke]
  rfl

omit [DecidableEq κ] in
theorem returnedOps_res (ht : Tracks Pc.call s.pc s.hist) {t : ι} {pc : Pc κ T Op Ret Loc}
    (hpc : s.pc t = pc) {c : ObjOp κ Op} (hc : pc.call = some c) {r : ObjRet T Ret}
    (hr : r.returned = true) :
    returnedOps (s.hist ++ [.res t r]) = returnedOps s.hist ++ [(c, r)] := by
  subst hpc
  rw [returnedOps, ht.ops_respond hc, List.filter_append, List.filter_singleton]
  simp only [hr]
  rfl

omit [DecidableEq κ] in
theorem returnedOps_threw (ht : Tracks Pc.call s.pc s.hist) {t : ι} {pc : Pc κ T Op Ret Loc}
    (hpc : s.pc t = pc) {c : ObjOp κ Op} (hc : pc.call = some c) :
    returnedOps (s.hist ++ [.res t (.threw : ObjRet T Ret)]) = returnedOps s.hist := by
  subst hpc
  rw [returnedOps, ht.ops_respond hc, List.filter_append, List.filter_singleton]
  exact List.append_nil _

omit [DecidableEq ι] in
/-- Constructing objects does not change which objects are live. -/
theorem live_building {abs : κ → Option (List T)} {life : κ → Life ι} {q : κ} {x : Life ι}
    (h : ∀ q, life q = .live ↔ (abs q).isSome = true) (hq : life q ≠ .live) (hx : x ≠ .live) :
    ∀ q', Function.update life q x q' = .live ↔ (abs q').isSome = true := by
  intro q'
  by_cases hq' : q' = q
  · subst hq'
    rw [Function.update_self, ← h q']
    exact ⟨fun he => absurd he hx, fun he => absurd he hq⟩
  · rw [Function.update_of_ne hq']
    exact h q'

omit [DecidableEq ι] in
/-- A constructed object is live from then on. -/
theorem live_built {abs : κ → Option (List T)} {life : κ → Life ι} {q : κ} {d : List T}
    (h : ∀ q, life q = .live ↔ (abs q).isSome = true) :
    ∀ q', Function.update life q .live q' = .live ↔
      (Function.update abs q (some d) q').isSome = true := by
  intro q'
  by_cases hq' : q' = q
  · subst hq'
    simp
  · rw [Function.update_of_ne hq', Function.update_of_ne hq']
    exact h q'

omit [DecidableEq ι] in
/-- An operation on a live object leaves it live. -/
theorem live_written {abs : κ → Option (List T)} {life : κ → Life ι} {q : κ} {d : List T}
    (h : ∀ q, life q = .live ↔ (abs q).isSome = true) (hq : life q = .live) :
    ∀ q', life q' = .live ↔ (Function.update abs q (some d) q').isSome = true := by
  intro q'
  by_cases hq' : q' = q
  · subst hq'
    simp [hq]
  · rw [Function.update_of_ne hq']
    exact h q'

/-- A thread that owns nothing moves. -/
theorem guarded_stay (h : Inv S Rel s) {abs : κ → Option (List T)}
    (hsim : Simulates S Rel s abs) {t : ι} {pc pc' : Pc κ T Op Ret Loc} (hpc : s.pc t = pc)
    (hq : pc.mutex = none) :
    Guarded (RelPc S Rel) (Function.update s.pc t pc') s.owner s.data abs :=
  hsim.guarded.stay (h.owns_nothing (by rw [hpc, hq]))

/-- The owner of a mutex moves. -/
theorem guarded_move (h : Inv S Rel s) {abs : κ → Option (List T)}
    (hsim : Simulates S Rel s abs) {t : ι} {pc pc' : Pc κ T Op Ret Loc} {q : κ}
    (hpc : s.pc t = pc) (hq : pc.mutex = some q)
    (hr : ∀ d, RelPc S Rel pc (s.data q) d → RelPc S Rel pc' (s.data q) d) :
    Guarded (RelPc S Rel) (Function.update s.pc t pc') s.owner s.data abs := by
  subst hpc
  exact hsim.guarded.move (h.owner_eq hq) (h.only hq) fun d _ => hr d

/-- The owner of a mutex releases it and leaves the contents as they were. -/
theorem guarded_back (h : Inv S Rel s) {abs : κ → Option (List T)}
    (hsim : Simulates S Rel s abs) {t : ι} {pc pc' : Pc κ T Op Ret Loc} {q : κ}
    (hpc : s.pc t = pc) (hq : pc.mutex = some q)
    (hr : ∀ d, RelPc S Rel pc (s.data q) d → s.data q = d) :
    Guarded (RelPc S Rel) (Function.update s.pc t pc') (Function.update s.owner q none) s.data
      abs := by
  obtain ⟨d, habs, hrel⟩ := rel_of_body h hsim hpc hq
  subst hpc
  refine hsim.guarded.release (h.owner_eq hq) (h.only hq) (fun b hb => ?_) fun _ _ => rfl
  rw [habs] at hb
  exact (hr d hrel).trans (Option.some.inj hb)

/-- Contents that are not live may change. -/
theorem guarded_write {abs : κ → Option (List T)} (hsim : Simulates S Rel s abs)
    {loc : ι → Pc κ T Op Ret Loc} {q : κ} (hq : s.life q ≠ .live) (d : List T)
    (hg : Guarded (RelPc S Rel) loc s.owner s.data abs) :
    Guarded (RelPc S Rel) loc s.owner (Function.update s.data q d) abs := by
  refine hg.congr_data fun m b hb => Function.update_of_ne ?_ _ _
  rintro rfl
  rw [hsim.none_of_not_live hq] at hb
  cases hb

theorem sim_constructed (h : Inv S Rel s) {abs : κ → Option (List T)}
    (hsim : Simulates S Rel s abs) {t : ι} {q : κ} (hpc : s.pc t = .constructing q) :
    Simulates S Rel
      { s with
        pc := Function.update s.pc t (.idle (some (.made (s.data q))))
        life := Function.update s.life q .live
        hist := s.hist ++ [.res t (.made (s.data q))] }
      (Function.update abs q (some (s.data q))) := by
  have hn := not_live_of_builds h hpc rfl
  have hd : s.data q = [] := by
    have hb := h.built t
    rw [hpc] at hb
    exact hb
  refine ⟨?_, live_built hsim.live, ?_⟩
  · rw [returnedOps_res h.tracks hpc rfl rfl]
    refine .snoc hsim.legal (apply_objects_iff.mpr ⟨q, _, ?_, rfl⟩)
    rw [hd]
    exact .construct (hsim.none_of_not_live hn)
  · exact (guarded_stay h hsim hpc rfl).extend (h.free_of_not_live hn) rfl

/-- A copy is linearized where it releases the mutex of its source. -/
theorem sim_copied (h : Inv S Rel s) {abs : κ → Option (List T)}
    (hsim : Simulates S Rel s abs) {t : ι} {q other : κ}
    (hpc : s.pc t = .copyUnlock q other true) :
    Simulates S Rel
      { s with
        pc := Function.update s.pc t (.idle (some (.made (s.data q))))
        owner := Function.update s.owner other none
        life := Function.update s.life q .live
        hist := s.hist ++ [.res t (.made (s.data q))] }
      (Function.update abs q (some (s.data q))) := by
  have hn := not_live_of_builds h hpc rfl
  have hd : s.data q = s.data other := by
    have hb := h.built t
    rw [hpc] at hb
    exact hb
  obtain ⟨d, habs, hr⟩ := rel_of_body h hsim hpc rfl
  have hr : s.data other = d := hr
  have hne : q ≠ other := by
    rintro rfl
    exact hn (h.live_of_mutex (t := t) (by rw [hpc]; rfl))
  refine ⟨?_, live_built hsim.live, Guarded.extend ?_ ?_ rfl⟩
  · rw [returnedOps_res h.tracks hpc rfl rfl]
    refine .snoc hsim.legal (apply_objects_iff.mpr ⟨q, _, ?_, rfl⟩)
    rw [hd, hr]
    exact .copy (hsim.none_of_not_live hn) habs
  · exact guarded_back h hsim hpc rfl fun _ => id
  · exact (Function.update_of_ne hne _ _).trans (h.free_of_not_live hn)

/-- A member that returns is linearized where it releases the mutex. -/
theorem sim_returned (h : Inv S Rel s) {abs : κ → Option (List T)}
    (hsim : Simulates S Rel s abs) {t : ι} {q : κ} {op : Op} {r : Ret}
    (hpc : s.pc t = .unlock q op (some r)) :
    Simulates S Rel
      { s with
        pc := Function.update s.pc t (.idle (some (.ret r)))
        owner := Function.update s.owner q none
        hist := s.hist ++ [.res t (.ret r)] }
      (Function.update abs q (some (s.data q))) := by
  obtain ⟨d, habs, hr⟩ := rel_of_body h hsim hpc rfl
  have hmx : (s.pc t).mutex = some q := by rw [hpc]; rfl
  refine ⟨?_, live_written hsim.live (h.live_of_mutex hmx), ?_⟩
  · rw [returnedOps_res h.tracks hpc rfl rfl]
    exact .snoc hsim.legal (apply_objects_iff.mpr ⟨q, _, .on habs hr, rfl⟩)
  · refine hsim.guarded.release (h.owner_eq hmx) (h.only hmx) (fun b hb => ?_) fun m hm => ?_
    · rw [Function.update_self] at hb
      exact Option.some.inj hb
    · exact Function.update_of_ne hm _ _

theorem sim_step (hC : Correct C S Rel) (h : Inv S Rel s) (hm : Moves C s a s') :
    ∃ abs, Simulates S Rel s' abs := by
  obtain ⟨abs, hsim⟩ := h.sim
  cases hm with
  | construct hpc hq | copy hpc hq =>
      have hn : s.life _ ≠ .live := fun he => by rw [hq] at he; cases he
      refine ⟨abs, ?_, live_building hsim.live hn nofun,
        guarded_write hsim hn _ (guarded_stay h hsim hpc rfl)⟩
      rw [returnedOps_inv]
      exact hsim.legal
  | on hpc =>
      refine ⟨abs, ?_, hsim.live, guarded_stay h hsim hpc rfl⟩
      rw [returnedOps_inv]
      exact hsim.legal
  | lockCopy hpc hfree =>
      refine ⟨abs, hsim.legal, hsim.live, ?_⟩
      exact hsim.guarded.acquire hfree (h.owns_nothing (by rw [hpc]; rfl)) fun _ => rfl
  | @lockOn t q op hpc hfree =>
      refine ⟨abs, hsim.legal, hsim.live, ?_⟩
      exact hsim.guarded.acquire hfree (h.owns_nothing (by rw [hpc]; rfl)) (hC.entry op)
  | @relock t q op l hpc hfree =>
      have hr := h.resumes t
      rw [hpc] at hr
      refine ⟨abs, hsim.legal, hsim.live, ?_⟩
      exact hsim.guarded.acquire hfree (h.owns_nothing (by rw [hpc]; rfl)) hr
  | constructed hpc => exact ⟨_, sim_constructed h hsim hpc⟩
  | copyNext hpc =>
      exact ⟨abs, hsim.legal, hsim.live,
        guarded_write hsim (not_live_of_builds h hpc rfl) _ hsim.guarded⟩
  | copyEnd hpc | failCopy hpc =>
      exact ⟨abs, hsim.legal, hsim.live, guarded_move h hsim hpc rfl fun _ => id⟩
  | copied hpc => exact ⟨_, sim_copied h hsim hpc⟩
  | uncopied hpc =>
      refine ⟨abs, ?_, live_building hsim.live (not_live_of_builds h hpc rfl) nofun,
        guarded_back h hsim hpc rfl fun _ => id⟩
      rw [returnedOps_threw h.tracks hpc rfl]
      exact hsim.legal
  | @next t q op l d l' hpc hs =>
      have hmx : (s.pc t).mutex = some q := by rw [hpc]; rfl
      refine ⟨abs, hsim.legal, hsim.live,
        hsim.guarded.work (h.owner_eq hmx) (h.only hmx) fun b _ hr => ?_⟩
      rw [hpc] at hr
      exact hC.next hr hs
  | wait hpc hs =>
      exact ⟨abs, hsim.legal, hsim.live,
        guarded_back h hsim hpc rfl fun _ hr => (hC.wait hr hs).1⟩
  | leave hpc hs =>
      exact ⟨abs, hsim.legal, hsim.live,
        guarded_move h hsim hpc rfl fun _ hr => hC.leave hr hs⟩
  | notifyNone hpc hs =>
      exact ⟨abs, hsim.legal, hsim.live,
        guarded_move h hsim hpc rfl fun _ hr => hC.notify hr hs⟩
  | fail hpc hl =>
      exact ⟨abs, hsim.legal, hsim.live,
        guarded_move h hsim hpc rfl fun _ hr => hC.throws hr hl⟩
  | @notifyOne t u q op l l' op' k hpc hu hs =>
      have hmx : (s.pc t).mutex = some q := by rw [hpc]; rfl
      refine ⟨abs, hsim.legal, hsim.live,
        (guarded_stay h hsim hu rfl).move (h.owner_eq hmx) (h.only hmx) fun b _ hr => ?_⟩
      rw [Function.update_of_ne (ne_of_body_asleep hpc hu), hpc] at hr
      exact hC.notify hr hs
  | spurious hpc =>
      exact ⟨abs, hsim.legal, hsim.live, guarded_stay h hsim hpc rfl⟩
  | @unlock t q op r hpc =>
      cases r with
      | some r => exact ⟨_, sim_returned h hsim hpc⟩
      | none =>
          refine ⟨abs, ?_, hsim.live, guarded_back h hsim hpc rfl fun _ => id⟩
          exact (returnedOps_threw h.tracks hpc rfl).symm ▸ hsim.legal

theorem inv_step (hC : Correct C S Rel) (h : Inv S Rel s) (hm : Moves C s a s') :
    Inv S Rel s' where
  owns := owns_step h.owns hm
  builds := builds_step h hm
  uses := uses_step h hm
  tracks := tracks_step h.tracks hm
  resumes := resumes_step hC h hm
  built := built_step h hm
  sim := sim_step hC h hm

end Steps

/-! ## Runs -/

section Runs

variable [DecidableEq ι] [DecidableEq κ] [Fintype ι] {C : MonitorClass T Op Ret Loc}
  {S : ObjSpec T Op Ret} {Rel : Loc → Op → List T → List T → Prop}
  {s s' : St ι κ T Op Ret Loc} {a : Act ι κ Op} {G : St ι κ T Op Ret Loc → Act ι κ Op → Prop}

theorem inv_reach (hC : Correct C S Rel) (h : (sys C).Reach G s) : Inv S Rel s := by
  refine h.invariant (fun s hs => ?_) fun s a s' _ hi _ hs => inv_step hC hi (moves_of_step hs)
  rw [show s = initial from hs]
  exact inv_initial

omit [DecidableEq κ] [Fintype ι] in
theorem realTime_returned (h : List (Event ι (ObjOp κ Op) (ObjRet T Ret))) :
    RealTime (returned h) :=
  (realTime_completed h).sublist List.filter_sublist

/-- **A monitor linearizes.** In every state of every run, the operations that returned have
    a linearization, and an object whose mutex is free holds what that order leaves in it. -/
theorem linearizable (hC : Correct C S Rel) (h : (sys C).Reach G s) :
    WellFormed s.hist ∧
      ∃ abs, Linearization S.objects (returned s.hist) (returned s.hist) abs ∧
        (∀ q, s.life q = .live ↔ (abs q).isSome = true) ∧
        Guarded (RelPc S Rel) s.pc s.owner s.data abs := by
  have hi := inv_reach hC h
  obtain ⟨abs, hlegal, hlive, hg⟩ := hi.sim
  refine ⟨hi.tracks.wellFormed, abs, ?_, hlive, hg⟩
  refine linearization_of_legal (realTime_returned _) ?_
  rw [returned_map_sig]
  exact hlegal

/-! ### Runs without exceptions -/

/-- The next statement does not throw. -/
def NoFail (_ : St ι κ T Op Ret Loc) : Act ι κ Op → Prop
  | .fail _ => False
  | _ => True

instance (s : St ι κ T Op Ret Loc) (a : Act ι κ Op) : Decidable (NoFail s a) :=
  match a with
  | .call _ _ | .lock _ | .run _ | .notify _ _ | .spurious _ => .isTrue trivial
  | .fail _ => .isFalse id

/-- A thread is not leaving its call by an exception. -/
def Pc.unharmed : Pc κ T Op Ret Loc → Prop
  | .copyUnlock _ _ ok => ok = true
  | .unlock _ _ r => r.isSome = true
  | _ => True

/-- Nobody has thrown. -/
structure Unharmed (s : St ι κ T Op Ret Loc) : Prop where
  pc : ∀ t, (s.pc t).unharmed
  hist : ∀ o ∈ ops s.hist, o.2.returned = true

omit [Fintype ι] in
theorem unharmed_step (ht : Tracks Pc.call s.pc s.hist) (h : Unharmed s) (hg : NoFail s a)
    (hm : Moves C s a s') : Unharmed s' := by
  obtain ⟨hpcs, hops⟩ := h
  have hres {t : ι} {pc : Pc κ T Op Ret Loc} {c : ObjOp κ Op} {r : ObjRet T Ret}
      (hpc : s.pc t = pc) (hc : pc.call = some c) (hr : r.returned = true) :
      ∀ o ∈ ops (s.hist ++ [.res t r]), o.2.returned = true := by
    subst hpc
    rw [ht.ops_respond hc]
    intro o ho
    rcases List.mem_append.mp ho with ho | ho
    · exact hops o ho
    · rw [List.mem_singleton.mp ho]
      exact hr
  cases hm with
  | construct | copy | on =>
      refine ⟨forall_update hpcs trivial, ?_⟩
      rw [Tracks.ops_invoke]
      exact hops
  | lockCopy | lockOn | relock | next | wait | notifyNone | spurious =>
      exact ⟨forall_update hpcs trivial, hops⟩
  | copyEnd | leave => exact ⟨forall_update hpcs rfl, hops⟩
  | copyNext => exact ⟨hpcs, hops⟩
  | notifyOne => exact ⟨forall_update (forall_update hpcs trivial) trivial, hops⟩
  | constructed hpc | copied hpc => exact ⟨forall_update hpcs trivial, hres hpc rfl rfl⟩
  | @uncopied t q other hpc =>
      have hu := hpcs t
      rw [hpc] at hu
      cases hu
  | @unlock t q op r hpc =>
      have hu := hpcs t
      rw [hpc] at hu
      obtain ⟨r, rfl⟩ := Option.isSome_iff_exists.mp hu
      exact ⟨forall_update hpcs trivial, hres hpc rfl rfl⟩
  | failCopy | fail => exact hg.elim

/-- Without exceptions every completed operation has returned. -/
theorem returned_eq_completed (hC : Correct C S Rel) (h : (sys C).Reach NoFail s) :
    returned s.hist = completed s.hist := by
  have hu : Unharmed s := by
    refine h.invariant (fun s hs => ?_) fun s a s' hr hi hg hs =>
      unharmed_step (inv_reach hC hr).tracks hi hg (moves_of_step hs)
    rw [show s = initial from hs]
    exact ⟨fun _ => trivial, nofun⟩
  refine List.filter_eq_self.mpr fun o ho => ?_
  exact hu.hist o.sig (List.mem_map_of_mem ho)

/-! ### Frame -/

/-- The thread that an action moves. -/
def Act.mover : Act ι κ Op → ι
  | .call t _ => t
  | .lock t => t
  | .run t => t
  | .notify t _ => t
  | .spurious u => u
  | .fail t => t

/-- A step changes the contents of no other object than the one that the call of the moving
    thread creates or works on. -/
theorem data_frame (h : step C s a = some s') {q : κ}
    (hq : ∀ c, (s'.pc a.mover).call = some c → c.target ≠ q) : s'.data q = s.data q := by
  have hne {q' : κ} {c : ObjOp κ Op} {d : List T} (hc : (s'.pc a.mover).call = some c)
      (ht : c.target = q') : Function.update s.data q' d q = s.data q :=
    Function.update_of_ne (fun he => hq c hc (ht.trans he.symm)) _ _
  have hm := moves_of_step h
  cases hm with
  | @construct t => exact hne (by simp [Act.mover, Pc.call]; rfl) rfl
  | @copy t => exact hne (by simp [Act.mover, Pc.call]; rfl) rfl
  | @next t => exact hne (by simp [Act.mover, Pc.call]; rfl) rfl
  | copyNext hpc => exact hne (by simp [Act.mover, hpc, Pc.call]; rfl) rfl
  | _ => rfl

end Runs

end Concur.Monitor
