/-
  The end of the scope of process_data().

  Nothing in the calling thread waits for the workers before `result` and `chunks` are destroyed:
  threads is declared before them, so its JThreads are joined after that. A worker that is in the
  loop then goes on to use variables that are gone.

  `Quiet` says that no worker uses them any more: thread 0 has written the last output, or it
  waits for a thread that has missed the last round. `ScopeSafe` is the missing synchronization:
  the calling thread destroys them only then.

  Proved (`phase_separation`): the phases and the output are as intended in all runs with
  `ScopeSafe`, also when some thread has left the loop early. The condition is exact: from any
  state that such a run reaches, a step against it leads on to undefined behaviour
  (`undefined_of_unsafe`).
-/
import CppConcurrency.LatchBarrier.Rounds

namespace CppConcurrency.ProcessData

open Concur

variable {n : ℕ} {Block Chunk Res : Type*}

/-- No worker is going to use result or chunks: the source is empty, and thread 0 is outside of
    the rounds, or stands before or at the first barrier with a thread behind it. -/
def Quiet (s : St n Block Chunk Res) : Prop :=
  ∀ z : Fin n, (z : ℕ) = 0 → s.source = [] ∧
    ((s.th z).pc.inRound = false ∨
      (s.th z).pc.tested = true ∧ ∃ j, (s.th j).rounds < (s.th z).rounds)

instance (s : St n Block Chunk Res) : Decidable (Quiet s) :=
  inferInstanceAs (Decidable (∀ _, _ → _ ∧ (_ ∨ _ ∧ _)))

/-- The calling thread is about to destroy result or chunks. -/
def Caller.endsScope : Caller → Bool
  | .endResult | .endChunks => true
  | _ => false

/-- The calling thread destroys result and chunks when nobody is going to use them. -/
def ScopeSafe (s : Call n Block Chunk Res) : Act n → Prop
  | .caller => s.caller.endsScope = true → Quiet s.loop
  | .worker _ => True

instance (s : Call n Block Chunk Res) (a : Act n) : Decidable (ScopeSafe s a) :=
  match a with
  | .caller => inferInstanceAs (Decidable (_ → _))
  | .worker _ => .isTrue trivial

section Workers

variable {E : Env n Block Chunk Res} {blocks : List Block} {s s' : St n Block Chunk Res}
  {i j z : Fin n}

/-! ### Where nobody uses result and chunks -/

theorem inRound_of_between {p : ℕ} {x : Thread Block Res} (h : x.between p = true) :
    x.pc.inRound = true := by
  obtain ⟨pc, r⟩ := x
  cases pc with
  | test | left => cases h
  | _ => rfl

/-- Between the barriers all threads are in the same round. -/
theorem rounds_of_between (ht : Turns s) (h : (s.th i).between s.sync.phase = true) :
    2 * (s.th i).rounds = s.sync.phase + 1 := by
  have hm := ht.gathers.made i
  have hr := ht.begun i (inRound_of_between h)
  unfold Thread.made Thread.waits at hm
  unfold Thread.between at h
  cases hpc : (s.th i).pc with
  | wait1 p | wait2 p =>
      rw [hpc] at h hm
      have hp := of_decide_eq_true h
      simp only [hp, Pc.ahead, decide_true, decide_false, Bool.toNat_true, Bool.toNat_false] at hm
      omega
  | read | set | arrive2 =>
      rw [hpc] at hm
      simp only [Pc.ahead, Bool.toNat_false] at hm
      omega
  | _ =>
      rw [hpc] at h
      cases h

theorem not_between_of_quiet (ht : Turns s) (hq : Quiet s) (i : Fin n) :
    (s.th i).between s.sync.phase = false := by
  rw [Bool.eq_false_iff]
  intro hi
  have hodd := ht.odd hi
  have hz := ht.between_of_odd hodd ⟨0, i.pos⟩
  obtain ⟨-, hout | ⟨-, j, hj⟩⟩ := hq ⟨0, i.pos⟩ rfl
  · rw [inRound_of_between hz] at hout
    cases hout
  · have hrz := rounds_of_between ht hz
    have hrj := rounds_of_between ht (ht.between_of_odd hodd j)
    omega

/-- The serial parts belong to thread 0, and the parallel ones lie between the barriers. -/
theorem unused_of_quiet (ht : Turns s) (hq : Quiet s) (i : Fin n) :
    (s.th i).pc.usesResult = false ∧ (s.th i).pc.usesChunks = false := by
  have hserial := ht.serial i
  have hbetween := not_between_of_quiet ht hq i
  have hquiet := hq i
  cases hpc : (s.th i).pc with
  | read | set =>
      rw [Thread.between_of_parallel (by rw [hpc]; rfl)] at hbetween
      cases hbetween
  | split | write =>
      rw [hpc] at hserial hquiet
      obtain ⟨-, hout | ⟨htested, -⟩⟩ := hquiet (hserial rfl)
      · cases hout
      · cases htested
  | _ => exact ⟨rfl, rfl⟩

/-- The others stay where they are. -/
theorem th_of_ne (hm : Moves E s i s') (hj : j ≠ i) : s'.th j = s.th j := by
  cases hm <;> exact Function.update_of_ne hj ..

theorem quiet_step (ht : Turns s) (hq : Quiet s) (hm : Moves E s i s') : Quiet s' := by
  intro z hz
  obtain ⟨hsrc, hplace⟩ := hq z hz
  obtain ⟨hsrc', hrounds⟩ := rounds_of_empty hm hsrc
  refine ⟨hsrc', ?_⟩
  by_cases hzi : z = i
  · subst hzi
    have hbetween := not_between_of_quiet ht hq z
    unfold Thread.between at hbetween
    cases hm with
    | leave hpc => exact .inl (by simp [St.goto, Pc.inRound])
    | enter hpc hne => exact absurd hsrc hne
    | fetch hpc hne =>
        rw [hsrc] at hne
        cases hne
    | arrive1 hpc =>
        rw [hpc] at hplace
        obtain hout | ⟨-, j, hj⟩ := hplace
        · cases hout
        · refine .inr ⟨by simp [St.arrive, St.goto, Pc.tested], j, ?_⟩
          rw [hrounds j, hrounds z]
          exact hj
    | pass1 hpc hp =>
        rw [hpc] at hbetween
        exact absurd (of_decide_eq_false hbetween) (not_not_intro (Ne.symm hp))
    | split hpc | read hpc | set hpc | arrive2 hpc | pass2 hpc | write hpc =>
        rw [hpc] at hplace
        obtain hout | ⟨htested, -⟩ := hplace
        · cases hout
        · cases htested
  · rw [th_of_ne hm hzi]
    refine hplace.imp_right fun hbehind => ?_
    obtain ⟨htested, j, hj⟩ := hbehind
    refine ⟨htested, j, ?_⟩
    rw [hrounds j]
    exact hj

/-! ### Where somebody does -/

/-- Thread 0 has an output to write. -/
def Wanted (s : St n Block Chunk Res) (z : Fin n) : Prop :=
  s.source ≠ [] ∨ (s.th z).pc.inRound = true

theorem wanted_step (ht : Turns s) (hw : Wanted s z) (hz : (z : ℕ) = 0) (hm : Moves E s i s')
    (hunused : (s.th i).pc.usesResult = false) : Wanted s' z := by
  by_cases hzi : z = i
  · subst hzi
    cases hm with
    | leave hpc hsrc =>
        obtain hne | hin := hw
        · exact absurd hsrc hne
        · rw [hpc] at hin
          cases hin
    | enter | pass2 => exact .inr (by simp [St.enter, St.goto, if_pos hz, Pc.inRound])
    | write hpc =>
        rw [hpc] at hunused
        cases hunused
    | _ => exact .inr (by simp [St.arrive, St.goto, Pc.inRound])
  · have hsrc : s'.source = s.source := by
      cases hm with
      | fetch hpc =>
          have hi := ht.serial i (by rw [hpc]; rfl)
          exact absurd (Fin.ext (hz.trans hi.symm)) hzi
      | _ => rfl
    unfold Wanted
    rw [hsrc, th_of_ne hm hzi]
    exact hw

theorem not_left_of_wanted (hd : Drawn blocks s) (hw : Wanted s z) : (s.th z).pc ≠ .left := by
  intro hleft
  obtain hne | hin := hw
  · exact hne (hd.empty z hleft)
  · rw [hleft] at hin
    cases hin

/-- Otherwise thread 0 has an output to write, and if it is at the first barrier of the last
    round, nobody is behind it. -/
theorem wanted_of_not_quiet (h : ¬ Quiet s) :
    ∃ z : Fin n, (z : ℕ) = 0 ∧ Wanted s z ∧
      (s.source = [] → (s.th z).pc.tested = true →
        ∀ j, (s.th z).rounds ≤ (s.th j).rounds) := by
  unfold Quiet at h
  push Not at h
  obtain ⟨z, hz, h⟩ := h
  refine ⟨z, hz, ?_, fun hsrc => (h hsrc).2⟩
  by_cases hsrc : s.source = []
  · exact .inr (Bool.not_eq_false _ ▸ (h hsrc).1)
  · exact .inl hsrc

/-- Unless thread 0 is about to split the last block, everybody takes part in its round. -/
theorem agreed_of_not_quiet (hs : (workers E blocks).Reachable s) (hz : (z : ℕ) = 0)
    (hw : Wanted s z)
    (hbehind : s.source = [] → (s.th z).pc.tested = true →
      ∀ j, (s.th z).rounds ≤ (s.th j).rounds)
    (hsplit : ∀ b, (s.th z).pc ≠ .split b) : Agreed blocks s := by
  intro hsrc j
  have ht := turns_reach hs
  have hle := rounds_le hs j
  have hin : (s.th z).pc.inRound = true := hw.resolve_left (not_not_intro hsrc)
  have hr := ht.begun z hin
  obtain ⟨written, -, -, hser⟩ := (contents_reach hs).serial
  have hserz := hser z hz
  have hc := (drawn_reach hs).count z hz
  have hmz := ht.gathers.made z
  have hmj : s.sync.phase ≤ (s.th j).made := by
    rw [ht.gathers.made]
    exact Nat.le_add_right _ _
  have hbehind := hbehind hsrc
  have hheld := Bool.toNat_le ((s.th z).waits s.sync.phase)
  rw [hsrc, List.length_nil, Nat.add_zero] at hc
  unfold Thread.made at hmz hmj
  cases hpc : (s.th z).pc with
  | test | left =>
      rw [hpc] at hin
      cases hin
  | fetch =>
      rw [hpc] at hserz
      exact absurd hsrc hserz.2
  | split b => exact absurd hpc (hsplit b)
  | arrive1 | wait1 =>
      rw [hpc] at hc hbehind
      simp only [Pc.fetching, Bool.toNat_false] at hc
      have hlej := hbehind rfl j
      omega
  | read | set | arrive2 =>
      have hfree : (s.th z).waits s.sync.phase = false := by unfold Thread.waits; rw [hpc]
      rw [hpc] at hc hmz
      simp only [Pc.fetching, Pc.ahead, hfree, Bool.toNat_false] at hc hmz
      omega
  | wait2 | write =>
      rw [hpc] at hc hmz
      simp only [Pc.fetching, Pc.ahead, Bool.toNat_false] at hc hmz
      omega

end Workers

section Call

variable {E : Env n Block Chunk Res} {blocks : List Block} {s s' : Call n Block Chunk Res}
  {a : Act n} {i z : Fin n}

/-! ### The workers in a call -/

/-- The calling thread does not hinder the workers. -/
theorem loop_reach {G : Call n Block Chunk Res → Act n → Prop}
    {G' : St n Block Chunk Res → Fin n → Prop} (hG : ∀ s i, G s (.worker i) → G' s.loop i)
    (h : (processData E blocks).Reach G s) : (workers E blocks).Reach G' s.loop := by
  induction h with
  | start h =>
      rw [h]
      exact .start rfl
  | next _ hg hstep ih =>
      obtain ⟨-, hacts⟩ := acts_of_step hstep
      cases hacts with
      | caller | misuse => exact ih
      | work _ _ hl => exact .next ih (hG _ _ hg) hl

theorem loop_reachable {G : Call n Block Chunk Res → Act n → Prop}
    (h : (processData E blocks).Reach G s) : (workers E blocks).Reachable s.loop :=
  loop_reach (fun _ _ _ => trivial) h

theorem started_mono {c : Caller} (h : CallerMoves s c) (i : Fin n)
    (hi : c.started n ≤ (i : ℕ)) : s.caller.started n ≤ (i : ℕ) := by
  have hlt := i.isLt
  cases h with
  | launch hc =>
      rw [hc]
      exact Nat.le_of_succ_le hi
  | _ => exact absurd hi (Nat.not_le.mpr hlt)

/-- Workers that have not been started are at the top of the loop. -/
theorem test_of_unstarted {G : Call n Block Chunk Res → Act n → Prop}
    (h : (processData E blocks).Reach G s) (i : Fin n) (hi : s.caller.started n ≤ (i : ℕ)) :
    (s.loop.th i).pc = .test := by
  refine h.invariant
    (I := fun s => ∀ i : Fin n, s.caller.started n ≤ (i : ℕ) → (s.loop.th i).pc = .test)
    ?_ ?_ i hi
  · rintro s rfl i -
    rfl
  · intro s a s' _ ih _ hstep j hj
    obtain ⟨-, hacts⟩ := acts_of_step hstep
    cases hacts with
    | caller hc => exact ih j (started_mono hc j hj)
    | misuse => exact ih j hj
    | @work k _ hi _ hl =>
        have hne : j ≠ k := by
          rintro rfl
          exact absurd hi (Nat.not_lt.mpr hj)
        rw [th_of_ne (moves_of_step hl) hne]
        exact ih j hj

/-! ### Runs in which the end of the scope is safe -/

theorem allows_of_hasResult {c : Caller} (h : c.hasResult = true) (pc : Pc Block Res) :
    c.allows pc = true := by
  cases c with
  | launch | endResult => simp [Caller.allows, Caller.hasResult, Caller.hasChunks]
  | _ => cases h

theorem allows_of_unused {c : Caller} {pc : Pc Block Res}
    (h : pc.usesResult = false ∧ pc.usesChunks = false) : c.allows pc = true := by
  simp [Caller.allows, h]

theorem unused_of_allows {c : Caller} {pc : Pc Block Res} (h : c.allows pc = true)
    (hc : c.hasResult = false) : pc.usesResult = false := by
  simp only [Caller.allows, hc, Bool.or_false, Bool.and_eq_true, Bool.not_eq_true'] at h
  exact h.1

theorem hasResult_of_moves {c : Caller} (h : CallerMoves s c) (hc : c.hasResult = false) :
    s.caller.hasResult = false ∨ s.caller.endsScope = true := by
  cases h with
  | launch | launched => cases hc
  | endResult h | endChunks h => exact .inr (by rw [h]; rfl)
  | join h | joined h => exact .inl (by rw [h]; rfl)

/-- Nobody has used what is gone, and once something is gone nobody is going to. -/
structure Intact (s : Call n Block Chunk Res) : Prop where
  undefined : s.undefined = false
  quiet : s.caller.hasResult = false → Quiet s.loop

/-- The workers may use what they are about to use. -/
theorem Intact.allows (h : Intact s) (ht : Turns s.loop) (i : Fin n) :
    s.caller.allows (s.loop.th i).pc = true := by
  cases hr : s.caller.hasResult with
  | true => exact allows_of_hasResult hr _
  | false => exact allows_of_unused (unused_of_quiet ht (h.quiet hr) i)

theorem intact_reach (h : (processData E blocks).Reach ScopeSafe s) : Intact s := by
  refine h.invariant ?_ ?_
  · rintro s rfl
    exact ⟨rfl, fun hr => by cases hr⟩
  · intro s a s' hs ih hg hstep
    have ht := turns_reach (loop_reachable hs)
    obtain ⟨-, hacts⟩ := acts_of_step hstep
    cases hacts with
    | caller hc =>
        refine ⟨ih.undefined, fun hr => ?_⟩
        obtain hr | hend := hasResult_of_moves hc hr
        · exact ih.quiet hr
        · exact hg hend
    | work _ _ hl => exact ⟨ih.undefined, fun hr => quiet_step ht (ih.quiet hr) (moves_of_step hl)⟩
    | @misuse i _ ha =>
        rw [ih.allows ht i] at ha
        cases ha

/-! ### Any other end of the scope -/

theorem step_caller (hu : s.undefined = false) {c : Caller} (hc : callerStep s = some c) :
    step E s .caller = some { s with caller := c } := by
  simp [step, hu, hc]

theorem step_worker (hu : s.undefined = false) (hi : (i : ℕ) < s.caller.started n)
    (ha : s.caller.allows (s.loop.th i).pc = true) {l : St n Block Chunk Res}
    (hl : workerStep E s.loop i = some l) :
    step E s (.worker i) = some { s with loop := l } := by
  simp [step, hu, hl, ha, Nat.not_le.mpr hi]

theorem step_misuse (hu : s.undefined = false) (hi : (i : ℕ) < s.caller.started n)
    (ha : s.caller.allows (s.loop.th i).pc = false) :
    step E s (.worker i) = some { s with undefined := true } := by
  simp [step, hu, ha, Nat.not_le.mpr hi]

/-- Both variables are gone, and thread 0 has an output to write: unless somebody is about to use
    them, the workers go on, and there is an end to that. -/
theorem undefined_of_wanted (hz : (z : ℕ) = 0) (hs : (workers E blocks).Reachable s.loop)
    (ha : Agreed blocks s.loop) (hw : Wanted s.loop z) (hu : s.undefined = false)
    (hgone : s.caller = .join 0) :
    ∃ as s', (processData E blocks).exec Lts.anyStep s as = some s' ∧ s'.undefined = true := by
  induction hμ : sumAt (Thread.toGo blocks.length) s.loop.th using Nat.strong_induction_on
    generalizing s with
  | _ μ ih =>
  have hstarted : ∀ i : Fin n, (i : ℕ) < s.caller.started n := by
    intro i
    rw [hgone]
    exact i.isLt
  by_cases huse : ∃ i, s.caller.allows (s.loop.th i).pc = false
  · obtain ⟨i, hi⟩ := huse
    exact ⟨[.worker i], _, Lts.exec_cons_of_step trivial (step_misuse hu (hstarted i) hi) [], rfl⟩
  · have hallows : ∀ i, s.caller.allows (s.loop.th i).pc = true :=
      fun i => Bool.not_eq_false _ ▸ fun hi => huse ⟨i, hi⟩
    have ht := turns_reach hs
    have hd := drawn_reach hs
    obtain ⟨j, l, hsafe, hl⟩ :=
      safe_progress ht (contents_reach hs) hd ha (not_left_of_wanted hd hw)
    have hm := moves_of_step hl
    have hunused := unused_of_allows (hallows j) (by rw [hgone]; rfl)
    obtain ⟨as, s', hrun, hs'⟩ := ih _ (hμ ▸ toGo_step ht hd hm) (s := { s with loop := l })
      (.next hs trivial hl) (agreed_step ht hd ha hsafe hm) (wanted_step ht hw hz hm hunused)
      hu hgone rfl
    refine ⟨.worker j :: as, s', ?_, hs'⟩
    rw [Lts.exec_cons_of_step trivial (step_worker hu (hstarted j) (hallows j) hl)]
    exact hrun

/-- If the calling thread destroys result while it is going to be used, somebody uses what is
    gone. -/
theorem undefined_of_unsafe (h : (processData E blocks).Reach ScopeSafe s)
    (hn : ¬ ScopeSafe s a) :
    ∃ as s', (processData E blocks).exec Lts.anyStep s (a :: as) = some s' ∧
      s'.undefined = true := by
  have hi := intact_reach h
  cases a with
  | worker i => exact absurd trivial hn
  | caller =>
      obtain ⟨hend, hq⟩ := Classical.not_imp.mp hn
      have hcaller : s.caller = .endResult := by
        cases hc : s.caller with
        | endResult => rfl
        | endChunks => exact absurd (hi.quiet (by rw [hc]; rfl)) hq
        | _ =>
            rw [hc] at hend
            cases hend
      obtain ⟨z, hz, hw, hbehind⟩ := wanted_of_not_quiet hq
      have hfirst : step E s .caller = some { s with caller := .endChunks } :=
        step_caller hi.undefined (by simp [callerStep, hcaller])
      have hsecond : step E { s with caller := .endChunks } .caller =
          some { s with caller := .join 0 } :=
        step_caller (s := { s with caller := .endChunks }) hi.undefined rfl
      have hsuffices : ∀ as s', (processData E blocks).exec Lts.anyStep
          { s with caller := .join 0 } as = some s' →
          (processData E blocks).exec Lts.anyStep s (.caller :: .caller :: as) = some s' := by
        intro as s' has
        rw [Lts.exec_cons_of_step trivial hfirst, Lts.exec_cons_of_step trivial hsecond]
        exact has
      by_cases hsplit : ∃ b, (s.loop.th z).pc = .split b
      · obtain ⟨b, hb⟩ := hsplit
        have hmisuse := step_misuse (E := E) (s := { s with caller := .join 0 }) (i := z)
          hi.undefined z.isLt (by rw [hb]; rfl)
        exact ⟨_, { s with caller := .join 0, undefined := true },
          hsuffices [.worker z] _ (Lts.exec_cons_of_step trivial hmisuse []), rfl⟩
      · have hl := loop_reachable h
        obtain ⟨as, s', hrun, hs'⟩ := undefined_of_wanted (s := { s with caller := .join 0 }) hz hl
          (agreed_of_not_quiet hl hz hw hbehind fun b hb => hsplit ⟨b, hb⟩) hw hi.undefined rfl
        exact ⟨_, s', hsuffices as s' hrun, hs'⟩

/-! ### The phases -/

/-- While the calling thread keeps to the condition, nobody touches chunks between the barriers. -/
theorem chunks_kept (h : (processData E blocks).Reach ScopeSafe s)
    (hb : (s.loop.th i).between s.loop.sync.phase = true) (hg : ScopeSafe s a)
    (hstep : step E s a = some s') : s'.chunks = s.chunks := by
  have ht := turns_reach (loop_reachable h)
  have hnot : ¬ Quiet s.loop := by
    intro hq
    rw [not_between_of_quiet ht hq i] at hb
    cases hb
  obtain ⟨-, hacts⟩ := acts_of_step hstep
  cases hacts with
  | caller hc =>
      have hend : s.caller.endsScope = false := Bool.eq_false_iff.mpr fun he => hnot (hg he)
      unfold Call.chunks
      cases hc with
      | endResult hcaller | endChunks hcaller =>
          rw [hcaller] at hend
          cases hend
      | launch hcaller | launched hcaller | join hcaller | joined hcaller => rw [hcaller]; rfl
  | work _ _ hl =>
      unfold Call.chunks
      rw [chunks_step ht hb (moves_of_step hl)]
  | misuse => rfl

/-- In all runs in which the calling thread destroys result and chunks only when nobody is going
    to use them, nothing that is gone is used, and:
    while thread 0 fetches, splits or writes, nobody reads chunks or sets a slot. While a thread
    is between the two barriers of a round, chunks stays what it is, the split of the block
    fetched last. And the sink holds the outputs of the first blocks, in order, each complete and
    from its own block.
    Where the calling thread does otherwise, somebody uses what is gone. -/
theorem phase_separation (E : Env n Block Chunk Res) (blocks : List Block)
    (s : Call n Block Chunk Res) (h : (processData E blocks).Reach ScopeSafe s) :
    s.undefined = false ∧
    (∀ i j, (s.loop.th i).pc.serial = true →
      (i : ℕ) = 0 ∧ (s.loop.th j).pc.parallel = false) ∧
    (∀ i, (s.loop.th i).between s.loop.sync.phase = true →
      (∃ fetched b, blocks = fetched ++ b :: s.loop.source ∧
        s.chunks = some (E.divideIntoChunks b).toList) ∧
      ∀ a s', ScopeSafe s a → step E s a = some s' → s'.chunks = s.chunks) ∧
    (∃ written, written <+: blocks ∧ s.loop.sink = written.map (output E)) ∧
    ∀ a, ¬ ScopeSafe s a → ∃ as s',
      (processData E blocks).exec Lts.anyStep s (a :: as) = some s' ∧ s'.undefined = true := by
  have hl := loop_reachable h
  have ht := turns_reach hl
  have hc := contents_reach hl
  have hi := intact_reach h
  refine ⟨hi.undefined, fun i j hs => ⟨ht.serial i hs, excluded ht hs⟩, fun i hb => ⟨?_, ?_⟩,
    sink_written hc, fun a => undefined_of_unsafe h⟩
  · obtain ⟨fetched, b, hblocks, hchunks⟩ := chunks_of_between ht hc hb
    refine ⟨fetched, b, hblocks, ?_⟩
    have hhas : s.caller.hasChunks = true := by
      cases hcaller : s.caller with
      | launch | endResult | endChunks => rfl
      | _ =>
          rw [not_between_of_quiet ht (hi.quiet (by rw [hcaller]; rfl)) i] at hb
          cases hb
    unfold Call.chunks
    rw [if_pos hhas, hchunks]
  · exact fun a s' hg hstep => chunks_kept h hb hg hstep

end Call

/-! ## Two threads -/

/-- A block is a number `b`, split into `b` and `b + 10`. -/
def adding : Env 2 ℕ ℕ ℕ where
  divideIntoChunks b := #v[b, b + 10]
  process c := c + 1
  movedFrom _ _ := none

/-- Thread 0. -/
def zeroth : Fin 2 := ⟨0, Nat.two_pos⟩

/-- Thread 1. -/
def first : Fin 2 := ⟨1, Nat.one_lt_two⟩

/-- The calling thread starts both workers; then the workers move as in `as`. -/
def launched (as : List (Fin 2)) : List (Act 2) := .caller :: .caller :: as.map .worker

/-- Both have arrived at the first barrier when the calling thread comes to the end of its scope
    and destroys result and chunks. -/
def scopeOver : List (Act 2) :=
  launched [zeroth, first, zeroth, zeroth, zeroth, first] ++ [.caller, .caller, .caller]

/-- While a thread is between the barriers chunks need not be there, and threads use variables
    that are gone. -/
theorem scopeOver_undefined :
    (¬ ∀ s, (processData adding [5]).Reachable s → ∀ i,
      (s.loop.th i).between s.loop.sync.phase = true →
        ∃ fetched b, [5] = fetched ++ b :: s.loop.source ∧
          s.chunks = some (adding.divideIntoChunks b).toList) ∧
    ¬ ∀ s, (processData adding [5]).Reachable s → s.undefined = false := by
  refine ⟨fun hall => ?_, fun hall => ?_⟩
  · have hreach : (processData adding [5]).Reachable _ := .exec scopeOver (.start rfl) rfl
    obtain ⟨-, b, -, hchunks⟩ := hall _ hreach zeroth rfl
    cases hchunks
  · have hreach : (processData adding [5]).Reachable _ :=
      .exec (scopeOver ++ [.worker zeroth, .worker zeroth]) (.start rfl) rfl
    cases hall _ hreach

/-- Both work on the first block; then thread 0 fetches the second and last one before
    thread 1 evaluates done(). -/
def overtaken : List (Act 2) :=
  launched [first, zeroth, first, zeroth, zeroth, zeroth, first, zeroth, first, zeroth, first,
    zeroth, first, zeroth, first, zeroth, zeroth, zeroth, zeroth, first, zeroth]

/-- The state after `overtaken`. -/
def leftBehind : Call 2 ℕ ℕ ℕ :=
  ((processData adding [5, 8]).exec ScopeSafe ⟨.launch 0, start [5, 8], false⟩ overtaken).get
    (by decide)

theorem leftBehind_reach : (processData adding [5, 8]).Reach ScopeSafe leftBehind :=
  .exec overtaken (.start rfl) (Option.some_get _).symm

theorem phase_separation_leftBehind :
    (leftBehind.loop.th first).pc.inRound = false ∧
      leftBehind.loop.sink.map List.ofFn = [[some 6, some 16]] ∧
      ∃ written, written <+: [5, 8] ∧ leftBehind.loop.sink = written.map (output adding) := by
  obtain ⟨-, -, -, hsink, -⟩ := phase_separation adding [5, 8] leftBehind leftBehind_reach
  exact ⟨by decide, by decide, hsink⟩

end CppConcurrency.ProcessData
