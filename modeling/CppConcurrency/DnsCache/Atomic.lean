/-
  DnsCache refines an atomic map.

  The operations linearize in the order of their responses, that is, in which they release
  `entry_mutex`. `Knows` says what a thread in the middle of an operation knows of the map
  that the completed operations have left: a reader that it is the one it reads, and what
  it found there; a writer how far its own update is. A thread that does not hold the
  mutex knows nothing, so a change of the map, which only the exclusive holder makes,
  concerns no other thread.
-/
import CppConcurrency.DnsCache.Model

namespace CppConcurrency.DnsCache

open Concur

variable {ι K V : Type*} [DecidableEq ι] [DecidableEq K] [Inhabited V]

/-- The steps, one case for each. -/
inductive Moves (s : St ι K V) : St ι K V → Prop
  | call (t : ι) (op : Op K V) (h : s.pc t = .idle) :
      Moves s { s with
        pc := Function.update s.pc t (entryPoint op)
        hist := s.hist ++ [.inv t op] }
  | readLock (t : ι) (d : K) (m : SharedMutex ι) (h : s.pc t = .readLock d)
      (hm : s.entry_mutex.lockShared t = some m) :
      Moves s { s with pc := Function.update s.pc t (.find d), entry_mutex := m }
  | find (t : ι) (d : K) (h : s.pc t = .find d) :
      Moves s { s with pc := Function.update s.pc t (.test d (lookup s d)) }
  | missing (t : ι) (d : K) (it : Iter K) (h : s.pc t = .test d it) (hk : it.key = none) :
      Moves s { s with pc := Function.update s.pc t (.readUnlock d default) }
  | found (t : ι) (d k : K) (it : Iter K) (h : s.pc t = .test d it) (hk : it.key = some k) :
      Moves s { s with pc := Function.update s.pc t (.copy d it) }
  | copy (t : ι) (d k : K) (it : Iter K) (v : V) (h : s.pc t = .copy d it)
      (hk : it.key = some k) (hv : s.entries k = some v) :
      Moves s { s with pc := Function.update s.pc t (.readUnlock d v) }
  | readUnlock (t : ι) (d : K) (v : V) (h : s.pc t = .readUnlock d v) :
      Moves s { s with
        pc := Function.update s.pc t .idle
        entry_mutex := s.entry_mutex.unlockShared t
        hist := s.hist ++ [.res t (.entry v)] }
  | writeLock (t : ι) (d : K) (v : V) (m : SharedMutex ι) (h : s.pc t = .writeLock d v)
      (hm : s.entry_mutex.lock t = some m) :
      Moves s { s with pc := Function.update s.pc t (.insert d v), entry_mutex := m }
  | insert (t : ι) (d : K) (v : V) (h : s.pc t = .insert d v) :
      Moves s { s with
        pc := Function.update s.pc t (.assign d v)
        entries := insertDefault s.entries d
        version := s.version + 1 }
  | assign (t : ι) (d : K) (v : V) (h : s.pc t = .assign d v) :
      Moves s { s with
        pc := Function.update s.pc t (.writeUnlock d v)
        entries := Function.update s.entries d (some v)
        version := s.version + 1 }
  | writeUnlock (t : ι) (d : K) (v : V) (h : s.pc t = .writeUnlock d v) :
      Moves s { s with
        pc := Function.update s.pc t .idle
        entry_mutex := s.entry_mutex.unlock
        hist := s.hist ++ [.res t .void] }

theorem moves_of_run {s s' : St ι K V} {t : ι} (h : run s t = some s') : Moves s s' := by
  unfold run at h
  split at h
  · cases h
  · next d hp =>
      obtain ⟨m, hm, rfl⟩ := Option.map_eq_some_iff.mp h
      exact .readLock t d m hp hm
  · next d hp =>
      cases h
      exact .find t d hp
  · next d it hp =>
      cases h
      split
      · next hk => exact .missing t d it hp (Option.isNone_iff_eq_none.mp hk)
      · next hk =>
          obtain ⟨k, hk⟩ := Option.ne_none_iff_exists'.mp fun he =>
            hk (Option.isNone_iff_eq_none.mpr he)
          exact .found t d k it hp hk
  · next d it hp =>
      obtain ⟨v, hv, rfl⟩ := Option.map_eq_some_iff.mp h
      obtain ⟨k, hk, hv⟩ := Option.bind_eq_some_iff.mp hv
      exact .copy t d k it v hp hk hv
  · next d v hp =>
      cases h
      exact .readUnlock t d v hp
  · next d v hp =>
      obtain ⟨m, hm, rfl⟩ := Option.map_eq_some_iff.mp h
      exact .writeLock t d v m hp hm
  · next d v hp =>
      cases h
      exact .insert t d v hp
  · next d v hp =>
      cases h
      exact .assign t d v hp
  · next d v hp =>
      cases h
      exact .writeUnlock t d v hp

/-- Every step is one of these. -/
theorem moves_of_step {s s' : St ι K V} {a : Act ι K V} (h : step s a = some s') :
    Moves s s' := by
  unfold step at h
  split at h
  · next t op =>
      split at h
      · next hp =>
          cases h
          refine .call t op ?_
          revert hp
          cases s.pc t <;> simp
      · cases h
  · exact moves_of_run h

/-! ## The locks -/

theorem holds_step {s s' : St ι K V} (h : Moves s s')
    (hh : SharedMutex.Holds Pc.mode s.pc s.entry_mutex) :
    SharedMutex.Holds Pc.mode s'.pc s'.entry_mutex := by
  cases h with
  | call t op h =>
      refine hh.stay ?_
      rw [h]
      cases op <;> rfl
  | readLock t d m h hm => exact hh.lockShared (by rw [h]; rfl) rfl hm
  | writeLock t d v m h hm => exact hh.lock rfl hm
  | readUnlock t d v h => exact hh.unlockShared (by rw [h]; rfl) rfl
  | writeUnlock t d v h => exact hh.unlock (by rw [h]; rfl) rfl
  | find t d h | missing t d it h hk | found t d k it h hk | copy t d k it v h hk hv
  | insert t d v h | assign t d v h =>
      refine hh.stay ?_
      rw [h]
      rfl

theorem tracks_step {s s' : St ι K V} (h : Moves s s') (ht : Tracks Pc.op s.pc s.hist) :
    Tracks Pc.op s'.pc s'.hist := by
  cases h with
  | call t op h =>
      refine ht.invoke (by rw [h]; rfl) ?_
      cases op <;> rfl
  | readUnlock t d v h => exact ht.respond (by rw [h]; rfl) rfl _
  | writeUnlock t d v h => exact ht.respond (by rw [h]; rfl) rfl _
  | readLock t d m h hm | find t d h | missing t d it h hk | found t d k it h hk
  | copy t d k it v h hk hv | writeLock t d v m h hm | insert t d v h | assign t d v h =>
      refine ht.stay ?_
      rw [h]
      rfl

/-! ## The map -/

omit [DecidableEq ι] in
/-- What a thread in the middle of an operation knows, where the completed operations have
    left the map `m`. -/
def Pc.Knows (entries : K → Option V) (version : ℕ) (m : K → Option V) : Pc K V → Prop
  | .find _ => entries = m
  | .test d it => entries = m ∧ it = ⟨if (m d).isSome then some d else none, version⟩
  | .copy d it => entries = m ∧ it = ⟨some d, version⟩ ∧ (m d).isSome = true
  | .readUnlock d v => entries = m ∧ v = (m d).getD default
  | .insert _ _ => entries = m
  | .assign d _ => entries = insertDefault m d
  | .writeUnlock d v => entries = Function.update m d (some v)
  | _ => True

/-- A thread that does not hold the mutex knows nothing. -/
theorem knows_of_mode_none {pc : Pc K V} (h : pc.mode = none) (entries : K → Option V)
    (version : ℕ) (m : K → Option V) : pc.Knows entries version m := by
  cases pc <;> trivial

/-- The completed operations have left the map `m`; while nobody changes the map it is `m`. -/
structure Rel (s : St ι K V) (m : K → Option V) : Prop where
  legal : Legal mapSpec (ops s.hist) m
  knows : ∀ t, (s.pc t).Knows s.entries s.version m
  settled : s.entry_mutex.exclusive = none → s.entries = m

theorem Rel.knows_at {s : St ι K V} {m : K → Option V} (hr : Rel s m) {t : ι} {pc : Pc K V}
    (h : s.pc t = pc) : pc.Knows s.entries s.version m :=
  h ▸ hr.knows t

/-- A thread moves; the map, the lock's exclusive side and the completed operations stay. -/
theorem Rel.stay {s s' : St ι K V} {m : K → Option V} (hr : Rel s m) {t : ι} {pc : Pc K V}
    (hpc : s'.pc = Function.update s.pc t pc) (he : s'.entries = s.entries)
    (hv : s'.version = s.version) (hops : ops s'.hist = ops s.hist)
    (hx : s'.entry_mutex.exclusive = none → s.entry_mutex.exclusive = none)
    (hk : pc.Knows s.entries s.version m) : Rel s' m where
  legal := by
    rw [hops]
    exact hr.legal
  knows := by
    rw [hpc, he, hv]
    exact forall_update hr.knows hk
  settled := by
    rw [he]
    exact fun h => hr.settled (hx h)

/-- The exclusive holder changes the map, or completes its update: no other thread knows
    anything of it. -/
theorem Rel.write {s s' : St ι K V} {m' : K → Option V}
    (hh : SharedMutex.Holds Pc.mode s.pc s.entry_mutex) {t : ι} {pc : Pc K V}
    (ht : (s.pc t).mode = some .exclusive) (hpc : s'.pc = Function.update s.pc t pc)
    (hlegal : Legal mapSpec (ops s'.hist) m')
    (hsettled : s'.entry_mutex.exclusive = none → s'.entries = m')
    (hk : pc.Knows s'.entries s'.version m') : Rel s' m' where
  legal := hlegal
  knows := by
    rw [hpc]
    refine (Function.forall_update_iff s.pc fun _ pc => pc.Knows _ _ _).mpr ⟨hk, fun u hu => ?_⟩
    exact knows_of_mode_none (hh.only ht hu) _ _ _
  settled := hsettled

/-- The map half-way through `entries[domain] = dns_info`, and after it. -/
theorem assign_insertDefault (m : K → Option V) (d : K) (v : V) :
    Function.update (insertDefault m d) d (some v) = Function.update m d (some v) :=
  Function.update_idem _ _ _

theorem rel_step {s s' : St ι K V} {m : K → Option V} (h : Moves s s')
    (hh : SharedMutex.Holds Pc.mode s.pc s.entry_mutex) (ht : Tracks Pc.op s.pc s.hist)
    (hr : Rel s m) : ∃ m', Rel s' m' := by
  -- while `t` holds the mutex exclusively, nothing is claimed of the map at rest
  have hheld : ∀ {t}, (s.pc t).mode = some .exclusive → s.entry_mutex.exclusive ≠ none := by
    intro t hx hn
    rw [(hh.exclusive t).mpr hx] at hn
    cases hn
  cases h with
  | call t op h =>
      refine ⟨m, hr.stay rfl rfl rfl (Tracks.ops_invoke _ _ _) id ?_⟩
      cases op <;> trivial
  | readLock t d mtx h hm =>
      unfold SharedMutex.lockShared at hm
      split at hm
      · next hfree =>
          cases hm
          have hnone := Option.isNone_iff_eq_none.mp hfree
          exact ⟨m, hr.stay rfl rfl rfl rfl id (hr.settled hnone)⟩
      · cases hm
  | find t d h =>
      have hk := hr.knows_at h
      refine ⟨m, hr.stay rfl rfl rfl rfl id ⟨hk, ?_⟩⟩
      unfold lookup
      rw [hk]
  | missing t d it h hkey =>
      have hk := hr.knows_at h
      obtain ⟨hm, rfl⟩ := hk
      refine ⟨m, hr.stay rfl rfl rfl rfl id ⟨hm, ?_⟩⟩
      dsimp only at hkey
      split at hkey
      · cases hkey
      · next hnone => rw [Option.not_isSome_iff_eq_none.mp hnone, Option.getD_none]
  | found t d k it h hkey =>
      have hk := hr.knows_at h
      obtain ⟨hm, rfl⟩ := hk
      dsimp only at hkey
      split at hkey
      · next hsome =>
          refine ⟨m, hr.stay rfl rfl rfl rfl id ⟨hm, ?_, hsome⟩⟩
          rw [if_pos hsome]
      · cases hkey
  | copy t d k it v h hkey hv =>
      have hk := hr.knows_at h
      obtain ⟨hm, rfl, -⟩ := hk
      cases hkey
      refine ⟨m, hr.stay rfl rfl rfl rfl id ⟨hm, ?_⟩⟩
      rw [← hm, hv, Option.getD_some]
  | readUnlock t d v h =>
      have hk := hr.knows_at h
      refine ⟨m, ⟨?_, ?_, hr.settled⟩⟩
      · dsimp only
        have hop : (s.pc t).op = some (.find d) := congrArg Pc.op h
        rw [ht.ops_respond hop, hk.2]
        exact hr.legal.snoc rfl
      · exact forall_update hr.knows trivial
  | writeLock t d v mtx h hm =>
      unfold SharedMutex.lock at hm
      split at hm
      · next hfree =>
          cases hm
          have hnone := Option.isNone_iff_eq_none.mp hfree.1
          exact ⟨m, hr.stay rfl rfl rfl rfl (fun hn => by cases hn) (hr.settled hnone)⟩
      · cases hm
  | insert t d v h =>
      have hk := hr.knows_at h
      have hx : (s.pc t).mode = some .exclusive := congrArg Pc.mode h
      refine ⟨m, Rel.write hh hx rfl hr.legal (fun hn => absurd hn (hheld hx)) ?_⟩
      exact congrArg (insertDefault · d) hk
  | assign t d v h =>
      have hk := hr.knows_at h
      have hx : (s.pc t).mode = some .exclusive := congrArg Pc.mode h
      refine ⟨m, Rel.write hh hx rfl hr.legal (fun hn => absurd hn (hheld hx)) ?_⟩
      change Function.update s.entries d (some v) = _
      rw [hk, assign_insertDefault]
  | writeUnlock t d v h =>
      have hk := hr.knows_at h
      have hx : (s.pc t).mode = some .exclusive := congrArg Pc.mode h
      refine ⟨Function.update m d (some v), Rel.write hh hx rfl ?_ (fun _ => hk) trivial⟩
      have hop : (s.pc t).op = some (.update d v) := congrArg Pc.op h
      rw [ht.ops_respond hop]
      exact hr.legal.snoc rfl

/-! ## Whole runs -/

structure Inv (s : St ι K V) : Prop where
  holds : SharedMutex.Holds Pc.mode s.pc s.entry_mutex
  tracks : Tracks Pc.op s.pc s.hist
  rel : ∃ m, Rel s m

theorem inv_initial : Inv (initial : St ι K V) where
  holds :=
    { exclusive := fun _ => ⟨fun h => (by cases h), fun h => by cases h⟩
      shared := fun _ => ⟨fun h => (by cases h), fun h => by cases h⟩
      nodup := List.nodup_nil
      alone := fun _ _ => rfl }
  tracks := ⟨rfl, fun _ => rfl⟩
  rel := ⟨fun _ => none, .nil, fun _ => trivial, fun _ => rfl⟩

theorem inv_reach {s : St ι K V} (h : sys.Reachable s) : Inv s := by
  refine h.invariant ?_ ?_
  · rintro s rfl
    exact inv_initial
  · intro s a s' _ hi _ hstep
    have hm := moves_of_step hstep
    obtain ⟨m, hr⟩ := hi.rel
    exact ⟨holds_step hm hi.holds, tracks_step hm hi.tracks, rel_step hm hi.holds hi.tracks hr⟩

omit [DecidableEq ι] in
/-- A map that a sequence of operations leaves holds what was written last for each domain. -/
theorem legal_last {os : List (Op K V × Ret V)} {m : K → Option V} (h : Legal mapSpec os m)
    (d : K) : m d = lastWritten d os := by
  induction h with
  | nil => rfl
  | @snoc os s s' op r h ha ih =>
      unfold lastWritten at ih ⊢
      rw [List.filterMap_append]
      cases op with
      | find d' =>
          cases ha
          rw [show [((Op.find d' : Op K V), _)].filterMap (written d) = [] from rfl,
            List.append_nil]
          exact ih
      | update d' v =>
          cases ha
          by_cases hd : d' = d
          · rw [hd, Function.update_self]
            simp [written]
          · rw [Function.update_of_ne (Ne.symm hd), ih]
            simp [written, hd]

/-- The completed operations, in the order of their responses, are a sequential run of a map
    that is consistent with real time; in it every find_entry returns what the last update
    of its domain before it wrote, or a default entry if there is none, and updates of
    other domains make no difference; and what a reader copies is in the map it found it
    in, which has not changed since, and was written by a completed update. -/
theorem refines_map {s : St ι K V} (h : sys.Reachable s) :
    (∃ m, Linearization mapSpec (completed s.hist) (completed s.hist) m) ∧
    (∀ before after d r, ops s.hist = before ++ (.find d, r) :: after →
      r = .entry ((lastWritten d before).getD default)) ∧
    (∀ (os : List (Op K V × Ret V)) d d' v, d' ≠ d →
      lastWritten d (os ++ [(.update d' v, .void)]) = lastWritten d os) ∧
    (∀ t d it, s.pc t = .copy d it → it.key = some d ∧ it.version = s.version ∧
      ∃ v, s.entries d = some v ∧ lastWritten d (ops s.hist) = some v) := by
  obtain ⟨m, hr⟩ := (inv_reach h).rel
  refine ⟨⟨m, linearization_of_legal (realTime_completed _) hr.legal⟩,
    fun before after d r hops => ?_, fun os d d' v hne => ?_, fun t d it hpc => ?_⟩
  · have hlegal := hr.legal
    rw [hops] at hlegal
    obtain ⟨u, u', hu, ha⟩ := hlegal.split
    cases ha
    rw [legal_last hu d]
  · simp [lastWritten, written, hne]
  · have hk := hr.knows t
    rw [hpc] at hk
    obtain ⟨hm, rfl, hsome⟩ := hk
    obtain ⟨v, hv⟩ := Option.isSome_iff_exists.mp hsome
    exact ⟨rfl, rfl, v, by rw [hm, hv], by rw [← legal_last hr.legal d, hv]⟩

/-- A reader meets an update of its domain that is complete, while another reader that began
    before it is still at its lock. -/
def updatedThenRead : List (Act ℕ Bool ℕ) :=
  [.call 2 (.find true), .call 0 (.update true 7), .run 0, .run 0, .run 0, .run 0,
    .call 1 (.find true), .run 1, .run 1, .run 1, .run 1, .run 1]

theorem refines_map_updated :
    ∃ s : St ℕ Bool ℕ, sys.exec Lts.anyStep initial updatedThenRead = some s ∧
      ops s.hist = [(.update true 7, .void), (.find true, .entry 7)] ∧
      ∃ m, Linearization mapSpec (completed s.hist) (completed s.hist) m := by
  have hreach : (sys : Lts (St ℕ Bool ℕ) (Act ℕ Bool ℕ)).Reachable _ :=
    Lts.Reach.exec (G := Lts.anyStep) updatedThenRead (.start rfl) rfl
  exact ⟨_, rfl, rfl, (refines_map hreach).1⟩

end CppConcurrency.DnsCache
