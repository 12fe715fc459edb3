/-
  A thread that runs a member to its end by itself.

  `Body C l d d' r`: from the statement at `l` and contents `d`, the statements of a member
  run to its return with result `r` and leave the contents `d'`, if no other thread comes
  between and nothing waits or notifies. `exec_body`: then the thread, having reached `l`
  with the mutex, gets there by as many steps of its own as it takes, and nothing else of
  the state changes.
-/
import CppConcurrency.Lib.Monitor

namespace Concur.Monitor

variable {ι κ T Op Ret Loc : Type*}

/-- The statements from `l` on, run alone. -/
inductive Body (C : MonitorClass T Op Ret Loc) : Loc → List T → List T → Ret → Prop
  | leave {l : Loc} {d : List T} {r : Ret} (hs : C.stmt l d = some (.leave r)) : Body C l d d r
  | next {l l' : Loc} {d d₁ d' : List T} {r : Ret} (hs : C.stmt l d = some (.next d₁ l'))
      (hb : Body C l' d₁ d' r) : Body C l d d' r

variable [DecidableEq ι] [DecidableEq κ]

/-- Thread `t` returns `r` from its member of object `q`, with contents `d`. -/
def St.finish (s : St ι κ T Op Ret Loc) (t : ι) (q : κ) (d : List T) (r : Ret) :
    St ι κ T Op Ret Loc :=
  { s with
    pc := Function.update s.pc t (.idle (some (.ret r)))
    owner := Function.update s.owner q none
    data := Function.update s.data q d
    hist := s.hist ++ [.res t (.ret r)] }

variable [Fintype ι] {C : MonitorClass T Op Ret Loc} {t : ι} {q : κ} {op : Op}

theorem exec_unlock {s : St ι κ T Op Ret Loc} {r : Ret} (hpc : s.pc t = .unlock q op (some r)) :
    (sys C).step s (.run t) = some (s.finish t q (s.data q) r) := by
  simp only [sys, step, St.exec, hpc, St.respond, result, St.finish, Function.update_eq_self]

/-- A member run alone. -/
theorem exec_body {l : Loc} {d d' : List T} {r : Ret} (hb : Body C l d d' r)
    {s : St ι κ T Op Ret Loc} (hpc : s.pc t = .body q op l) (hd : s.data q = d) :
    ∃ n, (sys C).exec Lts.anyStep s (List.replicate n (.run t)) = some (s.finish t q d' r) := by
  induction hb generalizing s with
  | @leave l d r hs =>
      subst hd
      have h1 : (sys C).step s (.run t) = some (s.goto t (.unlock q op (some r))) := by
        simp only [sys, step, St.exec, hpc, hs]
      have hpc' : (s.goto t (.unlock q op (some r))).pc t = .unlock q op (some r) :=
        Function.update_self _ _ _
      have h2 := exec_unlock (C := C) hpc'
      refine ⟨2, ?_⟩
      rw [List.replicate_succ, Lts.exec_cons_of_step trivial h1, List.replicate_one,
        Lts.exec_cons_of_step trivial h2]
      simp only [Lts.exec, St.finish, St.goto, Function.update_idem]
  | @next l l' d d₁ d' r hs hb ih =>
      subst hd
      let s₁ : St ι κ T Op Ret Loc :=
        { s.goto t (.body q op l') with data := Function.update s.data q d₁ }
      have h1 : (sys C).step s (.run t) = some s₁ := by
        simp only [sys, step, St.exec, hpc, hs, s₁]
      obtain ⟨n, hn⟩ := ih (s := s₁) (Function.update_self _ _ _) (Function.update_self _ _ _)
      refine ⟨n + 1, ?_⟩
      rw [List.replicate_succ, Lts.exec_cons_of_step trivial h1, hn]
      simp only [St.finish, St.goto, s₁, Function.update_idem]

end Concur.Monitor
