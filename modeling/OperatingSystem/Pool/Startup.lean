import OperatingSystem.Pool.Wakeup

/-!
# OperatingSystem.Pool.Startup

Runs that exist: `thpool_init` can return with every worker before its loop
(`startup`), an idle caller can add a job (`exec_add`), and a worker can go on alone
(`exec_work`).
-/

namespace OperatingSystem.Pool

open Function

variable {n : Nat} {α : Type}

/-! ## Actions in a row -/

/-- `k` actions of worker `i`, which wakes nobody. -/
def work (i : Fin n) : Nat → Thpool n α → Worker α → Option (Thpool n α × Worker α)
  | 0, pool, w => some (pool, w)
  | k + 1, pool, w =>
      match threadDo pool i w with
      | .ok (pool, w, .none) => work i k pool w
      | .ok (pool, w, .hasJobs) => if w.isAsleep then none else work i k pool w
      | _ => none

/-- Nobody sleeps that a signal could wake. -/
theorem signal_none {s : Sys n α} (hawake : ∀ j, (s.worker j).isAsleep = false) : signal s none .hasJobs = .ok s :=
  if_pos hawake

theorem next_worker {s : Sys n α} {i : Fin n} {pool : Thpool n α} {w : Worker α} {sig : Signal} (hfreed : s.pool.freed = false)
    (hdo : threadDo s.pool i (s.worker i) = .ok (pool, w, sig))
    (hsig : signal { s with pool := pool, worker := update s.worker i w } none sig =
      .ok { s with pool := pool, worker := update s.worker i w }) :
    next s (.worker i none) = some { s with pool := pool, worker := update s.worker i w } := by
  have hsafe : ¬ (s.pool.freed = true ∧ (s.worker i).touches = true) := by simp [hfreed]
  rw [next, step, if_neg hsafe, hdo]
  show (signal _ none sig).toOption = _
  rw [hsig]
  rfl

theorem exec_work {k : Nat} {s : Sys n α} {i : Fin n} {pool : Thpool n α} {w : Worker α} (hfreed : s.pool.freed = false)
    (hawake : ∀ j, j ≠ i → (s.worker j).isAsleep = false) (h : work i k s.pool (s.worker i) = some (pool, w)) :
    Run.exec next s (List.replicate k (.worker i none)) = some { s with pool := pool, worker := update s.worker i w } := by
  induction k generalizing s with
  | zero =>
      obtain ⟨rfl, rfl⟩ := Prod.mk.inj (Option.some.inj h)
      rw [update_eq_self]
      rfl
  | succ k ih =>
      -- the first action, whose signal wakes nobody
      obtain ⟨pool', w', sig, hdo, hsig, hrest⟩ : ∃ pool' w' sig, threadDo s.pool i (s.worker i) = .ok (pool', w', sig) ∧
          signal { s with pool := pool', worker := update s.worker i w' } none sig =
            .ok { s with pool := pool', worker := update s.worker i w' } ∧ work i k pool' w' = some (pool, w) := by
        rw [work] at h
        split at h
        · exact ⟨_, _, _, ‹_›, rfl, h⟩
        · rename_i pool' w' hdo
          rw [Option.ite_none_left_eq_some] at h
          refine ⟨_, _, _, hdo, signal_none fun j => ?_, h.2⟩
          by_cases hj : j = i
          · rw [hj]
            exact (congrArg Worker.isAsleep (update_self i w' s.worker)).trans (by simpa using h.1)
          · exact (congrArg Worker.isAsleep (update_of_ne hj ..)).trans (hawake j hj)
        · cases h
      have hfreed' : pool'.freed = false := (threadDo_cases hdo).frame.2.2.trans hfreed
      have htail := ih (s := { s with pool := pool', worker := update s.worker i w' }) hfreed'
        (fun j hj => (congrArg Worker.isAsleep (update_of_ne hj ..)).trans (hawake j hj))
        (by dsimp only; rw [update_self]; exact hrest)
      rw [List.replicate_succ, Run.exec, next_worker hfreed hdo hsig, Option.bind_some, htail]
      dsimp only
      rw [update_idem]

/-- **`thpool_add_work`** can run through, when nobody sleeps that its signal would wake. -/
theorem exec_add {s : Sys n α} {x : α} {p : Nat} {m : Memory α} {q : Jobqueue} (hidle : s.caller = .idle)
    (hfree : s.pool.memory p = none) (hlock : s.pool.rwmutex = none) (hawake : ∀ j, (s.worker j).isAsleep = false)
    (hpush : jobqueuePush (update s.pool.memory p (some ⟨x, none⟩)) s.pool.jobqueue p = some (m, q)) :
    Run.exec next s [.add x (some p) none, .caller none, .caller none, .caller none] =
      some { s with pool := { s.pool with memory := m, jobqueue := q, hasJobs := true } } := by
  obtain ⟨pool, caller, worker⟩ := s
  dsimp only at hidle hfree hlock hawake hpush
  subst hidle
  have hadd : next ⟨pool, .idle, worker⟩ (.add x (some p) none) =
      some ⟨{ pool with memory := update pool.memory p (some ⟨x, none⟩) }, .push p, worker⟩ := by
    simp only [next, step, if_true, hfree]
    rfl
  have hpushed : next ⟨{ pool with memory := update pool.memory p (some ⟨x, none⟩) }, .push p, worker⟩ (.caller none) =
      some ⟨{ pool with memory := m, jobqueue := q, rwmutex := some .caller }, .post, worker⟩ := by
    simp only [next, step, callerDo, if_pos hlock, hpush]
    rfl
  have hposted : next ⟨{ pool with memory := m, jobqueue := q, rwmutex := some .caller }, .post, worker⟩ (.caller none) =
      some ⟨{ pool with memory := m, jobqueue := q, rwmutex := some .caller, hasJobs := true }, .unlock, worker⟩ := by
    simp only [next, step, callerDo]
    rw [signal_none hawake]
    rfl
  have hunlocked : next ⟨{ pool with memory := m, jobqueue := q, rwmutex := some .caller, hasJobs := true }, .unlock, worker⟩
      (.caller none) = some ⟨{ pool with memory := m, jobqueue := q, hasJobs := true }, .idle, worker⟩ := by
    rw [hlock]
    rfl
  rw [Run.exec, hadd, Option.bind_some, Run.exec, hpushed, Option.bind_some, Run.exec, hposted, Option.bind_some,
    Run.exec_single, hunlocked]

/-! ## thpool_init -/

/-- `k` workers are created. -/
def Sys.creating (n : Nat) (α : Type) (k : Nat) : Sys n α where
  pool := { (Sys.start n α).pool with threads := fun i => decide (i.val < k) }
  caller := .create k
  worker := fun i => if i.val < k then .born else .unborn

/-- All are created, and `k` have announced themselves. -/
def Sys.spinning (n : Nat) (α : Type) (k : Nat) : Sys n α where
  pool := { (Sys.start n α).pool with threads := fun _ => true, numThreadsAlive := k }
  caller := .spin
  worker := fun i => if i.val < k then .test else .born

/-- The pool that `thpool_init` returns. -/
def Sys.ready (n : Nat) (α : Type) : Sys n α where
  pool := { (Sys.start n α).pool with threads := fun _ => true, numThreadsAlive := n }
  caller := .idle
  worker := fun _ => .test

theorem next_creating {k : Nat} (hk : k < n) : next (.creating n α k) (.create true) = some (.creating n α (k + 1)) := by
  have hthreads : update (fun i : Fin n => decide (i.val < k)) ⟨k, hk⟩ true = fun i => decide (i.val < k + 1) := by
    funext i
    by_cases hi : i = ⟨k, hk⟩
    · subst hi
      simp
    · have hne : i.val ≠ k := fun h => hi (Fin.ext h)
      rw [update_of_ne hi]
      exact decide_eq_decide.mpr (by omega)
  have hworker : update (fun i : Fin n => if i.val < k then (.born : Worker α) else .unborn) ⟨k, hk⟩ .born =
      fun i => if i.val < k + 1 then .born else .unborn := by
    funext i
    by_cases hi : i = ⟨k, hk⟩
    · subst hi
      simp
    · have hne : i.val ≠ k := fun h => hi (Fin.ext h)
      rw [update_of_ne hi]
      exact if_congr (by omega) rfl rfl
  show (step (.creating n α k) (.create true)).toOption = _
  simp only [step, Sys.creating, dif_pos hk, if_true, hthreads, hworker]
  rfl

theorem exec_creating {k : Nat} (hk : k ≤ n) :
    Run.exec next (.creating n α 0) (List.replicate k (.create true)) = some (.creating n α k) := by
  induction k with
  | zero => rfl
  | succ k ih =>
      rw [List.replicate_succ', Run.exec_concat, ih (Nat.le_of_succ_le hk)]
      exact next_creating hk

/-- A worker announces itself. -/
theorem exec_spinning {k : Nat} (hk : k < n) :
    Run.exec next (.spinning n α k) (List.replicate 2 (.worker ⟨k, hk⟩ none)) = some (.spinning n α (k + 1)) := by
  have hborn : (Sys.spinning n α k).worker ⟨k, hk⟩ = .born := if_neg (Nat.lt_irrefl k)
  have hworker : update (Sys.spinning n α k).worker ⟨k, hk⟩ .test = (Sys.spinning n α (k + 1)).worker := by
    funext i
    by_cases hi : i = ⟨k, hk⟩
    · subst hi
      rw [update_self]
      exact (if_pos (Nat.lt_succ_self k)).symm
    · have hne : i.val ≠ k := fun h => hi (Fin.ext h)
      rw [update_of_ne hi]
      exact if_congr (by omega) rfl rfl
  have hawake : ∀ j, j ≠ ⟨k, hk⟩ → ((Sys.spinning n α k).worker j).isAsleep = false := fun j _ => by
    show (if j.val < k then (.test : Worker α) else .born).isAsleep = false
    split <;> rfl
  have hwork := exec_work (k := 2) rfl hawake (by rw [hborn]; rfl)
  rw [hwork, hworker]
  rfl

theorem exec_append_of {s s' s'' : Sys n α} {es es' : List (Event n α)} (h : Run.exec next s es = some s')
    (h' : Run.exec next s' es' = some s'') : Run.exec next s (es ++ es') = some s'' := by
  rw [Run.exec_append, h]
  exact h'

theorem spinning_of_le {k : Nat} (hk : k ≤ n) :
    ∃ es : List (Event n α), added es = [] ∧ Run.exec next (.spinning n α 0) es = some (.spinning n α k) := by
  induction k with
  | zero => exact ⟨[], rfl, rfl⟩
  | succ k ih =>
      obtain ⟨es, hadded, hrun⟩ := ih (Nat.le_of_succ_le hk)
      exact ⟨es ++ List.replicate 2 (.worker ⟨k, hk⟩ none), by rw [added_append, hadded]; rfl,
        exec_append_of hrun (exec_spinning hk)⟩

/-- **`thpool_init` can return**, with every worker before its loop. -/
theorem startup (n : Nat) (α : Type) :
    ∃ es : List (Event n α), added es = [] ∧ Run.exec next (Sys.start n α) es = some (.ready n α) := by
  obtain ⟨es, hadded, hrun⟩ := spinning_of_le (α := α) (Nat.le_refl n)
  have hcreating : Run.exec next (Sys.start n α) [.init true] = some (.creating n α 0) := by
    have hworker : (fun i : Fin n => if i.val < 0 then (.born : Worker α) else .unborn) = fun _ => .unborn :=
      funext fun i => if_neg (Nat.not_lt_zero i)
    rw [Run.exec_single]
    show some _ = some _
    rw [Sys.creating, hworker]
    rfl
  have hspinning : Run.exec next (.creating n α n) [.create true] = some (.spinning n α 0) := by
    have hthreads : (fun i : Fin n => decide (i.val < n)) = fun _ => true := funext fun i => decide_eq_true i.isLt
    have hworker : (fun i : Fin n => if i.val < n then (.born : Worker α) else .unborn) =
        fun i => if i.val < 0 then .test else .born :=
      funext fun i => (if_pos i.isLt).trans (if_neg (Nat.not_lt_zero _)).symm
    rw [Run.exec_single]
    show (step (.creating n α n) (.create true)).toOption = _
    simp only [step, Sys.creating, dif_neg (Nat.lt_irrefl n), hthreads, hworker]
    rfl
  have hready : Run.exec next (.spinning n α n) [.caller none] = some (.ready n α) := by
    have hworker : (fun i : Fin n => if i.val < n then (.test : Worker α) else .born) = fun _ => .test :=
      funext fun i => if_pos i.isLt
    rw [Run.exec_single]
    show (step (.spinning n α n) (.caller none)).toOption = _
    simp only [step, callerDo, Sys.spinning, if_true, hworker]
    rfl
  refine ⟨[.init true] ++ List.replicate n (.create true) ++ [.create true] ++ es ++ [.caller none], ?_, ?_⟩
  · have hcreate : added (List.replicate n (.create true) : List (Event n α)) = [] := List.filterMap_replicate_of_none rfl
    rw [added_append, added_append, added_append, added_append, hadded, hcreate]
    rfl
  · exact exec_append_of (exec_append_of (exec_append_of (exec_append_of hcreating (exec_creating (Nat.le_refl n))) hspinning)
      hrun) hready

/-- **Two jobs at once.**  Two workers can be in the functions of the first two jobs. -/
theorem two_running {i j : Fin n} (hij : j ≠ i) (x y : α) :
    ∃ (es : List (Event n α)) (s : Sys n α), Run.exec next (Sys.start n α) es = some s ∧ added es = [x, y] ∧
      s.pool.returned = [] ∧ s.pool.freed = false ∧ s.worker i = .running 0 x ∧ s.worker j = .running 1 y := by
  obtain ⟨es, hadded, hready⟩ := startup n α
  have hx := exec_add (s := .ready n α) (x := x) (p := 0) rfl rfl rfl (fun _ => rfl) rfl
  have hy := exec_append_of hx (exec_add (x := y) (p := 1) rfl rfl rfl (fun _ => rfl) rfl)
  have hi := exec_append_of hy (exec_work (k := 8) (i := i) rfl (fun _ _ => rfl) rfl)
  have hawake : ∀ l, (update (fun _ => Worker.test) i (.running 0 x) l).isAsleep = false := fun l => by
    by_cases hl : l = i
    · subst hl
      rw [update_self]
      rfl
    · rw [update_of_ne hl]
      rfl
  have hj := exec_append_of hi (exec_work (k := 7) (i := j) rfl (fun l _ => hawake l) (by dsimp only; rw [update_of_ne hij]; rfl))
  refine ⟨_, _, exec_append_of hready hj, ?_, rfl, rfl, ?_, update_self ..⟩
  · rw [added_append, hadded]
    rfl
  · exact (update_of_ne hij.symm ..).trans (update_self ..)

end OperatingSystem.Pool
