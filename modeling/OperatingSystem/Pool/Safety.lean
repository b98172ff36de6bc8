import OperatingSystem.Pool.Wakeup

/-!
# OperatingSystem.Pool.Safety

What the pool never does, in any interleaving: no job is lost, called twice or
overtaken in the queue (`jobs_once`); the locks exclude and the counters count
(`exclusive_and_counted`); and no freed or null block is used, except for the last
unlock of a worker that `thpool_destroy` did not wait for (`undefined_iff`).
-/

namespace OperatingSystem.Pool

open Function Tally Queue

variable {n : Nat} {α : Type} {s : Sys n α} {es : List (Event n α)}

/-! ## Jobs -/

/-- The arguments of the jobs added and not pulled, from the front of the queue. -/
def Sys.waiting (s : Sys n α) : List α :=
  contents s.pool.memory (walk s.pool.memory s.pool.jobqueue.len s.pool.jobqueue.front ++ s.caller.newjob.toList)

/-- Those of the jobs the workers have pulled and not called. -/
def Sys.pulled (s : Sys n α) : Multiset α := total (Worker.pulled s.pool.memory) s.worker

/-- Those of the calls the workers are in. -/
def Sys.running (s : Sys n α) : Multiset α := total Worker.inside s.worker

theorem Jobs.waiting_eq {as : List α} {l : List Nat} (h : Jobs as l s) :
    s.waiting = contents s.pool.memory (l ++ s.caller.newjob.toList) := by
  rw [Sys.waiting, h.queue.len, h.queue.front, walk_eq h.queue.linked]

/-- **No job is lost, duplicated or overtaken**: the jobs that wait are the last
ones added, in order, and of the others each one is in one place: a worker has
pulled it, it was called, or it was freed.  Each call has returned or runs. -/
theorem jobs_once (h : Run.exec next (Sys.start n α) es = some s) :
    (∃ taken : List α, added es = taken ++ s.waiting ∧
      (taken : Multiset α) = ↑s.pool.called + ↑s.pool.dropped + s.pulled) ∧
      (s.pool.called : Multiset α) = ↑s.pool.returned + s.running := by
  obtain ⟨l, hjobs⟩ := (inv_of_run h).jobs
  obtain ⟨taken, has, htaken⟩ := hjobs.taken
  exact ⟨⟨taken, by rw [has, hjobs.waiting_eq], htaken⟩, hjobs.called⟩

/-- Two workers are created, and one of them sleeps.  It is woken for the first of two
jobs, but the other worker pulls that one; it runs the second, and returns first. -/
def twoJobs : List (Event 2 Nat) :=
  [.init true, .create true, .create true, .create true, .worker 0 none, .worker 0 none, .worker 1 none, .worker 1 none,
    .caller none, .worker 1 none, .worker 1 none] ++
  [.add 7 (some 0) none, .caller none, .caller (some 1), .caller none, .add 8 (some 1) none, .caller none, .caller none,
    .caller none] ++
  List.replicate 8 (.worker 0 none) ++ List.replicate 9 (.worker 1 none) ++ List.replicate 5 (.worker 0 none) ++
  List.replicate 2 (.worker 1 none)

theorem twoJobs_runs : (Run.exec next (Sys.start 2 Nat) twoJobs).isSome := by decide

theorem jobs_once_twoJobs : let s := (Run.exec next (Sys.start 2 Nat) twoJobs).get twoJobs_runs
    (∃ taken : List Nat, added twoJobs = taken ++ s.waiting ∧
      (taken : Multiset Nat) = ↑s.pool.called + ↑s.pool.dropped + s.pulled) ∧
      (s.pool.called : Multiset Nat) = ↑s.pool.returned + s.running :=
  jobs_once (Option.some_get twoJobs_runs).symm

/-! ## Locks and counters -/

/-- `thpool_num_threads_working`. -/
def thpoolNumThreadsWorking (s : Thpool n α) : Int := s.numThreadsWorking

/-- **Mutual exclusion, and counters that count**: each lock has one holder at
most, and it is the thread between lock and unlock; the counters are the numbers
of the workers in the phases they are to count. -/
theorem exclusive_and_counted (h : Run.exec next (Sys.start n α) es = some s) :
    (∀ t u, s.holdsRwmutex t = true → s.holdsRwmutex u = true → t = u) ∧
      (∀ t u, s.holdsThcount t = true → s.holdsThcount u = true → t = u) ∧
      s.pool.numThreadsAlive = (total Worker.alive s.worker : Nat) ∧
      thpoolNumThreadsWorking s.pool = (total Worker.working s.worker : Nat) := by
  have hbase := (inv_of_run h).base
  exact ⟨fun t u => hbase.locks.rwmutex.exclusive, fun t u => hbase.locks.thcount.exclusive, hbase.counts.alive,
    hbase.counts.working⟩

theorem exclusive_and_counted_twoJobs : let s := (Run.exec next (Sys.start 2 Nat) twoJobs).get twoJobs_runs
    (∀ t u, s.holdsRwmutex t = true → s.holdsRwmutex u = true → t = u) ∧
      (∀ t u, s.holdsThcount t = true → s.holdsThcount u = true → t = u) ∧
      s.pool.numThreadsAlive = (total Worker.alive s.worker : Nat) ∧
      thpoolNumThreadsWorking s.pool = (total Worker.working s.worker : Nat) :=
  exclusive_and_counted (Option.some_get twoJobs_runs).symm

/-! ## Memory -/

theorem threadDo_undefined {pool : Thpool n α} {i : Fin n} {w : Worker α} (h : threadDo pool i w = .error .undefined) :
    w = .pull ∧ jobqueuePull pool.memory pool.jobqueue = none ∨ ∃ p, p ∈ w.jobs ∧ pool.memory p = none := by
  cases w with
  | born | enter | leave | exit | wait =>
      simp only [threadDo] at h
      split at h <;> cases h
  | pull =>
      simp only [threadDo] at h
      split at h
      · split at h
        · exact .inl ⟨rfl, ‹_›⟩
        · split at h <;> cases h
      · cases h
  | call job =>
      cases job with
      | none => cases h
      | some p =>
          simp only [threadDo] at h
          split at h
          · exact .inr ⟨p, Multiset.mem_singleton_self p, ‹_›⟩
          · cases h
  | free p =>
      simp only [threadDo] at h
      split at h
      · exact .inr ⟨p, Multiset.mem_singleton_self p, ‹_›⟩
      · cases h
  | _ => cases h

theorem jobqueueClear_undefined {pool : Thpool n α} {t : Int} (h : jobqueueClear pool t = .error .undefined) :
    jobqueuePull pool.memory pool.jobqueue = none ∨
      ∃ p more q, jobqueuePull pool.memory pool.jobqueue = some (some p, more, q) ∧ pool.memory p = none := by
  simp only [jobqueueClear] at h
  split at h
  · cases h
  split at h
  · split at h
    · exact .inl ‹_›
    · split at h
      · cases h
      · split at h
        · exact .inr ⟨_, _, _, ‹_›, ‹_›⟩
        · cases h
  · cases h

theorem callerDo_undefined {pool : Thpool n α} {c : Caller} (h : callerDo pool c = .error .undefined) :
    (∃ p, c = .push p ∧ jobqueuePush pool.memory pool.jobqueue p = none) ∨
      (∃ t, c = .clear t ∧ jobqueueClear pool t = .error .undefined) ∨
      ∃ t, c = .free t ∧ ¬ (t ≤ n ∧ ∀ i : Fin n, (i.val : Int) < t → pool.threads i = true) := by
  cases c with
  | spin | waitLock =>
      simp only [callerDo] at h
      split at h <;> cases h
  | push p =>
      simp only [callerDo] at h
      split at h
      · split at h
        · exact .inl ⟨p, rfl, ‹_›⟩
        · cases h
      · cases h
  | clear t => exact .inr (.inl ⟨t, rfl, h⟩)
  | free t =>
      simp only [callerDo] at h
      split at h
      · cases h
      · exact .inr (.inr ⟨t, rfl, ‹_›⟩)
  | _ => cases h

theorem signal_defined {chosen : Option (Fin n)} {sig : Signal} : signal s chosen sig ≠ .error .undefined := by
  intro h
  cases sig with
  | hasJobs =>
      simp only [signal] at h
      split at h
      · split at h <;> cases h
      · split at h <;> cases h
  | _ => cases h

/-- What the invariants say of memory: no action reads or frees what is not there. -/
theorem Jobs.defined {as : List α} {l : List Nat} (h : Jobs as l s) (hphases : Phases s) :
    (∀ i, threadDo s.pool i (s.worker i) ≠ .error .undefined) ∧ callerDo s.pool s.caller ≠ .error .undefined := by
  obtain ⟨q', hpull, -⟩ := jobqueuePull_spec h.queue
  refine ⟨fun i hundef => ?_, fun hundef => ?_⟩
  · obtain ⟨-, hnone⟩ | ⟨p, hp, hnone⟩ := threadDo_undefined hundef
    · rw [hpull] at hnone
      cases hnone
    · exact (h.allocated p).mpr (mem_owned.mpr (.inr ⟨i, hp⟩)) hnone
  · obtain ⟨p, hc, hnone⟩ | ⟨t, hc, hundef⟩ | ⟨t, hc, hnot⟩ := callerDo_undefined hundef
    · obtain ⟨c', q', hpush, -⟩ := h.push_spec hc
      rw [hpush] at hnone
      cases hnone
    · obtain hnone | ⟨p, more, q, hsome, hnone⟩ := jobqueueClear_undefined hundef
      · rw [hpull] at hnone
        cases hnone
      · obtain ⟨hhead, -⟩ : l.head? = some p ∧ decide (2 ≤ l.length) = more ∧ q' = q := by
          simpa using hpull.symm.trans hsome
        have hmem : p ∈ l := List.mem_of_head? hhead
        exact (h.allocated p).mpr (mem_owned.mpr (.inl (List.mem_append_left _ hmem))) hnone
    · refine hnot ⟨(hphases.threadsTotal t (by rw [hc]; rfl)).le, fun i _ => hphases.allocated (by simp [hc]) i ?_⟩
      rw [hc]
      exact i.isLt

/-- **Memory safety**: the one undefined action of all runs is the unlock behind
`num_threads_alive --`, when `thpool_destroy` has seen the counter and freed the
pool in between. -/
theorem undefined_iff (h : Run.exec next (Sys.start n α) es = some s) (e : Event n α) :
    step s e = .error .undefined ↔
      ∃ i chosen, e = .worker i chosen ∧ s.worker i = .release ∧ s.caller = .destroyed := by
  have hinv := inv_of_run h
  obtain ⟨l, hjobs⟩ := hinv.jobs
  obtain ⟨hthreads, hcaller⟩ := hjobs.defined hinv.base.phases
  constructor
  · intro hundef
    cases e with
    | worker i chosen =>
        simp only [step] at hundef
        split at hundef
        · rename_i hfreed
          have hdestroyed := hinv.base.phases.freed.mp hfreed.1
          have hgone := hinv.base.phases.gone (by rw [hdestroyed]; rfl) i
          have hstarted := hinv.base.phases.started (by rw [hdestroyed]; rfl) i
          refine ⟨i, chosen, rfl, ?_, hdestroyed⟩
          cases hw : s.worker i with
          | release => rfl
          | unborn | born => simp [hw, Worker.isNew] at hstarted
          | ended => simp [hw, Worker.touches] at hfreed
          | _ => simp [hw, Worker.alive] at hgone
        · split at hundef
          · rename_i hstop
            cases hundef
            exact absurd hstop (hthreads i)
          · exact absurd hundef signal_defined
    | caller chosen =>
        simp only [step] at hundef
        split at hundef
        · rename_i hstop
          cases hundef
          exact absurd hstop hcaller
        · exact absurd hundef signal_defined
    | create ok =>
        simp only [step] at hundef
        split at hundef
        · split at hundef <;> cases hundef
        · cases hundef
    | add x newjob prev =>
        simp only [step] at hundef
        split at hundef
        · split at hundef
          · cases hundef
          · split at hundef <;> cases hundef
        · cases hundef
    | _ =>
        simp only [step] at hundef
        split at hundef <;> cases hundef
  · rintro ⟨i, chosen, rfl, hrelease, hdestroyed⟩
    have hfreed := hinv.base.phases.freed.mpr hdestroyed
    simp [step, hfreed, hrelease, Worker.touches]

/-- The pool is destroyed with a third job in its queue, while a worker is before its
last unlock. -/
def destroyed : List (Event 2 Nat) :=
  twoJobs ++ [.add 9 (some 0) none, .caller none, .caller (some 0), .caller none, .destroy, .caller none, .caller none] ++
  List.replicate 5 (.worker 0 none) ++ [.worker 1 none, .caller none, .caller none] ++ List.replicate 4 (.worker 1 none) ++
  List.replicate 4 (.caller none)

theorem destroyed_runs : (Run.exec next (Sys.start 2 Nat) destroyed).isSome := by decide

theorem undefined_destroyed :
    step ((Run.exec next (Sys.start 2 Nat) destroyed).get destroyed_runs) (.worker 1 none) = .error .undefined :=
  (undefined_iff (Option.some_get destroyed_runs).symm (.worker 1 none)).mpr ⟨1, none, rfl, rfl, rfl⟩

end OperatingSystem.Pool
