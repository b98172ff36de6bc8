import OperatingSystem.Pool.Step

/-!
# OperatingSystem.Pool.Cases

What an event can do, said once: `ThreadDo` and `CallerDo` list the actions of a
worker and of the caller with their guards, `Woken` is what a signal changes, and
`Step` puts them together.  The invariants are proved by cases on these.
-/

namespace OperatingSystem.Pool

open Function

variable {n : Nat} {α : Type}

/-- The actions of worker `i`. -/
inductive ThreadDo (s : Thpool n α) (i : Fin n) : Worker α → Thpool n α → Worker α → Signal → Prop
  | born (hlock : s.thcountLock = none) :
      ThreadDo s i .born { s with numThreadsAlive := s.numThreadsAlive + 1, thcountLock := some (.worker i) } .announced .none
  | announced : ThreadDo s i .announced { s with thcountLock := none } .test .none
  | stay (hkeep : s.threadsKeepalive = true) : ThreadDo s i .test s .wait .none
  | quit (hkeep : s.threadsKeepalive = false) : ThreadDo s i .test s .exit .none
  | take (hv : s.hasJobs = true) : ThreadDo s i .wait { s with hasJobs := false } .check .none
  | sleep (hv : s.hasJobs = false) : ThreadDo s i .wait s .asleep .none
  | pass (hkeep : s.threadsKeepalive = true) : ThreadDo s i .check s .enter .none
  | skip (hkeep : s.threadsKeepalive = false) : ThreadDo s i .check s .test .none
  | enter (hlock : s.thcountLock = none) :
      ThreadDo s i .enter { s with numThreadsWorking := s.numThreadsWorking + 1 } .pull .none
  | pullMore (hlock : s.rwmutex = none) (hpull : jobqueuePull s.memory s.jobqueue = some (some job, true, q)) :
      ThreadDo s i .pull { s with jobqueue := q, rwmutex := some (.worker i) } (.post job) .none
  | pull (hlock : s.rwmutex = none) (hpull : jobqueuePull s.memory s.jobqueue = some (job, more, q))
      (hmore : more = true → job = none) :
      ThreadDo s i .pull { s with jobqueue := q, rwmutex := some (.worker i) } (.unlock job) .none
  | post : ThreadDo s i (.post job) { s with hasJobs := true } (.unlock (some job)) .hasJobs
  | unlock : ThreadDo s i (.unlock job) { s with rwmutex := none } (.call job) .none
  | idle : ThreadDo s i (.call none) s .leave .none
  | call (hjob : s.memory job = some node) :
      ThreadDo s i (.call (some job)) { s with called := s.called ++ [node.data] } (.running job node.data) .none
  | ret : ThreadDo s i (.running job x) { s with returned := s.returned ++ [x] } (.free job) .none
  | free (hjob : s.memory job = some node) :
      ThreadDo s i (.free job) { s with memory := update s.memory job none } .leave .none
  | leave (hlock : s.thcountLock = none) :
      ThreadDo s i .leave { s with numThreadsWorking := s.numThreadsWorking - 1 } .test
        (if s.numThreadsWorking - 1 = 0 then .allIdle else .none)
  | exit (hlock : s.thcountLock = none) :
      ThreadDo s i .exit { s with numThreadsAlive := s.numThreadsAlive - 1, thcountLock := some (.worker i) } .release .none
  | release : ThreadDo s i .release { s with thcountLock := none } .ended .none

theorem threadDo_cases {s s' : Thpool n α} {i : Fin n} {w w' : Worker α} {sig : Signal}
    (h : threadDo s i w = .ok (s', w', sig)) : ThreadDo s i w s' w' sig := by
  cases w with
  | unborn | asleep | ended => cases h
  | born =>
      simp only [threadDo] at h
      split at h <;> cases h
      exact .born ‹_›
  | announced =>
      cases h
      exact .announced
  | test =>
      cases h
      cases hkeep : s.threadsKeepalive
      · exact .quit hkeep
      · exact .stay hkeep
  | wait =>
      simp only [threadDo] at h
      split at h <;> cases h
      · exact .take ‹_›
      · exact .sleep (by simpa using ‹¬s.hasJobs = true›)
  | check =>
      cases h
      cases hkeep : s.threadsKeepalive
      · exact .skip hkeep
      · exact .pass hkeep
  | enter =>
      simp only [threadDo] at h
      split at h <;> cases h
      exact .enter ‹_›
  | pull =>
      simp only [threadDo] at h
      split at h
      · split at h
        · cases h
        · split at h <;> cases h
          · exact .pullMore ‹_› ‹_›
          · rename_i hpull _ _ hnot
            exact .pull ‹_› hpull fun hmore => Option.eq_none_iff_forall_ne_some.mpr fun job hjob =>
              hnot job hmore hjob
      · cases h
  | post job =>
      cases h
      exact .post
  | unlock job =>
      cases h
      exact .unlock
  | call job =>
      cases job with
      | none =>
          cases h
          exact .idle
      | some job =>
          simp only [threadDo] at h
          split at h <;> cases h
          exact .call ‹_›
  | running job x =>
      cases h
      exact .ret
  | free job =>
      simp only [threadDo] at h
      split at h <;> cases h
      exact .free ‹_›
  | leave =>
      simp only [threadDo] at h
      split at h <;> cases h
      exact .leave ‹_›
  | exit =>
      simp only [threadDo] at h
      split at h <;> cases h
      exact .exit ‹_›
  | release =>
      cases h
      exact .release

/-- The actions of the caller. -/
inductive CallerDo (s : Thpool n α) : Caller → Thpool n α → Caller → Signal → Prop
  | spin (halive : s.numThreadsAlive = n) : CallerDo s .spin s .idle .none
  | push (hlock : s.rwmutex = none) (hpush : jobqueuePush s.memory s.jobqueue newjob = some (c, q)) :
      CallerDo s (.push newjob) { s with memory := c, jobqueue := q, rwmutex := some .caller } .post .none
  | post : CallerDo s .post { s with hasJobs := true } .unlock .hasJobs
  | unlock : CallerDo s .unlock { s with rwmutex := none } .idle .none
  | waitLock (hlock : s.thcountLock = none) : CallerDo s .waitLock { s with thcountLock := some .caller } .waitLen .none
  | noJobs (hlen : s.jobqueue.len = 0) : CallerDo s .waitLen s .waitWorking .none
  | jobs (hlen : s.jobqueue.len ≠ 0) : CallerDo s .waitLen s .waitSleep .none
  | noneWorking (hworking : s.numThreadsWorking = 0) : CallerDo s .waitWorking s .waitDone .none
  | someWorking (hworking : s.numThreadsWorking ≠ 0) : CallerDo s .waitWorking s .waitSleep .none
  | sleep : CallerDo s .waitSleep { s with thcountLock := none } .waitAsleep .none
  | done : CallerDo s .waitDone { s with thcountLock := none } .idle .none
  | noneAlive (halive : s.numThreadsAlive = 0) : CallerDo s (.poll total) s (.clear total) .none
  | someAlive (halive : s.numThreadsAlive ≠ 0) : CallerDo s (.poll total) s (.postAll total) .none
  | postAll : CallerDo s (.postAll total) { s with hasJobs := true } (.poll total) .hasJobsAll
  | cleared (hlen : s.jobqueue.len = 0) :
      CallerDo s (.clear total) { s with jobqueue := ⟨none, none, 0⟩, hasJobs := false } (.free total) .none
  | clearNone (hlen : s.jobqueue.len ≠ 0) (hlock : s.rwmutex = none)
      (hpull : jobqueuePull s.memory s.jobqueue = some (none, more, q)) :
      CallerDo s (.clear total) { s with jobqueue := q, hasJobs := s.hasJobs || more } (.clear total)
        (if more then .hasJobs else .none)
  | clear (hlen : s.jobqueue.len ≠ 0) (hlock : s.rwmutex = none)
      (hpull : jobqueuePull s.memory s.jobqueue = some (some job, more, q)) (hjob : s.memory job = some node) :
      CallerDo s (.clear total)
        { s with
          jobqueue := q, hasJobs := s.hasJobs || more, memory := update s.memory job none
          dropped := s.dropped ++ [node.data] }
        (.clear total) (if more then .hasJobs else .none)
  | free (htotal : total ≤ (n : Int)) (hthreads : ∀ i : Fin n, (i.val : Int) < total → s.threads i = true) :
      CallerDo s (.free total)
        { s with threads := fun i => s.threads i && decide (total ≤ (i.val : Int)), freed := true } .destroyed .none

theorem jobqueueClear_cases {s s' : Thpool n α} {total : Int} {c' : Caller} {sig : Signal}
    (h : jobqueueClear s total = .ok (s', c', sig)) : CallerDo s (.clear total) s' c' sig := by
  simp only [jobqueueClear] at h
  split at h
  · cases h
    exact .cleared ‹_›
  split at h
  · split at h
    · cases h
    · split at h
      · cases h
        exact .clearNone ‹_› ‹_› ‹_›
      · split at h <;> cases h
        exact .clear ‹_› ‹_› ‹_› ‹_›
  · cases h

theorem callerDo_cases {s s' : Thpool n α} {c c' : Caller} {sig : Signal}
    (h : callerDo s c = .ok (s', c', sig)) : CallerDo s c s' c' sig := by
  cases c with
  | start | refused | create k | idle | waitAsleep | destroyed => cases h
  | spin =>
      simp only [callerDo] at h
      split at h <;> cases h
      exact .spin ‹_›
  | push newjob =>
      simp only [callerDo] at h
      split at h
      · split at h <;> cases h
        exact .push ‹_› ‹_›
      · cases h
  | post =>
      cases h
      exact .post
  | unlock =>
      cases h
      exact .unlock
  | waitLock =>
      simp only [callerDo] at h
      split at h <;> cases h
      exact .waitLock ‹_›
  | waitLen =>
      cases h
      split
      · exact .noJobs ‹_›
      · exact .jobs ‹_›
  | waitWorking =>
      cases h
      split
      · exact .noneWorking ‹_›
      · exact .someWorking ‹_›
  | waitSleep =>
      cases h
      exact .sleep
  | waitDone =>
      cases h
      exact .done
  | poll total =>
      cases h
      split
      · exact .noneAlive ‹_›
      · exact .someAlive ‹_›
  | postAll total =>
      cases h
      exact .postAll
  | clear total => exact jobqueueClear_cases h
  | free total =>
      simp only [callerDo] at h
      split at h <;> cases h
      rename_i hfree
      exact .free hfree.1 hfree.2

/-- Some of the threads that wait are woken. -/
structure Woken (s s' : Sys n α) : Prop where
  pool : s'.pool = s.pool
  worker : ∀ i, s'.worker i = s.worker i ∨ s.worker i = .asleep ∧ s'.worker i = .wait
  caller : s'.caller = s.caller ∨ s.caller = .waitAsleep ∧ s'.caller = .waitLock

theorem Worker.isAsleep_iff {w : Worker α} : w.isAsleep = true ↔ w = .asleep := by
  cases w <;> simp [isAsleep]

theorem woken_update {s : Sys n α} {i : Fin n} (hi : (s.worker i).isAsleep = true) :
    Woken s { s with worker := update s.worker i .wait } := by
  refine ⟨rfl, fun j => ?_, .inl rfl⟩
  by_cases hj : j = i
  · subst hj
    exact .inr ⟨Worker.isAsleep_iff.mp hi, update_self ..⟩
  · exact .inl (update_of_ne hj ..)

theorem signal_woken {s s' : Sys n α} {woken : Option (Fin n)} {sig : Signal} (h : signal s woken sig = .ok s') :
    Woken s s' := by
  cases sig with
  | none =>
      cases h
      exact ⟨rfl, fun _ => .inl rfl, .inl rfl⟩
  | hasJobs =>
      simp only [signal] at h
      split at h
      · split at h <;> cases h
        exact woken_update ‹_›
      · split at h <;> cases h
        exact ⟨rfl, fun _ => .inl rfl, .inl rfl⟩
  | hasJobsAll =>
      cases h
      refine ⟨rfl, fun i => ?_, .inl rfl⟩
      by_cases hi : (s.worker i).isAsleep = true
      · exact .inr ⟨Worker.isAsleep_iff.mp hi, if_pos hi⟩
      · exact .inl (if_neg hi)
  | allIdle =>
      cases h
      refine ⟨rfl, fun _ => .inl rfl, ?_⟩
      by_cases hc : s.caller = .waitAsleep
      · exact .inr ⟨hc, if_pos hc⟩
      · exact .inl (if_neg hc)

/-- The events. -/
inductive Step (s : Sys n α) : Event n α → Sys n α → Prop
  | init (hc : s.caller = .start) : Step s (.init true) { s with caller := .create 0 }
  | refuse (hc : s.caller = .start) : Step s (.init false) { s with caller := .refused }
  | create (ok : Bool) (hc : s.caller = .create k) (hk : k < n) :
      Step s (.create ok)
        { s with
          pool := { s.pool with threads := update s.pool.threads ⟨k, hk⟩ true }
          caller := .create (k + 1)
          worker := if ok then update s.worker ⟨k, hk⟩ .born else s.worker }
  | created (ok : Bool) (hc : s.caller = .create k) (hk : n ≤ k) : Step s (.create ok) { s with caller := .spin }
  | addFailed (x : α) (prev : Option Nat) (hc : s.caller = .idle) : Step s (.add x none prev) s
  | add (x : α) (prev : Option Nat) (hc : s.caller = .idle) (hp : s.pool.memory p = none) :
      Step s (.add x (some p) prev)
        { s with pool := { s.pool with memory := update s.pool.memory p (some ⟨x, prev⟩) }, caller := .push p }
  | wait (hc : s.caller = .idle) : Step s .wait { s with caller := .waitLock }
  | destroy (hc : s.caller = .idle) :
      Step s .destroy
        { s with pool := { s.pool with threadsKeepalive := false }, caller := .poll s.pool.numThreadsAlive }
  | caller (hdo : CallerDo s.pool s.caller pool c sig)
      (hsig : signal { s with pool := pool, caller := c } woken sig = .ok s') : Step s (.caller woken) s'
  | worker (hsafe : s.pool.freed = true → (s.worker i).touches = false) (hdo : ThreadDo s.pool i (s.worker i) pool w sig)
      (hsig : signal { s with pool := pool, worker := update s.worker i w } woken sig = .ok s') :
      Step s (.worker i woken) s'
  | wake (hi : (s.worker i).isAsleep = true) : Step s (.wake i) { s with worker := update s.worker i .wait }
  | wakeCaller (hc : s.caller = .waitAsleep) : Step s .wakeCaller { s with caller := .waitLock }

theorem step_cases {s s' : Sys n α} {e : Event n α} (h : step s e = .ok s') : Step s e s' := by
  cases e with
  | init ok =>
      simp only [step] at h
      split at h <;> cases h
      cases ok
      · exact .refuse ‹_›
      · exact .init ‹_›
  | create ok =>
      simp only [step] at h
      split at h
      · split at h <;> cases h
        · exact .create ok ‹_› ‹_›
        · exact .created ok ‹_› (Nat.le_of_not_lt ‹_›)
      · cases h
  | add x newjob prev =>
      simp only [step] at h
      split at h
      · split at h
        · cases h
          exact .addFailed x prev ‹_›
        · split at h <;> cases h
          exact .add x prev ‹_› ‹_›
      · cases h
  | wait =>
      simp only [step] at h
      split at h <;> cases h
      exact .wait ‹_›
  | destroy =>
      simp only [step] at h
      split at h <;> cases h
      exact .destroy ‹_›
  | caller woken =>
      simp only [step] at h
      split at h
      · cases h
      · exact .caller (callerDo_cases ‹_›) h
  | worker i woken =>
      simp only [step] at h
      split at h
      · cases h
      · rename_i hsafe
        split at h
        · cases h
        · exact .worker (fun hfreed => by simpa [hfreed] using hsafe) (threadDo_cases ‹_›) h
  | wake i =>
      simp only [step] at h
      split at h <;> cases h
      exact .wake ‹_›
  | wakeCaller =>
      simp only [step] at h
      split at h <;> cases h
      exact .wakeCaller ‹_›

theorem next_cases {s s' : Sys n α} {e : Event n α} (h : next s e = some s') : Step s e s' := by
  refine step_cases ?_
  cases hstep : step s e with
  | error stop => simp [next, hstep, Except.toOption] at h
  | ok t => simpa [next, hstep, Except.toOption] using h

end OperatingSystem.Pool
