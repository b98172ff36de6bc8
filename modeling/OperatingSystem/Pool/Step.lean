import OperatingSystem.Pool.State

/-!
# OperatingSystem.Pool.Step

The actions of `thread_do` and of the library's functions, and the interleavings
of them: a run is a list of events, each of them the next action of one thread.

`pthread_cond_signal` wakes one of the threads that wait, and the event says which
one; `pthread_cond_wait` may also return without a signal (`wake`, `wakeCaller`).
An action that waits for a lock is `blocked` while the lock is held.  `undefined`
is undefined behaviour: a null or freed job is read or freed, or the pool is used
after it was freed.
-/

namespace OperatingSystem.Pool

/-- Why there is no next state. -/
inductive Stop where
  | blocked
  | undefined
deriving DecidableEq

/-- What a thread does to the threads that wait. -/
inductive Signal where
  | none
  /-- `bsem_post` -/
  | hasJobs
  /-- `bsem_post_all` -/
  | hasJobsAll
  /-- `pthread_cond_signal(&threads_all_idle)` -/
  | allIdle
deriving DecidableEq

/-- What happens next: the result of a function of the system (`create`, and
`malloc` in `init` and `add`), a call of the library, or the next action of a
thread, with the worker it wakes. -/
inductive Event (n : Nat) (α : Type) where
  | init (ok : Bool)
  | create (ok : Bool)
  | add (x : α) (newjob : Option Nat) (prev : Option Nat)
  | wait
  | destroy
  | caller (woken : Option (Fin n))
  | worker (i : Fin n) (woken : Option (Fin n))
  | wake (i : Fin n)
  | wakeCaller
deriving DecidableEq

variable {n : Nat} {α : Type}

/-- The next action of a worker in `thread_do`. -/
def threadDo (s : Thpool n α) (i : Fin n) : Worker α → Except Stop (Thpool n α × Worker α × Signal)
  | .unborn | .asleep | .ended => .error .blocked
  | .born =>
      if s.thcountLock = none then
        .ok ({ s with numThreadsAlive := s.numThreadsAlive + 1, thcountLock := some (.worker i) }, .announced, .none)
      else .error .blocked
  | .announced => .ok ({ s with thcountLock := none }, .test, .none)
  | .test => .ok (s, if s.threadsKeepalive then .wait else .exit, .none)
  | .wait => if s.hasJobs then .ok ({ s with hasJobs := false }, .check, .none) else .ok (s, .asleep, .none)
  | .check => .ok (s, if s.threadsKeepalive then .enter else .test, .none)
  | .enter =>
      if s.thcountLock = none then
        .ok ({ s with numThreadsWorking := s.numThreadsWorking + 1 }, .pull, .none)
      else .error .blocked
  | .pull =>
      if s.rwmutex = none then
        match jobqueuePull s.memory s.jobqueue with
        | none => .error .undefined
        | some (job, more, q) =>
            let s := { s with jobqueue := q, rwmutex := some (.worker i) }
            match more, job with
            | true, some job => .ok (s, .post job, .none)
            | _, _ => .ok (s, .unlock job, .none)
      else .error .blocked
  | .post job => .ok ({ s with hasJobs := true }, .unlock (some job), .hasJobs)
  | .unlock job => .ok ({ s with rwmutex := none }, .call job, .none)
  | .call none => .ok (s, .leave, .none)
  | .call (some job) =>
      match s.memory job with
      | none => .error .undefined
      | some node => .ok ({ s with called := s.called ++ [node.data] }, .running job node.data, .none)
  | .running job x => .ok ({ s with returned := s.returned ++ [x] }, .free job, .none)
  | .free job =>
      match s.memory job with
      | none => .error .undefined
      | some _ => .ok ({ s with memory := Function.update s.memory job none }, .leave, .none)
  | .leave =>
      if s.thcountLock = none then
        .ok ({ s with numThreadsWorking := s.numThreadsWorking - 1 }, .test,
          if s.numThreadsWorking - 1 = 0 then .allIdle else .none)
      else .error .blocked
  | .exit =>
      if s.thcountLock = none then
        .ok ({ s with numThreadsAlive := s.numThreadsAlive - 1, thcountLock := some (.worker i) }, .release, .none)
      else .error .blocked
  | .release => .ok ({ s with thcountLock := none }, .ended, .none)

/-- One round of the loop in `jobqueue_clear`, or what follows the loop.  No worker
is left that could see what lies between the pull and the `free`. -/
def jobqueueClear (s : Thpool n α) (total : Int) : Except Stop (Thpool n α × Caller × Signal) :=
  if s.jobqueue.len = 0 then .ok ({ s with jobqueue := ⟨none, none, 0⟩, hasJobs := false }, .free total, .none)
  else if s.rwmutex = none then
    match jobqueuePull s.memory s.jobqueue with
    | none => .error .undefined
    | some (job, more, q) =>
        let s := { s with jobqueue := q, hasJobs := s.hasJobs || more }
        match job with
        | none => .ok (s, .clear total, if more then .hasJobs else .none)
        | some job =>
            match s.memory job with
            | none => .error .undefined
            | some node =>
                .ok ({ s with memory := Function.update s.memory job none, dropped := s.dropped ++ [node.data] },
                  .clear total, if more then .hasJobs else .none)
  else .error .blocked

/-- The next action of the caller, inside one of the library's functions. -/
def callerDo (s : Thpool n α) : Caller → Except Stop (Thpool n α × Caller × Signal)
  | .start | .refused | .create _ | .idle | .waitAsleep | .destroyed => .error .blocked
  | .spin => if s.numThreadsAlive = n then .ok (s, .idle, .none) else .error .blocked
  | .push newjob =>
      if s.rwmutex = none then
        match jobqueuePush s.memory s.jobqueue newjob with
        | none => .error .undefined
        | some (c, q) => .ok ({ s with memory := c, jobqueue := q, rwmutex := some .caller }, .post, .none)
      else .error .blocked
  | .post => .ok ({ s with hasJobs := true }, .unlock, .hasJobs)
  | .unlock => .ok ({ s with rwmutex := none }, .idle, .none)
  | .waitLock =>
      if s.thcountLock = none then .ok ({ s with thcountLock := some .caller }, .waitLen, .none) else .error .blocked
  | .waitLen => .ok (s, if s.jobqueue.len = 0 then .waitWorking else .waitSleep, .none)
  | .waitWorking => .ok (s, if s.numThreadsWorking = 0 then .waitDone else .waitSleep, .none)
  | .waitSleep => .ok ({ s with thcountLock := none }, .waitAsleep, .none)
  | .waitDone => .ok ({ s with thcountLock := none }, .idle, .none)
  | .poll total => .ok (s, if s.numThreadsAlive = 0 then .clear total else .postAll total, .none)
  | .postAll total => .ok ({ s with hasJobs := true }, .poll total, .hasJobsAll)
  | .clear total => jobqueueClear s total
  | .free total =>
      if total ≤ n ∧ ∀ i : Fin n, (i.val : Int) < total → s.threads i = true then
        .ok ({ s with threads := fun i => s.threads i && decide (total ≤ (i.val : Int)), freed := true }, .destroyed, .none)
      else .error .undefined

/-- The threads behind a signal, where `woken` is the one it wakes. -/
def signal (s : Sys n α) (woken : Option (Fin n)) : Signal → Except Stop (Sys n α)
  | .none => .ok s
  | .hasJobs =>
      match woken with
      | some j => if (s.worker j).isAsleep then .ok { s with worker := Function.update s.worker j .wait } else .error .blocked
      | none => if ∀ j, (s.worker j).isAsleep = false then .ok s else .error .blocked
  | .hasJobsAll => .ok { s with worker := fun j => if (s.worker j).isAsleep then .wait else s.worker j }
  | .allIdle => .ok { s with caller := if s.caller = .waitAsleep then .waitLock else s.caller }

/-- One event. -/
def step (s : Sys n α) : Event n α → Except Stop (Sys n α)
  | .init ok =>
      if s.caller = .start then .ok { s with caller := if ok then .create 0 else .refused } else .error .blocked
  | .create ok =>
      match s.caller with
      | .create k =>
          if h : k < n then
            .ok { s with
              pool := { s.pool with threads := Function.update s.pool.threads ⟨k, h⟩ true }
              caller := .create (k + 1)
              worker := if ok then Function.update s.worker ⟨k, h⟩ .born else s.worker }
          else .ok { s with caller := .spin }
      | _ => .error .blocked
  | .add x newjob prev =>
      if s.caller = .idle then
        match newjob with
        | none => .ok s
        | some p =>
            if s.pool.memory p = none then
              .ok { s with
                pool := { s.pool with memory := Function.update s.pool.memory p (some ⟨x, prev⟩) }
                caller := .push p }
            else .error .blocked
      else .error .blocked
  | .wait => if s.caller = .idle then .ok { s with caller := .waitLock } else .error .blocked
  | .destroy =>
      if s.caller = .idle then
        .ok { s with
          pool := { s.pool with threadsKeepalive := false }
          caller := .poll s.pool.numThreadsAlive }
      else .error .blocked
  | .caller woken =>
      match callerDo s.pool s.caller with
      | .error e => .error e
      | .ok (pool, caller, sig) => signal { s with pool := pool, caller := caller } woken sig
  | .worker i woken =>
      if s.pool.freed = true ∧ (s.worker i).touches = true then .error .undefined
      else
        match threadDo s.pool i (s.worker i) with
        | .error e => .error e
        | .ok (pool, worker, sig) => signal { s with pool := pool, worker := Function.update s.worker i worker } woken sig
  | .wake i =>
      if (s.worker i).isAsleep then .ok { s with worker := Function.update s.worker i .wait } else .error .blocked
  | .wakeCaller => if s.caller = .waitAsleep then .ok { s with caller := .waitLock } else .error .blocked

/-- The next state, if the event can happen and is defined. -/
def next (s : Sys n α) (e : Event n α) : Option (Sys n α) := (step s e).toOption

/-- The arguments of the jobs added, in order. -/
def added (h : List (Event n α)) : List α :=
  h.filterMap fun e =>
    match e with
    | .add x (some _) _ => some x
    | _ => none

theorem added_append (h h' : List (Event n α)) : added (h ++ h') = added h ++ added h' := List.filterMap_append

end OperatingSystem.Pool
