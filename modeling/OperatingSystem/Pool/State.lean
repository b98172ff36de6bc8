import OperatingSystem.Lib.Queue

/-!
# OperatingSystem.Pool.State

The thread pool of `webserver_part2.c`: the fields of `thpool_`, its job queue and
the binary semaphore `has_jobs`, and where each thread stands in the source.

A place is the action a thread takes next.  Between two places nothing happens
that another thread could see: a critical section whose data nobody reads outside
its lock is one action, and where somebody does (the counter of the threads alive,
the semaphore posted under `rwmutex`) taking and releasing the lock are actions of
their own.
-/

namespace OperatingSystem.Pool

/-- A queued job: what to call and with which argument, and the job behind it. -/
abbrev Job (α : Type) := Queue.Node α

/-- What `malloc` gave out, as far as it holds jobs. -/
abbrev Memory (α : Type) := Nat → Option (Job α)

/-- `jobqueue` without its lock and its semaphore. -/
structure Jobqueue where
  front : Option Nat
  rear : Option Nat
  len : Nat
deriving DecidableEq

/-- A thread: the one that owns the pool, or a worker. -/
inductive Party (n : Nat) where
  | caller
  | worker (i : Fin n)
deriving DecidableEq

/-- `thpool_` with what its threads share.  `hasJobs` is the `v` of the semaphore,
`threads i` says that the block of thread `i` is allocated, and `freed` that the
pool itself no longer is.  The last three fields are the pool's effects: the calls
of job functions, those that have returned, and the jobs freed uncalled. -/
structure Thpool (n : Nat) (α : Type) where
  threads : Fin n → Bool
  numThreadsAlive : Int
  numThreadsWorking : Int
  thcountLock : Option (Party n)
  jobqueue : Jobqueue
  rwmutex : Option (Party n)
  hasJobs : Bool
  threadsKeepalive : Bool
  memory : Memory α
  freed : Bool
  called : List α
  returned : List α
  dropped : List α

/-- Where a worker stands in `thread_do`. -/
inductive Worker (α : Type) where
  | unborn
  /-- before `num_threads_alive += 1` -/
  | born
  /-- behind it, holding `thcount_lock` -/
  | announced
  /-- `while(threads_keepalive)` -/
  | test
  /-- `bsem_wait`, with the semaphore's value to look at -/
  | wait
  /-- `pthread_cond_wait` in `bsem_wait` -/
  | asleep
  /-- `if (threads_keepalive)` -/
  | check
  /-- before `num_threads_working++` -/
  | enter
  /-- before the lock of `jobqueue_pull` -/
  | pull
  /-- in `jobqueue_pull`, before `bsem_post` -/
  | post (job : Nat)
  /-- in `jobqueue_pull`, before the unlock -/
  | unlock (job : Option Nat)
  /-- `if (job_p)`, with the function and its argument to read -/
  | call (job : Option Nat)
  /-- in `func_buff(arg_buff)` -/
  | running (job : Nat) (x : α)
  /-- before `free(job_p)` -/
  | free (job : Nat)
  /-- before `num_threads_working--` -/
  | leave
  /-- before `num_threads_alive --` -/
  | exit
  /-- behind it, holding `thcount_lock` -/
  | release
  | ended

/-- Where the thread that owns the pool stands. -/
inductive Caller where
  | start
  /-- `thpool_init` returned `NULL` -/
  | refused
  /-- the first loop of `thpool_init` -/
  | create (k : Nat)
  /-- `while (num_threads_alive != num_threads) {}` -/
  | spin
  /-- between two calls of the library -/
  | idle
  /-- `jobqueue_push`, before the lock -/
  | push (newjob : Nat)
  /-- `jobqueue_push`, before `bsem_post` -/
  | post
  /-- `jobqueue_push`, before the unlock -/
  | unlock
  /-- `thpool_wait`, before `thcount_lock` is taken -/
  | waitLock
  /-- the left operand of the loop's condition -/
  | waitLen
  /-- its right operand -/
  | waitWorking
  /-- before `pthread_cond_wait` -/
  | waitSleep
  /-- in `pthread_cond_wait` -/
  | waitAsleep
  /-- before the unlock -/
  | waitDone
  /-- `thpool_destroy`, before a test of `num_threads_alive` -/
  | poll (threadsTotal : Int)
  /-- before `bsem_post_all` -/
  | postAll (threadsTotal : Int)
  /-- the loop of `jobqueue_clear` -/
  | clear (threadsTotal : Int)
  /-- behind `jobqueue_clear` -/
  | free (threadsTotal : Int)
  | destroyed
deriving DecidableEq

/-- The threads and what they share. -/
structure Sys (n : Nat) (α : Type) where
  pool : Thpool n α
  caller : Caller
  worker : Fin n → Worker α

variable {n : Nat} {α : Type}

/-- The caller is about to enter `thpool_init`. -/
def Sys.start (n : Nat) (α : Type) : Sys n α where
  pool := {
    threads := fun _ => false
    numThreadsAlive := 0
    numThreadsWorking := 0
    thcountLock := none
    jobqueue := ⟨none, none, 0⟩
    rwmutex := none
    hasJobs := false
    threadsKeepalive := true
    memory := fun _ => none
    freed := false
    called := []
    returned := []
    dropped := [] }
  caller := .start
  worker := fun _ => .unborn

/-! ## The job queue -/

/-- `jobqueue_push` up to `bsem_post`; `none` for a write to no node. -/
def jobqueuePush (c : Memory α) (q : Jobqueue) (newjob : Nat) : Option (Memory α × Jobqueue) :=
  (c newjob).bind fun job =>
    let c := Function.update c newjob (some { job with prev := none })
    match q.len with
    | 0 => some (c, ⟨some newjob, some newjob, q.len + 1⟩)
    | _ + 1 =>
        q.rear.bind fun rear =>
          (c rear).map fun last =>
            (Function.update c rear (some { last with prev := some newjob }), ⟨q.front, some newjob, q.len + 1⟩)

/-- `jobqueue_pull` up to the unlock, with whether the semaphore is posted; `none`
for a read from no node. -/
def jobqueuePull (c : Memory α) (q : Jobqueue) : Option (Option Nat × Bool × Jobqueue) :=
  match q.len with
  | 0 => some (q.front, false, q)
  | 1 => some (q.front, false, ⟨none, none, 0⟩)
  | k + 2 => q.front.bind fun job => (c job).map fun node => (some job, true, ⟨node.prev, q.rear, k + 1⟩)

/-! ## Places -/

namespace Worker

/-- In `pthread_cond_wait`. -/
def isAsleep : Worker α → Bool
  | .asleep => true
  | _ => false

/-- The next action reads or writes the pool. -/
def touches : Worker α → Bool
  | .unborn | .test | .check | .call _ | .running _ _ | .free _ | .ended => false
  | _ => true

end Worker

end OperatingSystem.Pool
