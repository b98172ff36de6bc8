import OperatingSystem.Lib.Mutex
import OperatingSystem.Lib.Run
import OperatingSystem.Lib.Tally
import OperatingSystem.Pool.Cases

/-!
# OperatingSystem.Pool.Invariant

What holds of the pool in every interleaving, apart from its queue: the locks are
held where the source stands between lock and unlock (`Locks`), the counters count
(`Counts`), and the phases of the caller bound those of the workers (`Phases`).
-/

namespace OperatingSystem.Pool

open Function Tally Mutex

variable {n : Nat} {α : Type}

/-! ## Places -/

namespace Worker

/-- Counted in `num_threads_alive`. -/
def alive : Worker α → Nat
  | .unborn | .born | .release | .ended => 0
  | _ => 1

/-- Counted in `num_threads_working`. -/
def working : Worker α → Nat
  | .pull | .post _ | .unlock _ | .call _ | .running _ _ | .free _ | .leave => 1
  | _ => 0

def holdsRwmutex : Worker α → Bool
  | .post _ | .unlock _ => true
  | _ => false

def holdsThcount : Worker α → Bool
  | .announced | .release => true
  | _ => false

/-- Not in the loop of `thread_do` yet. -/
def isNew : Worker α → Bool
  | .unborn | .born => true
  | _ => false

/-- Behind the loop of `thread_do`. -/
def isLeaving : Worker α → Bool
  | .exit | .release | .ended => true
  | _ => false

end Worker

namespace Caller

def holdsRwmutex : Caller → Bool
  | .post | .unlock => true
  | _ => false

def holdsThcount : Caller → Bool
  | .waitLen | .waitWorking | .waitSleep | .waitDone => true
  | _ => false

/-- How many workers the loop of `thpool_init` has passed. -/
def passed (n : Nat) : Caller → Nat
  | .start | .refused => 0
  | .create k => k
  | _ => n

/-- `thpool_init` has returned the pool. -/
def hasPool : Caller → Bool
  | .start | .refused | .create _ | .spin => false
  | _ => true

/-- In `thpool_destroy`, or behind it. -/
def destroys : Caller → Bool
  | .poll _ | .postAll _ | .clear _ | .free _ | .destroyed => true
  | _ => false

/-- Behind the loops of `thpool_destroy`. -/
def cleansUp : Caller → Bool
  | .clear _ | .free _ | .destroyed => true
  | _ => false

/-- `threads_total`, in `thpool_destroy`. -/
def total : Caller → Option Int
  | .poll t | .postAll t | .clear t | .free t => some t
  | _ => none

end Caller

/-- The threads that hold `rwmutex`, by where they stand. -/
def Sys.holdsRwmutex (s : Sys n α) : Party n → Bool
  | .caller => s.caller.holdsRwmutex
  | .worker i => (s.worker i).holdsRwmutex

/-- The threads that hold `thcount_lock`, by where they stand. -/
def Sys.holdsThcount (s : Sys n α) : Party n → Bool
  | .caller => s.caller.holdsThcount
  | .worker i => (s.worker i).holdsThcount

/-! ## Invariants -/

/-- Each lock is held by the thread between its lock and its unlock. -/
structure Locks (s : Sys n α) : Prop where
  rwmutex : Guards s.pool.rwmutex s.holdsRwmutex
  thcount : Guards s.pool.thcountLock s.holdsThcount

/-- The counters are the numbers of the threads they are to count. -/
structure Counts (s : Sys n α) : Prop where
  alive : s.pool.numThreadsAlive = (total Worker.alive s.worker : Nat)
  working : s.pool.numThreadsWorking = (total Worker.working s.worker : Nat)

/-- How far the workers can be when the caller is where it is. -/
structure Phases (s : Sys n α) : Prop where
  keepalive : s.pool.threadsKeepalive = !s.caller.destroys
  loop : s.caller.destroys = false → ∀ i, (s.worker i).isLeaving = false
  unborn : ∀ i : Fin n, s.caller.passed n ≤ i → s.worker i = .unborn
  started : s.caller.hasPool = true → ∀ i, (s.worker i).isNew = false
  gone : s.caller.cleansUp = true → ∀ i, (s.worker i).alive = 0
  freed : s.pool.freed = true ↔ s.caller = .destroyed
  allocated : s.caller ≠ .destroyed → ∀ i : Fin n, (i : Nat) < s.caller.passed n → s.pool.threads i = true
  threadsTotal : ∀ t, s.caller.total = some t → t = n
  deallocated : s.caller = .destroyed → ∀ i, s.pool.threads i = false

/-! ## Signals

A worker that is woken holds what it held. -/

section Woken

variable {s s' : Sys n α}

theorem Woken.worker_eq {β : Type} (h : Woken s s') (f : Worker α → β) (hf : f .wait = f .asleep) (i : Fin n) :
    f (s'.worker i) = f (s.worker i) := by
  obtain hi | ⟨hasleep, hwait⟩ := h.worker i
  · rw [hi]
  · rw [hasleep, hwait, hf]

theorem Woken.caller_eq {β : Type} (h : Woken s s') (f : Caller → β) (hf : f .waitLock = f .waitAsleep) :
    f s'.caller = f s.caller := by
  obtain hc | ⟨hasleep, hlock⟩ := h.caller
  · rw [hc]
  · rw [hasleep, hlock, hf]

theorem Woken.total_eq {M : Type} [AddCommMonoid M] (h : Woken s s') (w : Worker α → M) (hw : w .wait = w .asleep) :
    total w s'.worker = total w s.worker := total_congr (h.worker_eq w hw)

theorem Locks.woken (h : Locks s) (hw : Woken s s') : Locks s' where
  rwmutex := by
    rw [hw.pool]
    refine h.rwmutex.keep fun t => ?_
    cases t with
    | caller => exact hw.caller_eq Caller.holdsRwmutex rfl
    | worker i => exact hw.worker_eq Worker.holdsRwmutex rfl i
  thcount := by
    rw [hw.pool]
    refine h.thcount.keep fun t => ?_
    cases t with
    | caller => exact hw.caller_eq Caller.holdsThcount rfl
    | worker i => exact hw.worker_eq Worker.holdsThcount rfl i

theorem Counts.woken (h : Counts s) (hw : Woken s s') : Counts s' where
  alive := by rw [hw.pool, hw.total_eq Worker.alive rfl, h.alive]
  working := by rw [hw.pool, hw.total_eq Worker.working rfl, h.working]

theorem Phases.woken (h : Phases s) (hw : Woken s s') : Phases s' where
  keepalive := by rw [hw.pool, hw.caller_eq Caller.destroys rfl, h.keepalive]
  loop hc i := by
    rw [hw.caller_eq Caller.destroys rfl] at hc
    rw [hw.worker_eq Worker.isLeaving rfl, h.loop hc i]
  unborn i hi := by
    rw [hw.caller_eq (Caller.passed n) rfl] at hi
    obtain heq | ⟨hasleep, -⟩ := hw.worker i
    · rw [heq, h.unborn i hi]
    · rw [h.unborn i hi] at hasleep
      cases hasleep
  started hc i := by
    rw [hw.caller_eq Caller.hasPool rfl] at hc
    rw [hw.worker_eq Worker.isNew rfl, h.started hc i]
  gone hc i := by
    rw [hw.caller_eq Caller.cleansUp rfl] at hc
    rw [hw.worker_eq Worker.alive rfl, h.gone hc i]
  freed := by rw [hw.pool, hw.caller_eq (· = Caller.destroyed) (by simp), h.freed]
  allocated hc i hi := by
    rw [hw.caller_eq (· ≠ Caller.destroyed) (by simp)] at hc
    rw [hw.caller_eq (Caller.passed n) rfl] at hi
    rw [hw.pool]
    exact h.allocated hc i hi
  threadsTotal t ht := by
    rw [hw.caller_eq Caller.total rfl] at ht
    exact h.threadsTotal t ht
  deallocated hc i := by
    rw [hw.caller_eq (· = Caller.destroyed) (by simp)] at hc
    rw [hw.pool]
    exact h.deallocated hc i

end Woken

/-! ## Actions -/

section Locks

variable {s : Sys n α} {pool pool' : Thpool n α} {i : Fin n} {w w' : Worker α} {c c' : Caller} {sig : Signal}

theorem ThreadDo.rwmutex (h : ThreadDo pool i w pool' w' sig) :
    Move (.worker i) pool.rwmutex w.holdsRwmutex pool'.rwmutex w'.holdsRwmutex := by
  cases h with
  | pullMore hlock | pull hlock =>
      rw [hlock]
      exact .acquire
  | unlock => exact .release
  | _ => exact .keep

theorem ThreadDo.thcount (h : ThreadDo pool i w pool' w' sig) :
    Move (.worker i) pool.thcountLock w.holdsThcount pool'.thcountLock w'.holdsThcount := by
  cases h with
  | born hlock | exit hlock =>
      rw [hlock]
      exact .acquire
  | announced | release => exact .release
  | _ => exact .keep

theorem CallerDo.rwmutex (h : CallerDo pool c pool' c' sig) :
    Move .caller pool.rwmutex c.holdsRwmutex pool'.rwmutex c'.holdsRwmutex := by
  cases h with
  | push hlock =>
      rw [hlock]
      exact .acquire
  | unlock => exact .release
  | _ => exact .keep

theorem CallerDo.thcount (h : CallerDo pool c pool' c' sig) :
    Move .caller pool.thcountLock c.holdsThcount pool'.thcountLock c'.holdsThcount := by
  cases h with
  | waitLock hlock =>
      rw [hlock]
      exact .acquire
  | sleep | done => exact .release
  | _ => exact .keep

theorem Locks.worker (h : Locks s) (hdo : ThreadDo s.pool i (s.worker i) pool w sig) :
    Locks { s with pool := pool, worker := update s.worker i w } where
  rwmutex := by
    refine h.rwmutex.move (t := .worker i) (by simpa [Sys.holdsRwmutex] using hdo.rwmutex) fun t ht => ?_
    cases t with
    | caller => rfl
    | worker j => simp [Sys.holdsRwmutex, update_of_ne fun hji => ht (congrArg _ hji)]
  thcount := by
    refine h.thcount.move (t := .worker i) (by simpa [Sys.holdsThcount] using hdo.thcount) fun t ht => ?_
    cases t with
    | caller => rfl
    | worker j => simp [Sys.holdsThcount, update_of_ne fun hji => ht (congrArg _ hji)]

theorem Locks.caller (h : Locks s) (hdo : CallerDo s.pool s.caller pool c sig) :
    Locks { s with pool := pool, caller := c } where
  rwmutex := by
    refine h.rwmutex.move (t := .caller) hdo.rwmutex fun t ht => ?_
    cases t with
    | caller => contradiction
    | worker j => rfl
  thcount := by
    refine h.thcount.move (t := .caller) hdo.thcount fun t ht => ?_
    cases t with
    | caller => contradiction
    | worker j => rfl

/-- Moves of the caller outside the library's functions. -/
theorem Locks.call (h : Locks s) (hrw : pool.rwmutex = s.pool.rwmutex) (hth : pool.thcountLock = s.pool.thcountLock)
    (hc : c.holdsRwmutex = s.caller.holdsRwmutex) (hc' : c.holdsThcount = s.caller.holdsThcount) :
    Locks { s with pool := pool, caller := c } where
  rwmutex := by
    refine hrw ▸ h.rwmutex.keep fun t => ?_
    cases t with
    | caller => exact hc
    | worker j => rfl
  thcount := by
    refine hth ▸ h.thcount.keep fun t => ?_
    cases t with
    | caller => exact hc'
    | worker j => rfl

end Locks

section Counts

variable {s : Sys n α} {pool pool' : Thpool n α} {i : Fin n} {w w' : Worker α} {c c' : Caller} {sig : Signal}

theorem ThreadDo.alive (h : ThreadDo pool i w pool' w' sig) :
    pool'.numThreadsAlive + w.alive = pool.numThreadsAlive + w'.alive := by
  cases h <;> simp [Worker.alive]

theorem ThreadDo.working (h : ThreadDo pool i w pool' w' sig) :
    pool'.numThreadsWorking + w.working = pool.numThreadsWorking + w'.working := by
  cases h <;> simp [Worker.working]

theorem CallerDo.counters (h : CallerDo pool c pool' c' sig) :
    pool'.numThreadsAlive = pool.numThreadsAlive ∧ pool'.numThreadsWorking = pool.numThreadsWorking := by
  cases h <;> exact ⟨rfl, rfl⟩

theorem Counts.worker (h : Counts s) (hdo : ThreadDo s.pool i (s.worker i) pool w sig) :
    Counts { s with pool := pool, worker := update s.worker i w } where
  alive := by
    have hsum := total_update Worker.alive s.worker i w
    have hstep := hdo.alive
    have hcount := h.alive
    simp only at hsum ⊢
    omega
  working := by
    have hsum := total_update Worker.working s.worker i w
    have hstep := hdo.working
    have hcount := h.working
    simp only at hsum ⊢
    omega

theorem Counts.caller (h : Counts s) (hdo : CallerDo s.pool s.caller pool c sig) :
    Counts { s with pool := pool, caller := c } where
  alive := hdo.counters.1.trans h.alive
  working := hdo.counters.2.trans h.working

end Counts

section Phases

variable {s : Sys n α} {pool pool' : Thpool n α} {i : Fin n} {w w' : Worker α} {c c' : Caller} {sig : Signal}

theorem ThreadDo.frame (h : ThreadDo pool i w pool' w' sig) :
    pool'.threadsKeepalive = pool.threadsKeepalive ∧ pool'.threads = pool.threads ∧ pool'.freed = pool.freed := by
  cases h <;> exact ⟨rfl, rfl, rfl⟩

theorem ThreadDo.isLeaving (h : ThreadDo pool i w pool' w' sig) (hkeep : pool.threadsKeepalive = true)
    (hw : w.isLeaving = false) : w'.isLeaving = false := by
  cases h with
  | quit hnot => simp [hkeep] at hnot
  | exit | release => cases hw
  | _ => rfl

theorem ThreadDo.isNew (h : ThreadDo pool i w pool' w' sig) : w'.isNew = false ∧ w ≠ .unborn := by
  cases h <;> simp [Worker.isNew]

/-- A worker that is not counted, and has been, is on its way out. -/
theorem ThreadDo.gone (h : ThreadDo pool i w pool' w' sig) (hw : w.alive = 0) (hnew : w.isNew = false) : w'.alive = 0 := by
  cases h with
  | born => cases hnew
  | release => rfl
  | _ => cases hw

theorem Worker.alive_le_one (w : Worker α) : w.alive ≤ 1 := by
  cases w <;> simp [Worker.alive]

theorem Worker.isNew_of_alive (h : w.alive = 1) : w.isNew = false := by
  cases w with
  | unborn | born => cases h
  | _ => rfl

theorem Caller.hasPool_of_cleansUp (h : c.cleansUp = true) : c.hasPool = true := by
  cases c with
  | clear | free | destroyed => rfl
  | _ => cases h

/-- Between the start and the end of `thread_do`'s loop. -/
theorem Worker.alive_of_loop (hnew : w.isNew = false) (hleave : w.isLeaving = false) : w.alive = 1 := by
  cases w with
  | unborn | born => cases hnew
  | exit | release | ended => cases hleave
  | _ => rfl

theorem Phases.worker (h : Phases s) (hdo : ThreadDo s.pool i (s.worker i) pool w sig) :
    Phases { s with pool := pool, worker := update s.worker i w } where
  keepalive := hdo.frame.1.trans h.keepalive
  loop hc := by
    have hkeep : s.pool.threadsKeepalive = true := by
      rw [h.keepalive]
      simpa using hc
    exact (forall_update_iff s.worker fun _ u => u.isLeaving = false).mpr
      ⟨hdo.isLeaving hkeep (h.loop hc i), fun j _ => h.loop hc j⟩
  unborn := by
    refine (forall_update_iff s.worker fun j u => s.caller.passed n ≤ j → u = .unborn).mpr ⟨fun hi => ?_, fun j _ => h.unborn j⟩
    exact absurd (h.unborn i hi) hdo.isNew.2
  started hc := (forall_update_iff s.worker fun _ u => u.isNew = false).mpr ⟨hdo.isNew.1, fun j _ => h.started hc j⟩
  gone hc := (forall_update_iff s.worker fun _ u => u.alive = 0).mpr
    ⟨hdo.gone (h.gone hc i) (h.started (Caller.hasPool_of_cleansUp hc) i), fun j _ => h.gone hc j⟩
  freed := by
    rw [hdo.frame.2.2]
    exact h.freed
  allocated hc j hj := by
    rw [hdo.frame.2.1]
    exact h.allocated hc j hj
  threadsTotal := h.threadsTotal
  deallocated hc j := by
    rw [hdo.frame.2.1]
    exact h.deallocated hc j

theorem CallerDo.keepalive (h : CallerDo pool c pool' c' sig) :
    pool'.threadsKeepalive = pool.threadsKeepalive ∧ c'.destroys = c.destroys := by
  cases h <;> exact ⟨rfl, rfl⟩

theorem CallerDo.passed (h : CallerDo pool c pool' c' sig) : c.passed n = n ∧ c'.passed n = n := by
  cases h <;> exact ⟨rfl, rfl⟩

theorem CallerDo.hasPool (h : CallerDo pool c pool' c' sig) :
    c'.hasPool = true ∧ (c.hasPool = true ∨ pool.numThreadsAlive = n) := by
  cases h with
  | spin halive => exact ⟨rfl, .inr halive⟩
  | _ => exact ⟨rfl, .inl rfl⟩

theorem CallerDo.cleansUp (h : CallerDo pool c pool' c' sig) (hc : c'.cleansUp = true) :
    c.cleansUp = true ∨ pool.numThreadsAlive = 0 := by
  cases h with
  | noneAlive halive => exact .inr halive
  | cleared | clearNone | clear | free => exact .inl rfl
  | _ => cases hc

/-- The blocks are freed in the last action, and kept in all others. -/
theorem CallerDo.blocks (h : CallerDo pool c pool' c' sig) :
    c ≠ .destroyed ∧
      (pool'.freed = pool.freed ∧ pool'.threads = pool.threads ∧ c' ≠ .destroyed ∧ (∀ t, c'.total = some t → c.total = some t) ∨
        ∃ t, c = .free t ∧ c' = .destroyed ∧ pool'.freed = true ∧
          pool'.threads = fun i => pool.threads i && decide (t ≤ (i.val : Int))) := by
  cases h with
  | free => exact ⟨by simp, .inr ⟨_, rfl, rfl, rfl, rfl⟩⟩
  | _ => exact ⟨by simp, .inl ⟨rfl, rfl, by simp, by simp [Caller.total]⟩⟩

theorem Phases.caller (h : Phases s) (hcounts : Counts s) (hdo : CallerDo s.pool s.caller pool c sig) :
    Phases { s with pool := pool, caller := c } where
  keepalive := by
    rw [hdo.keepalive.1, hdo.keepalive.2]
    exact h.keepalive
  loop hc := h.loop (hdo.keepalive.2.symm.trans hc)
  unborn j hj := by
    have hpassed : c.passed n ≤ j := hj
    have hn := hdo.passed.2
    omega
  started _ j := by
    obtain hpool | halive := hdo.hasPool.2
    · exact h.started hpool j
    · have hall : total Worker.alive s.worker = Fintype.card (Fin n) := by
        have := hcounts.alive
        simp only [Fintype.card_fin]
        omega
      exact Worker.isNew_of_alive ((total_eq_card Worker.alive_le_one).mp hall j)
  gone hc j := by
    obtain hclean | halive := hdo.cleansUp hc
    · exact h.gone hclean j
    · have hnone : total Worker.alive s.worker = 0 := by
        have := hcounts.alive
        omega
      exact total_eq_zero.mp hnone j
  freed := by
    obtain ⟨hc, ⟨hfreed, -, hc', -⟩ | ⟨t, -, hc', hfreed, -⟩⟩ := hdo.blocks
    · rw [hfreed, h.freed]
      simp [hc, hc']
    · simp [hfreed, hc']
  allocated hc j hj := by
    obtain ⟨hnot, ⟨-, hthreads, -, -⟩ | ⟨t, -, hc', -, -⟩⟩ := hdo.blocks
    · rw [hthreads]
      exact h.allocated hnot j (by rw [hdo.passed.1]; exact j.isLt)
    · exact absurd hc' hc
  threadsTotal t ht := by
    obtain ⟨-, ⟨-, -, -, htotal⟩ | ⟨u, -, hc', -, -⟩⟩ := hdo.blocks
    · exact h.threadsTotal t (htotal t ht)
    · simp [hc', Caller.total] at ht
  deallocated hc j := by
    obtain ⟨-, ⟨-, -, hc', -⟩ | ⟨t, hfree, -, -, hthreads⟩⟩ := hdo.blocks
    · exact absurd hc hc'
    · have ht : t = n := h.threadsTotal t (by rw [hfree]; rfl)
      have := j.isLt
      simp [hthreads, ht]

end Phases

/-! ## Runs -/

/-- The invariants that need no knowledge of the queue. -/
structure Base (s : Sys n α) : Prop where
  locks : Locks s
  counts : Counts s
  phases : Phases s

section Base

variable {s s' : Sys n α} {e : Event n α}

theorem Base.start : Base (Sys.start n α) where
  locks := {
    rwmutex := guards_none.keep fun t => by cases t <;> rfl
    thcount := guards_none.keep fun t => by cases t <;> rfl }
  counts := {
    alive := congrArg Nat.cast (total_zero fun _ => rfl).symm
    working := congrArg Nat.cast (total_zero fun _ => rfl).symm }
  phases := {
    keepalive := rfl
    loop := fun _ _ => rfl
    unborn := fun _ _ => rfl
    started := fun h => by cases h
    gone := fun h => by cases h
    freed := by simp [Sys.start]
    allocated := fun _ i hi => by cases hi
    threadsTotal := fun t ht => by cases ht
    deallocated := fun h => by cases h }

theorem Base.woken (h : Base s) (hw : Woken s s') : Base s' := ⟨h.locks.woken hw, h.counts.woken hw, h.phases.woken hw⟩

/-- Moves of the caller that change neither the workers nor the state its phases
depend on. -/
theorem Phases.call {pool : Thpool n α} {c : Caller} (h : Phases s) (hpool : pool.threadsKeepalive = !c.destroys)
    (hthreads : pool.threads = s.pool.threads) (hfreed : pool.freed = s.pool.freed)
    (hc : c.destroys = false → s.caller.destroys = false) (hpassed : ∀ i : Fin n, (i : Nat) < c.passed n ↔ (i : Nat) < s.caller.passed n)
    (hhas : c.hasPool = s.caller.hasPool) (hnot : c ≠ .destroyed ∧ s.caller ≠ .destroyed) (hclean : c.cleansUp = false)
    (htotal : ∀ t, c.total = some t → t = n) : Phases { s with pool := pool, caller := c } where
  keepalive := hpool
  loop hd := h.loop (hc hd)
  unborn i hi := h.unborn i (Nat.le_of_not_lt fun hlt => Nat.not_lt.mpr hi ((hpassed i).mpr hlt))
  started hs := h.started (hhas ▸ hs)
  gone hg := by simp [hclean] at hg
  freed := by
    have := h.freed
    simp [hfreed, this, hnot]
  allocated _ i hi := by
    rw [hthreads]
    exact h.allocated hnot.2 i ((hpassed i).mp hi)
  threadsTotal := htotal
  deallocated hd := absurd hd hnot.1

/-- `pthread_create`, whether it succeeds or not. -/
theorem create_worker {f : Fin n → Worker α} {i : Fin n} (ok : Bool) (hi : f i = .unborn) (j : Fin n) :
    (if ok then update f i .born else f) j = f j ∨
      j = i ∧ (if ok then update f i .born else f) j = .born ∧ f j = .unborn := by
  cases ok with
  | false => exact .inl rfl
  | true =>
      by_cases hj : j = i
      · subst hj
        exact .inr ⟨rfl, update_self .., hi⟩
      · exact .inl (update_of_ne hj ..)

/-- Creating worker `k`. -/
theorem Base.create (h : Base s) (ok : Bool) (hc : s.caller = .create k) (hk : k < n) :
    Base { s with
      pool := { s.pool with threads := update s.pool.threads ⟨k, hk⟩ true }
      caller := .create (k + 1)
      worker := if ok then update s.worker ⟨k, hk⟩ .born else s.worker } := by
  have hworker := create_worker ok (h.phases.unborn ⟨k, hk⟩ (by simp [hc, Caller.passed]))
  -- nothing the invariants look at tells `born` from `unborn`
  have heq : ∀ {β : Type} (f : Worker α → β), f .born = f .unborn →
      ∀ j, f ((if ok then update s.worker ⟨k, hk⟩ .born else s.worker) j) = f (s.worker j) := by
    intro β f hf j
    obtain hj | ⟨-, hborn, hold⟩ := hworker j
    · rw [hj]
    · rw [hborn, hold, hf]
  refine ⟨⟨?_, ?_⟩, ⟨?_, ?_⟩, ?_⟩
  · refine h.locks.rwmutex.keep fun t => ?_
    cases t with
    | caller => simp [Sys.holdsRwmutex, hc, Caller.holdsRwmutex]
    | worker j => exact heq Worker.holdsRwmutex rfl j
  · refine h.locks.thcount.keep fun t => ?_
    cases t with
    | caller => simp [Sys.holdsThcount, hc, Caller.holdsThcount]
    | worker j => exact heq Worker.holdsThcount rfl j
  · rw [total_congr (heq Worker.alive rfl)]
    exact h.counts.alive
  · rw [total_congr (heq Worker.working rfl)]
    exact h.counts.working
  · refine ⟨?_, ?_, ?_, ?_, ?_, ?_, ?_, ?_, ?_⟩
    · simpa [hc, Caller.destroys] using h.phases.keepalive
    · exact fun _ j => (heq Worker.isLeaving rfl j).trans (h.phases.loop (by simp [hc, Caller.destroys]) j)
    · intro j hj
      have hkj : k + 1 ≤ j := hj
      obtain hj | ⟨rfl, -⟩ := hworker j
      · exact hj.trans (h.phases.unborn j (by simp only [hc, Caller.passed]; omega))
      · simp at hkj
    · exact fun hnot => by cases hnot
    · exact fun hnot => by cases hnot
    · simpa [hc] using h.phases.freed
    · intro _ j hj
      have hkj : (j : Nat) < k + 1 := hj
      by_cases hjk : j = ⟨k, hk⟩
      · subst hjk
        exact update_self ..
      · have hne : (j : Nat) ≠ k := fun hval => hjk (Fin.ext hval)
        exact (update_of_ne hjk ..).trans (h.phases.allocated (by simp [hc]) j (by simp only [hc, Caller.passed]; omega))
    · exact fun t ht => by cases ht
    · exact fun hnot => by cases hnot

/-- **Every event keeps the base invariants.** -/
theorem Base.step (h : Base s) (hstep : Step s e s') : Base s' := by
  have hkeep := h.phases.keepalive
  cases hstep with
  | init hc | refuse hc =>
      refine ⟨h.locks.call rfl rfl (by simp [hc, Caller.holdsRwmutex]) (by simp [hc, Caller.holdsThcount]), ⟨h.counts.1, h.counts.2⟩, ?_⟩
      exact h.phases.call (by simpa [hc, Caller.destroys] using hkeep) rfl rfl (by simp [hc, Caller.destroys])
        (by simp [hc, Caller.passed]) (by simp [hc, Caller.hasPool]) (by simp [hc]) rfl (by simp [Caller.total])
  | create ok hc hk => exact h.create ok hc hk
  | created ok hc hk =>
      refine ⟨h.locks.call rfl rfl (by simp [hc, Caller.holdsRwmutex]) (by simp [hc, Caller.holdsThcount]), ⟨h.counts.1, h.counts.2⟩, ?_⟩
      exact h.phases.call (by simpa [hc, Caller.destroys] using hkeep) rfl rfl (by simp [hc, Caller.destroys])
        (fun i => by have := i.isLt; simp [hc, Caller.passed]; omega) (by simp [hc, Caller.hasPool]) (by simp [hc]) rfl
        (by simp [Caller.total])
  | addFailed => exact h
  | add x prev hc | wait hc =>
      refine ⟨h.locks.call rfl rfl (by simp [hc, Caller.holdsRwmutex]) (by simp [hc, Caller.holdsThcount]), ⟨h.counts.1, h.counts.2⟩, ?_⟩
      exact h.phases.call (by simpa [hc, Caller.destroys] using hkeep) rfl rfl (by simp [hc, Caller.destroys])
        (by simp [hc, Caller.passed]) (by simp [hc, Caller.hasPool]) (by simp [hc]) rfl (by simp [Caller.total])
  | destroy hc =>
      refine ⟨h.locks.call rfl rfl (by simp [hc, Caller.holdsRwmutex]) (by simp [hc, Caller.holdsThcount]), ⟨h.counts.1, h.counts.2⟩, ?_⟩
      refine h.phases.call (by simp [Caller.destroys]) rfl rfl (by simp [hc, Caller.destroys])
        (by simp [hc, Caller.passed]) (by simp [hc, Caller.hasPool]) (by simp [hc]) rfl fun t ht => ?_
      -- all workers are in their loops: none is new, none has left
      have hall : total Worker.alive s.worker = Fintype.card (Fin n) := (total_eq_card Worker.alive_le_one).mpr fun i =>
        Worker.alive_of_loop (h.phases.started (by simp [hc, Caller.hasPool]) i) (h.phases.loop (by simp [hc, Caller.destroys]) i)
      have halive := h.counts.alive
      have htotal : s.pool.numThreadsAlive = t := by simpa [Caller.total] using ht
      simp only [Fintype.card_fin] at hall
      omega
  | caller hdo hsig =>
      have hmid : Base { s with pool := _, caller := _ } :=
        ⟨h.locks.caller hdo, h.counts.caller hdo, h.phases.caller h.counts hdo⟩
      exact hmid.woken (signal_woken hsig)
  | worker hsafe hdo hsig =>
      have hmid : Base { s with pool := _, worker := _ } := ⟨h.locks.worker hdo, h.counts.worker hdo, h.phases.worker hdo⟩
      exact hmid.woken (signal_woken hsig)
  | wake hi => exact h.woken (woken_update hi)
  | wakeCaller hc => exact h.woken ⟨rfl, fun _ => .inl rfl, .inr ⟨hc, rfl⟩⟩

end Base

end OperatingSystem.Pool
