import OperatingSystem.Pool.Jobs

/-!
# OperatingSystem.Pool.Wakeup

No wakeup is lost.  Behind a queue that is not empty there is always a token: the
semaphore is posted, or is about to be, or a worker has taken it and is on its way
to the queue.  A posted semaphore finds a worker that will look at it, and behind
a caller that sleeps in `thpool_wait` there is work left whose end signals it.
-/

namespace OperatingSystem.Pool

open Function Tally

variable {n : Nat} {α : Type}

/-- On the way from the semaphore to the queue, or about to post it again. -/
def Worker.isComing : Worker α → Bool
  | .check | .enter | .pull | .post _ => true
  | _ => false

/-- Waiting for `threads_all_idle`, or about to. -/
def Caller.sleeps : Caller → Bool
  | .waitSleep | .waitAsleep => true
  | _ => false

/-- A posted semaphore is seen: a worker is about to look at it, or none sleeps. -/
def Seen (s : Sys n α) : Prop :=
  s.pool.hasJobs = true → (∃ i, s.worker i = .wait) ∨ ∀ i, (s.worker i).isAsleep = false

/-- There is a token for the queue. -/
structure Wakeup (s : Sys n α) : Prop where
  seen : Seen s
  token : 0 < s.pool.jobqueue.len → s.caller.destroys = false →
    s.pool.hasJobs = true ∨ s.caller = .post ∨ ∃ i, (s.worker i).isComing = true
  sleeper : s.caller.sleeps = true → 0 < s.pool.jobqueue.len ∨ 0 < total Worker.working s.worker
  undropped : s.caller.cleansUp = false → s.pool.dropped = []

section Signals

variable {s s' : Sys n α} {chosen : Option (Fin n)} {sig : Signal}

theorem Seen.woken (h : Seen s) (hw : Woken s s') : Seen s' := by
  intro hv
  rw [hw.pool] at hv
  obtain ⟨i, hi⟩ | hnone := h hv
  · refine .inl ⟨i, ?_⟩
    obtain heq | ⟨-, hwait⟩ := hw.worker i
    · rw [heq, hi]
    · exact hwait
  · refine .inr fun i => ?_
    obtain heq | ⟨hasleep, -⟩ := hw.worker i
    · rw [heq, hnone i]
    · have := hnone i
      rw [hasleep] at this
      cases this

theorem Wakeup.woken (h : Wakeup s) (hw : Woken s s') : Wakeup s' where
  seen := h.seen.woken hw
  token hlen hc := by
    rw [hw.pool] at hlen ⊢
    rw [hw.caller_eq Caller.destroys rfl] at hc
    obtain hv | hpost | ⟨i, hi⟩ := h.token hlen hc
    · exact .inl hv
    · exact .inr (.inl ((hw.caller_eq (· = Caller.post) (by simp)).mpr hpost))
    · exact .inr (.inr ⟨i, by rw [hw.worker_eq Worker.isComing rfl, hi]⟩)
  sleeper hc := by
    rw [hw.pool, hw.total_eq Worker.working rfl]
    refine h.sleeper ?_
    obtain heq | ⟨hasleep, -⟩ := hw.caller
    · rw [← heq, hc]
    · rw [hasleep]
      rfl
  undropped hc := by
    rw [hw.caller_eq Caller.cleansUp rfl] at hc
    rw [hw.pool, h.undropped hc]

/-- A post is seen. -/
theorem seen_of_post (h : signal s chosen .hasJobs = .ok s') : Seen s' := by
  intro _
  simp only [signal] at h
  split at h
  · rename_i j
    split at h <;> cases h
    exact .inl ⟨j, update_self ..⟩
  · rename_i hnone
    split at h <;> cases h
    exact .inr ‹_›

theorem seen_of_postAll (h : signal s chosen .hasJobsAll = .ok s') : Seen s' := by
  intro _
  cases h
  refine .inr fun i => ?_
  by_cases hi : (s.worker i).isAsleep = true
  · exact congrArg Worker.isAsleep (if_pos hi)
  · exact (congrArg Worker.isAsleep (if_neg hi)).trans (by simpa using hi)

end Signals

section Steps

variable {s s' : Sys n α} {pool pool' : Thpool n α} {i : Fin n} {w w' : Worker α} {c c' : Caller}
  {chosen : Option (Fin n)} {sig : Signal}

/-- A worker that does not post leaves a posted semaphore to the others. -/
theorem ThreadDo.seen (h : ThreadDo pool i w pool' w' sig) (hsig : sig ≠ .hasJobs) (hv : pool'.hasJobs = true) :
    pool.hasJobs = true ∧ w ≠ .wait ∧ w'.isAsleep = false := by
  cases h with
  | take => cases hv
  | sleep hnot => simp [hv] at hnot
  | post => exact absurd rfl hsig
  | _ => exact ⟨hv, by simp, rfl⟩

theorem Seen.worker (h : Seen s) (hdo : ThreadDo s.pool i (s.worker i) pool w sig)
    (hsig : signal { s with pool := pool, worker := update s.worker i w } chosen sig = .ok s') : Seen s' := by
  by_cases hpost : sig = .hasJobs
  · subst hpost
    exact seen_of_post hsig
  refine Seen.woken (s := { s with pool := pool, worker := update s.worker i w }) (fun hv => ?_) (signal_woken hsig)
  obtain ⟨hold, hnot, hawake⟩ := hdo.seen hpost hv
  obtain ⟨j, hj⟩ | hnone := h hold
  · have hne : j ≠ i := by
      rintro rfl
      exact hnot hj
    exact .inl ⟨j, (update_of_ne hne ..).trans hj⟩
  · exact .inr ((forall_update_iff s.worker fun _ u => u.isAsleep = false).mpr ⟨hawake, fun j _ => hnone j⟩)

theorem CallerDo.seen (h : CallerDo pool c pool' c' sig) (hsig : sig ≠ .hasJobs) (hall : sig ≠ .hasJobsAll)
    (hv : pool'.hasJobs = true) : pool.hasJobs = true := by
  cases h with
  | post => exact absurd rfl hsig
  | postAll => exact absurd rfl hall
  | cleared => cases hv
  | @clearNone more | @clear _ more =>
      cases more with
      | true => exact absurd rfl hsig
      | false => simpa using hv
  | _ => exact hv

theorem Seen.caller (h : Seen s) (hdo : CallerDo s.pool s.caller pool c sig)
    (hsig : signal { s with pool := pool, caller := c } chosen sig = .ok s') : Seen s' := by
  by_cases hpost : sig = .hasJobs
  · subst hpost
    exact seen_of_post hsig
  by_cases hall : sig = .hasJobsAll
  · subst hall
    exact seen_of_postAll hsig
  exact Seen.woken (s := { s with pool := pool, caller := c }) (fun hv => h (hdo.seen hpost hall hv)) (signal_woken hsig)

/-- What a worker that lets go of the token leaves behind it: a posted semaphore,
a worker that has the token, or an empty queue. -/
theorem ThreadDo.token {l : List Nat} (h : ThreadDo pool i w pool' w' sig) (hq : IsQueue pool.memory pool.jobqueue l)
    (hkeep : pool.threadsKeepalive = true) (hlen : 0 < pool'.jobqueue.len) :
    pool'.hasJobs = true ∨ w'.isComing = true ∨
      0 < pool.jobqueue.len ∧ w.isComing = false ∧ pool.hasJobs = false := by
  cases hv : pool'.hasJobs with
  | true => exact .inl rfl
  | false =>
      refine .inr ?_
      cases h with
      | take | pass | enter | pullMore => exact .inl rfl
      | skip hnot => simp [hkeep] at hnot
      | @pull job more q hlock hpull hmore =>
          obtain ⟨q', hspec, hqueue⟩ := jobqueuePull_spec hq
          obtain ⟨rfl, rfl, rfl⟩ : l.head? = job ∧ decide (2 ≤ l.length) = more ∧ q' = q := by
            simpa using hspec.symm.trans hpull
          -- a pull that does not post leaves nothing behind
          have hshort : ¬ 2 ≤ l.length := fun htwo => by
            have hnil := List.head?_eq_none_iff.mp (hmore (decide_eq_true htwo))
            simp [hnil] at htwo
          have hrest : 0 < l.tail.length := hqueue.len ▸ hlen
          rw [List.length_tail] at hrest
          omega
      | post => cases hv
      | _ => exact .inr ⟨hlen, rfl, hv⟩

/-- A pull leaves its worker counted as working. -/
theorem ThreadDo.busy (h : ThreadDo pool i w pool' w' sig) (hlen : 0 < pool.jobqueue.len) :
    0 < pool'.jobqueue.len ∨ 0 < w'.working := by
  cases h with
  | pullMore | pull => exact .inr Nat.one_pos
  | _ => exact .inl hlen

theorem ThreadDo.leave_signal (h : ThreadDo pool i w pool' w' sig) (hdown : w'.working < w.working) :
    pool.thcountLock = none ∧ (pool'.numThreadsWorking = 0 → sig = .allIdle) := by
  cases h with
  | leave hlock => exact ⟨hlock, fun hzero => if_pos hzero⟩
  | _ => simp [Worker.working] at hdown

theorem ThreadDo.dropped (h : ThreadDo pool i w pool' w' sig) : pool'.dropped = pool.dropped := by
  cases h <;> rfl

theorem Wakeup.worker {as : List α} {l : List Nat} (h : Wakeup s) (hbase : Base s) (hjobs : Jobs as l s)
    (hdo : ThreadDo s.pool i (s.worker i) pool w sig)
    (hsig : signal { s with pool := pool, worker := update s.worker i w } chosen sig = .ok s') : Wakeup s' := by
  have hw := signal_woken hsig
  have hmid : Base { s with pool := pool, worker := update s.worker i w } :=
    ⟨hbase.locks.worker hdo, hbase.counts.worker hdo, hbase.phases.worker hdo⟩
  refine ⟨h.seen.worker hdo hsig, fun hlen hc => ?_, fun hc => ?_, fun hc => ?_⟩
  · rw [hw.caller_eq Caller.destroys rfl] at hc
    rw [hw.pool] at hlen ⊢
    have hkeep : s.pool.threadsKeepalive = true := by
      rw [hbase.phases.keepalive]
      simpa using hc
    obtain hv | hcoming | ⟨hold, hnot, hv⟩ := hdo.token hjobs.queue hkeep hlen
    · exact .inl hv
    · exact .inr (.inr ⟨i, (hw.worker_eq Worker.isComing rfl i).trans (by simpa using hcoming)⟩)
    · obtain hv' | hpost | ⟨j, hj⟩ := h.token hold hc
      · rw [hv] at hv'
        cases hv'
      · exact .inr (.inl ((hw.caller_eq (· = Caller.post) (by simp)).mpr hpost))
      · have hne : j ≠ i := by
          rintro rfl
          rw [hnot] at hj
          cases hj
        exact .inr (.inr ⟨j, (hw.worker_eq Worker.isComing rfl j).trans (by simpa [hne] using hj)⟩)
  · -- the caller sleeps, and was not woken
    have hsleeps : s.caller.sleeps = true := by
      obtain heq | ⟨hasleep, hlock⟩ := hw.caller
      · rwa [heq] at hc
      · rw [hlock] at hc
        cases hc
    rw [hw.pool, hw.total_eq Worker.working rfl]
    have hsum := total_update Worker.working s.worker i w
    by_cases hdown : w.working < (s.worker i).working
    · obtain ⟨hfree, hallIdle⟩ := hdo.leave_signal hdown
      by_cases hzero : pool.numThreadsWorking = 0
      · -- the last to leave signals; the caller cannot be before its `pthread_cond_wait`
        rw [hallIdle hzero] at hsig
        cases hsig
        have hnot : s.caller.holdsThcount = false := by
          have := hfree ▸ hbase.locks.thcount
          exact this.of_none .caller
        cases hcaller : s.caller with
        | waitSleep =>
            rw [hcaller] at hnot
            cases hnot
        | waitAsleep =>
            simp [hcaller] at hc
            cases hc
        | _ =>
            rw [hcaller] at hsleeps
            cases hsleeps
      · have hcount : pool.numThreadsWorking = (total Worker.working (update s.worker i w) : Nat) := hmid.counts.working
        exact .inr (by simp only; omega)
    · obtain hlen | hbusy := h.sleeper hsleeps
      · obtain hlen | hworking := hdo.busy hlen
        · exact .inl hlen
        · refine .inr ?_
          have := le_total Worker.working (update s.worker i w) i
          rw [update_self] at this
          exact Nat.lt_of_lt_of_le hworking this
      · exact .inr (by simp only; omega)
  · rw [hw.caller_eq Caller.cleansUp rfl] at hc
    rw [hw.pool, hdo.dropped, h.undropped hc]

/-- What the caller does to the queue and to the token. -/
theorem CallerDo.token (h : CallerDo pool c pool' c' sig) (hc : c'.destroys = false) :
    c.destroys = false ∧
      (c' = .post ∨ pool'.hasJobs = true ∨ c ≠ .post ∧ pool'.jobqueue = pool.jobqueue ∧ pool'.hasJobs = pool.hasJobs) := by
  cases h with
  | push => exact ⟨rfl, .inl rfl⟩
  | post => exact ⟨rfl, .inr (.inl rfl)⟩
  | noneAlive | someAlive | postAll | cleared | clearNone | clear | free => cases hc
  | _ => exact ⟨rfl, .inr (.inr ⟨by simp, rfl, rfl⟩)⟩

theorem CallerDo.dropped (h : CallerDo pool c pool' c' sig) (hc : c'.cleansUp = false) :
    c.cleansUp = false ∧ pool'.dropped = pool.dropped := by
  cases h with
  | noneAlive | cleared | clearNone | clear | free => cases hc
  | _ => exact ⟨rfl, rfl⟩

theorem CallerDo.sleeps (h : CallerDo pool c pool' c' sig) (hc : c'.sleeps = true) :
    (c.sleeps = true ∨ 0 < pool.jobqueue.len ∨ pool.numThreadsWorking ≠ 0) ∧ pool'.jobqueue = pool.jobqueue := by
  cases h with
  | jobs hlen => exact ⟨.inr (.inl (Nat.pos_of_ne_zero hlen)), rfl⟩
  | someWorking hworking => exact ⟨.inr (.inr hworking), rfl⟩
  | sleep => exact ⟨.inl rfl, rfl⟩
  | _ => cases hc

theorem Wakeup.caller (h : Wakeup s) (hbase : Base s) (hdo : CallerDo s.pool s.caller pool c sig)
    (hsig : signal { s with pool := pool, caller := c } chosen sig = .ok s') : Wakeup s' := by
  have hw := signal_woken hsig
  refine ⟨h.seen.caller hdo hsig, fun hlen hc => ?_, fun hc => ?_, fun hc => ?_⟩
  · rw [hw.caller_eq Caller.destroys rfl] at hc
    rw [hw.pool] at hlen ⊢
    obtain ⟨hold, hpost | hv | ⟨hnot, hq, hv⟩⟩ := hdo.token hc
    · exact .inr (.inl ((hw.caller_eq (· = Caller.post) (by simp)).mpr hpost))
    · exact .inl hv
    · obtain hv' | hpost | ⟨i, hi⟩ := h.token (hq ▸ hlen) hold
      · exact .inl (hv.trans hv')
      · exact absurd hpost hnot
      · exact .inr (.inr ⟨i, by rw [hw.worker_eq Worker.isComing rfl, hi]⟩)
  · have hsleeps : c.sleeps = true := by
      obtain heq | ⟨-, hlock⟩ := hw.caller
      · rwa [heq] at hc
      · rw [hlock] at hc
        cases hc
    rw [hw.pool, hw.total_eq Worker.working rfl]
    obtain ⟨hcase, hq⟩ := hdo.sleeps hsleeps
    rw [hq]
    obtain hold | hlen | hworking := hcase
    · exact h.sleeper hold
    · exact .inl hlen
    · have hcount := hbase.counts.working
      exact .inr (by simp only; omega)
  · rw [hw.caller_eq Caller.cleansUp rfl] at hc
    obtain ⟨hold, hdrop⟩ := hdo.dropped hc
    rw [hw.pool, hdrop, h.undropped hold]

/-- Moves of the caller that touch neither the queue nor the semaphore. -/
theorem Wakeup.call (h : Wakeup s) (hq : pool.jobqueue = s.pool.jobqueue) (hv : pool.hasJobs = s.pool.hasJobs)
    (hdrop : pool.dropped = s.pool.dropped) (hc : c.destroys = false → s.caller.destroys = false)
    (hpost : s.caller ≠ .post) (hsleeps : c.sleeps = false) (hclean : s.caller.cleansUp = false) : Wakeup { s with pool := pool, caller := c } where
  seen hjobs := h.seen (hv ▸ hjobs)
  token hlen hd := by
    obtain hold | hold | hold := h.token (hq ▸ hlen) (hc hd)
    · exact .inl (hv.trans hold)
    · exact absurd hold hpost
    · exact .inr (.inr hold)
  sleeper hs := by
    rw [hsleeps] at hs
    cases hs
  undropped _ := hdrop.trans (h.undropped hclean)

theorem Wakeup.start : Wakeup (Sys.start n α) where
  seen h := by cases h
  token h := by cases h
  sleeper h := by cases h
  undropped _ := rfl

/-- **Every event keeps the token.** -/
theorem Wakeup.step {as : List α} {l : List Nat} {e : Event n α} (h : Wakeup s) (hbase : Base s) (hjobs : Jobs as l s)
    (hstep : Step s e s') : Wakeup s' := by
  cases hstep with
  | init hc | refuse hc | created _ hc | wait hc | destroy hc | add _ _ hc =>
      exact h.call rfl rfl rfl (by simp [hc, Caller.destroys]) (by simp [hc]) rfl (by rw [hc]; rfl)
  | @create k ok hc hk =>
      have hunborn := hbase.phases.unborn ⟨k, hk⟩ (by simp [hc, Caller.passed])
      have hworker := create_worker ok hunborn
      refine ⟨fun hv => ?_, fun hlen hd => ?_, fun hs => (by cases hs), fun _ => h.undropped (by rw [hc]; rfl)⟩
      · obtain ⟨i, hi⟩ | hnone := h.seen hv
        · obtain heq | ⟨-, -, hold⟩ := hworker i
          · exact .inl ⟨i, heq.trans hi⟩
          · rw [hold] at hi
            cases hi
        · refine .inr fun i => ?_
          obtain heq | ⟨-, hborn, -⟩ := hworker i
          · exact (congrArg Worker.isAsleep heq).trans (hnone i)
          · exact congrArg Worker.isAsleep hborn
      · obtain hv | hpost | ⟨i, hi⟩ := h.token hlen (by simp [hc, Caller.destroys])
        · exact .inl hv
        · simp [hc] at hpost
        · obtain heq | ⟨-, -, hold⟩ := hworker i
          · exact .inr (.inr ⟨i, (congrArg Worker.isComing heq).trans hi⟩)
          · rw [hold] at hi
            cases hi
  | addFailed => exact h
  | caller hdo hsig => exact h.caller hbase hdo hsig
  | worker hsafe hdo hsig => exact h.worker hbase hjobs hdo hsig
  | wake hi => exact h.woken (woken_update hi)
  | wakeCaller hc => exact h.woken ⟨rfl, fun _ => .inl rfl, .inr ⟨hc, rfl⟩⟩

end Steps

/-! ## Runs -/

/-- Everything that holds of the pool at the end of a run. -/
structure Inv (es : List (Event n α)) (s : Sys n α) : Prop where
  base : Base s
  jobs : ∃ l, Jobs (added es) l s
  wakeup : Wakeup s

theorem Inv.step {es : List (Event n α)} {s s' : Sys n α} {e : Event n α} (h : Inv es s) (hstep : Step s e s') :
    Inv (es ++ [e]) s' := by
  obtain ⟨l, hjobs⟩ := h.jobs
  exact ⟨h.base.step hstep, added_append es [e] ▸ hjobs.step h.base hstep, h.wakeup.step h.base hjobs hstep⟩

theorem Inv.start : Inv [] (Sys.start n α) := ⟨.start, ⟨[], .start⟩, .start⟩

theorem inv_of_run {es : List (Event n α)} {s : Sys n α} (h : Run.exec next (Sys.start n α) es = some s) : Inv es s :=
  Run.exec_induct Inv .start (fun _ _ _ _ ht hnext => ht.step (next_cases hnext)) es s h

end OperatingSystem.Pool
