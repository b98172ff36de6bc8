import OperatingSystem.Pool.Calls

/-!
# OperatingSystem.Pool.Destroy

`thpool_destroy` can always come to its end.  It polls the number of threads alive
and posts to all of them in between; each round that lets the workers run until
they wait again gets one of them out of its loop, since the token of the round
ends up with a worker that reads `threads_keepalive` as zero (`Token.step`).
-/

namespace OperatingSystem.Pool

open Function Tally

variable {n : Nat} {α : Type} {s s' : Sys n α} {e : Event n α}

/-- The invariants hold, of some history. -/
def Ok (s : Sys n α) : Prop := ∃ es, Inv es s

theorem Ok.next (h : Ok s) (hnext : next s e = some s') : Ok s' := by
  obtain ⟨es, hinv⟩ := h
  exact ⟨es ++ [e], hinv.step (next_cases hnext)⟩

/-- An action of a worker. -/
def IsWorker (e : Event n α) : Prop := ∃ i chosen, e = .worker i chosen

/-- An action of the caller. -/
def IsCaller (e : Event n α) : Prop := ∃ chosen, e = .caller chosen

/-! ## A round -/

/-- Behind the semaphore with `threads_keepalive` to read, or behind the loop. -/
def Worker.heedsKeepalive : Worker α → Bool
  | .check | .test | .exit => true
  | _ => false

/-- A worker of the `k` has left since the semaphore was posted, or the token is
still on the way to one that leaves. -/
def Token (k : Nat) (s : Sys n α) : Prop :=
  s.pool.hasJobs = true ∨ (∃ i, (s.worker i).heedsKeepalive = true) ∨ total Worker.alive s.worker < k

section Round

variable {pool pool' : Thpool n α} {i : Fin n} {w w' : Worker α} {c c' : Caller} {sig : Signal} {chosen : Option (Fin n)}
  {k : Nat}

/-- A worker with the token keeps it, or leaves. -/
theorem ThreadDo.heeds (h : ThreadDo pool i w pool' w' sig) (hkeep : pool.threadsKeepalive = false) :
    (pool.hasJobs = true → pool'.hasJobs = true ∨ w'.heedsKeepalive = true) ∧
      (w.heedsKeepalive = true → w'.heedsKeepalive = true ∨ w'.alive < w.alive) := by
  cases h with
  | take => exact ⟨fun _ => .inr rfl, fun hw => by cases hw⟩
  | stay hyes | pass hyes => simp [hkeep] at hyes
  | quit | skip => exact ⟨.inl, fun _ => .inl rfl⟩
  | exit => exact ⟨.inl, fun _ => .inr Nat.one_pos⟩
  | post => exact ⟨fun _ => .inl rfl, fun hw => by cases hw⟩
  | _ => exact ⟨.inl, fun hw => by cases hw⟩

theorem ThreadDo.alive_le (h : ThreadDo pool i w pool' w' sig) (hnew : w.isNew = false) : w'.alive ≤ w.alive := by
  cases h with
  | born => cases hnew
  | _ => simp [Worker.alive]

theorem Token.woken (h : Token k s) (hw : Woken s s') : Token k s' := by
  obtain hv | ⟨i, hi⟩ | halive := h
  · exact .inl (by rw [hw.pool, hv])
  · exact .inr (.inl ⟨i, by rw [hw.worker_eq Worker.heedsKeepalive rfl, hi]⟩)
  · exact .inr (.inr (by rwa [hw.total_eq Worker.alive rfl]))

/-- **The token gets to a worker that leaves.** -/
theorem Token.worker (h : Token k s) (hphases : Phases s) (hc : s.caller.destroys = true) (hpool : s.caller.hasPool = true)
    (hk : total Worker.alive s.worker ≤ k) (hdo : ThreadDo s.pool i (s.worker i) pool w sig) :
    Token k { s with pool := pool, worker := update s.worker i w } ∧ total Worker.alive (update s.worker i w) ≤ k := by
  have hkeep : s.pool.threadsKeepalive = false := by
    rw [hphases.keepalive, hc]
    rfl
  have hsum := total_update Worker.alive s.worker i w
  have hle := hdo.alive_le (hphases.started hpool i)
  refine ⟨?_, by omega⟩
  obtain ⟨hpost, hheeds⟩ := hdo.heeds hkeep
  obtain hv | ⟨j, hj⟩ | halive := h
  · obtain hv' | hw := hpost hv
    · exact .inl hv'
    · exact .inr (.inl ⟨i, by simpa using hw⟩)
  · by_cases hji : j = i
    · subst hji
      obtain hw | hlt := hheeds hj
      · exact .inr (.inl ⟨j, by simpa using hw⟩)
      · exact .inr (.inr (by simp only; omega))
    · exact .inr (.inl ⟨j, by simpa [hji] using hj⟩)
  · exact .inr (.inr (by simp only; omega))

/-- What uses up rank in a round. -/
def Sys.workersRank (s : Sys n α) : Nat :=
  total Worker.rank s.worker + 18 * s.pool.jobqueue.len + 16 * s.pool.hasJobs.toNat

/-- A round: with the caller between two tests, the workers run until they wait. -/
theorem round {t : Int} (hok : Ok s) (hc : s.caller = .poll t) (hv : s.pool.hasJobs = true) :
    ∃ es s', (∀ e ∈ es, IsWorker e) ∧ Run.exec next s es = some s' ∧ Ok s' ∧ s'.caller = .poll t ∧
      (0 < total Worker.alive s.worker → total Worker.alive s'.worker < total Worker.alive s.worker) := by
  have hstep : ∀ (u : Sys n α) (a : Event n α) (u' : Sys n α),
      Ok u ∧ u.caller = .poll t ∧ Token (total Worker.alive s.worker) u ∧
          total Worker.alive u.worker ≤ total Worker.alive s.worker →
        IsWorker a → next u a = some u' →
          (Ok u' ∧ u'.caller = .poll t ∧ Token (total Worker.alive s.worker) u' ∧
            total Worker.alive u'.worker ≤ total Worker.alive s.worker) ∧ u'.workersRank < u.workersRank := by
    rintro u a u' ⟨huok, huc, htoken, hle⟩ ⟨i, chosen, rfl⟩ hnext
    obtain ⟨es, hinv⟩ := huok
    cases next_cases hnext with
    | @worker i pool w sig chosen u' hsafe hdo hsig =>
        have hw := signal_woken hsig
        obtain ⟨htoken', hle'⟩ := htoken.worker hinv.base.phases (by rw [huc]; rfl) (by rw [huc]; rfl) hle hdo
        have hcaller : u'.caller = .poll t := by
          obtain heq | ⟨hasleep, -⟩ := hw.caller
          · rw [heq, huc]
          · rw [huc] at hasleep
            cases hasleep
        refine ⟨⟨⟨_, hinv.step (next_cases hnext)⟩, hcaller, htoken'.woken hw, ?_⟩, ?_⟩
        · rwa [hw.total_eq Worker.alive rfl]
        · have hrank := hdo.rank
          have hmid := signal_rank hsig
          have hsum := total_update Worker.rank u.worker i w
          simp only [Sys.rank, hcaller, huc, Sys.workersRank] at hmid ⊢
          omega
  obtain ⟨es, s', hes, hrun, ⟨hok', hc', htoken, -⟩, hquiet⟩ :=
    Run.exec_exhaust _ IsWorker Sys.workersRank hstep ⟨hok, hc, .inl hv, Nat.le_refl _⟩
  refine ⟨es, s', hes, hrun, hok', hc', fun hpos => ?_⟩
  obtain ⟨hist, hinv⟩ := hok'
  obtain ⟨-, -, hworkers⟩ := hinv.quiet (fun i chosen => hquiet _ ⟨i, chosen, rfl⟩) (by rw [hc']; rfl) (by simp [hc'])
    (by rw [hc']; rfl) (by rw [hc']; rfl)
  obtain hv' | ⟨i, hi⟩ | halive := htoken
  · -- a posted semaphore is not left to sleepers
    have hzero : total Worker.alive s'.worker = 0 := by
      refine total_eq_zero.mpr fun i => ?_
      obtain hi | hi := hworkers i
      · obtain ⟨j, hj⟩ | hnone := hinv.wakeup.seen hv'
        · obtain hj' | hj' := hworkers j
          · rw [hj'] at hj
            cases hj
          · rw [hj'] at hj
            cases hj
        · have := hnone i
          rw [hi] at this
          cases this
      · rw [hi]
        rfl
    omega
  · obtain hi' | hi' := hworkers i
    · rw [hi'] at hi
      cases hi
    · rw [hi'] at hi
      cases hi
  · exact halive

end Round

/-! ## Cleaning up -/

/-- The rounds of `jobqueue_clear` left, and the actions behind them. -/
def Sys.cleanupRank (s : Sys n α) : Nat :=
  match s.caller with
  | .clear _ => 2 + s.pool.jobqueue.len
  | .free _ => 1
  | _ => 0

/-- A round of the loop in `jobqueue_clear` frees a job. -/
theorem cleanup_step (hinv : Inv es s) (hclean : s.caller.cleansUp = true) (hnext : next s (.caller chosen) = some s') :
    s'.caller.cleansUp = true ∧ s'.cleanupRank < s.cleanupRank := by
  obtain ⟨l, hjobs⟩ := hinv.jobs
  cases next_cases hnext with
  | @caller pool c sig chosen s' hdo hsig =>
      have hw := signal_woken hsig
      have hrank : s'.cleanupRank = Sys.cleanupRank { s with pool := pool, caller := c } := by
        obtain heq | ⟨hasleep, hlock⟩ := hw.caller
        · simp only [Sys.cleanupRank, heq, hw.pool]
        · have hc : c = .waitAsleep := hasleep
          simp only [Sys.cleanupRank, hc, hlock]
      rw [hw.caller_eq Caller.cleansUp rfl, hrank]
      generalize hc : s.caller = old at hdo hclean
      cases hdo with
      | cleared =>
          refine ⟨rfl, ?_⟩
          simp only [Sys.cleanupRank, hc]
          omega
      | @clearNone more q t hlen hlock hpull | @clear p more q node t hlen hlock hpull =>
          obtain ⟨q', hspec, hqueue⟩ := jobqueuePull_spec hjobs.queue
          have hpulled := Option.some.inj (hspec.symm.trans hpull)
          obtain rfl : q' = q := congrArg (fun r => r.2.2) hpulled
          have hshort := hqueue.len
          have hold := hjobs.queue.len
          rw [List.length_tail] at hshort
          refine ⟨rfl, ?_⟩
          simp only [Sys.cleanupRank, hc]
          omega
      | free =>
          refine ⟨rfl, ?_⟩
          simp only [Sys.cleanupRank, hc]
          omega
      | _ => cases hclean

/-- Behind its loops `thpool_destroy` needs nobody else. -/
theorem cleanup_ends (hok : Ok s) (hclean : s.caller.cleansUp = true) :
    ∃ es s', (∀ e ∈ es, IsCaller e) ∧ Run.exec next s es = some s' ∧ s'.caller = .destroyed := by
  have hstep : ∀ (u : Sys n α) (a : Event n α) (u' : Sys n α), Ok u ∧ u.caller.cleansUp = true → IsCaller a →
      next u a = some u' → (Ok u' ∧ u'.caller.cleansUp = true) ∧ u'.cleanupRank < u.cleanupRank := by
    rintro u a u' ⟨hu, hclean⟩ ⟨chosen, rfl⟩ hnext
    obtain ⟨hist, hinv⟩ := hu
    obtain ⟨hclean', hlt⟩ := cleanup_step hinv hclean hnext
    exact ⟨⟨Ok.next ⟨hist, hinv⟩ hnext, hclean'⟩, hlt⟩
  obtain ⟨es, s', hes, hrun, ⟨hok', hclean'⟩, hstuck⟩ :=
    Run.exec_exhaust (fun s => Ok s ∧ s.caller.cleansUp = true) IsCaller Sys.cleanupRank hstep ⟨hok, hclean⟩
  refine ⟨es, s', hes, hrun, ?_⟩
  obtain ⟨hist, hinv⟩ := hok'
  obtain ⟨l, hjobs⟩ := hinv.jobs
  have hgone := hinv.base.phases.gone hclean'
  have hrw : s'.pool.rwmutex = none := by
    refine hinv.base.locks.rwmutex.eq_none fun t => ?_
    cases t with
    | caller =>
        cases hc : s'.caller with
        | clear | free | destroyed => simp [Sys.holdsRwmutex, hc, Caller.holdsRwmutex]
        | _ => simp [hc, Caller.cleansUp] at hclean'
    | worker i =>
        have hi := hgone i
        cases hw : s'.worker i with
        | unborn | born | release | ended => simp [Sys.holdsRwmutex, hw, Worker.holdsRwmutex]
        | _ => simp [hw, Worker.alive] at hi
  obtain ⟨-, hdef⟩ := hjobs.defined hinv.base.phases
  obtain hc | hc | hc | hc | ⟨-, hnot⟩ | ⟨hc, -⟩ :=
    callerDo_blocked (blocked_of_caller (fun chosen => hstuck _ ⟨chosen, rfl⟩) hdef)
  · rw [Caller.hasPool_of_cleansUp hclean'] at hc
    cases hc
  · rw [hc] at hclean'
    cases hclean'
  · rw [hc] at hclean'
    cases hclean'
  · exact hc
  · exact absurd hrw hnot
  · rw [hc] at hclean'
    cases hclean'

/-! ## The end -/

/-- The run goes on, by actions alone, to the end of `thpool_destroy`. -/
def Ends (s : Sys n α) : Prop :=
  ∃ es s', (∀ e ∈ es, e.isAction = true) ∧ Run.exec next s es = some s' ∧ s'.caller = .destroyed

theorem Ends.of_exec {es : List (Event n α)} (hes : ∀ e ∈ es, e.isAction = true) (hrun : Run.exec next s es = some s')
    (h : Ends s') : Ends s := by
  obtain ⟨fs, s'', hfs, hrun', hc⟩ := h
  refine ⟨es ++ fs, s'', fun e he => ?_, by rw [Run.exec_append, hrun, Option.bind_some, hrun'], hc⟩
  obtain he | he := List.mem_append.mp he
  · exact hes e he
  · exact hfs e he

theorem Ends.of_next {chosen : Option (Fin n)} (hnext : next s (.caller chosen) = some s') (h : Ends s') : Ends s := by
  have hrun : Run.exec next s [.caller chosen] = some s' := by rw [Run.exec_single, hnext]
  exact .of_exec (by simp [Event.isAction]) hrun h

theorem ends_of_cleansUp (hok : Ok s) (hclean : s.caller.cleansUp = true) : Ends s := by
  obtain ⟨es, s', hes, hrun, hc⟩ := cleanup_ends hok hclean
  refine ⟨es, s', fun e he => ?_, hrun, hc⟩
  obtain ⟨chosen, rfl⟩ := hes e he
  rfl

theorem ends_of_poll {t : Int} (hok : Ok s) (hc : s.caller = .poll t) : Ends s := by
  induction hk : total Worker.alive s.worker using Nat.strongRecOn generalizing s with
  | ind k ih =>
      obtain ⟨es, hinv⟩ := hok
      have halive := hinv.base.counts.alive
      by_cases hzero : k = 0
      · have hnext : next s (.caller none) = some { s with caller := .clear t } := by
          have : s.pool.numThreadsAlive = 0 := by omega
          simp [next, step, callerDo, hc, this, signal, Except.toOption]
        exact .of_next hnext (ends_of_cleansUp ⟨_, hinv.step (next_cases hnext)⟩ rfl)
      · have hnext : next s (.caller none) = some { s with caller := .postAll t } := by
          have : s.pool.numThreadsAlive ≠ 0 := by omega
          simp [next, step, callerDo, hc, this, signal, Except.toOption]
        have hok₁ : Ok _ := ⟨_, hinv.step (next_cases hnext)⟩
        refine .of_next hnext ?_
        -- the post wakes everyone, and then the workers run
        obtain ⟨s₂, hnext₂, hc₂, hv₂, hk₂⟩ : ∃ s₂, next { s with caller := .postAll t } (.caller none) = some s₂ ∧
            s₂.caller = .poll t ∧ s₂.pool.hasJobs = true ∧ total Worker.alive s₂.worker = k := by
          refine ⟨_, rfl, rfl, rfl, ?_⟩
          rw [← hk]
          refine total_congr fun i => ?_
          by_cases hi : (s.worker i).isAsleep = true
          · simp [Worker.isAsleep_iff.mp hi, Worker.isAsleep, Worker.alive]
          · simp [hi]
        refine .of_next hnext₂ ?_
        obtain ⟨fs, s₃, hfs, hrun, hok₃, hc₃, hlt⟩ := round (hok₁.next hnext₂) hc₂ hv₂
        refine .of_exec (fun e he => ?_) hrun (ih _ ?_ hok₃ hc₃ rfl)
        · obtain ⟨i, chosen, rfl⟩ := hfs e he
          rfl
        · rw [← hk₂]
          exact hlt (by omega)

/-- **`thpool_destroy` can end**: from every state it can get to, the actions of the
threads alone can bring it to its end. -/
theorem destroy_ends {es : List (Event n α)} (h : Run.exec next (Sys.start n α) es = some s)
    (hc : s.caller.destroys = true) :
    ∃ es' s', (∀ e ∈ es', e.isAction = true) ∧ Run.exec next s es' = some s' ∧ s'.caller = .destroyed := by
  have hok : Ok s := ⟨es, inv_of_run h⟩
  cases hcaller : s.caller with
  | poll t => exact ends_of_poll hok hcaller
  | postAll t =>
      obtain ⟨s', hnext, hc'⟩ : ∃ s', next s (.caller none) = some s' ∧ s'.caller = .poll t := by
        simp only [next, step, callerDo, hcaller, signal, Except.toOption]
        exact ⟨_, rfl, rfl⟩
      exact Ends.of_next hnext (ends_of_poll (hok.next hnext) hc')
  | clear t | free t | destroyed => exact ends_of_cleansUp hok (by rw [hcaller]; rfl)
  | _ =>
      rw [hcaller] at hc
      cases hc

theorem destroying_runs : (Run.exec next (Sys.start 2 Nat) (twoJobs ++ [.destroy])).isSome := by decide

theorem destroy_ends_twoJobs : let s := (Run.exec next (Sys.start 2 Nat) (twoJobs ++ [.destroy])).get destroying_runs
    ∃ es' s', (∀ e ∈ es', e.isAction = true) ∧ Run.exec next s es' = some s' ∧ s'.caller = .destroyed :=
  destroy_ends (Option.some_get destroying_runs).symm rfl

end OperatingSystem.Pool
