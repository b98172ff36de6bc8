import OperatingSystem.Pool.Progress

/-!
# OperatingSystem.Pool.Calls

What `thpool_wait` and `thpool_destroy` promise to their caller.  `thpool_wait`
looks at the length of the queue and at the number of working threads one after
the other, and the first is not protected by the lock it holds; still, when both
were zero, all jobs have returned (`wait_returns`).  `thpool_destroy` returns when
every worker is past its loop; the jobs that are still queued then are freed
uncalled, in order, and nothing stays allocated (`destroy_returns`).
-/

namespace OperatingSystem.Pool

open Function Tally Queue

variable {n : Nat} {α : Type}

/-! ## Waiting -/

/-- Behind the first test of `thpool_wait`'s loop, and behind the second. -/
structure Waited (s : Sys n α) : Prop where
  drained : s.caller = .waitWorking ∨ s.caller = .waitDone → s.pool.jobqueue.len = 0
  idle : s.caller = .waitDone → total Worker.working s.worker = 0

section Waited

variable {s s' : Sys n α} {e : Event n α} {pool pool' : Thpool n α} {i : Fin n} {w w' : Worker α} {c c' : Caller}
  {chosen : Option (Fin n)} {sig : Signal}

theorem ThreadDo.len_le (h : ThreadDo pool i w pool' w' sig) : pool'.jobqueue.len ≤ pool.jobqueue.len := by
  cases h with
  | pullMore _ hpull | pull _ hpull =>
      have := jobqueuePull_len hpull
      simp only
      omega
  | _ => exact Nat.le_refl _

/-- Nobody starts to work while `thcount_lock` is held. -/
theorem ThreadDo.working_le (h : ThreadDo pool i w pool' w' sig) (hlock : pool.thcountLock ≠ none) :
    w'.working ≤ w.working := by
  cases h with
  | enter hfree => exact absurd hfree hlock
  | _ => simp [Worker.working]

theorem Waited.woken (h : Waited s) (hw : Woken s s') : Waited s' where
  drained hc := by
    rw [hw.pool]
    refine h.drained ?_
    rwa [hw.caller_eq (fun c => c = Caller.waitWorking ∨ c = Caller.waitDone) (by simp)] at hc
  idle hc := by
    rw [hw.total_eq Worker.working rfl]
    refine h.idle ?_
    rwa [hw.caller_eq (· = Caller.waitDone) (by simp)] at hc

theorem Waited.worker (h : Waited s) (hbase : Base s) (hdo : ThreadDo s.pool i (s.worker i) pool w sig) :
    Waited { s with pool := pool, worker := update s.worker i w } where
  drained hc := Nat.le_zero.mp (hdo.len_le.trans (h.drained hc).le)
  idle hc := by
    have hcaller : s.caller = .waitDone := hc
    have hheld : s.pool.thcountLock = some .caller := (hbase.locks.thcount .caller).mpr (by simp [Sys.holdsThcount, hcaller, Caller.holdsThcount])
    have hle := hdo.working_le (by simp [hheld])
    have hsum := total_update Worker.working s.worker i w
    have hidle := h.idle hc
    simp only
    omega

theorem Waited.caller (h : Waited s) (hbase : Base s) (hdo : CallerDo s.pool s.caller pool c sig) :
    Waited { s with pool := pool, caller := c } := by
  generalize hc : s.caller = old at hdo
  cases hdo with
  | noJobs hlen => exact ⟨fun _ => hlen, fun hnot => by cases hnot⟩
  | noneWorking hworking =>
      refine ⟨fun _ => h.drained (.inl hc), fun _ => ?_⟩
      have := hbase.counts.working
      simp only
      omega
  | _ => exact ⟨fun hnot => by simp at hnot, fun hnot => by simp at hnot⟩

theorem Waited.step (h : Waited s) (hbase : Base s) (hstep : Step s e s') : Waited s' := by
  cases hstep with
  | caller hdo hsig => exact (h.caller hbase hdo).woken (signal_woken hsig)
  | worker hsafe hdo hsig => exact (h.worker hbase hdo).woken (signal_woken hsig)
  | wake hi => exact h.woken (woken_update hi)
  | addFailed => exact h
  | _ => exact ⟨fun hnot => by simp at hnot, fun hnot => by simp at hnot⟩

end Waited

section Runs

variable {s : Sys n α} {es : List (Event n α)}

theorem waited_of_run (h : Run.exec next (Sys.start n α) es = some s) : Waited s :=
  (Run.exec_induct (fun _ s => Base s ∧ Waited s)
    ⟨.start, ⟨fun hnot => by simp [Sys.start] at hnot, fun hnot => by simp [Sys.start] at hnot⟩⟩
    (fun _ _ _ _ ht hnext => ⟨ht.1.step (next_cases hnext), ht.2.step ht.1 (next_cases hnext)⟩) es s h).2

/-- **`thpool_wait`** returns when every job added has been called and has returned,
and no worker is about to take another. -/
theorem wait_returns (h : Run.exec next (Sys.start n α) es = some s) (hc : s.caller = .waitDone) :
    s.waiting = [] ∧ (added es).Perm s.pool.called ∧ s.pool.called.Perm s.pool.returned ∧ s.pulled = 0 ∧ s.running = 0 := by
  have hinv := inv_of_run h
  have hwaited := waited_of_run h
  have hidle := total_eq_zero.mp (hwaited.idle hc)
  obtain ⟨hwaiting, hcalled, hreturned⟩ :=
    hinv.all_done (hwaited.drained (.inr hc)) (by rw [hc]; rfl) (by rw [hc]; rfl) hidle
  exact ⟨hwaiting, hcalled, hreturned, total_zero fun i => (Worker.idle_of_working (hidle i)).1 _,
    total_zero fun i => (Worker.idle_of_working (hidle i)).2⟩

theorem wait_returns_twoJobs :
    let es := twoJobs ++ [.wait, .caller none, .caller none, .caller none]
    ∃ s, Run.exec next (Sys.start 2 Nat) es = some s ∧ s.waiting = [] ∧ (added es).Perm s.pool.called ∧
      s.pool.called.Perm s.pool.returned ∧ s.pulled = 0 ∧ s.running = 0 :=
  ⟨_, rfl, wait_returns rfl rfl⟩

end Runs

/-! ## Destruction -/

/-- The jobs `as` while the queue is cleared: the ones called, then the ones
dropped, then the ones still queued, in the order in which they were added. -/
structure Cleanup (as : List α) (s : Sys n α) : Prop where
  split : s.caller.cleansUp = true → ∃ pre, as = pre ++ s.pool.dropped ++ s.waiting ∧ pre.Perm s.pool.called
  empty : (∃ t, s.caller = .free t) ∨ s.caller = .destroyed → s.pool.jobqueue.len = 0

section Cleanup

variable {s s' : Sys n α} {as : List α} {l : List Nat} {e : Event n α} {pool pool' : Thpool n α} {i : Fin n}
  {w w' : Worker α} {c c' : Caller} {chosen : Option (Fin n)} {sig : Signal}

/-- The account depends on the queue, the memory and the caller's job. -/
theorem Sys.waiting_congr (hq : s'.pool.jobqueue = s.pool.jobqueue) (hm : s'.pool.memory = s.pool.memory)
    (hnew : s'.caller.newjob = s.caller.newjob) : s'.waiting = s.waiting := by
  rw [Sys.waiting, hq, hm, hnew, Sys.waiting]

theorem Caller.newjob_of_cleansUp (h : c.cleansUp = true) : c.newjob = none := by
  cases c with
  | clear | free | destroyed => rfl
  | _ => cases h

theorem Cleanup.of_not (h : s.caller.cleansUp = false) : Cleanup as s where
  split hclean := by
    rw [h] at hclean
    cases hclean
  empty hend := by
    obtain ⟨t, hc⟩ | hc := hend
    · rw [hc] at h
      cases h
    · rw [hc] at h
      cases h

theorem Cleanup.keep (h : Cleanup as s) (hq : s'.pool.jobqueue = s.pool.jobqueue) (hm : s'.pool.memory = s.pool.memory)
    (hdrop : s'.pool.dropped = s.pool.dropped) (hcalled : s'.pool.called = s.pool.called)
    (hc : s'.caller.cleansUp = true → s.caller.cleansUp = true)
    (hlast : (∃ t, s'.caller = .free t) ∨ s'.caller = .destroyed → (∃ t, s.caller = .free t) ∨ s.caller = .destroyed) :
    Cleanup as s' where
  split hclean := by
    rw [Sys.waiting_congr hq hm ((Caller.newjob_of_cleansUp hclean).trans (Caller.newjob_of_cleansUp (hc hclean)).symm),
      hdrop, hcalled]
    exact h.split (hc hclean)
  empty hend := by
    rw [hq]
    exact h.empty (hlast hend)

theorem Cleanup.woken (h : Cleanup as s) (hw : Woken s s') : Cleanup as s' := by
  refine h.keep (by rw [hw.pool]) (by rw [hw.pool]) (by rw [hw.pool]) (by rw [hw.pool]) (fun hc => ?_) fun hend => ?_
  · rwa [hw.caller_eq Caller.cleansUp rfl] at hc
  · rwa [hw.caller_eq (fun c => (∃ t, c = Caller.free t) ∨ c = Caller.destroyed) (by simp)] at hend

/-- A worker past its loop has an unlock left to do. -/
theorem ThreadDo.release_of_gone (h : ThreadDo pool i w pool' w' sig) (hw : w.alive = 0) (hnew : w.isNew = false) :
    pool' = { pool with thcountLock := none } ∧ w = .release := by
  cases h with
  | born => cases hnew
  | release => exact ⟨rfl, rfl⟩
  | _ => cases hw

theorem Cleanup.worker (h : Cleanup as s) (hphases : Phases s) (hdo : ThreadDo s.pool i (s.worker i) pool w sig) :
    Cleanup as { s with pool := pool, worker := update s.worker i w } := by
  cases hclean : s.caller.cleansUp with
  | false => exact .of_not hclean
  | true =>
      obtain ⟨rfl, -⟩ := hdo.release_of_gone (hphases.gone hclean i) (hphases.started (Caller.hasPool_of_cleansUp hclean) i)
      exact h.keep rfl rfl rfl rfl id id

theorem Worker.pulled_of_alive (hw : w.alive = 0) : (∀ m : Memory α, w.pulled m = 0) ∧ w.jobs = 0 ∧ w.inside = 0 := by
  cases w with
  | unborn | born | release | ended => exact ⟨fun _ => rfl, rfl, rfl⟩
  | _ => cases hw

theorem Cleanup.caller (h : Cleanup as s) (hjobs : Jobs as l s) (hwakeup : Wakeup s) (hmid : Phases { s with pool := pool, caller := c })
    (hdo : CallerDo s.pool s.caller pool c sig) : Cleanup as { s with pool := pool, caller := c } := by
  generalize hc : s.caller = old at hdo
  cases hdo with
  | @noneAlive t halive =>
      refine ⟨fun _ => ?_, fun hend => by simp at hend⟩
      have hgone := hmid.gone rfl
      obtain ⟨taken, has, htaken⟩ := hjobs.taken
      have hdrop := hwakeup.undropped (by rw [hc]; rfl)
      have hpulled : total (Worker.pulled s.pool.memory) s.worker = 0 :=
        total_zero fun j => (Worker.pulled_of_alive (hgone j)).1 _
      refine ⟨taken, ?_, ?_⟩
      · have hwaiting : Sys.waiting { s with pool := s.pool, caller := .clear t } = s.waiting :=
          Sys.waiting_congr (s := s) rfl rfl (by rw [hc]; rfl)
        rw [has, ← hjobs.waiting_eq, hdrop, List.append_nil, hwaiting]
      · rw [← Multiset.coe_eq_coe, htaken, hdrop, hpulled]
        simp
  | cleared hlen =>
      refine ⟨fun _ => ?_, fun _ => rfl⟩
      obtain ⟨pre, has, hperm⟩ := h.split (by rw [hc]; rfl)
      have hnil : s.waiting = [] := by
        rw [Sys.waiting, hlen, hc]
        rfl
      refine ⟨pre, ?_, hperm⟩
      rw [has, hnil]
      rfl
  | @clearNone more q t hlen hlock hpull =>
      obtain ⟨q', hspec, -⟩ := jobqueuePull_spec hjobs.queue
      obtain ⟨hhead, -⟩ : l.head? = none ∧ decide (2 ≤ l.length) = more ∧ q' = q := by
        simpa using hspec.symm.trans hpull
      exact absurd hjobs.queue.len (by simpa [List.head?_eq_none_iff.mp hhead] using hlen)
  | @clear p more q node t hlen hlock hpull hjob =>
      refine ⟨fun _ => ?_, fun hend => by simp at hend⟩
      obtain ⟨pre, has, hperm⟩ := h.split (by rw [hc]; rfl)
      have hnext := hjobs.clear hc hpull hjob
      obtain ⟨q', hspec, -⟩ := jobqueuePull_spec hjobs.queue
      obtain ⟨hhead, -⟩ : l.head? = some p ∧ decide (2 ≤ l.length) = more ∧ q' = q := by
        simpa using hspec.symm.trans hpull
      obtain ⟨l', rfl⟩ : ∃ l', l = p :: l' := ⟨l.tail, by cases l <;> simp_all⟩
      have hdata : dataAt s.pool.memory p = some node.data := by rw [dataAt, hjob, Option.map_some]
      have hp : p ∉ l' := by
        have := Multiset.nodup_of_le (Multiset.le_add_right _ _) hjobs.nodup
        rw [Multiset.coe_nodup, List.cons_append, List.nodup_cons] at this
        exact fun hmem => this.1 (List.mem_append_left _ hmem)
      have hrest : contents (update s.pool.memory p none) l' = contents s.pool.memory l' :=
        contents_congr fun a ha => by
          have hne : a ≠ p := by
            rintro rfl
            exact hp ha
          rw [dataAt, update_of_ne hne, dataAt]
      refine ⟨pre, ?_, hperm⟩
      rw [has, hjobs.waiting_eq, hnext.waiting_eq]
      simp [hc, Caller.newjob, contents_cons, hdata, hrest]
  | free =>
      refine h.keep rfl rfl rfl rfl (fun _ => by rw [hc]; rfl) fun _ => .inl ⟨_, hc⟩
  | _ => exact .of_not rfl

theorem Cleanup.append_nil (h : Cleanup as s) : Cleanup (as ++ []) s := by rwa [List.append_nil]

theorem Cleanup.step (h : Cleanup as s) (hbase : Base s) (hjobs : Jobs as l s) (hwakeup : Wakeup s) (hstep : Step s e s') :
    Cleanup (as ++ added [e]) s' := by
  cases hstep with
  | caller hdo hsig =>
      have hmid := h.caller hjobs hwakeup (hbase.phases.caller hbase.counts hdo) hdo
      exact (hmid.woken (signal_woken hsig)).append_nil
  | worker hsafe hdo hsig => exact ((h.worker hbase.phases hdo).woken (signal_woken hsig)).append_nil
  | wake hi => exact (h.woken (woken_update hi)).append_nil
  | addFailed => exact h.append_nil
  | _ => exact .of_not rfl

end Cleanup

section Runs

variable {s : Sys n α} {es : List (Event n α)}

theorem cleanup_of_run (h : Run.exec next (Sys.start n α) es = some s) : Cleanup (added es) s := by
  refine (Run.exec_induct (fun es s => Inv es s ∧ Cleanup (added es) s) ⟨.start, .of_not rfl⟩
    (fun es t e t' ht hnext => ?_) es s h).2
  obtain ⟨hinv, hclean⟩ := ht
  obtain ⟨l, hjobs⟩ := hinv.jobs
  have hstep := next_cases hnext
  exact ⟨hinv.step hstep, added_append es [e] ▸ hclean.step hinv.base hjobs hinv.wakeup hstep⟩

/-- **`thpool_destroy`** returns when every worker is past its loop.  The jobs added
before some point have been called and have returned, the ones added after it were
freed uncalled, in order, and no block is left. -/
theorem destroy_returns (h : Run.exec next (Sys.start n α) es = some s) (hc : s.caller = .destroyed) :
    (∀ i, s.worker i = .release ∨ s.worker i = .ended) ∧
      (∃ done, added es = done ++ s.pool.dropped ∧ done.Perm s.pool.called ∧ s.pool.called.Perm s.pool.returned) ∧
      (∀ p, s.pool.memory p = none) ∧ ∀ i, s.pool.threads i = false := by
  have hinv := inv_of_run h
  have hclean := cleanup_of_run h
  have hcleans : s.caller.cleansUp = true := by
    rw [hc]
    rfl
  have hgone := hinv.base.phases.gone hcleans
  have hstarted := hinv.base.phases.started (Caller.hasPool_of_cleansUp hcleans)
  obtain ⟨l, hjobs⟩ := hinv.jobs
  have hlen := hclean.empty (.inr hc)
  have hnew : s.caller.newjob = none := Caller.newjob_of_cleansUp hcleans
  refine ⟨fun i => ?_, ?_, fun p => ?_, hinv.base.phases.deallocated hc⟩
  · have hone := hgone i
    have hold := hstarted i
    cases hw : s.worker i with
    | release => exact .inl rfl
    | ended => exact .inr rfl
    | unborn | born => simp [hw, Worker.isNew] at hold
    | _ => simp [hw, Worker.alive] at hone
  · obtain ⟨pre, has, hperm⟩ := hclean.split hcleans
    have hwaiting : s.waiting = [] := by
      rw [Sys.waiting, hlen, hnew]
      rfl
    have hinside : total Worker.inside s.worker = 0 := total_zero fun i => (Worker.pulled_of_alive (hgone i)).2.2
    refine ⟨pre, by rw [has, hwaiting, List.append_nil], hperm, ?_⟩
    rw [← Multiset.coe_eq_coe, hjobs.called, hinside, add_zero]
  · by_contra hp
    have hmem := (hjobs.allocated p).mp hp
    have hnil : l = [] := List.eq_nil_of_length_eq_zero (hjobs.queue.len ▸ hlen)
    have hjobsNone : total Worker.jobs s.worker = 0 := total_zero fun i => (Worker.pulled_of_alive (hgone i)).2.1
    rw [Sys.owned, hnil, hnew, hjobsNone] at hmem
    simp at hmem

theorem destroy_returns_destroyed : let s := (Run.exec next (Sys.start 2 Nat) destroyed).get destroyed_runs
    (∀ i, s.worker i = .release ∨ s.worker i = .ended) ∧
      (∃ done, added destroyed = done ++ s.pool.dropped ∧ done.Perm s.pool.called ∧ s.pool.called.Perm s.pool.returned) ∧
      (∀ p, s.pool.memory p = none) ∧ ∀ i, s.pool.threads i = false :=
  destroy_returns (Option.some_get destroyed_runs).symm rfl

end Runs

end OperatingSystem.Pool
