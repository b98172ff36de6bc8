import Mathlib.Tactic.Abel
import OperatingSystem.Pool.Invariant

/-!
# OperatingSystem.Pool.Jobs

The jobs.  A job added is in the queue, or pulled by one worker and not called
yet, or called, or freed uncalled by `thpool_destroy`; it is in one of these
places, once, and the queue is first in, first out.  Its block of memory has one
owner, until it is freed.
-/

namespace OperatingSystem.Pool

open Function Tally Queue

variable {n : Nat} {α : Type}

/-! ## The job queue -/

/-- The queue is the list `l` of jobs, from the front. -/
structure IsQueue (c : Memory α) (q : Jobqueue) (l : List Nat) : Prop where
  linked : Linked c l
  front : q.front = l.head?
  rear : q.rear = l.getLast?
  len : q.len = l.length

section Jobqueue

variable {c : Memory α} {q : Jobqueue} {l : List Nat} {newjob : Nat} {job : Job α}

/-- **`jobqueue_push`** puts the new job behind the others. -/
theorem jobqueuePush_spec (h : IsQueue c q l) (hnodup : l.Nodup) (hnew : newjob ∉ l) (hjob : c newjob = some job) :
    ∃ c' q', jobqueuePush c q newjob = some (c', q') ∧ IsQueue c' q' (l ++ [newjob]) ∧ ∀ p, dataAt c' p = dataAt c p := by
  have hdata := dataAt_setPrev hjob none
  have hlinked := linked_update h.linked hnew (some { job with prev := none })
  obtain rfl | ⟨l, rear, rfl⟩ := l.eq_nil_or_concat'
  · have hlen : q.len = 0 := h.len
    refine ⟨update c newjob (some { job with prev := none }), ⟨some newjob, some newjob, 1⟩, ?_, ?_, hdata⟩
    · simp [jobqueuePush, hjob, hlen]
    · exact ⟨⟨⟨job.data, update_self ..⟩, trivial⟩, rfl, rfl, rfl⟩
  · have hlen : q.len = l.length + 1 := by simpa using h.len
    have hrear : q.rear = some rear := by simpa using h.rear
    obtain ⟨last, hlast⟩ := hlinked.mem (List.mem_append_right l (List.mem_singleton_self rear))
    refine ⟨update (update c newjob (some { job with prev := none })) rear (some { last with prev := some newjob }),
      ⟨q.front, some newjob, l.length + 2⟩, ?_, ⟨?_, ?_, by simp, by simp⟩, fun p => ?_⟩
    · simp [jobqueuePush, hjob, hlen, hrear, hlast]
    · rw [List.append_assoc]
      exact linked_push hlinked hnodup hnew (update_self ..)
    · rw [h.front]
      cases l <;> rfl
    · rw [dataAt_setPrev hlast, hdata]

/-- **`jobqueue_pull`** takes the first job off, and posts when it leaves another. -/
theorem jobqueuePull_spec (h : IsQueue c q l) :
    ∃ q', jobqueuePull c q = some (l.head?, decide (2 ≤ l.length), q') ∧ IsQueue c q' l.tail := by
  match l, h with
  | [], h =>
      have hlen : q.len = 0 := h.len
      have hfront : q.front = none := h.front
      exact ⟨q, by simp [jobqueuePull, hlen, hfront], h⟩
  | [p], h =>
      have hlen : q.len = 1 := h.len
      have hfront : q.front = some p := h.front
      exact ⟨⟨none, none, 0⟩, by simp [jobqueuePull, hlen, hfront], ⟨trivial, rfl, rfl, rfl⟩⟩
  | p :: p' :: l, h =>
      have hlen : q.len = l.length + 2 := h.len
      have hfront : q.front = some p := h.front
      obtain ⟨⟨x, hx⟩, htail⟩ := h.linked
      exact ⟨⟨some p', q.rear, l.length + 1⟩, by simp [jobqueuePull, hlen, hfront, hx], ⟨htail, rfl, h.rear, rfl⟩⟩

end Jobqueue

/-! ## Owners -/

/-- The job `thpool_add_work` has filled in and not queued. -/
def Caller.newjob : Caller → Option Nat
  | .push p => some p
  | _ => none

namespace Worker

/-- The job a worker holds. -/
def jobs : Worker α → Multiset Nat
  | .post p | .unlock (some p) | .call (some p) | .running p _ | .free p => {p}
  | _ => 0

/-- The job a worker has pulled and not called. -/
def pulled (c : Memory α) : Worker α → Multiset α
  | .post p | .unlock (some p) | .call (some p) => ↑(dataAt c p).toList
  | _ => 0

/-- The call a worker is in. -/
def inside : Worker α → Multiset α
  | .running _ x => {x}
  | _ => 0

end Worker

/-- The jobs in memory, each as often as it is held. -/
def Sys.owned (s : Sys n α) (l : List Nat) : Multiset Nat := ↑(l ++ s.caller.newjob.toList) + total Worker.jobs s.worker

/-- Where the jobs `as` are, when the queue is `l`. -/
structure Jobs (as : List α) (l : List Nat) (s : Sys n α) : Prop where
  queue : IsQueue s.pool.memory s.pool.jobqueue l
  nodup : (s.owned l).Nodup
  allocated : ∀ p, s.pool.memory p ≠ none ↔ p ∈ s.owned l
  taken : ∃ taken : List α, as = taken ++ contents s.pool.memory (l ++ s.caller.newjob.toList) ∧
    (taken : Multiset α) = ↑s.pool.called + ↑s.pool.dropped + total (Worker.pulled s.pool.memory) s.worker
  called : (s.pool.called : Multiset α) = ↑s.pool.returned + total Worker.inside s.worker

/-! ## Steps -/

section Steps

variable {s s' : Sys n α} {as : List α} {l : List Nat} {pool : Thpool n α} {i : Fin n} {w : Worker α} {c : Caller}
  {sig : Signal}

theorem Jobs.start : Jobs [] [] (Sys.start n α) where
  queue := ⟨trivial, rfl, rfl, rfl⟩
  nodup := by simp [Sys.owned, Sys.start, Caller.newjob, total_zero fun _ : Fin n => (rfl : Worker.jobs (α := α) .unborn = 0)]
  allocated p := by simp [Sys.owned, Sys.start, Caller.newjob, total_zero fun _ : Fin n => (rfl : Worker.jobs (α := α) .unborn = 0)]
  taken := ⟨[], rfl, by
    simp [Sys.start, total_zero fun _ : Fin n => (rfl : Worker.pulled (α := α) (fun _ => none) .unborn = 0)]⟩
  called := by simp [Sys.start, total_zero fun _ : Fin n => (rfl : Worker.inside (α := α) .unborn = 0)]

/-- What is said of the jobs of a state can be said of one that differs from it
in other things. -/
theorem Jobs.keep (h : Jobs as l s) (hmem : s'.pool.memory = s.pool.memory) (hq : s'.pool.jobqueue = s.pool.jobqueue)
    (hcalled : s'.pool.called = s.pool.called) (hret : s'.pool.returned = s.pool.returned)
    (hdrop : s'.pool.dropped = s.pool.dropped) (hnew : s'.caller.newjob = s.caller.newjob)
    (hjobs : total Worker.jobs s'.worker = total Worker.jobs s.worker)
    (hpulled : ∀ c : Memory α, total (Worker.pulled c) s'.worker = total (Worker.pulled c) s.worker)
    (hin : total Worker.inside s'.worker = total Worker.inside s.worker) : Jobs as l s' where
  queue := hmem ▸ hq ▸ h.queue
  nodup := by
    rw [Sys.owned, hnew, hjobs]
    exact h.nodup
  allocated p := by
    rw [Sys.owned, hnew, hjobs, hmem]
    exact h.allocated p
  taken := by
    obtain ⟨taken, has, htaken⟩ := h.taken
    exact ⟨taken, by rw [has, hmem, hnew], by rw [hcalled, hdrop, hmem, hpulled, htaken]⟩
  called := by rw [hcalled, hret, hin, h.called]

theorem Jobs.woken (h : Jobs as l s) (hw : Woken s s') : Jobs as l s' :=
  h.keep (by rw [hw.pool]) (by rw [hw.pool]) (by rw [hw.pool]) (by rw [hw.pool]) (by rw [hw.pool])
    (hw.caller_eq Caller.newjob rfl) (hw.total_eq Worker.jobs rfl) (fun c => hw.total_eq (Worker.pulled c) rfl)
    (hw.total_eq Worker.inside rfl)

/-- Worker `i` pulls. -/
theorem Jobs.pull (h : Jobs as l s) {job : Option Nat} {more : Bool} {q : Jobqueue}
    (hpull : jobqueuePull s.pool.memory s.pool.jobqueue = some (job, more, q))
    (hmem : pool.memory = s.pool.memory) (hq : pool.jobqueue = q) (hcalled : pool.called = s.pool.called)
    (hret : pool.returned = s.pool.returned) (hdrop : pool.dropped = s.pool.dropped)
    (hw : s.worker i = .pull) (hjobs : w.jobs = ↑job.toList)
    (hpulled : w.pulled s.pool.memory = ↑(job.bind (dataAt s.pool.memory)).toList) (hin : w.inside = 0) :
    Jobs as l.tail { s with pool := pool, worker := update s.worker i w } := by
  obtain ⟨q', hspec, hqueue⟩ := jobqueuePull_spec h.queue
  obtain ⟨rfl, -, rfl⟩ : l.head? = job ∧ decide (2 ≤ l.length) = more ∧ q' = q := by
    simpa using hspec.symm.trans hpull
  have hsumJobs := total_update Worker.jobs s.worker i w
  have hsumPulled := total_update (Worker.pulled s.pool.memory) s.worker i w
  have hsumIn := total_update Worker.inside s.worker i w
  rw [hw, hjobs] at hsumJobs
  rw [hw, hpulled] at hsumPulled
  rw [hw, hin] at hsumIn
  simp only [Worker.jobs, Worker.pulled, Worker.inside, add_zero] at hsumJobs hsumPulled hsumIn
  have hsplit : (↑l : Multiset Nat) = ↑l.head?.toList + ↑l.tail := by cases l <;> rfl
  have howned : Sys.owned { s with pool := pool, worker := update s.worker i w } l.tail = s.owned l := by
    simp only [Sys.owned, hsumJobs, ← Multiset.coe_add, hsplit]
    abel
  refine ⟨hmem ▸ hq ▸ hqueue, howned ▸ h.nodup, fun p => ?_, ?_, ?_⟩
  · rw [howned, hmem]
    exact h.allocated p
  · obtain ⟨taken, has, htaken⟩ := h.taken
    refine ⟨taken ++ (l.head?.bind (dataAt s.pool.memory)).toList, ?_, ?_⟩
    · rw [has, hmem]
      cases l with
      | nil => simp
      | cons p l => simp [contents_cons, contents_append]
    · simp only [hcalled, hdrop, hmem, hsumPulled, ← Multiset.coe_add, htaken]
      abel
  · simp only [hcalled, hret, hsumIn, h.called]

/-- Only the data of the jobs a worker holds matter. -/
theorem Worker.pulled_congr {c c' : Memory α} (h : ∀ p ∈ w.jobs, dataAt c' p = dataAt c p) : w.pulled c' = w.pulled c := by
  cases w with
  | post p => simp [Worker.pulled, h p (Multiset.mem_singleton_self p)]
  | unlock job | call job =>
      cases job with
      | none => rfl
      | some p => simp [Worker.pulled, h p (Multiset.mem_singleton_self p)]
  | _ => rfl

theorem mem_owned {p : Nat} : p ∈ s.owned l ↔ p ∈ l ++ s.caller.newjob.toList ∨ ∃ j, p ∈ (s.worker j).jobs := by
  rw [Sys.owned, Multiset.mem_add, Multiset.mem_coe, mem_total]

/-- A job is freed: it has one owner, so nobody else misses it.  The queue and the
account of the new state are given in terms of the old memory. -/
theorem Jobs.free {l' : List Nat} {p : Nat} (h : Jobs as l s) (howned : s.owned l = s'.owned l' + {p})
    (hmem : s'.pool.memory = update s.pool.memory p none) (hqueue : IsQueue s.pool.memory s'.pool.jobqueue l')
    (htaken : ∃ taken : List α, as = taken ++ contents s.pool.memory (l' ++ s'.caller.newjob.toList) ∧
      (taken : Multiset α) = ↑s'.pool.called + ↑s'.pool.dropped + total (Worker.pulled s.pool.memory) s'.worker)
    (hcalled : (s'.pool.called : Multiset α) = ↑s'.pool.returned + total Worker.inside s'.worker) : Jobs as l' s' := by
  have hnodup : (s'.owned l' + {p}).Nodup := howned ▸ h.nodup
  rw [Multiset.add_comm, Multiset.singleton_add, Multiset.nodup_cons] at hnodup
  have hother : ∀ q ∈ s'.owned l', s'.pool.memory q = s.pool.memory q := by
    intro q hq
    have hne : q ≠ p := by
      rintro rfl
      exact hnodup.1 hq
    rw [hmem, update_of_ne hne]
  have hdata : ∀ q ∈ s'.owned l', dataAt s'.pool.memory q = dataAt s.pool.memory q := fun q hq => by
    rw [dataAt, hother q hq, dataAt]
  refine ⟨⟨linked_congr (fun q hq => hother q (mem_owned.mpr (.inl (List.mem_append_left _ hq)))) hqueue.linked,
    hqueue.front, hqueue.rear, hqueue.len⟩, hnodup.2, fun q => ?_, ?_, hcalled⟩
  · by_cases hq : q = p
    · subst hq
      simpa [hmem] using hnodup.1
    · have hold := h.allocated q
      rw [howned, Multiset.mem_add, Multiset.mem_singleton] at hold
      rw [hmem, update_of_ne hq, hold]
      simp [hq]
  · obtain ⟨taken, has, htaken⟩ := htaken
    refine ⟨taken, ?_, ?_⟩
    · rw [has, contents_congr fun q hq => hdata q (mem_owned.mpr (.inl hq))]
    · have hpulled : total (Worker.pulled s'.pool.memory) s'.worker = total (Worker.pulled s.pool.memory) s'.worker :=
        total_congr fun j => Worker.pulled_congr fun q hq => hdata q (mem_owned.mpr (.inr ⟨j, hq⟩))
      rw [htaken, hpulled]

/-- A job is added: `malloc` gives a block that nobody holds. -/
theorem Jobs.add {p : Nat} {x : α} {prev : Option Nat} (h : Jobs as l s) (hnone : s.pool.memory p = none)
    (hc : s.caller = .idle) :
    Jobs (as ++ [x]) l
      { s with pool := { s.pool with memory := update s.pool.memory p (some ⟨x, prev⟩) }, caller := .push p } := by
  have hfree : p ∉ s.owned l := fun hp => (h.allocated p).mpr hp hnone
  have howned : Sys.owned
      { s with pool := { s.pool with memory := update s.pool.memory p (some ⟨x, prev⟩) }, caller := .push p } l =
      s.owned l + {p} := by
    simp only [Sys.owned, hc, Caller.newjob, Option.toList, List.append_nil, ← Multiset.coe_add, Multiset.coe_singleton]
    abel
  have hother : ∀ q ∈ s.owned l, update s.pool.memory p (some ⟨x, prev⟩) q = s.pool.memory q := by
    intro q hq
    have hne : q ≠ p := by
      rintro rfl
      exact hfree hq
    exact update_of_ne hne ..
  have hdata : ∀ q ∈ s.owned l, dataAt (update s.pool.memory p (some ⟨x, prev⟩)) q = dataAt s.pool.memory q :=
    fun q hq => by rw [dataAt, hother q hq, dataAt]
  have hl : ∀ q ∈ l, q ∈ s.owned l := fun q hq => mem_owned.mpr (.inl (List.mem_append_left _ hq))
  refine ⟨⟨linked_congr (fun q hq => hother q (hl q hq)) h.queue.linked, h.queue.front, h.queue.rear, h.queue.len⟩,
    ?_, fun q => ?_, ?_, h.called⟩
  · rw [howned, Multiset.add_comm, Multiset.singleton_add, Multiset.nodup_cons]
    exact ⟨hfree, h.nodup⟩
  · rw [howned, Multiset.mem_add, Multiset.mem_singleton, ← h.allocated q]
    by_cases hq : q = p <;> simp [hq]
  · obtain ⟨taken, has, htaken⟩ := h.taken
    refine ⟨taken, ?_, ?_⟩
    · have hnew : dataAt (update s.pool.memory p (some ⟨x, prev⟩)) p = some x := by simp [dataAt]
      have hold : contents (update s.pool.memory p (some ⟨x, prev⟩)) l = contents s.pool.memory l :=
        contents_congr fun q hq => hdata q (hl q hq)
      simp [has, hc, Caller.newjob, contents_append, contents_cons, hold, hnew]
    · have hpulled : total (Worker.pulled (update s.pool.memory p (some ⟨x, prev⟩))) s.worker =
          total (Worker.pulled s.pool.memory) s.worker :=
        total_congr fun j => Worker.pulled_congr fun q hq => hdata q (mem_owned.mpr (.inr ⟨j, hq⟩))
      rw [htaken, hpulled]

/-- The actions of a worker. -/
theorem Jobs.worker (h : Jobs as l s) (hdo : ThreadDo s.pool i (s.worker i) pool w sig) :
    ∃ l', Jobs as l' { s with pool := pool, worker := update s.worker i w } := by
  generalize hw : s.worker i = old at hdo
  have hsumJobs := total_update Worker.jobs s.worker i w
  have hsumPulled := total_update (Worker.pulled s.pool.memory) s.worker i w
  have hsumIn := total_update Worker.inside s.worker i w
  rw [hw] at hsumJobs hsumPulled hsumIn
  cases hdo with
  | pullMore hlock hpull => exact ⟨_, h.pull hpull rfl rfl rfl rfl rfl hw rfl rfl rfl⟩
  | @pull job more q hlock hpull hmore => exact ⟨_, h.pull hpull rfl rfl rfl rfl rfl hw (by cases job <;> rfl) (by cases job <;> rfl) rfl⟩
  | @call job node hjob =>
      have hdata : dataAt s.pool.memory job = some node.data := by rw [dataAt, hjob, Option.map_some]
      simp only [Worker.pulled, Worker.inside, hdata, Option.toList, Multiset.coe_singleton, add_zero] at hsumPulled hsumIn
      refine ⟨l, h.queue, ?_, fun p => ?_, ?_, ?_⟩
      · simpa only [Sys.owned, total_update_of_eq (w := Worker.jobs) (f := s.worker) (i := i) (b := .running job node.data)
          (by rw [hw]; rfl)] using h.nodup
      · simpa only [Sys.owned, total_update_of_eq (w := Worker.jobs) (f := s.worker) (i := i) (b := .running job node.data)
          (by rw [hw]; rfl)] using h.allocated p
      · obtain ⟨taken, has, htaken⟩ := h.taken
        refine ⟨taken, has, ?_⟩
        simp only [htaken, ← hsumPulled, ← Multiset.coe_add, Multiset.coe_singleton]
        abel
      · simp only [← Multiset.coe_add, Multiset.coe_singleton, h.called, hsumIn]
        abel
  | @ret job x =>
      simp only [Worker.inside, add_zero] at hsumIn
      refine ⟨l, h.queue, ?_, fun p => ?_, ?_, ?_⟩
      · simpa only [Sys.owned, total_update_of_eq (w := Worker.jobs) (f := s.worker) (i := i) (b := .free job)
          (by rw [hw]; rfl)] using h.nodup
      · simpa only [Sys.owned, total_update_of_eq (w := Worker.jobs) (f := s.worker) (i := i) (b := .free job)
          (by rw [hw]; rfl)] using h.allocated p
      · obtain ⟨taken, has, htaken⟩ := h.taken
        refine ⟨taken, has, ?_⟩
        simpa only [total_update_of_eq (w := Worker.pulled s.pool.memory) (f := s.worker) (i := i) (b := .free job)
          (by rw [hw]; rfl)] using htaken
      · simp only [h.called, ← hsumIn, ← Multiset.coe_add, Multiset.coe_singleton]
        abel
  | @free job node hjob =>
      simp only [Worker.jobs, add_zero] at hsumJobs
      refine ⟨l, h.free ?_ rfl h.queue ?_ ?_⟩
      · simp only [Sys.owned, ← hsumJobs]
        abel
      · simpa only [total_update_of_eq (w := Worker.pulled s.pool.memory) (f := s.worker) (i := i) (b := .leave)
          (by rw [hw]; rfl)] using h.taken
      · simpa only [total_update_of_eq (w := Worker.inside) (f := s.worker) (i := i) (b := .leave) (by rw [hw]; rfl)]
          using h.called
  | @unlock job =>
      cases job <;>
        exact ⟨l, h.keep rfl rfl rfl rfl rfl rfl (total_update_of_eq (by rw [hw]; rfl))
          (fun c => total_update_of_eq (by rw [hw]; rfl)) (total_update_of_eq (by rw [hw]; rfl))⟩
  | _ =>
      exact ⟨l, h.keep rfl rfl rfl rfl rfl rfl (total_update_of_eq (by rw [hw]; rfl))
        (fun c => total_update_of_eq (by rw [hw]; rfl)) (total_update_of_eq (by rw [hw]; rfl))⟩

/-- A job that is queued is a block of its own. -/
theorem Jobs.push_spec (h : Jobs as l s) {p : Nat} (hc : s.caller = .push p) :
    ∃ c q, jobqueuePush s.pool.memory s.pool.jobqueue p = some (c, q) ∧ IsQueue c q (l ++ [p]) ∧
      ∀ a, dataAt c a = dataAt s.pool.memory a := by
  have hnodup : (l ++ [p]).Nodup := by
    have := Multiset.nodup_of_le (Multiset.le_add_right _ _) h.nodup
    simpa [hc, Caller.newjob] using this
  have hp : p ∉ l := fun hmem => (List.nodup_append.mp hnodup).2.2 p hmem p (List.mem_singleton_self p) rfl
  have howned : p ∈ s.owned l := mem_owned.mpr (.inl (by simp [hc, Caller.newjob]))
  obtain ⟨job, hjob⟩ := Option.ne_none_iff_exists'.mp ((h.allocated p).mpr howned)
  exact jobqueuePush_spec h.queue (List.nodup_append.mp hnodup).1 hp hjob

/-- The caller queues its job. -/
theorem Jobs.push (h : Jobs as l s) {p : Nat} {c : Memory α} {q : Jobqueue} (hc : s.caller = .push p)
    (hpush : jobqueuePush s.pool.memory s.pool.jobqueue p = some (c, q)) :
    Jobs as (l ++ [p])
      { s with pool := { s.pool with memory := c, jobqueue := q, rwmutex := some .caller }, caller := .post } := by
  obtain ⟨c', q', hspec, hqueue, hdata⟩ := h.push_spec hc
  obtain ⟨rfl, rfl⟩ : c' = c ∧ q' = q := by simpa using hspec.symm.trans hpush
  have howned : Sys.owned
      { s with pool := { s.pool with memory := c', jobqueue := q', rwmutex := some .caller }, caller := .post } (l ++ [p]) =
      s.owned l := by
    simp [Sys.owned, hc, Caller.newjob]
  refine ⟨hqueue, howned ▸ h.nodup, fun a => ?_, ?_, h.called⟩
  · rw [howned, ← h.allocated a]
    simpa [dataAt] using congrArg (· ≠ none) (hdata a)
  · obtain ⟨taken, has, htaken⟩ := h.taken
    refine ⟨taken, ?_, ?_⟩
    · rw [has, hc]
      simp [Caller.newjob, contents_congr fun a _ => hdata a]
    · rw [htaken]
      exact congrArg _ (total_congr fun j => Worker.pulled_congr fun a _ => (hdata a).symm)

/-- One round of `jobqueue_clear`: the job pulled is freed. -/
theorem Jobs.clear (h : Jobs as l s) {t : Int} {p : Nat} {more : Bool} {q : Jobqueue} {node : Job α} (hc : s.caller = .clear t)
    (hpull : jobqueuePull s.pool.memory s.pool.jobqueue = some (some p, more, q)) (hjob : s.pool.memory p = some node) :
    Jobs as l.tail
      { s with
        pool := { s.pool with
          jobqueue := q, hasJobs := s.pool.hasJobs || more, memory := update s.pool.memory p none
          dropped := s.pool.dropped ++ [node.data] }
        caller := .clear t } := by
  obtain ⟨q', hspec, hqueue⟩ := jobqueuePull_spec h.queue
  obtain ⟨hhead, -, rfl⟩ : l.head? = some p ∧ decide (2 ≤ l.length) = more ∧ q' = q := by
    simpa using hspec.symm.trans hpull
  obtain ⟨l', rfl⟩ : ∃ l', l = p :: l' := ⟨l.tail, by cases l <;> simp_all⟩
  have hdata : dataAt s.pool.memory p = some node.data := by rw [dataAt, hjob, Option.map_some]
  refine h.free (p := p) ?_ rfl hqueue ?_ h.called
  · simp only [Sys.owned, hc, Caller.newjob, Option.toList, List.append_nil, List.tail_cons, ← Multiset.cons_coe,
      ← Multiset.singleton_add]
    abel
  · obtain ⟨taken, has, htaken⟩ := h.taken
    refine ⟨taken ++ [node.data], ?_, ?_⟩
    · rw [has]
      simp [hc, Caller.newjob, contents_cons, hdata]
    · simp only [← Multiset.coe_add, htaken, Multiset.coe_singleton]
      abel

/-- The actions of the caller. -/
theorem Jobs.caller (h : Jobs as l s) (hdo : CallerDo s.pool s.caller pool c sig) :
    ∃ l', Jobs as l' { s with pool := pool, caller := c } := by
  generalize hc : s.caller = old at hdo
  cases hdo with
  | push hlock hpush => exact ⟨_, h.push hc hpush⟩
  | @cleared t hlen =>
      have hnil : l = [] := List.eq_nil_of_length_eq_zero (h.queue.len ▸ hlen)
      subst hnil
      exact ⟨[], ⟨trivial, rfl, rfl, rfl⟩, by simpa [Sys.owned, hc, Caller.newjob] using h.nodup,
        by simpa [Sys.owned, hc, Caller.newjob] using h.allocated, by simpa [hc, Caller.newjob] using h.taken, h.called⟩
  | @clearNone more q t hlen hlock hpull =>
      obtain ⟨q', hspec, -⟩ := jobqueuePull_spec h.queue
      obtain ⟨hhead, -⟩ : l.head? = none ∧ decide (2 ≤ l.length) = more ∧ q' = q := by
        simpa using hspec.symm.trans hpull
      exact absurd h.queue.len (by simpa [List.head?_eq_none_iff.mp hhead] using hlen)
  | clear hlen hlock hpull hjob => exact ⟨_, h.clear hc hpull hjob⟩
  | _ => exact ⟨l, h.keep rfl rfl rfl rfl rfl (by rw [hc]; rfl) rfl (fun c => rfl) rfl⟩

theorem Jobs.append_nil (h : Jobs as l s) : Jobs (as ++ []) l s := by rwa [List.append_nil]

/-- **Every event keeps the account.** -/
theorem Jobs.step {e : Event n α} (h : Jobs as l s) (hbase : Base s) (hstep : Step s e s') :
    ∃ l', Jobs (as ++ added [e]) l' s' := by
  cases hstep with
  | init hc | refuse hc | created _ hc | wait hc | destroy hc | wakeCaller hc =>
      exact ⟨l, .append_nil (h.keep rfl rfl rfl rfl rfl (by rw [hc]; rfl) rfl (fun c => rfl) rfl)⟩
  | @create k ok hc hk =>
      have hworker := create_worker ok (hbase.phases.unborn ⟨k, hk⟩ (by simp [hc, Caller.passed]))
      have heq : ∀ {M : Type} [AddCommMonoid M] (w : Worker α → M), w .born = w .unborn →
          total w (if ok then update s.worker ⟨k, hk⟩ .born else s.worker) = total w s.worker := by
        intro M _ w hw
        refine total_congr fun j => ?_
        obtain hj | ⟨-, hborn, hold⟩ := hworker j
        · rw [hj]
        · rw [hborn, hold, hw]
      exact ⟨l, .append_nil (h.keep rfl rfl rfl rfl rfl (by rw [hc]; rfl) (heq _ rfl) (fun c => heq _ rfl) (heq _ rfl))⟩
  | addFailed => exact ⟨l, h.append_nil⟩
  | add x prev hc hp => exact ⟨l, h.add hp hc⟩
  | caller hdo hsig =>
      obtain ⟨l', hmid⟩ := h.caller hdo
      exact ⟨l', (hmid.woken (signal_woken hsig)).append_nil⟩
  | worker hsafe hdo hsig =>
      obtain ⟨l', hmid⟩ := h.worker hdo
      exact ⟨l', (hmid.woken (signal_woken hsig)).append_nil⟩
  | wake hi => exact ⟨l, (h.woken (woken_update hi)).append_nil⟩

end Steps

end OperatingSystem.Pool
