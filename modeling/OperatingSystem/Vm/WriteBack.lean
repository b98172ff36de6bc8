import OperatingSystem.Vm.Tlb

/-!
# OperatingSystem.Vm.WriteBack

The disk traffic and the statistics of whole runs.  A stay of a page in memory
goes from the fault that loads it to its eviction: it begins with one read, and
ends with one write to the same frame's page if a `W` request to the page fell
into it, whichever of the three access paths served that request
(`disk_traffic_exact`).
-/

namespace OperatingSystem.Vm

/-! ## Transfers -/

def DiskOp.page : DiskOp → VPage
  | .read _ x => x
  | .write _ x => x

def DiskOp.isRead : DiskOp → Bool
  | .read _ _ => true
  | .write _ _ => false

@[simp] theorem page_read (f : Int) (x : VPage) : (DiskOp.read f x).page = x := rfl

@[simp] theorem page_write (f : Int) (x : VPage) : (DiskOp.write f x).page = x := rfl

@[simp] theorem isRead_read (f : Int) (x : VPage) : (DiskOp.read f x).isRead = true := rfl

@[simp] theorem isRead_write (f : Int) (x : VPage) : (DiskOp.write f x).isRead = false := rfl

/-- The transfers of one page, in order. -/
def transfers (s : State) (x : VPage) : List DiskOp := s.diskLog.filter fun op => op.page = x

/-- One of the requests writes to the page. -/
def Writes (reqs : List Request) (x : VPage) : Prop := ∃ r ∈ reqs, r.vpage = x ∧ r.type = 'W'

instance (reqs : List Request) (x : VPage) : Decidable (Writes reqs x) :=
  inferInstanceAs (Decidable (∃ r ∈ reqs, _))

theorem writes_concat (reqs : List Request) (r : Request) (x : VPage) :
    Writes (reqs ++ [r]) x ↔ Writes reqs x ∨ r.vpage = x ∧ r.type = 'W' := by
  simp [Writes, or_and_right, exists_or]

/-- Page `x` is in memory from the request `load` on, through the requests
`during`. -/
structure Stay (policy : Policy) (before : List Request) (load : Request) (during : List Request) (x : VPage) :
    Prop where
  absent : ∀ s, run policy before = some s → ¬ Resident s x
  present : ∀ pre, pre <+: during → ∀ s, run policy (before ++ load :: pre) = some s → Resident s x

/-- The counters after a run with so many evictions. -/
structure Counted (reqs : List Request) (evictions : Nat) (s : State) : Prop where
  requests : s.stats.hitCount + s.stats.missCount = reqs.length
  lookups : s.stats.tlbHitCount + s.stats.tlbMissCount = reqs.length
  misses : s.stats.missCount = s.numDiskRead
  tlbHits_le : s.stats.tlbHitCount ≤ s.stats.hitCount
  frames : (s.stats.missCount : Int) - evictions = s.frameInd
  reads : s.numDiskRead = s.diskLog.countP DiskOp.isRead
  writes : s.numDiskWrite = s.diskLog.countP fun op => !op.isRead

theorem counted_init (policy : Policy) : Counted [] 0 (State.init policy) :=
  ⟨rfl, rfl, rfl, Nat.le_refl 0, rfl, rfl, rfl⟩

/-- The evictions so far. -/
def countEvicted (n : Nat) (s : State) (_ : Request) (s' : State) : Nat := n + (evicted s s').length

section Step

variable {s s' : State} {x : VPage} {rep : Reply}

/-- What a request does to a page: nothing, or it loads, keeps or evicts it. -/
inductive PageStep (s : State) (r : Request) (x : VPage) (s' : State) : Prop
  | idle (before : ¬ Resident s x) (after : ¬ Resident s' x) (traffic : transfers s' x = transfers s x)
  | load (before : ¬ Resident s x) (requested : r.vpage = x) (f : Int)
      (entry : s'.entry x = ⟨f, true, decide (r.type = 'W')⟩)
      (traffic : transfers s' x = transfers s x ++ [.read f x])
  | keep (before : Resident s x)
      (entry : s'.entry x = { s.entry x with dirty := (s.entry x).dirty || decide (r.vpage = x ∧ r.type = 'W') })
      (traffic : transfers s' x = transfers s x)
  | evict (before : Resident s x) (after : ¬ Resident s' x)
      (traffic : transfers s' x =
        transfers s x ++ if (s.entry x).dirty then [.write (s.entry x).frameNo x] else [])

theorem transfers_append (h : s'.diskLog = s.diskLog ++ ops) (x : VPage) :
    transfers s' x = transfers s x ++ ops.filter fun op => op.page = x := by
  rw [transfers, h, List.filter_append, transfers]

theorem HitStep.page {r : Request} (h : HitStep s r.vpage r.offset r.type s' rep) (x : VPage) :
    PageStep s r x s' := by
  have htraffic : transfers s' x = transfers s x := by rw [transfers, h.diskLog, transfers]
  by_cases hres : Resident s x
  · refine .keep hres ?_ htraffic
    rw [h.entry, State.markDirty, State.setEntry]
    by_cases hx : x = r.vpage
    · subst hx
      by_cases hw : r.type = 'W' <;> simp [hw]
    · simp [hx, Ne.symm hx]
  · refine .idle hres ?_ htraffic
    rw [Resident, h.entry, markDirty_valid]
    exact hres

theorem LoadStep.page {r : Request} (h : LoadStep s r.vpage r.offset r.type s' rep) (x : VPage) :
    PageStep s r x s' := by
  have htraffic := transfers_append h.diskLog x
  by_cases hx : r.vpage = x
  · subst hx
    refine .load (by simp [Resident, h.missing]) rfl s.frameInd (by rw [h.entry, Function.update_self]) ?_
    rw [htraffic]
    simp
  · have hentry : s'.entry x = s.entry x := by rw [h.entry, Function.update_of_ne (Ne.symm hx)]
    simp only [page_read, List.filter_cons, hx, decide_false, Bool.false_eq_true, if_false, List.filter_nil,
      List.append_nil] at htraffic
    by_cases hres : Resident s x
    · exact .keep hres (by simp [hentry, hx]) htraffic
    · exact .idle hres (by rwa [Resident, hentry]) htraffic

theorem EvictStep.page {r : Request} (hinv : Inv s) (h : EvictStep s r.vpage r.offset r.type r.rnd v s' rep)
    (x : VPage) : PageStep s r x s' := by
  obtain ⟨hvictim, hframe⟩ := hinv.frame_resident v (by rw [h.full]; omega)
  have hne : s.invertTable v ≠ r.vpage := by
    intro heq
    rw [heq, h.missing] at hvictim
    contradiction
  have htraffic := transfers_append (h.diskLog.trans (List.append_assoc _ _ _)) x
  rw [List.filter_append] at htraffic
  by_cases hx : r.vpage = x
  · subst hx
    refine .load (by simp [Resident, h.missing]) rfl v (by rw [h.entry, Function.update_self]) ?_
    rw [htraffic]
    cases (s.entry (s.invertTable v)).dirty <;> simp [hne]
  · have hread : [DiskOp.read (v : Int) r.vpage].filter (fun op => op.page = x) = [] := by simp [hx]
    rw [hread, List.append_nil] at htraffic
    by_cases hv : s.invertTable v = x
    · subst hv
      refine .evict hvictim ?_ ?_
      · rw [h.resident_iff hinv]
        simp [hne]
      · rw [htraffic, hframe]
        cases (s.entry (s.invertTable v)).dirty <;> simp
    · have hentry : s'.entry x = s.entry x := by
        rw [h.entry, Function.update_of_ne (Ne.symm hx), Function.update_of_ne (Ne.symm hv)]
      have hnone : (if (s.entry (s.invertTable v)).dirty then [DiskOp.write v (s.invertTable v)] else []).filter
          (fun op => op.page = x) = [] := by
        cases (s.entry (s.invertTable v)).dirty <;> simp [hv]
      rw [hnone, List.append_nil] at htraffic
      by_cases hres : Resident s x
      · exact .keep hres (by simp [hentry, hx]) htraffic
      · exact .idle hres (by rwa [Resident, hentry]) htraffic

/-- **One request**, as it concerns one page. -/
theorem page_step (hinv : Inv s) {r : Request}
    (hstep : HitStep s r.vpage r.offset r.type s' rep ∨ LoadStep s r.vpage r.offset r.type s' rep ∨
      ∃ victim, EvictStep s r.vpage r.offset r.type r.rnd victim s' rep) (x : VPage) : PageStep s r x s' := by
  rcases hstep with h | h | ⟨v, h⟩
  · exact h.page x
  · exact h.page x
  · exact h.page hinv x

/-- **One request**, as it concerns the counters. -/
theorem Counted.step (hcount : Counted reqs n s) (hinv : Inv s) {r : Request}
    (hstep : HitStep s r.vpage r.offset r.type s' rep ∨ LoadStep s r.vpage r.offset r.type s' rep ∨
      ∃ victim, EvictStep s r.vpage r.offset r.type r.rnd victim s' rep) :
    Counted (reqs ++ [r]) (countEvicted n s r s') s' := by
  obtain ⟨hreq, hlook, hmiss, hle, hframes, hreads, hwrites⟩ := hcount
  rcases hstep with h | h | ⟨v, h⟩
  · have hstats := h.stats
    obtain ⟨hnr, hnw⟩ := h.numDisk
    cases hhit : rep.tlbhit <;> rw [hhit] at hstats <;>
      refine ⟨?_, ?_, ?_, ?_, ?_, ?_, ?_⟩ <;>
      simp [hstats, hnr, hnw, h.diskLog, h.frameInd, countEvicted, h.evicted] <;> omega
  · obtain ⟨hnr, hnw⟩ := h.numDisk
    refine ⟨?_, ?_, ?_, ?_, ?_, ?_, ?_⟩ <;>
      simp [h.stats, hnr, hnw, h.diskLog, h.frameInd, countEvicted, h.evicted] <;> omega
  · obtain ⟨hnr, hnw⟩ := h.numDisk
    cases hd : (s.entry (s.invertTable v)).dirty <;> rw [hd] at hnw <;>
      refine ⟨?_, ?_, ?_, ?_, ?_, ?_, ?_⟩ <;>
      simp [h.stats, hnr, hnw, h.diskLog, h.frameInd, countEvicted, h.evicted hinv, hd] <;> omega

end Step

/-! ## Runs -/

section Stay

variable {policy : Policy} {before during reqs : List Request} {load r : Request} {x : VPage}

theorem Stay.left (h : Stay policy before load (during ++ [r]) x) : Stay policy before load during x :=
  ⟨h.absent, fun pre hpre => h.present pre (hpre.trans (List.prefix_append _ _))⟩

/-- A stay of so many requests: one read at its start, and the page is dirty iff
one of them wrote to it. -/
theorem stay_traffic (hstay : Stay policy before load during x) (h : Admissible policy (before ++ load :: during)) :
    ∃ s₀ s₁ s f, run policy before = some s₀ ∧ run policy (before ++ [load]) = some s₁ ∧
      run policy (before ++ load :: during) = some s ∧
      transfers s₁ x = transfers s₀ x ++ [.read f x] ∧ transfers s x = transfers s₁ x ∧
      s.entry x = ⟨f, true, decide (Writes (load :: during) x)⟩ := by
  induction during using List.reverseRecOn with
  | nil =>
      obtain ⟨s₀, s₁, rep, hrun₀, hreach, hreq, -, hcases⟩ := run_concat_spec h
      have hrun₁ := run_concat hrun₀ hreq
      have habsent := hstay.absent s₀ hrun₀
      have hpresent := hstay.present [] (List.prefix_refl _) s₁ hrun₁
      cases page_step hreach.inv hcases x with
      | idle _ hafter => exact absurd hpresent hafter
      | load _ hx f hentry htraffic =>
          refine ⟨s₀, s₁, s₁, f, hrun₀, hrun₁, hrun₁, htraffic, rfl, ?_⟩
          rw [hentry]
          simp [Writes, hx]
      | keep hbefore => exact absurd hbefore habsent
      | evict hbefore => exact absurd hbefore habsent
  | append_singleton during r ih =>
      rw [← List.cons_append, ← List.append_assoc] at h ⊢
      obtain ⟨s₀, s₁, s, f, hrun₀, hrun₁, hrun, hread, hsame, hentry⟩ := ih hstay.left h.left
      obtain ⟨t, s', rep, hrun', hreach, hreq, -, hcases⟩ := run_concat_spec h
      obtain rfl := Option.some.inj (hrun.symm.trans hrun')
      have hnext := run_concat hrun hreq
      have hbefore := hstay.present during (List.prefix_append _ _) s hrun
      have hafter := hstay.present (during ++ [r]) (List.prefix_refl _) s' (by simpa using hnext)
      refine ⟨s₀, s₁, s', f, hrun₀, hrun₁, hnext, hread, ?_⟩
      cases page_step hreach.inv hcases x with
      | idle hnot => exact absurd hbefore hnot
      | load hnot => exact absurd hbefore hnot
      | keep _ hentry' htraffic =>
          refine ⟨htraffic.trans hsame, ?_⟩
          rw [hentry', hentry]
          simp only [writes_concat, Bool.decide_or]
      | evict _ hnot => exact absurd hafter hnot

end Stay

/-- **Write-back and statistics are exact**: after every admitted run, under
every policy, the counters are what they count; a page's stay begins with one
read and, when a request evicts the page, ends with one write if a `W` request
fell into the stay; and a page that is not in memory is not transferred. -/
theorem disk_traffic_exact (policy : Policy) (reqs : List Request) (h : Admissible policy reqs) :
    ∃ s evictions, run policy reqs = some s ∧
      Run.exec (Run.watch step countEvicted) (State.init policy, 0) reqs = some (s, evictions) ∧
      Counted reqs evictions s ∧
      (∀ before load during x, reqs = before ++ load :: during → Stay policy before load during x →
        ∃ s₀ s₁ f, run policy before = some s₀ ∧ run policy (before ++ [load]) = some s₁ ∧
          transfers s₁ x = transfers s₀ x ++ [.read f x] ∧ transfers s x = transfers s₁ x ∧
          ∀ r s', Admissible policy (reqs ++ [r]) → run policy (reqs ++ [r]) = some s' → ¬ Resident s' x →
            transfers s' x = transfers s x ++ if Writes (load :: during) x then [.write f x] else []) ∧
      (∀ r s' x, Admissible policy (reqs ++ [r]) → run policy (reqs ++ [r]) = some s' → ¬ Resident s x →
        ¬ Resident s' x → transfers s' x = transfers s x) := by
  obtain ⟨s, n, hrun, hwatch, hreach, hcount⟩ := watch_spec (fun reqs s n => Counted reqs n s) (counted_init policy)
    (fun _ _ _ _ _ _ hcount hinv hstep => hcount.step hinv hstep) h
  have hpage : ∀ r s', Admissible policy (reqs ++ [r]) → run policy (reqs ++ [r]) = some s' → ∀ x, PageStep s r x s' := by
    intro r s' hadm hrun'
    obtain ⟨s', rep, hreq, -, hcases⟩ := hreach.request (hadm.1 r (by simp)) hadm.2
    obtain rfl := Option.some.inj ((run_concat hrun hreq).symm.trans hrun')
    exact page_step hreach.inv hcases
  refine ⟨s, n, hrun, hwatch, hcount, ?_, fun r s' x hadm hrun' hnot hnot' => ?_⟩
  · rintro before load during x rfl hstay
    obtain ⟨s₀, s₁, s₂, f, hrun₀, hrun₁, hrun₂, hread, hsame, hentry⟩ := stay_traffic hstay h
    obtain rfl := Option.some.inj (hrun.symm.trans hrun₂)
    refine ⟨s₀, s₁, f, hrun₀, hrun₁, hread, hsame, fun r s' hadm hrun' hnot => ?_⟩
    have hres := hstay.present during (List.prefix_refl _) s hrun
    cases hpage r s' hadm hrun' x with
    | idle hbefore => exact absurd hres hbefore
    | load hbefore => exact absurd hres hbefore
    | keep _ hentry' => exact absurd (by rw [Resident, hentry', hentry]) hnot
    | evict _ _ htraffic =>
        rw [htraffic, hentry]
        simp
  · cases hpage r s' hadm hrun' x with
    | idle _ _ htraffic => exact htraffic
    | load _ _ f hentry => exact absurd (by rw [Resident, hentry]) hnot'
    | keep hbefore => exact absurd hbefore hnot
    | evict hbefore => exact absurd hbefore hnot

theorem disk_traffic_exact_allPages : ∃ s evictions, run .fifo allPages = some s ∧
    Run.exec (Run.watch step countEvicted) (State.init .fifo, 0) allPages = some (s, evictions) ∧
    Counted allPages evictions s ∧
    (∀ before load during x, allPages = before ++ load :: during → Stay .fifo before load during x →
      ∃ s₀ s₁ f, run .fifo before = some s₀ ∧ run .fifo (before ++ [load]) = some s₁ ∧
        transfers s₁ x = transfers s₀ x ++ [.read f x] ∧ transfers s x = transfers s₁ x ∧
        ∀ r s', Admissible .fifo (allPages ++ [r]) → run .fifo (allPages ++ [r]) = some s' → ¬ Resident s' x →
          transfers s' x = transfers s x ++ if Writes (load :: during) x then [.write f x] else []) ∧
    (∀ r s' x, Admissible .fifo (allPages ++ [r]) → run .fifo (allPages ++ [r]) = some s' → ¬ Resident s x →
      ¬ Resident s' x → transfers s' x = transfers s x) :=
  disk_traffic_exact .fifo allPages (by decide)

end OperatingSystem.Vm
