import OperatingSystem.Vm.Invariant

/-!
# OperatingSystem.Vm.Run

Runs of requests from the initial state, and the law of the two tables.

A request is admitted when its pid and page are inside the tables and, under
LRU, the run's second request is not to the page of its first: that one run is
the one LRU's list does not survive (`OperatingSystem.Vm.Lru`).  Every run of
admitted requests returns, and the page table and the inverted table are
inverse to each other in every state it reaches (`tables_inverse`).
-/

namespace OperatingSystem.Vm

open Dlist Recency

/-- A line of the simulator's input: the arguments of one `MMU` call.  `rnd` is
the value `rand()` returns if the request makes a random eviction. -/
structure Request where
  pid : Int
  addr : Int
  type : Char
  rnd : Nat
deriving DecidableEq

namespace Request

/-- The page number and the pid are indices of the tables. -/
def Valid (r : Request) : Prop :=
  (0 ≤ r.pid ∧ r.pid < maxPid) ∧ (0 ≤ r.addr.shiftRight 8 ∧ r.addr.shiftRight 8 < maxPage)

instance (r : Request) : Decidable r.Valid := inferInstanceAs (Decidable (_ ∧ _))

/-- The page a request is to. -/
def vpage (r : Request) : VPage := (Fin.ofNat maxPid r.pid.toNat, Fin.ofNat maxPage (r.addr.shiftRight 8).toNat)

def offset (r : Request) : Int := r.addr - r.addr.shiftRight 8 * 256

end Request

/-- One call of `MMU`, with both flags clear before it. -/
def request (s : State) (r : Request) : Option (State × Reply) :=
  mmu s r.pid r.addr r.type r.rnd false false

/-- A valid request gets past both guards and is served. -/
theorem request_of_valid (s : State) {r : Request} (h : r.Valid) :
    request s r = serve s r.vpage r.offset r.type r.rnd := by
  obtain ⟨⟨hp0, hp⟩, ha0, ha⟩ := h
  have hpid : index maxPid r.pid = some r.vpage.1 := by
    rw [index, dif_pos ⟨hp0, hp⟩]
    exact congrArg some (Fin.ext (Nat.mod_eq_of_lt (by omega)).symm)
  have hpage : index maxPage (r.addr.shiftRight 8) = some r.vpage.2 := by
    rw [index, dif_pos ⟨ha0, ha⟩]
    exact congrArg some (Fin.ext (Nat.mod_eq_of_lt (by omega)).symm)
  rw [request, mmu, if_neg (by omega), if_neg (by omega), hpid, hpage]
  rfl

/-- `MMU` as a step on the state. -/
def step (s : State) (r : Request) : Option State := (request s r).map Prod.fst

/-- The state after a run of requests; `none` when one of them has undefined
behaviour. -/
def run (policy : Policy) (reqs : List Request) : Option State :=
  Run.exec step (State.init policy) reqs

/-- A run that goes on for one more request. -/
theorem run_concat (hrun : run policy reqs = some s) (hreq : request s r = some (s', rep)) :
    run policy (reqs ++ [r]) = some s' := by
  rw [run, Run.exec_concat, ← run, hrun, Option.bind_some, step, hreq, Option.map_some]

/-- The second request is to another page than the first. -/
def SecondDiffers : List Request → Prop
  | r₁ :: r₂ :: _ => r₁.vpage ≠ r₂.vpage
  | _ => True

instance : (reqs : List Request) → Decidable (SecondDiffers reqs)
  | [] => inferInstanceAs (Decidable True)
  | [_] => inferInstanceAs (Decidable True)
  | _ :: _ :: _ => inferInstanceAs (Decidable (_ ≠ _))

/-- The runs the simulator serves: requests to pages of the tables, and under
LRU a second request to another page than the first. -/
def Admissible (policy : Policy) (reqs : List Request) : Prop :=
  (∀ r ∈ reqs, r.Valid) ∧ (policy = .lru → SecondDiffers reqs)

instance (policy : Policy) (reqs : List Request) : Decidable (Admissible policy reqs) :=
  inferInstanceAs (Decidable (_ ∧ _))

/-- Only LRU needs more than valid requests. -/
theorem admissible_of_valid {reqs : List Request} (hpolicy : policy ≠ .lru) (h : ∀ r ∈ reqs, r.Valid) :
    Admissible policy reqs :=
  ⟨h, fun hp => absurd hp hpolicy⟩

theorem secondDiffers_of_append {as bs : List Request} (h : SecondDiffers (as ++ bs)) :
    SecondDiffers as :=
  match as, h with
  | [], _ => trivial
  | [_], _ => trivial
  | _ :: _ :: _, h => h

theorem Admissible.left {as bs : List Request} (h : Admissible policy (as ++ bs)) :
    Admissible policy as :=
  ⟨fun r hr => h.1 r (List.mem_append_left _ hr), fun hp => secondDiffers_of_append (h.2 hp)⟩

/-! ## The run invariant -/

/-- What holds after a run of requests to the pages `hist`. -/
structure Reached (policy : Policy) (hist : List VPage) (s : State) : Prop where
  inv : Inv s
  policy_eq : s.replacementPolicy = policy
  recency : RecencyLaw hist s

theorem reached_init (policy : Policy) : Reached policy [] (State.init policy) :=
  ⟨inv_init policy, rfl, recencyLaw_init policy⟩

/-- LRU is only ever asked to move the only frame of its list by the second
request of a run, to the page of the first. -/
theorem Reached.ready {reqs : List Request} (h : Reached policy (reqs.map Request.vpage) s)
    (hdiff : policy = .lru → SecondDiffers (reqs ++ [r])) : Ready s r.vpage := by
  intro hp hone
  by_contra hres
  have hlen := length_take_recent h.inv hp h.recency
  have hmem := (mem_recent_iff_resident h.inv hp h.recency).mpr (by simpa using hres)
  have hall : ∀ q ∈ reqs, q.vpage = r.vpage := by
    intro q hq
    have hq' : q.vpage ∈ (recent (reqs.map Request.vpage)).take maxFrame := by
      rw [List.take_of_length_le (by rw [List.length_take] at hlen; have : maxFrame = 8 := rfl; omega)]
      exact mem_recent.mpr (List.mem_map_of_mem hq)
    have hlen' : ((recent (reqs.map Request.vpage)).take maxFrame).length = 1 := by omega
    obtain ⟨y, hy⟩ := List.length_eq_one_iff.mp hlen'
    rw [hy, List.mem_singleton] at hmem hq'
    rw [hmem, hq']
  have hdiff' := hdiff (h.policy_eq ▸ hp)
  match reqs, hall, hdiff', hmem with
  | [], _, _, hmem => simp at hmem
  | [q], hall, hdiff', _ => exact hdiff' (hall q (by simp))
  | q₁ :: q₂ :: _, hall, hdiff', _ =>
      exact hdiff' ((hall q₁ (by simp)).trans (hall q₂ (by simp)).symm)

/-- **One request of a run**: it returns, as a hit, a load or an eviction, and
the run invariant goes on. -/
theorem Reached.request {reqs : List Request} (h : Reached policy (reqs.map Request.vpage) s)
    (hvalid : r.Valid) (hdiff : policy = .lru → SecondDiffers (reqs ++ [r])) :
    ∃ s' rep, Vm.request s r = some (s', rep) ∧ Reached policy ((reqs ++ [r]).map Request.vpage) s' ∧
      (HitStep s r.vpage r.offset r.type s' rep ∨ LoadStep s r.vpage r.offset r.type s' rep ∨
        ∃ victim, EvictStep s r.vpage r.offset r.type r.rnd victim s' rep) := by
  obtain ⟨s', rep, hserve, hstep⟩ :=
    serve_cases h.inv (h.ready hdiff) r.offset r.type r.rnd
  rw [← request_of_valid s hvalid] at hserve
  refine ⟨s', rep, hserve, ?_, hstep⟩
  rw [List.map_append, List.map_singleton]
  rcases hstep with hstep | hstep | ⟨v, hstep⟩
  · exact ⟨hstep.inv h.inv, hstep.policy.trans h.policy_eq, hstep.recencyLaw h.inv h.recency⟩
  · exact ⟨hstep.inv h.inv, hstep.policy.trans h.policy_eq, hstep.recencyLaw h.inv h.recency⟩
  · exact ⟨hstep.inv h.inv, hstep.policy.trans h.policy_eq, hstep.recencyLaw h.inv h.recency⟩

theorem Reached.request_of_ne_lru {reqs : List Request} (h : Reached policy (reqs.map Request.vpage) s)
    (hpolicy : policy ≠ .lru) (hvalid : r.Valid) :
    ∃ s' rep, Vm.request s r = some (s', rep) ∧
      (HitStep s r.vpage r.offset r.type s' rep ∨ LoadStep s r.vpage r.offset r.type s' rep ∨
        ∃ victim, EvictStep s r.vpage r.offset r.type r.rnd victim s' rep) := by
  obtain ⟨s', rep, hreq, -, hcases⟩ := h.request hvalid fun hp => absurd hp hpolicy
  exact ⟨s', rep, hreq, hcases⟩

/-- **Runs**: every admitted run returns, in a state of the run invariant. -/
theorem run_spec {reqs : List Request} (h : Admissible policy reqs) :
    ∃ s, run policy reqs = some s ∧ Reached policy (reqs.map Request.vpage) s := by
  refine Run.exec_total (fun hist s => Reached policy (hist.map Request.vpage) s)
    (fun hist r => r.Valid ∧ (policy = .lru → SecondDiffers (hist ++ [r])))
    (reached_init policy) ?_ reqs ?_
  · intro hist s r hreach hr
    obtain ⟨s', rep, hreq, hreach', -⟩ := hreach.request hr.1 hr.2
    exact ⟨s', by rw [step, hreq]; rfl, hreach'⟩
  · rintro hist r t rfl
    refine ⟨h.1 r (by simp), fun hp => ?_⟩
    have hdiff := h.2 hp
    rw [show hist ++ r :: t = (hist ++ [r]) ++ t by simp] at hdiff
    exact secondDiffers_of_append hdiff

/-- **What an observer of an admitted run sees**: an invariant of the requests,
the state and the observer's value, kept by hits, loads and evictions. -/
theorem watch_spec {see : μ → State → Request → State → μ} {m : μ} (P : List Request → State → μ → Prop)
    (init : P [] (State.init policy) m)
    (next : ∀ reqs s m r s' rep, P reqs s m → Inv s →
      (HitStep s r.vpage r.offset r.type s' rep ∨ LoadStep s r.vpage r.offset r.type s' rep ∨
        ∃ victim, EvictStep s r.vpage r.offset r.type r.rnd victim s' rep) → P (reqs ++ [r]) s' (see m s r s'))
    {reqs : List Request} (h : Admissible policy reqs) :
    ∃ s m', run policy reqs = some s ∧ Run.exec (Run.watch step see) (State.init policy, m) reqs = some (s, m') ∧
      Reached policy (reqs.map Request.vpage) s ∧ P reqs s m' := by
  obtain ⟨s, hrun, hreach⟩ := run_spec h
  have hnext : ∀ (reqs : List Request) s m r s',
      (Admissible policy reqs → Reached policy (reqs.map Request.vpage) s ∧ P reqs s m) → step s r = some s' →
      Admissible policy (reqs ++ [r]) → Reached policy ((reqs ++ [r]).map Request.vpage) s' ∧
        P (reqs ++ [r]) s' (see m s r s') := by
    intro reqs s m r s' hprev hstep hadm
    obtain ⟨hreach, hm⟩ := hprev hadm.left
    obtain ⟨s₁, rep, hreq, hreach', hcases⟩ := hreach.request (hadm.1 r (by simp)) hadm.2
    rw [step, hreq, Option.map_some, Option.some.injEq] at hstep
    subst hstep
    exact ⟨hreach', next reqs s m r s₁ rep hm hreach.inv hcases⟩
  obtain ⟨m', hwatch, hm⟩ := Run.exec_watch_induct
    (fun reqs s m => Admissible policy reqs → Reached policy (reqs.map Request.vpage) s ∧ P reqs s m)
    (fun _ => ⟨reached_init policy, init⟩) hnext reqs hrun
  exact ⟨s, m', hrun, hwatch, hreach, (hm h).2⟩

/-- The last request of an admitted run, seen from the state before it. -/
theorem run_concat_spec {reqs : List Request} (h : Admissible policy (reqs ++ [r])) :
    ∃ s s' rep, run policy reqs = some s ∧ Reached policy (reqs.map Request.vpage) s ∧
      request s r = some (s', rep) ∧ Reached policy ((reqs ++ [r]).map Request.vpage) s' ∧
      (HitStep s r.vpage r.offset r.type s' rep ∨ LoadStep s r.vpage r.offset r.type s' rep ∨
        ∃ victim, EvictStep s r.vpage r.offset r.type r.rnd victim s' rep) := by
  obtain ⟨s, hrun, hreach⟩ := run_spec h.left
  obtain ⟨s', rep, hreq, hreach', hstep⟩ := hreach.request (h.1 r (by simp)) h.2
  exact ⟨s, s', rep, hrun, hreach, hreq, hreach', hstep⟩

/-! ## The two tables -/

/-- The page is in memory. -/
def Resident (s : State) (x : VPage) : Prop := (s.entry x).valid = true

instance (s : State) (x : VPage) : Decidable (Resident s x) := inferInstanceAs (Decidable (_ = _))

/-- The page table and the inverted table are inverse to each other. -/
structure TablesInverse (s : State) : Prop where
  frameInd_le : s.frameInd ≤ maxFrame
  entry_invert : ∀ f : Fin maxFrame, (f : Int) < s.frameInd →
    (s.entry (s.invertTable f)).valid = true ∧ (s.entry (s.invertTable f)).frameNo = f
  invert_entry : ∀ x, (s.entry x).valid = true →
    (s.entry x).frameNo < s.frameInd ∧ s.invertTable.read (s.entry x).frameNo = some x

theorem Inv.tablesInverse (hinv : Inv s) : TablesInverse s where
  frameInd_le := hinv.frameInd_le
  entry_invert := hinv.frame_resident
  invert_entry := fun x hx => by
    obtain ⟨f, hf, hlt, hpage⟩ := hinv.resident_frame x hx
    rw [hf, Arr.read_fin, hpage]
    exact ⟨hlt, rfl⟩

/-- An eviction takes out the victim's page and brings in the requested one. -/
theorem EvictStep.resident_iff (hinv : Inv s) (h : EvictStep s x offset type rnd v s' rep)
    (z : VPage) : Resident s' z ↔ z = x ∨ (Resident s z ∧ z ≠ s.invertTable v) := by
  have hy := (hinv.frame_resident v (by rw [h.full]; omega)).1
  have hxy : s.invertTable v ≠ x := by
    intro heq
    rw [heq, h.missing] at hy
    contradiction
  unfold Resident
  rw [h.entry]
  by_cases hzx : z = x
  · simp [hzx]
  · by_cases hzy : z = s.invertTable v <;> simp [hzx, hzy, hxy]

/-- **The tables law**: after every admitted run, under every policy, the page
table and the inverted table are inverse to each other; and a fault with all
frames in use takes out exactly one page and brings in exactly one. -/
theorem tables_inverse (policy : Policy) (reqs : List Request) (h : Admissible policy reqs) :
    ∃ s, run policy reqs = some s ∧ TablesInverse s ∧
      ∀ r s' rep, Admissible policy (reqs ++ [r]) → request s r = some (s', rep) →
        rep.hit = false → s.frameInd = maxFrame →
        ¬ Resident s r.vpage ∧ ∃ y, Resident s y ∧
          ∀ z, Resident s' z ↔ z = r.vpage ∨ (Resident s z ∧ z ≠ y) := by
  obtain ⟨s, hrun, hreach⟩ := run_spec h
  refine ⟨s, hrun, hreach.inv.tablesInverse, fun r s' rep hadm hreq hmiss hfull => ?_⟩
  obtain ⟨s₁, rep₁, hreq₁, -, hstep⟩ := hreach.request (hadm.1 r (by simp)) hadm.2
  obtain ⟨rfl, rfl⟩ := Prod.mk.inj (Option.some.inj (hreq.symm.trans hreq₁))
  rcases hstep with hstep | hstep | ⟨v, hstep⟩
  · rw [hstep.hit] at hmiss
    contradiction
  · have := hstep.free
    omega
  · refine ⟨by simp [Resident, hstep.missing], s.invertTable v, ?_, hstep.resident_iff hreach.inv⟩
    exact (hreach.inv.frame_resident v (by rw [hfull]; omega)).1

/-- Every page of both processes requested in turn: eight loads, eight evictions. -/
def allPages : List Request :=
  (List.range 16).map fun n : Nat => ⟨n / maxPage, (n % maxPage) * 256, 'W', n⟩

theorem tables_inverse_allPages :
    ∃ s, run .random allPages = some s ∧ TablesInverse s ∧
      ∀ r s' rep, Admissible .random (allPages ++ [r]) → request s r = some (s', rep) →
        rep.hit = false → s.frameInd = maxFrame →
        ¬ Resident s r.vpage ∧ ∃ y, Resident s y ∧
          ∀ z, Resident s' z ↔ z = r.vpage ∨ (Resident s z ∧ z ≠ y) :=
  tables_inverse .random allPages (by decide)

end OperatingSystem.Vm
