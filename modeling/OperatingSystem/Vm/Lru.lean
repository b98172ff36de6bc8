import OperatingSystem.Vm.Run

/-!
# OperatingSystem.Vm.Lru

LRU over whole runs.  On admitted runs it is true LRU: the resident pages are
the most recently requested distinct ones, and a request hits exactly when
fewer than `maxFrame` distinct other pages came since its page's last request
(`lru_stack_distance`).  A run whose second request repeats its first is the
one LRU's list does not survive: the hit removes the only node of the list, and
`list_remove_head` follows the null pointer behind it (`lru_list_intact_iff`).
-/

namespace OperatingSystem.Vm

open Dlist Recency

/-- The pages a run requests, in order. -/
def pages (reqs : List Request) : List VPage := reqs.map Request.vpage

/-- Under LRU, the resident pages are the most recently requested ones. -/
theorem Reached.resident_iff (h : Reached .lru hist s) (x : VPage) :
    Resident s x ↔ x ∈ (recent hist).take maxFrame :=
  (mem_recent_iff_resident h.inv h.policy_eq h.recency).symm

/-- A request is reported as a hit iff its page was resident. -/
theorem hit_iff_resident (h : HitStep s x offset type s' rep ∨ LoadStep s x offset type s' rep ∨
    ∃ victim, EvictStep s x offset type rnd victim s' rep) : rep.hit = true ↔ Resident s x := by
  unfold Resident
  rcases h with h | h | ⟨v, h⟩
  · rw [h.hit, h.resident]
  · rw [h.reply, h.missing]
  · rw [h.reply, h.missing]

/-- **LRU is true LRU**: in an admitted run, a request hits iff its page was
requested before and at most `maxFrame - 1` distinct other pages were since;
afterwards the resident pages are the `maxFrame` most recently requested; and
the page an eviction takes is the oldest of those that were. -/
theorem lru_stack_distance (reqs : List Request) (r : Request)
    (h : Admissible .lru (reqs ++ [r])) :
    ∃ s s' rep, run .lru reqs = some s ∧ request s r = some (s', rep) ∧
      (rep.hit = true ↔ ∃ before since, pages reqs = before ++ r.vpage :: since ∧
        r.vpage ∉ since ∧ since.toFinset.card ≤ maxFrame - 1) ∧
      (∀ y, Resident s' y ↔ y ∈ (recent (pages (reqs ++ [r]))).take maxFrame) ∧
      (∀ y, Resident s y → (¬ Resident s' y ↔
        rep.hit = false ∧ (recent (pages reqs))[maxFrame - 1]? = some y)) := by
  obtain ⟨s, s', rep, hrun, hreach, hreq, hreach', hstep⟩ := run_concat_spec h
  have hhit := hit_iff_resident hstep
  refine ⟨s, s', rep, hrun, hreq, ?_, hreach'.resident_iff, fun y hy => ?_⟩
  · rw [hhit, hreach.resident_iff, mem_take_recent_iff]
    have hlt : ∀ n : Nat, n < maxFrame ↔ n ≤ maxFrame - 1 := fun n => Nat.lt_iff_le_pred (by decide)
    simp only [hlt, pages]
  · rw [hreach'.resident_iff, List.map_append, List.map_singleton, recent_concat]
    rw [hreach.resident_iff] at hy
    by_cases hx : Resident s r.vpage
    · -- a hit evicts nothing
      have hxmem := (hreach.resident_iff _).mp hx
      rw [take_touch_of_mem hxmem, mem_touch, hhit.mpr hx]
      simp [hy]
    · rw [not_mem_take_touch_iff (nodup_recent _) (fun hmem => hx ((hreach.resident_iff _).mpr hmem)) hy,
        Bool.eq_false_iff.mpr (fun hh => hx (hhit.mp hh))]
      simp [pages]

/-- Nine pages requested in turn; the ninth request evicts the first page. -/
def ninePages : List Request :=
  (List.range 9).map fun n : Nat => ⟨n / maxPage, (n % maxPage) * 256, 'R', 0⟩

theorem lru_stack_distance_nine :
    ∃ s s' rep, run .lru ninePages = some s ∧ request s ⟨0, 0, 'W', 0⟩ = some (s', rep) ∧
      (rep.hit = true ↔ ∃ before since, pages ninePages = before ++ (0, 0) :: since ∧
        (0, 0) ∉ since ∧ since.toFinset.card ≤ maxFrame - 1) ∧
      (∀ y, Resident s' y ↔ y ∈ (recent (pages (ninePages ++ [⟨0, 0, 'W', 0⟩]))).take maxFrame) ∧
      (∀ y, Resident s y → (¬ Resident s' y ↔
        rep.hit = false ∧ (recent (pages ninePages))[maxFrame - 1]? = some y)) :=
  lru_stack_distance ninePages ⟨0, 0, 'W', 0⟩ (by decide)

/-! ## The list -/

/-- The list at `head` is a well-formed doubly linked list that holds each frame
in use exactly once. -/
def ListIntact (s : State) : Prop :=
  ∃ nodes, IsList s.repl.heap s.repl.head nodes ∧ (contents nodes).Nodup ∧
    ∀ f, f ∈ contents nodes ↔ 0 ≤ f ∧ f < s.frameInd

/-- Every request of the run returns, and after each of them the list is intact. -/
def ListNeverBreaks (reqs : List Request) : Prop :=
  ∀ pre, pre <+: reqs → ∃ s, run .lru pre = some s ∧ ListIntact s

theorem Reached.listIntact (h : Reached .lru hist s) : ListIntact s := by
  obtain ⟨l, ⟨nodes, hlist, rfl⟩, hnd, hmem⟩ := h.inv.lruList h.policy_eq
  exact ⟨nodes, hlist, hnd, hmem⟩

/-- **The crash**: with one frame in use, a hit makes LRU remove the only node
of its list, and `list_remove_head` dereferences null. -/
theorem serve_singleton (hinv : Inv s) (hp : s.replacementPolicy = .lru) (hone : s.frameInd = 1)
    (hres : (s.entry x).valid = true) (offset : Int) (type : Char) (rnd : Nat) :
    serve s x offset type rnd = none := by
  obtain ⟨l, hl, hnd, hmem⟩ := hinv.lruList hp
  obtain ⟨f, hf, hlt, -⟩ := hinv.resident_frame x hres
  have hframe : (s.entry x).frameNo = 0 := by omega
  have hl0 : l = [0] := by
    have hperm : l.Perm [0] := (List.perm_ext_iff_of_nodup hnd (by simp)).mpr fun g => by
      rw [hmem, hone, List.mem_singleton]
      omega
    exact List.perm_singleton.mp hperm
  subst hl0
  have htouch : touchFrame .lru { s.repl with currentFrame := 0 } 0 1 rnd = none := by
    have hcrash := lru_singleton { s.repl with currentFrame := 0, frameRef := 0, lruFlag := 1 } rfl hl
    simp only [touchFrame, pageReplacement, hcrash, Option.map_none]
  rcases isTlbHit_cases s x type rnd with ⟨k, -, -, heq⟩ | ⟨-, heq⟩
  · simp only [serve, heq, tlbHitAt, State.markDirty, State.setEntry, hframe, hp, htouch,
      Option.bind_eq_bind, Option.bind_none]
  · have hneg : ¬ (-1 : Int) > -1 := by omega
    simp only [serve, heq, isPageHit, hres, if_true, State.markDirty, State.setEntry, hframe, hp,
      htouch, Option.bind_eq_bind, Option.bind_some, Option.bind_none, if_neg hneg]

/-- A second request to the page of the first has undefined behaviour. -/
theorem run_same_page (r₁ r₂ : Request) (h₁ : r₁.Valid) (h₂ : r₂.Valid)
    (hsame : r₁.vpage = r₂.vpage) : run .lru [r₁, r₂] = none := by
  have hadm : Admissible .lru ([] ++ [r₁]) := ⟨by simpa using h₁, fun _ => trivial⟩
  obtain ⟨s₀, s, rep, hrun₀, -, hreq, hreach, hstep⟩ := run_concat_spec hadm
  cases hrun₀
  have hload : s.frameInd = 1 ∧ (s.entry r₁.vpage).valid = true := by
    rcases hstep with hstep | hstep | ⟨v, hstep⟩
    · exact absurd hstep.resident (by simp [State.init])
    · exact ⟨hstep.frameInd, by rw [hstep.entry, Function.update_self]⟩
    · exact absurd hstep.full (by simp [State.init])
  have hcrash := serve_singleton hreach.inv hreach.policy_eq hload.1 hload.2 r₂.offset r₂.type r₂.rnd
  have hreq₂ : request s r₂ = none := by rw [request_of_valid s h₂, ← hsame, hcrash]
  simp [run, Run.exec, step, hreq, hreq₂]

/-- A run of requests to pages of the tables that returns is admitted. -/
theorem admissible_of_run (hvalid : ∀ r ∈ reqs, r.Valid) (h : run policy reqs = some s) : Admissible policy reqs := by
  refine ⟨hvalid, ?_⟩
  rintro rfl
  match reqs, hvalid, h with
  | [], _, _ => trivial
  | [_], _, _ => trivial
  | r₁ :: r₂ :: rest, hvalid, h =>
      intro hsame
      have hcrash := run_same_page r₁ r₂ (hvalid r₁ (by simp)) (hvalid r₂ (by simp)) hsame
      have hrun : Run.exec step (State.init .lru) ([r₁, r₂] ++ rest) = some s := h
      obtain ⟨m, hm, -⟩ := Run.exec_append_some hrun
      exact nomatch hcrash.symm.trans hm

/-- **When LRU's list survives**: a run of requests to pages of the tables
never breaks the list iff its second request is to another page than its
first. -/
theorem lru_list_intact_iff (reqs : List Request) (h : ∀ r ∈ reqs, r.Valid) :
    ListNeverBreaks reqs ↔ SecondDiffers reqs := by
  constructor
  · intro hkeep
    match reqs, h, hkeep with
    | [], _, _ => trivial
    | [_], _, _ => trivial
    | r₁ :: r₂ :: rest, h, hkeep =>
        intro hsame
        obtain ⟨s, hrun, -⟩ := hkeep [r₁, r₂] ⟨rest, rfl⟩
        rw [run_same_page r₁ r₂ (h r₁ (by simp)) (h r₂ (by simp)) hsame] at hrun
        contradiction
  · rintro hdiff pre ⟨rest, rfl⟩
    have hadm : Admissible .lru (pre ++ rest) := ⟨h, fun _ => hdiff⟩
    obtain ⟨s, hrun, hreach⟩ := run_spec hadm.left
    exact ⟨s, hrun, hreach.listIntact⟩

theorem lru_list_intact_iff_nine : ListNeverBreaks ninePages ↔ SecondDiffers ninePages :=
  lru_list_intact_iff ninePages (by decide)

/-- The same page twice. -/
def twice : List Request := [⟨0, 0, 'R', 0⟩, ⟨0, 0, 'R', 0⟩]

theorem lru_list_breaks_twice :
    (∀ r ∈ twice, r.Valid) ∧ run .lru twice = none ∧ ¬ ListNeverBreaks twice := by
  have hrun : run .lru twice = none := run_same_page _ _ (by decide) (by decide) rfl
  refine ⟨by decide, hrun, fun hkeep => ?_⟩
  obtain ⟨s, hs, -⟩ := hkeep twice (List.prefix_refl _)
  rw [hrun] at hs
  contradiction

end OperatingSystem.Vm
