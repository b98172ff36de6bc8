import OperatingSystem.Vm.Tlb

/-!
# OperatingSystem.Vm.Clock

CLOCK over whole runs.  The two loops of `clock()` are one sweep of the hand
over the frames in circular order (`clock_eq`).  While some flag is 0 the
policy is the textbook's: the victim is the first frame the hand finds with
flag 0, and a page requested since the last fault is not taken
(`clock_second_chance`).  When all flags are 1 the sweep clears them, the
victim's as well, and leaves them so.  The page just loaded then has no
reference flag; the first fault that finds all frames in use is always of this
kind, so the runs that spare what they have loaded are those without such a
fault (`clock_spares_iff`).
-/

namespace OperatingSystem.Vm

/-! ## The sweep -/

/-- The frames as the hand passes them, from the frame it points to. -/
def circular (hand : Fin maxFrame) : List (Fin maxFrame) :=
  (List.finRange maxFrame).filter (hand ≤ ·) ++ (List.finRange maxFrame).filter (· < hand)

theorem nodup_circular : ∀ hand, (circular hand).Nodup := by decide

theorem mem_circular : ∀ hand f, f ∈ circular hand := by decide

section Sweep

variable {flags : Arr maxFrame Int}

theorem clockSweep_append (flags : Arr maxFrame Int) (l m : List (Fin maxFrame)) :
    clockSweep flags (l ++ m) = match clockSweep flags l with
      | (flags, some i) => (flags, some i)
      | (flags, none) => clockSweep flags m := by
  induction l generalizing flags with
  | nil => rfl
  | cons i l ih =>
      rw [List.cons_append, clockSweep, clockSweep]
      by_cases hi : flags i = 1
      · rw [if_pos hi, if_pos hi, ih]
      · rw [if_neg hi, if_neg hi]

/-- **One sweep**: the two loops of `clock()` go once around. -/
theorem clock_eq (r : Repl) : clock r = match clockSweep r.clockFlag (circular r.clockIndex) with
    | (flags, some i) => ({ r with clockFlag := flags, clockIndex := i }, i.val)
    | (flags, none) => ({ r with clockFlag := flags }, r.clockIndex.val) := by
  rw [circular, clockSweep_append, clock]
  cases clockSweep r.clockFlag ((List.finRange maxFrame).filter (r.clockIndex ≤ ·)) with
  | mk flags found => cases found <;> rfl

/-- Frames whose flags are all 1 are passed, and their flags cleared. -/
theorem clockSweep_all (l : List (Fin maxFrame)) (hnd : l.Nodup) (h : ∀ f ∈ l, flags f = 1) :
    clockSweep flags l = (fun f => if f ∈ l then 0 else flags f, none) := by
  induction l generalizing flags with
  | nil => simp [clockSweep]
  | cons i l ih =>
      obtain ⟨hi, hnd⟩ := List.nodup_cons.mp hnd
      have hrest : ∀ f ∈ l, Function.update flags i 0 f = 1 := fun f hf => by
        have hne : f ≠ i := fun heq => hi (heq ▸ hf)
        rw [Function.update_of_ne hne]
        exact h f (List.mem_cons_of_mem _ hf)
      rw [clockSweep, if_pos (h i List.mem_cons_self), ih hnd hrest]
      congr 1
      funext f
      by_cases hfi : f = i <;> simp [hfi]

/-- The hand stops at the first frame whose flag is not 1, and sets it. -/
theorem clockSweep_first (passed : List (Fin maxFrame)) (v : Fin maxFrame) (rest : List (Fin maxFrame))
    (hnd : (passed ++ v :: rest).Nodup) (hpassed : ∀ f ∈ passed, flags f = 1) (hv : flags v ≠ 1) :
    clockSweep flags (passed ++ v :: rest) =
      (fun f => if f ∈ passed then 0 else if f = v then 1 else flags f, some v) := by
  have hvp : v ∉ passed := fun hmem => (List.nodup_append.mp hnd).2.2 v hmem v (by simp) rfl
  rw [clockSweep_append, clockSweep_all passed (List.nodup_append.mp hnd).1 hpassed]
  simp only [clockSweep, if_neg hvp, if_neg hv]
  congr 1
  funext f
  by_cases hfv : f = v
  · simp [hfv, hvp]
  · simp [hfv]

/-- A frame whose flag is not 1 makes the hand stop somewhere. -/
theorem exists_first (l : List (Fin maxFrame)) (hl : ∃ f ∈ l, flags f ≠ 1) :
    ∃ passed v rest, l = passed ++ v :: rest ∧ (∀ f ∈ passed, flags f = 1) ∧ flags v ≠ 1 := by
  obtain ⟨f, hf, hne⟩ := hl
  cases hfind : l.find? fun f => flags f ≠ 1 with
  | none => exact absurd hne (by simpa using List.find?_eq_none.mp hfind f hf)
  | some v =>
      obtain ⟨hv, passed, rest, hsplit, hpassed⟩ := List.find?_eq_some_iff_append.mp hfind
      exact ⟨passed, v, rest, hsplit, by simpa using hpassed, by simpa using hv⟩

end Sweep

/-! ## Faults -/

/-- What a fault with all frames in use does when some flag is 0, with `v` the
frame of the victim. -/
structure Sweeps (s : State) (r : Request) (v : Fin maxFrame) (s' : State) : Prop where
  first : ∃ passed rest, circular s.repl.clockIndex = passed ++ v :: rest ∧
    (∀ f ∈ passed, s.repl.clockFlag f = 1) ∧ s.repl.clockFlag v = 0 ∧
    s'.repl.clockFlag = fun f => if f ∈ passed then 0 else if f = v then 1 else s.repl.clockFlag f
  clockIndex : s'.repl.clockIndex = v
  replaces : Resident s (s.invertTable v) ∧ s'.invertTable v = r.vpage ∧
    ∀ y, Resident s' y ↔ y = r.vpage ∨ (Resident s y ∧ y ≠ s.invertTable v)

section Fault

variable {s s' : State} {r : Request} {rep : Reply} {v : Fin maxFrame}

/-- With some flag not 1, the hand stops. -/
theorem EvictStep.clock_first (h : EvictStep s r.vpage r.offset r.type r.rnd v s' rep)
    (hp : s.replacementPolicy = .clock) (hsome : ∃ f, s.repl.clockFlag f ≠ 1) :
    s'.repl.clockIndex = v ∧ ∃ passed rest, circular s.repl.clockIndex = passed ++ v :: rest ∧
      (∀ f ∈ passed, s.repl.clockFlag f = 1) ∧ s.repl.clockFlag v ≠ 1 ∧
      s'.repl.clockFlag = fun f => if f ∈ passed then 0 else if f = v then 1 else s.repl.clockFlag f := by
  obtain ⟨f, hf⟩ := hsome
  obtain ⟨passed, w, rest, hsplit, hpassed, hw⟩ := exists_first _ ⟨f, mem_circular s.repl.clockIndex f, hf⟩
  have hclock := h.replaced
  rw [hp, pageReplacement, clock_eq] at hclock
  simp only [hsplit, clockSweep_first passed w rest (hsplit ▸ nodup_circular _) hpassed hw, Option.some.injEq,
    Prod.mk.injEq] at hclock
  obtain ⟨hrepl, hvw⟩ := hclock
  obtain rfl : w = v := Fin.ext (by omega)
  rw [← hrepl]
  exact ⟨rfl, passed, rest, hsplit, hpassed, hw, rfl⟩

/-- With all flags 1, the hand goes around: its frame is taken, and no flag is
left. -/
theorem EvictStep.clock_none (h : EvictStep s r.vpage r.offset r.type r.rnd v s' rep)
    (hp : s.replacementPolicy = .clock) (hall : ∀ f, s.repl.clockFlag f = 1) :
    v = s.repl.clockIndex ∧ s'.repl.clockIndex = v ∧ ∀ f, s'.repl.clockFlag f = 0 := by
  have hclock := h.replaced
  rw [hp, pageReplacement, clock_eq] at hclock
  simp only [clockSweep_all _ (nodup_circular s.repl.clockIndex) fun f _ => hall f, mem_circular, if_true,
    Option.some.injEq, Prod.mk.injEq] at hclock
  obtain ⟨hrepl, hv⟩ := hclock
  obtain rfl : s.repl.clockIndex = v := Fin.ext (by omega)
  rw [← hrepl]
  exact ⟨rfl, rfl, fun _ => rfl⟩

/-- Either way the hand ends at the victim. -/
theorem EvictStep.clockIndex (h : EvictStep s r.vpage r.offset r.type r.rnd v s' rep)
    (hp : s.replacementPolicy = .clock) : s'.repl.clockIndex = v := by
  by_cases hall : ∀ f, s.repl.clockFlag f = 1
  · exact (h.clock_none hp hall).2.1
  · exact (h.clock_first hp (by simpa using hall)).1

/-- The victim's flag is set iff the hand found a flag that is not. -/
theorem EvictStep.clockFlag_iff (h : EvictStep s r.vpage r.offset r.type r.rnd v s' rep)
    (hp : s.replacementPolicy = .clock) : s'.repl.clockFlag v = 1 ↔ ∃ f, s.repl.clockFlag f ≠ 1 := by
  by_cases hall : ∀ f, s.repl.clockFlag f = 1
  · rw [(h.clock_none hp hall).2.2 v]
    simp [hall]
  · have hsome : ∃ f, s.repl.clockFlag f ≠ 1 := by simpa using hall
    obtain ⟨-, passed, rest, hsplit, hpassed, hv, hflags⟩ := h.clock_first hp hsome
    have hvp : v ∉ passed := fun hmem => hv (hpassed v hmem)
    rw [hflags]
    simp [hvp, hsome]

/-- The hand takes the frame it points to iff that frame's flag is not 1, or all
flags are. -/
theorem EvictStep.victim_ne_iff (h : EvictStep s r.vpage r.offset r.type r.rnd v s' rep)
    (hp : s.replacementPolicy = .clock) :
    v ≠ s.repl.clockIndex ↔ s.repl.clockFlag s.repl.clockIndex = 1 ∧ ∃ f, s.repl.clockFlag f ≠ 1 := by
  by_cases hall : ∀ f, s.repl.clockFlag f = 1
  · simp [(h.clock_none hp hall).1, hall]
  · have hsome : ∃ f, s.repl.clockFlag f ≠ 1 := by simpa using hall
    obtain ⟨-, passed, rest, hsplit, hpassed, hv, -⟩ := h.clock_first hp hsome
    have hhead : (circular s.repl.clockIndex).head? = some s.repl.clockIndex :=
      (by decide : ∀ hand, (circular hand).head? = some hand) _
    constructor
    · intro hne
      refine ⟨?_, hsome⟩
      cases passed with
      | nil =>
          rw [hsplit] at hhead
          exact absurd (Option.some.inj hhead) hne
      | cons f passed =>
          rw [hsplit] at hhead
          exact Option.some.inj hhead ▸ hpassed f List.mem_cons_self
    · rintro ⟨hflag, -⟩ rfl
      exact hv hflag

end Fault

/-! ## Observers -/

/-- The pages requested by hits since the last fault. -/
def seeHits (hits : List VPage) (s : State) (r : Request) (_ : State) : List VPage :=
  if Resident s r.vpage then hits ++ [r.vpage] else []

/-- The page the last fault loaded, if that fault found all frames in use. -/
def seeReplaced (replaced : Option VPage) (s : State) (r : Request) (_ : State) : Option VPage :=
  if Resident s r.vpage then replaced else if s.frameInd = maxFrame then some r.vpage else none

/-- The flags are 0 or 1, and 1 for the pages hit since the last fault. -/
structure Referenced (hits : List VPage) (s : State) : Prop where
  policy : s.replacementPolicy = .clock
  flag : ∀ f, s.repl.clockFlag f = 0 ∨ s.repl.clockFlag f = 1
  hit : ∀ y ∈ hits, Resident s y ∧ ∀ f : Fin maxFrame, (s.entry y).frameNo = f → s.repl.clockFlag f = 1

/-- The hand points to the frame of the page that the last fault replaced another
by. -/
structure PointsTo (replaced : Option VPage) (s : State) : Prop where
  policy : s.replacementPolicy = .clock
  page : ∀ y, replaced = some y → Resident s y ∧ (s.entry y).frameNo = s.repl.clockIndex

theorem referenced_init : Referenced [] (State.init .clock) := ⟨rfl, fun _ => Or.inl rfl, by simp⟩

theorem pointsTo_init : PointsTo none (State.init .clock) := ⟨rfl, by simp⟩

section Observers

variable {s s' : State} {r : Request} {rep : Reply} {hits : List VPage} {replaced : Option VPage}

theorem HitStep.referenced (h : HitStep s r.vpage r.offset r.type s' rep) (href : Referenced hits s) :
    Referenced (seeHits hits s r s') s' := by
  obtain ⟨f, hf, hstep⟩ := h.repl
  have hflag := hstep.clockFlag
  rw [if_pos href.policy] at hflag
  have hres : ∀ y, Resident s y → Resident s' y := fun y hy => by
    rw [Resident, h.entry, markDirty_valid]
    exact hy
  rw [seeHits, if_pos (show Resident s r.vpage from h.resident)]
  refine ⟨h.policy.trans href.policy, fun g => ?_, fun y hy => ?_⟩
  · rw [hflag]
    by_cases hg : g = f
    · simp [hg]
    · simpa [Function.update_of_ne hg] using href.flag g
  · have hold : Resident s y ∧ ∀ g : Fin maxFrame, (s.entry y).frameNo = g → s'.repl.clockFlag g = 1 := by
      rcases List.mem_append.mp hy with hy | hy
      · obtain ⟨hres, hone⟩ := href.hit y hy
        refine ⟨hres, fun g hg => ?_⟩
        rw [hflag]
        by_cases hgf : g = f
        · simp [hgf]
        · rw [Function.update_of_ne hgf]
          exact hone g hg
      · obtain rfl := List.mem_singleton.mp hy
        refine ⟨h.resident, fun g hg => ?_⟩
        obtain rfl : g = f := Fin.ext (by omega)
        rw [hflag, Function.update_self]
    refine ⟨hres y hold.1, fun g hg => hold.2 g ?_⟩
    rwa [h.entry, markDirty_frameNo] at hg

theorem LoadStep.referenced (h : LoadStep s r.vpage r.offset r.type s' rep) (href : Referenced hits s) :
    Referenced (seeHits hits s r s') s' := by
  obtain ⟨f, -, -, hstep⟩ := h.repl
  have hflag := hstep.clockFlag
  rw [if_pos href.policy] at hflag
  rw [seeHits, if_neg (by simp [Resident, h.missing])]
  refine ⟨h.policy.trans href.policy, fun g => ?_, by simp⟩
  rw [hflag]
  by_cases hg : g = f
  · simp [hg]
  · simpa [Function.update_of_ne hg] using href.flag g

theorem EvictStep.referenced (h : EvictStep s r.vpage r.offset r.type r.rnd v s' rep) (href : Referenced hits s) :
    Referenced (seeHits hits s r s') s' := by
  rw [seeHits, if_neg (by simp [Resident, h.missing])]
  refine ⟨h.policy.trans href.policy, fun g => ?_, by simp⟩
  by_cases hall : ∀ f, s.repl.clockFlag f = 1
  · exact Or.inl ((h.clock_none href.policy hall).2.2 g)
  · obtain ⟨-, passed, -, -, -, -, hflags⟩ := h.clock_first href.policy (by simpa using hall)
    rw [hflags]
    by_cases hg : g ∈ passed
    · simp [hg]
    · by_cases hgv : g = v
      · subst hgv
        simp [hg]
      · simpa [hg, hgv] using href.flag g

theorem HitStep.pointsTo (h : HitStep s r.vpage r.offset r.type s' rep) (hpt : PointsTo replaced s) :
    PointsTo (seeReplaced replaced s r s') s' := by
  obtain ⟨f, -, hstep⟩ := h.repl
  rw [seeReplaced, if_pos (show Resident s r.vpage from h.resident)]
  refine ⟨h.policy.trans hpt.policy, fun y hy => ?_⟩
  rw [Resident, h.entry, markDirty_valid, markDirty_frameNo, hstep.clockIndex]
  exact hpt.page y hy

theorem LoadStep.pointsTo (h : LoadStep s r.vpage r.offset r.type s' rep) (hpt : PointsTo replaced s) :
    PointsTo (seeReplaced replaced s r s') s' := by
  have hfree := h.free
  rw [seeReplaced, if_neg (by simp [Resident, h.missing]), if_neg (by omega)]
  exact ⟨h.policy.trans hpt.policy, by simp⟩

theorem EvictStep.pointsTo (h : EvictStep s r.vpage r.offset r.type r.rnd v s' rep) (hpt : PointsTo replaced s) :
    PointsTo (seeReplaced replaced s r s') s' := by
  rw [seeReplaced, if_neg (by simp [Resident, h.missing]), if_pos h.full]
  refine ⟨h.policy.trans hpt.policy, fun y hy => ?_⟩
  obtain rfl := Option.some.inj hy
  rw [Resident, h.entry, Function.update_self, h.clockIndex hpt.policy]
  exact ⟨rfl, rfl⟩

end Observers

/-! ## The second chance -/

/-- **CLOCK's second chance**: a fault with all frames in use evicts a page that
was hit since the last fault only if all flags are 1; and while some flag is 0,
the hand takes the first frame with flag 0 it finds, clears the flags it passes,
and changes no other. -/
theorem clock_second_chance (reqs : List Request) (h : ∀ r ∈ reqs, r.Valid) :
    ∃ s hits, run .clock reqs = some s ∧
      Run.exec (Run.watch step seeHits) (State.init .clock, []) reqs = some (s, hits) ∧
      ∀ r s' rep, r.Valid → request s r = some (s', rep) → rep.hit = false → s.frameInd = maxFrame →
        (∀ y ∈ hits, ¬ Resident s' y → ∀ f, s.repl.clockFlag f = 1) ∧
        ((∃ f, s.repl.clockFlag f = 0) → ∃ v, Sweeps s r v s') := by
  have hadm : Admissible .clock reqs := admissible_of_valid (by decide) h
  obtain ⟨s, hits, hrun, hwatch, hreach, href⟩ := watch_spec (fun _ s hits => Referenced hits s) referenced_init
    (fun _ s hits r s' rep href _ hcases => by
      rcases hcases with hstep | hstep | ⟨v, hstep⟩
      · exact hstep.referenced href
      · exact hstep.referenced href
      · exact hstep.referenced href) hadm
  refine ⟨s, hits, hrun, hwatch, fun r s' rep hr hreq hmiss hfull => ?_⟩
  obtain ⟨s₁, rep₁, hreq₁, hcases⟩ := hreach.request_of_ne_lru (by decide) hr
  obtain ⟨rfl, rfl⟩ := Prod.mk.inj (Option.some.inj (hreq.symm.trans hreq₁))
  rcases hcases with hstep | hstep | ⟨v, hstep⟩
  · rw [hstep.hit] at hmiss
    contradiction
  · have := hstep.free
    omega
  · obtain ⟨hvictim, hframe⟩ := hreach.inv.frame_resident v (by rw [hfull]; omega)
    refine ⟨fun y hy hgone => ?_, fun ⟨f, hf⟩ => ⟨v, ?_⟩⟩
    · -- a page that was hit has its flag, and only a frame without one is taken
      obtain ⟨hres, hone⟩ := href.hit y hy
      rw [hstep.resident_iff hreach.inv] at hgone
      obtain rfl : y = s.invertTable v := by
        by_contra hne
        exact hgone (Or.inr ⟨hres, hne⟩)
      by_contra hall
      obtain ⟨-, passed, -, -, -, hv, -⟩ := hstep.clock_first href.policy (by simpa using hall)
      exact hv (hone v hframe)
    · obtain ⟨hindex, passed, rest, hsplit, hpassed, hv, hflags⟩ := hstep.clock_first href.policy ⟨f, by omega⟩
      refine ⟨⟨passed, rest, hsplit, hpassed, (href.flag v).resolve_right hv, hflags⟩, hindex, hvictim, ?_,
        hstep.resident_iff hreach.inv⟩
      rw [hstep.invertTable, Function.update_self]

theorem clock_second_chance_nine :
    ∃ s hits, run .clock ninePages = some s ∧
      Run.exec (Run.watch step seeHits) (State.init .clock, []) ninePages = some (s, hits) ∧
      ∀ r s' rep, r.Valid → request s r = some (s', rep) → rep.hit = false → s.frameInd = maxFrame →
        (∀ y ∈ hits, ¬ Resident s' y → ∀ f, s.repl.clockFlag f = 1) ∧
        ((∃ f, s.repl.clockFlag f = 0) → ∃ v, Sweeps s r v s') :=
  clock_second_chance ninePages (by decide)

/-! ## What has just been loaded -/

/-- A fault sets the flag of its page's frame, and does not evict the page by
which the fault before it replaced another. -/
structure Spares (replaced : Option VPage) (s : State) (r : Request) (s' : State) : Prop where
  flagged : ∀ f : Fin maxFrame, (s'.entry r.vpage).frameNo = f → s'.repl.clockFlag f = 1
  spared : s.frameInd = maxFrame → ∀ y, replaced = some y → Resident s' y

/-- Every fault of the run does. -/
def ClockSpares (reqs : List Request) : Prop :=
  Run.Along (Run.watch step seeReplaced) (fun p r => ∀ s', step p.1 r = some s' → ¬ Resident p.1 r.vpage →
    Spares p.2 p.1 r s') (State.init .clock, none) reqs

/-- Before the first eviction, the pages requested are the resident ones, and the
flags of their frames are set. -/
structure Filling (hist : List VPage) (s : State) : Prop where
  resident : ∀ x, Resident s x ↔ x ∈ hist
  frameInd : s.frameInd = hist.toFinset.card
  flagged : ∀ f : Fin maxFrame, (f : Int) < s.frameInd → s.repl.clockFlag f = 1

theorem filling_init : Filling [] (State.init .clock) :=
  ⟨by simp [Resident, State.init], rfl, fun f hf => absurd hf (by simp [State.init])⟩

section Filling

variable {s s' : State} {r : Request} {rep : Reply} {hist : List VPage}

theorem card_le_append (l m : List VPage) : l.toFinset.card ≤ (l ++ m).toFinset.card := by
  rw [List.toFinset_append]
  exact Finset.card_le_card Finset.subset_union_left

theorem toFinset_concat_of_mem {x : VPage} (hx : x ∈ hist) : (hist ++ [x]).toFinset = hist.toFinset := by
  simp [hx]

theorem card_concat_of_not_mem {x : VPage} (hx : x ∉ hist) :
    (hist ++ [x]).toFinset.card = hist.toFinset.card + 1 := by
  have hnew : x ∉ hist.toFinset := by simpa using hx
  rw [← Finset.card_insert_of_notMem hnew]
  congr 1
  ext y
  simp

/-- A fault asks for a page that no request before it was to. -/
theorem Filling.not_mem (hf : Filling hist s) (hmiss : (s.entry r.vpage).valid = false) : r.vpage ∉ hist := by
  rw [← hf.resident]
  simp [Resident, hmiss]

theorem HitStep.filling (h : HitStep s r.vpage r.offset r.type s' rep) (hp : s.replacementPolicy = .clock)
    (hf : Filling hist s) : Filling (hist ++ [r.vpage]) s' := by
  obtain ⟨g, -, hstep⟩ := h.repl
  have hflag := hstep.clockFlag
  rw [if_pos hp] at hflag
  have hmem : r.vpage ∈ hist := (hf.resident _).mp h.resident
  refine ⟨fun x => ?_, ?_, fun f hlt => ?_⟩
  · rw [Resident, h.entry, markDirty_valid, ← Resident, hf.resident]
    simp only [List.mem_append, List.mem_singleton]
    exact ⟨Or.inl, fun hx => hx.elim id fun heq => heq ▸ hmem⟩
  · rw [toFinset_concat_of_mem hmem, h.frameInd, hf.frameInd]
  · rw [hflag]
    by_cases hfg : f = g
    · simp [hfg]
    · rw [Function.update_of_ne hfg]
      exact hf.flagged f (by rwa [h.frameInd] at hlt)

theorem LoadStep.filling (h : LoadStep s r.vpage r.offset r.type s' rep) (hp : s.replacementPolicy = .clock)
    (hf : Filling hist s) : Filling (hist ++ [r.vpage]) s' := by
  obtain ⟨g, hg, -, hstep⟩ := h.repl
  have hflag := hstep.clockFlag
  rw [if_pos hp] at hflag
  refine ⟨fun x => ?_, ?_, fun f hlt => ?_⟩
  · rw [Resident, h.entry, List.mem_append, List.mem_singleton, ← hf.resident]
    by_cases hx : x = r.vpage <;> simp [hx, Resident]
  · rw [card_concat_of_not_mem (hf.not_mem h.missing), h.frameInd, hf.frameInd]
    omega
  · rw [hflag]
    by_cases hfg : f = g
    · simp [hfg]
    · have hne : (f : Int) ≠ g := fun heq => hfg (Fin.ext (by omega))
      rw [h.frameInd] at hlt
      rw [Function.update_of_ne hfg]
      exact hf.flagged f (by omega)

end Filling

/-- **Up to as many pages as there are frames** are only loaded. -/
theorem filling_of_run (reqs : List Request) (h : ∀ r ∈ reqs, r.Valid) (hcard : (pages reqs).toFinset.card ≤ maxFrame)
    (hrun : run .clock reqs = some s) : Filling (pages reqs) s := by
  induction reqs using List.reverseRecOn generalizing s with
  | nil =>
      obtain rfl := Option.some.inj hrun
      exact filling_init
  | append_singleton reqs r ih =>
      have hadm : Admissible .clock (reqs ++ [r]) := admissible_of_valid (by decide) h
      obtain ⟨s₁, s₂, rep, hrun₁, hreach, hreq, -, hcases⟩ := run_concat_spec hadm
      obtain rfl := Option.some.inj (hrun.symm.trans (run_concat hrun₁ hreq))
      have hpages : pages (reqs ++ [r]) = pages reqs ++ [r.vpage] := by simp [pages]
      rw [hpages] at hcard ⊢
      have hsub := card_le_append (pages reqs) [r.vpage]
      have hfill := ih (fun q hq => h q (by simp [hq])) (by omega) hrun₁
      rcases hcases with hstep | hstep | ⟨v, hstep⟩
      · exact hstep.filling hreach.policy_eq hfill
      · exact hstep.filling hreach.policy_eq hfill
      · have hframes := hfill.frameInd
        have hfull := hstep.full
        rw [card_concat_of_not_mem (hfill.not_mem hstep.missing)] at hcard
        omega

section Spared

variable {s s' : State} {r : Request} {rep : Reply} {replaced : Option VPage}

theorem LoadStep.flagged (h : LoadStep s r.vpage r.offset r.type s' rep) (hp : s.replacementPolicy = .clock) :
    ∀ f : Fin maxFrame, (s'.entry r.vpage).frameNo = f → s'.repl.clockFlag f = 1 := by
  obtain ⟨g, hg, -, hstep⟩ := h.repl
  intro f hf
  rw [h.entry, Function.update_self] at hf
  obtain rfl : f = g := Fin.ext (by simp only at hf; omega)
  rw [hstep.clockFlag, if_pos hp, Function.update_self]

theorem EvictStep.flagged_iff (h : EvictStep s r.vpage r.offset r.type r.rnd v s' rep)
    (hp : s.replacementPolicy = .clock) :
    (∀ f : Fin maxFrame, (s'.entry r.vpage).frameNo = f → s'.repl.clockFlag f = 1) ↔
      ∃ f, s.repl.clockFlag f ≠ 1 := by
  rw [← h.clockFlag_iff hp, h.entry, Function.update_self]
  constructor
  · intro hall
    exact hall v rfl
  · intro hv f hf
    obtain rfl : v = f := Fin.ext (by simp only at hf; omega)
    exact hv

/-- The page that the hand points to survives iff another frame is taken. -/
theorem EvictStep.spared_iff (hinv : Inv s) (h : EvictStep s r.vpage r.offset r.type r.rnd v s' rep)
    (hpt : PointsTo (some y) s) :
    Resident s' y ↔ s.repl.clockFlag s.repl.clockIndex = 1 ∧ ∃ f, s.repl.clockFlag f ≠ 1 := by
  obtain ⟨hres, hframe⟩ := hpt.page y rfl
  have hyx : y ≠ r.vpage := fun heq => by
    rw [heq, Resident, h.missing] at hres
    contradiction
  rw [h.resident_iff hinv, ← h.victim_ne_iff hpt.policy]
  obtain ⟨f, hf, -, hpage⟩ := hinv.resident_frame y hres
  obtain rfl : f = s.repl.clockIndex := Fin.ext (by omega)
  have hvict := (hinv.frame_resident v (by rw [h.full]; omega)).2
  constructor
  · rintro (heq | ⟨-, hne⟩) rfl
    · exact hyx heq
    · exact hne hpage.symm
  · refine fun hne => Or.inr ⟨hres, fun heq => hne (Fin.ext ?_)⟩
    rw [← heq, hf] at hvict
    omega

/-- **One fault**: its page's flag is set unless all flags were, and the page that
the hand points to survives it unless that page's flag is clear or all are set. -/
theorem fault_spares_iff (hinv : Inv s) (hpt : PointsTo replaced s) (hmiss : ¬ Resident s r.vpage)
    (hcases : HitStep s r.vpage r.offset r.type s' rep ∨ LoadStep s r.vpage r.offset r.type s' rep ∨
      ∃ victim, EvictStep s r.vpage r.offset r.type r.rnd victim s' rep) :
    ((∀ f : Fin maxFrame, (s'.entry r.vpage).frameNo = f → s'.repl.clockFlag f = 1) ↔
      (s.frameInd = maxFrame → ∃ f, s.repl.clockFlag f ≠ 1)) ∧
    (s.frameInd = maxFrame → ∀ y, replaced = some y → (Resident s' y ↔
      s.repl.clockFlag s.repl.clockIndex = 1 ∧ ∃ f, s.repl.clockFlag f ≠ 1)) := by
  rcases hcases with hstep | hstep | ⟨v, hstep⟩
  · exact absurd hstep.resident hmiss
  · have hfree : s.frameInd ≠ maxFrame := by
      have := hstep.free
      omega
    exact ⟨iff_of_true (hstep.flagged hpt.policy) fun hfull => absurd hfull hfree, fun hfull => absurd hfull hfree⟩
  · refine ⟨(hstep.flagged_iff hpt.policy).trans (by simp [hstep.full]), fun _ y hy => ?_⟩
    exact hstep.spared_iff hinv (hy ▸ hpt)

end Spared

/-- The run behind an observed run. -/
theorem run_of_watch {see : μ → State → Request → State → μ} {m : μ} {p : State × μ}
    (h : Run.exec (Run.watch step see) (State.init policy, m) reqs = some p) : run policy reqs = some p.1 := by
  have hwatch : (Run.exec (Run.watch step see) (State.init policy, m) reqs).map Prod.fst = run policy reqs :=
    Run.exec_watch reqs (State.init policy, m)
  rw [h] at hwatch
  exact hwatch.symm

/-- After every run the hand points to the page that the last fault brought in. -/
theorem pointsTo_of_run (reqs : List Request) (h : ∀ r ∈ reqs, r.Valid) :
    ∃ s replaced, run .clock reqs = some s ∧
      Run.exec (Run.watch step seeReplaced) (State.init .clock, none) reqs = some (s, replaced) ∧
      Reached .clock (reqs.map Request.vpage) s ∧ PointsTo replaced s :=
  watch_spec (fun _ s replaced => PointsTo replaced s) pointsTo_init (fun _ s replaced r s' rep hpt _ hcases => by
    rcases hcases with hstep | hstep | ⟨v, hstep⟩
    · exact hstep.pointsTo hpt
    · exact hstep.pointsTo hpt
    · exact hstep.pointsTo hpt) (admissible_of_valid (by decide) h)

/-- A run spares what it has just loaded only until all frames are in use. -/
theorem card_of_clockSpares (reqs : List Request) (h : ∀ r ∈ reqs, r.Valid) (hspares : ClockSpares reqs) :
    (pages reqs).toFinset.card ≤ maxFrame := by
  induction reqs using List.reverseRecOn with
  | nil => simp [pages]
  | append_singleton reqs r ih =>
      have hvalid : ∀ q ∈ reqs, q.Valid := fun q hq => h q (by simp [hq])
      have hall := Run.along_iff.mp hspares
      have hcard := ih hvalid (Run.along_iff.mpr fun hist a t m hsplit =>
        hall hist a (t ++ [r]) m (by simp [hsplit]))
      obtain ⟨s, replaced, hrun, hwatch, hreach, hpt⟩ := pointsTo_of_run reqs hvalid
      have hfill := filling_of_run reqs hvalid hcard hrun
      have hpages : pages (reqs ++ [r]) = pages reqs ++ [r.vpage] := by simp [pages]
      rw [hpages]
      by_cases hmem : r.vpage ∈ pages reqs
      · rwa [toFinset_concat_of_mem hmem]
      · rw [card_concat_of_not_mem hmem]
        have hframes := hfill.frameInd
        have hmiss : ¬ Resident s r.vpage := fun hres => hmem ((hfill.resident _).mp hres)
        obtain ⟨s', rep, hreq, hcases⟩ := hreach.request_of_ne_lru (by decide) (h r (by simp))
        have hflag := (hall reqs r [] (s, replaced) rfl hwatch s' (by rw [step, hreq]; rfl) hmiss).flagged
        by_contra hge
        -- the first fault with all frames in use finds all flags set
        obtain ⟨f, hf⟩ := (fault_spares_iff hreach.inv hpt hmiss hcases).1.mp hflag (by omega)
        exact hf (hfill.flagged f (by omega))

/-- **When CLOCK spares what it has just loaded**: in the runs that request at
most as many pages as there are frames.  For one fault of any run: the flag of
its page is set iff a frame was free or some flag was not 1, and the page by
which the fault before it replaced another stays iff that page's flag is 1 and
some flag is not. -/
theorem clock_spares_iff (reqs : List Request) (h : ∀ r ∈ reqs, r.Valid) :
    (ClockSpares reqs ↔ (pages reqs).toFinset.card ≤ maxFrame) ∧
    ∃ s replaced, run .clock reqs = some s ∧
      Run.exec (Run.watch step seeReplaced) (State.init .clock, none) reqs = some (s, replaced) ∧
      ∀ r s', r.Valid → step s r = some s' → ¬ Resident s r.vpage →
        ((∀ f : Fin maxFrame, (s'.entry r.vpage).frameNo = f → s'.repl.clockFlag f = 1) ↔
          (s.frameInd = maxFrame → ∃ f, s.repl.clockFlag f ≠ 1)) ∧
        (s.frameInd = maxFrame → ∀ y, replaced = some y → (Resident s' y ↔
          s.repl.clockFlag s.repl.clockIndex = 1 ∧ ∃ f, s.repl.clockFlag f ≠ 1)) := by
  refine ⟨⟨card_of_clockSpares reqs h, fun hcard => Run.along_iff.mpr ?_⟩, ?_⟩
  · rintro hist r t ⟨s, replaced⟩ rfl hwatch s' hstep hmiss
    have hvalid : ∀ q ∈ hist ++ [r], q.Valid := fun q hq => h q (by
      rw [List.append_cons]
      exact List.mem_append_left t hq)
    have hadm : Admissible .clock (hist ++ [r]) := admissible_of_valid (by decide) hvalid
    obtain ⟨s₁, s₂, rep, hrun, hreach, hreq, -, hcases⟩ := run_concat_spec hadm
    obtain rfl := Option.some.inj ((run_of_watch hwatch).symm.trans hrun)
    rw [step, hreq, Option.map_some, Option.some.injEq] at hstep
    subst hstep
    have hpages : pages (hist ++ r :: t) = (pages hist ++ [r.vpage]) ++ pages t := by simp [pages]
    have hsub := card_le_append (pages hist ++ [r.vpage]) (pages t)
    have hsub' := card_le_append (pages hist) [r.vpage]
    rw [← hpages] at hsub
    have hfill := filling_of_run hist (fun q hq => hvalid q (by simp [hq])) (by omega) hrun
    have hframes := hfill.frameInd
    have hmem : r.vpage ∉ pages hist := fun hmem => hmiss ((hfill.resident _).mpr hmem)
    rw [card_concat_of_not_mem hmem] at hsub
    have hfree : s.frameInd < maxFrame := by simp only at hframes; omega
    rcases hcases with hstep | hstep | ⟨v, hstep⟩
    · exact absurd hstep.resident hmiss
    · exact ⟨hstep.flagged hreach.policy_eq, fun hfull => absurd hfull (by simp only; omega)⟩
    · exact absurd hstep.full (by simp only; omega)
  · obtain ⟨s, replaced, hrun, hwatch, hreach, hpt⟩ := pointsTo_of_run reqs h
    refine ⟨s, replaced, hrun, hwatch, fun r s' hr hstep hmiss => ?_⟩
    obtain ⟨s₁, rep, hreq, hcases⟩ := hreach.request_of_ne_lru (by decide) hr
    rw [step, hreq, Option.map_some, Option.some.injEq] at hstep
    subst hstep
    exact fault_spares_iff hreach.inv hpt hmiss hcases

theorem clock_spares_iff_nine :
    (ClockSpares ninePages ↔ (pages ninePages).toFinset.card ≤ maxFrame) ∧
    ∃ s replaced, run .clock ninePages = some s ∧
      Run.exec (Run.watch step seeReplaced) (State.init .clock, none) ninePages = some (s, replaced) ∧
      ∀ r s', r.Valid → step s r = some s' → ¬ Resident s r.vpage →
        ((∀ f : Fin maxFrame, (s'.entry r.vpage).frameNo = f → s'.repl.clockFlag f = 1) ↔
          (s.frameInd = maxFrame → ∃ f, s.repl.clockFlag f ≠ 1)) ∧
        (s.frameInd = maxFrame → ∀ y, replaced = some y → (Resident s' y ↔
          s.repl.clockFlag s.repl.clockIndex = 1 ∧ ∃ f, s.repl.clockFlag f ≠ 1)) :=
  clock_spares_iff ninePages (by decide)

/-- Ten pages in turn: the ninth takes the frame of the first and leaves its flag
0, and the tenth takes the same frame again. -/
theorem clock_evicts_loaded : (∀ r ∈ allPages.take 10, r.Valid) ∧
    (∃ s s', run .clock (allPages.take 9) = some s ∧ run .clock (allPages.take 10) = some s' ∧
      (s.entry (1, 0)).frameNo = 0 ∧ s.repl.clockFlag 0 = 0 ∧ Resident s (1, 0) ∧ ¬ Resident s' (1, 0)) ∧
    ¬ ClockSpares (allPages.take 10) := by
  have hrun : ((run .clock (allPages.take 9)).bind fun s => (run .clock (allPages.take 10)).map fun s' =>
      ((s.entry (1, 0)).frameNo, s.repl.clockFlag 0, (s.entry (1, 0)).valid, (s'.entry (1, 0)).valid)) =
      some (0, 0, true, false) := by
    decide +kernel
  obtain ⟨s, hs, hrun⟩ := Option.bind_eq_some_iff.mp hrun
  obtain ⟨s', hs', hfacts⟩ := Option.map_eq_some_iff.mp hrun
  simp only [Prod.mk.injEq] at hfacts
  obtain ⟨hframe, hflag, hres, hgone⟩ := hfacts
  refine ⟨by decide, ⟨s, s', hs, hs', hframe, hflag, hres, by simp [Resident, hgone]⟩, fun hspares => ?_⟩
  exact absurd (card_of_clockSpares _ (by decide) hspares) (by decide)

end OperatingSystem.Vm
