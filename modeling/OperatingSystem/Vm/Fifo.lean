import OperatingSystem.Lib.Ring
import OperatingSystem.Vm.Lru

/-!
# OperatingSystem.Vm.Fifo

FIFO over whole runs.  The policy looks at no page: it counts evictions modulo
the number of frames.  The frames are filled in turn, at first by loads and
from then on by evictions, so they are a ring buffer of the pages loaded
(`FifoOrder`), and the frame whose turn it is holds the page that was loaded
first (`fifo_load_order`).
-/

namespace OperatingSystem.Vm

/-- The pages loaded so far: one for each fault, in order. -/
def seeLoads (loads : List VPage) (s : State) (r : Request) (_ : State) : List VPage :=
  if Resident s r.vpage then loads else loads ++ [r.vpage]

/-- The pages loaded by the last `k` faults, the oldest first. -/
def lastLoads (loads : List VPage) (k : Nat) : List VPage := loads.drop (loads.length - k)

/-- The frames are a ring buffer of the loaded pages, and `fifo_index` counts
those that took a frame from another. -/
structure FifoOrder (loads : List VPage) (s : State) : Prop where
  policy : s.replacementPolicy = .fifo
  misses : s.stats.missCount = loads.length
  frames : s.frameInd = (min loads.length maxFrame : Nat)
  fifoIndex : s.repl.fifoIndex = loads.length - maxFrame
  slots : Ring.Holds s.invertTable loads

theorem fifoOrder_init : FifoOrder [] (State.init .fifo) := ⟨rfl, rfl, rfl, rfl, Ring.holds_nil _⟩

section Step

variable {s s' : State} {r : Request} {rep : Reply} {loads : List VPage}

theorem HitStep.fifoOrder (h : HitStep s r.vpage r.offset r.type s' rep) (ho : FifoOrder loads s) :
    FifoOrder (seeLoads loads s r s') s' := by
  obtain ⟨f, -, hstep⟩ := h.repl
  rw [seeLoads, if_pos (show Resident s r.vpage from h.resident)]
  refine ⟨h.policy.trans ho.policy, ?_, h.frameInd.trans ho.frames, hstep.fifoIndex.trans ho.fifoIndex, ?_⟩
  · rw [h.stats]
    exact ho.misses
  · rw [h.invertTable]
    exact ho.slots

/-- A fault does not find its page. -/
theorem seeLoads_missing (h : (s.entry r.vpage).valid = false) : seeLoads loads s r s' = loads ++ [r.vpage] :=
  if_neg (by simp [Resident, h])

theorem LoadStep.fifoOrder (h : LoadStep s r.vpage r.offset r.type s' rep) (ho : FifoOrder loads s) :
    FifoOrder (seeLoads loads s r s') s' := by
  obtain ⟨f, hf, hinvert, hstep⟩ := h.repl
  have hfree := h.free
  have hframes := ho.frames
  -- fewer faults than frames: the next free frame is the next slot
  have hlen : loads.length < maxFrame := by omega
  have hslot : f = Fin.ofNat maxFrame loads.length := Fin.ext (by rw [Fin.val_ofNat, Nat.mod_eq_of_lt hlen]; omega)
  rw [seeLoads_missing h.missing]
  refine ⟨h.policy.trans ho.policy, ?_, ?_, ?_, ?_⟩
  · rw [h.stats, List.length_append, List.length_singleton, ← ho.misses]
  · rw [h.frameInd, hframes, List.length_append, List.length_singleton]
    omega
  · rw [hstep.fifoIndex, List.length_append, List.length_singleton]
    have := ho.fifoIndex
    simp only
    omega
  · rw [hinvert, hslot]
    exact ho.slots.push _

/-- The victim is in the slot that is filled next. -/
theorem EvictStep.fifo_victim (h : EvictStep s r.vpage r.offset r.type r.rnd v s' rep) (ho : FifoOrder loads s) :
    maxFrame ≤ loads.length ∧ v = Fin.ofNat maxFrame loads.length ∧ s'.repl.fifoIndex = s.repl.fifoIndex + 1 := by
  have hframes := ho.frames
  rw [h.full] at hframes
  have hlen : maxFrame ≤ loads.length := by omega
  have hfifo := h.replaced
  rw [ho.policy, pageReplacement, fifo, Option.some.injEq, Prod.mk.injEq, ho.fifoIndex] at hfifo
  obtain ⟨hrepl, hv⟩ := hfifo
  refine ⟨hlen, Fin.ext ?_, ?_⟩
  · rw [Fin.val_ofNat, Nat.mod_eq_sub_mod hlen]
    omega
  · rw [← hrepl, ho.fifoIndex]

theorem EvictStep.fifoOrder (h : EvictStep s r.vpage r.offset r.type r.rnd v s' rep) (ho : FifoOrder loads s) :
    FifoOrder (seeLoads loads s r s') s' := by
  obtain ⟨hlen, hv, hindex⟩ := h.fifo_victim ho
  rw [seeLoads_missing h.missing]
  refine ⟨h.policy.trans ho.policy, ?_, ?_, ?_, ?_⟩
  · rw [h.stats, List.length_append, List.length_singleton, ← ho.misses]
  · rw [h.frameInd, h.full, List.length_append, List.length_singleton]
    omega
  · rw [hindex, ho.fifoIndex, List.length_append, List.length_singleton]
    omega
  · rw [h.invertTable, hv]
    exact ho.slots.push _

end Step

section Order

variable {s : State} {loads : List VPage}

/-- With as many faults as frames, or more, the last loads are the window of the
ring. -/
theorem FifoOrder.lastLoads_eq (ho : FifoOrder loads s) :
    lastLoads loads (min s.stats.missCount maxFrame) = Ring.window maxFrame loads := by
  rw [lastLoads, Ring.window, ho.misses]
  congr 1
  omega

/-- The resident pages are the last ones loaded. -/
theorem FifoOrder.resident_iff (hinv : Inv s) (ho : FifoOrder loads s) (x : VPage) :
    Resident s x ↔ x ∈ lastLoads loads (min s.stats.missCount maxFrame) := by
  have hframes := ho.frames
  rw [ho.lastLoads_eq, ho.slots.mem_window]
  constructor
  · intro hx
    obtain ⟨f, -, hlt, hpage⟩ := hinv.resident_frame x hx
    exact ⟨f, by omega, hpage⟩
  · rintro ⟨f, hf, rfl⟩
    have := f.isLt
    exact (hinv.frame_resident f (by omega)).1

/-- No page is loaded twice among the last loads. -/
theorem FifoOrder.nodup (hinv : Inv s) (ho : FifoOrder loads s) :
    (lastLoads loads (min s.stats.missCount maxFrame)).Nodup := by
  have hframes := ho.frames
  rw [ho.lastLoads_eq]
  refine ho.slots.nodup fun f g hf hg heq => ?_
  have hf' := f.isLt
  have hg' := g.isLt
  have hframe := (hinv.frame_resident f (by omega)).2
  rw [heq, (hinv.frame_resident g (by omega)).2] at hframe
  exact Fin.ext (by omega)

end Order

/-- **FIFO evicts in load order**: after every run, the resident pages are those
loaded by the last faults, one for each frame in use; and a fault with all
frames in use evicts the page among them that was loaded first, and no other. -/
theorem fifo_load_order (reqs : List Request) (h : ∀ r ∈ reqs, r.Valid) :
    ∃ s loads, run .fifo reqs = some s ∧
      Run.exec (Run.watch step seeLoads) (State.init .fifo, []) reqs = some (s, loads) ∧
      s.stats.missCount = loads.length ∧
      (∀ x, Resident s x ↔ x ∈ lastLoads loads (min s.stats.missCount maxFrame)) ∧
      (lastLoads loads (min s.stats.missCount maxFrame)).Nodup ∧
      ∀ r s' rep, r.Valid → request s r = some (s', rep) → rep.hit = false → s.frameInd = maxFrame →
        ∃ oldest rest, lastLoads loads (min s.stats.missCount maxFrame) = oldest :: rest ∧
          ∀ y, Resident s y → (¬ Resident s' y ↔ y = oldest) := by
  have hadm : Admissible .fifo reqs := admissible_of_valid (by decide) h
  obtain ⟨s, loads, hrun, hwatch, hreach, ho⟩ := watch_spec (fun _ s loads => FifoOrder loads s) fifoOrder_init
    (fun _ s loads r s' rep ho _ hcases => by
      rcases hcases with hstep | hstep | ⟨v, hstep⟩
      · exact hstep.fifoOrder ho
      · exact hstep.fifoOrder ho
      · exact hstep.fifoOrder ho) hadm
  refine ⟨s, loads, hrun, hwatch, ho.misses, ho.resident_iff hreach.inv, ho.nodup hreach.inv, ?_⟩
  intro r s' rep hr hreq hmiss hfull
  obtain ⟨s₁, rep₁, hreq₁, hcases⟩ := hreach.request_of_ne_lru (by decide) hr
  obtain ⟨rfl, rfl⟩ := Prod.mk.inj (Option.some.inj (hreq.symm.trans hreq₁))
  rcases hcases with hstep | hstep | ⟨v, hstep⟩
  · rw [hstep.hit] at hmiss
    contradiction
  · have := hstep.free
    omega
  · obtain ⟨hlen, rfl, -⟩ := hstep.fifo_victim ho
    refine ⟨_, _, ho.lastLoads_eq.trans (ho.slots.oldest hlen), fun y hy => ?_⟩
    rw [hstep.resident_iff hreach.inv]
    have hne : y ≠ r.vpage := fun heq => by
      rw [heq, Resident, hstep.missing] at hy
      contradiction
    simp [hne, hy]

theorem fifo_load_order_nine :
    ∃ s loads, run .fifo ninePages = some s ∧
      Run.exec (Run.watch step seeLoads) (State.init .fifo, []) ninePages = some (s, loads) ∧
      s.stats.missCount = loads.length ∧
      (∀ x, Resident s x ↔ x ∈ lastLoads loads (min s.stats.missCount maxFrame)) ∧
      (lastLoads loads (min s.stats.missCount maxFrame)).Nodup ∧
      ∀ r s' rep, r.Valid → request s r = some (s', rep) → rep.hit = false → s.frameInd = maxFrame →
        ∃ oldest rest, lastLoads loads (min s.stats.missCount maxFrame) = oldest :: rest ∧
          ∀ y, Resident s y → (¬ Resident s' y ↔ y = oldest) :=
  fifo_load_order ninePages (by decide)

end OperatingSystem.Vm
