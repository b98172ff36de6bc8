import OperatingSystem.Vm.Step
import OperatingSystem.Lib.Run

/-!
# OperatingSystem.Vm.Invariant

The table invariant over whole runs.  `Inv` holds of the initial state, each of
the three kinds of step preserves it, and so it holds after every run of
requests to pages of the tables (`run_spec`).  Under LRU the run theorem also
carries the recency law: the list, read through the inverted table, is the
recency list of the requests cut to the number of frames.
-/

namespace OperatingSystem.Vm

open Dlist Recency

/-! ## The initial state -/

theorem inv_init (policy : Policy) : Inv (State.init policy) where
  frameInd_nonneg := Int.le_refl 0
  frameInd_le := by simp [State.init]
  frame_resident := fun f hf => absurd hf (by simp [State.init])
  resident_frame := fun x hx => absurd hx (by simp [State.init])
  tlb_resident := fun i k hk => absurd hk (by simp [State.init])
  lruList := fun _ => ⟨[], ⟨[], isList_nil Heap.ok_empty, rfl⟩, List.nodup_nil, fun f => by
    simp [State.init]⟩

/-! ## The TLB -/

/-- After an insertion, a valid way holds the new page or what it held before. -/
theorem tlbInsert_valid (s : State) (x : VPage) (frame : Int) (i : Pid × Fin tlbSets) (k : Fin 2)
    (h : ((s.tlbInsert x frame).tlb i).valid k = true) :
    (i = tlbSet x ∧ ((s.tlbInsert x frame).tlb i).entry k = x.2 ∧ ((s.tlbInsert x frame).tlb i).frameNo k = frame) ∨
      ((s.tlb i).valid k = true ∧ ((s.tlbInsert x frame).tlb i).entry k = (s.tlb i).entry k ∧
        ((s.tlbInsert x frame).tlb i).frameNo k = (s.tlb i).frameNo k) := by
  by_cases hi : i = tlbSet x
  · subst hi
    by_cases hk : k = 1 - s.tlbsetPtr (tlbSet x)
    · exact Or.inl ⟨rfl, by simp [State.tlbInsert, hk], by simp [State.tlbInsert, hk]⟩
    · right
      simpa [State.tlbInsert, hk] using h
  · right
    simpa [State.tlbInsert, hi] using h

/-- The loop that invalidates a victim's ways keeps their page numbers and
frames, and steers the pointer past the last way it invalidates. -/
theorem tlbInvalidateSet_eq (t : TLB) (ptr : Fin 2) (page : Int) :
    (tlbInvalidateSet t ptr page).1 = { t with valid := fun k => t.valid k && t.entry k != page } ∧
      (tlbInvalidateSet t ptr page).2 =
        if t.entry 1 = page then 0 else if t.entry 0 = page then 1 else ptr := by
  have hk : ∀ k : Fin 2, k = 0 ∨ k = 1 := by decide
  obtain ⟨entry, frameNo, valid⟩ := t
  simp only [tlbInvalidateSet, List.foldl]
  by_cases h0 : entry 0 = page <;> by_cases h1 : entry 1 = page <;>
    simp only [h0, h1, if_true, if_false] <;>
    refine ⟨congrArg (TLB.mk entry frameNo) (funext fun k => ?_), by simp⟩ <;>
    rcases hk k with rfl | rfl <;> simp [h0, h1]

theorem tlbInvalidate_valid (s : State) (y : VPage) (i : Pid × Fin tlbSets) (k : Fin 2)
    (h : ((tlbInvalidate s y).tlb i).valid k = true) :
    (s.tlb i).valid k = true ∧ ((tlbInvalidate s y).tlb i).entry k = (s.tlb i).entry k ∧
      ((tlbInvalidate s y).tlb i).frameNo k = (s.tlb i).frameNo k ∧
      (i = tlbSet y → (s.tlb i).entry k ≠ y.2) := by
  have ht := (tlbInvalidateSet_eq (s.tlb (tlbSet y)) (s.tlbsetPtr (tlbSet y)) y.2).1
  by_cases hi : i = tlbSet y
  · subst hi
    simp only [tlbInvalidate, Function.update_self, ht, Bool.and_eq_true, bne_iff_ne] at h ⊢
    exact ⟨h.1, trivial, trivial, fun _ => h.2⟩
  · simp only [tlbInvalidate, Function.update_of_ne hi] at h ⊢
    exact ⟨h, trivial, trivial, fun h' => absurd h' hi⟩

/-! ## The steps preserve the invariant -/

section Preservation

variable {s s' : State} {x : VPage} {r : Reply}

theorem HitStep.inv (hinv : Inv s) (h : HitStep s x offset type s' r) : Inv s' := by
  have hvalid : ∀ y, (s'.entry y).valid = (s.entry y).valid := fun y => by
    rw [h.entry, markDirty_valid]
  have hframeNo : ∀ y, (s'.entry y).frameNo = (s.entry y).frameNo := fun y => by
    rw [h.entry, markDirty_frameNo]
  refine ⟨?_, ?_, ?_, ?_, ?_, ?_⟩
  · rw [h.frameInd]
    exact hinv.frameInd_nonneg
  · rw [h.frameInd]
    exact hinv.frameInd_le
  · intro f hf
    rw [h.invertTable, hvalid, hframeNo]
    exact hinv.frame_resident f (by rwa [h.frameInd] at hf)
  · intro y hy
    rw [h.invertTable, hframeNo, h.frameInd]
    exact hinv.resident_frame y (by rwa [hvalid] at hy)
  · intro i k hk
    rcases h.tlb with ⟨-, j, -, -, htlb, -⟩ | ⟨-, -, htlb, -⟩
    · rw [htlb] at hk ⊢
      obtain ⟨y, hset, hentry, hy⟩ := hinv.tlb_resident i k hk
      exact ⟨y, hset, hentry, by rw [hvalid, hy]⟩
    · rw [htlb] at hk ⊢
      rcases tlbInsert_valid s x _ i k hk with ⟨hi, hentry, -⟩ | ⟨hk', hentry, -⟩
      · exact ⟨x, hi.symm, hentry, by rw [hvalid]; exact h.resident⟩
      · obtain ⟨y, hset, hy', hy⟩ := hinv.tlb_resident i k hk'
        exact ⟨y, hset, by rw [hentry]; exact hy', by rw [hvalid, hy]⟩
  · intro hp
    rw [h.policy] at hp
    obtain ⟨l, hl, hnd, hmem⟩ := hinv.lruList hp
    obtain ⟨f, hf, hstep⟩ := h.repl
    obtain ⟨f', hf', hlt, -⟩ := hinv.resident_frame x h.resident
    have hfl : (f : Int) ∈ l := (hmem f).mpr ⟨by omega, by omega⟩
    refine ⟨_, hstep.recency l hp hl, nodup_touch hnd _, fun g => ?_⟩
    rw [mem_touch, h.frameInd, ← hmem g]
    constructor
    · rintro (rfl | hg)
      · exact hfl
      · exact hg
    · exact Or.inr

theorem LoadStep.inv (hinv : Inv s) (h : LoadStep s x offset type s' r) : Inv s' := by
  have hnonneg := hinv.frameInd_nonneg
  have hfree := h.free
  obtain ⟨f, hf, hinvert, hstep⟩ := h.repl
  have hne : ∀ y, (s.entry y).valid = true → y ≠ x := by
    rintro y hy rfl
    rw [h.missing] at hy
    contradiction
  have hx : s'.entry x = ⟨s.frameInd, true, decide (type = 'W')⟩ := by rw [h.entry]; simp
  have hy : ∀ y, y ≠ x → s'.entry y = s.entry y := fun y hyx => by rw [h.entry]; simp [hyx]
  refine ⟨by rw [h.frameInd]; omega, by rw [h.frameInd]; omega, ?_, ?_, ?_, ?_⟩
  · intro g hg
    rw [hinvert]
    by_cases hgf : g = f
    · subst hgf
      rw [Function.update_self, hx]
      exact ⟨rfl, hf⟩
    · have hlt : (g : Int) < s.frameInd := by
        rw [h.frameInd] at hg
        have : (g : Int) ≠ f := fun heq => hgf (Fin.ext (Int.ofNat.inj heq))
        omega
      have hold := hinv.frame_resident g hlt
      rw [Function.update_of_ne hgf, hy _ (hne _ hold.1)]
      exact hold
  · intro y hyv
    by_cases hyx : y = x
    · subst hyx
      refine ⟨f, by rw [hx]; exact hf, by rw [h.frameInd]; omega, ?_⟩
      rw [hinvert, Function.update_self]
    · rw [hy y hyx] at hyv ⊢
      obtain ⟨g, hg, hlt, hpage⟩ := hinv.resident_frame y hyv
      refine ⟨g, hg, by rw [h.frameInd]; omega, ?_⟩
      have hgf : g ≠ f := by
        rintro rfl
        omega
      rw [hinvert, Function.update_of_ne hgf, hpage]
  · intro i k hk
    rw [h.tlb] at hk ⊢
    rcases tlbInsert_valid s x _ i k hk with ⟨hi, hentry, -⟩ | ⟨hk', hentry, -⟩
    · exact ⟨x, hi.symm, hentry, by rw [hx]⟩
    · obtain ⟨y, hset, hy', hyv⟩ := hinv.tlb_resident i k hk'
      exact ⟨y, hset, by rw [hentry]; exact hy', by rw [hy y (hne y hyv)]; exact hyv⟩
  · intro hp
    rw [h.policy] at hp
    obtain ⟨l, hl, hnd, hmem⟩ := hinv.lruList hp
    refine ⟨_, hstep.recency l hp hl, nodup_touch hnd _, fun g => ?_⟩
    rw [mem_touch, h.frameInd, hmem g]
    omega

theorem EvictStep.inv (hinv : Inv s) (h : EvictStep s x offset type rnd v s' r) : Inv s' := by
  have hfull := h.full
  obtain ⟨hvictim, hframe⟩ := hinv.frame_resident v (by rw [hfull]; omega)
  have hne : ∀ y, (s.entry y).valid = true → y ≠ x := by
    rintro y hy rfl
    rw [h.missing] at hy
    contradiction
  have hx : s'.entry x = ⟨v, true, decide (type = 'W')⟩ := by rw [h.entry]; simp
  have hvict : s'.entry (s.invertTable v) =
      { s.entry (s.invertTable v) with valid := false, dirty := false } := by
    rw [h.entry, Function.update_of_ne (hne _ hvictim), Function.update_self]
  have hy : ∀ y, y ≠ x → y ≠ s.invertTable v → s'.entry y = s.entry y := fun y hyx hyv => by
    rw [h.entry, Function.update_of_ne hyx, Function.update_of_ne hyv]
  -- two frames never hold the same page
  have hinj : ∀ g : Fin maxFrame, g ≠ v → s.invertTable g ≠ s.invertTable v := by
    intro g hgv heq
    have hg := (hinv.frame_resident g (by rw [hfull]; omega)).2
    rw [heq, hframe] at hg
    exact hgv (Fin.ext (Int.ofNat.inj hg.symm))
  refine ⟨by rw [h.frameInd]; exact hinv.frameInd_nonneg, by rw [h.frameInd]; exact hinv.frameInd_le,
    ?_, ?_, ?_, ?_⟩
  · intro g _
    rw [h.invertTable]
    by_cases hgv : g = v
    · subst hgv
      rw [Function.update_self, hx]
      exact ⟨rfl, rfl⟩
    · have hold := hinv.frame_resident g (by rw [hfull]; omega)
      rw [Function.update_of_ne hgv, hy _ (hne _ hold.1) (hinj g hgv)]
      exact hold
  · intro y hyv
    rw [h.frameInd, hfull]
    by_cases hyx : y = x
    · subst hyx
      exact ⟨v, by rw [hx], by omega, by rw [h.invertTable, Function.update_self]⟩
    · have hyv' : y ≠ s.invertTable v := by
        rintro rfl
        rw [hvict] at hyv
        contradiction
      rw [hy y hyx hyv'] at hyv ⊢
      obtain ⟨g, hg, -, hpage⟩ := hinv.resident_frame y hyv
      have hgv : g ≠ v := by
        rintro rfl
        exact hyv' hpage.symm
      exact ⟨g, hg, by omega, by rw [h.invertTable, Function.update_of_ne hgv, hpage]⟩
  · intro i k hk
    rw [h.tlb] at hk ⊢
    rcases tlbInsert_valid _ x _ i k hk with ⟨hi, hentry, -⟩ | ⟨hk', hentry, -⟩
    · exact ⟨x, hi.symm, hentry, by rw [hx]⟩
    · obtain ⟨hold, hentry', -, hnot⟩ := tlbInvalidate_valid s (s.invertTable v) i k hk'
      obtain ⟨y, hset, hy', hyv⟩ := hinv.tlb_resident i k hold
      have hyv' : y ≠ s.invertTable v := by
        rintro rfl
        exact hnot hset.symm hy'
      exact ⟨y, hset, by rw [hentry, hentry']; exact hy', by rw [hy y (hne y hyv) hyv']; exact hyv⟩
  · intro hp
    rw [h.policy] at hp
    obtain ⟨l, g, f, hl⟩ := hinv.lru_full hfull hp
    obtain ⟨l', hl', hnd, hmem⟩ := hinv.lruList hp
    cases hl'.unique hl
    obtain ⟨-, hholds⟩ := pageReplacement_lru (r := { s.repl with lruFlag := 2 }) rfl hl (hp ▸ h.replaced)
    have hperm : ((f : Int) :: (l ++ [g])).Perm (l ++ [g, (f : Int)]) := by
      rw [show l ++ [g, (f : Int)] = (l ++ [g]) ++ [(f : Int)] by simp]
      exact (List.perm_append_singleton _ _).symm
    refine ⟨_, hholds, hperm.nodup_iff.mpr hnd, fun k => ?_⟩
    rw [hperm.mem_iff, hmem k, h.frameInd]

end Preservation

/-! ## The recency law -/

/-- Under LRU the list, read through the inverted table, is the recency list of
the pages requested so far, cut to the number of frames. -/
def RecencyLaw (hist : List VPage) (s : State) : Prop :=
  s.replacementPolicy = .lru → ∃ l, Holds s.repl.heap s.repl.head l ∧
    l.map s.invertTable.read = ((recent hist).take maxFrame).map some

section RecencyLaw

variable {s s' : State} {x : VPage} {r : Reply} {hist : List VPage}

/-- The pages the LRU list stands for are the resident ones. -/
theorem mem_recent_iff_resident (hinv : Inv s) (hp : s.replacementPolicy = .lru)
    (hlaw : RecencyLaw hist s) : x ∈ (recent hist).take maxFrame ↔ (s.entry x).valid = true := by
  obtain ⟨l, hl, hmap⟩ := hlaw hp
  obtain ⟨l', hl', -, hmem⟩ := hinv.lruList hp
  cases hl'.unique hl
  have hle := hinv.frameInd_le
  have hmemx : x ∈ (recent hist).take maxFrame ↔ ∃ f ∈ l, s.invertTable.read f = some x := by
    rw [← List.mem_map, hmap, List.mem_map]
    simp
  rw [hmemx]
  constructor
  · rintro ⟨f, hf, hread⟩
    obtain ⟨k, rfl, rfl⟩ := Arr.read_eq_some hread
    exact (hinv.frame_resident k ((hmem k).mp hf).2).1
  · intro hv
    obtain ⟨f, -, hlt, hpage⟩ := hinv.resident_frame x hv
    exact ⟨f, (hmem f).mpr ⟨by omega, hlt⟩, by rw [Arr.read_fin, hpage]⟩

theorem recencyLaw_init (policy : Policy) : RecencyLaw [] (State.init policy) :=
  fun _ => ⟨[], ⟨[], isList_nil Heap.ok_empty, rfl⟩, rfl⟩

/-- On a full table the recency list has as many elements as there are frames. -/
theorem length_take_recent (hinv : Inv s) (hp : s.replacementPolicy = .lru)
    (hlaw : RecencyLaw hist s) : (((recent hist).take maxFrame).length : Int) = s.frameInd := by
  obtain ⟨l, hl, hmap⟩ := hlaw hp
  obtain ⟨l', hl', hnd, hmem⟩ := hinv.lruList hp
  cases hl'.unique hl
  have hnonneg := hinv.frameInd_nonneg
  have hlen : l.length = ((recent hist).take maxFrame).length := by
    simpa using congrArg List.length hmap
  have hperm : l.Perm ((List.range s.frameInd.toNat).map Nat.cast) := by
    refine (List.perm_ext_iff_of_nodup hnd ?_).mpr fun f => ?_
    · exact List.nodup_range.map fun a b h => Int.ofNat.inj h
    · rw [hmem f, List.mem_map]
      constructor
      · intro h
        exact ⟨f.toNat, List.mem_range.mpr (by omega), by omega⟩
      · rintro ⟨n, hn, rfl⟩
        have := List.mem_range.mp hn
        omega
  rw [← hlen, hperm.length_eq, List.length_map, List.length_range]
  omega

/-- A hit moves the page to the front, in the list as in the recency list. -/
theorem HitStep.recencyLaw (hinv : Inv s) (hlaw : RecencyLaw hist s)
    (h : HitStep s x offset type s' r) : RecencyLaw (hist ++ [x]) s' := by
  intro hp
  rw [h.policy] at hp
  have hx := (mem_recent_iff_resident hinv hp hlaw).mpr h.resident
  obtain ⟨l, hl, hmap⟩ := hlaw hp
  obtain ⟨f, hf, hstep⟩ := h.repl
  obtain ⟨g, hg, -, hpage⟩ := hinv.resident_frame x h.resident
  cases Fin.ext (Int.ofNat.inj (hf.symm.trans hg))
  have hread : s.invertTable.read f = some x := by rw [Arr.read_fin, hpage]
  have hinj : ∀ k ∈ l, s.invertTable.read k = s.invertTable.read f → k = f := by
    intro k hk heq
    obtain ⟨l', hl', -, hmem⟩ := hinv.lruList hp
    cases hl'.unique hl
    obtain ⟨j, rfl, hj⟩ := Arr.read_eq_some (heq.trans hread)
    have := (hinv.frame_resident j ((hmem j).mp hk).2).2
    rw [hj, hf] at this
    exact this.symm
  refine ⟨_, hstep.recency l hp hl, ?_⟩
  rw [h.invertTable, map_touch_of_inj _ hinj, hmap, hread, recent_concat, take_touch_of_mem hx,
    map_touch_of_inj _ fun y _ hy => Option.some.inj hy]

/-- A load puts the page in front of the others. -/
theorem LoadStep.recencyLaw (hinv : Inv s) (hlaw : RecencyLaw hist s)
    (h : LoadStep s x offset type s' r) : RecencyLaw (hist ++ [x]) s' := by
  intro hp
  rw [h.policy] at hp
  have hx : x ∉ (recent hist).take maxFrame := fun hmem => by
    rw [mem_recent_iff_resident hinv hp hlaw, h.missing] at hmem
    contradiction
  have hfree := h.free
  have hlen := length_take_recent hinv hp hlaw
  obtain ⟨l, hl, hmap⟩ := hlaw hp
  obtain ⟨f, hf, hinvert, hstep⟩ := h.repl
  obtain ⟨l', hl', -, hmem⟩ := hinv.lruList hp
  cases hl'.unique hl
  have hfl : (f : Int) ∉ l := fun hfl => by
    have := ((hmem f).mp hfl).2
    omega
  have hothers : l.map s'.invertTable.read = l.map s.invertTable.read := by
    refine List.map_congr_left fun k hk => ?_
    have hkf : k ≠ f := fun heq => hfl (heq ▸ hk)
    rw [hinvert, Arr.read_update_of_ne _ hkf]
  have htake : (recent hist).take maxFrame = (recent hist).take 7 := by
    have h8 : maxFrame = 8 := rfl
    rw [List.length_take] at hlen
    rw [List.take_of_length_le (by omega), List.take_of_length_le (by omega)]
  refine ⟨_, hstep.recency l hp hl, ?_⟩
  rw [touch, List.erase_of_not_mem hfl, List.map_cons, hothers, hmap, recent_concat,
    take_touch_of_not_mem hx, htake, hinvert, Arr.read_fin, Function.update_self]
  rfl

/-- An eviction drops the oldest page and puts the new one in front. -/
theorem EvictStep.recencyLaw (hinv : Inv s) (hlaw : RecencyLaw hist s)
    (h : EvictStep s x offset type rnd v s' r) : RecencyLaw (hist ++ [x]) s' := by
  intro hp
  rw [h.policy] at hp
  have hx : x ∉ (recent hist).take maxFrame := fun hmem => by
    rw [mem_recent_iff_resident hinv hp hlaw, h.missing] at hmem
    contradiction
  obtain ⟨l, g, f, hl⟩ := hinv.lru_full h.full hp
  have hlen := length_take_recent hinv hp hlaw
  obtain ⟨l₁, hl₁, hmap⟩ := hlaw hp
  cases hl₁.unique hl
  obtain ⟨l₂, hl₂, hnd, -⟩ := hinv.lruList hp
  cases hl₂.unique hl
  obtain ⟨hv, hholds⟩ := pageReplacement_lru (r := { s.repl with lruFlag := 2 }) rfl hl
    (hp ▸ h.replaced)
  have hvf : v = f := Fin.ext (Int.ofNat.inj hv)
  subst hvf
  have hothers : (l ++ [g]).map s'.invertTable.read = (l ++ [g]).map s.invertTable.read := by
    refine List.map_congr_left fun k hk => ?_
    have hkv : k ≠ v := by
      rintro rfl
      rw [show l ++ [g, (v : Int)] = (l ++ [g]) ++ [(v : Int)] by simp] at hnd
      exact (List.nodup_append.mp hnd).2.2 _ hk _ (by simp) rfl
    rw [h.invertTable, Arr.read_update_of_ne _ hkv]
  have hinit : (l ++ [g]).map s.invertTable.read = ((recent hist).take 7).map some := by
    have hdrop := congrArg List.dropLast hmap
    rw [show l ++ [g, (v : Int)] = (l ++ [g]) ++ [(v : Int)] by simp, List.map_append,
      List.map_singleton, List.dropLast_concat, List.dropLast_eq_take] at hdrop
    have hseven : (((recent hist).take maxFrame).map some).length - 1 = 7 := by
      have h8 : maxFrame = 8 := rfl
      rw [h.full] at hlen
      rw [List.length_map]
      omega
    rw [hdrop, hseven, ← List.map_take, List.take_take]
    rfl
  refine ⟨_, hholds, ?_⟩
  rw [List.map_cons, hothers, hinit, recent_concat, take_touch_of_not_mem hx, h.invertTable,
    Arr.read_fin, Function.update_self]
  rfl

end RecencyLaw

end OperatingSystem.Vm
