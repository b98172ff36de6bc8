import OperatingSystem.Fs.Preserve
import OperatingSystem.Fs.Write

/-!
# OperatingSystem.Fs.Remove

What `file_remove` and `dir_remove` do in a state that satisfies the invariant:
they refuse and change nothing, or they free the inode and its data blocks and
compact the directory (`RemoveStep`).  The block of a large file's map is not
among the blocks they free.
-/

namespace OperatingSystem.Fs

open Codec

/-! ## The blocks of an inode, as a list -/

/-- Numbers that are all on the disk. -/
theorem exists_blocks {xs : List Int} (h : ∀ x ∈ xs, ∃ b : Fin 4096, x = b) :
    ∃ bs : List (Fin 4096), xs = bs.map fun b : Fin 4096 => ((b : Nat) : Int) := by
  induction xs with
  | nil => exact ⟨[], rfl⟩
  | cons x xs ih =>
      obtain ⟨b, rfl⟩ := h x List.mem_cons_self
      obtain ⟨bs, rfl⟩ := ih fun y hy => h y (List.mem_cons_of_mem _ hy)
      exact ⟨b :: bs, rfl⟩

section Owned

variable {s : FS} {L : Set (Fin 4096)} {i : Fin 512}

/-- The blocks of a live inode are distinct. -/
theorem Inv.ownedList (hinv : Inv L s) (hlive : s.live i = true) :
    ∃ bs : List (Fin 4096), (ownedBlocks s (s.inode i) = bs.map fun b : Fin 4096 => ((b : Nat) : Int)) ∧
      bs.Nodup ∧ ∀ b ∈ bs, ∃ k, Owns s i k b := by
  obtain ⟨bs, hbs⟩ := exists_blocks fun x hx => (hinv.owned i hlive x hx).imp fun _ h => h.1
  have howns : ∀ k b, bs[k]? = some b → Owns s i k b := fun k b hk =>
    ⟨hlive, by rw [hbs, List.getElem?_map, hk]; rfl⟩
  refine ⟨bs, hbs, ?_, fun b hb => ?_⟩
  · rw [List.nodup_iff_getElem?_ne_getElem?]
    intro k l hkl hl heq
    obtain ⟨b, hb⟩ : ∃ b, bs[l]? = some b := ⟨bs[l], List.getElem?_eq_getElem hl⟩
    have := (hinv.unique i i k l b (howns k b (heq.trans hb)) (howns l b hb)).2
    omega
  · obtain ⟨k, hk⟩ := List.mem_iff_getElem?.mp hb
    exact ⟨k, howns k b hk⟩

theorem dataBlocks_sublist {n : Inode} (htype : n.type = .file) : (dataBlocks s n).Sublist (ownedBlocks s n) := by
  simp only [ownedBlocks, htype, dataBlocks]
  refine List.Sublist.append_left ?_ _
  by_cases hc : n.blockCount > 10
  · rw [if_pos hc]
    exact List.sublist_cons_self _ _
  · rw [if_neg hc, mappedBlocks, show (n.blockCount - 10).toNat = 0 by omega]
    simp

/-- The data blocks of a file: the direct ones `ds` and the mapped ones `ms`. -/
theorem Inv.dataList (hinv : Inv L s) (hlive : s.live i = true) (htype : (s.inode i).type = .file) :
    ∃ ds ms : List (Fin 4096), (directBlocks (s.inode i) = ds.map fun b : Fin 4096 => ((b : Nat) : Int)) ∧
      (mappedBlocks s (s.inode i) = ms.map fun b : Fin 4096 => ((b : Nat) : Int)) ∧
      (ds ++ ms).Nodup ∧ (∀ b ∈ ds ++ ms, ∃ k, Owns s i k b) ∧ ∀ b, Owns s i 10 b → b ∉ ds ++ ms := by
  obtain ⟨bs, hbs, hnodup, howns⟩ := hinv.ownedList hlive
  have hsub := dataBlocks_sublist (s := s) htype
  rw [hbs, List.sublist_map_iff] at hsub
  obtain ⟨bs', hsub, hdata⟩ := hsub
  obtain ⟨ds, ms, rfl, hds, hms⟩ := List.map_eq_append_iff.mp hdata.symm
  refine ⟨ds, ms, hds.symm, hms.symm, hnodup.sublist hsub, fun b hb => howns b (hsub.subset hb), fun b hown hb => ?_⟩
  have hmem : ((b : Nat) : Int) ∈ dataBlocks s (s.inode i) := by
    rw [hdata]
    exact List.mem_map_of_mem hb
  obtain ⟨k, hk, hne⟩ := ownedBlocks_data htype hmem
  exact hne (hinv.unique i i k 10 b ⟨hlive, hk⟩ hown).2

end Owned

/-! ## free_block in a loop -/

/-- The blocks `bs` have been freed. -/
structure Freed (s : FS) (bs : List (Fin 4096)) (t : FS) : Prop where
  used : ∀ b, t.used b = true ↔ b ∉ bs ∧ s.used b = true
  counts : t.Counts
  free : t.superBlock.freeBlockCount = s.superBlock.freeBlockCount + bs.length
  rest : t = { s with blockMap := t.blockMap, superBlock := t.superBlock }

theorem Freed.nil (hc : s.Counts) : Freed s [] s := ⟨by simp, hc, by simp, rfl⟩

theorem Freed.cons {b : Fin 4096} (hb : s.used b = true) (h : Freed (s.flipBlock b) bs t) :
    Freed s (b :: bs) t := by
  refine ⟨fun c => ?_, h.counts, ?_, ?_⟩
  · have hflip : (s.flipBlock b).used c = if c = b then !s.used b else s.used c := FS.used_flipBlock s b c
    rw [h.used, hflip, List.mem_cons, not_or]
    by_cases hcb : c = b
    · simp [hcb, hb]
    · rw [if_neg hcb]
      exact ⟨fun ⟨h1, h2⟩ => ⟨⟨hcb, h1⟩, h2⟩, fun ⟨⟨_, h1⟩, h2⟩ => ⟨h1, h2⟩⟩
  · rw [h.free]
    simp only [FS.flipBlock, hb, if_true, List.length_cons]
    omega
  · rw [h.rest]
    rfl

theorem Freed.append (h : Freed s bs t) (h' : Freed t cs u) : Freed s (bs ++ cs) u := by
  refine ⟨fun b => ?_, h'.counts, ?_, ?_⟩
  · rw [h'.used, h.used, List.mem_append, not_or]
    tauto
  · rw [h'.free, h.free, List.length_append]
    omega
  · rw [h'.rest, h.rest]

/-- **The loop** frees the blocks its indices point to, if they are distinct and
used. -/
theorem freeBlocks_spec {ptr : Int → Option Int}
    (hptr : List.Forall₂ (fun (i : Int) (b : Fin 4096) => ptr i = some ((b : Nat) : Int)) is bs)
    (hnodup : bs.Nodup) (hc : s.Counts) (hused : ∀ b ∈ bs, s.used b = true) :
    ∃ t, freeBlocks ptr is s = some (0, t) ∧ Freed s bs t := by
  induction hptr generalizing s with
  | nil => exact ⟨s, rfl, Freed.nil hc⟩
  | @cons i b is bs hi his ih =>
      obtain ⟨hnew, hnodup⟩ := List.nodup_cons.mp hnodup
      have hb := hused b List.mem_cons_self
      obtain ⟨t, hrun, hfreed⟩ := ih hnodup (hc.flipBlock b) fun c hmem => by
        have hflip : (s.flipBlock b).used c = if c = b then !s.used b else s.used c := FS.used_flipBlock s b c
        have hcb : c ≠ b := by
          rintro rfl
          exact hnew hmem
        rw [hflip, if_neg hcb]
        exact hused c (List.mem_cons_of_mem b hmem)
      refine ⟨t, ?_, hfreed.cons hb⟩
      rw [freeBlocks, hi, Option.bind_eq_bind, Option.bind_some, freeBlock_of_used hb, Option.bind_eq_bind,
        Option.bind_some]
      exact hrun

/-- The first `k` elements of an array, read in a loop. -/
theorem forall₂_read (a : Arr m Int) {k : Int} (hk : k ≤ m) {bs : List (Fin 4096)}
    (h : ((List.finRange m).take k.toNat).map a = bs.map fun b : Fin 4096 => ((b : Nat) : Int)) :
    List.Forall₂ (fun (i : Int) (b : Fin 4096) => a.read i = some ((b : Nat) : Int)) (loop 0 (k - 1)) bs := by
  have hlen := congrArg List.length h
  simp only [List.length_map, List.length_take, List.length_finRange] at hlen
  rw [List.forall₂_iff_get]
  refine ⟨by simp only [loop, List.length_map, List.length_range]; omega, fun j hj hj' => ?_⟩
  have hjm : j < m := by omega
  have hget := congrArg (fun xs : List Int => xs[j]?) h
  simp only [List.getElem?_map, List.getElem?_take_of_lt (show j < k.toNat by omega), List.getElem?_eq_getElem hj',
    Option.map_some, List.getElem?_eq_getElem (show j < (List.finRange m).length by simpa using hjm),
    List.getElem_finRange, Option.some.injEq] at hget
  simp only [loop, List.get_eq_getElem, List.getElem_map, List.getElem_range]
  rw [← hget, show (0 : Int) + (j : Int) = ((⟨j, hjm⟩ : Fin m) : Nat) by simp]
  exact Arr.read_fin a ⟨j, hjm⟩

/-! ## file_remove, dir_remove -/

/-- The name is that of the live inode `i` of type `type`. -/
structure Target (s : FS) (name : Name) (type : TYPE) (i : Fin 512) : Prop where
  search : searchCurDir s name = some (i : Int)
  live : s.live i = true
  typed : (s.inode i).type = type

instance (s : FS) (name : Name) (type : TYPE) (i : Fin 512) : Decidable (Target s name type i) :=
  decidable_of_iff (searchCurDir s name = some (i : Int) ∧ s.live i = true ∧ (s.inode i).type = type)
    ⟨fun ⟨h, h', h''⟩ => ⟨h, h', h''⟩, fun h => ⟨h.search, h.live, h.typed⟩⟩

theorem Target.unique (h : Target s name type j) (hsearch : searchCurDir s name = some ((i : Fin 512) : Int)) :
    j = i := by
  have := h.search
  rw [hsearch, Option.some.injEq] at this
  exact Fin.ext (by omega)

theorem Target.at_search (h : Target s name type j) (hsearch : searchCurDir s name = some ((i : Fin 512) : Int)) :
    s.live i = true ∧ (s.inode i).type = type := by
  obtain rfl := h.unique hsearch
  exact ⟨h.live, h.typed⟩

theorem Target.absent (h : Target s name type j) (hsearch : searchCurDir s name = some (-1)) : False := by
  have := h.search
  rw [hsearch, Option.some.injEq] at this
  omega

/-- The state `t` between the freeing and the compaction: inode `i` and the
blocks `freed` are free, and at most the block of a map has been forgotten. -/
structure Unlinked (s : FS) (i : Fin 512) (freed : List (Fin 4096)) (t : FS) : Prop where
  blocks : Freed (s.flipInode i) freed t
  owned : ∀ b ∈ freed, ∃ k, Owns s i k b
  forgotten : ∀ k b, Owns s i k b → b ∈ freed ∨
    ((s.inode i).type = .file ∧ 10 < (s.inode i).blockCount ∧ (s.inode i).indirectBlock = b)
  spared : ∀ b, Owns s i 10 b → b ∉ freed
  length : (freed.length : Int) = if (s.inode i).type = .file then (s.inode i).blockCount else 1

section Remove

variable {s t : FS} {L : Set (Fin 4096)} {name : Name}

theorem mem_blocks {bs : List (Fin 4096)} {b : Fin 4096} :
    ((b : Nat) : Int) ∈ bs.map (fun b : Fin 4096 => ((b : Nat) : Int)) ↔ b ∈ bs := by
  rw [List.mem_map]
  constructor
  · rintro ⟨c, hc, hcb⟩
    rwa [show b = c from Fin.ext (by omega)]
  · exact fun hb => ⟨b, hb, rfl⟩

/-- The loops of `file_remove` free the data blocks of a live file. -/
theorem Inv.unlinkFile (hinv : Inv L s) (hlive : s.live i = true) (htype : (s.inode i).type = .file) :
    ∃ freed t₁ t, Unlinked s i freed t ∧
      freeBlocks (mapOf s (s.inode i)).read (loop 0 ((s.inode i).blockCount - 10 - 1)) (s.flipInode i) = some (0, t₁) ∧
      freeBlocks (s.inode i).directBlock.read (loop 0 (min (s.inode i).blockCount 10 - 1)) t₁ = some (0, t) := by
  obtain ⟨ds, ms, hds, hms, hnodup, howns, hspared⟩ := hinv.dataList hlive htype
  have hpos := (hinv.files i hlive htype).count_nonneg
  have hcount := (hinv.files i hlive htype).count_le
  have hlength : (ds.length : Int) + ms.length = (s.inode i).blockCount := by
    have hdirect := congrArg List.length hds
    have hmapped := congrArg List.length hms
    simp only [directBlocks, mappedBlocks, List.length_map, List.length_take, List.length_finRange] at hdirect hmapped
    omega
  have hused : ∀ b ∈ ds ++ ms, s.used b = true := fun b hb => by
    obtain ⟨k, hown⟩ := howns b hb
    exact (hinv.owns_used hown).2.1
  rw [List.nodup_append_comm] at hnodup
  obtain ⟨hmsNodup, hdsNodup, hcross⟩ := List.nodup_append.mp hnodup
  obtain ⟨t₁, hrun₁, hfreed₁⟩ := freeBlocks_spec (s := s.flipInode i)
    (forall₂_read (mapOf s (s.inode i)) (by omega) hms) hmsNodup (hinv.counts.flipInode i)
    fun b hb => hused b (List.mem_append_right _ hb)
  have htake : ((List.finRange 10).take (min (s.inode i).blockCount 10).toNat).map (s.inode i).directBlock =
      ds.map fun b : Fin 4096 => ((b : Nat) : Int) := by
    rw [← hds, directBlocks]
    congr 1
    by_cases hc : (s.inode i).blockCount ≤ 10
    · rw [show min (s.inode i).blockCount 10 = (s.inode i).blockCount by omega]
    · rw [List.take_of_length_le (by simp; omega), List.take_of_length_le (by simp; omega)]
  obtain ⟨t, hrun, hfreed⟩ := freeBlocks_spec (s := t₁)
    (forall₂_read (s.inode i).directBlock (by omega) htake) hdsNodup hfreed₁.counts fun b hb => by
      rw [hfreed₁.used]
      exact ⟨fun hmem => hcross b hmem b hb rfl, hused b (List.mem_append_left _ hb)⟩
  refine ⟨ms ++ ds, t₁, t, ⟨hfreed₁.append hfreed, fun b hb => howns b ?_, fun k b hown => ?_, fun b hown hb => ?_, ?_⟩,
    hrun₁, hrun⟩
  · rw [List.mem_append] at hb ⊢
    exact hb.symm
  · have hmem := List.mem_of_getElem? hown.2
    simp only [ownedBlocks, htype, List.mem_append, hds] at hmem
    rw [List.mem_append]
    rcases hmem with hb | hb
    · exact Or.inl (Or.inr (mem_blocks.mp hb))
    · by_cases hc : (s.inode i).blockCount > 10
      · rw [if_pos hc, hms] at hb
        rcases List.mem_cons.mp hb with hb | hb
        · exact Or.inr ⟨htype, hc, hb.symm⟩
        · exact Or.inl (Or.inl (mem_blocks.mp hb))
      · rw [if_neg hc] at hb
        exact absurd hb List.not_mem_nil
  · rw [List.mem_append] at hb
    exact hspared b hown (List.mem_append.mpr hb.symm)
  · rw [if_pos htype, List.length_append]
    omega

/-- A directory's only block is freed. -/
theorem Inv.unlinkDir (hinv : Inv L s) (hlive : s.live i = true) (htype : (s.inode i).type = .directory) :
    ∃ b t, Unlinked s i [b] t ∧ (s.inode i).directBlock 0 = (b : Int) ∧
      freeBlock (s.flipInode i) (b : Fin 4096) = some (0, t) := by
  obtain ⟨b, hb, hown⟩ := hinv.dirBlock hlive htype
  have hused := (hinv.owns_used hown).2.1
  have hfreed := (Freed.nil ((hinv.counts.flipInode i).flipBlock b)).cons (s := s.flipInode i) hused
  refine ⟨b, _, ⟨hfreed, fun c hc => ⟨0, by rwa [List.mem_singleton.mp hc]⟩, fun k c hown' => Or.inl ?_,
    fun c hown' hc => ?_, by simp [htype]⟩, hb, freeBlock_of_used (s := s.flipInode i) hused⟩
  · have hmem := List.mem_of_getElem? hown'.2
    simp only [ownedBlocks, htype, hb, List.mem_singleton] at hmem
    rw [List.mem_singleton]
    exact Fin.ext (by omega)
  · rw [List.mem_singleton] at hc
    subst hc
    exact absurd (hinv.unique i i 0 10 c hown hown').2 (by decide)

/-- **What `file_remove` does** up to the compaction. -/
theorem fileRemove_cases (hinv : Inv L s) (name : Name) :
    ((∀ i, ¬ Target s name .file i) ∧ ∃ out, fileRemove s name = some ⟨-1, out, s⟩) ∨
    ∃ i freed t out, Target s name .file i ∧ Unlinked s i freed t ∧
      fileRemove s name = (removeEntry t (i : Fin 512)).map fun s' => ⟨0, out, s'⟩ := by
  obtain ⟨c, hcur, hclive, hctype⟩ := hinv.current
  have hd := hinv.curDir hcur hclive hctype
  unfold fileRemove
  rcases searchCurDir_cases hd.toTable name with ⟨k, -, -, i, -, hsearch⟩ | ⟨-, hsearch⟩
  swap
  · rw [lookup_absent hsearch]
    exact Or.inl ⟨fun i hi => hi.absent hsearch, _, rfl⟩
  rw [lookup_found hsearch]
  cases htype : (s.inode i).type with
  | directory =>
      rw [if_pos rfl]
      exact Or.inl ⟨fun j hj => (nomatch htype.symm.trans (hj.at_search hsearch).2), _, rfl⟩
  | file =>
  rw [if_neg (by decide)]
  cases hlive : s.live i with
  | false =>
      rw [freeInode_of_not_live hlive, Option.bind_eq_bind, Option.bind_some]
      dsimp only
      rw [if_pos (by decide)]
      exact Or.inl ⟨fun j hj => (nomatch hlive.symm.trans (hj.at_search hsearch).1), _, rfl⟩
  | true =>
  obtain ⟨freed, t₁, t, hunlinked, hrun₁, hrun⟩ := hinv.unlinkFile hlive htype
  have hmap : InDirectBlockMap.codec.load ((s.flipInode i).diskRead (s.inode i).indirectBlock fun _ => 0) =
      mapOf s (s.inode i) := rfl
  rw [freeInode_of_live hlive, Option.bind_eq_bind, Option.bind_some]
  dsimp only
  rw [if_neg (by decide), hmap, hrun₁, Option.bind_eq_bind, Option.bind_some]
  dsimp only
  rw [if_neg (by decide), hrun, Option.bind_some]
  dsimp only
  rw [if_neg (by decide)]
  refine Or.inr ⟨i, freed, t, diskReadOut (s.inode i).indirectBlock, ⟨hsearch, hlive, htype⟩, hunlinked, ?_⟩
  cases removeEntry t i <;> rfl

/-- **What `dir_remove` does** up to the compaction. -/
theorem dirRemove_cases (hinv : Inv L s) (name : Name) :
    ((∀ i, ¬ Target s name .directory i) ∧ ∃ out, dirRemove s name = some ⟨-1, out, s⟩) ∨
    ∃ i freed t out, Target s name .directory i ∧ Unlinked s i freed t ∧
      dirRemove s name = (removeEntry t (i : Fin 512)).map fun s' => ⟨0, out, s'⟩ := by
  obtain ⟨c, hcur, hclive, hctype⟩ := hinv.current
  have hd := hinv.curDir hcur hclive hctype
  unfold dirRemove
  rcases searchCurDir_cases hd.toTable name with ⟨k, -, -, i, -, hsearch⟩ | ⟨-, hsearch⟩
  swap
  · rw [lookup_absent hsearch]
    exact Or.inl ⟨fun i hi => hi.absent hsearch, _, rfl⟩
  rw [lookup_found hsearch]
  cases htype : (s.inode i).type with
  | file =>
      rw [if_pos rfl]
      exact Or.inl ⟨fun j hj => (nomatch htype.symm.trans (hj.at_search hsearch).2), _, rfl⟩
  | directory =>
  rw [if_neg (by decide)]
  cases hlive : s.live i with
  | false =>
      rw [freeInode_of_not_live hlive, Option.bind_eq_bind, Option.bind_some]
      dsimp only
      rw [if_pos (by decide)]
      exact Or.inl ⟨fun j hj => (nomatch hlive.symm.trans (hj.at_search hsearch).1), _, rfl⟩
  | true =>
  obtain ⟨b, t, hunlinked, hb, hrun⟩ := hinv.unlinkDir hlive htype
  rw [freeInode_of_live hlive, Option.bind_eq_bind, Option.bind_some]
  dsimp only
  rw [if_neg (by decide), hb, hrun, Option.bind_eq_bind, Option.bind_some]
  dsimp only
  rw [if_neg (by decide)]
  refine Or.inr ⟨i, [b], t, [], ⟨hsearch, hlive, htype⟩, hunlinked, ?_⟩
  cases removeEntry t i <;> rfl

/-- **Removing**: the compaction after an inode has been unlinked, if the inode
is neither the root nor current. -/
theorem removeStep_of_unlinked (hinv : Inv L s) (htarget : Target s name type i) (hroot : i ≠ 0)
    (hother : ¬ s.Current i) (h : Unlinked s i freed t) (hrun : removeEntry t i = some s') :
    RemoveStep s i freed s' := by
  obtain ⟨c, hcur, hclive, hctype⟩ := hinv.current
  have hd := hinv.curDir hcur hclive hctype
  obtain ⟨hentry, hs', hinode⟩ := removeEntry_cases hrun
  have hcurDir : t.curDir = s.curDir := by rw [h.blocks.rest]; rfl
  have hnodes : t.inode = s.inode := by rw [h.blocks.rest]; rfl
  have hinodeMap : t.inodeMap = (s.flipInode i).inodeMap := by rw [h.blocks.rest]
  rw [hcurDir] at hentry
  rw [hnodes] at hinode
  have hblockMap : s'.blockMap = t.blockMap := by rw [hs']
  have hsuper : s'.superBlock = t.superBlock := by rw [hs']
  have hmap : s'.inodeMap = t.inodeMap := by rw [hs']
  refine ⟨htarget.live, hroot, hother, fun j => ?_, h.owned, fun b => ?_, ⟨?_, ?_⟩, fun j hj => ?_, ?_, ?_, ?_,
    hentry, hentry.fits hd hinv.curFits, ?_, ?_, ?_⟩
  · have hlive : s'.live j = (s.flipInode i).live j := by
      unfold FS.live
      rw [hmap, hinodeMap]
    rw [hlive, FS.live_flipInode, htarget.live]
    by_cases hji : j = i <;> simp [hji]
  · have hused : s'.used b = t.used b := by
      unfold FS.used
      rw [hblockMap]
    rw [hused]
    exact h.blocks.used b
  · rw [hsuper, hmap]
    exact h.blocks.counts.inodes
  · rw [hsuper, hblockMap]
    exact h.blocks.counts.blocks
  · rcases hinode with heq | ⟨k, l, hk, heq⟩
    · rw [heq]
    · have hjk : j ≠ k := fun hjk => hj (hjk.trans (Fin.ext (by omega)))
      rw [heq, Function.update_of_ne hjk]
  · rcases hinode with heq | ⟨k, l, hk, heq⟩
    · rw [heq]
      exact hinv.inodes i
    · obtain rfl : i = k := Fin.ext (by omega)
      rw [heq, Function.update_self]
      have hok := hinv.inodes i
      exact ⟨hok.owner, hok.group, (hinv.inodes l).size, hok.blockCount, hok.direct, hok.indirect⟩
  · rw [hs', h.blocks.rest]
    rfl
  · obtain ⟨k, hk, -, hki⟩ := position_of_search hd.toTable htarget.search
    have hk0 : k ≠ 0 := by
      rintro rfl
      exact hother hki
    have hkpos : (k : Nat) ≠ 0 := fun h0 => hk0 (Fin.ext h0)
    omega
  · rw [hs', h.blocks.rest]
    rfl
  · rw [hs', h.blocks.rest]
    rfl
  · rw [hsuper, h.blocks.free]
    rfl

end Remove

end OperatingSystem.Fs
