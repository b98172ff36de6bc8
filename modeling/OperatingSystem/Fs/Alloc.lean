import OperatingSystem.Fs.Invariant

/-!
# OperatingSystem.Fs.Alloc

The loop that takes free blocks for a file's data.  `getBlocks` records the
block numbers in an array of the state, the direct pointers of an inode or the
indirect map: `Slots` is what the loop relies on, and `getBlocks_spec` what it
does while there are free blocks.
-/

namespace OperatingSystem.Fs

open Codec

/-! ## Blocks taken from the free ones -/

/-- The blocks `bs` have been taken, and only they have been written to. -/
structure Taken (s : FS) (bs : List (Fin 4096)) (t : FS) : Prop where
  nodup : bs.Nodup
  fresh : ∀ b ∈ bs, s.used b = false
  used : ∀ b, t.used b = true ↔ b ∈ bs ∨ s.used b = true
  counts : t.Counts
  free : t.superBlock.freeBlockCount = s.superBlock.freeBlockCount - bs.length
  disk : ∀ b, b ∉ bs → t.disk b = s.disk b
  rest : t = { s with disk := t.disk, blockMap := t.blockMap, superBlock := t.superBlock }

theorem Taken.nil (hc : s.Counts) : Taken s [] s :=
  ⟨List.nodup_nil, by simp, by simp, hc, by simp, fun _ _ => rfl, rfl⟩

/-- One more block. -/
theorem Taken.concat (h : Taken s bs t) {b : Fin 4096} (hb : t.used b = false) (buf : Block) :
    Taken s (bs ++ [b]) ((t.flipBlock b).diskWrite b buf) := by
  have hnew : b ∉ bs := fun hmem => by
    rw [(h.used b).mpr (Or.inl hmem)] at hb
    contradiction
  have hfresh : s.used b = false := by
    rw [← Bool.not_eq_true]
    intro hu
    rw [(h.used b).mpr (Or.inr hu)] at hb
    contradiction
  rw [diskWrite_fin]
  refine ⟨List.nodup_append.mpr ⟨h.nodup, List.nodup_singleton b, fun c hc d hd => ?_⟩, fun c hc => ?_,
    fun c => ?_, ⟨(h.counts.flipBlock b).inodes, (h.counts.flipBlock b).blocks⟩, ?_, fun c hc => ?_, ?_⟩
  · rw [List.mem_singleton.mp hd]
    rintro rfl
    exact hnew hc
  · rcases List.mem_append.mp hc with hc | hc
    · exact h.fresh c hc
    · rw [List.mem_singleton.mp hc]
      exact hfresh
  · have hflip : (t.flipBlock b).used c = if c = b then !t.used b else t.used c := FS.used_flipBlock t b c
    show (t.flipBlock b).used c = true ↔ _
    rw [hflip, hb]
    by_cases hcb : c = b
    · simp [hcb]
    · rw [if_neg hcb, h.used, List.mem_append, List.mem_singleton, or_iff_left hcb]
  · have hfree := h.free
    simp only [FS.flipBlock, hb, Bool.false_eq_true, if_false, List.length_append, List.length_singleton]
    omega
  · have hcb : c ≠ b := fun heq => hc (by simp [heq])
    show Function.update t.disk b buf c = s.disk c
    rw [Function.update_of_ne hcb]
    exact h.disk c fun hmem => hc (List.mem_append_left _ hmem)
  · conv_lhs => rw [h.rest]
    rfl

/-- A first block, taken before the others and written to after them. -/
theorem Taken.cons {b : Fin 4096} (hb : s.used b = false) (h : Taken (s.flipBlock b) bs t) (buf : Block) :
    Taken s (b :: bs) (t.diskWrite b buf) := by
  have hflip : ∀ c, (s.flipBlock b).used c = if c = b then !s.used b else s.used c := FS.used_flipBlock s b
  have hmem : ∀ c ∈ bs, c ≠ b ∧ s.used c = false := fun c hc => by
    have hfresh := h.fresh c hc
    rw [hflip] at hfresh
    by_cases hcb : c = b
    · rw [if_pos hcb, hb] at hfresh
      contradiction
    · rw [if_neg hcb] at hfresh
      exact ⟨hcb, hfresh⟩
  rw [diskWrite_fin]
  refine ⟨List.nodup_cons.mpr ⟨fun hin => (hmem b hin).1 rfl, h.nodup⟩, fun c hc => ?_, fun c => ?_,
    ⟨h.counts.inodes, h.counts.blocks⟩, ?_, fun c hc => ?_, ?_⟩
  · rcases List.mem_cons.mp hc with rfl | hc
    · exact hb
    · exact (hmem c hc).2
  · show t.used c = true ↔ _
    rw [h.used, hflip, List.mem_cons]
    by_cases hcb : c = b
    · simp [hcb, hb]
    · rw [if_neg hcb, or_iff_right hcb]
  · have hfree := h.free
    simp only [FS.flipBlock, hb, Bool.false_eq_true, if_false] at hfree
    simp only [List.length_cons]
    omega
  · obtain ⟨hcb, hnot⟩ : c ≠ b ∧ c ∉ bs := by simpa using hc
    show Function.update t.disk b buf c = s.disk c
    rw [Function.update_of_ne hcb]
    exact h.disk c hnot
  · conv_lhs => rw [h.rest]
    rfl

/-! ## Where the block numbers go -/

/-- An array of `m` block numbers in the state, written by `put`. -/
structure Slots (m : Nat) where
  put : FS → Nat → Int → Option FS
  set : FS → Arr m Int → FS
  put_set : ∀ s p (k : Fin m) b, put (set s p) k b = some (set s (Function.update p k b))
  flip_set : ∀ s p b, (set s p).flipBlock b = set (s.flipBlock b) p
  write_set : ∀ s p b buf, (set s p).diskWrite b buf = set (s.diskWrite b buf) p
  blockMap_set : ∀ s p, (set s p).blockMap = s.blockMap
  counts_set : ∀ s p, (set s p).Counts ↔ s.Counts
  superBlock_set : ∀ s p, (set s p).superBlock = s.superBlock

theorem Slots.used_set (slots : Slots m) (s : FS) (p : Arr m Int) (b : Fin 4096) :
    (slots.set s p).used b = s.used b := by
  unfold FS.used
  rw [slots.blockMap_set]

/-- The direct pointers of inode `i`. -/
def directSlots (i : Fin 512) : Slots 10 where
  put := putDirect i
  set s p := { s with inode := Function.update s.inode i { s.inode i with directBlock := p } }
  put_set s p k b := by
    simp only [putDirect, Arr.read_fin, Arr.write_fin, Option.bind_eq_bind, Option.bind_some,
      Function.update_self, Function.update_idem]
    rfl
  flip_set _ _ _ := rfl
  write_set _ _ _ _ := rfl
  blockMap_set _ _ := rfl
  counts_set _ _ := ⟨fun h => ⟨h.inodes, h.blocks⟩, fun h => ⟨h.inodes, h.blocks⟩⟩
  superBlock_set _ _ := rfl

/-- The indirect map in memory. -/
def indirectSlots : Slots 128 where
  put := putIndirect
  set s p := { s with inDirectBMap := p }
  put_set s p k b := by
    simp only [putIndirect, Arr.write_fin, Option.bind_eq_bind, Option.bind_some]
    rfl
  flip_set _ _ _ := rfl
  write_set _ _ _ _ := rfl
  blockMap_set _ _ := rfl
  counts_set _ _ := ⟨fun h => ⟨h.inodes, h.blocks⟩, fun h => ⟨h.inodes, h.blocks⟩⟩
  superBlock_set _ _ := rfl

theorem directSlots_set_self (s : FS) (i : Fin 512) : (directSlots i).set s (s.inode i).directBlock = s := by
  simp only [directSlots, Function.update_eq_self]

/-- The array with the block numbers `bs` at its beginning. -/
def place (p : Arr m Int) (bs : List (Fin 4096)) : Arr m Int := fun k =>
  match bs[(k : Nat)]? with
  | some b => b
  | none => p k

theorem place_get {p : Arr m Int} {bs : List (Fin 4096)} {k : Fin m} {b : Fin 4096}
    (h : bs[(k : Nat)]? = some b) : place p bs k = b := by
  simp only [place, h]

theorem place_nil (p : Arr m Int) : place p [] = p := rfl

theorem place_concat (p : Arr m Int) (bs : List (Fin 4096)) (b : Fin 4096) (h : bs.length < m) :
    place p (bs ++ [b]) = Function.update (place p bs) ⟨bs.length, h⟩ b := by
  funext k
  by_cases hk : k = ⟨bs.length, h⟩
  · subst hk
    rw [Function.update_self]
    exact place_get (by simp)
  · have hne : (k : Nat) ≠ bs.length := fun heq => hk (Fin.ext heq)
    rw [Function.update_of_ne hk]
    unfold place
    by_cases hlt : (k : Nat) < bs.length
    · rw [List.getElem?_append_left hlt]
    · rw [List.getElem?_eq_none (by simp; omega), List.getElem?_eq_none (by omega)]

/-- The block numbers at the beginning of the array. -/
theorem take_place (p : Arr m Int) (bs : List (Fin 4096)) (h : bs.length ≤ m) :
    ((List.finRange m).take bs.length).map (place p bs) = bs.map fun b : Fin 4096 => ((b : Nat) : Int) := by
  refine List.ext_getElem (by simp; omega) fun k hk hk' => ?_
  have hlt : k < bs.length := by simpa using hk'
  simp only [List.getElem_map, List.getElem_take, List.getElem_finRange]
  exact place_get (by simp [hlt])

/-! ## The loop -/

section Loop

variable {put : FS → Nat → Int → Option FS} {data : Nat → Block}

/-- A loop that found all its blocks goes on with the next one. -/
theorem getBlocks_concat (h : getBlocks put data is s = some (0, s')) (i : Nat) :
    getBlocks put data (is ++ [i]) s = getBlocks put data [i] s' := by
  induction is generalizing s with
  | nil =>
      cases h
      rfl
  | cons j js ih =>
      rw [List.cons_append, getBlocks]
      rw [getBlocks] at h
      generalize getFreeBlock s = found at h ⊢
      obtain ⟨block, s₁⟩ := found
      dsimp only at h ⊢
      by_cases hb : block = -1
      · rw [if_pos hb] at h
        cases h
      · rw [if_neg hb] at h ⊢
        obtain ⟨s₂, hput, hrec⟩ := Option.bind_eq_some_iff.mp h
        rw [hput]
        exact ih hrec

theorem getBlocks_one {block : Int} (hget : getFreeBlock s = (block, s₁)) (hne : block ≠ -1)
    (hput : put s₁ i block = some s₂) :
    getBlocks put data [i] s = some (0, s₂.diskWrite block (data i)) := by
  rw [getBlocks, hget]
  dsimp only
  rw [if_neg hne, hput]
  rfl

/-- **The loop** over the first `n` slots takes `n` blocks, records their
numbers and writes their data. -/
theorem getBlocks_spec (slots : Slots m) (data : Nat → Block) {n : Nat} (hn : n ≤ m) {s : FS}
    (hc : s.Counts) (hfree : n ≤ s.superBlock.freeBlockCount) (p : Arr m Int) :
    ∃ bs t, bs.length = n ∧ Taken s bs t ∧ (∀ k b, bs[k]? = some b → t.disk b = data k) ∧
      getBlocks slots.put data (List.range n) (slots.set s p) = some (0, slots.set t (place p bs)) := by
  induction n with
  | zero => exact ⟨[], s, rfl, Taken.nil hc, by simp, by rw [place_nil]; rfl⟩
  | succ n ih =>
      obtain ⟨bs, t, hlen, htaken, hdata, hrun⟩ := ih (by omega) (by omega)
      have hset := (slots.counts_set t (place p bs)).mpr htaken.counts
      have hpos : 0 < (slots.set t (place p bs)).superBlock.freeBlockCount := by
        rw [slots.superBlock_set, htaken.free]
        omega
      obtain ⟨b, hb, hget⟩ := getFreeBlock_spec hset hpos
      rw [slots.used_set] at hb
      have hnew : b ∉ bs := fun hmem =>
        Bool.false_ne_true (hb.symm.trans ((htaken.used b).mpr (Or.inl hmem)))
      refine ⟨bs ++ [b], (t.flipBlock b).diskWrite b (data n), by simp [hlen], htaken.concat hb (data n),
        fun k c hk => ?_, ?_⟩
      · rw [diskWrite_fin]
        show Function.update t.disk b (data n) c = data k
        by_cases hkn : k < bs.length
        · rw [List.getElem?_append_left hkn] at hk
          have hcb : c ≠ b := by
            rintro rfl
            exact hnew (List.mem_of_getElem? hk)
          rw [Function.update_of_ne hcb, hdata k c hk]
        · rw [List.getElem?_append_right (by omega)] at hk
          obtain ⟨hlt, hcb⟩ := List.getElem?_eq_some_iff.mp hk
          have hk0 : k = n := by simp at hlt; omega
          rw [List.getElem_singleton] at hcb
          rw [← hcb, Function.update_self, hk0]
      · have hslot : bs.length < m := by omega
        have hne : ((b : Nat) : Int) ≠ -1 := by omega
        have hput := slots.put_set (t.flipBlock b) (place p bs) ⟨bs.length, hslot⟩ b
        rw [← slots.flip_set, ← place_concat p bs b hslot] at hput
        dsimp only at hput
        rw [hlen] at hput
        rw [List.range_succ, getBlocks_concat hrun, getBlocks_one hget hne hput, slots.write_set]

end Loop

end OperatingSystem.Fs
