import OperatingSystem.Fs.Reach

/-!
# OperatingSystem.Fs.ReadBack

The bytes of a file after a write.  A byte of the range reaches the disk iff the
range ends within the direct blocks and the block behind the range, which is
written back too, is not the byte's own block once more; this can be where the
pointer is left over from an earlier use of the inode.  All other bytes of the
file stay (`fileByte_write`).
-/

namespace OperatingSystem.Fs

/-- The byte of a file at position `p`, on the disk. -/
def fileByte (s : FS) (n : Inode) (p : Nat) : Option Byte := do
  let block ← (dataBlocks s n)[p / 512]?
  let b ← s.disk.read block
  return b ⟨p % 512, mod_lt_block p⟩

/-- The byte at position `p` reaches the disk. -/
def Reaches (s : FS) (i : Fin 512) (offset : Int) (buf : List Byte) (p : Nat) : Prop :=
  endBlock offset buf ≤ 9 ∧ (((p / 512 : Nat) : Int) = endBlock offset buf ∨
    directPtr s i (p / 512 : Nat) ≠ directPtr s i (endBlock offset buf))

instance (s : FS) (i : Fin 512) (offset : Int) (buf : List Byte) (p : Nat) :
    Decidable (Reaches s i offset buf p) := inferInstanceAs (Decidable (_ ∧ (_ ∨ _)))

/-- The range holds the buffer, and every other byte of the file is as before. -/
def Written (s : FS) (i : Fin 512) (offset : Int) (buf : List Byte) (s' : FS) : Prop :=
  ∀ p : Nat, (p : Int) < (s.inode i).size → fileByte s' (s'.inode i) p =
    if offset ≤ p ∧ p < offset + buf.length then buf[((p : Int) - offset).toNat]? else fileByte s (s.inode i) p

section

variable {s s' : FS} {L : Set (Fin 4096)} {i : Fin 512} {p : Nat}

theorem directPtr_of_lt (s : FS) (i : Fin 512) {k : Nat} (hk : k < 10) :
    directPtr s i k = some ((s.inode i).directBlock ⟨k, hk⟩) := by
  rw [directPtr, Arr.read_fin, Option.bind_eq_bind, Option.bind_some]
  exact Arr.read_fin (s.inode i).directBlock ⟨k, hk⟩

/-- The direct pointers of the first blocks are those of the data. -/
theorem dataBlocks_direct (s : FS) (n : Inode) {k : Nat} (hk : k < 10) (hc : (k : Int) < n.blockCount) :
    (dataBlocks s n)[k]? = some (n.directBlock ⟨k, hk⟩) := by
  have hlen := length_directBlocks n
  rw [dataBlocks, List.getElem?_append_left (by omega), directBlocks, List.getElem?_map,
    List.getElem?_take_of_lt (by omega), List.getElem?_eq_getElem (by simpa using hk), List.getElem_finRange]
  rfl

theorem Inv.length_dataBlocks (hinv : Inv L s) (hlive : s.live i = true) (htype : (s.inode i).type = .file) :
    (dataBlocks s (s.inode i)).length = (s.inode i).blockCount.toNat := by
  have hle := (hinv.files i hlive htype).count_le
  simp only [dataBlocks, List.length_append, length_directBlocks, mappedBlocks, List.length_map, List.length_take,
    List.length_finRange]
  omega

/-- A position inside a file has a data block. -/
theorem Inv.dataBlock (hinv : Inv L s) (hlive : s.live i = true) (htype : (s.inode i).type = .file) {k : Nat}
    (hk : (k : Int) < (s.inode i).blockCount) :
    ∃ b : Fin 4096, (dataBlocks s (s.inode i))[k]? = some (b : Int) ∧
      Owns s i (if k < 10 then k else k + 1) b := by
  have hlen := hinv.length_dataBlocks hlive htype
  obtain ⟨x, hx⟩ : ∃ x, (dataBlocks s (s.inode i))[k]? = some x :=
    ⟨_, List.getElem?_eq_getElem (by omega)⟩
  have howned := ownedBlocks_dataBlocks htype hx
  obtain ⟨b, rfl, -⟩ := hinv.owned i hlive x (List.mem_of_getElem? howned)
  exact ⟨b, hx, hlive, howned⟩

/-- Two positions of one block are the same. -/
theorem Inv.dataBlock_inj (hinv : Inv L s) {k l : Nat} {b : Fin 4096}
    (hk : Owns s i (if k < 10 then k else k + 1) b) (hl : Owns s i (if l < 10 then l else l + 1) b) : k = l := by
  have h := (hinv.unique i i _ _ b hk hl).2
  split at h <;> split at h <;> omega

/-- A small write inside a file changes data blocks of the file only. -/
theorem SmallWrite.changed (hinv : Inv L s) (hlive : s.live i = true) (htype : (s.inode i).type = .file)
    (h : SmallWrite s i offset buf s') (hrange : offset + buf.length ≤ (s.inode i).size) {b : Fin 4096}
    (hb : s'.disk b ≠ s.disk b) : ∃ k : Nat, k < 10 ∧ Owns s i k b := by
  obtain ⟨p, ⟨hlo, hhi, hptr, -⟩, -⟩ := (h.changed_iff b).mp hb
  have h0 := h.offset_nonneg
  have hend := h.end_le
  rw [endBlock_of_nonneg h0] at hend
  have hsize := (hinv.files i hlive htype).size_le
  have hk : (p / 512).toNat < 10 := by omega
  have hcast : p / 512 = ((p / 512).toNat : Nat) := by omega
  rw [hcast, directPtr_of_lt s i hk, Option.some.injEq] at hptr
  obtain ⟨c, hc, hown⟩ := hinv.dataBlock hlive htype (k := (p / 512).toNat) (by omega)
  rw [dataBlocks_direct s _ hk (by omega), Option.some.injEq] at hc
  obtain rfl : b = c := Fin.ext (by omega)
  rw [if_pos hk] at hown
  exact ⟨_, hk, hown⟩

/-- The data blocks of the file stay the same ones. -/
theorem SmallWrite.dataBlocks_eq (hinv : Inv L s) (hlive : s.live i = true) (htype : (s.inode i).type = .file)
    (h : SmallWrite s i offset buf s') (hrange : offset + buf.length ≤ (s.inode i).size) :
    dataBlocks s' (s.inode i) = dataBlocks s (s.inode i) := by
  refine dataBlocks_congr fun hc b hb => ?_
  by_contra hne
  obtain ⟨k, hk, hown⟩ := h.changed hinv hlive htype hrange hne
  have := (hinv.unique i i k 10 b hown (owns_indirect hlive htype hc hb)).2
  omega

/-- **The bytes of the file after a small write.** -/
theorem SmallWrite.fileByte (hinv : Inv L s) (hlive : s.live i = true) (htype : (s.inode i).type = .file)
    (h : SmallWrite s i offset buf s') (hrange : offset + buf.length ≤ (s.inode i).size)
    (hp : (p : Int) < (s.inode i).size) :
    fileByte s' (s.inode i) p =
      if (offset ≤ p ∧ p < offset + buf.length) ∧ Reaches s i offset buf p then buf[((p : Int) - offset).toNat]?
      else fileByte s (s.inode i) p := by
  have h0 := h.offset_nonneg
  have hend := h.end_le
  have hendEq : endBlock offset buf = (offset + buf.length) / 512 := endBlock_of_nonneg h0
  have hsize := (hinv.files i hlive htype).size_le
  obtain ⟨b, hb, hown⟩ := hinv.dataBlock hlive htype (k := p / 512) (by omega)
  have hbyte : ∀ u : FS, dataBlocks u (s.inode i) = dataBlocks s (s.inode i) →
      Fs.fileByte u (s.inode i) p = some (u.disk b ⟨p % 512, Nat.mod_lt _ (by decide)⟩) := fun u hu => by
    rw [Fs.fileByte, hu, hb, Option.bind_eq_bind, Option.bind_some, Arr.read_fin]
    rfl
  rw [hbyte s' (h.dataBlocks_eq hinv hlive htype hrange), hbyte s rfl]
  -- an index of the range that points to the block is the byte's own or the one behind the range
  have hindex : ∀ j : Int, offset / 512 ≤ j → j ≤ endBlock offset buf → directPtr s i j = some (b : Int) →
      j = (p / 512 : Nat) ∨ (j = endBlock offset buf ∧ offset + buf.length = 512 * j) := by
    intro j hlo hhi hptr
    have hj : j.toNat < 10 := by omega
    have hcast : j = (j.toNat : Nat) := by omega
    by_cases hjc : j < (s.inode i).blockCount
    · obtain ⟨c, hc, hown'⟩ := hinv.dataBlock hlive htype (k := j.toNat) (by omega)
      rw [hcast, directPtr_of_lt s i hj, Option.some.injEq] at hptr
      rw [dataBlocks_direct s _ hj (by omega), Option.some.injEq] at hc
      obtain rfl : b = c := Fin.ext (by omega)
      have := hinv.dataBlock_inj hown hown'
      omega
    · exact Or.inr ⟨by omega, by omega⟩
  have hpos : 512 * ((p / 512 : Nat) : Int) + (p % 512 : Nat) = p := by omega
  have hwritten : ∀ j : Int, (j = (p / 512 : Nat) ∨ (j = endBlock offset buf ∧ offset + buf.length = 512 * j)) →
      ¬ (offset ≤ p ∧ p < offset + buf.length) →
      written offset buf j (s.disk b) ⟨p % 512, Nat.mod_lt _ (by decide)⟩ =
        s.disk b ⟨p % 512, Nat.mod_lt _ (by decide)⟩ := by
    intro j hj hout
    refine if_neg ?_
    dsimp only
    rcases hj with rfl | ⟨-, hlast⟩
    · rwa [hpos]
    · omega
  by_cases hin : offset ≤ p ∧ p < offset + buf.length
  · have hk : p / 512 < 10 := by omega
    have hptr : directPtr s i (p / 512 : Nat) = some (b : Int) := by
      rw [directPtr_of_lt s i hk, ← hb, dataBlocks_direct s _ hk (by omega)]
    rcases h.disk b with ⟨hnone, -⟩ | ⟨j, hlo, hhi, hj, hlast, hdisk⟩
    · exact absurd hptr (hnone _ (by omega) (by omega))
    · rw [hdisk]
      by_cases hjk : j = (p / 512 : Nat)
      · subst hjk
        have hreaches : Reaches s i offset buf p := by
          refine ⟨hend, ?_⟩
          by_cases hke : ((p / 512 : Nat) : Int) = endBlock offset buf
          · exact Or.inl hke
          · rw [hptr]
            exact Or.inr fun heq => hlast _ (by omega) le_rfl heq.symm
        have hlt : ((p : Int) - offset).toNat < buf.length := by omega
        rw [if_pos ⟨hin, hreaches⟩, written]
        dsimp only
        rw [hpos, if_pos hin, List.getD_eq_getElem?_getD, List.getElem?_eq_getElem hlt, Option.getD_some]
      · obtain ⟨hje, hbound⟩ := (hindex j hlo hhi hj).resolve_left hjk
        have hstays : ¬ Reaches s i offset buf p := by
          rintro ⟨-, hke | hne⟩
          · omega
          · exact hne (hptr.trans (hje ▸ hj).symm)
        rw [if_neg fun h => hstays h.2, written]
        refine congrArg some (if_neg ?_)
        dsimp only
        omega
  · rw [if_neg fun h => hin h.1]
    rcases h.disk b with ⟨-, hsame⟩ | ⟨j, hlo, hhi, hj, -, hdisk⟩
    · rw [hsame]
    · rw [hdisk, hwritten j (hindex j hlo hhi hj) hin]

/-- The bytes of the file after a write that returns 0. -/
theorem fileByte_write (hinv : Inv L s) (htarget : Target s name .file i)
    (hrange : offset + size ≤ (s.inode i).size) (hrun : fileWrite s env name offset size buf = some r)
    (hval : r.value = 0) (hp : (p : Int) < (s.inode i).size) :
    fileByte r.fs (r.fs.inode i) p =
      if (offset ≤ p ∧ p < offset + buf.length) ∧ Reaches s i offset buf p then buf[((p : Int) - offset).toNat]?
      else fileByte s (s.inode i) p := by
  rcases fileWrite_cases hrun with ⟨hneg, -, -⟩ | ⟨-, hsize, j, hsearch, -, hcase⟩
  · omega
  · have hji := hsearch.symm.trans htarget.search
    obtain rfl := Option.some.inj hji
    rcases hcase with ⟨hlarge, hfs⟩ | ⟨hsmall, hfs⟩
    · rw [hfs, if_neg fun h => by have := h.2.1; omega]
    · have hinode : r.fs.inode = s.inode := by rw [hfs]
      rw [hinode]
      exact hsmall.fileByte hinv htarget.live htarget.typed (by omega) hp

end

/-- **Read after write**: in every state reached by a safe run, a write inside a
regular file that returns 0 leaves exactly the buffer in the range and the rest
of the file alone, iff each byte of the range reaches the disk or was there. -/
theorem read_after_write_iff (hmount : fsMount env₀ none = some s₀) (hsafe : Run.Along step SafeStep s₀ lines)
    (h : Run.exec step s₀ lines = some s) (htarget : Target s name .file i)
    (hbuf : (buf.length : Int) = size) (hrange : offset + size ≤ (s.inode i).size)
    (hrun : fileWrite s env name offset size buf = some r) (hval : r.value = 0) :
    Written s i offset buf r.fs ↔ ∀ p : Nat, offset ≤ p → p < offset + size →
      Reaches s i offset buf p ∨ fileByte s (s.inode i) p = buf[((p : Int) - offset).toNat]? := by
  obtain ⟨L, hinv⟩ := inv_of_safe hmount hsafe h
  constructor
  · intro hwritten p hlo hhi
    have hin : offset ≤ p ∧ p < offset + buf.length := ⟨hlo, by omega⟩
    have hp : (p : Int) < (s.inode i).size := by omega
    have hbyte := hwritten p hp
    rw [fileByte_write hinv htarget hrange hrun hval hp, if_pos hin] at hbyte
    by_cases hreaches : Reaches s i offset buf p
    · exact Or.inl hreaches
    · rw [if_neg fun h => hreaches h.2] at hbyte
      exact Or.inr hbyte
  · intro hall p hp
    rw [fileByte_write hinv htarget hrange hrun hval hp]
    by_cases hin : offset ≤ p ∧ p < offset + buf.length
    · rw [if_pos hin]
      rcases hall p hin.1 (by omega) with hreaches | hold
      · rw [if_pos ⟨hin, hreaches⟩]
      · rw [hold, ite_self]
    · rw [if_neg hin, if_neg fun h => hin h.1]

/-- A write of one character into a file of ten. -/
theorem read_after_write_iff_small : ∃ s₀ s r, fsMount quiet none = some s₀ ∧
    Run.exec step s₀ [⟨quiet, .create (letter 0) 10⟩] = some s ∧
    fileWrite s quiet (letter 0) 3 1 [65] = some r ∧ r.value = 0 ∧
    (Written s 1 3 [65] r.fs ↔ ∀ p : Nat, (3 : Int) ≤ p → (p : Int) < 3 + 1 →
      Reaches s 1 3 [65] p ∨ fileByte s (s.inode 1) p = ([65] : List Byte)[((p : Int) - 3).toNat]?) := by
  have hfacts : ((Run.exec step (formatted quiet) [⟨quiet, .create (letter 0) 10⟩]).bind fun s =>
      (fileWrite s quiet (letter 0) 3 1 [65]).map fun r =>
        (searchCurDir s (letter 0), s.live 1, (s.inode 1).type, (s.inode 1).size, r.value)) =
      some (some 1, true, .file, 10, 0) := by decide +kernel
  have hsafe : Run.Along step SafeStep (formatted quiet) [⟨quiet, .create (letter 0) 10⟩] :=
    ⟨trivial, fun _ _ => trivial⟩
  obtain ⟨s, hs, hr⟩ := Option.bind_eq_some_iff.mp hfacts
  obtain ⟨r, hwrite, hr⟩ := Option.map_eq_some_iff.mp hr
  simp only [Prod.mk.injEq] at hr
  obtain ⟨hsearch, hlive, htype, hsize, hval⟩ := hr
  exact ⟨formatted quiet, s, r, fsMount_none quiet, hs, hwrite, hval,
    read_after_write_iff (fsMount_none quiet) hsafe hs ⟨hsearch, hlive, htype⟩ rfl (by rw [hsize]; decide)
      hwrite hval⟩

/-- After `create a 6000`, `write a 5200 1 X` returns 0 and the file's byte 5200
is still the `2` it was. -/
theorem large_write_lost :
    ∃ s r, quietly [.create (letter 0) 6000] = some s ∧ Target s (letter 0) .file 1 ∧
      (s.inode 1).size = 6000 ∧ fileWrite s quiet (letter 0) 5200 1 [88] = some r ∧ r.value = 0 ∧
      fileByte r.fs (r.fs.inode 1) 5200 = some 50 ∧ ¬ Written s 1 5200 [88] r.fs := by
  have hfacts : ((quietly [.create (letter 0) 6000]).bind fun s =>
      (fileWrite s quiet (letter 0) 5200 1 [88]).map fun r =>
        ((searchCurDir s (letter 0), s.live 1, (s.inode 1).type, (s.inode 1).size), r.value,
          (dataBlocks r.fs (r.fs.inode 1))[10]?, r.fs.disk 143 80)) =
      some ((some 1, true, .file, 6000), 0, some 143, 50) := by
    rw [quietly_eq]
    decide +kernel
  obtain ⟨s, hs, hr⟩ := Option.bind_eq_some_iff.mp hfacts
  obtain ⟨r, hwrite, hr⟩ := Option.map_eq_some_iff.mp hr
  simp only [Prod.mk.injEq] at hr
  obtain ⟨⟨hsearch, hlive, htype, hsize⟩, hval, hblock, hdisk⟩ := hr
  have hbyte : fileByte r.fs (r.fs.inode 1) 5200 = some 50 := by
    have hread : r.fs.disk.read 143 = some (r.fs.disk 143) := Arr.read_fin r.fs.disk 143
    rw [fileByte, hblock, Option.bind_eq_bind, Option.bind_some, hread]
    exact congrArg some hdisk
  refine ⟨s, r, hs, ⟨hsearch, hlive, htype⟩, hsize, hwrite, hval, hbyte, fun hwritten => ?_⟩
  have h := hwritten 5200 (by rw [hsize]; decide)
  rw [hbyte, if_pos (by decide)] at h
  exact absurd h (by decide)

end OperatingSystem.Fs
