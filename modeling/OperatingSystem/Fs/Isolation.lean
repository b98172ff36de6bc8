import OperatingSystem.Fs.Write
import OperatingSystem.Fs.Blocks

/-!
# OperatingSystem.Fs.Isolation

When a write stays inside the file it names.  `file_write` looks the blocks of
its range up in the inode's direct pointers and checks neither the type of the
inode nor the range against the file's blocks, so it also writes to a
directory's block, and through pointers an earlier use of the inode left behind.
-/

namespace OperatingSystem.Fs

/-- The name denotes a directory. -/
def IsDirectory (s : FS) (name : Name) : Prop :=
  ∃ i : Fin 512, searchCurDir s name = some (i : Int) ∧ (s.inode i).type = .directory

/-- A write that refuses and changes no block, or changes only data blocks of
the file it names; a directory is refused. -/
def Isolated (s : FS) (name : Name) (r : Ret) : Prop :=
  ((r.value = -1 ∧ r.fs.disk = s.disk) ∨ ∀ b, r.fs.disk b ≠ s.disk b → IsDataOf s name b) ∧
    (IsDirectory s name → r.value = -1)

/-- The write would change the byte at position `p`, in block `b`. -/
def Changes (s : FS) (inodeNum offset : Int) (buf : List Byte) (p : Int) (b : Fin 4096) : Prop :=
  offset ≤ p ∧ p < offset + buf.length ∧ directPtr s inodeNum (p / 512) = some (b : Int) ∧
    s.disk b ⟨(p % 512).toNat, by omega⟩ ≠ buf.getD (p - offset).toNat 0

/-- The name does not denote a directory, and within the direct blocks each byte
the write would change is in a data block of the file, unless a later block
index of the range has the same pointer and puts the byte back. -/
def StaysInside (s : FS) (name : Name) (offset : Int) (buf : List Byte) : Prop :=
  ¬ IsDirectory s name ∧ ∀ inodeNum, searchCurDir s name = some inodeNum → 0 ≤ inodeNum →
    endBlock offset buf ≤ 9 → ∀ p b, Changes s inodeNum offset buf p b → IsDataOf s name b ∨
      ∃ k, p / 512 < k ∧ k ≤ endBlock offset buf ∧ directPtr s inodeNum k = some (b : Int)

section

variable {s : FS} {r : Ret}

theorem endBlock_of_nonneg {buf : List Byte} (h : 0 ≤ offset) :
    endBlock offset buf = (offset + buf.length) / 512 :=
  Int.tdiv_eq_ediv_of_nonneg (by omega)

/-- A small write changes a block iff it changes a byte there at the last index
that points to the block. -/
theorem SmallWrite.changed_iff (h : SmallWrite s inodeNum offset buf s') (b : Fin 4096) :
    s'.disk b ≠ s.disk b ↔ ∃ p, Changes s inodeNum offset buf p b ∧
      ∀ k, p / 512 < k → k ≤ endBlock offset buf → directPtr s inodeNum k ≠ some (b : Int) := by
  have h0 := h.offset_nonneg
  have hend : endBlock offset buf = (offset + buf.length) / 512 := endBlock_of_nonneg h0
  constructor
  · intro hne
    rcases h.disk b with ⟨-, hsame⟩ | ⟨j, hja, hjb, hptr, hlast, hdisk⟩
    · exact absurd hsame hne
    · rw [hdisk] at hne
      obtain ⟨t, ht⟩ := Function.ne_iff.mp hne
      by_cases hin : offset ≤ 512 * j + t ∧ 512 * j + t < offset + buf.length
      · have hdiv : (512 * j + (t : Int)) / 512 = j := by omega
        have hmod : (512 * j + (t : Int)) % 512 = t := by omega
        refine ⟨512 * j + t, ⟨hin.1, hin.2, by rw [hdiv]; exact hptr, ?_⟩, by rw [hdiv]; exact hlast⟩
        have htt : (⟨((512 * j + (t : Int)) % 512).toNat, by omega⟩ : Fin 512) = t :=
          Fin.ext (by simp [hmod])
        rw [htt]
        rw [written, if_pos hin] at ht
        exact ht.symm
      · rw [written, if_neg hin] at ht
        exact absurd rfl ht
  · rintro ⟨p, ⟨hlo, hhi, hptr, hne⟩, hlast⟩ hsame
    rcases h.disk b with ⟨hnone, -⟩ | ⟨j, hja, hjb, hptrj, hlastj, hdisk⟩
    · exact hnone (p / 512) (by omega) (by omega) hptr
    · have hj : j = p / 512 := by
        by_contra hjp
        rcases Int.lt_or_gt_of_ne hjp with hlt | hgt
        · exact hlastj (p / 512) hlt (by omega) hptr
        · exact hlast j hgt hjb hptrj
      subst hj
      rw [hsame] at hdisk
      refine hne ?_
      conv_lhs => rw [hdisk]
      have hp : 512 * (p / 512) + ((p % 512).toNat : Int) = p := by omega
      simp only [written, hp]
      rw [if_pos ⟨hlo, hhi⟩]

/-- **Isolation**: a write stays inside the file it names iff it is refused
because of its size, or every byte it would change is one of the file's. -/
theorem write_isolated_iff (h : fileWrite s env name offset size buf = some r) :
    Isolated s name r ↔ (size = buf.length → StaysInside s name offset buf) := by
  rcases fileWrite_cases h with ⟨hval, hfs, hsize⟩ | ⟨hval, hsize, i, hsearch, hi, hcase⟩
  · have hiso : Isolated s name r := ⟨Or.inl ⟨hval, by rw [hfs]⟩, fun _ => hval⟩
    refine ⟨fun _ hlen => ?_, fun _ => hiso⟩
    obtain ⟨i, hsearch, hneg⟩ := hsize hlen
    refine ⟨fun ⟨k, hk, _⟩ => ?_, fun j hj hj0 => ?_⟩
    · rw [hsearch, Option.some.injEq] at hk
      omega
    · rw [hsearch, Option.some.injEq] at hj
      omega
  · have hsucc : ¬ r.value = -1 := by omega
    constructor
    · rintro ⟨hdata, hdir⟩ -
      refine ⟨fun hd => hsucc (hdir hd), fun j hj _ hend p b hch => ?_⟩
      cases Option.some.inj (hj.symm.trans hsearch)
      rcases hcase with ⟨hlarge, -⟩ | ⟨hsmall, -⟩
      · omega
      · by_cases hlater : ∃ k, p / 512 < k ∧ k ≤ endBlock offset buf ∧ directPtr s i k = some (b : Int)
        · exact Or.inr hlater
        · refine Or.inl (hdata.resolve_left (fun h => hsucc h.1) b ((hsmall.changed_iff b).mpr ⟨p, hch, ?_⟩))
          exact fun k hk hke hptr => hlater ⟨k, hk, hke, hptr⟩
    · intro hstay
      obtain ⟨hdir, hbytes⟩ := hstay hsize
      refine ⟨Or.inr fun b hb => ?_, fun hd => absurd hd hdir⟩
      rcases hcase with ⟨-, hfs⟩ | ⟨hsmall, -⟩
      · exact absurd (by rw [hfs]) hb
      · obtain ⟨p, hch, hlast⟩ := (hsmall.changed_iff b).mp hb
        refine (hbytes i hsearch hi hsmall.end_le p b hch).resolve_right ?_
        rintro ⟨k, hk, hke, hptr⟩
        exact hlast k hk hke hptr

end

/-- A write inside a file of ten characters. -/
theorem write_isolated_iff_inside :
    ∃ s r, quietly [.create (letter 0) 10] = some s ∧ fileWrite s quiet (letter 0) 3 1 [65] = some r ∧
      (Isolated s (letter 0) r ↔ ((1 : Int) = [(65 : Byte)].length → StaysInside s (letter 0) 3 [65])) := by
  have hsome : ((quietly [.create (letter 0) 10]).bind fun s =>
      fileWrite s quiet (letter 0) 3 1 [65]).isSome = true := by
    rw [quietly_eq]
    decide +kernel
  obtain ⟨r, hr⟩ := Option.isSome_iff_exists.mp hsome
  obtain ⟨s, hs, hwrite⟩ := Option.bind_eq_some_iff.mp hr
  exact ⟨s, r, hs, hwrite, write_isolated_iff hwrite⟩

/-- `write . 0 1 X` in a fresh file system overwrites the entry count of the
root directory on disk. -/
theorem write_dot_not_isolated :
    ∃ s r, quietly [] = some s ∧ fileWrite s quiet dot 0 1 [88] = some r ∧ r.value = 0 ∧
      r.fs.disk 131 ≠ s.disk 131 ∧ ¬ Isolated s dot r := by
  have hrun : ((fileWrite (formatted quiet) quiet dot 0 1 [88]).map fun r =>
      (r.value, r.fs.disk 131 0)) = some (0, 88) := by decide +kernel
  obtain ⟨r, hwrite, hr⟩ := Option.map_eq_some_iff.mp hrun
  have hval : r.value = 0 := congrArg Prod.fst hr
  have hbyte : r.fs.disk 131 0 = 88 := congrArg Prod.snd hr
  refine ⟨formatted quiet, r, by rw [quietly_eq]; rfl, hwrite, hval, fun hsame => ?_, fun hiso => ?_⟩
  · rw [hsame] at hbyte
    exact absurd hbyte (by decide +kernel)
  · have hdir : IsDirectory (formatted quiet) dot := ⟨0, by decide +kernel, rfl⟩
    exact absurd (hiso.2 hdir) (by omega)

end OperatingSystem.Fs
