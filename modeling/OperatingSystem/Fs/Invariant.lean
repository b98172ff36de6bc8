import OperatingSystem.Fs.Entries
import OperatingSystem.Fs.Blocks

/-!
# OperatingSystem.Fs.Invariant

The invariant of the file system.  Every block behind the metadata that is
marked used is owned by exactly one live inode at exactly one position, or has
been lost (`L`); every live directory is well formed, the one in memory standing
for the current one; the root is inode 0 with block 131.

Not every run keeps it: `OperatingSystem.Fs.Preserve` says which changes do.
-/

namespace OperatingSystem.Fs

open Codec

/-! ## Ownership -/

/-- Block `b` is at position `k` among the blocks of the live inode `i`. -/
def Owns (s : FS) (i : Fin 512) (k : Nat) (b : Fin 4096) : Prop :=
  s.live i = true ∧ (ownedBlocks s (s.inode i))[k]? = some (b : Int)

section Owned

variable {s s' : FS} {n : Inode}

theorem length_directBlocks (n : Inode) : (directBlocks n).length = min n.blockCount.toNat 10 := by
  simp [directBlocks]

theorem mapOf_congr (h : ∀ b : Fin 4096, n.indirectBlock = b → s'.disk b = s.disk b) :
    mapOf s' n = mapOf s n := by
  unfold mapOf FS.diskRead
  by_cases hb : 0 ≤ n.indirectBlock ∧ n.indirectBlock < 4096
  · obtain ⟨b, hb⟩ : ∃ b : Fin 4096, n.indirectBlock = b := Arr.exists_fin (by omega) (by omega)
    rw [hb, Arr.read_fin, Arr.read_fin, h b hb]
  · rw [Arr.read, Arr.read, dif_neg (by simpa using hb), dif_neg (by simpa using hb)]

/-- The data blocks of an inode depend on the disk through its map only. -/
theorem dataBlocks_congr (h : 10 < n.blockCount → ∀ b : Fin 4096, n.indirectBlock = b → s'.disk b = s.disk b) :
    dataBlocks s' n = dataBlocks s n := by
  rw [dataBlocks, dataBlocks, mappedBlocks, mappedBlocks]
  by_cases hc : 10 < n.blockCount
  · rw [mapOf_congr (h hc)]
  · have hzero : (n.blockCount - 10).toNat = 0 := by omega
    rw [hzero, List.take_zero, List.map_nil, List.map_nil]

/-- The blocks of an inode depend on the disk through its map only. -/
theorem ownedBlocks_congr
    (h : n.type = .file → 10 < n.blockCount → ∀ b : Fin 4096, n.indirectBlock = b → s'.disk b = s.disk b) :
    ownedBlocks s' n = ownedBlocks s n := by
  unfold ownedBlocks
  cases ht : n.type with
  | directory => rfl
  | file =>
      by_cases hc : n.blockCount > 10
      · simp only [if_pos hc, mappedBlocks, mapOf_congr (h ht hc)]
      · simp only [if_neg hc]

/-- The map of a large file is the block at position 10. -/
theorem ownedBlocks_indirect (ht : n.type = .file) (hc : 10 < n.blockCount) :
    (ownedBlocks s n)[10]? = some n.indirectBlock := by
  have hlen : (directBlocks n).length = 10 := by
    rw [length_directBlocks]
    omega
  simp only [ownedBlocks, ht, if_pos hc]
  rw [List.getElem?_append_right (by omega), hlen]
  rfl

/-- The map comes between the direct and the mapped data blocks. -/
theorem ownedBlocks_dataBlocks (ht : n.type = .file) (hk : (dataBlocks s n)[k]? = some x) :
    (ownedBlocks s n)[if k < 10 then k else k + 1]? = some x := by
  have hlen := length_directBlocks n
  simp only [ownedBlocks, ht]
  by_cases hdir : k < (directBlocks n).length
  · rw [dataBlocks, List.getElem?_append_left hdir] at hk
    have h10 : k < 10 := by omega
    rw [if_pos h10, List.getElem?_append_left hdir, hk]
  · rw [dataBlocks, List.getElem?_append_right (by omega)] at hk
    have hc : n.blockCount > 10 := by
      by_contra hle
      have hzero : (n.blockCount - 10).toNat = 0 := by omega
      simp [mappedBlocks, hzero] at hk
    have h10 : ¬ k < 10 := by omega
    have hpos : k + 1 - (directBlocks n).length = k - (directBlocks n).length + 1 := by omega
    rw [if_pos hc, if_neg h10, List.getElem?_append_right (by omega), hpos, List.getElem?_cons_succ, hk]

/-- A data block of a file is at a position other than the map's. -/
theorem ownedBlocks_data (ht : n.type = .file) (hb : b ∈ dataBlocks s n) :
    ∃ k, (ownedBlocks s n)[k]? = some b ∧ k ≠ 10 := by
  obtain ⟨k, hk⟩ := List.mem_iff_getElem?.mp hb
  refine ⟨_, ownedBlocks_dataBlocks ht hk, ?_⟩
  split <;> omega

end Owned

/-! ## Directories -/

/-- The directory stored in the first block of an inode. -/
def FS.stored (s : FS) (i : Fin 512) : Dentry :=
  Dentry.codec.load (s.diskRead ((s.inode i).directBlock 0) fun _ => 0)

/-- The directory of an inode: the one in memory if it is current. -/
def FS.dir (s : FS) (i : Fin 512) : Dentry :=
  if (s.curDir.dentry 0).inode = i then s.curDir else s.stored i

/-- The current directory's inode number is `i`. -/
def FS.Current (s : FS) (i : Fin 512) : Prop := (s.curDir.dentry 0).inode = i

instance (s : FS) (i : Fin 512) : Decidable (s.Current i) := inferInstanceAs (Decidable (_ = _))

theorem FS.dir_of_current {s : FS} (h : s.Current i) : s.dir i = s.curDir := if_pos h

theorem FS.dir_of_not_current {s : FS} (h : ¬ s.Current i) : s.dir i = s.stored i := if_neg h

theorem FS.Current.unique {s : FS} (hi : s.Current i) (hj : s.Current j) : i = j := by
  unfold FS.Current at hi hj
  exact Fin.ext (by omega)

/-! ## The invariant -/

/-- The numbers in an inode are `int`s, and its block numbers are on the disk. -/
structure InodeOk (n : Inode) : Prop where
  owner : Fits n.owner
  group : Fits n.group
  size : Fits n.size
  blockCount : Fits n.blockCount
  direct : ∀ k, ∃ b : Fin 4096, n.directBlock k = b
  indirect : ∃ b : Fin 4096, n.indirectBlock = b

/-- The size and the block count of a file agree. -/
structure FileOk (n : Inode) : Prop where
  size_nonneg : 0 ≤ n.size
  count_nonneg : 0 ≤ n.blockCount
  count_le : n.blockCount ≤ 138
  size_le : n.size ≤ 512 * n.blockCount
  large : 10 < n.blockCount ↔ 5120 ≤ n.size

structure Inv (L : Set (Fin 4096)) (s : FS) : Prop where
  counts : s.Counts
  metadata : ∀ b : Fin 4096, (b : Nat) < 131 → s.used b = true
  inodes : ∀ i, InodeOk (s.inode i)
  files : ∀ i, s.live i = true → (s.inode i).type = .file → FileOk (s.inode i)
  owned : ∀ i, s.live i = true → ∀ x ∈ ownedBlocks s (s.inode i),
    ∃ b : Fin 4096, x = b ∧ 131 ≤ (b : Nat) ∧ s.used b = true ∧ b ∉ L
  unique : ∀ i j k l b, Owns s i k b → Owns s j l b → i = j ∧ k = l
  cover : ∀ b : Fin 4096, 131 ≤ (b : Nat) → s.used b = true → b ∈ L ∨ ∃ i k, Owns s i k b
  lost : ∀ b ∈ L, s.used b = true
  dirs : ∀ i, s.live i = true → (s.inode i).type = .directory → DirOk (s.dir i) i
  current : ∃ i, s.Current i ∧ s.live i = true ∧ (s.inode i).type = .directory
  curFits : Dentry.codec.Ok s.curDir
  mapFits : InDirectBlockMap.codec.Ok s.inDirectBMap
  rootLive : s.live 0 = true
  rootType : (s.inode 0).type = .directory
  rootBlock : (s.inode 0).directBlock 0 = 131
  curDirBlock : s.curDirBlock = 131

section Inv

variable {s s' : FS} {L : Set (Fin 4096)}

/-- The current directory in memory is well formed. -/
theorem Inv.curDir (hinv : Inv L s) (hcur : s.Current i) (hlive : s.live i = true)
    (htype : (s.inode i).type = .directory) : DirOk s.curDir i := by
  have h := hinv.dirs i hlive htype
  rwa [FS.dir_of_current hcur] at h

/-- A directory owns the block it is stored in. -/
theorem Inv.dirBlock (hinv : Inv L s) (hlive : s.live i = true)
    (htype : (s.inode i).type = .directory) :
    ∃ b : Fin 4096, (s.inode i).directBlock 0 = b ∧ Owns s i 0 b := by
  obtain ⟨b, hb⟩ := (hinv.inodes i).direct 0
  exact ⟨b, hb, hlive, by simp [ownedBlocks, htype, hb]⟩

/-- A large file owns its map. -/
theorem owns_indirect (hlive : s.live i = true) (htype : (s.inode i).type = .file)
    (hc : 10 < (s.inode i).blockCount) {b : Fin 4096} (hb : (s.inode i).indirectBlock = b) :
    Owns s i 10 b :=
  ⟨hlive, by rw [ownedBlocks_indirect htype hc, hb]⟩

/-- An owned block is used, behind the metadata, and not lost. -/
theorem Inv.owns_used (hinv : Inv L s) {b : Fin 4096} (h : Owns s i k b) :
    131 ≤ (b : Nat) ∧ s.used b = true ∧ b ∉ L := by
  obtain ⟨c, hc, hge, hused, hlost⟩ := hinv.owned i h.1 _ (List.mem_of_getElem? h.2)
  have hbc : b = c := Fin.ext (by omega)
  subst hbc
  exact ⟨hge, hused, hlost⟩

theorem stored_congr (hi : s'.inode i = s.inode i)
    (h : ∀ b : Fin 4096, (s.inode i).directBlock 0 = b → s'.disk b = s.disk b)
    (hrange : ∃ b : Fin 4096, (s.inode i).directBlock 0 = b) : s'.stored i = s.stored i := by
  obtain ⟨b, hb⟩ := hrange
  unfold FS.stored FS.diskRead
  rw [hi, hb, Arr.read_fin, Arr.read_fin, h b hb]

end Inv

end OperatingSystem.Fs
