import OperatingSystem.Fs.Mount

/-!
# OperatingSystem.Fs.Format

The file system `fs_mount` makes when there is no disk file: the metadata
blocks and block 131 are in use, inode 0 is the root directory, and its only
entry is `.`.
-/

namespace OperatingSystem.Fs

open Codec Bitmap

/-! ## Bitmaps -/

theorem getBit_setBits (a : Arr n Byte) (value : Nat → Bool) (is : List Nat) (h : ∀ i ∈ is, i < 8 * n)
    (j : Nat) : getBit (setBits a value is) j = if j ∈ is then value j else getBit a j := by
  induction is generalizing a with
  | nil => rfl
  | cons i is ih =>
      rw [setBits, List.foldl_cons, ← setBits, ih _ fun k hk => h k (List.mem_cons_of_mem i hk),
        getBit_setBit a (h i List.mem_cons_self)]
      by_cases hj : j ∈ is
      · simp [hj]
      · by_cases hji : j = i <;> simp [hj, hji]

theorem getBit_zero (j : Nat) : getBit (fun _ => 0 : Arr n Byte) j = false := by
  unfold getBit
  split <;> simp

/-- The block bitmap with bits 0 to `128 + r - 1` set, for `full = 2 ^ r - 1`. -/
def lowBlocks (full : Byte) : Arr 512 Byte := fun k => if k < 16 then 255 else if k = 16 then full else 0

theorem getBit_lowBlocks {full : Byte} {r : Nat} (hr : r ≤ 8)
    (hfull : ∀ i < 8, BitVec.getLsbD full i = decide (i < r)) (j : Nat) :
    getBit (lowBlocks full) j = decide (j < 128 + r) := by
  have h255 : ∀ i < 8, BitVec.getLsbD (255 : Byte) i = true := by decide
  have hmod : j % 8 < 8 := Nat.mod_lt _ (by decide)
  unfold getBit lowBlocks
  split
  · next h =>
      by_cases h16 : j / 8 < 16
      · have hlt : (⟨j / 8, h⟩ : Fin 512) < 16 := h16
        rw [if_pos hlt, h255 _ hmod, eq_comm, decide_eq_true_iff]
        omega
      · have hge : ¬ (⟨j / 8, h⟩ : Fin 512) < 16 := h16
        rw [if_neg hge]
        by_cases heq : j / 8 = 16
        · have hfin : (⟨j / 8, h⟩ : Fin 512) = 16 := Fin.ext heq
          rw [if_pos hfin, hfull _ hmod, decide_eq_decide]
          omega
        · have hfin : ¬ (⟨j / 8, h⟩ : Fin 512) = 16 := fun hh => heq (congrArg Fin.val hh)
          rw [if_neg hfin, show (0 : Byte) = 0#8 from rfl, BitVec.getLsbD_zero, eq_comm,
            decide_eq_false_iff_not]
          omega
  · next h =>
      rw [eq_comm, decide_eq_false_iff_not]
      omega

theorem setBits_inodes : setBits (fun _ => 0 : Arr 64 Byte) (fun _ => false) (List.range 64) = fun _ => 0 :=
  ext_getBit fun i _ => by
    rw [getBit_setBits _ _ _ fun j hj => by have := List.mem_range.mp hj; omega, getBit_zero, ite_self]

/-- `fs_mount` marks the 131 metadata blocks. -/
theorem setBits_blocks : setBits (fun _ => 0 : Arr 512 Byte) (fun i => i < 1 + 1 + 1 + 128)
    (List.range 512) = lowBlocks 7 :=
  ext_getBit fun i _ => by
    rw [getBit_setBits _ _ _ fun j hj => by have := List.mem_range.mp hj; omega,
      getBit_lowBlocks (r := 3) (by decide) (by decide), getBit_zero]
    by_cases hi : i < 512
    · simp [hi]
    · rw [if_neg (by simpa using hi), eq_comm, decide_eq_false_iff_not]
      omega

theorem setBit_root : setBit (fun _ => 0 : Arr 64 Byte) 0 true = fun k => if k = 0 then 1 else 0 := by
  refine ext_getBit fun i hi => ?_
  rw [getBit_setBit _ (by decide), getBit_zero]
  unfold getBit
  rw [dif_pos (show i / 8 < 64 by omega)]
  dsimp only
  by_cases hi : i / 8 = 0
  · have hfin : (⟨i / 8, by omega⟩ : Fin 64) = 0 := Fin.ext hi
    have hone : ∀ j < 8, BitVec.getLsbD (1 : Byte) j = if j = 0 then true else false := by decide
    rw [if_pos hfin, hone _ (Nat.mod_lt _ (by decide)), show i % 8 = i by omega]
  · have hfin : ¬ (⟨i / 8, by omega⟩ : Fin 64) = 0 := fun hh => hi (congrArg Fin.val hh)
    rw [if_neg hfin, if_neg (show i ≠ 0 by omega)]
    exact BitVec.getLsbD_zero.symm

theorem getBit_root (i : Nat) : getBit (fun k => if k = 0 then 1 else 0 : Arr 64 Byte) i = decide (i < 1) := by
  have hroot : getBit (setBit (fun _ => 0 : Arr 64 Byte) 0 true) i = if i = 0 then true else getBit (fun _ => 0 : Arr 64 Byte) i :=
    getBit_setBit _ (by decide) true i
  rw [setBit_root, getBit_zero] at hroot
  rw [hroot]
  by_cases hi : i = 0
  · simp [hi]
  · rw [if_neg hi, eq_comm, decide_eq_false_iff_not]
    omega

theorem setBit_lowBlocks : setBit (lowBlocks 7) 131 true = lowBlocks 15 :=
  ext_getBit fun i _ => by
    rw [getBit_setBit _ (by decide), getBit_lowBlocks (r := 3) (by decide) (by decide),
      getBit_lowBlocks (r := 4) (by decide) (by decide)]
    by_cases hi : i = 131
    · simp [hi]
    · rw [if_neg hi, decide_eq_decide]
      omega

/-! ## The fresh file system -/

/-- The root's inode. -/
def rootInode (env : Env) : Inode :=
  { Inode.zero with
    type := .directory
    created := env.created
    lastAccess := env.lastAccess
    size := 1
    blockCount := 1
    directBlock := Function.update (fun _ => 0) 0 131 }

/-- The root directory before anything is created. -/
def rootDir : Dentry where
  numEntry := 1
  dentry := Function.update (fun _ => ⟨fun _ => 0, 0⟩) 0 ⟨strcpy (fun _ => 0) dot.1, 0⟩
  padding := fun _ => 0

/-- The globals after `fs_mount` has made a file system. -/
def formatted (env : Env) : FS where
  disk := Function.update (fun _ _ => 0) 131 (Dentry.codec.store 512 rootDir)
  inodeMap := fun k => if k = 0 then 1 else 0
  blockMap := lowBlocks 15
  inode := Function.update (fun _ => Inode.zero) 0 (rootInode env)
  superBlock := ⟨3964, 511, fun _ => 0⟩
  curDir := rootDir
  curDirBlock := 131
  inDirectBMap := fun _ => 0

theorem initMaps_zero : initMaps FS.zero = { FS.zero with
    superBlock := ⟨3965, 512, fun _ => 0⟩
    inodeMap := fun _ => 0
    blockMap := lowBlocks 7 } := by
  rw [← setBits_inodes, ← setBits_blocks]
  rfl

theorem initRoot_zero (env : Env) : initRoot { FS.zero with
    superBlock := ⟨3965, 512, fun _ => 0⟩
    inodeMap := fun _ => 0
    blockMap := lowBlocks 7 } env = some (formatted env) := by
  have hfirst : firstZero (fun _ => 0 : Arr 64 Byte) 512 = some 0 :=
    firstZero_eq (by decide) (getBit_zero 0) fun j hj => absurd hj (Nat.not_lt_zero j)
  have hbit : ∀ j, getBit (lowBlocks 7) j = decide (j < 128 + 3) := getBit_lowBlocks (by decide) (by decide)
  have hfirst' : firstZero (lowBlocks 7) 4096 = some 131 :=
    firstZero_eq (by decide) (hbit 131) fun j hj => (hbit j).trans (decide_eq_true hj)
  have hinode : getFreeInode { FS.zero with
      superBlock := ⟨3965, 512, fun _ => 0⟩
      inodeMap := fun _ => 0
      blockMap := lowBlocks 7 } = (0, { FS.zero with
      superBlock := ⟨3965, 511, fun _ => 0⟩
      inodeMap := fun k => if k = 0 then 1 else 0
      blockMap := lowBlocks 7 }) := by
    unfold getFreeInode
    dsimp only
    rw [hfirst]
    dsimp only
    rw [setBit_root]
    rfl
  have hblock : getFreeBlock { FS.zero with
      superBlock := ⟨3965, 511, fun _ => 0⟩
      inodeMap := fun k => if k = 0 then 1 else 0
      blockMap := lowBlocks 7 } = (131, { FS.zero with
      superBlock := ⟨3964, 511, fun _ => 0⟩
      inodeMap := fun k => if k = 0 then 1 else 0
      blockMap := lowBlocks 15 }) := by
    unfold getFreeBlock
    dsimp only
    rw [hfirst']
    dsimp only
    rw [setBit_lowBlocks]
    rfl
  have hdisk : ∀ s : FS, ∀ buf, s.diskWrite 131 buf =
      { s with disk := Function.update s.disk 131 buf } := fun s buf => diskWrite_fin s 131 buf
  unfold initRoot
  rw [hinode]
  dsimp only
  rw [hblock]
  dsimp only
  have hread : FS.zero.inode.read 0 = some Inode.zero := rfl
  have hwrite : ∀ n, FS.zero.inode.write 0 n = some (Function.update (fun _ => Inode.zero) 0 n) :=
    fun n => rfl
  rw [hread, Option.bind_eq_bind, Option.bind_some, hwrite, Option.bind_eq_bind, Option.bind_some, hdisk]
  rfl

/-- A mount without a disk file. -/
theorem fsMount_none (env : Env) : fsMount env none = some (formatted env) := by
  rw [← initRoot_zero env, ← initMaps_zero]
  rfl

theorem session_eq (env : Env) (lines : List Line) :
    session env lines = Run.exec step (formatted env) lines := by
  rw [session, fsMount_none]
  rfl

/-! ## Concrete sessions -/

/-- A machine whose clock stands at zero, whose memory is zeroed and whose
`rand()` counts up. -/
def quiet : Env where
  rand := fun n => n
  created := fun _ => 0
  lastAccess := fun _ => 0
  heap := fun _ => 0
  stack := fun _ => 0

/-- The name of one lower-case letter. -/
def letter (c : Fin 26) : Name := ⟨[BitVec.ofNat 8 (97 + c)], by revert c; decide +kernel⟩

/-- A session of commands on that machine. -/
def quietly (commands : List Command) : Option FS := session quiet (commands.map (Line.mk quiet))

/-- How a fact about a concrete session is computed. -/
theorem quietly_eq (commands : List Command) :
    quietly commands = Run.exec step (formatted quiet) (commands.map (Line.mk quiet)) :=
  session_eq _ _

end OperatingSystem.Fs
