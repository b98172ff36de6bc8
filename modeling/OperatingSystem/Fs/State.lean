import Mathlib.Algebra.GroupWithZero.Nat
import OperatingSystem.Lib.Bitmap

/-!
# OperatingSystem.Fs.State

The structs of the file system (`fs.h`), their layout in memory, the disk
(`disk.c`) and the global variables of `fs.c`.

The sizes of `fs.h` and `disk.h` appear as numbers: `BLOCK_SIZE` is 512,
`MAX_BLOCK` 4096, `MAX_INODE` 512, `MAX_FILE_NAME` 16, `DIRECT_BLOCK` 10,
`MAX_INDIRECT_BLOCK` 128 and `MAX_DIR_ENTRY` 25.  An `Inode` is 128 bytes, so
the inode table fills the 128 blocks from 3 on and the first block behind the
metadata is 131.  Memory is little-endian; an index outside an array is
undefined behaviour (`none`).
-/

namespace OperatingSystem.Fs

open Codec

/-! ## fs.h -/

/-- The contents of a disk block. -/
abbrev Block := Arr 512 Byte

structure SuperBlock where
  freeBlockCount : Int
  freeInodeCount : Int
  padding : Arr 504 Byte

inductive TYPE where
  | file
  | directory
deriving DecidableEq

/-- A `struct timeval`; nothing modelled looks inside. -/
abbrev Timeval := Arr 16 Byte

structure Inode where
  type : TYPE
  owner : Int
  group : Int
  lastAccess : Timeval
  created : Timeval
  size : Int
  blockCount : Int
  directBlock : Arr 10 Int
  indirectBlock : Int
  padding : Arr 24 Byte

structure DirectoryEntry where
  name : Arr 16 Byte
  inode : Int

structure Dentry where
  numEntry : Int
  dentry : Arr 25 DirectoryEntry
  padding : Arr 8 Byte

abbrev InDirectBlockMap := Arr 128 Int

scoped instance neZero_directBlock : NeZero 10 := ⟨Nat.succ_ne_zero 9⟩
scoped instance neZero_dirEntry : NeZero 25 := ⟨Nat.succ_ne_zero 24⟩
scoped instance neZero_inodeMap : NeZero 64 := ⟨Nat.succ_ne_zero 63⟩
scoped instance neZero_inode : NeZero 512 := ⟨Nat.succ_ne_zero 511⟩
scoped instance neZero_block : NeZero 4096 := ⟨Nat.succ_ne_zero 4095⟩

/-! ## Layout -/

def SuperBlock.codec : Codec SuperBlock :=
  (pair int32 (pair int32 (bytes 504))).iso
    (fun s => (s.freeBlockCount, s.freeInodeCount, s.padding)) (fun (b, i, p) => ⟨b, i, p⟩)
    (fun _ => rfl) (fun _ => rfl)

/-- An enumeration is an `int`; `file` is 0 and `directory` 1. -/
def TYPE.codec : Codec TYPE where
  size := 4
  enc t := int32.enc (match t with | .file => 0 | .directory => 1)
  dec f := if int32.dec f = 1 then .directory else .file
  Ok _ := True
  dec_ok _ := trivial
  dec_enc t f _ hf := by
    cases t with
    | file => rw [int32.dec_enc 0 f (show Fits 0 by decide) hf]; rfl
    | directory => rw [int32.dec_enc 1 f (show Fits 1 by decide) hf]; rfl

/-- The two `timeval`s are aligned to 8 bytes, so four bytes of alignment lie
before them and four at the end of the struct. -/
def Inode.codec : Codec Inode :=
  (pair TYPE.codec <| pair int32 <| pair int32 <| pair (gap 4) <| pair (bytes 16) <| pair (bytes 16) <|
    pair int32 <| pair int32 <| pair (array 10 int32) <| pair int32 <| pair (bytes 24) (gap 4)).iso
    (fun n => (n.type, n.owner, n.group, (), n.lastAccess, n.created, n.size, n.blockCount,
      n.directBlock, n.indirectBlock, n.padding, ()))
    (fun (t, o, g, _, a, c, s, b, d, i, p, _) => ⟨t, o, g, a, c, s, b, d, i, p⟩)
    (fun _ => rfl) (fun _ => rfl)

def DirectoryEntry.codec : Codec DirectoryEntry :=
  (pair (bytes 16) int32).iso (fun e => (e.name, e.inode)) (fun (n, i) => ⟨n, i⟩)
    (fun _ => rfl) (fun _ => rfl)

def Dentry.codec : Codec Dentry :=
  (pair int32 (pair (array 25 DirectoryEntry.codec) (bytes 8))).iso
    (fun d => (d.numEntry, d.dentry, d.padding)) (fun (n, e, p) => ⟨n, e, p⟩)
    (fun _ => rfl) (fun _ => rfl)

def InDirectBlockMap.codec : Codec InDirectBlockMap := array 128 int32

/-- The four inodes of an inode block. -/
def inodeBlockCodec : Codec (Arr 4 Inode) := array 4 Inode.codec

theorem codec_sizes : SuperBlock.codec.size = 512 ∧ Inode.codec.size = 128 ∧
    DirectoryEntry.codec.size = 20 ∧ Dentry.codec.size = 512 ∧ InDirectBlockMap.codec.size = 512 ∧
    inodeBlockCodec.size = 512 :=
  ⟨rfl, rfl, rfl, rfl, rfl, rfl⟩

/-! ## The globals of fs.c and disk.c -/

structure FS where
  disk : Arr 4096 Block
  inodeMap : Arr 64 Byte
  blockMap : Arr 512 Byte
  inode : Arr 512 Inode
  superBlock : SuperBlock
  curDir : Dentry
  curDirBlock : Int
  inDirectBMap : InDirectBlockMap

/-- An inode of zero bytes. -/
def Inode.zero : Inode where
  type := .file
  owner := 0
  group := 0
  lastAccess := fun _ => 0
  created := fun _ => 0
  size := 0
  blockCount := 0
  directBlock := fun _ => 0
  indirectBlock := 0
  padding := fun _ => 0

/-- The zeroed globals of a fresh process. -/
def FS.zero : FS where
  disk := fun _ _ => 0
  inodeMap := fun _ => 0
  blockMap := fun _ => 0
  inode := fun _ => Inode.zero
  superBlock := ⟨0, 0, fun _ => 0⟩
  curDir := ⟨0, fun _ => ⟨fun _ => 0, 0⟩, fun _ => 0⟩
  curDirBlock := 0
  inDirectBMap := fun _ => 0

/-- What a function prints: the format of the `printf` and its arguments. -/
inductive Printf where
  | text (fmt : String)
  | name (fmt : String) (s : List Byte)
  | created (name : List Byte) (inode size : Int)
  | contents (s : List Byte)
  | wrote (before after : List Byte)
deriving DecidableEq

/-- The outcome of a function: its value, what it printed and the globals
after it. -/
structure Ret where
  value : Int
  out : List Printf
  fs : FS

/-! ## disk.c -/

/-- `disk_read`: the buffer afterwards.  On a block number out of range it
stays as it was. -/
def FS.diskRead (s : FS) (block : Int) (buf : Block) : Block := (s.disk.read block).getD buf

/-- `disk_write`; nothing is written on a block number out of range. -/
def FS.diskWrite (s : FS) (block : Int) (buf : Block) : FS :=
  { s with disk := (s.disk.write block buf).getD s.disk }

/-- What `disk_read` prints. -/
def diskReadOut (block : Int) : List Printf :=
  if 0 ≤ block ∧ block < 4096 then [] else [.text "disk_read error\n"]

/-- What `disk_write` prints. -/
def diskWriteOut (block : Int) : List Printf :=
  if 0 ≤ block ∧ block < 4096 then [] else [.text "disk_write error\n"]

section Disk

variable (s : FS) (block : Int) (b : Fin 4096) (buf : Block)

@[simp] theorem diskWrite_inodeMap : (s.diskWrite block buf).inodeMap = s.inodeMap := by
  unfold FS.diskWrite
  rfl

@[simp] theorem diskWrite_blockMap : (s.diskWrite block buf).blockMap = s.blockMap := by
  unfold FS.diskWrite
  rfl

@[simp] theorem diskWrite_inode : (s.diskWrite block buf).inode = s.inode := by
  unfold FS.diskWrite
  rfl

@[simp] theorem diskWrite_curDir : (s.diskWrite block buf).curDir = s.curDir := by
  unfold FS.diskWrite
  rfl

@[simp] theorem diskWrite_superBlock : (s.diskWrite block buf).superBlock = s.superBlock := by
  unfold FS.diskWrite
  rfl

theorem diskRead_fin : s.diskRead b buf = s.disk b := by
  rw [FS.diskRead, Arr.read_fin, Option.getD_some]

theorem diskWrite_fin : s.diskWrite b buf = { s with disk := Function.update s.disk b buf } := by
  rw [FS.diskWrite, Arr.write_fin, Option.getD_some]

theorem diskWrite_disk :
    (s.diskWrite block buf).disk b = if block = b then buf else s.disk b := by
  unfold FS.diskWrite
  by_cases h : 0 ≤ block ∧ block < 4096
  · obtain ⟨c, rfl⟩ : ∃ c : Fin 4096, block = c := Arr.exists_fin (by omega) (by omega)
    rw [Arr.write_fin, Option.getD_some]
    dsimp only
    rw [Function.update_apply]
    by_cases hbc : b = c
    · simp [hbc]
    · have hne : ¬ (c : Int) = b := fun h => hbc (Fin.ext (by omega))
      rw [if_neg hbc, if_neg hne]
  · have hne : ¬ block = b := by omega
    rw [Arr.write, dif_neg (by simpa using h), Option.getD_none, if_neg hne]

@[simp] theorem diskReadOut_fin : diskReadOut b = [] := if_pos (by omega)

@[simp] theorem diskWriteOut_fin : diskWriteOut b = [] := if_pos (by omega)

end Disk

end OperatingSystem.Fs
