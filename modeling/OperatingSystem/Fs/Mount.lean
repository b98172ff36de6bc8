import OperatingSystem.Fs.File
import OperatingSystem.Lib.Run

/-!
# OperatingSystem.Fs.Mount

`fs_mount` and `fs_umount`, and runs of shell commands.

`inodeMap` has 64 bytes, but `disk_read` and `disk_write` move a whole block:
the 448 bytes behind it in memory go to the disk with it (`tail`) and come back
to the same place, so they are not part of the state.
-/

namespace OperatingSystem.Fs

open Codec Bitmap

/-! ## fs_mount, fs_umount -/

/-- `set_bit(array, i, value)` for each `i`. -/
def setBits (array : Arr n Byte) (value : Nat → Bool) (is : List Nat) : Arr n Byte :=
  is.foldl (fun a i => setBit a i (value i)) array

/-- `fs_mount` when there is no disk file: the counters and the bitmaps of a
new file system. -/
def initMaps (s : FS) : FS :=
  { s with
    superBlock := { s.superBlock with freeBlockCount := 4096 - (1 + 1 + 1 + 128), freeInodeCount := 512 }
    inodeMap := setBits s.inodeMap (fun _ => false) (List.range 64)
    blockMap := setBits s.blockMap (fun i => i < 1 + 1 + 1 + 128) (List.range 512) }

/-- `fs_mount` when there is no disk file: the root directory. -/
def initRoot (s : FS) (env : Env) : Option FS := do
  let (rootInode, s) := getFreeInode s
  let (curDirBlock, s) := getFreeBlock s
  let s := { s with curDirBlock := curDirBlock }
  let n ← s.inode.read rootInode
  let inode ← s.inode.write rootInode { n with
    type := .directory
    owner := 0
    group := 0
    created := env.created
    lastAccess := env.lastAccess
    size := 1
    blockCount := 1
    directBlock := Function.update n.directBlock 0 curDirBlock }
  let s := { s with inode := inode }
  let s := { s with curDir := { s.curDir with
    numEntry := 1
    dentry := Function.update s.curDir.dentry 0 ⟨strcpy (s.curDir.dentry 0).name dot.1, rootInode⟩ } }
  return s.diskWrite curDirBlock (Dentry.codec.store 512 s.curDir)

/-- The four inodes of inode block `i`. -/
def inodesOf (inode : Arr 512 Inode) (i : Fin 128) : Arr 4 Inode := fun k => inode ⟨i * 4 + k, by omega⟩

theorem mapByte_lt (k : Fin 64) : (k : Nat) < 512 := by omega

/-- `fs_mount` when `disk_mount` has read the disk file: the globals are read
from their blocks. -/
def fsLoad (s : FS) : FS :=
  let inodeMap : Arr 64 Byte := fun k => s.disk 1 ⟨k, mapByte_lt k⟩
  let inode : Arr 512 Inode := fun n =>
    (inodeBlockCodec.load (s.disk ⟨3 + n / 4, by omega⟩) : Arr 4 Inode) ⟨n % 4, Nat.mod_lt _ (by decide)⟩
  let curDirBlock := (inode 0).directBlock 0
  { s with
    superBlock := SuperBlock.codec.load (s.disk 0)
    inodeMap := inodeMap
    blockMap := s.disk 2
    inode := inode
    curDirBlock := curDirBlock
    curDir := Dentry.codec.load (s.diskRead curDirBlock (Dentry.codec.store 512 s.curDir)) }

/-- `fs_mount` in a fresh process: `image` is what the disk file holds, if it
exists. -/
def fsMount (env : Env) (image : Option (Arr 4096 Block)) : Option FS :=
  match image with
  | some disk => some (fsLoad { FS.zero with disk := disk })
  | none => initRoot (initMaps FS.zero) env

/-- The loop of `fs_umount` over the inode blocks. -/
def writeInodes : List (Fin 128) → FS → FS
  | [], s => s
  | i :: is, s =>
      writeInodes is (s.diskWrite (3 + (i : Nat) : Nat) (inodeBlockCodec.store 512 (inodesOf s.inode i)))

/-- `fs_umount`: the disk it leaves behind, which `disk_umount` writes to the
disk file. -/
def fsUmount (s : FS) (tail : Nat → Byte) : Arr 4096 Block :=
  let s := s.diskWrite 0 (SuperBlock.codec.store 512 s.superBlock)
  let s := s.diskWrite 1 fun k => if h : k < 64 then s.inodeMap ⟨k, h⟩ else tail k
  let s := s.diskWrite 2 s.blockMap
  let s := writeInodes (List.finRange 128) s
  (s.diskWrite s.curDirBlock (Dentry.codec.store 512 s.curDir)).disk

/-! ## Commands -/

/-- The commands of the shell that read or change the file system. -/
inductive Command where
  | create (name : Name) (size : Int)
  | cat (name : Name)
  | write (name : Name) (offset size : Int) (buf : List Byte)
  | read (name : Name) (offset size : Int)
  | rm (name : Name)
  | mkdir (name : Name)
  | rmdir (name : Name)
  | cd (name : Name)

/-- `execute_command`. -/
def execute (s : FS) (env : Env) : Command → Option Ret
  | .create name size => fileCreate s env name size
  | .cat name => fileCat s env name
  | .write name offset size buf => fileWrite s env name offset size buf
  | .read name offset size => fileRead s env name offset size
  | .rm name => fileRemove s name
  | .mkdir name => dirMake s env name
  | .rmdir name => dirRemove s name
  | .cd name => dirChange s name

/-- A command line together with what the program finds outside when it runs. -/
structure Line where
  env : Env
  command : Command

def step (s : FS) (line : Line) : Option FS := (execute s line.env line.command).map Ret.fs

/-- The globals after a mount without a disk file and a run of commands. -/
def session (env : Env) (lines : List Line) : Option FS := do
  let s ← fsMount env none
  Run.exec step s lines

end OperatingSystem.Fs
