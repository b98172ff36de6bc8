import OperatingSystem.Fs.Util

/-!
# OperatingSystem.Fs.Directory

The current directory and the commands on directories: `search_cur_dir`,
`dir_make`, `dir_remove` and `dir_change` of `fs.c`.  The current directory is
held in memory (`curDir`); `dir_change` flushes it to its block before it reads
the next one.
-/

namespace OperatingSystem.Fs

open Codec

/-! ## search_cur_dir -/

/-- The loop of `search_cur_dir` over the entry numbers. -/
def searchFrom (d : Dentry) (name : List Byte) : List Nat → Option Int
  | [] => some (-1)
  | i :: is => do
      let e ← d.dentry.read i
      if cstr e.name = name then return e.inode else searchFrom d name is

/-- The inode number of a name, or -1. -/
def searchCurDir (s : FS) (name : Name) : Option Int :=
  searchFrom s.curDir name.1 (List.range s.curDir.numEntry.toNat)

/-! ## Entries -/

/-- `curDir.numEntry + 1 >= BLOCK_SIZE / sizeof(DirectoryEntry)`.  The right side
is a `size_t`, so a negative sum counts as a large one. -/
def Dentry.Full (d : Dentry) : Prop := d.numEntry + 1 < 0 ∨ 25 ≤ d.numEntry + 1

instance (d : Dentry) : Decidable d.Full := inferInstanceAs (Decidable (_ ∨ _))

/-- A new entry behind the last one. -/
def Dentry.addEntry (d : Dentry) (name : Name) (inode : Int) : Option Dentry := do
  let e ← d.dentry.read d.numEntry
  let dentry ← d.dentry.write d.numEntry ⟨strcpy e.name name.1, inode⟩
  return { d with dentry := dentry, numEntry := d.numEntry + 1 }

/-- The end of `file_remove` and `dir_remove`: the last entry is moved to the
position `inodeNum`, and `inode[inodeNum]` gets the size of the inode whose
number is the last entry's position. -/
def removeEntry (s : FS) (inodeNum : Int) : Option FS := do
  let numEntry := s.curDir.numEntry - 1
  let last ← s.curDir.dentry.read numEntry
  if inodeNum ≠ last.inode then do
    -- `name[MAX_FILE_NAME] = '\0'` clears the low byte of the `inode` behind the name, which is
    -- then assigned; it is lost only if the entry is moved onto itself
    let moved := if inodeNum = numEntry then { last with inode := last.inode / 256 * 256 } else last
    let dentry ← s.curDir.dentry.write inodeNum moved
    let n ← s.inode.read inodeNum
    let other ← s.inode.read numEntry
    let inode ← s.inode.write inodeNum { n with size := other.size }
    return { s with curDir := { s.curDir with numEntry := numEntry, dentry := dentry }, inode := inode }
  else return { s with curDir := { s.curDir with numEntry := numEntry } }

/-- The fields `file_create_small_helper` and `dir_make` set in a fresh inode. -/
def Inode.fill (n : Inode) (env : Env) (type : TYPE) (size blockCount : Int) : Inode :=
  { n with
    type := type
    owner := 1
    group := 2
    created := env.created
    lastAccess := env.lastAccess
    size := size
    blockCount := blockCount }

/-! ## dir_make -/

def dot : Name := ⟨[46], by decide⟩

def dotdot : Name := ⟨[46, 46], by decide⟩

/-- The local `subDir` of `dir_make`: two entries, the rest uninitialised. -/
def subDir (stack : Block) (inode parent : Int) : Dentry :=
  let d := Dentry.codec.load stack
  { d with
    numEntry := 2
    dentry := Function.update (Function.update d.dentry 0 ⟨strcpy (d.dentry 0).name dot.1, inode⟩)
      1 ⟨strcpy (d.dentry 1).name dotdot.1, parent⟩ }

def dirMake (s : FS) (env : Env) (name : Name) : Option Ret := do
  let inodeNum ← searchCurDir s name
  if inodeNum ≥ 0 then
    return ⟨-1, [.name "Directory create failed:  %s exist.\n" name.1], s⟩
  else if s.curDir.Full then
    return ⟨-1, [.text "Directory create failed: directory is full!\n"], s⟩
  else if s.superBlock.freeInodeCount < 1 then
    return ⟨-1, [.text "Directory create failed: not enough inode\n"], s⟩
  else if s.superBlock.freeBlockCount < 1 then
    return ⟨-1, [.text "Directory create failed: not enough space\n"], s⟩
  else
    let (newSubDirInode, s) := getFreeInode s
    if newSubDirInode < 0 then
      return ⟨-1, [.text "Directory create error: not enough inode.\n"], s⟩
    else do
      let (newDirBlock, s) := getFreeBlock s
      if newDirBlock = -1 then
        return ⟨-1, [.text "Directory create error: get_free_block failed\n"], s⟩
      else do
        let n ← s.inode.read newSubDirInode
        let n := n.fill env .directory 1 1
        let inode ← s.inode.write newSubDirInode
          { n with directBlock := Function.update n.directBlock 0 newDirBlock }
        let s := { s with inode := inode }
        let curDir ← s.curDir.addEntry name newSubDirInode
        let s := { s with curDir := curDir }
        let s := s.diskWrite newDirBlock
          (Dentry.codec.store 512 (subDir env.stack newSubDirInode (s.curDir.dentry 0).inode))
        return ⟨0, .name "Directory %s create success! \n" name.1 :: diskWriteOut newDirBlock, s⟩

/-! ## dir_remove -/

def dirRemove (s : FS) (name : Name) : Option Ret := do
  let inodeNum ← searchCurDir s name
  if inodeNum < 0 then
    return ⟨-1, [.name "Directory delete failed:  %s not exist.\n" name.1], s⟩
  else do
    let n ← s.inode.read inodeNum
    if n.type = .file then
      return ⟨-1, [.name "Directory delete error: input name <%s> is a file not a directory.\n" name.1], s⟩
    else do
      let (r, s) ← freeInode s inodeNum
      if r ≠ 0 then
        return ⟨-1, [.text "Directory delete error: fail to delete inode.\n"], s⟩
      else do
        let (r, s) ← freeBlock s (n.directBlock 0)
        if r ≠ 0 then
          return ⟨-1, [.text "file delete error: fail to delete block.\n"], s⟩
        else do
          let s ← removeEntry s inodeNum
          return ⟨0, [], s⟩

/-! ## dir_change -/

def dirChange (s : FS) (name : Name) : Option Ret := do
  let cur ← s.inode.read (s.curDir.dentry 0).inode
  let s := s.diskWrite (cur.directBlock 0) (Dentry.codec.store 512 s.curDir)
  let out := diskWriteOut (cur.directBlock 0)
  let inodeNum ← searchCurDir s name
  if inodeNum < 0 then
    return ⟨-1, out ++ [.name "Directory change failed:  %s not exist.\n" name.1], s⟩
  else do
    let n ← s.inode.read inodeNum
    if n.type = .file then
      return ⟨-1, out ++
        [.name "Directory change error: input name <%s> is a file not a directory.\n" name.1], s⟩
    else
      let buf := s.diskRead (n.directBlock 0) (Dentry.codec.store 512 s.curDir)
      return ⟨0, out ++ diskReadOut (n.directBlock 0), { s with curDir := Dentry.codec.load buf }⟩

end OperatingSystem.Fs
