import OperatingSystem.Fs.Directory

/-!
# OperatingSystem.Fs.File

The commands on files: `file_create`, `file_cat`, `file_read`, `file_write` and
`file_remove` of `fs.c`, each with its helper for large files.

A heap buffer is a function from offsets to bytes.  The loops that copy blocks
between the disk and a buffer are `readBlocks` and `writeBlocks`, the one that
takes free blocks for a file's data is `getBlocks`; what distinguishes the
loops of the source is where the block numbers are.
-/

namespace OperatingSystem.Fs

open Codec

/-! ## Buffers and loops -/

/-- The block at `p + i * BLOCK_SIZE`. -/
def chunk (p : Nat → Byte) (i : Nat) : Block := fun k => p (i * 512 + k)

theorem mod_lt_block (k : Nat) : k % 512 < 512 := Nat.mod_lt k (by decide)

/-- The buffer of consecutive blocks, null behind the last. -/
def flatten (bs : List Block) (k : Nat) : Byte :=
  match bs[k / 512]? with
  | some b => b ⟨k % 512, mod_lt_block k⟩
  | none => 0

/-- The string of at most `n` characters at `p`. -/
def strn (p : Nat → Byte) (n : Nat) : List Byte := ((List.range n).map p).takeWhile (· != 0)

/-- `for(i = a; i <= b; i++)`. -/
def loop (a b : Int) : List Int := (List.range (b + 1 - a).toNat).map fun k : Nat => a + (k : Int)

/-- `disk_read(ptr(i), str)` for each `i`, each block kept.  `str` is one
buffer: a read that fails leaves the previous block in it. -/
def readBlocks (s : FS) (ptr : Int → Option Int) : List Int → Block → Option (List Block × List Printf)
  | [], _ => some ([], [])
  | i :: is, str => do
      let block ← ptr i
      let str := s.diskRead block str
      let (bs, out) ← readBlocks s ptr is str
      return (str :: bs, diskReadOut block ++ out)

/-- `disk_write(ptr(j), data(j))` for each `j`. -/
def writeBlocks (ptr : Int → Option Int) (data : Int → Block) : List Int → FS → Option (FS × List Printf)
  | [], s => some (s, [])
  | j :: js, s => do
      let block ← ptr j
      let (s', out) ← writeBlocks ptr data js (s.diskWrite block (data j))
      return (s', diskWriteOut block ++ out)

/-- `block = get_free_block(); ptr(i) = block; disk_write(block, data(i))` for
each `i`; -1 as soon as there is no free block. -/
def getBlocks (put : FS → Nat → Int → Option FS) (data : Nat → Block) : List Nat → FS → Option (Int × FS)
  | [], s => some (0, s)
  | i :: is, s => do
      let (block, s) := getFreeBlock s
      if block = -1 then return (-1, s)
      else do
        let s ← put s i block
        getBlocks put data is (s.diskWrite block (data i))

/-- `free_block(ptr(i))` for each `i`; -1 as soon as one fails. -/
def freeBlocks (ptr : Int → Option Int) : List Int → FS → Option (Int × FS)
  | [], s => some (0, s)
  | i :: is, s => do
      let block ← ptr i
      let (r, s) ← freeBlock s block
      if r ≠ 0 then return (-1, s) else freeBlocks ptr is s

/-- `inode[inodeNum].directBlock[i]`. -/
def directPtr (s : FS) (inodeNum i : Int) : Option Int := do
  let n ← s.inode.read inodeNum
  n.directBlock.read i

/-- `inode[inodeNum].directBlock[i] = block`. -/
def putDirect (inodeNum : Int) (s : FS) (i : Nat) (block : Int) : Option FS := do
  let n ← s.inode.read inodeNum
  let direct ← n.directBlock.write i block
  let inode ← s.inode.write inodeNum { n with directBlock := direct }
  return { s with inode := inode }

/-- `inDirectBMap.indirectBlock[i] = block`. -/
def putIndirect (s : FS) (i : Nat) (block : Int) : Option FS := do
  let map ← s.inDirectBMap.write i block
  return { s with inDirectBMap := map }

/-- The block numbers of a large file: direct below `DIRECT_BLOCK`, in the map
from there on. -/
def largePtr (s : FS) (inodeNum : Int) (ibkMap : InDirectBlockMap) (i : Int) : Option Int :=
  if i < 10 then directPtr s inodeNum i else ibkMap.read (i - 10)

/-- The blocks for `size` bytes. -/
def blocksFor (size : Int) : Int := if size.tmod 512 > 0 then size.tdiv 512 + 1 else size.tdiv 512

/-! ## file_create -/

/-- `tmp` of `file_create`: `size` characters and a null; the rest of the
buffer is never written. -/
def createBuffer (env : Env) (size : Int) : Nat → Byte :=
  randString env.rand (fun i => if (i : Int) < size + 1 then 0 else env.heap i) size

def fileCreateSmallHelper (s : FS) (env : Env) (name : Name) (size : Int) (tmp : Nat → Byte) :
    Option Ret := do
  let inodeNum ← searchCurDir s name
  if inodeNum ≥ 0 then
    return ⟨-1, [.name "File create failed:  %s exist.\n" name.1], s⟩
  else if s.curDir.Full then
    return ⟨-1, [.text "File create failed: directory is full!\n"], s⟩
  else
    let numBlock := blocksFor size
    if numBlock > s.superBlock.freeBlockCount then
      return ⟨-1, [.text "File create failed: not enough space\n"], s⟩
    else if s.superBlock.freeInodeCount < 1 then
      return ⟨-1, [.text "File create failed: not enough inode\n"], s⟩
    else
      let (inodeNum, s) := getFreeInode s
      if inodeNum < 0 then
        return ⟨-1, [.text "File_create error: not enough inode.\n"], s⟩
      else do
        let n ← s.inode.read inodeNum
        let inode ← s.inode.write inodeNum (n.fill env .file size numBlock)
        let s := { s with inode := inode }
        let curDir ← s.curDir.addEntry name inodeNum
        let s := { s with curDir := curDir }
        let (r, s) ← getBlocks (putDirect inodeNum) (chunk tmp) (List.range numBlock.toNat) s
        if r = -1 then
          return ⟨-1, [.text "File_create error: get_free_block failed\n"], s⟩
        else
          return ⟨inodeNum, [], s⟩

def fileCreateLargeHelper (s : FS) (inodeNum : Int) (size : Int) (tmp : Nat → Byte) : Option Ret := do
  let numInBlock := blocksFor size
  if numInBlock + 1 > s.superBlock.freeBlockCount then
    return ⟨-1, [.text "File create failed: not enough space\n"], s⟩
  else
    let (indirect, s) := getFreeBlock s
    if indirect = -1 then
      return ⟨-1, [.text "File_create error: get_free_block failed\n"], s⟩
    else do
      let (r, s) ← getBlocks putIndirect (fun i => chunk tmp (i + 10)) (List.range numInBlock.toNat) s
      if r = -1 then
        return ⟨-1, [.text "File_create error: get_free_block failed\n"], s⟩
      else do
        let n ← s.inode.read inodeNum
        let inode ← s.inode.write inodeNum { n with
          size := n.size + size
          blockCount := n.blockCount + numInBlock
          indirectBlock := indirect }
        let s := { s with inode := inode }
        return ⟨0, diskWriteOut indirect, s.diskWrite indirect (InDirectBlockMap.codec.store 512 s.inDirectBMap)⟩

/-- `file_create`.  A negative size makes `malloc` fail, and the string is
written through the null pointer. -/
def fileCreate (s : FS) (env : Env) (name : Name) (size : Int) : Option Ret :=
  if size ≥ 70656 then
    some ⟨-1, [.text "File create failed:  size over 70,656.\n"], s⟩
  else if size < 0 then none
  else do
    let tmp := createBuffer env size
    if size ≥ 5120 then do
      let small ← fileCreateSmallHelper s env name (5120 - 1) tmp
      if small.value < 0 then return ⟨-1, small.out, small.fs⟩
      else do
        let large ← fileCreateLargeHelper small.fs small.value (size - (5120 - 1)) tmp
        return ⟨0, small.out ++ large.out ++ [.created name.1 small.value size], large.fs⟩
    else do
      let small ← fileCreateSmallHelper s env name size tmp
      return ⟨0, small.out ++ [.created name.1 small.value size], small.fs⟩

/-! ## file_cat -/

/-- `file_cat_helper`: ten direct blocks, then those of the map. -/
def fileCatHelper (s : FS) (inodeNum : Int) : Option Ret := do
  let n ← s.inode.read inodeNum
  let ibkMap := InDirectBlockMap.codec.load (s.diskRead n.indirectBlock fun _ => 0)
  -- a buffer of fewer than ten blocks would overflow
  if n.blockCount < 10 then none
  else do
    let (bs, out) ← readBlocks s (largePtr s inodeNum ibkMap) (loop 0 (n.blockCount - 1)) fun _ => 0
    return ⟨0, diskReadOut n.indirectBlock ++ out ++
      [.contents (strn (flatten bs) (n.blockCount.toNat * 512))], s⟩

def fileCat (s : FS) (env : Env) (name : Name) : Option Ret := do
  let inodeNum ← searchCurDir s name
  if inodeNum < 0 then
    return ⟨-1, [.text "file cat error: file is not exist.\n"], s⟩
  else do
    let n ← s.inode.read inodeNum
    if n.type = .directory then
      return ⟨-1, [.text "file cat error: it is not a file.\n"], s⟩
    else if n.size ≥ 5120 then fileCatHelper s inodeNum
    else if n.blockCount < 0 then none
    else do
      let (bs, out) ← readBlocks s (directPtr s inodeNum) (loop 0 (n.blockCount - 1)) (chunk env.heap 0)
      return ⟨0, out ++ [.contents (strn (flatten bs) (n.blockCount.toNat * 512))], s⟩

/-! ## file_read -/

/-- `file_read_helper`. -/
def fileReadHelper (s : FS) (inodeNum offset size : Int) : Option Ret := do
  let n ← s.inode.read inodeNum
  let ibkMap := InDirectBlockMap.codec.load (s.diskRead n.indirectBlock fun _ => 0)
  let startBlockNo := offset.tdiv 512
  let endBlockNo := (offset + size).tdiv 512
  -- a start behind the direct blocks makes the copies of the map's first blocks underflow the buffer
  if startBlockNo > 10 then none
  else do
    let (bs, out) ← readBlocks s (largePtr s inodeNum ibkMap) (loop startBlockNo endBlockNo) fun _ => 0
    if offset.tmod 512 < 0 ∨ size < 0 then none
    else
      let start := (offset.tmod 512).toNat
      return ⟨0, diskReadOut n.indirectBlock ++ out ++
        [.contents (strn (fun k => flatten bs (start + k)) size.toNat)], s⟩

def fileRead (s : FS) (env : Env) (name : Name) (offset size : Int) : Option Ret := do
  let inodeNum ← searchCurDir s name
  if inodeNum < 0 then
    return ⟨-1, [.text "file read error: file is not exist.\n"], s⟩
  else do
    let n ← s.inode.read inodeNum
    if n.type = .directory then
      return ⟨-1, [.text "file read error: it is not a file.\n"], s⟩
    else
      let startBlockNo := offset.tdiv 512
      let endBlockNo := (offset + size).tdiv 512
      if endBlockNo > 9 then fileReadHelper s inodeNum offset size
      else if endBlockNo - startBlockNo + 1 < 0 then none
      else do
        let (bs, out) ← readBlocks s (directPtr s inodeNum) (loop startBlockNo endBlockNo)
          (chunk env.heap 0)
        if offset.tmod 512 < 0 ∨ size < 0 then none
        else
          let start := (offset.tmod 512).toNat
          return ⟨0, out ++ [.contents (strn (fun k => flatten bs (start + k)) size.toNat)], s⟩

/-! ## file_write -/

/-- `memcpy(p + start, buf, size)`. -/
def overlay (p : Nat → Byte) (start : Nat) (buf : List Byte) (k : Nat) : Byte :=
  if start ≤ k ∧ k < start + buf.length then buf.getD (k - start) 0 else p k

/-- The message of a write: the old and the new string of the range. -/
def wroteOut (p : Nat → Byte) (start : Nat) (buf : List Byte) : Printf :=
  .wrote (strn (fun k => p (start + k)) buf.length)
    (strn (fun k => overlay p start buf (start + k)) buf.length)

/-- `file_write_helper`: the blocks are written back before the new bytes are
copied into the buffer. -/
def fileWriteHelper (s : FS) (inodeNum offset size : Int) (buf : List Byte) : Option Ret := do
  let n ← s.inode.read inodeNum
  let ibkMap := InDirectBlockMap.codec.load (s.diskRead n.indirectBlock fun _ => 0)
  let startBlockNo := offset.tdiv 512
  let endBlockNo := (offset + size).tdiv 512
  if startBlockNo > 10 then none
  else do
    let (bs, out) ← readBlocks s (largePtr s inodeNum ibkMap) (loop startBlockNo endBlockNo) fun _ => 0
    let out := diskReadOut n.indirectBlock ++ out
    if size ≠ buf.length then
      return ⟨-1, out ++ [.text "file write error: The size of input buf does not match input size.\n"], s⟩
    else do
      let nstr := flatten bs
      let (s, out') ← writeBlocks (largePtr s inodeNum ibkMap)
        (fun j => chunk nstr (j - startBlockNo).toNat) (loop startBlockNo endBlockNo) s
      if offset.tmod 512 < 0 then none
      else return ⟨0, out ++ out' ++ [wroteOut nstr (offset.tmod 512).toNat buf], s⟩

def fileWrite (s : FS) (env : Env) (name : Name) (offset size : Int) (buf : List Byte) : Option Ret := do
  let inodeNum ← searchCurDir s name
  if inodeNum < 0 then
    return ⟨-1, [.text "file write error: file is not exist.\n"], s⟩
  else
    let startBlockNo := offset.tdiv 512
    let endBlockNo := (offset + size).tdiv 512
    if endBlockNo > 9 then fileWriteHelper s inodeNum offset size buf
    else if endBlockNo - startBlockNo + 1 < 0 then none
    else do
      let (bs, out) ← readBlocks s (directPtr s inodeNum) (loop startBlockNo endBlockNo)
        (chunk env.heap 0)
      if size ≠ buf.length then
        return ⟨-1, out ++ [.text "file write error: The size of input buf does not match input size.\n"], s⟩
      else if offset.tmod 512 < 0 then none
      else do
        let start := (offset.tmod 512).toNat
        let nstr := overlay (flatten bs) start buf
        let (s, out') ← writeBlocks (directPtr s inodeNum)
          (fun j => chunk nstr (j - startBlockNo).toNat) (loop startBlockNo endBlockNo) s
        return ⟨0, out ++ out' ++ [wroteOut (flatten bs) start buf], s⟩

/-! ## file_remove -/

def fileRemove (s : FS) (name : Name) : Option Ret := do
  let inodeNum ← searchCurDir s name
  if inodeNum < 0 then
    return ⟨-1, [.text "file delete error: file is not exist.\n"], s⟩
  else do
    let n ← s.inode.read inodeNum
    if n.type = .directory then
      return ⟨-1, [.name "file delete error: input name <%s> is a directory.\n" name.1], s⟩
    else do
      let (r, s) ← freeInode s inodeNum
      if r ≠ 0 then
        return ⟨-1, [.text "file delete error: fail to delete inode.\n"], s⟩
      else do
        let ibkMap := InDirectBlockMap.codec.load (s.diskRead n.indirectBlock fun _ => 0)
        let out := diskReadOut n.indirectBlock
        let (r, s) ← freeBlocks ibkMap.read (loop 0 (n.blockCount - 10 - 1)) s
        if r ≠ 0 then
          return ⟨-1, out ++ [.text "file delete error: fail to delete block.\n"], s⟩
        else do
          let (r, s) ← freeBlocks n.directBlock.read (loop 0 (min n.blockCount 10 - 1)) s
          if r ≠ 0 then
            return ⟨-1, out ++ [.text "file delete error: fail to delete block.\n"], s⟩
          else do
            let s ← removeEntry s inodeNum
            return ⟨0, out, s⟩

end OperatingSystem.Fs
