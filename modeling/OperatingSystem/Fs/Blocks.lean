import OperatingSystem.Fs.Format
import Mathlib.Data.List.FinRange

/-!
# OperatingSystem.Fs.Blocks

The blocks an inode owns.  A file's data blocks are its first `blockCount`
blocks, ten direct ones and then those its indirect map lists; a file of more
than ten blocks owns the block of the map too.  A directory owns one block.
-/

namespace OperatingSystem.Fs

/-- The direct data blocks of a file. -/
def directBlocks (n : Inode) : List Int := ((List.finRange 10).take n.blockCount.toNat).map n.directBlock

/-- The indirect map of an inode, as it is on disk. -/
def mapOf (s : FS) (n : Inode) : InDirectBlockMap :=
  InDirectBlockMap.codec.load (s.diskRead n.indirectBlock fun _ => 0)

/-- The data blocks a file reaches through its map. -/
def mappedBlocks (s : FS) (n : Inode) : List Int :=
  ((List.finRange 128).take (n.blockCount - 10).toNat).map (mapOf s n)

/-- The data blocks of a file, in order. -/
def dataBlocks (s : FS) (n : Inode) : List Int := directBlocks n ++ mappedBlocks s n

/-- The blocks an inode owns. -/
def ownedBlocks (s : FS) (n : Inode) : List Int :=
  match n.type with
  | .directory => [n.directBlock 0]
  | .file => directBlocks n ++ if n.blockCount > 10 then n.indirectBlock :: mappedBlocks s n else []

/-- `b` is a data block of the regular file called `name`. -/
def IsDataOf (s : FS) (name : Name) (b : Fin 4096) : Prop :=
  ∃ i : Fin 512, searchCurDir s name = some (i : Int) ∧ s.live i = true ∧ (s.inode i).type = .file ∧
    (b : Int) ∈ dataBlocks s (s.inode i)

end OperatingSystem.Fs
