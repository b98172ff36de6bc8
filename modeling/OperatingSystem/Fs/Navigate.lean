import OperatingSystem.Fs.Preserve
import OperatingSystem.Fs.Write

/-!
# OperatingSystem.Fs.Navigate

What `dir_change` does in a state that satisfies the invariant: it stores the
current directory in its block (`flush`), and if the name is that of a
directory reads this one into memory (`enter`).  Neither changes the entries of
any directory.
-/

namespace OperatingSystem.Fs

/-- The current directory, inode `c`, is stored in its block. -/
def FS.flush (s : FS) (c : Fin 512) : FS :=
  s.diskWrite ((s.inode c).directBlock 0) (Dentry.codec.store 512 s.curDir)

@[simp] theorem flush_inode (s : FS) (c : Fin 512) : (s.flush c).inode = s.inode := by
  unfold FS.flush
  exact diskWrite_inode _ _ _

@[simp] theorem flush_curDir (s : FS) (c : Fin 512) : (s.flush c).curDir = s.curDir := by
  unfold FS.flush
  exact diskWrite_curDir _ _ _

@[simp] theorem flush_superBlock (s : FS) (c : Fin 512) : (s.flush c).superBlock = s.superBlock := by
  unfold FS.flush
  exact diskWrite_superBlock _ _ _

@[simp] theorem flush_live (s : FS) (c i : Fin 512) : (s.flush c).live i = s.live i := by
  unfold FS.flush FS.live
  rw [diskWrite_inodeMap]

section Flush

variable {s : FS} {L : Set (Fin 4096)} {c : Fin 512}

theorem Fixed.owns (hinv : Inv L s) {b : Fin 4096} (h : Fixed s b) :
    ∃ i k, Owns s i k b ∧ (((s.inode i).type = .file ∧ 10 < (s.inode i).blockCount ∧ k = 10) ∨
      ((s.inode i).type = .directory ∧ ¬ s.Current i)) := by
  obtain ⟨i, hlive, ⟨htype, hc, hb⟩ | ⟨htype, hcur, hb⟩⟩ := h
  · exact ⟨i, 10, owns_indirect hlive htype hc hb, Or.inl ⟨htype, hc, rfl⟩⟩
  · obtain ⟨b', hb', hown⟩ := hinv.dirBlock hlive htype
    obtain rfl : b = b' := Fin.ext (by omega)
    exact ⟨i, 0, hown, Or.inr ⟨htype, hcur⟩⟩

/-- The block of the current directory is no other inode's. -/
theorem flush_disk_other (hinv : Inv L s) (hlive : s.live c = true) (htype : (s.inode c).type = .directory)
    {b : Fin 4096} (hown : Owns s i k b) (hic : i ≠ c) : (s.flush c).disk b = s.disk b := by
  obtain ⟨b', hb', hown'⟩ := hinv.dirBlock hlive htype
  have hne : ¬ ((b' : Nat) : Int) = b := fun heq => by
    obtain rfl : b' = b := Fin.ext (by omega)
    exact hic (hinv.unique i c k 0 b' hown hown').1
  rw [FS.flush, diskWrite_disk, hb', if_neg hne]

/-- The block of the current directory is no other directory's and no map. -/
theorem flush_fixed (hinv : Inv L s) (hcur : s.Current c) (hlive : s.live c = true)
    (htype : (s.inode c).type = .directory) : ∀ b, Fixed s b → (s.flush c).disk b = s.disk b := by
  intro b hb
  obtain ⟨i, k, hown, hcase⟩ := hb.owns hinv
  refine flush_disk_other hinv hlive htype hown ?_
  rintro rfl
  rcases hcase with ⟨hfile, -⟩ | ⟨-, hnot⟩
  · exact nomatch hfile.symm.trans htype
  · exact hnot hcur

theorem flush_eq (s : FS) (c : Fin 512) : s.flush c = { s with disk := (s.flush c).disk } := by
  unfold FS.flush FS.diskWrite
  rfl

theorem Inv.flush (hinv : Inv L s) (hcur : s.Current c) (hlive : s.live c = true)
    (htype : (s.inode c).type = .directory) : Inv L (s.flush c) := by
  rw [flush_eq]
  exact hinv.setDisk (flush_fixed hinv hcur hlive htype)

theorem dir_flush (hinv : Inv L s) (hcur : s.Current c) (hlive : s.live c = true)
    (htype : (s.inode c).type = .directory) (hi : s.live i = true) (hitype : (s.inode i).type = .directory) :
    (s.flush c).dir i = s.dir i := by
  rw [flush_eq]
  exact dir_setDisk hinv (flush_fixed hinv hcur hlive htype) hi hitype

/-- After the flush the block holds the directory in memory. -/
theorem flushed_flush (hinv : Inv L s) (hcur : s.Current c) (hlive : s.live c = true)
    (htype : (s.inode c).type = .directory) : Flushed (s.flush c) := by
  intro i hi
  have hi : s.Current i := by
    unfold FS.Current at hi
    rw [flush_curDir] at hi
    exact hi
  obtain rfl := hcur.unique hi
  obtain ⟨b, hb, -⟩ := hinv.dirBlock hlive htype
  have hload : Dentry.codec.load (Dentry.codec.store 512 s.curDir) = s.curDir :=
    Codec.load_store _ (show 4 + (25 * (16 + 4) + 8) ≤ 512 by decide) hinv.curFits
  have hdisk : (s.flush c).disk b = Dentry.codec.store 512 s.curDir := by
    rw [FS.flush, diskWrite_disk, hb, if_pos rfl]
  unfold FS.stored
  rw [flush_inode, flush_curDir, hb, diskRead_fin, hdisk, hload]

/-- What `dir_change` returns, prints and leaves: the current directory is stored, and
if the name is that of a directory, this one is entered. -/
inductive ChangeOutcome (s : FS) (c : Fin 512) (name : Name) : Ret → Prop
  | absent (search : searchCurDir s name = some (-1)) :
      ChangeOutcome s c name ⟨-1, [.name "Directory change failed:  %s not exist.\n" name.1], s.flush c⟩
  | mistyped {i : Fin 512} (search : searchCurDir s name = some (i : Int)) (type : (s.inode i).type = .file) :
      ChangeOutcome s c name
        ⟨-1, [.name "Directory change error: input name <%s> is a file not a directory.\n" name.1], s.flush c⟩
  | entered {i : Fin 512} (search : searchCurDir s name = some (i : Int)) (type : (s.inode i).type = .directory) :
      ChangeOutcome s c name ⟨0, [], (s.flush c).enter i⟩

/-- **What `dir_change` does**: one of its outcomes. -/
theorem dirChange_outcome (hinv : Inv L s) (hcur : s.Current c) (name : Name) :
    ∃ r, dirChange s name = some r ∧ ChangeOutcome s c name r := by
  obtain ⟨c', hcur', hlive, htype⟩ := hinv.current
  obtain rfl := hcur.unique hcur'
  have hd := hinv.curDir hcur hlive htype
  have hread : s.inode.read (s.curDir.dentry 0).inode = some (s.inode c) := by
    rw [show (s.curDir.dentry 0).inode = c from hcur]
    exact Arr.read_fin _ c
  have hsame : searchCurDir (s.flush c) name = searchCurDir s name := by
    rw [searchCurDir, flush_curDir, searchCurDir]
  have hsilent : diskWriteOut ((s.inode c).directBlock 0) = [] := by
    obtain ⟨b, hb⟩ := (hinv.inodes c).direct 0
    rw [hb, diskWriteOut_fin]
  unfold dirChange
  rw [hread, Option.bind_eq_bind, Option.bind_some]
  dsimp only
  rw [show s.diskWrite ((s.inode c).directBlock 0) (Dentry.codec.store 512 s.curDir) = s.flush c from rfl, hsame, hsilent]
  obtain ⟨k, -, -, i, -, hsearch⟩ | ⟨-, hsearch⟩ := searchCurDir_cases hd.toTable name
  swap
  · rw [lookup_absent hsearch]
    exact ⟨_, rfl, .absent hsearch⟩
  have hneg : ¬ ((i : Nat) : Int) < 0 := by omega
  have hnode : (s.flush c).inode.read i = some (s.inode i) := by
    rw [flush_inode]
    exact Arr.read_fin _ i
  rw [hsearch, Option.bind_eq_bind, Option.bind_some, if_neg hneg, hnode, Option.bind_some]
  cases hitype : (s.inode i).type with
  | file =>
      rw [if_pos rfl]
      exact ⟨_, rfl, .mistyped hsearch hitype⟩
  | directory =>
      have hdir := FS.dir_eq_stored (flushed_flush hinv hcur hlive htype) i
      obtain ⟨b, hb⟩ := (hinv.inodes i).direct 0
      have hload : (s.flush c).dir i = Dentry.codec.load ((s.flush c).disk b) := by
        rw [hdir, FS.stored, flush_inode, hb, diskRead_fin]
      have hentered : ChangeOutcome s c name ⟨0, [], (s.flush c).enter i⟩ := .entered hsearch hitype
      rw [FS.enter, hload] at hentered
      rw [if_neg (by decide), hb, diskReadOut_fin, diskRead_fin]
      exact ⟨_, rfl, hentered⟩

theorem dirChange_cases (hinv : Inv L s) (hcur : s.Current c) (name : Name) :
    ∃ r, dirChange s name = some r ∧
      ((r.value = -1 ∧ r.fs = s.flush c ∧
        ∀ i : Fin 512, searchCurDir s name = some (i : Int) → (s.inode i).type = .file) ∨
      (r.value = 0 ∧ ∃ i : Fin 512, searchCurDir s name = some (i : Int) ∧ (s.inode i).type = .directory ∧
        r.fs = (s.flush c).enter i)) := by
  obtain ⟨r, hrun, houtcome⟩ := dirChange_outcome hinv hcur name
  refine ⟨r, hrun, ?_⟩
  cases houtcome with
  | absent search =>
      refine Or.inl ⟨rfl, rfl, fun i hi => ?_⟩
      have heq := Option.some.inj (search.symm.trans hi)
      omega
  | @mistyped i search type =>
      refine Or.inl ⟨rfl, rfl, fun j hj => ?_⟩
      have heq := Option.some.inj (search.symm.trans hj)
      obtain rfl : i = j := Fin.ext (by omega)
      exact type
  | entered search type => exact Or.inr ⟨rfl, _, search, type, rfl⟩

/-- `dir_change` takes no block and gives none back. -/
theorem ChangeOutcome.superBlock (h : ChangeOutcome s c name r) : r.fs.superBlock = s.superBlock := by
  cases h with
  | entered => rw [FS.enter, flush_superBlock]
  | _ => exact flush_superBlock s c

end Flush

end OperatingSystem.Fs
