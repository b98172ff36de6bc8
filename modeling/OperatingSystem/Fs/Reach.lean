import OperatingSystem.Fs.Create
import OperatingSystem.Fs.Remove
import OperatingSystem.Fs.Navigate
import OperatingSystem.Fs.Isolation

/-!
# OperatingSystem.Fs.Reach

The states a run of commands reaches.  Three commands can break the invariant: a
`cd` into a directory whose inode is free, an `rmdir` of the root or of the
current directory, and a `write` outside the file it names.  In a run without
these (`SafeStep`) every state satisfies the invariant (`inv_of_safe`).
-/

namespace OperatingSystem.Fs

/-! ## Safe steps -/

/-- The command enters no removed directory, removes neither the root nor the
current directory, and writes only inside the file it names. -/
def SafeStep (s : FS) (line : Line) : Prop :=
  match line.command with
  | .cd name => ∀ i : Fin 512, searchCurDir s name = some (i : Int) → (s.inode i).type = .directory →
      s.live i = true
  | .rmdir name => ∀ i, Target s name .directory i → i ≠ 0 ∧ ¬ s.Current i
  | .write name offset size buf => size = buf.length → StaysInside s name offset buf
  | _ => True

/-- What a safe step can change. -/
inductive Change (s : FS) (command : Command) : FS → Prop
  | same : Change s command s
  | create (h : CreateStep s name i n bs s') : Change s command s'
  | remove (target : Target s name type i) (unlinked : Unlinked s i freed t)
      (named : type = .file → command = .rm name) (h : RemoveStep s i freed s') : Change s command s'
  | write (h : ∀ b, Fixed s b → d b = s.disk b) : Change s command { s with disk := d }
  | enter (current : s.Current c) (live : s.live i = true) (typed : (s.inode i).type = .directory) :
      Change s command ((s.flush c).enter i)

section Step

variable {s s' : FS} {L : Set (Fin 4096)}

theorem fileCatHelper_fs (h : fileCatHelper s inodeNum = some r) : r.fs = s := by
  simp only [fileCatHelper, Option.bind_eq_bind, Option.bind_eq_some_iff] at h
  obtain ⟨n, -, h⟩ := h
  split at h
  · contradiction
  · obtain ⟨p, -, h⟩ := Option.bind_eq_some_iff.mp h
    cases h
    rfl

theorem fileCat_fs (h : fileCat s env name = some r) : r.fs = s := by
  simp only [fileCat, Option.bind_eq_bind, Option.bind_eq_some_iff] at h
  obtain ⟨i, -, h⟩ := h
  split at h
  · cases h
    rfl
  · obtain ⟨n, -, h⟩ := Option.bind_eq_some_iff.mp h
    split at h
    · cases h
      rfl
    · split at h
      · exact fileCatHelper_fs h
      · split at h
        · contradiction
        · obtain ⟨p, -, h⟩ := Option.bind_eq_some_iff.mp h
          cases h
          rfl

theorem fileReadHelper_fs (h : fileReadHelper s inodeNum offset size = some r) : r.fs = s := by
  simp only [fileReadHelper, Option.bind_eq_bind, Option.bind_eq_some_iff] at h
  obtain ⟨n, -, h⟩ := h
  split at h
  · contradiction
  · obtain ⟨p, -, h⟩ := Option.bind_eq_some_iff.mp h
    split at h
    · contradiction
    · cases h
      rfl

theorem fileRead_fs (h : fileRead s env name offset size = some r) : r.fs = s := by
  simp only [fileRead, Option.bind_eq_bind, Option.bind_eq_some_iff] at h
  obtain ⟨i, -, h⟩ := h
  split at h
  · cases h
    rfl
  · obtain ⟨n, -, h⟩ := Option.bind_eq_some_iff.mp h
    split at h
    · cases h
      rfl
    · split at h
      · exact fileReadHelper_fs h
      · split at h
        · contradiction
        · obtain ⟨p, -, h⟩ := Option.bind_eq_some_iff.mp h
          split at h
          · contradiction
          · cases h
            rfl

/-- A data block of a file is no map and no directory's block. -/
theorem IsDataOf.not_fixed (hinv : Inv L s) {b : Fin 4096} (h : IsDataOf s name b) : ¬ Fixed s b := by
  intro hfixed
  obtain ⟨i, -, hlive, htype, hmem⟩ := h
  obtain ⟨k, hk, hne⟩ := ownedBlocks_data htype hmem
  obtain ⟨j, l, hown, hcase⟩ := hfixed.owns hinv
  obtain ⟨rfl, rfl⟩ := hinv.unique i j k l b ⟨hlive, hk⟩ hown
  rcases hcase with ⟨-, -, h10⟩ | ⟨hdir, -⟩
  · exact hne h10
  · exact nomatch htype.symm.trans hdir

/-- A safe write changes the disk only, and there data blocks of the file it
names. -/
theorem fileWrite_isDataOf (hsafe : size = buf.length → StaysInside s name offset buf)
    (h : fileWrite s env name offset size buf = some r) :
    r.fs = { s with disk := r.fs.disk } ∧ ∀ b, r.fs.disk b ≠ s.disk b → IsDataOf s name b := by
  rcases fileWrite_cases h with ⟨-, hfs, -⟩ | ⟨-, hsize, i, hsearch, hi, ⟨-, hfs⟩ | ⟨hsmall, hfs⟩⟩
  · rw [hfs]
    exact ⟨rfl, fun b hne => absurd rfl hne⟩
  · rw [hfs]
    exact ⟨rfl, fun b hne => absurd rfl hne⟩
  · refine ⟨hfs, fun b hne => ?_⟩
    obtain ⟨p, hch, hlast⟩ := (hsmall.changed_iff b).mp hne
    rcases (hsafe hsize).2 i hsearch hi hsmall.end_le p b hch with hdata | ⟨k, hk, hke, hptr⟩
    · exact hdata
    · exact absurd hptr (hlast k hk hke)

theorem fileWrite_change (hinv : Inv L s) (hsafe : size = buf.length → StaysInside s name offset buf)
    (h : fileWrite s env name offset size buf = some r) : Change s command r.fs := by
  obtain ⟨hfs, hdata⟩ := fileWrite_isDataOf hsafe h
  rw [hfs]
  refine .write fun b hfixed => ?_
  by_contra hne
  exact (hdata b hne).not_fixed hinv hfixed

theorem Unlinked.change (hinv : Inv L s) (htarget : Target s name type i) (h : Unlinked s i freed t)
    (hroot : i ≠ 0) (hother : ¬ s.Current i) (hnamed : type = .file → command = .rm name)
    (hrun : (removeEntry t (i : Fin 512)).map (fun s' => (⟨0, out, s'⟩ : Ret)) = some r) :
    Change s command r.fs := by
  obtain ⟨s', hentry, rfl⟩ := Option.map_eq_some_iff.mp hrun
  exact .remove htarget h hnamed (removeStep_of_unlinked hinv htarget hroot hother h hentry)

/-- A file is neither the root nor the current directory. -/
theorem Target.file_ne (hinv : Inv L s) (h : Target s name .file i) : i ≠ 0 ∧ ¬ s.Current i := by
  obtain ⟨c, hcur, -, hctype⟩ := hinv.current
  refine ⟨?_, fun hi => ?_⟩
  · rintro rfl
    exact nomatch h.typed.symm.trans hinv.rootType
  · obtain rfl := hcur.unique hi
    exact nomatch h.typed.symm.trans hctype

/-- **One safe step.** -/
theorem step_change (hinv : Inv L s) (hsafe : SafeStep s line) (h : step s line = some s') :
    Change s line.command s' := by
  obtain ⟨env, command⟩ := line
  obtain ⟨r, hrun, rfl⟩ := Option.map_eq_some_iff.mp h
  obtain ⟨c, hcur, hclive, hctype⟩ := hinv.current
  cases command with
  | create name size =>
      simp only [execute] at hrun
      obtain ⟨r', hrun', hcase⟩ := fileCreate_cases hinv env name (fileCreate_some env hinv.counts hrun).1
      obtain rfl := Option.some.inj (hrun.symm.trans hrun')
      rcases hcase with ⟨-, hfs | ⟨i, n, hfile⟩⟩ | ⟨-, i, n, hfile⟩
      · rw [hfs]
        exact .same
      · obtain ⟨bs, hstep⟩ := hfile.step
        exact .create hstep
      · obtain ⟨bs, hstep⟩ := hfile.step
        exact .create hstep
  | cat name =>
      rw [fileCat_fs hrun]
      exact .same
  | write name offset size buf => exact fileWrite_change hinv hsafe hrun
  | read name offset size =>
      rw [fileRead_fs hrun]
      exact .same
  | rm name =>
      simp only [execute] at hrun
      rcases fileRemove_cases hinv name with ⟨-, out, hrun'⟩ | ⟨i, freed, t, out, htarget, hunlinked, hrun'⟩
      · rw [← Option.some.inj (hrun'.symm.trans hrun)]
        exact .same
      · obtain ⟨hroot, hother⟩ := htarget.file_ne hinv
        exact hunlinked.change hinv htarget hroot hother (fun _ => rfl) (hrun'.symm.trans hrun)
  | mkdir name =>
      simp only [execute] at hrun
      obtain ⟨r', hrun', hcase⟩ := dirMake_cases hinv env name hcur
      obtain rfl := Option.some.inj (hrun.symm.trans hrun')
      rcases hcase with ⟨-, hfs⟩ | ⟨-, i, n, b, hstep, -, -⟩
      · rw [hfs]
        exact .same
      · exact .create hstep
  | rmdir name =>
      simp only [execute] at hrun
      rcases dirRemove_cases hinv name with ⟨-, out, hrun'⟩ | ⟨i, freed, t, out, htarget, hunlinked, hrun'⟩
      · rw [← Option.some.inj (hrun'.symm.trans hrun)]
        exact .same
      · obtain ⟨hroot, hother⟩ := hsafe i htarget
        exact hunlinked.change hinv htarget hroot hother (by simp) (hrun'.symm.trans hrun)
  | cd name =>
      simp only [execute] at hrun
      obtain ⟨r', hrun', hcase⟩ := dirChange_cases hinv hcur name
      obtain rfl := Option.some.inj (hrun.symm.trans hrun')
      rcases hcase with ⟨-, hfs, -⟩ | ⟨-, i, hsearch, htype, hfs⟩
      · rw [hfs, flush_eq]
        exact .write (flush_fixed hinv hcur hclive hctype)
      · rw [hfs]
        exact .enter hcur (hsafe i hsearch htype) htype

/-- The directory of a live inode holds `int`s. -/
theorem dir_fits (hinv : Inv L s) (i : Fin 512) : Dentry.codec.Ok (s.dir i) := by
  by_cases hcur : s.Current i
  · rw [FS.dir_of_current hcur]
    exact hinv.curFits
  · rw [FS.dir_of_not_current hcur]
    exact Codec.load_ok _ _

/-- Entering a live directory after the flush keeps the invariant. -/
theorem Inv.flush_enter (hinv : Inv L s) (hcur : s.Current c) (hlive : s.live i = true)
    (htype : (s.inode i).type = .directory) : Inv L ((s.flush c).enter i) := by
  obtain ⟨c', hcur', hclive, hctype⟩ := hinv.current
  obtain rfl := hcur.unique hcur'
  have hflush := hinv.flush hcur hclive hctype
  exact hflush.enter (flushed_flush hinv hcur hclive hctype) (by rw [flush_live]; exact hlive)
    (by rw [flush_inode]; exact htype) (dir_fits hflush i)

/-- **The step lemma**: a safe step keeps the invariant, and what it loses are
blocks of the inode it removes. -/
theorem Change.inv (hinv : Inv L s) (h : Change s command s') : ∃ L', Inv L' s' := by
  cases h with
  | same => exact ⟨L, hinv⟩
  | create h => exact ⟨L, h.inv hinv⟩
  | remove _ _ _ h => exact ⟨_, h.inv hinv⟩
  | write h => exact ⟨L, hinv.setDisk h⟩
  | enter hcur hlive htype => exact ⟨L, hinv.flush_enter hcur hlive htype⟩

end Step

/-! ## Safe runs -/

theorem live_formatted (env : Env) (i : Fin 512) : (formatted env).live i = true ↔ i = 0 := by
  rw [FS.live, show (formatted env).inodeMap = fun k => if k = 0 then 1 else 0 from rfl, getBit_root, decide_eq_true_iff,
    Nat.lt_one_iff, Fin.ext_iff]
  rfl

theorem used_formatted (env : Env) (b : Fin 4096) : (formatted env).used b = true ↔ (b : Nat) < 132 := by
  rw [FS.used, show (formatted env).blockMap = lowBlocks 15 from rfl,
    getBit_lowBlocks (r := 4) (by decide) (by decide), decide_eq_true_iff]

theorem owns_formatted (env : Env) (i : Fin 512) (k : Nat) (b : Fin 4096) :
    Owns (formatted env) i k b ↔ i = 0 ∧ k = 0 ∧ b = 131 := by
  unfold Owns
  rw [live_formatted]
  constructor
  · rintro ⟨rfl, hk⟩
    have howned : ownedBlocks (formatted env) ((formatted env).inode 0) = [131] := rfl
    rw [howned] at hk
    obtain ⟨hlt, hb⟩ := List.getElem?_eq_some_iff.mp hk
    obtain rfl : k = 0 := by simpa using hlt
    rw [List.getElem_cons_zero] at hb
    exact ⟨rfl, rfl, Fin.ext (by simp; omega)⟩
  · rintro ⟨rfl, rfl, rfl⟩
    exact ⟨rfl, rfl⟩

theorem rootDir_dirOk : DirOk rootDir 0 := by
  have hone : rootDir.numEntry = 1 := rfl
  refine ⟨⟨by omega, fun k hk => ?_, fun k l hk hl _ => Fin.ext (by omega)⟩, by omega, rfl⟩
  obtain rfl : k = 0 := Fin.ext (by simp; omega)
  exact ⟨0, rfl⟩

/-- The fresh file system satisfies the invariant. -/
theorem inv_formatted (env : Env) : Inv ∅ (formatted env) := by
  have hinodes : Bitmap.zeroBits (formatted env).inodeMap = 511 :=
    Bitmap.zeroBits_of_low (by decide) fun i _ => getBit_root i
  have hblocks : Bitmap.zeroBits (formatted env).blockMap = 3964 :=
    Bitmap.zeroBits_of_low (by decide) fun i _ => getBit_lowBlocks (r := 4) (by decide) (by decide) i
  have hnode : ∀ i, i ≠ 0 → (formatted env).inode i = Inode.zero := fun i hi => by
    simp only [formatted, Function.update_of_ne hi]
  have hcur : (formatted env).Current 0 := rfl
  refine ⟨⟨by rw [hinodes]; rfl, by rw [hblocks]; rfl⟩, fun b hb => (used_formatted env b).mpr (by omega),
    fun i => ?_, fun i hl ht => ?_, fun i hl x hx => ?_, fun i j k l b hi hj => ?_, fun b hge hused => ?_,
    fun b hb => absurd hb (Set.notMem_empty b), fun i hl _ => ?_, ⟨0, hcur, (live_formatted env 0).mpr rfl, rfl⟩,
    ?_, fun k => (by decide : Codec.Fits 0), (live_formatted env 0).mpr rfl, rfl, rfl, rfl⟩
  · by_cases hi : i = 0
    · subst hi
      refine ⟨show Codec.Fits 0 by decide, show Codec.Fits 0 by decide, show Codec.Fits 1 by decide,
        show Codec.Fits 1 by decide, fun k => ?_, ⟨0, rfl⟩⟩
      by_cases hk : k = 0
      · subst hk
        exact ⟨131, rfl⟩
      · refine ⟨0, ?_⟩
        simp only [formatted, rootInode, Function.update_self, Function.update_of_ne hk]
        rfl
    · rw [hnode i hi]
      exact ⟨show Codec.Fits 0 by decide, show Codec.Fits 0 by decide, show Codec.Fits 0 by decide,
        show Codec.Fits 0 by decide, fun _ => ⟨0, rfl⟩, ⟨0, rfl⟩⟩
  · obtain rfl := (live_formatted env i).mp hl
    exact nomatch ht
  · obtain rfl := (live_formatted env i).mp hl
    have howned : ownedBlocks (formatted env) ((formatted env).inode 0) = [131] := rfl
    rw [howned, List.mem_singleton] at hx
    exact ⟨131, hx, by decide, (used_formatted env 131).mpr (by decide), Set.notMem_empty _⟩
  · obtain ⟨rfl, rfl, -⟩ := (owns_formatted env i k b).mp hi
    obtain ⟨rfl, rfl, -⟩ := (owns_formatted env j l b).mp hj
    exact ⟨rfl, rfl⟩
  · have hlt := (used_formatted env b).mp hused
    exact Or.inr ⟨0, 0, (owns_formatted env 0 0 b).mpr ⟨rfl, rfl, Fin.ext (by simp; omega)⟩⟩
  · obtain rfl := (live_formatted env i).mp hl
    rw [FS.dir_of_current hcur]
    exact rootDir_dirOk
  · rw [Dentry.ok_iff]
    refine ⟨show Codec.Fits 1 by decide, fun k => ?_⟩
    have hzero : ((formatted env).curDir.dentry k).inode = 0 := by
      by_cases hk : k = 0
      · subst hk
        rfl
      · simp only [formatted, rootDir, Function.update_of_ne hk]
    rw [hzero]
    decide

/-- **The run lemma**: every state a safe run reaches satisfies the invariant. -/
theorem inv_of_safe (hmount : fsMount env none = some s₀) (hsafe : Run.Along step SafeStep s₀ lines)
    (h : Run.exec step s₀ lines = some s) : ∃ L, Inv L s := by
  rw [fsMount_none, Option.some.injEq] at hmount
  subst hmount
  exact Run.exec_along (fun s => ∃ L, Inv L s)
    (fun s line s' ⟨L, hinv⟩ hsafe hstep => (step_change hinv hsafe hstep).inv hinv) lines
    ⟨∅, inv_formatted env⟩ hsafe h

end OperatingSystem.Fs
