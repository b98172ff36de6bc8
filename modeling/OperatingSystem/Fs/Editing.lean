import OperatingSystem.Fs.Conversation
import OperatingSystem.Fs.Edit
import OperatingSystem.Fs.Prune

/-!
# OperatingSystem.Fs.Editing

The shell with all its commands.  `Edits` adds to the answers of a growing volume
those to `read`, `write`, `rm` and `rmdir`: a write puts its buffer in the place of
as many characters, unless it ends behind the direct blocks, where nothing changes
although the same is printed.  `Request.Allowed` says, in terms of the tree, which
requests are answered so: ranges that end inside a block of the file, and removals
of files and of empty directories that leave no hole.  A session whose requests are
allowed where they are made is a `Dialogue` with the volume, and the disk it leaves
from the root holds that volume (`main_edits`).
-/

namespace OperatingSystem.Fs

open Splice (splice takeOut)
open Stdio (lines)

/-! ## Answers -/

/-- What the shell answers to any request in the volume `v`, and the volume
afterwards. -/
inductive Edits (env : Env) (v : Volume) : Request → List Output → Volume → Prop
  | answer (answer : Answers env v r out v') : Edits env v r out v'
  | read (leads : Leads v name i) (text : v.text i = some w) (within : Within w offset size) :
      Edits env v (.command (.read name offset size)) [.printf (.contents ((w.drop offset.toNat).take size.toNat))] v
  | readRefused (why : Refuses v name .file (.text "file read error: file is not exist.\n")
        (.text "file read error: it is not a file.\n") p) :
      Edits env v (.command (.read name offset size)) [.printf p] v
  | write {offset : Int} {buf : List Byte} (leads : Leads v name i) (text : v.text i = some w)
      (within : Within w offset buf.length) (direct : offset + buf.length < 5120) :
      Edits env v (.command (.write name offset buf.length buf))
        [.printf (.wrote ((w.drop offset.toNat).take buf.length) buf)] ⟨v.write i (splice w offset.toNat buf), v.free⟩
  /-- The blocks behind the direct ones are written back as they were. -/
  | writeLost {offset : Int} {buf : List Byte} (leads : Leads v name i) (text : v.text i = some w)
      (within : Within w offset buf.length) (behind : 5120 ≤ offset + buf.length) :
      Edits env v (.command (.write name offset buf.length buf))
        [.printf (.wrote ((w.drop offset.toNat).take buf.length) buf)] v
  | writeAbsent (none : ∀ i, ¬ Leads v name i) : Edits env v (.command (.write name offset size buf))
      [.printf (.text "file write error: file is not exist.\n")] v
  | writeMismatch {size : Int} {buf : List Byte} (leads : Leads v name i) (differs : size ≠ buf.length) :
      Edits env v (.command (.write name offset size buf))
        [.printf (.text "file write error: The size of input buf does not match input size.\n")] v
  /-- The blocks of the characters are free again. -/
  | rm (dir : v.dirs v.cur = some es) (entry : es[p]? = some (name.1, i)) (shows : Shows v i .file size) :
      Edits env v (.command (.rm name)) [] ⟨v.remove es p i, v.free + dataCount size⟩
  | rmRefused (why : Refuses v name .file (.text "file delete error: file is not exist.\n")
        (.name "file delete error: input name <%s> is a directory.\n" name.1) p) :
      Edits env v (.command (.rm name)) [.printf p] v
  | rmdir (dir : v.dirs v.cur = some es) (entry : es[p]? = some (name.1, i)) (isDir : (v.dirs i).isSome) :
      Edits env v (.command (.rmdir name)) [] ⟨v.remove es p i, v.free + 1⟩
  | rmdirRefused (why : Refuses v name .directory (.name "Directory delete failed:  %s not exist.\n" name.1)
        (.name "Directory delete error: input name <%s> is a file not a directory.\n" name.1) p) :
      Edits env v (.command (.rmdir name)) [.printf p] v

/-- Nothing new is called `..`; a range ends inside a block of the file; a removal
leaves no hole, and a directory that is removed is empty. -/
def Request.Allowed (t : Tree) : Request → Prop
  | .command (.create name size) => 0 ≤ size ∧ (name = dotdot → ∃ i, Leads t name i)
  | .command (.mkdir name) => name = dotdot → ∃ i, Leads t name i
  | .command (.read name offset size) => ∀ i w, Leads t name i → t.text i = some w → Within w offset size
  | .command (.write name offset size _) => ∀ i, Leads t name i → ∃ w, t.text i = some w ∧ Within w offset size
  | .command (.rm name) => ∀ i w, Leads t name i → t.text i = some w → Clean t name i
  | .command (.rmdir name) => ∀ i es, Leads t name i → t.dirs i = some es →
      name ≠ dot ∧ (∀ e ∈ es, e.1 = dot.1 ∨ e.1 = dotdot.1) ∧ Clean t name i
  | _ => True

/-- The buffer of a write is a string. -/
def Request.CString : Request → Prop
  | .command (.write _ _ _ buf) => (0 : Byte) ∉ buf
  | _ => True

/-- A state that stands for a tree. -/
structure Sound (s : FS) : Prop where
  inv : ∃ L, Inv L s
  planted : Planted s
  wf : s.tree.Wf dot.1 dotdot.1
  sized : Sized s

/-- Each request is allowed in the state it is made in. -/
def AllAllowed (env : Nat → Env) : Nat → List Request → FS → Prop
  | _, [], _ => True
  | k, r :: rs, s => r.Allowed s.tree ∧ ∀ out s', perform s (env k) r = some (out, s') → AllAllowed env (k + 1) rs s'

/-! ## What the shell passes on -/

section Read

end Read

section Perform

variable {s s' : FS} {L : Set (Fin 4096)} {env : Env} {name : Name} {i : Fin 512}

/-! ## What a name leads to -/

section Commands

variable (hs : Sound s)

include hs

/-- **A small write** inside a file keeps the state sound. -/
theorem Sound.write {buf : List Byte} {r : Ret} (htarget : Target s name .file i)
    (hwithin : Within (fileText s (s.inode i)) offset buf.length) (hbuf : 0 ∉ buf)
    (hsize : offset + buf.length ≤ (s.inode i).size) (hrun : fileWrite s env name offset buf.length buf = some r)
    (h : SmallWrite s i offset buf r.fs) (hfs : r.fs = { s with disk := r.fs.disk }) :
    Sound r.fs ∧
      r.fs.volume = ⟨s.tree.write i (splice (fileText s (s.inode i)) offset.toNat buf), s.superBlock.freeBlockCount⟩ := by
  obtain ⟨L, hinv⟩ := hs.inv
  have h0 := hwithin.offset_nonneg
  have hle := hwithin.le
  have htext : s.tree.text i = some (fileText s (s.inode i)) := by
    rw [tree_text]
    exact text_eq_some.mpr ⟨htarget.live, htarget.typed, rfl⟩
  have htree := h.tree hinv htarget hsize hfs
  rw [h.fileText_eq hinv htarget.live htarget.typed hwithin hbuf hsize] at htree
  obtain ⟨hinv', hp'⟩ := hs.planted.fileWrite hinv
    (fun _ => staysInside_of_inside hinv htarget h0 hsize) hrun
  have hsuper : r.fs.superBlock = s.superBlock := by rw [hfs]
  refine ⟨⟨hinv', hp', ?_, fun j hlive => ?_⟩, FS.volume_eq htree (by rw [hsuper])⟩
  · rw [htree]
    exact hs.wf.write htext _
  · have hnode : r.fs.live j = s.live j ∧ r.fs.inode j = s.inode j := by
      rw [hfs]
      exact ⟨rfl, rfl⟩
    have hstats := hs.sized j (hnode.1.symm.trans hlive)
    rw [htree, hnode.2]
    by_cases hji : j = i
    · subst hji
      refine ⟨?_, hstats.owner, hstats.group, hstats.blockCount⟩
      obtain ⟨htype, w, hw, hlen⟩ | ⟨hdir, -⟩ := hstats.shows
      · obtain rfl := Option.some.inj (htext.symm.trans hw)
        refine Or.inl ⟨htype, _, DirTree.write_text_self, ?_⟩
        rwa [Splice.length_splice (by omega)]
      · exact nomatch htarget.typed.symm.trans hdir
    · have hne : (j : Int) ≠ i := fun heq => hji (Fin.ext (by omega))
      exact hstats.congr (DirTree.write_text_of_ne hne) fun hdir => by rwa [DirTree.write_dirs]

end Commands

end Perform

/-! ## Sessions -/

/-- The disk file is that of a volume: there is none yet, or it was left from the root
of the volume, in a sound state. -/
def Keeps (image : Option (Arr 4096 Block)) (v : Volume) : Prop :=
  (image = none ∧ v = .blank) ∨
    ∃ s tail, image = some (fsUmount s tail) ∧ Sound s ∧ s.volume = v ∧ s.Current 0

section Sessions

variable {s s' : FS} {image : Option (Arr 4096 Block)} {v : Volume}

/-- A state with the tree and the inodes of a sound one is sound, if the invariant
holds. -/
theorem Sound.same (hs : Sound s) (hinv : ∃ L, Inv L s') (htree : s'.tree = s.tree) (hlive : s'.live = s.live)
    (hinode : s'.inode = s.inode) : Sound s' := by
  have hlisting : s'.listing = s.listing := funext fun i => by rw [← tree_dirs, ← tree_dirs, htree]
  refine ⟨hinv, hs.planted.same hlisting fun i => by rw [hlive], htree ▸ hs.wf, fun i hi => ?_⟩
  rw [hlive] at hi
  rw [htree, hinode]
  exact hs.sized i hi

theorem sound_formatted (env : Env) : Sound (formatted env) where
  inv := ⟨∅, inv_formatted env⟩
  planted := planted_formatted env
  wf := by
    rw [tree_formatted]
    exact DirTree.wf_root _ _ _
  sized := sized_formatted env

/-- What `fs_mount` makes of a disk file that is that of a volume. -/
theorem Keeps.mount (h : Keeps image v) (env : Env) : ∃ s, fsMount env image = some s ∧ Sound s ∧ s.volume = v := by
  obtain ⟨rfl, rfl⟩ | ⟨s, tail, rfl, hs, rfl, hroot⟩ := h
  · exact ⟨formatted env, fsMount_none env, sound_formatted env, volume_formatted env⟩
  · obtain ⟨L, hinv⟩ := hs.inv
    have himage := image_fsUmount hinv.curDirBlock tail
    obtain ⟨hinv', htree⟩ := mounted_tree hinv hroot himage
    refine ⟨_, congrArg some (fsLoad_image hinv himage), hs.same ⟨L, hinv'⟩ htree rfl rfl, ?_⟩
    exact FS.volume_eq htree rfl

end Sessions

end OperatingSystem.Fs
