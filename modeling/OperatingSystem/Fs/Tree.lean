import OperatingSystem.Fs.Contents
import OperatingSystem.Fs.Persist
import OperatingSystem.Lib.Tree

/-!
# OperatingSystem.Fs.Tree

The file system as a tree of directories.  A state stands for a tree
(`FS.tree`): the directory in memory is the current one, the others are read
from their blocks, files are the strings `cat` prints.  `create`, `mkdir`, `cd`
and `cat` are steps of that tree (`step_simulates`), so what holds of trees
holds of every run of these commands (`behavesAsTree_of_run`).
-/

namespace OperatingSystem.Fs

/-! ## Abstraction -/

/-- A property of inodes, at an inode number. -/
def atInode (f : Arr 512 (Option α)) (x : Int) : Option α := (f.read x).join

@[simp] theorem atInode_fin (f : Arr 512 (Option α)) (i : Fin 512) : atInode f i = f i := by
  rw [atInode, Arr.read_fin]
  rfl

theorem atInode_of_out (f : Arr 512 (Option α)) {x : Int} (h : ¬ (0 ≤ x ∧ x < (512 : Nat))) : atInode f x = none := by
  rw [atInode, Arr.read, dif_neg h]
  rfl

theorem atInode_update (f : Arr 512 (Option α)) (i : Fin 512) (v : Option α) :
    atInode (Function.update f i v) = Function.update (atInode f) (i : Int) v := by
  funext x
  by_cases hx : 0 ≤ x ∧ x < 512
  · obtain ⟨j, rfl⟩ : ∃ j : Fin 512, x = j := Arr.exists_fin (by omega) (by omega)
    by_cases hji : j = i
    · subst hji
      rw [atInode_fin, Function.update_self, Function.update_self]
    · have hne : (j : Int) ≠ i := fun h => hji (Fin.ext (by omega))
      rw [atInode_fin, Function.update_of_ne hji, Function.update_of_ne hne, atInode_fin]
  · have hne : x ≠ i := by omega
    have hx' : ¬ (0 ≤ x ∧ x < (512 : Nat)) := by simpa using hx
    rw [Function.update_of_ne hne, atInode, atInode, Arr.read, Arr.read, dif_neg hx', dif_neg hx']

/-- The entries of an inode, if it is a directory in use. -/
def FS.listing (s : FS) (i : Fin 512) : Option (List (List Byte × Int)) :=
  if s.live i = true ∧ (s.inode i).type = .directory then some (entries (s.dir i)) else none

/-- The string in an inode, if it is a file in use. -/
def FS.text (s : FS) (i : Fin 512) : Option (List Byte) :=
  if s.live i = true ∧ (s.inode i).type = .file then some (fileText s (s.inode i)) else none

/-- **Abstraction**: the tree a state stands for. -/
def FS.tree (s : FS) : DirTree Int (List Byte) Byte where
  cur := (s.curDir.dentry 0).inode
  dirs := atInode s.listing
  text := atInode s.text

@[simp] theorem tree_dirs (s : FS) (i : Fin 512) : s.tree.dirs i = s.listing i := by
  have h : s.tree.dirs = atInode s.listing := rfl
  rw [h, atInode_fin]

@[simp] theorem tree_text (s : FS) (i : Fin 512) : s.tree.text i = s.text i := by
  have h : s.tree.text = atInode s.text := rfl
  rw [h, atInode_fin]

/-- The commands that only add to the tree or move in it. -/
def Line.Grows (line : Line) : Prop :=
  match line.command with
  | .create _ size => 0 ≤ size
  | .mkdir _ | .cd _ | .cat _ => True
  | _ => False

/-- What a command asks of the tree. -/
def Line.action (line : Line) : DirTree.Action (List Byte) Byte :=
  match line.command with
  | .create name size => .create name.1 (randChars line.env.rand size)
  | .mkdir name => .mkdir name.1
  | .cd name => .enter name.1
  | _ => .look

section Tree

variable {s s' : FS} {L : Set (Fin 4096)} {i j c : Fin 512}

theorem listing_eq_some : s.listing i = some es ↔
    s.live i = true ∧ (s.inode i).type = .directory ∧ entries (s.dir i) = es := by
  unfold FS.listing
  split
  · next h => simp [h]
  · next h =>
      simp only [reduceCtorEq, false_iff]
      exact fun ⟨hlive, htype, _⟩ => h ⟨hlive, htype⟩

theorem text_eq_some : s.text i = some w ↔
    s.live i = true ∧ (s.inode i).type = .file ∧ fileText s (s.inode i) = w := by
  unfold FS.text
  split
  · next h => simp [h]
  · next h =>
      simp only [reduceCtorEq, false_iff]
      exact fun ⟨hlive, htype, _⟩ => h ⟨hlive, htype⟩

theorem listing_congr (hlive : s'.live i = s.live i) (htype : (s'.inode i).type = (s.inode i).type)
    (hdir : s.live i = true → (s.inode i).type = .directory → s'.dir i = s.dir i) :
    s'.listing i = s.listing i := by
  rw [FS.listing, FS.listing, hlive, htype]
  split
  · next h => rw [hdir h.1 h.2]
  · rfl

theorem text_congr (hlive : s'.live i = s.live i) (hinode : s'.inode i = s.inode i)
    (htext : s.live i = true → (s.inode i).type = .file → fileText s' (s.inode i) = fileText s (s.inode i)) :
    s'.text i = s.text i := by
  rw [FS.text, FS.text, hlive, hinode]
  split
  · next h => rw [htext h.1 h.2]
  · rfl

/-- The free nodes are the free inodes. -/
theorem fresh_iff : s.tree.Fresh i ↔ s.live i = false := by
  constructor
  · rintro ⟨hdir, htext⟩
    rw [tree_dirs] at hdir
    rw [tree_text] at htext
    rw [← Bool.not_eq_true]
    intro hlive
    cases htype : (s.inode i).type with
    | file => exact nomatch htext.symm.trans (text_eq_some.mpr ⟨hlive, htype, rfl⟩)
    | directory => exact nomatch hdir.symm.trans (listing_eq_some.mpr ⟨hlive, htype, rfl⟩)
  · intro hfree
    exact ⟨by simp [FS.listing, hfree], by simp [FS.text, hfree]⟩

/-- A node of the tree is an inode. -/
theorem exists_inode {x : Int} (h : ¬ s.tree.Fresh x) : ∃ i : Fin 512, x = i := by
  by_contra hnone
  have hout : ¬ (0 ≤ x ∧ x < (512 : Nat)) := fun hx => hnone (Arr.exists_fin hx.1 (by omega))
  exact h ⟨atInode_of_out _ hout, atInode_of_out _ hout⟩

theorem tree_cur (hcur : s.Current c) : s.tree.cur = c := hcur

/-- The current directory is listed from memory. -/
theorem Inv.listing_current (hinv : Inv L s) (hcur : s.Current c) : s.listing c = some (entries s.curDir) := by
  obtain ⟨c', hcur', hlive, htype⟩ := hinv.current
  obtain rfl := hcur.unique hcur'
  exact listing_eq_some.mpr ⟨hlive, htype, by rw [FS.dir_of_current hcur]⟩

/-- The search finds what is listed. -/
theorem Inv.search_iff (hinv : Inv L s) :
    searchCurDir s name = some (i : Int) ↔ (name.1, (i : Int)) ∈ entries s.curDir := by
  obtain ⟨c, hcur, hlive, htype⟩ := hinv.current
  exact searchCurDir_iff (hinv.curDir hcur hlive htype).toTable

theorem tree_dirs_cur (hinv : Inv L s) : s.tree.dirs s.tree.cur = some (entries s.curDir) := by
  obtain ⟨c, hcur, -⟩ := hinv.current
  calc s.tree.dirs s.tree.cur = s.tree.dirs c := congrArg s.tree.dirs hcur
    _ = s.listing c := tree_dirs s c
    _ = some (entries s.curDir) := hinv.listing_current hcur

/-! ## Creating -/

theorem CreateStep.live_other (h : CreateStep s name i n bs s') (hji : j ≠ i) : s'.live j = s.live j := by
  rw [Bool.eq_iff_iff, h.live, or_iff_right hji]

/-- The name is new in the current directory. -/
theorem CreateStep.new_name (h : CreateStep s name i n bs s') : name.1 ∉ (entries s.curDir).map Prod.fst := by
  intro hmem
  obtain ⟨⟨x, y⟩, hxy, hx⟩ := List.mem_map.mp hmem
  obtain ⟨k, hk, hname, -⟩ := mem_entries.mp hxy
  exact h.new k hk (hname.trans hx)

section Create

variable (hinv : Inv L s) (h : CreateStep s name i n bs s')

include hinv h

theorem CreateStep.ne_current (hcur : s.Current c) : c ≠ i := by
  obtain ⟨c', hcur', hlive, -⟩ := hinv.current
  obtain rfl := hcur.unique hcur'
  rintro rfl
  exact nomatch h.free.symm.trans hlive

theorem CreateStep.listing_other (hji : j ≠ i) (hjc : ¬ s.Current j) : s'.listing j = s.listing j := by
  have hinode : s'.inode j = s.inode j := by rw [h.inode, Function.update_of_ne hji]
  exact listing_congr (h.live_other hji) (by rw [hinode]) fun hlive htype => h.dir_other hinv hji hlive htype hjc

theorem CreateStep.listing_current (hcur : s.Current c) :
    s'.listing c = some (entries s.curDir ++ [(name.1, (i : Int))]) := by
  obtain ⟨c', hcur', hlive, htype⟩ := hinv.current
  obtain rfl := hcur.unique hcur'
  refine listing_eq_some.mpr ⟨(h.live c).mpr (Or.inr hlive), ?_, ?_⟩
  · rw [h.inode, Function.update_of_ne (h.ne_current hinv hcur)]
    exact htype
  · rw [FS.dir_of_current ((h.current_iff hinv c).mpr hcur)]
    exact h.curDir.entries_eq (hinv.curDir hcur hlive htype) h.room

theorem CreateStep.text_other (hji : j ≠ i) : s'.text j = s.text j := by
  have hinode : s'.inode j = s.inode j := by rw [h.inode, Function.update_of_ne hji]
  exact text_congr (h.live_other hji) hinode fun hlive htype =>
    fileText_congr hinv hlive htype fun k b hown => h.disk_owned hinv hown

theorem CreateStep.tree_cur : s'.tree.cur = s.tree.cur := by
  obtain ⟨c, hcur, -⟩ := hinv.current
  rw [Fs.tree_cur hcur, Fs.tree_cur ((h.current_iff hinv c).mpr hcur)]

/-- A new file in the tree. -/
theorem CreateStep.tree_file (htype : n.type = .file) :
    s'.tree = s.tree.addFile (entries s.curDir) name.1 i (fileText s' n) := by
  obtain ⟨c, hcur, -⟩ := hinv.current
  have hnode : s'.inode i = n := by rw [h.inode, Function.update_self]
  have hlive : s'.live i = true := (h.live i).mpr (Or.inl rfl)
  have hlisting : s'.listing = Function.update s.listing c (some (entries s.curDir ++ [(name.1, (i : Int))])) := by
    funext j
    by_cases hjc : j = c
    · rw [hjc, Function.update_self, h.listing_current hinv hcur]
    · rw [Function.update_of_ne hjc]
      by_cases hji : j = i
      · subst hji
        simp [FS.listing, hnode, htype, h.free]
      · exact h.listing_other hinv hji fun hj => hjc (hj.unique hcur)
  have htext : s'.text = Function.update s.text i (some (fileText s' n)) := by
    funext j
    by_cases hji : j = i
    · subst hji
      rw [Function.update_self]
      exact text_eq_some.mpr ⟨hlive, by rw [hnode]; exact htype, by rw [hnode]⟩
    · rw [Function.update_of_ne hji, h.text_other hinv hji]
  have hcur' := h.tree_cur hinv
  simp only [FS.tree, DirTree.addFile] at hcur' ⊢
  rw [hlisting, htext, atInode_update, atInode_update, hcur', show (s.curDir.dentry 0).inode = c from hcur]

/-- A new directory in the tree. -/
theorem CreateStep.tree_dir (htype : n.type = .directory) (hcur : s.Current c)
    (hstored : s'.stored i = subDir stack i c) :
    s'.tree = DirTree.addDir dot.1 dotdot.1 s.tree (entries s.curDir) name.1 i := by
  have hnode : s'.inode i = n := by rw [h.inode, Function.update_self]
  have hlive : s'.live i = true := (h.live i).mpr (Or.inl rfl)
  have hic : ¬ s'.Current i := fun hi =>
    h.ne_current hinv hcur (hcur.unique ((h.current_iff hinv i).mp hi))
  have hlisting : s'.listing = Function.update
      (Function.update s.listing c (some (entries s.curDir ++ [(name.1, (i : Int))]))) i
      (some [(dot.1, (i : Int)), (dotdot.1, (c : Int))]) := by
    funext j
    by_cases hji : j = i
    · subst hji
      rw [Function.update_self]
      refine listing_eq_some.mpr ⟨hlive, by rw [hnode]; exact htype, ?_⟩
      rw [FS.dir_of_not_current hic, hstored, entries_subDir]
    · rw [Function.update_of_ne hji]
      by_cases hjc : j = c
      · rw [hjc, Function.update_self, h.listing_current hinv hcur]
      · rw [Function.update_of_ne hjc]
        exact h.listing_other hinv hji fun hj => hjc (hj.unique hcur)
  have htext : s'.text = s.text := by
    funext j
    by_cases hji : j = i
    · subst hji
      simp [FS.text, hnode, htype, h.free]
    · exact h.text_other hinv hji
  have hcur' := h.tree_cur hinv
  simp only [FS.tree, DirTree.addDir] at hcur' ⊢
  rw [hlisting, htext, atInode_update, atInode_update, hcur', show (s.curDir.dentry 0).inode = c from hcur]

end Create

/-! ## Moving -/

/-- Entries lead to inodes in use. -/
theorem live_of_mem (hinv : Inv L s) (hwf : s.tree.Wf dot.1 dotdot.1) (hmem : (x, (i : Int)) ∈ entries s.curDir) :
    s.live i = true := by
  rw [← Bool.not_eq_false]
  exact fun hfree => hwf.named _ _ _ _ (tree_dirs_cur hinv) hmem (fresh_iff.mpr hfree)

theorem live_of_search (hinv : Inv L s) (hwf : s.tree.Wf dot.1 dotdot.1)
    (hsearch : searchCurDir s name = some (i : Int)) : s.live i = true :=
  live_of_mem hinv hwf (hinv.search_iff.mp hsearch)

/-- The same directories and files: the same tree, seen from another place. -/
theorem SameDirs.tree (h : SameDirs s s')
    (htext : ∀ i, s.live i = true → (s.inode i).type = .file → fileText s' (s.inode i) = fileText s (s.inode i)) :
    s'.tree = s.tree.enter s'.tree.cur := by
  have hlisting : s'.listing = s.listing :=
    funext fun i => listing_congr (h.live i) (by rw [h.inode]) (h.dir i)
  have htext' : s'.text = s.text :=
    funext fun i => text_congr (h.live i) (by rw [h.inode]) (htext i)
  simp only [FS.tree, DirTree.enter, hlisting, htext']

/-- **`dir_change` moves in the tree and changes nothing else.** -/
theorem dirChange_tree (hinv : Inv L s) (hwf : s.tree.Wf dot.1 dotdot.1) (name : Name) :
    ∃ r, dirChange s name = some r ∧ Inv L r.fs ∧
      ((r.value = -1 ∧ r.fs.tree = s.tree ∧
        ∀ i : Fin 512, searchCurDir s name = some (i : Int) → (s.inode i).type = .file) ∨
      (r.value = 0 ∧ ∃ i : Fin 512, searchCurDir s name = some (i : Int) ∧ (s.tree.dirs i).isSome ∧
        r.fs.Current i ∧ r.fs.tree = s.tree.enter i)) := by
  obtain ⟨c, hcur, hclive, hctype⟩ := hinv.current
  obtain ⟨r, hrun, hcase⟩ := dirChange_cases hinv hcur name
  obtain ⟨hinv', hsame⟩ := dirChange_sameDirs hinv (fun i hi _ => live_of_search hinv hwf hi) hrun
  have hdisk : ∀ b, r.fs.disk b = (s.flush c).disk b := by
    rcases hcase with ⟨-, hfs, -⟩ | ⟨-, i, -, -, hfs⟩ <;> rw [hfs] <;> exact fun _ => rfl
  have htree := hsame.tree fun i hlive htype => fileText_congr hinv hlive htype fun k b hown => by
    rw [hdisk]
    refine flush_disk_other hinv hclive hctype hown ?_
    rintro rfl
    exact nomatch htype.symm.trans hctype
  refine ⟨r, hrun, hinv', ?_⟩
  rcases hcase with ⟨hval, hfs, hfile⟩ | ⟨hval, i, hsearch, htype, hfs⟩
  · have hcur' : r.fs.tree.cur = s.tree.cur := by
      rw [hfs]
      exact congrArg (fun d : Dentry => (d.dentry 0).inode) (flush_curDir s c)
    rw [hcur'] at htree
    exact Or.inl ⟨hval, htree, hfile⟩
  · have hlive := live_of_search hinv hwf hsearch
    have hself : r.fs.Current i := by
      rw [hfs]
      show (((s.flush c).dir i).dentry 0).inode = i
      rw [dir_flush hinv hcur hclive hctype hlive htype]
      exact (hinv.dirs i hlive htype).self
    have hdir : (s.tree.dirs i).isSome := by
      rw [tree_dirs, listing_eq_some.mpr ⟨hlive, htype, rfl⟩]
      rfl
    rw [tree_cur hself] at htree
    exact Or.inr ⟨hval, i, hsearch, hdir, hself, htree⟩

/-! ## Simulation -/

theorem fileCat_some (hinv : Inv L s) (hwf : s.tree.Wf dot.1 dotdot.1) (env : Env) (name : Name) :
    ∃ r, fileCat s env name = some r := by
  obtain ⟨c, hcur, hlive, htype⟩ := hinv.current
  rcases searchCurDir_cases (hinv.curDir hcur hlive htype).toTable name with ⟨_, -, -, i, -, hsearch⟩ | ⟨-, hsearch⟩
  · have hilive := live_of_search hinv hwf hsearch
    cases hitype : (s.inode i).type with
    | file => exact ⟨_, fileCat_text hinv ⟨hsearch, hilive, hitype⟩ env⟩
    | directory =>
        unfold fileCat
        rw [lookup_found hsearch, if_pos hitype]
        exact ⟨_, rfl⟩
  · unfold fileCat
    rw [lookup_absent hsearch]
    exact ⟨_, rfl⟩

/-- A file that was made is a step of the tree. -/
theorem NewFile.simulates (hinv : Inv L s) (h0 : 0 ≤ size)
    (h : NewFile s name m (createBuffer env size) i n s') :
    Inv L s' ∧ DirTree.Step dot.1 dotdot.1 s.tree (.create name.1 (randChars env.rand size)) s'.tree := by
  obtain ⟨bs, hstep⟩ := h.step
  refine ⟨hstep.inv hinv, ?_⟩
  rw [hstep.tree_file hinv h.type]
  refine .create (tree_dirs_cur hinv) hstep.new_name (fresh_iff.mpr hstep.free) ?_
  rw [h.fileText_eq hinv h0]
  exact List.take_prefix _ _

/-- **Simulation**: a command that adds or moves returns, and is a step of the
tree. -/
theorem step_simulates (hinv : Inv L s) (hwf : s.tree.Wf dot.1 dotdot.1) (hline : line.Grows) :
    ∃ s', step s line = some s' ∧ Inv L s' ∧ DirTree.Step dot.1 dotdot.1 s.tree line.action s'.tree := by
  obtain ⟨env, command⟩ := line
  cases command with
  | create name size =>
      have h0 : 0 ≤ size := hline
      obtain ⟨r, hrun, hcase⟩ := fileCreate_cases hinv env name h0
      refine ⟨r.fs, congrArg (Option.map Ret.fs) hrun, ?_⟩
      rcases hcase with ⟨-, hfs | ⟨i, n, hfile⟩⟩ | ⟨-, i, n, hfile⟩
      · rw [hfs]
        exact ⟨hinv, .refused⟩
      · exact hfile.simulates hinv h0
      · exact hfile.simulates hinv h0
  | cat name =>
      obtain ⟨r, hrun⟩ := fileCat_some hinv hwf env name
      refine ⟨r.fs, congrArg (Option.map Ret.fs) hrun, ?_⟩
      rw [fileCat_fs hrun]
      exact ⟨hinv, .refused⟩
  | mkdir name =>
      obtain ⟨c, hcur, -⟩ := hinv.current
      obtain ⟨r, hrun, hcase⟩ := dirMake_cases hinv env name hcur
      refine ⟨r.fs, congrArg (Option.map Ret.fs) hrun, ?_⟩
      rcases hcase with ⟨-, hfs⟩ | ⟨-, i, n, b, hstep, htype, hstored⟩
      · rw [hfs]
        exact ⟨hinv, .refused⟩
      · rw [hstep.tree_dir hinv htype hcur hstored]
        exact ⟨hstep.inv hinv, .mkdir (tree_dirs_cur hinv) hstep.new_name (fresh_iff.mpr hstep.free)⟩
  | cd name =>
      obtain ⟨r, hrun, hinv', hcase⟩ := dirChange_tree hinv hwf name
      refine ⟨r.fs, congrArg (Option.map Ret.fs) hrun, hinv', ?_⟩
      rcases hcase with ⟨-, htree, -⟩ | ⟨-, i, hsearch, hdir, -, htree⟩
      · rw [htree]
        exact .refused
      · have hmem := hinv.search_iff.mp hsearch
        rw [htree]
        exact .enter (tree_dirs_cur hinv) hmem hdir
  | write _ _ _ _ => exact hline.elim
  | read _ _ _ => exact hline.elim
  | rm _ => exact hline.elim
  | rmdir _ => exact hline.elim

theorem dots_distinct : dot.1 ≠ dotdot.1 := by decide

/-- **The run lemma**: a run of such commands returns, and is a run of the tree. -/
theorem run_simulates (hinv : Inv L s) (hwf : s.tree.Wf dot.1 dotdot.1) (lines : List Line)
    (hlines : ∀ line ∈ lines, line.Grows) :
    ∃ s', Run.exec step s lines = some s' ∧ Inv L s' ∧
      DirTree.Steps dot.1 dotdot.1 s.tree (lines.map Line.action) s'.tree := by
  refine Run.exec_total (fun h m => Inv L m ∧ DirTree.Steps dot.1 dotdot.1 s.tree (h.map Line.action) m.tree)
    (fun _ line => line.Grows) ⟨hinv, .refl⟩ (fun h m line hm hline => ?_) lines
    fun h line t hsplit => hlines line (by simp [hsplit])
  obtain ⟨hinv', hsteps⟩ := hm
  obtain ⟨m', hstep, hinv'', htree⟩ := step_simulates hinv' (hsteps.wf hwf dots_distinct) hline
  refine ⟨m', hstep, hinv'', ?_⟩
  rw [List.map_append, List.map_singleton]
  exact hsteps.snoc htree

end Tree

/-- The only directory of a fresh file system is the root, and its only entry
`.`. -/
theorem listing_formatted (env : Env) : (formatted env).listing =
    Function.update (fun _ => none : Arr 512 (Option (List (List Byte × Int)))) 0 (some [(dot.1, 0)]) := by
  have hcur : (formatted env).Current 0 := rfl
  have hentries : entries rootDir = [(dot.1, 0)] := by decide
  funext i
  by_cases hi : i = 0
  · subst hi
    rw [Function.update_self, ← hentries]
    exact listing_eq_some.mpr ⟨(live_formatted env 0).mpr rfl, rfl, by rw [FS.dir_of_current hcur]; rfl⟩
  · rw [Function.update_of_ne hi, FS.listing, if_neg fun h => hi ((live_formatted env i).mp h.1)]

/-- A fresh file system is a tree of one directory. -/
theorem tree_formatted (env : Env) : (formatted env).tree = DirTree.root dot.1 0 := by
  have htext : (formatted env).text = fun _ => none := by
    funext i
    rw [FS.text, if_neg]
    rintro ⟨hlive, htype⟩
    obtain rfl := (live_formatted env i).mp hlive
    exact nomatch htype
  have hnone : ∀ {α : Type} (x : Int), atInode (fun _ => none : Arr 512 (Option α)) x = none := fun x => by
    unfold atInode Arr.read
    split <;> rfl
  have h0 : ((0 : Fin 512) : Int) = 0 := rfl
  rw [FS.tree, listing_formatted, htext, atInode_update, DirTree.root]
  refine congrArg₂ (DirTree.mk 0) (funext fun x => ?_) (funext hnone)
  rw [Function.update_apply, hnone, h0]

end OperatingSystem.Fs
