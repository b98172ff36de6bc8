import OperatingSystem.Fs.Shell
import OperatingSystem.Fs.Tree

/-!
# OperatingSystem.Fs.Listing

What `ls` and `stat` print, in terms of the tree a state stands for.  The type of
an entry is what its node is.  The size of a directory is 1, and that of a file the
length of its string, but for a file whose creation stopped for want of space
behind the direct blocks: its string is one character longer than its size
(`Shows`).  The owner, the group and the number of blocks follow from the node and
its size (`Sized`).
-/

namespace OperatingSystem.Fs

abbrev Tree := DirTree Int (List Byte) Byte

/-- The name leads to node `i` from the current directory. -/
def Leads (t : Tree) (name : Name) (i : Int) : Prop := ∃ es, t.dirs t.cur = some es ∧ (name.1, i) ∈ es

/-- The type and size the shell shows of a node. -/
def Shows (t : Tree) (i : Int) (type : TYPE) (size : Int) : Prop :=
  (type = .file ∧ ∃ w, t.text i = some w ∧ (size = w.length ∨ size = 5119 ∧ w.length = 5120)) ∨
    (type = .directory ∧ (t.dirs i).isSome ∧ size = 1)

/-- What `file_stat` shows of a node, the times apart. -/
structure Stats (t : Tree) (i : Fin 512) (n : Inode) : Prop where
  shows : Shows t i n.type n.size
  owner : n.owner = if (i : Int) = 0 then 0 else 1
  group : n.group = if (i : Int) = 0 then 0 else 2
  blockCount : n.blockCount = dataCount n.size

/-- What is in the inodes of a state. -/
def Sized (s : FS) : Prop := ∀ i : Fin 512, s.live i = true → Stats s.tree i (s.inode i)

section Sizes

variable {s s' : FS} {L : Set (Fin 4096)} {i j c : Fin 512} {env : Env} {name : Name}

theorem leads_iff (hinv : Inv L s) : Leads s.tree name i ↔ searchCurDir s name = some (i : Int) := by
  rw [hinv.search_iff, Leads, tree_dirs_cur hinv]
  simp

/-! ## Sizes -/

/-- What is shown of a node depends on the node only. -/
theorem Shows.congr {t t' : Tree} (h : Shows t i type size) (htext : t'.text i = t.text i)
    (hdirs : (t.dirs i).isSome → (t'.dirs i).isSome) : Shows t' i type size := by
  rcases h with ⟨htype, w, hw, hsize⟩ | ⟨htype, hdir, hsize⟩
  · exact Or.inl ⟨htype, w, htext.trans hw, hsize⟩
  · exact Or.inr ⟨htype, hdirs hdir, hsize⟩

theorem Stats.congr {t t' : Tree} (h : Stats t i n) (htext : t'.text i = t.text i)
    (hdirs : (t.dirs i).isSome → (t'.dirs i).isSome) : Stats t' i n :=
  ⟨h.shows.congr htext hdirs, h.owner, h.group, h.blockCount⟩

/-- A new node is not the root. -/
theorem stats_new (hinv : Inv L s) (hfree : s.live i = false) (hshows : Shows t i n.type n.size) (howner : n.owner = 1)
    (hgroup : n.group = 2) (hcount : n.blockCount = dataCount n.size) : Stats t i n := by
  have hne : (i : Int) ≠ 0 := fun h0 => by
    obtain rfl : i = 0 := Fin.ext (by simp; omega)
    exact nomatch hfree.symm.trans hinv.rootLive
  exact ⟨hshows, by rw [if_neg hne, howner], by rw [if_neg hne, hgroup], hcount⟩

theorem length_randChars (rand : Nat → Nat) (h0 : 0 ≤ size) : ((randChars rand size).length : Int) = size := by
  rw [randChars, List.length_map, List.length_range]
  omega

/-- The file `file_create` makes: of the size asked for, or cut short. -/
theorem fileCreate_new (hinv : Inv L s) (h0 : 0 ≤ size) (hrun : fileCreate s env name size = some r) :
    r.fs = s ∨ ∃ m i n, NewFile s name m (createBuffer env size) i n r.fs ∧ (m = size ∨ m = 5119 ∧ 5120 ≤ size) := by
  by_cases hlarge : 5120 ≤ size
  · obtain ⟨r', hrun', hcase⟩ := fileCreate_cases hinv env name h0
    obtain rfl := Option.some.inj (hrun.symm.trans hrun')
    rcases hcase with ⟨-, hfs | ⟨i, n, hfile⟩⟩ | ⟨-, i, n, hfile⟩
    · exact Or.inl hfs
    · exact Or.inr ⟨5119, i, n, hfile, Or.inr ⟨rfl, hlarge⟩⟩
    · exact Or.inr ⟨size, i, n, hfile, Or.inl rfl⟩
  · rw [fileCreate, if_neg (by omega), if_neg (by omega)] at hrun
    dsimp only at hrun
    rw [if_neg hlarge] at hrun
    rcases fileCreateSmallHelper_cases hinv env name h0 (by omega) (createBuffer env size) with
      ⟨-, out, hsmall⟩ | ⟨-, i, n, bs, s₁, hfile, hsmall⟩
    · rw [hsmall] at hrun
      obtain rfl := Option.some.inj hrun
      exact Or.inl rfl
    · rw [hsmall] at hrun
      obtain rfl := Option.some.inj hrun
      exact Or.inr ⟨size, i, n, hfile.newFile (by omega), Or.inl rfl⟩

/-- The string of a file that was made, and its size. -/
theorem NewFile.shows (hinv : Inv L s) (h0 : 0 ≤ size) (h : NewFile s name m (createBuffer env size) i n s')
    (hm : m = size ∨ m = 5119 ∧ 5120 ≤ size) : Shows s'.tree i n.type n.size := by
  obtain ⟨bs, hstep⟩ := h.step
  have hnode : s'.inode i = n := by rw [hstep.inode, Function.update_self]
  have htext : s'.tree.text i = some (fileText s' n) := by
    rw [tree_text, text_eq_some, hnode]
    exact ⟨(hstep.live i).mpr (Or.inl rfl), h.type, rfl⟩
  refine Or.inl ⟨h.type, _, htext, ?_⟩
  rw [h.sized]
  rcases hm with rfl | ⟨rfl, hlarge⟩
  · rw [h.fileText_full hinv h0, length_randChars _ h0]
    exact Or.inl rfl
  · have hfile := hstep.fileOk h.type
    have hsize := hfile.size_le
    have hten := hfile.large
    rw [h.sized] at hsize hten
    have hcount : n.blockCount = 10 := by omega
    have hlen := length_randChars env.rand h0
    rw [h.fileText_eq hinv h0, hcount, List.length_take]
    exact Or.inr ⟨rfl, by omega⟩

theorem NewFile.stats (hinv : Inv L s) (h0 : 0 ≤ size) (h : NewFile s name m (createBuffer env size) i n s')
    (hm : m = size ∨ m = 5119 ∧ 5120 ≤ size) : Stats s'.tree i n := by
  obtain ⟨bs, hstep⟩ := h.step
  exact stats_new hinv hstep.free (h.shows hinv h0 hm) h.owner h.group (h.blockCount.trans (by rw [h.sized]))

/-- What is in the inode of a new directory, and what it takes. -/
theorem dirMake_node (hinv : Inv L s) (hrun : dirMake s env name = some r) (h : CreateStep s name i n bs r.fs) :
    (n.size = 1 ∧ n.owner = 1 ∧ n.group = 2 ∧ n.blockCount = 1) ∧ s.FirstFree i ∧ 1 ≤ s.superBlock.freeBlockCount ∧
      r.fs.superBlock.freeBlockCount = s.superBlock.freeBlockCount - 1 := by
  obtain ⟨c, hcur, hlive, htype⟩ := hinv.current
  have hd := hinv.curDir hcur hlive htype
  by_cases hpass : DirChecksPass s name
  · obtain ⟨j, d, b, t, hmade, hrun'⟩ := dirMake_run env hinv.counts hpass (Int.le_trans (by decide) hd.pos)
    obtain rfl := Option.some.inj (hrun.symm.trans hrun')
    obtain ⟨hnode, -, hjlive⟩ := addInode_made hmade.taken hmade.inode.free (place (s.inode j).directBlock [b])
    obtain rfl : j = i := ((h.live j).mp hjlive).resolve_right (by simp [hmade.inode.free])
    rw [h.inode, Function.update_self] at hnode
    rw [hnode]
    exact ⟨⟨rfl, rfl, rfl, rfl⟩, hmade.inode, hpass.blocks, hmade.taken.free⟩
  · obtain ⟨x, hsearch⟩ := searchCurDir_some hd.toTable name
    obtain ⟨p, -, hrun'⟩ := dirMake_refused env hsearch hpass
    obtain rfl := Option.some.inj (hrun.symm.trans hrun')
    exact nomatch h.free.symm.trans ((h.live i).mpr (Or.inl rfl))

/-- A node that was made, among the others. -/
theorem CreateStep.sized (hinv : Inv L s) (h : CreateStep s name i n bs s') (hs : Sized s)
    (hnew : Stats s'.tree i n) (htext : ∀ j, j ≠ i → s'.tree.text j = s.tree.text (j : Fin 512)) : Sized s' := by
  intro j hlive
  by_cases hji : j = i
  · subst hji
    rw [h.inode, Function.update_self]
    exact hnew
  · have hold : s.live j = true := by rwa [h.live_other hji] at hlive
    rw [h.inode, Function.update_of_ne hji]
    refine (hs j hold).congr (htext j hji) fun hdir => ?_
    rw [tree_dirs] at hdir ⊢
    by_cases hcur : s.Current j
    · rw [h.listing_current hinv hcur]
      rfl
    · rwa [h.listing_other hinv hji hcur]

/-- **One command** keeps what is in the inodes. -/
theorem sized_step (hinv : Inv L s) (hwf : s.tree.Wf dot.1 dotdot.1) (hs : Sized s) (hline : line.Grows)
    (hstep : step s line = some s') : Sized s' := by
  obtain ⟨e, command⟩ := line
  obtain ⟨r, hrun, rfl⟩ := Option.map_eq_some_iff.mp hstep
  cases command with
  | create name size =>
      have h0 : 0 ≤ size := hline
      rcases fileCreate_new hinv h0 hrun with hfs | ⟨m, i, n, hfile, hm⟩
      · rwa [hfs]
      · obtain ⟨bs, hmade⟩ := hfile.step
        refine hmade.sized hinv hs (hfile.stats hinv h0 hm) fun j hji => ?_
        rw [tree_text, tree_text, hmade.text_other hinv hji]
  | mkdir name =>
      have hrun : dirMake s e name = some r := hrun
      obtain ⟨c, hcur, -⟩ := hinv.current
      obtain ⟨r', hrun', hcase⟩ := dirMake_cases hinv e name hcur
      obtain rfl := Option.some.inj (hrun.symm.trans hrun')
      rcases hcase with ⟨-, hfs⟩ | ⟨-, i, n, b, hmade, htype, hstored⟩
      · rwa [hfs]
      · obtain ⟨⟨hsize, howner, hgroup, hcount⟩, -⟩ := dirMake_node hinv hrun hmade
        have hdir : (r.fs.tree.dirs i).isSome := by
          rw [hmade.tree_dir hinv htype hcur hstored]
          exact Option.isSome_iff_exists.mpr ⟨_, Function.update_self _ _ _⟩
        have hone : n.blockCount = dataCount n.size := by
          rw [hcount, hsize]
          rfl
        have hstats := stats_new hinv hmade.free (Or.inr ⟨htype, hdir, hsize⟩) howner hgroup hone
        refine hmade.sized hinv hs hstats fun j hji => ?_
        rw [tree_text, tree_text, hmade.text_other hinv hji]
  | cd name =>
      obtain ⟨r', hrun', -, hcase⟩ := dirChange_tree hinv hwf name
      obtain rfl := Option.some.inj (hrun.symm.trans hrun')
      obtain ⟨-, hsame⟩ := dirChange_sameDirs hinv (fun i hi _ => live_of_search hinv hwf hi) hrun
      have htree : r.fs.tree.text = s.tree.text ∧ r.fs.tree.dirs = s.tree.dirs := by
        rcases hcase with ⟨-, htree, -⟩ | ⟨-, i, -, -, -, htree⟩
        · rw [htree]
          exact ⟨rfl, rfl⟩
        · rw [htree]
          exact ⟨rfl, rfl⟩
      intro i hlive
      rw [hsame.live] at hlive
      rw [hsame.inode]
      refine (hs i hlive).congr (by rw [htree.1]) fun hdir => ?_
      rwa [htree.2]
  | cat name => rwa [fileCat_fs hrun]
  | write _ _ _ _ => exact hline.elim
  | read _ _ _ => exact hline.elim
  | rm _ => exact hline.elim
  | rmdir _ => exact hline.elim

/-! ## ls and file_stat -/

/-- An entry leads to a node of the tree. -/
theorem shows_of_mem (hinv : Inv L s) (hwf : s.tree.Wf dot.1 dotdot.1) (hs : Sized s)
    (hmem : (x, (i : Int)) ∈ entries s.curDir) : Shows s.tree i (s.inode i).type (s.inode i).size :=
  (hs i (live_of_mem hinv hwf hmem)).shows

/-- The line of `ls` for an entry: its type and size are what the tree shows. -/
def Lists (t : Tree) (e : List Byte × Int) (o : Output) : Prop :=
  ∃ type size, o = .entry type e.1 e.2 size ∧ Shows t e.2 type size

theorem lsFrom_map (s : FS) (ks : List (Fin 25)) (f : Fin 25 → Fin 512)
    (h : ∀ k ∈ ks, (s.curDir.dentry k).inode = f k) : lsFrom s (ks.map Fin.val) = some (ks.map fun k =>
      .entry (s.inode (f k)).type (cstr (s.curDir.dentry k).name) (s.curDir.dentry k).inode (s.inode (f k)).size) := by
  induction ks with
  | nil => rfl
  | cons k ks ih =>
      simp only [List.map_cons, lsFrom, Arr.read_fin, Option.bind_eq_bind, Option.bind_some, h k List.mem_cons_self,
        ih fun j hj => h j (List.mem_cons_of_mem k hj)]
      rfl

theorem range_numEntry {d : Dentry} (hle : d.numEntry ≤ 24) :
    List.range d.numEntry.toNat = ((List.finRange 25).take d.numEntry.toNat).map Fin.val := by
  have hall : (List.finRange 25).map Fin.val = List.range 25 := by decide
  rw [List.map_take, hall, List.take_range, Nat.min_eq_left (by omega)]

/-- **`ls` prints the current directory of the tree.** -/
theorem ls_tree (hinv : Inv L s) (hwf : s.tree.Wf dot.1 dotdot.1) (hs : Sized s) :
    ∃ out, ls s = some out ∧ List.Forall₂ (Lists s.tree) (entries s.curDir) out := by
  obtain ⟨c, hcur, hlive, htype⟩ := hinv.current
  have hd := (hinv.curDir hcur hlive htype).toTable
  have hlt : ∀ k ∈ (List.finRange 25).take s.curDir.numEntry.toNat, (k : Int) < s.curDir.numEntry := fun k hk => by
    have hk := mem_take_finRange.mp hk
    omega
  obtain ⟨f, hf⟩ : ∃ f : Fin 25 → Fin 512, ∀ k ∈ (List.finRange 25).take s.curDir.numEntry.toNat,
      (s.curDir.dentry k).inode = f k := by
    refine ⟨fun k => if h : ∃ j : Fin 512, (s.curDir.dentry k).inode = j then h.choose else 0, fun k hk => ?_⟩
    have hex := hd.inode k (hlt k hk)
    simp only [dif_pos hex]
    exact hex.choose_spec
  refine ⟨_, by rw [ls, range_numEntry hd.le]; exact lsFrom_map s _ f hf, ?_⟩
  rw [entries, List.forall₂_map_left_iff, List.forall₂_map_right_iff, List.forall₂_same]
  intro k hk
  have hmem : (cstr (s.curDir.dentry k).name, (f k : Int)) ∈ entries s.curDir := by
    rw [← hf k hk]
    exact List.mem_map.mpr ⟨k, hk, rfl⟩
  have hshows := shows_of_mem hinv hwf hs hmem
  rw [← hf k hk] at hshows
  exact ⟨_, _, rfl, hshows⟩

/-- **`stat` prints what the tree shows**, or that there is nothing of that name. -/
theorem fileStat_tree (hinv : Inv L s) (hwf : s.tree.Wf dot.1 dotdot.1) (hs : Sized s) (name : Name) :
    (∃ i type size created access, Leads s.tree name i ∧ Shows s.tree i type size ∧ fileStat s name =
      some [.stat i type (if i = 0 then 0 else 1) (if i = 0 then 0 else 2) size (dataCount size) created access]) ∨
    ((∀ i, ¬ Leads s.tree name i) ∧ fileStat s name = some [.printf (.text "file cat error: file is not exist.\n")]) := by
  obtain ⟨c, hcur, hlive, htype⟩ := hinv.current
  rcases searchCurDir_cases (hinv.curDir hcur hlive htype).toTable name with ⟨k, -, -, i, -, hsearch⟩ | ⟨hnone, hsearch⟩
  · have hstat : fileStat s name = some [.stat i (s.inode i).type (s.inode i).owner (s.inode i).group (s.inode i).size
        (s.inode i).blockCount (s.inode i).created (s.inode i).lastAccess] := by
      rw [fileStat, lookup_found hsearch]
      rfl
    have hstats := hs i (live_of_search hinv hwf hsearch)
    rw [hstats.owner, hstats.group, hstats.blockCount] at hstat
    exact Or.inl ⟨i, _, _, _, _, (leads_iff hinv).mpr hsearch, hstats.shows, hstat⟩
  · refine Or.inr ⟨fun i hleads => ?_, by rw [fileStat, hsearch]; rfl⟩
    obtain ⟨es, hes, hmem⟩ := hleads
    rw [tree_dirs_cur hinv, Option.some.injEq] at hes
    subst hes
    obtain ⟨k, hk, hname, -⟩ := mem_entries.mp hmem
    exact hnone k hk hname

end Sizes

end OperatingSystem.Fs
