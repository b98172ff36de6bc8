import OperatingSystem.Fs.Tree

/-!
# OperatingSystem.Fs.History

Where the entries of a directory come from.  After a run of `create`, `mkdir`,
`cd` and `cat` a directory has the entries it had when it was last current, or
the two that `mkdir` gave it (`Origin`); with the tree this gives what the user
of such a run sees (`behavesAsTree_of_run`).
-/

namespace OperatingSystem.Fs

/-- In no state after one of the lines `after` is directory `i` current. -/
def Away (i : Fin 512) (s : FS) (after : List Line) : Prop :=
  ∀ done rest s', after = done ++ rest → done ≠ [] → Run.exec step s done = some s' → ¬ s'.Current i

/-- The entries of directory `i` after the lines: those it had when it was last
current or, if it has not been current since `mkdir`, `.` and `..`. -/
inductive Origin (s₀ : FS) (lines : List Line) (i : Fin 512) : List (List Byte × Int) → Prop
  | current (split : lines = before ++ after) (reach : Run.exec step s₀ before = some s) (current : s.Current i)
      (away : Away i s after) : Origin s₀ lines i (entries s.curDir)
  | made (c : Fin 512) (split : lines = before ++ ⟨env, .mkdir name⟩ :: after)
      (reach : Run.exec step s₀ before = some s) (current : s.Current c) (free : s.live i = false)
      (make : step s ⟨env, .mkdir name⟩ = some s') (live : s'.live i = true) (away : Away i s' after) :
      Origin s₀ lines i [(dot.1, (i : Int)), (dotdot.1, (c : Int))]

/-- What the user of a run of `create`, `mkdir`, `cd` and `cat` sees, from the
mounted state `s₀` to the state `s`. -/
structure BehavesAsTree (s₀ : FS) (lines : List Line) (s : FS) : Prop where
  simulates : DirTree.Steps dot.1 dotdot.1 (DirTree.root dot.1 0) (lines.map Line.action) s.tree
  /-- `cd` finds the entries of the directory as they were left. -/
  enters : ∀ name r, dirChange s name = some r → r.value = 0 →
    ∃ i : Fin 512, searchCurDir s name = some (i : Int) ∧ r.fs.Current i ∧ Origin s₀ lines i (entries r.fs.curDir)
  /-- `cd name`, `cd ..` leads back. -/
  returns : ∀ name r, name ≠ dot → name ≠ dotdot → dirChange s name = some r → r.value = 0 →
    ∃ r', dirChange r.fs dotdot = some r' ∧ r'.value = 0 ∧ entries r'.fs.curDir = entries s.curDir
  names : ∀ i, s.live i = true → (s.inode i).type = .directory →
    ((entries (s.dir i)).map Prod.fst).Nodup ∧ (s.dir i).numEntry ≤ 24
  /-- `cat` prints what was generated for the file. -/
  files : ∀ before env name size after s₁ c env', lines = before ++ ⟨env, .create name size⟩ :: after →
    Run.exec step s₀ before = some s₁ → Passes s₁ env name size → s₁.Current c → s.Current c →
    fileCat s env' name = some ⟨0, [.contents (randChars env.rand size)], s⟩

section

variable {s₀ s s' m : FS} {L : Set (Fin 4096)} {lines : List Line} {line : Line} {i : Fin 512}

/-! ## Origins -/

theorem away_nil (i : Fin 512) (s : FS) : Away i s [] := fun _ _ _ hsplit hne =>
  absurd (List.append_eq_nil_iff.mp hsplit.symm).1 hne

theorem Away.concat (h : Away i m after) (hreach : Run.exec step m after = some s) (hstep : step s line = some s')
    (hnot : ¬ s'.Current i) : Away i m (after ++ [line]) := by
  intro done rest u hsplit hne hrun
  rcases List.eq_nil_or_concat rest with rfl | ⟨rest', last, rfl⟩
  · rw [List.append_nil] at hsplit
    subst hsplit
    rw [Run.exec_concat, hreach, Option.bind_some, hstep] at hrun
    obtain rfl := Option.some.inj hrun
    exact hnot
  · rw [List.concat_eq_append, ← List.append_assoc] at hsplit
    exact h done rest' u (List.append_inj_left' hsplit rfl) hne hrun

/-- One more line, after which the directory is not current. -/
theorem Origin.concat (h : Origin s₀ lines i es) (hreach : Run.exec step s₀ lines = some s)
    (hstep : step s line = some s') (hnot : ¬ s'.Current i) : Origin s₀ (lines ++ [line]) i es := by
  cases h with
  | @current before after m split reach current away =>
      subst split
      obtain ⟨m', hm', hrest⟩ := Run.exec_append_some hreach
      obtain rfl := Option.some.inj (reach.symm.trans hm')
      exact .current (List.append_assoc _ _ _) reach current (away.concat hrest hstep hnot)
  | @made before env name after m m' c split reach current free make live away =>
      subst split
      obtain ⟨u, hu, hrest⟩ := Run.exec_append_some hreach
      obtain rfl := Option.some.inj (reach.symm.trans hu)
      rw [Run.exec, make, Option.bind_some] at hrest
      exact .made c (by rw [List.append_assoc, List.cons_append]) reach current free make live
        (away.concat hrest hstep hnot)

/-- **One line**: each directory keeps its origin, or has just been left or
made. -/
theorem Origin.step (hinv : Inv L s) (hreach : Run.exec Fs.step s₀ lines = some s)
    (hstep : Fs.step s line = some s') (htree : DirTree.Step dot.1 dotdot.1 s.tree line.action s'.tree)
    (h : ∀ i, s.live i = true → (s.inode i).type = .directory → Origin s₀ lines i (entries (s.dir i)))
    (hlive : s'.live i = true) (htype : (s'.inode i).type = .directory) :
    Origin s₀ (lines ++ [line]) i (entries (s'.dir i)) := by
  have hdir : s'.tree.dirs i = some (entries (s'.dir i)) := by
    rw [tree_dirs]
    exact listing_eq_some.mpr ⟨hlive, htype, rfl⟩
  by_cases hcur : s'.Current i
  · rw [FS.dir_of_current hcur]
    refine .current (List.append_nil _).symm ?_ hcur (away_nil i s')
    rw [Run.exec_concat, hreach]
    exact hstep
  have hne : (i : Int) ≠ s'.tree.cur := fun heq => hcur heq.symm
  rcases htree.dirs_cases hdir with ⟨es, hes, -⟩ | ⟨hfresh, ⟨name, hname⟩, hes⟩
  · have hold := hes
    rw [tree_dirs, listing_eq_some] at hold
    obtain ⟨hlive₀, htype₀, rfl⟩ := hold
    rw [Option.some.inj (hdir.symm.trans (htree.dirs_kept hes hne))]
    exact (h i hlive₀ htype₀).concat hreach hstep hcur
  · obtain ⟨c, hc, -⟩ := hinv.current
    obtain ⟨env, command⟩ := line
    cases command with
    | mkdir name =>
        rw [hes, tree_cur hc]
        exact .made c rfl hreach hc (fresh_iff.mp hfresh) hstep hlive (away_nil i s')
    | _ => exact nomatch hname

/-! ## There and back -/

/-- What is in memory after `cd` is the directory that was entered. -/
theorem entered_dirs (hinv : Inv L m) (htree : m.tree = s.tree.enter i) :
    s.tree.dirs i = some (entries m.curDir) := by
  have hcur : m.tree.cur = i := congrArg DirTree.cur htree
  have hdirs : m.tree.dirs = s.tree.dirs := by rw [htree]; rfl
  rw [← hdirs, ← hcur]
  exact tree_dirs_cur hinv

/-- `cd` into a directory that is named neither `.` nor `..`, and `cd ..`. -/
theorem dirChange_back (hinv : Inv L s) (hwf : s.tree.Wf dot.1 dotdot.1) (hdot : name ≠ dot)
    (hdotdot : name ≠ dotdot) (hrun : dirChange s name = some r) (hval : r.value = 0) :
    ∃ r', dirChange r.fs dotdot = some r' ∧ r'.value = 0 ∧ Inv L r'.fs ∧ r'.fs.tree = s.tree := by
  obtain ⟨c, hcur, -⟩ := hinv.current
  obtain ⟨r₁, hrun₁, hinv₁, hcase⟩ := dirChange_tree hinv hwf name
  obtain rfl := Option.some.inj (hrun.symm.trans hrun₁)
  rcases hcase with ⟨hneg, -⟩ | ⟨-, i, hsearch, hdir, hcuri, htree⟩
  · omega
  have hmem := hinv.search_iff.mp hsearch
  obtain ⟨es, hes⟩ := Option.isSome_iff_exists.mp hdir
  have hback := hwf.parent _ _ _ _ es (tree_dirs_cur hinv) hmem (fun h => hdot (Subtype.ext h))
    (fun h => hdotdot (Subtype.ext h)) hes
  have hstep : DirTree.Step dot.1 dotdot.1 s.tree (.enter name.1) r.fs.tree := by
    rw [htree]
    exact .enter (tree_dirs_cur hinv) hmem hdir
  -- the entered directory names the one it was entered from, which is still a directory
  have hentries : entries r.fs.curDir = es := by
    have hcurdir : s.tree.dirs i = some (entries r.fs.curDir) := entered_dirs hinv₁ htree
    rw [hcurdir, Option.some.injEq] at hes
    exact hes
  rw [tree_cur hcur, ← hentries] at hback
  obtain ⟨c₁, hcur₁, hlive₁, htype₁⟩ := hinv₁.current
  have hsearch' : searchCurDir r.fs dotdot = some (c : Int) :=
    (searchCurDir_iff (hinv₁.curDir hcur₁ hlive₁ htype₁).toTable).mpr hback
  obtain ⟨r', hrun', hinv', hcase'⟩ := dirChange_tree hinv₁ (hstep.wf hwf dots_distinct) dotdot
  have hcdir : r.fs.tree.dirs c = some (entries s.curDir) := by
    have hdirs : r.fs.tree.dirs = s.tree.dirs := by rw [htree]; rfl
    calc r.fs.tree.dirs c = s.tree.dirs c := congrFun hdirs c
      _ = s.tree.dirs s.tree.cur := congrArg s.tree.dirs (tree_cur hcur).symm
      _ = some (entries s.curDir) := tree_dirs_cur hinv
  rw [tree_dirs, listing_eq_some] at hcdir
  rcases hcase' with ⟨-, -, hfile⟩ | ⟨hval', j, hsearch'', -, -, htree'⟩
  · exact nomatch (hfile c hsearch').symm.trans hcdir.2.1
  · have hcj : (c : Int) = j := Option.some.inj (hsearch'.symm.trans hsearch'')
    refine ⟨r', hrun', hval', hinv', ?_⟩
    rw [htree', htree, ← hcj, ← tree_cur hcur]
    rfl

/-! ## Files -/

/-- A file whose checks pass is in the tree afterwards. -/
theorem create_made (hinv : Inv L s) (h0 : 0 ≤ size) (hpass : Passes s env name size) :
    ∃ s' i, step s ⟨env, .create name size⟩ = some s' ∧ Inv L s' ∧
      s'.tree.cur = s.tree.cur ∧ (name.1, ((i : Fin 512) : Int)) ∈ entries s'.curDir ∧
      s'.tree.text i = some (randChars env.rand size) := by
  obtain ⟨r, hrun, ⟨hnot, -⟩ | ⟨-, i, n, hfile⟩⟩ := fileCreate_cases hinv env name h0
  · exact absurd hpass hnot
  obtain ⟨bs, hstep⟩ := hfile.step
  obtain ⟨c, hcur, hlive, htype⟩ := hinv.current
  have hentries := hstep.curDir.entries_eq (hinv.curDir hcur hlive htype) hstep.room
  have hnode : r.fs.inode i = n := by rw [hstep.inode, Function.update_self]
  refine ⟨r.fs, i, congrArg (Option.map Ret.fs) hrun, hstep.inv hinv, hstep.tree_cur hinv, ?_, ?_⟩
  · rw [hentries]
    exact List.mem_append_right _ List.mem_cons_self
  · rw [tree_text, text_eq_some, hnode]
    exact ⟨(hstep.live i).mpr (Or.inl rfl), hfile.type, hfile.fileText_full hinv h0⟩

/-- Any time later the file is there, if its directory is current. -/
theorem cat_later (hinv : Inv L s) (hsteps : DirTree.Steps dot.1 dotdot.1 m.tree as s.tree)
    (hcur : m.tree.cur = s.tree.cur) (hinv' : Inv L m) (hmem : (name.1, (i : Int)) ∈ entries m.curDir)
    (htext : m.tree.text i = some w) (env : Env) : fileCat s env name = some ⟨0, [.contents w], s⟩ := by
  obtain ⟨es, hes, hmem'⟩ := hsteps.mem_kept (tree_dirs_cur hinv') hmem
  rw [hcur, tree_dirs_cur hinv, Option.some.injEq] at hes
  rw [← hes] at hmem'
  have hw := hsteps.text_kept htext
  rw [tree_text, text_eq_some] at hw
  rw [fileCat_text hinv ⟨hinv.search_iff.mpr hmem', hw.1, hw.2.1⟩ env, hw.2.2]

/-! ## Runs -/

theorem wf_formatted (env : Env) : (formatted env).tree.Wf dot.1 dotdot.1 := by
  rw [tree_formatted]
  exact DirTree.wf_root _ _ _

theorem origin_formatted (env : Env) (hlive : (formatted env).live i = true) :
    Origin (formatted env) [] i (entries ((formatted env).dir i)) := by
  obtain rfl := (live_formatted env i).mp hlive
  have hcur : (formatted env).Current 0 := rfl
  rw [FS.dir_of_current hcur]
  exact .current (List.append_nil []).symm rfl hcur (away_nil _ _)

/-- The state after a run, as a tree and with the origins of its directories. -/
structure Followed (env : Env) (lines : List Line) (s : FS) : Prop where
  reach : Run.exec step (formatted env) lines = some s
  inv : Inv ∅ s
  steps : DirTree.Steps dot.1 dotdot.1 (formatted env).tree (lines.map Line.action) s.tree
  origin : ∀ i, s.live i = true → (s.inode i).type = .directory →
    Origin (formatted env) lines i (entries (s.dir i))

theorem followed_formatted (env : Env) : Followed env [] (formatted env) :=
  ⟨rfl, inv_formatted env, .refl, fun _ hlive _ => origin_formatted env hlive⟩

theorem Followed.next (h : Followed env lines s) (hline : line.Grows) :
    ∃ s', step s line = some s' ∧ Followed env (lines ++ [line]) s' := by
  obtain ⟨s', hstep, hinv', htree⟩ := step_simulates h.inv (h.steps.wf (wf_formatted env) dots_distinct) hline
  refine ⟨s', hstep, ?_, hinv', ?_, fun i => Origin.step h.inv h.reach hstep htree h.origin⟩
  · rw [Run.exec_concat, h.reach]
    exact hstep
  · rw [List.map_append, List.map_singleton]
    exact h.steps.snoc htree

/-- Every run can be followed. -/
theorem followed_of_run (env : Env) (hlines : ∀ line ∈ lines, line.Grows) : ∃ s, Followed env lines s := by
  obtain ⟨s, -, h⟩ := Run.exec_total (Followed env) (fun _ line => line.Grows) (followed_formatted env)
    (fun _ _ _ h => h.next) lines fun h line t hsplit => hlines line (by simp [hsplit])
  exact ⟨s, h⟩

end

/-- **The file system is a tree**: a run of `create`, `mkdir`, `cd` and `cat`
from a fresh mount returns, and its user sees a tree of directories and files. -/
theorem behavesAsTree_of_run (hmount : fsMount env none = some s₀) (lines : List Line)
    (hlines : ∀ line ∈ lines, line.Grows) :
    ∃ s, Run.exec step s₀ lines = some s ∧ BehavesAsTree s₀ lines s := by
  rw [fsMount_none, Option.some.injEq] at hmount
  subst hmount
  obtain ⟨s, hrun, hinv, hsteps, horigin⟩ := followed_of_run env hlines
  have hwf := hsteps.wf (wf_formatted env) dots_distinct
  refine ⟨s, hrun, ⟨by rwa [tree_formatted] at hsteps, fun name r hcd hval => ?_, fun name r hdot hdotdot hcd hval => ?_,
    fun i hlive htype => ?_, fun before env' name size after s₁ c env'' hsplit hreach hpass hc hc' => ?_⟩⟩
  · obtain ⟨r₁, hrun₁, hinv₁, hcase⟩ := dirChange_tree hinv hwf name
    obtain rfl := Option.some.inj (hcd.symm.trans hrun₁)
    rcases hcase with ⟨hneg, -⟩ | ⟨-, i, hsearch, hdir, hcuri, htree⟩
    · omega
    have hi : s.tree.dirs i = some (entries r.fs.curDir) := entered_dirs hinv₁ htree
    rw [tree_dirs, listing_eq_some] at hi
    refine ⟨i, hsearch, hcuri, ?_⟩
    rw [← hi.2.2]
    exact horigin i hi.1 hi.2.1
  · obtain ⟨r', hback, hval', hinv', htree⟩ := dirChange_back hinv hwf hdot hdotdot hcd hval
    have hentries := tree_dirs_cur hinv'
    rw [htree, tree_dirs_cur hinv, Option.some.injEq] at hentries
    exact ⟨r', hback, hval', hentries.symm⟩
  · have hdir : s.tree.dirs i = some (entries (s.dir i)) := by
      rw [tree_dirs]
      exact listing_eq_some.mpr ⟨hlive, htype, rfl⟩
    exact ⟨hwf.distinct i _ hdir, (hinv.dirs i hlive htype).le⟩
  · subst hsplit
    have hline := hlines ⟨env', .create name size⟩ (by simp)
    obtain ⟨s₁', hrun₁, hinv₁, hsteps₁⟩ := run_simulates (inv_formatted env) (wf_formatted env) before
      fun line hl => hlines line (by simp [hl])
    obtain rfl := Option.some.inj (hreach.symm.trans hrun₁)
    obtain ⟨m, i, hstep, hinvm, hcurm, hmem, htext⟩ := create_made hinv₁ hline hpass
    obtain ⟨m', hstep', -, htree⟩ := step_simulates hinv₁ (hsteps₁.wf (wf_formatted env) dots_distinct) hline
    obtain rfl := Option.some.inj (hstep.symm.trans hstep')
    have hwfm := htree.wf (hsteps₁.wf (wf_formatted env) dots_distinct) dots_distinct
    obtain ⟨s', hrun', hinv', hsteps'⟩ := run_simulates hinvm hwfm after fun line hl => hlines line (by simp [hl])
    rw [Run.exec_append, hreach, Option.bind_some, Run.exec, hstep, Option.bind_some] at hrun
    obtain rfl := Option.some.inj (hrun.symm.trans hrun')
    refine cat_later hinv hsteps' ?_ hinvm hmem htext env''
    rw [hcurm, tree_cur hc, tree_cur hc']

/-- A file, a directory, and into the directory. -/
theorem behavesAsTree_of_run_nested : ∃ s, Run.exec step (formatted quiet)
      [⟨quiet, .create (letter 0) 10⟩, ⟨quiet, .mkdir (letter 1)⟩, ⟨quiet, .cd (letter 1)⟩] = some s ∧
    BehavesAsTree (formatted quiet)
      [⟨quiet, .create (letter 0) 10⟩, ⟨quiet, .mkdir (letter 1)⟩, ⟨quiet, .cd (letter 1)⟩] s := by
  refine behavesAsTree_of_run (fsMount_none quiet) _ fun line hline => ?_
  rcases List.mem_cons.mp hline with rfl | hline
  · exact (by decide : (0 : Int) ≤ 10)
  · rcases List.mem_pair.mp hline with rfl | rfl <;> exact trivial

end OperatingSystem.Fs
