import OperatingSystem.Fs.Session
import OperatingSystem.Fs.Volume

/-!
# OperatingSystem.Fs.Conversation

The shell as its user sees it.  `Answers` says what is answered to a request when the
file system is a given volume, and what volume it is then: a new file or directory
gets the first inode that is no node and the blocks it needs, and what is refused is
refused for a reason that the volume shows.  A `Conversation` is a sequence of
requests and answers.  Whatever the shell reads, if its commands add to the tree or
move in it, it answers as the volume does, and a disk that is left from the root is
taken up again as the same volume (`main_converses`).
-/

namespace OperatingSystem.Fs

open Stdio (lines)

/-! ## Answers -/

/-- What the shell answers to a request in the volume `v`, and the volume
afterwards. -/
inductive Answers (env : Env) (v : Volume) : Request → List Output → Volume → Prop
  | createTooLarge (large : 70656 ≤ size) :
      Answers env v (.command (.create name size)) [.printf (.text "File create failed:  size over 70,656.\n")] v
  /-- A small file that is refused is said to be created all the same, with inode -1. -/
  | createRefused (fits : size < 70656) (why : CreateRefused v name (min size 5119) p) :
      Answers env v (.command (.create name size))
        (if size < 5120 then [.printf p, .printf (.created name.1 (-1) size)] else [.printf p]) v
  | create {i : Fin 512} (fits : size < 70656) (room : HasRoom v name es) (first : FirstFresh v i)
      (blocks : createBlocks size ≤ v.free) :
      Answers env v (.command (.create name size)) [.printf (.created name.1 i size)]
        ⟨v.addFile es name.1 i (randChars env.rand size), v.free - createBlocks size⟩
  /-- Without space for the rest of a large file, its first ten blocks are made. -/
  | createHalf {i : Fin 512} (large : 5120 ≤ size) (fits : size < 70656) (room : HasRoom v name es)
      (first : FirstFresh v i) (ten : 10 ≤ v.free) (blocks : v.free < createBlocks size) :
      Answers env v (.command (.create name size))
        [.printf (.text "File create failed: not enough space\n"), .printf (.created name.1 i size)]
        ⟨v.addFile es name.1 i ((randChars env.rand size).take 5120), v.free - 10⟩
  | mkdir {i : Fin 512} (room : HasRoom v name es) (first : FirstFresh v i) (blocks : 1 ≤ v.free) :
      Answers env v (.command (.mkdir name)) [.printf (.name "Directory %s create success! \n" name.1)]
        ⟨DirTree.addDir dot.1 dotdot.1 v es name.1 i, v.free - 1⟩
  | mkdirRefused (why : MkdirRefused v name p) : Answers env v (.command (.mkdir name)) [.printf p] v
  | cd (leads : Leads v name i) (isDir : (v.dirs i).isSome) :
      Answers env v (.command (.cd name)) [] ⟨v.enter i, v.free⟩
  | cdRefused (why : Refuses v name .directory (.name "Directory change failed:  %s not exist.\n" name.1)
        (.name "Directory change error: input name <%s> is a file not a directory.\n" name.1) p) :
      Answers env v (.command (.cd name)) [.printf p] v
  | cat (leads : Leads v name i) (text : v.text i = some w) :
      Answers env v (.command (.cat name)) [.printf (.contents w)] v
  | catRefused (why : Refuses v name .file (.text "file cat error: file is not exist.\n")
        (.text "file cat error: it is not a file.\n") p) : Answers env v (.command (.cat name)) [.printf p] v
  | ls (dir : v.dirs v.cur = some es) (lists : List.Forall₂ (Lists v) es out) : Answers env v .ls out v
  | stat (leads : Leads v name i) (shows : Shows v i type size) : Answers env v (.stat name)
      [.stat i type (if i = 0 then 0 else 1) (if i = 0 then 0 else 2) size (dataCount size) created access] v
  | statRefused (none : ∀ i, ¬ Leads v name i) :
      Answers env v (.stat name) [.printf (.text "file cat error: file is not exist.\n")] v
  | df : Answers env v .df [.status v.free (v.free * 512) (512 - (nodes v).ncard)] v
  | usage (text : String) : Answers env v (.usage text) [.printf (.text text)] v
  | notFound (comm : List Byte) : Answers env v (.notFound comm) [.notFound comm] v

/-- A sequence of requests, answers and prompts, from one volume to another. -/
inductive Conversation (env : Nat → Env) : Nat → Volume → List Request → List Output → Volume → Prop
  | nil : Conversation env k v [] [] v
  | cons (answer : Answers (env k) v r o v') (rest : Conversation env (k + 1) v' rs out v'') :
      Conversation env k v (r :: rs) (o ++ .prompt :: out) v''

/-- The requests that only add to the tree, move in it or look at it. -/
def Request.Grows : Request → Prop
  | .command c => ∀ e, Line.Grows ⟨e, c⟩
  | _ => True

/-- **The volume changes as the tree does.** -/
theorem Answers.step (h : Answers env v (.command c) out v') :
    DirTree.Step dot.1 dotdot.1 v.toDirTree (Line.action ⟨env, c⟩) v'.toDirTree := by
  cases h with
  | create _ room first => exact .create room.dir room.new first.fresh (List.prefix_refl _)
  | createHalf _ _ room first => exact .create room.dir room.new first.fresh (List.take_prefix _ _)
  | mkdir room first => exact .mkdir room.dir room.new first.fresh
  | cd leads isDir =>
      obtain ⟨es, dir, named⟩ := leads
      exact .enter dir named isDir
  | _ => exact .refused

section Answers

variable {s s' : FS} {L : Set (Fin 4096)} {env : Env} {name : Name} {i c : Fin 512}

/-! ## One request -/

theorem fileCreate_answers (hinv : Inv L s) (h0 : 0 ≤ size) (hrun : fileCreate s env name size = some r) :
    Answers env s.volume (.command (.create name size)) (r.out.map .printf) r.fs.volume := by
  obtain ⟨-, houtcome, -⟩ := fileCreate_some env hinv.counts hrun
  have hten : blocksFor 5119 = 10 := by decide
  cases houtcome with
  | tooLarge large => exact .createTooLarge large
  | refused fits why =>
      rw [apply_ite (List.map Output.printf)]
      exact .createRefused fits (why.volume hinv)
  | small small pass _ run =>
      rw [show min size 5119 = size by omega] at pass
      have hfile := (run.smallFile hinv pass h0 small).newFile small
      rw [show FS.volume (s.smallFile _ _ _) = _ from hfile.volume hinv (hfile.fileText_full hinv h0)]
      refine .create (by omega) (hfile.hasRoom hinv) run.inode.fresh ?_
      rw [createBlocks, if_pos small]
      exact pass.blocks
  | half large fits pass _ run fail =>
      rw [show min size 5119 = 5119 by omega] at pass
      have hfile := (run.smallFile hinv pass (by decide) (by decide)).newFile (by decide)
      have htext := hfile.fileText_eq hinv h0
      rw [hfile.blockCount, show (dataCount 5119).toNat * 512 = 5120 by decide] at htext
      have hvolume : FS.volume (s.smallFile _ _ _) = _ := hfile.volume hinv htext
      have hblocks := pass.blocks
      rw [LargePasses, run.freeBlocks] at fail
      rw [hvolume, show createBlocks 5119 = 10 by decide]
      refine .createHalf large fits (hfile.hasRoom hinv) run.inode.fresh (by rw [volume_free]; omega) ?_
      rw [createBlocks, if_neg (by omega), volume_free]
      omega
  | large large fits pass _ run space grow =>
      rw [show min size 5119 = 5119 by omega] at pass
      have hfile := grow.newFile (run.smallFile hinv pass (by decide) (by decide)) large fits
      rw [LargePasses, run.freeBlocks] at space
      rw [show FS.volume (FS.growFile _ _ _ _ _ _) = _ from hfile.volume hinv (hfile.fileText_full hinv h0)]
      refine .create fits (hfile.hasRoom hinv) run.inode.fresh ?_
      rw [createBlocks, if_neg (by omega), volume_free]
      omega

theorem dirMake_answers (hinv : Inv L s) (hrun : dirMake s env name = some r) :
    Answers env s.volume (.command (.mkdir name)) (r.out.map .printf) r.fs.volume := by
  obtain ⟨c, hcur, hlive, htype⟩ := hinv.current
  have hd := hinv.curDir hcur hlive htype
  by_cases hpass : DirChecksPass s name
  · obtain ⟨j, d, b, t, -, hrun'⟩ := dirMake_run env hinv.counts hpass (Int.le_trans (by decide) hd.pos)
    obtain ⟨r', hmade, hcase⟩ := dirMake_cases hinv env name hcur
    obtain rfl := Option.some.inj (hrun.symm.trans hmade)
    have hout := Option.some.inj (hrun.symm.trans hrun')
    obtain ⟨hneg, -⟩ | ⟨-, i, n, b', hstep, hdir, hstored⟩ := hcase
    · rw [hout] at hneg
      contradiction
    · obtain ⟨-, hfirst, hspace, hfree⟩ := dirMake_node hinv hrun hstep
      rw [FS.volume, FS.volume, hstep.tree_dir hinv hdir hcur hstored, hfree, show r.out = _ from congrArg Ret.out hout]
      exact .mkdir (hstep.hasRoom hinv) hfirst.fresh hspace
  · obtain ⟨x, hsearch⟩ := searchCurDir_some hd.toTable name
    obtain ⟨p, hp, hrun'⟩ := dirMake_refused env hsearch hpass
    obtain rfl := Option.some.inj (hrun.symm.trans hrun')
    exact .mkdirRefused (hp.volume hinv)

theorem dirChange_answers (hinv : Inv L s) (hwf : s.tree.Wf dot.1 dotdot.1) (hrun : dirChange s name = some r) :
    Answers env s.volume (.command (.cd name)) (r.out.map .printf) r.fs.volume := by
  obtain ⟨c, hcur, -⟩ := hinv.current
  obtain ⟨r', hrun', houtcome⟩ := dirChange_outcome hinv hcur name
  obtain rfl := Option.some.inj (hrun.symm.trans hrun')
  obtain ⟨r', hrun', -, hcase⟩ := dirChange_tree hinv hwf name
  obtain rfl := Option.some.inj (hrun.symm.trans hrun')
  have hfree := congrArg SuperBlock.freeBlockCount houtcome.superBlock
  obtain ⟨hneg, htree, -⟩ | ⟨hzero, i, hsearch, hdir, -, htree⟩ := hcase
  · rw [show r.fs.volume = s.volume from FS.volume_eq htree hfree]
    cases houtcome with
    | absent search =>
        obtain ⟨i, hi, -⟩ | ⟨-, hnone⟩ := leads_cases hinv name
        · exact absurd (search.symm.trans hi) (by simp)
        · exact .cdRefused (.nowhere hnone)
    | @mistyped i search type =>
        refine .cdRefused (.mistyped ((leads_iff hinv).mpr search) ?_)
        simp [HasType, FS.listing, type]
    | entered => exact absurd (show (0 : Int) = -1 from hneg) (by decide)
  · rw [show r.fs.volume = _ from FS.volume_eq htree hfree]
    cases houtcome with
    | entered => exact .cd ((leads_iff hinv).mpr hsearch) hdir
    | _ => exact absurd (show (-1 : Int) = 0 from hzero) (by decide)

theorem fileCat_answers (hinv : Inv L s) (hwf : s.tree.Wf dot.1 dotdot.1) (hrun : fileCat s env name = some r) :
    Answers env s.volume (.command (.cat name)) (r.out.map .printf) s.volume := by
  cases named_of_inv hinv hwf name with
  | file target leads text =>
      obtain rfl := Option.some.inj (hrun.symm.trans (fileCat_text hinv target env))
      exact .cat ((leads _).mpr rfl) text
  | @directory i target leads noText =>
      rw [fileCat, lookup_found target.search, if_pos target.typed] at hrun
      obtain rfl := Option.some.inj hrun
      exact .catRefused (.mistyped ((leads i).mpr rfl) (by simp [HasType, noText]))
  | nowhere search leads =>
      rw [fileCat, lookup_absent search] at hrun
      obtain rfl := Option.some.inj hrun
      exact .catRefused (.nowhere leads)

/-- **One request** is answered as the volume does. -/
theorem perform_answers (hinv : Inv L s) (hwf : s.tree.Wf dot.1 dotdot.1) (hs : Sized s) (hr : r.Grows) :
    ∃ out s', perform s env r = some (out, s') ∧ Inv L s' ∧ s'.tree.Wf dot.1 dotdot.1 ∧ Sized s' ∧
      Answers env s.volume r out s'.volume := by
  cases r with
  | command c =>
      have hline : Line.Grows ⟨env, c⟩ := hr env
      obtain ⟨s', hstep, hinv', htree⟩ := step_simulates hinv hwf hline
      have hsized := sized_step hinv hwf hs hline hstep
      obtain ⟨ret, hrun, rfl⟩ := Option.map_eq_some_iff.mp hstep
      refine ⟨_, _, by rw [perform, hrun]; rfl, hinv', htree.wf hwf dots_distinct, hsized, ?_⟩
      cases c with
      | create name size => exact fileCreate_answers hinv hline hrun
      | mkdir name => exact dirMake_answers hinv hrun
      | cd name => exact dirChange_answers hinv hwf hrun
      | cat name =>
          rw [fileCat_fs hrun]
          exact fileCat_answers hinv hwf hrun
      | write _ _ _ _ => exact hline.elim
      | read _ _ _ => exact hline.elim
      | rm _ => exact hline.elim
      | rmdir _ => exact hline.elim
  | ls =>
      obtain ⟨out, hls, hlists⟩ := ls_tree hinv hwf hs
      exact ⟨out, s, by rw [perform, hls]; rfl, hinv, hwf, hs, .ls (tree_dirs_cur hinv) hlists⟩
  | stat name =>
      obtain ⟨i, type, size, created, access, hleads, hshows, hstat⟩ | ⟨hnone, hstat⟩ := fileStat_tree hinv hwf hs name
      · exact ⟨_, s, by rw [perform, hstat]; rfl, hinv, hwf, hs, .stat hleads hshows⟩
      · exact ⟨_, s, by rw [perform, hstat]; rfl, hinv, hwf, hs, .statRefused hnone⟩
  | df =>
      have hnodes : s.superBlock.freeInodeCount = 512 - (nodes s.tree).ncard := by
        have hall := hinv.counts.free_add_nodes
        omega
      refine ⟨_, s, rfl, hinv, hwf, hs, ?_⟩
      rw [fsStat, hnodes]
      exact .df
  | usage text => exact ⟨_, s, rfl, hinv, hwf, hs, .usage text⟩
  | notFound comm => exact ⟨_, s, rfl, hinv, hwf, hs, .notFound comm⟩

/-- **All requests**, one after another. -/
theorem performAll_converses (env : Nat → Env) (rs : List Request) (hrs : ∀ r ∈ rs, r.Grows) (k : Nat)
    (hinv : Inv L s) (hwf : s.tree.Wf dot.1 dotdot.1) (hs : Sized s) :
    ∃ out s', performAll env k rs s = some (out, s') ∧ Inv L s' ∧ s'.tree.Wf dot.1 dotdot.1 ∧ Sized s' ∧
      Conversation env k s.volume rs out s'.volume := by
  induction rs generalizing k s with
  | nil => exact ⟨[], s, rfl, hinv, hwf, hs, .nil⟩
  | cons r rs ih =>
      obtain ⟨o, m, hperform, hinv', hwf', hs', hanswer⟩ := perform_answers hinv hwf hs (hrs r List.mem_cons_self)
      obtain ⟨out, s', hall, hinv'', hwf'', hs'', hrest⟩ :=
        ih (fun r' hr' => hrs r' (List.mem_cons_of_mem r hr')) (k + 1) hinv' hwf' hs'
      refine ⟨o ++ .prompt :: out, s', ?_, hinv'', hwf'', hs'', .cons hanswer hrest⟩
      rw [performAll, hperform]
      simp only [Option.bind_eq_bind, Option.bind_some, hall]
      rfl

end Answers

/-! ## Sessions -/

/-- The disk file is that of a volume: there is none yet, or it was left from the
root of the volume. -/
def Stores (image : Option (Arr 4096 Block)) (v : Volume) : Prop :=
  (image = none ∧ v = .blank) ∨
    ∃ L s tail, image = some (fsUmount s tail) ∧ Inv L s ∧ s.volume = v ∧ s.tree.Wf dot.1 dotdot.1 ∧ Sized s ∧ s.Current 0

section Sessions

variable {s : FS} {L : Set (Fin 4096)} {d : Arr 4096 Block} {image : Option (Arr 4096 Block)} {v : Volume}

theorem sized_formatted (env : Env) : Sized (formatted env) := by
  intro i hlive
  obtain rfl := (live_formatted env i).mp hlive
  refine ⟨Or.inr ⟨rfl, ?_, rfl⟩, rfl, rfl, rfl⟩
  rw [tree_dirs, listing_formatted, Function.update_self]
  rfl

/-- The block of the root belongs to no file and to no other directory. -/
theorem owns_other (hinv : Inv L s) {b : Fin 4096} (hown : Owns s i k b) (hi : i ≠ 0) : 131 < (b : Nat) := by
  have hge := (hinv.owns_used hown).1
  by_contra hle
  obtain rfl : b = 131 := Fin.ext (by simp; omega)
  have hroot : Owns s 0 0 131 := ⟨hinv.rootLive, by simp [ownedBlocks, hinv.rootType, hinv.rootBlock]⟩
  exact hi (hinv.unique i 0 k 0 131 hown hroot).1

/-- **The mounted image** stands for the same tree. -/
theorem mounted_tree (hinv : Inv L s) (hroot : s.Current 0) (h : Image s d) :
    Inv L { s with disk := d, inDirectBMap := fun _ => 0 } ∧
      FS.tree { s with disk := d, inDirectBMap := fun _ => 0 } = s.tree := by
  have hfixed : ∀ b, Fixed s b → d b = s.disk b := fun b hb => by
    obtain ⟨i, k, hown, hcase⟩ := hb.owns hinv
    refine h.rest b (owns_other hinv hown ?_)
    rintro rfl
    obtain ⟨hfile, -⟩ | ⟨-, hnot⟩ := hcase
    · exact absurd hfile (by simp [hinv.rootType])
    · exact hnot hroot
  have hdisk := hinv.setDisk hfixed
  refine ⟨{ hdisk with
    counts := ⟨hinv.counts.inodes, hinv.counts.blocks⟩
    mapFits := fun _ => (by decide : Codec.Fits 0) }, ?_⟩
  have hsame : SameDirs s { s with disk := d, inDirectBMap := fun _ => 0 } :=
    ⟨rfl, fun _ => rfl, fun i hlive htype => dir_setDisk hinv hfixed hlive htype⟩
  refine hsame.tree fun i hlive htype => fileText_congr hinv hlive htype fun k b hown => h.rest b (owns_other hinv hown ?_)
  rintro rfl
  exact absurd htype (by simp [hinv.rootType])

/-- What `fs_mount` makes of a disk file that is that of a volume. -/
theorem Stores.mount (h : Stores image v) (env : Env) : ∃ L s, fsMount env image = some s ∧ Inv L s ∧ s.volume = v ∧
    s.tree.Wf dot.1 dotdot.1 ∧ Sized s := by
  obtain ⟨rfl, rfl⟩ | ⟨L, s, tail, rfl, hinv, rfl, hwf, hs, hroot⟩ := h
  · refine ⟨∅, formatted env, fsMount_none env, inv_formatted env, volume_formatted env, ?_, sized_formatted env⟩
    rw [tree_formatted]
    exact DirTree.wf_root _ _ _
  · have himage := image_fsUmount hinv.curDirBlock tail
    obtain ⟨hinv', htree⟩ := mounted_tree hinv hroot himage
    refine ⟨L, _, congrArg some (fsLoad_image hinv himage), hinv', ?_, by rw [htree]; exact hwf, fun i hlive => ?_⟩
    · exact FS.volume_eq htree rfl
    · rw [htree]
      exact hs i hlive

/-- **The shell is a volume**: whatever it reads, if its commands add to the tree or
move in it, it answers as the volume does; and when it ends at the root, the disk it
leaves is taken up again as the volume it had then. -/
theorem main_converses (hstores : Stores image v) (hread : readRequests (lines 256 stdin) = some rs)
    (hrs : ∀ r ∈ rs, r.Grows) (env : Nat → Env) (tail : Nat → Byte) :
    ∃ out disk v', main env image tail stdin = some (.prompt :: out, disk) ∧ Conversation env 1 v rs out v' ∧
      (v'.cur = 0 → Stores (some disk) v') := by
  obtain ⟨L, s, hmount, hinv, rfl, hwf, hs⟩ := hstores.mount (env 0)
  obtain ⟨out, s', hall, hinv', hwf', hs', hconverse⟩ := performAll_converses env rs hrs 1 hinv hwf hs
  exact ⟨out, fsUmount s' tail, s'.volume, main_of_performAll hmount hread hall tail, hconverse,
    fun hcur => Or.inr ⟨L, s', tail, rfl, hinv', rfl, hwf', hs', hcur⟩⟩

/-- A fresh file system, where a directory is made and listed. -/
theorem main_converses_fresh : ∃ out disk v', main (fun _ => quiet) none (fun _ => 0)
      (typed [.command (.mkdir (letter 0)), .ls]) = some (.prompt :: out, disk) ∧
    Conversation (fun _ => quiet) 1 .blank [.command (.mkdir (letter 0)), .ls] out v' ∧
    (v'.cur = 0 → Stores (some disk) v') := by
  have hread : readRequests (lines 256 (typed [.command (.mkdir (letter 0)), .ls])) =
      some [.command (.mkdir (letter 0)), .ls] := by rfl
  refine main_converses (Or.inl ⟨rfl, rfl⟩) hread (fun r hr => ?_) (fun _ => quiet) fun _ => 0
  obtain rfl | rfl := List.mem_pair.mp hr
  · exact fun _ => trivial
  · exact trivial

end Sessions

end OperatingSystem.Fs
