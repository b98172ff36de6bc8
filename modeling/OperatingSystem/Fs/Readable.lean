import OperatingSystem.Fs.Contents

/-!
# OperatingSystem.Fs.Readable

The block numbers `file_read` meets.  It looks up the blocks of its range in the
direct pointers and, from the tenth on, in the map, whether the file has such
blocks or not: a small file has an indirect pointer too, left over from an
earlier use of its inode.  In a safe run all of these are numbers of blocks
(`readable_of_safe`), since the block of a map is never given back.
-/

namespace OperatingSystem.Fs

/-- A block that keeps what it holds: metadata, a lost block, or the map of a
large file. -/
def MapBlock (L : Set (Fin 4096)) (s : FS) (b : Fin 4096) : Prop :=
  (b : Nat) < 131 ∨ b ∈ L ∨ ∃ i, Owns s i 10 b

/-- Every indirect pointer, also of a free inode, leads to a block of block
numbers. -/
structure Readable (L : Set (Fin 4096)) (s : FS) : Prop where
  size : ∀ i, s.live i = true → (s.inode i).type = .file → (s.inode i).size < 70656
  global : ∀ k, ∃ b : Fin 4096, s.inDirectBMap k = b
  entries : ∀ i k, ∃ b : Fin 4096, mapOf s (s.inode i) k = b
  held : ∀ i (b : Fin 4096), (s.inode i).indirectBlock = b → MapBlock L s b

section Step

variable {s s' : FS} {L L' : Set (Fin 4096)} {b : Fin 4096} {i : Fin 512}

theorem MapBlock.used (hinv : Inv L s) (h : MapBlock L s b) : s.used b = true := by
  rcases h with hmeta | hlost | ⟨i, hown⟩
  · exact hinv.metadata b hmeta
  · exact hinv.lost b hlost
  · exact (hinv.owns_used hown).2.1

/-- A map is no data block. -/
theorem MapBlock.position (hinv : Inv L s) (h : MapBlock L s b) (hown : Owns s i k b) : k = 10 := by
  obtain ⟨hge, -, hnot⟩ := hinv.owns_used hown
  rcases h with hmeta | hlost | ⟨j, hown'⟩
  · omega
  · exact absurd hlost hnot
  · exact (hinv.unique i j k 10 b hown hown').2

/-- The map depends on the indirect pointer and on the block it leads to. -/
theorem mapOf_eq {n n' : Inode} (hn : n'.indirectBlock = n.indirectBlock)
    (hdisk : ∀ b : Fin 4096, n.indirectBlock = b → s'.disk b = s.disk b) : mapOf s' n' = mapOf s n := by
  have hcongr := mapOf_congr (n := n) hdisk
  rw [← hcongr, mapOf, mapOf, hn]

/-- **What keeps the maps**: their blocks stay, and an indirect pointer that
changes leads to a new map. -/
theorem Readable.next (h : Readable L s) (hdisk : ∀ b, MapBlock L s b → s'.disk b = s.disk b)
    (hmaps : ∀ b, MapBlock L s b → MapBlock L' s' b)
    (hnodes : ∀ i, (s'.inode i).indirectBlock = (s.inode i).indirectBlock ∨
      ((∀ k, ∃ b : Fin 4096, mapOf s' (s'.inode i) k = b) ∧
        ∀ b : Fin 4096, (s'.inode i).indirectBlock = b → MapBlock L' s' b))
    (hsize : ∀ i, s'.live i = true → (s'.inode i).type = .file → (s'.inode i).size < 70656)
    (hglobal : ∀ k, ∃ b : Fin 4096, s'.inDirectBMap k = b) : Readable L' s' := by
  refine ⟨hsize, hglobal, fun i => ?_, fun i b hb => ?_⟩
  · rcases hnodes i with hsame | ⟨hnew, -⟩
    · rw [mapOf_eq hsame fun b hb => hdisk b (h.held i b hb)]
      exact h.entries i
    · exact hnew
  · rcases hnodes i with hsame | ⟨-, hnew⟩
    · exact hmaps b (h.held i b (hsame ▸ hb))
    · exact hnew b hb

/-! ## Creating -/

theorem CreateStep.eq_of_live (h : CreateStep s name i n bs s') (hfree : s.live j = false)
    (hlive : s'.live j = true) : j = i :=
  ((h.live j).mp hlive).resolve_right (by simp [hfree])

/-- A new inode keeps the pointer it had, or has a new map. -/
theorem Readable.create (h : Readable L s) (hinv : Inv L s) (hstep : CreateStep s name i n bs s')
    (hsize : n.type = .file → n.size < 70656) (hglobal : ∀ k, ∃ b : Fin 4096, s'.inDirectBMap k = b)
    (hmap : n.indirectBlock = (s.inode i).indirectBlock ∨
      (n.type = .file ∧ 10 < n.blockCount ∧ ∀ k, ∃ b : Fin 4096, mapOf s' n k = b)) : Readable L s' := by
  have hself : s'.inode i = n := by rw [hstep.inode, Function.update_self]
  have hother : ∀ j, j ≠ i → s'.inode j = s.inode j := fun j hj => by
    rw [hstep.inode, Function.update_of_ne hj]
  have hlive : s'.live i = true := (hstep.live i).mpr (Or.inl rfl)
  refine h.next (fun b hb => hstep.disk b fun hmem => ?_) (fun b hb => ?_) (fun j => ?_) (fun j hl ht => ?_) hglobal
  · have hused := hb.used hinv
    rw [hstep.fresh b hmem] at hused
    contradiction
  · refine hb.imp_right (Or.imp_right ?_)
    rintro ⟨j, hown⟩
    refine ⟨j, (hstep.owns_iff hinv j 10 b).mpr (Or.inr ⟨?_, hown⟩)⟩
    rintro rfl
    exact nomatch hstep.free.symm.trans hown.1
  · by_cases hj : j = i
    · subst hj
      rw [hself]
      refine hmap.imp_right fun ⟨htype, hc, hentries⟩ => ⟨hentries, fun b hb => Or.inr (Or.inr ⟨j, ?_⟩)⟩
      exact owns_indirect hlive (by rw [hself]; exact htype) (by rw [hself]; exact hc) (by rw [hself]; exact hb)
    · rw [hother j hj]
      exact Or.inl rfl
  · by_cases hj : j = i
    · subst hj
      rw [hself] at ht ⊢
      exact hsize ht
    · rw [hother j hj] at ht ⊢
      exact h.size j (((hstep.live j).mp hl).resolve_left hj) ht

/-- The pointers of the loops are those of the blocks taken. -/
theorem place_entries {p : Arr m Int} (hp : ∀ k, ∃ b : Fin 4096, p k = b) (bs : List (Fin 4096)) (k : Fin m) :
    ∃ b : Fin 4096, place p bs k = b := by
  dsimp only [place]
  split
  · exact ⟨_, rfl⟩
  · exact hp k

/-- What `file_create` leaves has readable maps. -/
theorem Outcome.readable (h : Readable L s) (hinv : Inv L s) (houtcome : Outcome s env name size r)
    (hstep : CreateStep s name i n bs r.fs) (hsize : n.type = .file → n.size < 70656) : Readable L r.fs := by
  have hself : r.fs.inode i = n := by rw [hstep.inode, Function.update_self]
  have hfree := hstep.free
  have hlive : r.fs.live i = true := (hstep.live i).mpr (Or.inl rfl)
  have hsmall : ∀ {size tmp j d bs t}, SmallRun s env name size tmp j d bs t → r.fs = s.smallFile t j bs →
      Readable L r.fs := by
    intro size tmp j d bs t run heq
    obtain ⟨hnode, hglobal, hmade⟩ := run.made
    obtain rfl : j = i := hstep.eq_of_live run.inode.free (by rw [heq]; exact hmade)
    refine h.create hinv hstep hsize (by rw [heq, hglobal]; exact h.global) (Or.inl ?_)
    rw [← hself, heq, hnode]
    rfl
  cases houtcome with
  | tooLarge => exact nomatch hfree.symm.trans hlive
  | refused => exact nomatch hfree.symm.trans hlive
  | small _ _ _ run => exact hsmall run rfl
  | half _ _ _ _ run => exact hsmall run rfl
  | @large j d bs' t b cs u hlarge hfits _ _ run _ grow =>
      obtain ⟨htype, -, hcount, -⟩ := grow.made run
      obtain ⟨-, hsame, hmade⟩ := run.made
      obtain rfl : j = i := hstep.eq_of_live run.inode.free ((grow.live j).trans hmade)
      have hpos := blocksFor_of_nonneg (show 0 ≤ size - 5119 by omega)
      have hglobal := place_entries (p := (s.smallFile t j bs').inDirectBMap) (by rw [hsame]; exact h.global) cs
      obtain ⟨hindirect, hplace, hdisk⟩ := growFile_map (s.smallFile t j bs') u j (size - 5119) b cs
      refine h.create hinv hstep hsize hglobal (Or.inr ?_)
      rw [← hself]
      refine ⟨htype, by rw [hcount]; omega, ?_⟩
      have hfits := hstep.mapFits
      rw [hplace] at hfits
      rw [mapOf_store hindirect hdisk hfits]
      exact hglobal

theorem fileCreate_readable (hinv : Inv L s) (h : Readable L s) (hrun : fileCreate s env name size = some r) :
    Inv L r.fs ∧ Readable L r.fs := by
  obtain ⟨h0, houtcome, -⟩ := fileCreate_some env hinv.counts hrun
  have hnew : ∀ {m i n}, NewFile s name m (createBuffer env size) i n r.fs → m < 70656 →
      Inv L r.fs ∧ Readable L r.fs := by
    intro m i n hfile hm
    obtain ⟨bs, hstep⟩ := hfile.step
    exact ⟨hstep.inv hinv, houtcome.readable h hinv hstep fun _ => by rw [hfile.sized]; exact hm⟩
  obtain ⟨r₂, hrun₂, hcase⟩ := fileCreate_cases hinv env name h0
  obtain rfl := Option.some.inj (hrun.symm.trans hrun₂)
  rcases hcase with ⟨-, hfs | ⟨i, n, hfile⟩⟩ | ⟨hpass, i, n, hfile⟩
  · rw [hfs]
    exact ⟨hinv, h⟩
  · exact hnew hfile (by decide)
  · exact hnew hfile hpass.fits

/-- So does a new directory. -/
theorem dirMake_readable (h : Readable L s) (hinv : Inv L s) (hrun : dirMake s env name = some r)
    (hstep : CreateStep s name i n bs r.fs) (htype : n.type = .directory) : Readable L r.fs := by
  have hself : r.fs.inode i = n := by rw [hstep.inode, Function.update_self]
  obtain ⟨c, hcur, hlive, hctype⟩ := hinv.current
  have hd := hinv.curDir hcur hlive hctype
  have hpos := hd.pos
  by_cases hpass : DirChecksPass s name
  · obtain ⟨j, d, b, t, hmade, hrun'⟩ := dirMake_run env hinv.counts hpass (by omega)
    obtain rfl := Option.some.inj (hrun.symm.trans hrun')
    obtain ⟨hnode, hglobal, hjlive⟩ := addInode_made hmade.taken hmade.inode.free (place (s.inode j).directBlock [b])
    obtain rfl : j = i := hstep.eq_of_live hmade.inode.free hjlive
    refine h.create hinv hstep (fun ht => nomatch htype.symm.trans ht) (by rw [hglobal]; exact h.global) (Or.inl ?_)
    rw [← hself, hnode]
    rfl
  · obtain ⟨x, hsearch⟩ := searchCurDir_some hd.toTable name
    obtain ⟨out, -, hrun'⟩ := dirMake_refused env hsearch hpass
    obtain rfl := Option.some.inj (hrun.symm.trans hrun')
    exact nomatch hstep.free.symm.trans ((hstep.live i).mpr (Or.inl rfl))

/-! ## Removing, writing and entering -/

theorem Readable.remove (h : Readable L s) (hstep : RemoveStep s i freed s') (hunlinked : Unlinked s i freed t)
    (hrun : removeEntry t i = some s') : Readable (L ∪ leaked s i freed) s' := by
  obtain ⟨-, -, hinode⟩ := removeEntry_cases hrun
  have hnodes : t.inode = s.inode := by
    rw [hunlinked.blocks.rest]
    rfl
  rw [hnodes] at hinode
  refine h.next (fun b _ => by rw [hstep.disk]) (fun b hb => ?_) (fun j => Or.inl ?_) (fun j hl ht => ?_)
    (by rw [hstep.inDirectBMap]; exact h.global)
  · rcases hb with hmeta | hlost | ⟨j, hown⟩
    · exact Or.inl hmeta
    · exact Or.inr (Or.inl (Or.inl hlost))
    · by_cases hj : j = i
      · subst hj
        exact Or.inr (Or.inl (Or.inr ⟨⟨10, hown⟩, hunlinked.spared b hown⟩))
      · exact Or.inr (Or.inr ⟨j, (hstep.owns_iff j 10 b).mpr ⟨hj, hown⟩⟩)
  · rcases hinode with heq | ⟨k, l, -, heq⟩
    · rw [heq]
    · rw [heq]
      by_cases hj : j = k
      · subst hj
        rw [Function.update_self]
      · rw [Function.update_of_ne hj]
  · obtain ⟨hj, hl⟩ := (hstep.live j).mp hl
    rw [hstep.inode j hj] at ht ⊢
    exact h.size j hl ht

/-- Writing elsewhere keeps the maps. -/
theorem Readable.setDisk (h : Readable L s) (hinv : Inv L s) (hfixed : ∀ b, Fixed s b → d b = s.disk b)
    (hdisk : ∀ b, d b ≠ s.disk b → ∃ i k, Owns s i k b ∧ k ≠ 10) : Readable L { s with disk := d } := by
  refine h.next (fun b hb => ?_) (fun b hb => ?_) (fun j => Or.inl rfl) h.size h.global
  · by_contra hne
    obtain ⟨i, k, hown, hk⟩ := hdisk b hne
    exact hk (hb.position hinv hown)
  · refine hb.imp_right (Or.imp_right ?_)
    rintro ⟨j, hlive, hk⟩
    refine ⟨j, hlive, ?_⟩
    rwa [ownedBlocks_setDisk hfixed hlive]

theorem Readable.flush (h : Readable L s) (hinv : Inv L s) (hcur : s.Current c) (hlive : s.live c = true)
    (htype : (s.inode c).type = .directory) : Readable L (s.flush c) := by
  obtain ⟨b, hb, hown⟩ := hinv.dirBlock hlive htype
  rw [flush_eq]
  refine h.setDisk hinv (flush_fixed hinv hcur hlive htype) fun b' hne => ⟨c, 0, ?_, by decide⟩
  rw [FS.flush, diskWrite_disk] at hne
  split at hne
  · next heq =>
      obtain rfl : b = b' := Fin.ext (by omega)
      exact hown
  · exact absurd rfl hne

/-- A write to data blocks keeps the maps. -/
theorem Readable.setData (h : Readable L s) (hinv : Inv L s) (hdata : ∀ b, d b ≠ s.disk b → IsDataOf s name b) :
    Readable L { s with disk := d } := by
  refine h.setDisk hinv (fun b hfixed => ?_) (fun b hne => ?_)
  · by_contra hne
    exact (hdata b hne).not_fixed hinv hfixed
  · obtain ⟨i, -, hlive, htype, hmem⟩ := hdata b hne
    obtain ⟨k, hk, hne⟩ := ownedBlocks_data htype hmem
    exact ⟨i, k, ⟨hlive, hk⟩, hne⟩

/-- Removing what a name denotes. -/
theorem remove_readable (h : Readable L s) (hinv : Inv L s) (htarget : Target s name type i) (hroot : i ≠ 0)
    (hother : ¬ s.Current i) (hunlinked : Unlinked s i freed t)
    (hrun : (removeEntry t (i : Fin 512)).map (fun s' => (⟨0, out, s'⟩ : Ret)) = some r) :
    ∃ L', Inv L' r.fs ∧ Readable L' r.fs := by
  obtain ⟨s', hentry, rfl⟩ := Option.map_eq_some_iff.mp hrun
  have hstep := removeStep_of_unlinked hinv htarget hroot hother hunlinked hentry
  exact ⟨_, hstep.inv hinv, h.remove hstep hunlinked hentry⟩

/-- **One safe step.** -/
theorem step_readable (hinv : Inv L s) (h : Readable L s) (hsafe : SafeStep s line) (hstep : step s line = some s') :
    ∃ L', Inv L' s' ∧ Readable L' s' := by
  obtain ⟨env, command⟩ := line
  obtain ⟨r, hrun, rfl⟩ := Option.map_eq_some_iff.mp hstep
  obtain ⟨c, hcur, hclive, hctype⟩ := hinv.current
  cases command with
  | create name size =>
      simp only [execute] at hrun
      exact ⟨L, fileCreate_readable hinv h hrun⟩
  | cat name =>
      rw [fileCat_fs hrun]
      exact ⟨L, hinv, h⟩
  | write name offset size buf =>
      obtain ⟨hfs, hdata⟩ := fileWrite_isDataOf hsafe hrun
      rw [hfs]
      refine ⟨L, hinv.setDisk fun b hfixed => ?_, h.setData hinv hdata⟩
      by_contra hne
      exact (hdata b hne).not_fixed hinv hfixed
  | read name offset size =>
      rw [fileRead_fs hrun]
      exact ⟨L, hinv, h⟩
  | rm name =>
      simp only [execute] at hrun
      rcases fileRemove_cases hinv name with ⟨-, out, hrun'⟩ | ⟨i, freed, t, out, htarget, hunlinked, hrun'⟩
      · rw [← Option.some.inj (hrun'.symm.trans hrun)]
        exact ⟨L, hinv, h⟩
      · obtain ⟨hroot, hother⟩ := htarget.file_ne hinv
        exact remove_readable h hinv htarget hroot hother hunlinked (hrun'.symm.trans hrun)
  | mkdir name =>
      simp only [execute] at hrun
      obtain ⟨r', hrun', hcase⟩ := dirMake_cases hinv env name hcur
      obtain rfl := Option.some.inj (hrun.symm.trans hrun')
      rcases hcase with ⟨-, hfs⟩ | ⟨-, i, n, b, hmade, htype, -⟩
      · rw [hfs]
        exact ⟨L, hinv, h⟩
      · exact ⟨L, hmade.inv hinv, dirMake_readable h hinv hrun hmade htype⟩
  | rmdir name =>
      simp only [execute] at hrun
      rcases dirRemove_cases hinv name with ⟨-, out, hrun'⟩ | ⟨i, freed, t, out, htarget, hunlinked, hrun'⟩
      · rw [← Option.some.inj (hrun'.symm.trans hrun)]
        exact ⟨L, hinv, h⟩
      · obtain ⟨hroot, hother⟩ := hsafe i htarget
        exact remove_readable h hinv htarget hroot hother hunlinked (hrun'.symm.trans hrun)
  | cd name =>
      simp only [execute] at hrun
      obtain ⟨r', hrun', hcase⟩ := dirChange_cases hinv hcur name
      obtain rfl := Option.some.inj (hrun.symm.trans hrun')
      have hflush := h.flush hinv hcur hclive hctype
      rcases hcase with ⟨-, hfs, -⟩ | ⟨-, i, hsearch, htype, hfs⟩
      · rw [hfs]
        exact ⟨L, hinv.flush hcur hclive hctype, hflush⟩
      · rw [hfs]
        exact ⟨L, hinv.flush_enter hcur (hsafe i hsearch htype) htype, ⟨hflush.size, hflush.global, hflush.entries, hflush.held⟩⟩

end Step

/-! ## Safe runs -/

/-- A block of zeros is a map of zeros. -/
theorem zeroMap : ∀ k, (InDirectBlockMap.codec.load (fun _ => 0 : Block) : InDirectBlockMap) k = 0 := by
  decide +kernel

theorem readable_formatted (env : Env) : Readable ∅ (formatted env) := by
  have hnode : ∀ i, ((formatted env).inode i).indirectBlock = 0 := fun i => by
    by_cases hi : i = 0
    · subst hi
      rfl
    · simp only [formatted, Function.update_of_ne hi]
      rfl
  refine ⟨fun i hl ht => ?_, fun _ => ⟨0, rfl⟩, fun i k => ?_, fun i b hb => Or.inl ?_⟩
  · obtain rfl := (live_formatted env i).mp hl
    contradiction
  · have hzero : mapOf (formatted env) ((formatted env).inode i) = InDirectBlockMap.codec.load (fun _ => 0 : Block) := by
      rw [mapOf, hnode]
      exact congrArg InDirectBlockMap.codec.load (diskRead_fin (formatted env) 0 _)
    rw [hzero]
    exact ⟨0, zeroMap k⟩
  · rw [hnode] at hb
    omega

/-- **The run lemma**: in every state a safe run reaches, the maps are
readable. -/
theorem readable_of_safe {s₀ s : FS} (hmount : fsMount env none = some s₀) (hsafe : Run.Along step SafeStep s₀ lines)
    (h : Run.exec step s₀ lines = some s) : ∃ L, Inv L s ∧ Readable L s := by
  rw [fsMount_none, Option.some.injEq] at hmount
  subst hmount
  exact Run.exec_along (fun s => ∃ L, Inv L s ∧ Readable L s)
    (fun s line s' ⟨L, hinv, hread⟩ hsafe hstep => step_readable hinv hread hsafe hstep) lines
    ⟨∅, inv_formatted env, readable_formatted env⟩ hsafe h

end OperatingSystem.Fs
