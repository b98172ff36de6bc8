import OperatingSystem.Fs.Orphans
import OperatingSystem.Fs.Volume
import OperatingSystem.Lib.TreeEdit

/-!
# OperatingSystem.Fs.Prune

`rm` and `rmdir` in the volume a state stands for.  Where the compaction is clean, the
inode is taken away with its entry, whose place the last entry of the directory takes
(`Unlinked.volume`).  The tree shows whether it is: the entry is the last one, or its
place is the number of its inode (`Clean`).
-/

namespace OperatingSystem.Fs

open Splice (takeOut)

/-- The entry is the last one of the current directory, or its place is the number
of the inode. -/
def Clean (t : Tree) (name : Name) (i : Int) : Prop :=
  ∃ es p, t.dirs t.cur = some es ∧ es[p]? = some (name.1, i) ∧ (p + 1 = es.length ∨ i = p)

/-! ## The entries after the compaction -/

section Entries

variable {d : Dentry} {s s' : FS} {name : Name} {i : Fin 512}

theorem getElem?_entries {k : Fin 25} (hk : (k : Int) < d.numEntry) :
    (entries d)[(k : Nat)]? = some (cstr (d.dentry k).name, (d.dentry k).inode) := by
  rw [entries, List.getElem?_map, List.getElem?_take_of_lt (by omega),
    List.getElem?_eq_getElem (by simp), List.getElem_finRange]
  rfl

theorem place_of_getElem? (hd : Table d) (h : (entries d)[p]? = some (x, y)) : ∃ k : Fin 25, (k : Nat) = p ∧
    (k : Int) < d.numEntry ∧ cstr (d.dentry k).name = x ∧ (d.dentry k).inode = y := by
  have hle := hd.le
  have hlen := length_entries hd
  obtain ⟨hp, -⟩ := List.getElem?_eq_some_iff.mp h
  have hk : (((⟨p, by omega⟩ : Fin 25) : Nat) : Int) < d.numEntry := by
    show (p : Int) < d.numEntry
    omega
  have hget := getElem?_entries hk
  obtain ⟨hx, hy⟩ := Prod.mk.inj (Option.some.inj (hget.symm.trans h))
  exact ⟨⟨p, by omega⟩, rfl, hk, hx, hy⟩

/-- **The compaction**, if it is clean, takes the entry out. -/
theorem RemoveEntry.entries_eq (hd : Table s.curDir) (hsearch : searchCurDir s name = some (i : Int))
    (hclean : CleanHole s name i) (h : RemoveEntry s.curDir i s'.curDir)
    (hentry : (entries s.curDir)[p]? = some (name.1, (i : Int))) :
    entries s'.curDir = takeOut (entries s.curDir) p := by
  obtain ⟨q, n, hq, hqname, hn, hkeep, hmove⟩ := h.places hd hsearch hclean
  obtain ⟨q', hqp, hq', hqname', -⟩ := place_of_getElem? hd hentry
  obtain rfl := hd.distinct q q' hq hq' (hqname.trans hqname'.symm)
  have hd' := h.table hd
  have hnum := h.numEntry
  have hlen := length_entries hd
  have hlen' := length_entries hd'
  refine List.ext_getElem? fun k => ?_
  rw [Splice.getElem?_takeOut (by omega)]
  by_cases hk : k + 1 < (entries s.curDir).length
  · obtain ⟨j, rfl⟩ : ∃ j : Fin 25, (j : Nat) = k := ⟨⟨k, by have := hd.le; omega⟩, rfl⟩
    have hj : (j : Int) < s.curDir.numEntry - 1 := by omega
    rw [if_pos hk, getElem?_entries (by omega)]
    by_cases hjq : j = q
    · subst hjq
      have hjn : j ≠ n := by
        rintro rfl
        omega
      rw [if_pos hqp, hmove hjn, show (entries s.curDir).length - 1 = (n : Nat) by omega,
        getElem?_entries (by omega)]
    · rw [if_neg fun h => hjq (Fin.ext (h.trans hqp.symm)), getElem?_entries (by omega), hkeep j hj hjq]
  · rw [if_neg hk, List.getElem?_eq_none (by omega)]

end Entries

section Prune

variable {s s' t : FS} {L : Set (Fin 4096)} {name : Name} {i c d j : Fin 512} {freed : List (Fin 4096)}

/-! ## Who names an inode -/

/-- A node that names none is named by its entry only, but for its own. -/
theorem Planted.only_named (h : Planted s) (hnames : Names s c name.1 i) (hleaf : ∀ b j, ¬ Names s i b j)
    (hes : s.listing d = some es) (hmem : (a, (i : Int)) ∈ es) : d = i ∨ (d = c ∧ a = name.1) := by
  by_cases hdot : a = dot.1
  · have hid : (i : Int) = d := (h.self hes).mp (hdot ▸ hmem)
    exact Or.inl (Fin.ext (by omega))
  by_cases hdotdot : a = dotdot.1
  · obtain ⟨q, b, hq, hback⟩ := h.parent hes (hdotdot ▸ hmem)
    obtain rfl : i = q := Fin.ext (by omega)
    exact absurd hback (hleaf b d)
  · exact Or.inr (h.rooted.unique ⟨⟨es, hes, hmem⟩, hdot, hdotdot⟩ hnames)

/-- What is clean in the tree is a clean hole. -/
theorem Clean.hole (hinv : Inv L s) (honly : ∀ a, (a, (i : Int)) ∈ entries s.curDir → a = name.1)
    (h : Clean s.tree name i) :
    CleanHole s name i ∧ ∃ p : Nat, (entries s.curDir)[p]? = some (name.1, (i : Int)) := by
  obtain ⟨c, hcur, hlive, htype⟩ := hinv.current
  have hd := (hinv.curDir hcur hlive htype).toTable
  obtain ⟨es, p, hes, hentry, hplace⟩ := h
  rw [tree_dirs_cur hinv, Option.some.injEq] at hes
  subst hes
  obtain ⟨q, rfl, hq, hname, -⟩ := place_of_getElem? hd hentry
  have hlen := length_entries hd
  refine ⟨⟨q, hq, hname, ?_⟩, q, hentry⟩
  by_cases hlast : (q : Int) = s.curDir.numEntry - 1
  · exact Or.inl hlast
  · refine Or.inr ⟨by omega, fun n hn heq => hlast ?_⟩
    have hsame := honly _ (mem_entries.mpr ⟨n, by omega, rfl, heq⟩)
    rw [hd.distinct q n hq (by omega) (hname.trans hsame.symm), hn]

/-! ## The tree -/

section Step

variable (hinv : Inv L s) (h : RemoveStep s i freed s')

include h in
theorem RemoveStep.live_other (hji : j ≠ i) : s'.live j = s.live j := by
  rw [Bool.eq_iff_iff, h.live, and_iff_right hji]

include h in
/-- The sizes of the others stay. -/
theorem RemoveStep.sized (hs : Sized s) (htree : s'.tree = s.tree.remove (entries s.curDir) p i) : Sized s' := by
  intro j hlive
  obtain ⟨hji, hold⟩ := (h.live j).mp hlive
  have hne : (j : Int) ≠ i := fun heq => hji (Fin.ext (by omega))
  rw [h.inode j hji, htree]
  refine (hs j hold).congr (DirTree.remove_text_of_ne hne) fun hdir => ?_
  rw [DirTree.remove_dirs_of_ne hne]
  by_cases hjc : (j : Int) = s.tree.cur
  · rw [hjc, Function.update_self]
    rfl
  · rwa [Function.update_of_ne hjc]

include hinv h

theorem RemoveStep.text_other (hji : j ≠ i) : s'.text j = s.text j :=
  text_congr (h.live_other hji) (h.inode j hji) fun hlive htype => by
    refine fileText_congr hinv hlive htype fun k b _ => ?_
    rw [h.disk]

/-- **Removing** in the tree. -/
theorem RemoveStep.tree (hentries : entries s'.curDir = takeOut (entries s.curDir) p) :
    s'.tree = s.tree.remove (entries s.curDir) p i := by
  obtain ⟨c, hcur, -⟩ := hinv.current
  have hcur' := (h.current_iff hinv c).mpr hcur
  have hlisting : s'.listing =
      Function.update (Function.update s.listing c (some (takeOut (entries s.curDir) p))) i none := by
    funext j
    by_cases hji : j = i
    · rw [hji, Function.update_self, h.listing_gone]
    · rw [Function.update_of_ne hji]
      by_cases hjc : j = c
      · rw [hjc, Function.update_self, h.listing_current hinv hcur, hentries]
      · rw [Function.update_of_ne hjc]
        exact h.listing_other hinv hji fun hj => hjc (hj.unique hcur)
  have htext : s'.text = Function.update s.text i none := by
    funext j
    by_cases hji : j = i
    · rw [hji, Function.update_self, FS.text, if_neg fun hi => ((h.live i).mp hi.1).1 rfl]
    · rw [Function.update_of_ne hji, h.text_other hinv hji]
  simp only [FS.tree, DirTree.remove]
  rw [hlisting, htext, atInode_update, atInode_update, atInode_update, show (s.curDir.dentry 0).inode = c from hcur,
    show (s'.curDir.dentry 0).inode = c from hcur']

end Step

/-- **A clean removal** of an inode that names no other: the node is taken away with
its entry. -/
theorem Unlinked.volume (hinv : Inv L s) (hp : Planted s) (hwf : s.tree.Wf dot.1 dotdot.1) (hs : Sized s)
    (htarget : Target s name type i) (hunlinked : Unlinked s i freed t) (hclean : Clean s.tree name i)
    (hdots : name.1 ≠ dot.1 ∧ name.1 ≠ dotdot.1) (hleaf : ∀ b j, ¬ Names s i b j) (out : List Printf) :
    CleanHole s name i ∧ ∃ s' p, (removeEntry t i).map (fun s' => (⟨0, out, s'⟩ : Ret)) = some ⟨0, out, s'⟩ ∧
      (entries s.curDir)[p]? = some (name.1, (i : Int)) ∧
      s'.volume = ⟨s.tree.remove (entries s.curDir) p i, s.superBlock.freeBlockCount + freed.length⟩ ∧
      s'.tree.Wf dot.1 dotdot.1 ∧ Sized s' := by
  obtain ⟨c, hcur, hlive, htype⟩ := hinv.current
  have hd := (hinv.curDir hcur hlive htype).toTable
  have hes := hinv.listing_current hcur
  have hnames : Names s c name.1 i := ⟨⟨_, hes, hinv.search_iff.mp htarget.search⟩, hdots⟩
  have hroot : i ≠ 0 := by
    rintro rfl
    exact hp.rooted.top hnames
  have hic : c ≠ i := by
    rintro rfl
    exact hleaf _ _ hnames
  have hother : ¬ s.Current i := fun hi => hic (hcur.unique hi)
  obtain ⟨hhole, p, hentry⟩ := hclean.hole hinv fun a hmem =>
    ((hp.only_named hnames hleaf hes hmem).resolve_left hic).2
  obtain ⟨r, hr, -⟩ := (removesExactly_iff hd htarget hunlinked out).mpr hhole
  obtain ⟨s', hrun, rfl⟩ := Option.map_eq_some_iff.mp hr
  have hstep := removeStep_of_unlinked hinv htarget hroot hother hunlinked hrun
  have htree := hstep.tree hinv (hstep.curDir.entries_eq hd htarget.search hhole hentry)
  refine ⟨hhole, s', p, hr, hentry, FS.volume_eq htree hstep.free, ?_, hstep.sized hs htree⟩
  rw [htree]
  refine hwf.remove (tree_dirs_cur hinv) hentry hdots.2 (fun heq => hic ?_) fun d es a hdir hmem => ?_
  · rw [tree_cur hcur] at heq
    exact Fin.ext (by omega)
  · obtain ⟨d, rfl⟩ := exists_inode fun hfresh => nomatch hfresh.noDir.symm.trans hdir
    rw [tree_dirs] at hdir
    rw [tree_cur hcur]
    exact (hp.only_named hnames hleaf hdir hmem).imp (fun h => by rw [h]) fun h => ⟨by rw [h.1], h.2⟩

/-! ## file_remove and dir_remove -/

end Prune

end OperatingSystem.Fs
