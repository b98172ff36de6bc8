import OperatingSystem.Fs.Reach

/-!
# OperatingSystem.Fs.Removal

When a removal deletes exactly the named entry.  `file_remove` and `dir_remove`
close the gap in the entry array by moving the last entry to the position whose
number is the *inode* number of the removed entry, which is right only if the
two agree or the removed entry is the last one.
-/

namespace OperatingSystem.Fs

/-- A removal that returns 0 deleted the entry `name` and no other.  (A write
outside the entry array leaves no result.) -/
def RemovesExactly (s : FS) (name : Name) (result : Option Ret) : Prop :=
  ∃ r, result = some r ∧ (r.value = 0 → searchCurDir r.fs name = some (-1) ∧
    (∀ other : Name, other ≠ name → searchCurDir r.fs other = searchCurDir s other) ∧
    r.fs.curDir.numEntry = s.curDir.numEntry - 1)

/-- The entry `name`, of inode `i`, is the last one, or its position is `i` and
the last entry is another inode's. -/
def CleanHole (s : FS) (name : Name) (i : Fin 512) : Prop :=
  ∃ p : Fin 25, (p : Int) < s.curDir.numEntry ∧ cstr (s.curDir.dentry p).name = name.1 ∧
    ((p : Int) = s.curDir.numEntry - 1 ∨ ((i : Nat) = p ∧
      ∀ n : Fin 25, (n : Int) = s.curDir.numEntry - 1 → (s.curDir.dentry n).inode ≠ i))

instance (s : FS) (name : Name) (i : Fin 512) : Decidable (CleanHole s name i) := by
  unfold CleanHole
  infer_instance

section

variable {s s' t : FS} {name : Name} {i : Fin 512}

/-- The compaction stays inside the entry array if the last entry is the removed
inode's or the inode number is a position. -/
theorem removeEntry_defined {n : Fin 25} (hn : (n : Int) = s.curDir.numEntry - 1)
    (h : (s.curDir.dentry n).inode = i ∨ (i : Nat) < 25) : ∃ s', removeEntry s i = some s' := by
  unfold removeEntry
  dsimp only
  rw [← hn, Arr.read_fin, Option.bind_eq_bind, Option.bind_some]
  by_cases heq : (i : Int) = (s.curDir.dentry n).inode
  · rw [if_neg (not_not.mpr heq)]
    exact ⟨_, rfl⟩
  · have hi : (i : Nat) < 25 := h.resolve_left fun h => heq h.symm
    have hread : s.inode.read (n : Int) = some (s.inode ⟨n, by omega⟩) := Arr.read_fin s.inode ⟨n, by omega⟩
    have hwrite : ∀ e, s.curDir.dentry.write (i : Int) e = some (Function.update s.curDir.dentry ⟨i, hi⟩ e) :=
      fun e => Arr.write_fin s.curDir.dentry ⟨i, hi⟩ e
    simp only [if_pos heq, hread, hwrite, Arr.read_fin, Arr.write_fin, Option.bind_eq_bind, Option.bind_some]
    exact ⟨_, rfl⟩

/-- Where the compaction is clean, the entry `name` at position `p` is gone: the
others are at their positions, or the last one at `p`. -/
theorem RemoveEntry.places (hd : Table s.curDir) (hsearch : searchCurDir s name = some (i : Int))
    (hclean : CleanHole s name i) (h : RemoveEntry s.curDir i s'.curDir) :
    ∃ p n : Fin 25, (p : Int) < s.curDir.numEntry ∧ cstr (s.curDir.dentry p).name = name.1 ∧
      (n : Int) = s.curDir.numEntry - 1 ∧
      (∀ k : Fin 25, (k : Int) < s.curDir.numEntry - 1 → k ≠ p → s'.curDir.dentry k = s.curDir.dentry k) ∧
      (p ≠ n → s'.curDir.dentry p = s.curDir.dentry n) := by
  obtain ⟨p, hp, hname, hhole⟩ := hclean
  have hle := hd.le
  have hpi : (s.curDir.dentry p).inode = i := by
    have := searchCurDir_found hd hp hname
    rw [hsearch, Option.some.injEq] at this
    exact this.symm
  obtain ⟨n, hn⟩ : ∃ n : Fin 25, (n : Int) = s.curDir.numEntry - 1 :=
    (Arr.exists_fin (by omega) (by omega)).imp fun _ => Eq.symm
  refine ⟨p, n, hp, hname, hn, ?_⟩
  rcases hhole with hlast | ⟨hip, hne⟩
  · obtain rfl : p = n := Fin.ext (by omega)
    exact ⟨fun k _ _ => by rw [h.kept p hn hpi], fun hpp => absurd rfl hpp⟩
  · obtain ⟨k', hk', hother, hmoved, -⟩ := h.moved n hn (hne n hn)
    obtain rfl : k' = p := Fin.ext (by omega)
    exact ⟨fun k _ hk => hother k hk, hmoved⟩

/-- Exactly the entry `name` is gone. -/
theorem RemoveEntry.mem_entries (hd : Table s.curDir) (hsearch : searchCurDir s name = some (i : Int))
    (hclean : CleanHole s name i) (h : RemoveEntry s.curDir i s'.curDir) :
    (x, y) ∈ entries s'.curDir ↔ (x, y) ∈ entries s.curDir ∧ x ≠ name.1 := by
  obtain ⟨p, n, hp, hname, hn, hkeep, hmove⟩ := h.places hd hsearch hclean
  have hnum := h.numEntry
  rw [Fs.mem_entries, Fs.mem_entries]
  constructor
  · rintro ⟨k, hk, rfl, rfl⟩
    by_cases hkp : k = p
    · subst hkp
      have hkn : k ≠ n := by
        rintro rfl
        omega
      rw [hmove hkn]
      exact ⟨⟨n, by omega, rfl, rfl⟩, fun heq => hkn (hd.distinct k n hp (by omega) (hname.trans heq.symm))⟩
    · rw [hkeep k (by omega) hkp]
      exact ⟨⟨k, by omega, rfl, rfl⟩, fun heq => hkp (hd.distinct k p (by omega) hp (heq.trans hname.symm))⟩
  · rintro ⟨⟨k, hk, rfl, rfl⟩, hne⟩
    have hkp : k ≠ p := by
      rintro rfl
      exact hne hname
    by_cases hkn : k = n
    · subst hkn
      have hpk : (p : Nat) ≠ k := fun heq => hkp (Fin.ext heq.symm)
      rw [← hmove hkp.symm]
      exact ⟨p, by omega, rfl, rfl⟩
    · have hkn' : (k : Nat) ≠ n := fun heq => hkn (Fin.ext heq)
      have hlt : (k : Int) < s.curDir.numEntry - 1 := by omega
      exact ⟨k, by omega, by rw [hkeep k hlt hkp], by rw [hkeep k hlt hkp]⟩

/-- So a search finds every other name where it was. -/
theorem RemoveEntry.exact (hd : Table s.curDir) (hsearch : searchCurDir s name = some (i : Int))
    (hclean : CleanHole s name i) (h : RemoveEntry s.curDir i s'.curDir) :
    searchCurDir s' name = some (-1) ∧
      ∀ other : Name, other ≠ name → searchCurDir s' other = searchCurDir s other := by
  have hd' := h.table hd
  have hmem : ∀ {x y}, (x, y) ∈ entries s'.curDir ↔ (x, y) ∈ entries s.curDir ∧ x ≠ name.1 :=
    h.mem_entries hd hsearch hclean
  have hgone : ∀ {other : Name}, (∀ y, (other.1, y) ∉ entries s'.curDir) → searchCurDir s' other = some (-1) :=
    fun {other} hnone => searchCurDir_not_found hd'.le fun k hk hkname =>
      hnone _ (Fs.mem_entries.mpr ⟨k, hk, hkname, rfl⟩)
  refine ⟨hgone fun y hy => (hmem.mp hy).2 rfl, fun other hne => ?_⟩
  have hne' : other.1 ≠ name.1 := fun heq => hne (Subtype.ext heq)
  rcases searchCurDir_cases hd other with ⟨k, hk, hkname, j, hj, hfound⟩ | ⟨hnone, hfound⟩
  · rw [hfound]
    exact (searchCurDir_iff hd').mpr (hmem.mpr ⟨(searchCurDir_iff hd).mp hfound, hne'⟩)
  · rw [hfound]
    refine hgone fun y hy => ?_
    obtain ⟨k, hk, hkname, -⟩ := Fs.mem_entries.mp (hmem.mp hy).1
    exact hnone k hk hkname

/-- Where it is not, the entry `name` is still found. -/
theorem RemoveEntry.cleanHole (hd : Table s.curDir) (hsearch : searchCurDir s name = some (i : Int))
    (h : RemoveEntry s.curDir i s'.curDir) (hgone : searchCurDir s' name = some (-1)) : CleanHole s name i := by
  obtain ⟨p, hp, hname, hpi⟩ := position_of_search hd hsearch
  have hd' := h.table hd
  have hle := hd.le
  have hnum := h.numEntry
  obtain ⟨n, hn⟩ : ∃ n : Fin 25, (n : Int) = s.curDir.numEntry - 1 :=
    (Arr.exists_fin (by omega) (by omega)).imp fun _ => Eq.symm
  by_contra hnot
  have hpn : p ≠ n := by
    rintro rfl
    exact hnot ⟨p, hp, hname, Or.inl hn⟩
  have hlt : (p : Int) < s.curDir.numEntry - 1 := by
    have hne : (p : Nat) ≠ n := fun heq => hpn (Fin.ext heq)
    omega
  have hkept : s'.curDir.dentry p = s.curDir.dentry p := by
    by_cases hlast : (s.curDir.dentry n).inode = i
    · rw [h.kept n hn hlast]
    · obtain ⟨k, hk, hother, -, -⟩ := h.moved n hn hlast
      refine hother p fun hpk => hnot ⟨p, hp, hname, Or.inr ⟨?_, fun m hm => ?_⟩⟩
      · rw [hpk]
        omega
      · obtain rfl : m = n := Fin.ext (by omega)
        exact hlast
  rw [searchCurDir_found hd' (k := p) (by omega) (by rw [hkept]; exact hname), hkept, hpi,
    Option.some.injEq] at hgone
  omega

/-- **A removal that reaches the compaction** deletes exactly its entry iff the
compaction is clean. -/
theorem removesExactly_iff (hd : Table s.curDir) (htarget : Target s name type i) (h : Unlinked s i freed t)
    (out : List Printf) :
    RemovesExactly s name ((removeEntry t i).map fun s' => ⟨0, out, s'⟩) ↔ CleanHole s name i := by
  have hcurDir : t.curDir = s.curDir := by rw [h.blocks.rest]; rfl
  constructor
  · rintro ⟨r, hr, hexact⟩
    obtain ⟨s', hentry, rfl⟩ := Option.map_eq_some_iff.mp hr
    have hremove := (removeEntry_cases hentry).1
    rw [hcurDir] at hremove
    exact hremove.cleanHole hd htarget.search (hexact rfl).1
  · intro hclean
    obtain ⟨p, hp, hname, hhole⟩ := hclean
    have hle := hd.le
    obtain ⟨n, hn⟩ : ∃ n : Fin 25, (n : Int) = s.curDir.numEntry - 1 :=
      (Arr.exists_fin (by omega) (by omega)).imp fun _ => Eq.symm
    have hfound := searchCurDir_found hd hp hname
    rw [htarget.search, Option.some.injEq] at hfound
    obtain ⟨s', hentry⟩ : ∃ s', removeEntry t i = some s' := by
      refine removeEntry_defined (n := n) (by rw [hcurDir]; exact hn) ?_
      rw [hcurDir]
      rcases hhole with hlast | ⟨hip, -⟩
      · obtain rfl : p = n := Fin.ext (by omega)
        exact Or.inl hfound.symm
      · exact Or.inr (by omega)
    have hremove := (removeEntry_cases hentry).1
    rw [hcurDir] at hremove
    obtain ⟨hgone, hother⟩ := hremove.exact hd htarget.search ⟨p, hp, hname, hhole⟩
    exact ⟨⟨0, out, s'⟩, by rw [hentry]; rfl, fun _ => ⟨hgone, hother, hremove.numEntry⟩⟩

end

/-- **Removal**: in every state reached by a safe run, `file_remove` and
`dir_remove` delete exactly the named entry iff the compaction is clean. -/
theorem removes_exactly_iff (hmount : fsMount env none = some s₀) (hsafe : Run.Along step SafeStep s₀ lines)
    (h : Run.exec step s₀ lines = some s) (name : Name) :
    (RemovesExactly s name (fileRemove s name) ↔ ∀ i, Target s name .file i → CleanHole s name i) ∧
    (RemovesExactly s name (dirRemove s name) ↔ ∀ i, Target s name .directory i → CleanHole s name i) := by
  obtain ⟨L, hinv⟩ := inv_of_safe hmount hsafe h
  obtain ⟨c, hcur, hlive, htype⟩ := hinv.current
  have hd := (hinv.curDir hcur hlive htype).toTable
  have hrefused : ∀ out, RemovesExactly s name (some ⟨-1, out, s⟩) := fun out =>
    ⟨_, rfl, fun h => absurd h (show ¬ (-1 : Int) = 0 by decide)⟩
  constructor
  · rcases fileRemove_cases hinv name with ⟨hnone, out, hrun⟩ | ⟨i, freed, t, out, htarget, hunlinked, hrun⟩
    · rw [hrun]
      exact ⟨fun _ i hi => absurd hi (hnone i), fun _ => hrefused out⟩
    · rw [hrun, removesExactly_iff hd htarget hunlinked]
      exact ⟨fun hclean j hj => hj.unique htarget.search ▸ hclean, fun hall => hall i htarget⟩
  · rcases dirRemove_cases hinv name with ⟨hnone, out, hrun⟩ | ⟨i, freed, t, out, htarget, hunlinked, hrun⟩
    · rw [hrun]
      exact ⟨fun _ i hi => absurd hi (hnone i), fun _ => hrefused out⟩
    · rw [hrun, removesExactly_iff hd htarget hunlinked]
      exact ⟨fun hclean j hj => hj.unique htarget.search ▸ hclean, fun hall => hall i htarget⟩

/-- After `mkdir a`, `create b 1`, `create c 1`, `rmdir a` and `create d 1`, the file
`b` is inode 2 at position 2, in front of `d`: `rm b` removes it and nothing else. -/
theorem removes_exactly_iff_between : ∃ s₀ s, fsMount quiet none = some s₀ ∧
    Run.exec step s₀ ([.mkdir (letter 0), .create (letter 1) 1, .create (letter 2) 1, .rmdir (letter 0),
      .create (letter 3) 1].map (Line.mk quiet)) = some s ∧
    s.curDir.numEntry = 4 ∧ searchCurDir s (letter 1) = some 2 ∧ RemovesExactly s (letter 1) (fileRemove s (letter 1)) := by
  have hfacts : ((Run.exec step (formatted quiet) ([.mkdir (letter 0), .create (letter 1) 1,
      .create (letter 2) 1].map (Line.mk quiet))).bind fun s => (Run.exec step s ([.rmdir (letter 0),
      .create (letter 3) 1].map (Line.mk quiet))).map fun s' => decide (Target s (letter 0) .directory 1 ∧ ¬ s.Current 1 ∧
        s'.curDir.numEntry = 4 ∧ Target s' (letter 1) .file 2 ∧ CleanHole s' (letter 1) 2)) = some true := by
    decide +kernel
  obtain ⟨s₁, hs₁, hfacts⟩ := Option.bind_eq_some_iff.mp hfacts
  obtain ⟨s, hs, hfacts⟩ := Option.map_eq_some_iff.mp hfacts
  obtain ⟨hdir, hcur, hnum, hfile, hclean⟩ := of_decide_eq_true hfacts
  have hrun : Run.exec step (formatted quiet) (([.mkdir (letter 0), .create (letter 1) 1, .create (letter 2) 1].map
      (Line.mk quiet)) ++ [.rmdir (letter 0), .create (letter 3) 1].map (Line.mk quiet)) = some s := by
    rw [Run.exec_append, hs₁]
    exact hs
  have hsafe : Run.Along step SafeStep (formatted quiet) (([.mkdir (letter 0), .create (letter 1) 1,
      .create (letter 2) 1].map (Line.mk quiet)) ++ [.rmdir (letter 0), .create (letter 3) 1].map (Line.mk quiet)) := by
    refine ⟨trivial, fun m₁ h₁ => ⟨trivial, fun m₂ h₂ => ⟨trivial, fun m₃ h₃ => ⟨fun i hi => ?_, fun _ _ =>
      ⟨trivial, fun _ _ => trivial⟩⟩⟩⟩⟩
    have hm₃ : Run.exec step (formatted quiet) ([.mkdir (letter 0), .create (letter 1) 1, .create (letter 2) 1].map
        (Line.mk quiet)) = some m₃ := by
      simp only [List.map_cons, List.map_nil, Run.exec, h₁, h₂, h₃, Option.bind_some]
    obtain rfl := Option.some.inj (hs₁.symm.trans hm₃)
    obtain rfl := hi.unique hdir.search
    exact ⟨by decide, hcur⟩
  exact ⟨formatted quiet, s, fsMount_none quiet, hrun, hnum, hfile.search,
    (removes_exactly_iff (fsMount_none quiet) hsafe hrun (letter 1)).1.mpr fun i hi => hi.unique hfile.search ▸ hclean⟩

/-- After `mkdir a`, `create b 1`, `cd a`, `create x 1` and `create y 1`, the
file `x` is inode 3 at position 2: `rm x` returns 0 and `x` is still there. -/
theorem removal_leaves_entry :
    ∃ s r, quietly [.mkdir (letter 0), .create (letter 1) 1, .cd (letter 0), .create (letter 23) 1,
        .create (letter 24) 1] = some s ∧ fileRemove s (letter 23) = some r ∧ r.value = 0 ∧
      searchCurDir r.fs (letter 23) = some 3 ∧ ¬ RemovesExactly s (letter 23) (fileRemove s (letter 23)) := by
  have hrun : ((quietly [.mkdir (letter 0), .create (letter 1) 1, .cd (letter 0), .create (letter 23) 1,
      .create (letter 24) 1]).bind fun s => (fileRemove s (letter 23)).map fun r =>
        (r.value, searchCurDir r.fs (letter 23))) = some (0, some 3) := by
    rw [quietly_eq]
    decide +kernel
  obtain ⟨s, hs, hr⟩ := Option.bind_eq_some_iff.mp hrun
  obtain ⟨r, hremove, hfacts⟩ := Option.map_eq_some_iff.mp hr
  have hval : r.value = 0 := congrArg Prod.fst hfacts
  have hfound : searchCurDir r.fs (letter 23) = some 3 := congrArg Prod.snd hfacts
  refine ⟨s, r, hs, hremove, hval, hfound, fun ⟨r', hr', hexact⟩ => ?_⟩
  obtain rfl := Option.some.inj (hremove.symm.trans hr')
  have hgone := (hexact hval).1
  rw [hfound] at hgone
  exact absurd hgone (by decide)

end OperatingSystem.Fs
