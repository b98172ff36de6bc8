import OperatingSystem.Fs.Format

/-!
# OperatingSystem.Fs.Entries

Directories as tables from names to inode numbers.  In a well-formed directory
(`DirOk`) the names are distinct, so `search_cur_dir` finds a name exactly where
it stands; adding an entry and the compaction after a removal keep a directory
well formed.
-/

namespace OperatingSystem.Fs

/-- A table of at most 24 entries, each naming an inode, with distinct names. -/
structure Table (d : Dentry) : Prop where
  le : d.numEntry ≤ 24
  inode : ∀ k : Fin 25, (k : Int) < d.numEntry → ∃ j : Fin 512, (d.dentry k).inode = j
  distinct : ∀ k l : Fin 25, (k : Int) < d.numEntry → (l : Int) < d.numEntry →
    cstr (d.dentry k).name = cstr (d.dentry l).name → k = l

/-- A well-formed directory, of inode `i`: a table whose first entry is the
directory itself. -/
structure DirOk (d : Dentry) (i : Fin 512) : Prop extends Table d where
  pos : 1 ≤ d.numEntry
  self : (d.dentry 0).inode = i

/-- The entries of a directory: names and inode numbers. -/
def entries (d : Dentry) : List (List Byte × Int) :=
  ((List.finRange 25).take d.numEntry.toNat).map fun k : Fin 25 => (cstr (d.dentry k).name, (d.dentry k).inode)

theorem mem_take_finRange {m n : Nat} {k : Fin n} : k ∈ (List.finRange n).take m ↔ (k : Nat) < m := by
  rw [List.mem_take_iff_getElem]
  constructor
  · rintro ⟨j, hj, hk⟩
    rw [List.getElem_finRange] at hk
    have hval := congrArg Fin.val hk
    simp only [Fin.val_cast] at hval
    omega
  · intro hk
    exact ⟨k, by simpa using hk, by simp⟩

theorem mem_entries {d : Dentry} : (x, y) ∈ entries d ↔
    ∃ k : Fin 25, (k : Int) < d.numEntry ∧ cstr (d.dentry k).name = x ∧ (d.dentry k).inode = y := by
  simp only [entries, List.mem_map, mem_take_finRange, Prod.mk.injEq]
  refine exists_congr fun k => and_congr_left fun _ => ?_
  omega

/-! ## Lookup -/

section Search

variable {d : Dentry} {name : List Byte}

theorem read_lt (d : Dentry) {k : Nat} (hk : k < 25) : d.dentry.read k = some (d.dentry ⟨k, hk⟩) :=
  Arr.read_fin d.dentry ⟨k, hk⟩

theorem searchFrom_not_found {is : List Nat} (his : ∀ k ∈ is, k < 25)
    (h : ∀ k (hk : k < 25), k ∈ is → cstr (d.dentry ⟨k, hk⟩).name ≠ name) :
    searchFrom d name is = some (-1) := by
  induction is with
  | nil => rfl
  | cons k is ih =>
      have hk : k < 25 := his k List.mem_cons_self
      simp only [searchFrom, read_lt d hk, Option.bind_eq_bind, Option.bind_some,
        if_neg (h k hk List.mem_cons_self)]
      exact ih (fun j hj => his j (List.mem_cons_of_mem k hj))
        fun j hj hmem => h j hj (List.mem_cons_of_mem k hmem)

theorem searchFrom_found {is : List Nat} (his : ∀ k ∈ is, k < 25) {k : Fin 25} (hk : (k : Nat) ∈ is)
    (hname : cstr (d.dentry k).name = name)
    (honly : ∀ j (hj : j < 25), j ∈ is → cstr (d.dentry ⟨j, hj⟩).name = name → j = k) :
    searchFrom d name is = some (d.dentry k).inode := by
  induction is with
  | nil => exact absurd hk List.not_mem_nil
  | cons j is ih =>
      have hj : j < 25 := his j List.mem_cons_self
      simp only [searchFrom, read_lt d hj, Option.bind_eq_bind, Option.bind_some]
      by_cases hmatch : cstr (d.dentry ⟨j, hj⟩).name = name
      · have hjk : (⟨j, hj⟩ : Fin 25) = k := Fin.ext (honly j hj List.mem_cons_self hmatch)
        rw [if_pos hmatch, hjk]
        rfl
      · rw [if_neg hmatch]
        have hne : (k : Nat) ≠ j := by
          rintro rfl
          exact hmatch hname
        exact ih (fun l hl => his l (List.mem_cons_of_mem j hl)) ((List.mem_cons.mp hk).resolve_left hne)
          fun l hl hmem => honly l hl (List.mem_cons_of_mem j hmem)

end Search

section Lookup

variable {s : FS} {name : Name}

theorem mem_range_numEntry {d : Dentry} {k : Nat} : k ∈ List.range d.numEntry.toNat ↔ (k : Int) < d.numEntry := by
  rw [List.mem_range]
  omega

/-- **Lookup**: a name is found where it stands. -/
theorem searchCurDir_found (hd : Table s.curDir) {k : Fin 25} (hk : (k : Int) < s.curDir.numEntry)
    (hname : cstr (s.curDir.dentry k).name = name.1) :
    searchCurDir s name = some (s.curDir.dentry k).inode := by
  have hle := hd.le
  refine searchFrom_found (fun j hj => ?_) (mem_range_numEntry.mpr hk) hname fun j hj hmem hmatch => ?_
  · have := mem_range_numEntry.mp hj
    omega
  · exact congrArg Fin.val (hd.distinct ⟨j, hj⟩ k (mem_range_numEntry.mp hmem) hk (hmatch.trans hname.symm))

/-- A name that stands nowhere is not found. -/
theorem searchCurDir_not_found (hle : s.curDir.numEntry ≤ 24)
    (h : ∀ k : Fin 25, (k : Int) < s.curDir.numEntry → cstr (s.curDir.dentry k).name ≠ name.1) :
    searchCurDir s name = some (-1) := by
  refine searchFrom_not_found (fun j hj => ?_) fun j hj hmem => h ⟨j, hj⟩ (mem_range_numEntry.mp hmem)
  have := mem_range_numEntry.mp hj
  omega

theorem searchCurDir_cases (hd : Table s.curDir) (name : Name) :
    (∃ k : Fin 25, (k : Int) < s.curDir.numEntry ∧ cstr (s.curDir.dentry k).name = name.1 ∧
      ∃ j : Fin 512, (s.curDir.dentry k).inode = j ∧ searchCurDir s name = some (j : Int)) ∨
    ((∀ k : Fin 25, (k : Int) < s.curDir.numEntry → cstr (s.curDir.dentry k).name ≠ name.1) ∧
      searchCurDir s name = some (-1)) := by
  by_cases h : ∃ k : Fin 25, (k : Int) < s.curDir.numEntry ∧ cstr (s.curDir.dentry k).name = name.1
  · obtain ⟨k, hk, hname⟩ := h
    obtain ⟨j, hj⟩ := hd.inode k hk
    exact Or.inl ⟨k, hk, hname, j, hj, by rw [searchCurDir_found hd hk hname, hj]⟩
  · have hnone : ∀ k : Fin 25, (k : Int) < s.curDir.numEntry →
        cstr (s.curDir.dentry k).name ≠ name.1 := fun k hk hname => h ⟨k, hk, hname⟩
    exact Or.inr ⟨hnone, searchCurDir_not_found hd.le hnone⟩

theorem searchCurDir_some (hd : Table s.curDir) (name : Name) : ∃ x, searchCurDir s name = some x := by
  rcases searchCurDir_cases hd name with ⟨_, _, _, j, _, hsearch⟩ | ⟨-, hsearch⟩
  · exact ⟨j, hsearch⟩
  · exact ⟨-1, hsearch⟩

/-- A command that is given a name goes on with the inode it finds. -/
theorem lookup_found (h : searchCurDir s name = some ((i : Fin 512) : Int)) (a : Option α)
    (k : Int → Inode → Option α) : (do
      let j ← searchCurDir s name
      if j < 0 then a
      else do
        let n ← s.inode.read j
        k j n) = k i (s.inode i) := by
  have hneg : ¬ ((i : Nat) : Int) < 0 := by omega
  rw [h, Option.bind_eq_bind, Option.bind_some, if_neg hneg, Arr.read_fin]
  rfl

theorem lookup_absent (h : searchCurDir s name = some (-1)) (a : Option α) (k : Int → Option α) : (do
      let j ← searchCurDir s name
      if j < 0 then a else k j) = a := by
  rw [h, Option.bind_eq_bind, Option.bind_some, if_pos (by decide)]

/-- A name with a nonnegative answer stands where the answer came from. -/
theorem position_of_search (hd : Table s.curDir) {j : Fin 512}
    (h : searchCurDir s name = some (j : Int)) :
    ∃ k : Fin 25, (k : Int) < s.curDir.numEntry ∧ cstr (s.curDir.dentry k).name = name.1 ∧
      (s.curDir.dentry k).inode = j := by
  rcases searchCurDir_cases hd name with ⟨k, hk, hname, j', hj', hsearch⟩ | ⟨-, hsearch⟩
  · rw [hsearch, Option.some.injEq] at h
    exact ⟨k, hk, hname, hj'.trans h⟩
  · rw [hsearch, Option.some.injEq] at h
    omega

/-- The search finds the inode number that stands with the name. -/
theorem searchCurDir_iff (hd : Table s.curDir) {i : Fin 512} :
    searchCurDir s name = some (i : Int) ↔ (name.1, (i : Int)) ∈ entries s.curDir := by
  rw [mem_entries]
  constructor
  · exact position_of_search hd
  · rintro ⟨k, hk, hname, hi⟩
    rw [searchCurDir_found hd hk hname, hi]

end Lookup

/-! ## Adding an entry -/

/-- The directory with one more entry. -/
structure AddStep (d : Dentry) (name : Name) (inode : Int) (d' : Dentry) : Prop where
  numEntry : d'.numEntry = d.numEntry + 1
  padding : d'.padding = d.padding
  last : ∀ k : Fin 25, (k : Int) = d.numEntry →
    cstr (d'.dentry k).name = name.1 ∧ (d'.dentry k).inode = inode
  other : ∀ k : Fin 25, (k : Int) ≠ d.numEntry → d'.dentry k = d.dentry k

theorem addEntry_spec (h0 : 0 ≤ d.numEntry) (hle : d.numEntry ≤ 24) (name : Name) (inode : Int) :
    ∃ d', d.addEntry name inode = some d' ∧ AddStep d name inode d' := by
  obtain ⟨n, hn⟩ : ∃ n : Fin 25, d.numEntry = n := Arr.exists_fin (by omega) (by omega)
  refine ⟨{ d with
    numEntry := d.numEntry + 1
    dentry := Function.update d.dentry n ⟨strcpy (d.dentry n).name name.1, inode⟩ }, ?_, rfl, rfl, ?_, ?_⟩
  · simp only [Dentry.addEntry, hn, Arr.read_fin, Arr.write_fin, Option.bind_eq_bind, Option.bind_some]
    rfl
  · intro k hk
    have hkn : k = n := Fin.ext (by omega)
    subst hkn
    dsimp only
    rw [Function.update_self]
    exact ⟨cstr_strcpy _ _, rfl⟩
  · intro k hk
    have hkn : k ≠ n := by
      rintro rfl
      exact hk hn.symm
    exact Function.update_of_ne hkn _ _

/-- The new entry is the last one. -/
theorem AddStep.entries_eq (hd : DirOk d i) (h : AddStep d name inode d') (hroom : d.numEntry < 24) :
    entries d' = entries d ++ [(name.1, inode)] := by
  have hpos := hd.pos
  have hlt : d.numEntry.toNat < (List.finRange 25).length := by
    rw [List.length_finRange]
    omega
  have hnum : d'.numEntry.toNat = d.numEntry.toNat + 1 := by
    rw [h.numEntry]
    omega
  obtain ⟨hname, hinode⟩ := h.last ⟨d.numEntry.toNat, by omega⟩ (by simp; omega)
  rw [entries, hnum, ← List.take_concat_get' _ _ hlt, List.map_append, List.map_singleton, List.getElem_finRange]
  refine congrArg₂ _ (List.map_congr_left fun k hk => ?_) (congrArg₂ (fun x y => [(x, y)]) hname hinode)
  have hk := mem_take_finRange.mp hk
  rw [h.other k (by omega)]

/-- A new name keeps a directory that is not full well formed. -/
theorem AddStep.dirOk (hd : DirOk d i) (h : AddStep d name (j : Fin 512) d') (hroom : d.numEntry < 24)
    (hnew : ∀ k : Fin 25, (k : Int) < d.numEntry → cstr (d.dentry k).name ≠ name.1) : DirOk d' i := by
  have hpos := hd.pos
  have hnum := h.numEntry
  have h0 : ((0 : Fin 25) : Int) ≠ d.numEntry := by simp; omega
  refine ⟨⟨by omega, fun k hk => ?_, fun k l hk hl hname => ?_⟩, by omega, by rw [h.other 0 h0]; exact hd.self⟩
  · by_cases hlast : (k : Int) = d.numEntry
    · exact ⟨j, (h.last k hlast).2⟩
    · rw [h.other k hlast]
      exact hd.inode k (by omega)
  · by_cases hkn : (k : Int) = d.numEntry
    · by_cases hln : (l : Int) = d.numEntry
      · exact Fin.ext (by omega)
      · rw [(h.last k hkn).1, h.other l hln] at hname
        exact absurd hname.symm (hnew l (by omega))
    · by_cases hln : (l : Int) = d.numEntry
      · rw [(h.last l hln).1, h.other k hkn] at hname
        exact absurd hname (hnew k (by omega))
      · rw [h.other k hkn, h.other l hln] at hname
        exact hd.distinct k l (by omega) (by omega) hname

/-- The numbers in a directory are `int`s. -/
theorem Dentry.ok_iff (d : Dentry) :
    Dentry.codec.Ok d ↔ Codec.Fits d.numEntry ∧ ∀ k, Codec.Fits (d.dentry k).inode := by
  constructor
  · rintro ⟨hnum, hentries, -⟩
    exact ⟨hnum, fun k => (hentries k).2⟩
  · rintro ⟨hnum, hentries⟩
    exact ⟨hnum, fun k => ⟨trivial, hentries k⟩, trivial⟩

theorem AddStep.fits (hd : DirOk d i) (h : AddStep d name (j : Fin 512) d')
    (hfits : Dentry.codec.Ok d) : Dentry.codec.Ok d' := by
  have hpos := hd.pos
  have hle := hd.le
  have hnum := h.numEntry
  rw [Dentry.ok_iff] at hfits ⊢
  refine ⟨by unfold Codec.Fits; omega, fun k => ?_⟩
  by_cases hk : (k : Int) = d.numEntry
  · rw [(h.last k hk).2]
    unfold Codec.Fits
    omega
  · rw [h.other k hk]
    exact hfits.2 k

/-! ## Compaction -/

/-- The directory after `removeEntry`: the last entry is gone, and unless its
inode is the removed one it stands at the position of that number. -/
structure RemoveEntry (d : Dentry) (inodeNum : Int) (d' : Dentry) : Prop where
  numEntry : d'.numEntry = d.numEntry - 1
  padding : d'.padding = d.padding
  kept : ∀ n : Fin 25, (n : Int) = d.numEntry - 1 → (d.dentry n).inode = inodeNum → d'.dentry = d.dentry
  moved : ∀ n : Fin 25, (n : Int) = d.numEntry - 1 → (d.dentry n).inode ≠ inodeNum →
    ∃ k : Fin 25, inodeNum = k ∧ (∀ l, l ≠ k → d'.dentry l = d.dentry l) ∧
      (k ≠ n → d'.dentry k = d.dentry n) ∧
      (k = n → d'.dentry k = { d.dentry n with inode := (d.dentry n).inode / 256 * 256 })

/-- **Compaction**: what `removeEntry` changes; it is undefined when the inode
number is not a position of the entry array and the last entry is another. -/
theorem removeEntry_cases {s s' : FS} (h : removeEntry s inodeNum = some s') :
    RemoveEntry s.curDir inodeNum s'.curDir ∧
      s' = { s with curDir := s'.curDir, inode := s'.inode } ∧
      (s'.inode = s.inode ∨ ∃ k l : Fin 512, inodeNum = k ∧
        s'.inode = Function.update s.inode k { s.inode k with size := (s.inode l).size }) := by
  simp only [removeEntry, Option.bind_eq_bind, Option.bind_eq_some_iff] at h
  obtain ⟨last, hread, h⟩ := h
  obtain ⟨n, hn, rfl⟩ := Arr.read_eq_some hread
  split at h
  · next hne =>
      simp only [Option.bind_eq_some_iff, Option.pure_def, Option.some.injEq] at h
      obtain ⟨dentry, hdentry, node, hnode, other, hother, inode, hinode, rfl⟩ := h
      obtain ⟨k, hk, rfl⟩ := Arr.write_eq_some hdentry
      obtain ⟨k', hk', rfl⟩ := Arr.read_eq_some hnode
      obtain ⟨l, hl, rfl⟩ := Arr.read_eq_some hother
      obtain ⟨k'', hk'', rfl⟩ := Arr.write_eq_some hinode
      have hkk : k'' = k' := Fin.ext (by omega)
      subst hkk
      refine ⟨⟨rfl, rfl, fun m hm heq => ?_, fun m hm _ => ?_⟩, rfl, Or.inr ⟨k'', l, hk', rfl⟩⟩
      · have hmn : m = n := Fin.ext (by omega)
        subst hmn
        exact absurd heq.symm hne
      · have hmn : m = n := Fin.ext (by omega)
        subst hmn
        refine ⟨k, hk, fun l hl => Function.update_of_ne hl _ _, fun hkm => ?_, fun hkm => ?_⟩
        · have hne' : ¬ inodeNum = s.curDir.numEntry - 1 := fun h => hkm (Fin.ext (by omega))
          simp only [Function.update_self, if_neg hne']
        · have heq' : inodeNum = s.curDir.numEntry - 1 := by rw [hk, hkm, hm]
          simp only [Function.update_self, if_pos heq']
  · next heq =>
      have heq : inodeNum = (s.curDir.dentry n).inode := by simpa using heq
      cases h
      refine ⟨⟨rfl, rfl, fun m _ _ => rfl, fun m hm hne => ?_⟩, rfl, Or.inl rfl⟩
      have hmn : m = n := Fin.ext (by omega)
      subst hmn
      exact absurd heq.symm hne

theorem RemoveEntry.fits (hd : DirOk d i) (h : RemoveEntry d inodeNum d')
    (hfits : Dentry.codec.Ok d) : Dentry.codec.Ok d' := by
  have hpos := hd.pos
  have hle := hd.le
  have hnum := h.numEntry
  rw [Dentry.ok_iff] at hfits ⊢
  refine ⟨by unfold Codec.Fits; omega, fun l => ?_⟩
  obtain ⟨n, hn⟩ : ∃ n : Fin 25, (n : Int) = d.numEntry - 1 := (Arr.exists_fin (by omega) (by omega)).imp fun _ => Eq.symm
  by_cases hlast : (d.dentry n).inode = inodeNum
  · rw [h.kept n hn hlast]
    exact hfits.2 l
  · obtain ⟨k, -, hother, hmoved, hself⟩ := h.moved n hn hlast
    by_cases hlk : l = k
    · subst hlk
      by_cases hln : l = n
      · have hfit := hfits.2 n
        rw [hself hln]
        unfold Codec.Fits at hfit ⊢
        dsimp only
        omega
      · rw [hmoved hln]
        exact hfits.2 n
    · rw [hother l hlk]
      exact hfits.2 l

/-- Each entry that is left after the compaction is an old one, and no two are
the same old one. -/
theorem RemoveEntry.origin (hd : Table d) (h : RemoveEntry d inodeNum d') (hpos : 1 ≤ d.numEntry) :
    ∃ old : Fin 25 → Fin 25,
      (∀ k : Fin 25, (k : Int) < d'.numEntry → (old k : Int) < d.numEntry ∧ d'.dentry k = d.dentry (old k)) ∧
      (∀ k l : Fin 25, (k : Int) < d'.numEntry → (l : Int) < d'.numEntry → old k = old l → k = l) ∧
      (inodeNum ≠ 0 → old 0 = 0) := by
  have hle := hd.le
  have hnum := h.numEntry
  obtain ⟨n, hn⟩ : ∃ n : Fin 25, (n : Int) = d.numEntry - 1 := (Arr.exists_fin (by omega) (by omega)).imp fun _ => Eq.symm
  by_cases hlast : (d.dentry n).inode = inodeNum
  · exact ⟨id, fun k hk => ⟨by simp only [id]; omega, by rw [h.kept n hn hlast]; rfl⟩,
      fun k l _ _ hkl => hkl, fun _ => rfl⟩
  · obtain ⟨p, hp, hother, hmoved, -⟩ := h.moved n hn hlast
    refine ⟨fun k => if k = p then n else k, fun k hk => ?_, fun k l hk hl hkl => ?_, fun hzero => if_neg ?_⟩
    · by_cases hkp : k = p
      · subst hkp
        have hkn : k ≠ n := by
          rintro rfl
          omega
        simp only [if_true]
        exact ⟨by omega, hmoved hkn⟩
      · simp only [if_neg hkp]
        exact ⟨by omega, hother k hkp⟩
    · by_cases hkp : k = p <;> by_cases hlp : l = p
      · rw [hkp, hlp]
      · simp only [hkp, if_true, if_neg hlp] at hkl
        subst hkl
        omega
      · simp only [hlp, if_true, if_neg hkp] at hkl
        subst hkl
        omega
      · simpa only [if_neg hkp, if_neg hlp] using hkl
    · rintro rfl
      exact hzero (by simpa using hp)

/-- Compaction keeps the names distinct. -/
theorem RemoveEntry.table (hd : Table d) (h : RemoveEntry d inodeNum d') : Table d' := by
  have hle := hd.le
  have hnum := h.numEntry
  by_cases hpos : 1 ≤ d.numEntry
  · obtain ⟨old, hold, hinj, -⟩ := h.origin hd hpos
    refine ⟨by omega, fun k hk => ?_, fun k l hk hl hname => ?_⟩
    · obtain ⟨hlt, heq⟩ := hold k hk
      rw [heq]
      exact hd.inode _ hlt
    · obtain ⟨hkd, hke⟩ := hold k hk
      obtain ⟨hld, hle⟩ := hold l hl
      rw [hke, hle] at hname
      exact hinj k l hk hl (hd.distinct _ _ hkd hld hname)
  · exact ⟨by omega, fun k hk => by omega, fun k l hk => by omega⟩

/-- Compaction keeps a directory well formed, unless it moves an entry over the
first one. -/
theorem RemoveEntry.dirOk (hd : DirOk d i) (h : RemoveEntry d inodeNum d') (htwo : 2 ≤ d.numEntry)
    (hzero : inodeNum ≠ 0) : DirOk d' i := by
  have hnum := h.numEntry
  obtain ⟨old, hold, -, h0⟩ := h.origin hd.toTable hd.pos
  refine ⟨h.table hd.toTable, by omega, ?_⟩
  rw [(hold 0 (by simp; omega)).2, h0 hzero]
  exact hd.self

end OperatingSystem.Fs
