import OperatingSystem.Fs.Invariant

/-!
# OperatingSystem.Fs.Preserve

What keeps the invariant.  A command changes the state in one of four ways, each
a record of everything that changes: it creates an inode with fresh blocks
(`CreateStep`), removes one and frees its blocks (`RemoveStep`), writes to
blocks that are no other directory's and no file's map (`Inv.setDisk`), or
enters a directory that is stored (`Inv.enter`).
-/

namespace OperatingSystem.Fs

open Codec

section Preserve

variable {s s' : FS} {L : Set (Fin 4096)}

/-! ## Creating -/

/-- Everything a command changes that creates inode `i` with the blocks `bs`
under `name`. -/
structure CreateStep (s : FS) (name : Name) (i : Fin 512) (n : Inode) (bs : List (Fin 4096)) (s' : FS) :
    Prop where
  free : s.live i = false
  live : ∀ j, s'.live j = true ↔ j = i ∨ s.live j = true
  nodup : bs.Nodup
  fresh : ∀ b ∈ bs, s.used b = false
  used : ∀ b, s'.used b = true ↔ b ∈ bs ∨ s.used b = true
  counts : s'.Counts
  inode : s'.inode = Function.update s.inode i n
  disk : ∀ b, b ∉ bs → s'.disk b = s.disk b
  owned : ownedBlocks s' n = bs.map fun b : Fin 4096 => ((b : Nat) : Int)
  room : s.curDir.numEntry < 24
  new : ∀ k : Fin 25, (k : Int) < s.curDir.numEntry → cstr (s.curDir.dentry k).name ≠ name.1
  curDir : AddStep s.curDir name i s'.curDir
  curFits : Dentry.codec.Ok s'.curDir
  curDirBlock : s'.curDirBlock = s.curDirBlock
  mapFits : InDirectBlockMap.codec.Ok s'.inDirectBMap
  inodeOk : InodeOk n
  fileOk : n.type = .file → FileOk n
  newDir : n.type = .directory → DirOk (s'.stored i) i

section Create

variable (hinv : Inv L s) (h : CreateStep s name i n bs s')

include hinv h

/-- No new block is one that was owned. -/
theorem CreateStep.disk_owned {b : Fin 4096} (hown : Owns s j k b) : s'.disk b = s.disk b := by
  refine h.disk b fun hmem => ?_
  have hused := (hinv.owns_used hown).2.1
  rw [h.fresh b hmem] at hused
  contradiction

/-- The blocks of the other inodes stay. -/
theorem CreateStep.ownedBlocks_other (hji : j ≠ i) (hlive : s.live j = true) :
    ownedBlocks s' (s'.inode j) = ownedBlocks s (s.inode j) := by
  rw [h.inode, Function.update_of_ne hji]
  exact ownedBlocks_congr fun ht hc b hb => h.disk_owned hinv (owns_indirect hlive ht hc hb)

theorem CreateStep.owns_iff (j : Fin 512) (k : Nat) (b : Fin 4096) :
    Owns s' j k b ↔ (j = i ∧ bs[k]? = some b) ∨ (j ≠ i ∧ Owns s j k b) := by
  unfold Owns
  by_cases hji : j = i
  · subst hji
    rw [h.inode, Function.update_self, h.owned, List.getElem?_map, Option.map_eq_some_iff, h.live]
    constructor
    · rintro ⟨-, c, hc, heq⟩
      have hcb : c = b := Fin.ext (by omega)
      exact Or.inl ⟨rfl, hcb ▸ hc⟩
    · rintro (⟨-, hb⟩ | ⟨hne, -⟩)
      · exact ⟨Or.inl rfl, b, hb, rfl⟩
      · exact absurd rfl hne
  · rw [h.live]
    constructor
    · rintro ⟨hl | hl, hget⟩
      · exact absurd hl hji
      · rw [h.ownedBlocks_other hinv hji hl] at hget
        exact Or.inr ⟨hji, hl, hget⟩
    · rintro (⟨rfl, -⟩ | ⟨-, hl, hget⟩)
      · exact absurd rfl hji
      · exact ⟨Or.inr hl, by rw [h.ownedBlocks_other hinv hji hl]; exact hget⟩

/-- The current directory stays the same one. -/
theorem CreateStep.current_iff (j : Fin 512) : s'.Current j ↔ s.Current j := by
  obtain ⟨c, hcur, hlive, htype⟩ := hinv.current
  have hpos := (hinv.curDir hcur hlive htype).pos
  have h0 : ((0 : Fin 25) : Int) ≠ s.curDir.numEntry := by simp; omega
  unfold FS.Current
  rw [h.curDir.other 0 h0]

theorem CreateStep.stored_other (hji : j ≠ i) (hlive : s.live j = true)
    (htype : (s.inode j).type = .directory) : s'.stored j = s.stored j := by
  obtain ⟨b, hb, hown⟩ := hinv.dirBlock hlive htype
  refine stored_congr (by rw [h.inode, Function.update_of_ne hji]) (fun c hc => ?_) ⟨b, hb⟩
  obtain rfl : c = b := Fin.ext (by omega)
  exact h.disk_owned hinv hown

/-- The other directories that are not current stay. -/
theorem CreateStep.dir_other (hji : j ≠ i) (hlive : s.live j = true)
    (htype : (s.inode j).type = .directory) (hcur : ¬ s.Current j) : s'.dir j = s.dir j := by
  rw [FS.dir_of_not_current hcur, FS.dir_of_not_current fun hc => hcur ((h.current_iff hinv j).mp hc),
    h.stored_other hinv hji hlive htype]

/-- **Creating keeps the invariant.** -/
theorem CreateStep.inv : Inv L s' := by
  obtain ⟨c, hcur, hclive, hctype⟩ := hinv.current
  have hci : c ≠ i := by
    rintro rfl
    rw [h.free] at hclive
    contradiction
  have h0i : (0 : Fin 512) ≠ i := by
    rintro rfl
    have := hinv.rootLive
    rw [h.free] at this
    contradiction
  have hother : ∀ j, j ≠ i → s'.inode j = s.inode j := fun j hj => by
    rw [h.inode, Function.update_of_ne hj]
  have hself : s'.inode i = n := by rw [h.inode, Function.update_self]
  have hliveOther : ∀ j, j ≠ i → s'.live j = true → s.live j = true := fun j hj hl =>
    ((h.live j).mp hl).resolve_left hj
  have hnotLost : ∀ b ∈ bs, b ∉ L := fun b hb hL => by
    have := hinv.lost b hL
    rw [h.fresh b hb] at this
    contradiction
  refine ⟨h.counts, fun b hb => (h.used b).mpr (Or.inr (hinv.metadata b hb)), fun j => ?_,
    fun j hl ht => ?_, fun j hl x hx => ?_, fun j j' k l b hj hj' => ?_, fun b hge hused => ?_,
    fun b hb => (h.used b).mpr (Or.inr (hinv.lost b hb)), fun j hl ht => ?_,
    ⟨c, (h.current_iff hinv c).mpr hcur, (h.live c).mpr (Or.inr hclive), by rw [hother c hci]; exact hctype⟩,
    h.curFits, h.mapFits, (h.live 0).mpr (Or.inr hinv.rootLive), ?_, ?_, ?_⟩
  · by_cases hj : j = i
    · subst hj
      rw [hself]
      exact h.inodeOk
    · rw [hother j hj]
      exact hinv.inodes j
  · by_cases hj : j = i
    · subst hj
      rw [hself] at ht ⊢
      exact h.fileOk ht
    · rw [hother j hj] at ht ⊢
      exact hinv.files j (hliveOther j hj hl) ht
  · by_cases hj : j = i
    · subst hj
      rw [hself, h.owned] at hx
      obtain ⟨b, hb, rfl⟩ := List.mem_map.mp hx
      refine ⟨b, rfl, ?_, (h.used b).mpr (Or.inl hb), hnotLost b hb⟩
      by_contra hlt
      have := hinv.metadata b (by omega)
      rw [h.fresh b hb] at this
      contradiction
    · rw [h.ownedBlocks_other hinv hj (hliveOther j hj hl)] at hx
      obtain ⟨b, hb, hge, hused, hL⟩ := hinv.owned j (hliveOther j hj hl) x hx
      exact ⟨b, hb, hge, (h.used b).mpr (Or.inr hused), hL⟩
  · have hclash : ∀ m b, bs[m]? = some b → ∀ p q, ¬ Owns s p q b := fun m b hb p q hp => by
      have hused := (hinv.owns_used hp).2.1
      rw [h.fresh b (List.mem_of_getElem? hb)] at hused
      contradiction
    rcases (h.owns_iff hinv j k b).mp hj with ⟨hji, hk⟩ | ⟨-, hown⟩
    · rcases (h.owns_iff hinv j' l b).mp hj' with ⟨hji', hl⟩ | ⟨-, hown'⟩
      · obtain ⟨hklt, -⟩ := List.getElem?_eq_some_iff.mp hk
        exact ⟨hji.trans hji'.symm, (List.getElem?_inj hklt h.nodup).mp (hk.trans hl.symm)⟩
      · exact absurd hown' (hclash k b hk j' l)
    · rcases (h.owns_iff hinv j' l b).mp hj' with ⟨-, hl⟩ | ⟨-, hown'⟩
      · exact absurd hown (hclash l b hl j k)
      · exact hinv.unique j j' k l b hown hown'
  · rcases (h.used b).mp hused with hb | hused
    · obtain ⟨k, hk⟩ := List.mem_iff_getElem?.mp hb
      exact Or.inr ⟨i, k, (h.owns_iff hinv i k b).mpr (Or.inl ⟨rfl, hk⟩)⟩
    · rcases hinv.cover b hge hused with hL | ⟨j, k, hown⟩
      · exact Or.inl hL
      · refine Or.inr ⟨j, k, (h.owns_iff hinv j k b).mpr (Or.inr ⟨?_, hown⟩)⟩
        rintro rfl
        have := hown.1
        rw [h.free] at this
        contradiction
  · by_cases hj : j = i
    · subst hj
      rw [hself] at ht
      have hnot : ¬ s'.Current j := fun hc => hci (hcur.unique ((h.current_iff hinv j).mp hc))
      rw [FS.dir_of_not_current hnot]
      exact h.newDir ht
    · have hl' := hliveOther j hj hl
      rw [hother j hj] at ht
      by_cases hjc : s.Current j
      · rw [FS.dir_of_current ((h.current_iff hinv j).mpr hjc)]
        exact h.curDir.dirOk (hinv.curDir hjc hl' ht) h.room h.new
      · rw [h.dir_other hinv hj hl' ht hjc]
        exact hinv.dirs j hl' ht
  · rw [hother 0 h0i]
    exact hinv.rootType
  · rw [hother 0 h0i]
    exact hinv.rootBlock
  · rw [h.curDirBlock]
    exact hinv.curDirBlock

end Create

/-! ## Removing -/

/-- Everything a command changes that removes inode `i` and gives back the
blocks `freed`. -/
structure RemoveStep (s : FS) (i : Fin 512) (freed : List (Fin 4096)) (s' : FS) : Prop where
  was : s.live i = true
  root : i ≠ 0
  other : ¬ s.Current i
  live : ∀ j, s'.live j = true ↔ j ≠ i ∧ s.live j = true
  owned : ∀ b ∈ freed, ∃ k, Owns s i k b
  used : ∀ b, s'.used b = true ↔ b ∉ freed ∧ s.used b = true
  counts : s'.Counts
  inode : ∀ j, j ≠ i → s'.inode j = s.inode j
  inodeOk : InodeOk (s'.inode i)
  disk : s'.disk = s.disk
  two : 2 ≤ s.curDir.numEntry
  curDir : RemoveEntry s.curDir i s'.curDir
  curFits : Dentry.codec.Ok s'.curDir
  curDirBlock : s'.curDirBlock = s.curDirBlock
  inDirectBMap : s'.inDirectBMap = s.inDirectBMap
  free : s'.superBlock.freeBlockCount = s.superBlock.freeBlockCount + freed.length

/-- The blocks of an inode that are not given back when it is removed. -/
def leaked (s : FS) (i : Fin 512) (freed : List (Fin 4096)) : Set (Fin 4096) :=
  {b | (∃ k, Owns s i k b) ∧ b ∉ freed}

/-- The blocks of the other inodes stay. -/
theorem RemoveStep.ownedBlocks_other (h : RemoveStep s i freed s') (hji : j ≠ i) :
    ownedBlocks s' (s'.inode j) = ownedBlocks s (s.inode j) := by
  rw [h.inode j hji]
  exact ownedBlocks_congr fun _ _ b _ => by rw [h.disk]

theorem RemoveStep.owns_iff (h : RemoveStep s i freed s') (j : Fin 512) (k : Nat) (b : Fin 4096) :
    Owns s' j k b ↔ j ≠ i ∧ Owns s j k b := by
  unfold Owns
  rw [h.live]
  by_cases hji : j = i
  · simp [hji]
  · rw [h.ownedBlocks_other hji, and_assoc]

section Remove

variable (hinv : Inv L s) (h : RemoveStep s i freed s')

include hinv h

/-- The compaction does not touch the first entry. -/
theorem RemoveStep.current_iff (j : Fin 512) : s'.Current j ↔ s.Current j := by
  obtain ⟨c, hcur, hlive, htype⟩ := hinv.current
  have hd := hinv.curDir hcur hlive htype
  have hself := (h.curDir.dirOk hd h.two fun h0 => h.root (Fin.ext (by simpa using h0))).self
  unfold FS.Current
  rw [hself, hd.self]

/-- The other directories stay. -/
theorem RemoveStep.dir_other (hji : j ≠ i) (hcur : ¬ s.Current j) : s'.dir j = s.dir j := by
  rw [FS.dir_of_not_current hcur, FS.dir_of_not_current fun hc => hcur ((h.current_iff hinv j).mp hc)]
  unfold FS.stored FS.diskRead
  rw [h.inode j hji, h.disk]

/-- **Removing keeps the invariant**; the blocks that are not given back are
lost. -/
theorem RemoveStep.inv : Inv (L ∪ leaked s i freed) s' := by
  obtain ⟨c, hcur, hclive, hctype⟩ := hinv.current
  have hci : c ≠ i := by
    rintro rfl
    exact h.other hcur
  have hfreed : ∀ b ∈ freed, 131 ≤ (b : Nat) ∧ s.used b = true ∧ b ∉ L := fun b hb => by
    obtain ⟨k, hown⟩ := h.owned b hb
    exact hinv.owns_used hown
  refine ⟨h.counts, fun b hb => (h.used b).mpr ⟨fun hmem => ?_, hinv.metadata b hb⟩, fun j => ?_,
    fun j hl ht => ?_, fun j hl x hx => ?_, fun j j' k l b hj hj' => ?_, fun b hge hused => ?_,
    fun b hb => (h.used b).mpr ?_, fun j hl ht => ?_,
    ⟨c, (h.current_iff hinv c).mpr hcur, (h.live c).mpr ⟨hci, hclive⟩, by rw [h.inode c hci]; exact hctype⟩,
    h.curFits, by rw [h.inDirectBMap]; exact hinv.mapFits, (h.live 0).mpr ⟨h.root.symm, hinv.rootLive⟩, ?_, ?_, ?_⟩
  · have := (hfreed b hmem).1
    omega
  · by_cases hj : j = i
    · subst hj
      exact h.inodeOk
    · rw [h.inode j hj]
      exact hinv.inodes j
  · obtain ⟨hji, hl⟩ := (h.live j).mp hl
    rw [h.inode j hji] at ht ⊢
    exact hinv.files j hl ht
  · obtain ⟨k, hk⟩ := List.mem_iff_getElem?.mp hx
    obtain ⟨hji, hlj⟩ := (h.live j).mp hl
    rw [h.ownedBlocks_other hji] at hk
    obtain ⟨b, rfl, hge, hused, hL⟩ := hinv.owned j hlj x (List.mem_of_getElem? hk)
    have hapart : ¬ ∃ k, Owns s i k b := fun ⟨l, hown⟩ =>
      hji (hinv.unique j i k l b ⟨hlj, hk⟩ hown).1
    exact ⟨b, rfl, hge, (h.used b).mpr ⟨fun hmem => hapart (h.owned b hmem), hused⟩,
      fun hmem => hmem.elim hL fun hleak => hapart hleak.1⟩
  · obtain ⟨-, hown⟩ := (h.owns_iff j k b).mp hj
    obtain ⟨-, hown'⟩ := (h.owns_iff j' l b).mp hj'
    exact hinv.unique j j' k l b hown hown'
  · obtain ⟨hnot, hused⟩ := (h.used b).mp hused
    rcases hinv.cover b hge hused with hL | ⟨j, k, hown⟩
    · exact Or.inl (Or.inl hL)
    · by_cases hji : j = i
      · subst hji
        exact Or.inl (Or.inr ⟨⟨k, hown⟩, hnot⟩)
      · exact Or.inr ⟨j, k, (h.owns_iff j k b).mpr ⟨hji, hown⟩⟩
  · rcases hb with hL | ⟨⟨k, hown⟩, hnot⟩
    · exact ⟨fun hmem => (hfreed b hmem).2.2 hL, hinv.lost b hL⟩
    · exact ⟨hnot, (hinv.owns_used hown).2.1⟩
  · obtain ⟨hji, hl⟩ := (h.live j).mp hl
    rw [h.inode j hji] at ht
    by_cases hjc : s.Current j
    · rw [FS.dir_of_current ((h.current_iff hinv j).mpr hjc)]
      exact h.curDir.dirOk (hinv.curDir hjc hl ht) h.two fun h0 => h.root (Fin.ext (by simpa using h0))
    · rw [h.dir_other hinv hji hjc]
      exact hinv.dirs j hl ht
  · rw [h.inode 0 h.root.symm]
    exact hinv.rootType
  · rw [h.inode 0 h.root.symm]
    exact hinv.rootBlock
  · rw [h.curDirBlock]
    exact hinv.curDirBlock

end Remove

/-! ## Writing and entering -/

/-- Block `b` is the map of a large file, or stores a directory that is not
current. -/
def Fixed (s : FS) (b : Fin 4096) : Prop :=
  ∃ i, s.live i = true ∧
    (((s.inode i).type = .file ∧ 10 < (s.inode i).blockCount ∧ (s.inode i).indirectBlock = b) ∨
      ((s.inode i).type = .directory ∧ ¬ s.Current i ∧ (s.inode i).directBlock 0 = b))

/-- The blocks of every live inode stay when no map is written to. -/
theorem ownedBlocks_setDisk (h : ∀ b, Fixed s b → d b = s.disk b) (hlive : s.live i = true) :
    ownedBlocks { s with disk := d } (s.inode i) = ownedBlocks s (s.inode i) :=
  ownedBlocks_congr fun ht hc b hb => h b ⟨i, hlive, Or.inl ⟨ht, hc, hb⟩⟩

/-- The other directories stay. -/
theorem dir_setDisk (hinv : Inv L s) (h : ∀ b, Fixed s b → d b = s.disk b) (hlive : s.live i = true)
    (htype : (s.inode i).type = .directory) : FS.dir { s with disk := d } i = s.dir i := by
  by_cases hcur : s.Current i
  · rw [FS.dir_of_current hcur, FS.dir_of_current (s := { s with disk := d }) hcur]
  · rw [FS.dir_of_not_current hcur, FS.dir_of_not_current (s := { s with disk := d }) hcur]
    exact stored_congr rfl (fun b hb => h b ⟨i, hlive, Or.inr ⟨htype, hcur, hb⟩⟩) ((hinv.inodes i).direct 0)

/-- **Writing keeps the invariant** when no map and no other directory's block
is written to. -/
theorem Inv.setDisk (hinv : Inv L s) (h : ∀ b, Fixed s b → d b = s.disk b) :
    Inv L { s with disk := d } := by
  have howns : ∀ i k b, Owns { s with disk := d } i k b ↔ Owns s i k b := fun i k b => by
    unfold Owns
    constructor
    · rintro ⟨hl, hk⟩
      exact ⟨hl, by rw [← ownedBlocks_setDisk h hl]; exact hk⟩
    · rintro ⟨hl, hk⟩
      exact ⟨hl, by rw [← ownedBlocks_setDisk h hl] at hk; exact hk⟩
  exact {
    hinv with
    owned := fun i hl x hx => hinv.owned i hl x (by rw [← ownedBlocks_setDisk h hl]; exact hx)
    unique := fun i j k l b hi hj => hinv.unique i j k l b ((howns i k b).mp hi) ((howns j l b).mp hj)
    cover := fun b hge hused => (hinv.cover b hge hused).imp_right fun ⟨i, k, hown⟩ =>
      ⟨i, k, (howns i k b).mpr hown⟩
    dirs := fun i hl ht => by
      rw [dir_setDisk hinv h hl ht]
      exact hinv.dirs i hl ht
    counts := ⟨hinv.counts.inodes, hinv.counts.blocks⟩ }

/-- The current directory in memory is stored. -/
def Flushed (s : FS) : Prop := ∀ i, s.Current i → s.stored i = s.curDir

/-- The state after the directory of inode `i` has been read into memory. -/
def FS.enter (s : FS) (i : Fin 512) : FS := { s with curDir := s.dir i }

theorem FS.dir_eq_stored (hflush : Flushed s) (i : Fin 512) : s.dir i = s.stored i := by
  by_cases hcur : s.Current i
  · rw [FS.dir_of_current hcur, hflush i hcur]
  · exact FS.dir_of_not_current hcur

/-- Entering changes no directory. -/
theorem FS.dir_enter (hflush : Flushed s) (hself : ((s.dir i).dentry 0).inode = i) (j : Fin 512) :
    (s.enter i).dir j = s.dir j := by
  have hcur : (s.enter i).Current i := hself
  by_cases hji : (s.enter i).Current j
  · have hij := hcur.unique hji
    subst hij
    exact FS.dir_of_current hji
  · rw [FS.dir_of_not_current hji, FS.dir_eq_stored hflush]
    rfl

/-- **Entering keeps the invariant.** -/
theorem Inv.enter (hinv : Inv L s) (hflush : Flushed s) (hlive : s.live i = true)
    (htype : (s.inode i).type = .directory) (hfits : Dentry.codec.Ok (s.dir i)) : Inv L (s.enter i) := by
  have hself := (hinv.dirs i hlive htype).self
  exact {
    hinv with
    counts := ⟨hinv.counts.inodes, hinv.counts.blocks⟩
    current := ⟨i, hself, hlive, htype⟩
    curFits := hfits
    dirs := fun j hl ht => by
      rw [FS.dir_enter hflush hself]
      exact hinv.dirs j hl ht }

end Preserve

end OperatingSystem.Fs
