import OperatingSystem.Fs.Reach

/-!
# OperatingSystem.Fs.Atomic

Whether `file_create` makes a file or nothing, and how many blocks a file takes.
The checks are made before anything changes, but by two helpers: a file of
`SMALL_FILE` bytes or more is made by the first for 5119 bytes, and is left so if
the second finds too little space.  The value `file_create` returns is 0 then, and
also for a small file that was refused (`allOrNothing_iff`).  The two helpers
round up separately, which takes one block too many when the size is a multiple
of the block size (`exactBlocks_iff`).
-/

namespace OperatingSystem.Fs

/-! ## Specifications -/

/-- There is one more entry, the last, which names inode `i`. -/
def NewEntry (s s' : FS) (name : Name) (i : Fin 512) : Prop :=
  s'.curDir.numEntry = s.curDir.numEntry + 1 ∧ ∃ k : Fin 25, (k : Int) = s.curDir.numEntry ∧
    cstr (s'.curDir.dentry k).name = name.1 ∧ (s'.curDir.dentry k).inode = i

/-- The result is 0 and the file has been made, or -1 and nothing has changed. -/
def AllOrNothing (s : FS) (name : Name) (size : Int) (result : Option Ret) : Prop :=
  ∃ r, result = some r ∧
    ((r.value = 0 ∧ ∃ i, NewEntry s r.fs name i ∧ (r.fs.inode i).type = .file ∧ (r.fs.inode i).size = size) ∨
    (r.value = -1 ∧ r.fs.curDir = s.curDir ∧ r.fs.inode = s.inode ∧ r.fs.inodeMap = s.inodeMap ∧
      r.fs.blockMap = s.blockMap ∧ r.fs.superBlock = s.superBlock))

/-- The number of blocks that hold `size` bytes. -/
def ceilBlocks (size : Int) : Int := (size + 511) / 512

/-- The blocks of a file with so many data blocks: one more for the map of the
indirect ones. -/
def withMap (count : Int) : Int := count + if 10 < count then 1 else 0

/-- The file has been made with the blocks it needs, and no others are taken. -/
def ExactBlocks (s : FS) (name : Name) (size : Int) (result : Option Ret) : Prop :=
  ∃ r i, result = some r ∧ NewEntry s r.fs name i ∧ (r.fs.inode i).size = size ∧
    (r.fs.inode i).blockCount = ceilBlocks size ∧
    r.fs.superBlock.freeBlockCount = s.superBlock.freeBlockCount - withMap (r.fs.inode i).blockCount

/-- The sizes and states in which `file_create` does not stop half way, nor
return 0 for a file it refused. -/
def CreatesWhole (s : FS) (name : Name) (size : Int) : Prop :=
  70656 ≤ size ∨
  (size < 5120 ∧ ChecksPass s name size ∧ 0 ≤ s.curDir.numEntry) ∨
  (5120 ≤ size ∧ size < 70656 ∧
    (((∃ x, searchCurDir s name = some x) ∧ ¬ ChecksPass s name 5119) ∨
      (ChecksPass s name 5119 ∧ 0 ≤ s.curDir.numEntry ∧ blocksFor (size - 5119) + 11 ≤ s.superBlock.freeBlockCount)))

section Outcome

variable {s : FS} {name : Name} {size : Int} {env : Env} {tmp : Nat → Byte} {i : Fin 512} {d : Dentry}
  {bs : List (Fin 4096)} {t : FS}

theorem NewEntry.unique (h : NewEntry s s' name i) (h' : NewEntry s s' name j) : i = j := by
  obtain ⟨-, k, hk, -, hi⟩ := h
  obtain ⟨-, l, hl, -, hj⟩ := h'
  obtain rfl : k = l := Fin.ext (by omega)
  exact Fin.ext (by omega)

/-! ## The new entry -/

theorem SmallRun.newEntry (h : SmallRun s env name size tmp i d bs t) (h0 : 0 ≤ s.curDir.numEntry)
    (hroom : s.curDir.numEntry < 24) : NewEntry s (s.smallFile t i bs) name i := by
  have hcurDir : (s.smallFile t i bs).curDir = d := by
    show t.curDir = d
    rw [h.taken.rest]
    rfl
  obtain ⟨k, hk⟩ : ∃ k : Fin 25, (k : Int) = s.curDir.numEntry := (Arr.exists_fin (by omega) (by omega)).imp fun _ => Eq.symm
  rw [NewEntry, hcurDir]
  exact ⟨h.entry.numEntry, k, hk, h.entry.last k hk⟩

/-- The large helper leaves the directory. -/
theorem LargeRun.newEntry (h : LargeRun s size tmp b cs t) (i : Fin 512) (hentry : NewEntry s₀ s name i) :
    NewEntry s₀ (s.growFile t i size b cs) name i := by
  have hcurDir : (s.growFile t i size b cs).curDir = s.curDir := by
    simp only [FS.growFile, diskWrite_curDir]
    rw [h.taken.rest]
    rfl
  rw [NewEntry, hcurDir]
  exact hentry

/-! ## All or nothing -/

theorem allOrNothing_some : AllOrNothing s name size (some r) ↔
    (r.value = 0 ∧ ∃ i, NewEntry s r.fs name i ∧ (r.fs.inode i).type = .file ∧ (r.fs.inode i).size = size) ∨
    (r.value = -1 ∧ r.fs.curDir = s.curDir ∧ r.fs.inode = s.inode ∧ r.fs.inodeMap = s.inodeMap ∧
      r.fs.blockMap = s.blockMap ∧ r.fs.superBlock = s.superBlock) := by
  simp [AllOrNothing]

/-- The space the second helper finds. -/
theorem SmallRun.largePasses_iff (h : SmallRun s env name 5119 tmp i d bs t) :
    LargePasses (s.smallFile t i bs) size ↔ blocksFor size + 11 ≤ s.superBlock.freeBlockCount := by
  have hten : blocksFor 5119 = 10 := by decide
  rw [LargePasses, h.freeBlocks, hten]
  omega

/-- An outcome is whole iff it is no half file, and no refusal that returns 0. -/
theorem Outcome.whole_iff (h : Outcome s env name size r) :
    AllOrNothing s name size (some r) ↔ CreatesWhole s name size := by
  cases h with
  | tooLarge hlarge =>
      exact iff_of_true (allOrNothing_some.mpr (Or.inr ⟨rfl, rfl, rfl, rfl, rfl, rfl⟩)) (Or.inl hlarge)
  | refused hfits hwhy =>
      obtain ⟨hsearch, hfail, -⟩ := hwhy.fails
      by_cases hsmall : size < 5120
      · have hmin : min size 5119 = size := by omega
        rw [hmin] at hfail
        refine iff_of_false (fun hwhole => ?_) (fun hwhole => ?_)
        · rw [allOrNothing_some, if_pos hsmall] at hwhole
          have hsame : ∀ i, ¬ NewEntry s s name i := fun i hentry => by
            have := hentry.1
            omega
          rcases hwhole with ⟨-, i, hentry, -⟩ | ⟨hval, -⟩
          · exact hsame i hentry
          · simp at hval
        · rcases hwhole with hlarge | ⟨-, hpass, -⟩ | ⟨hlarge, -⟩
          · omega
          · exact hfail hpass
          · omega
      · have hmin : min size 5119 = 5119 := by omega
        rw [hmin] at hfail
        refine iff_of_true (allOrNothing_some.mpr (Or.inr ⟨if_neg hsmall, rfl, rfl, rfl, rfl, rfl⟩)) ?_
        exact Or.inr (Or.inr ⟨by omega, hfits, Or.inl ⟨hsearch, hfail⟩⟩)
  | small hsmall hpass hnum run =>
      have hmin : min size 5119 = size := by omega
      rw [hmin] at hpass
      have hnode := run.node
      have hroom := (room_of_not_full hpass.room).2
      refine iff_of_true (allOrNothing_some.mpr (Or.inl ⟨rfl, _, run.newEntry hnum hroom, ?_, ?_⟩))
        (Or.inr (Or.inl ⟨hsmall, hpass, hnum⟩))
      · rw [hnode]
        rfl
      · rw [hnode]
        rfl
  | half hlarge hfits hpass hnum run hfail =>
      have hmin : min size 5119 = 5119 := by omega
      rw [hmin] at hpass
      rw [run.largePasses_iff] at hfail
      have hroom := (room_of_not_full hpass.room).2
      refine iff_of_false (fun hwhole => ?_) (fun hwhole => ?_)
      · rw [allOrNothing_some] at hwhole
        rcases hwhole with ⟨-, j, hentry, -, hsize⟩ | ⟨hval, -⟩
        · obtain rfl := (run.newEntry hnum hroom).unique hentry
          have hnode := congrArg Inode.size run.node
          have hsmall : (5119 : Int) = size := hnode.symm.trans hsize
          omega
        · simp at hval
      · rcases hwhole with hmax | ⟨hsmall, -⟩ | ⟨-, -, ⟨-, hno⟩ | ⟨-, -, hspace⟩⟩
        · omega
        · omega
        · exact hno hpass
        · exact hfail hspace
  | large hlarge hfits hpass hnum run hspace grow =>
      have hmin : min size 5119 = 5119 := by omega
      rw [hmin] at hpass
      rw [run.largePasses_iff] at hspace
      have hroom := (room_of_not_full hpass.room).2
      obtain ⟨htype, hsize, -⟩ := grow.made run
      have hentry := grow.newEntry _ (run.newEntry hnum hroom)
      exact iff_of_true (allOrNothing_some.mpr (Or.inl ⟨rfl, _, hentry, htype, hsize⟩))
        (Or.inr (Or.inr ⟨hlarge, hfits, Or.inr ⟨hpass, hnum, hspace⟩⟩))

/-- **When a creation is all or nothing**: in every state whose counters are
exact, `file_create` makes the file and returns 0, or changes nothing and returns
-1, iff the size is 70656 or more, or below 5120 and the checks pass, or between
and the first helper's checks fail or there is space for both helpers. -/
theorem allOrNothing_iff (hc : s.Counts) (env : Env) (name : Name) (h0 : 0 ≤ size) :
    AllOrNothing s name size (fileCreate s env name size) ↔ CreatesWhole s name size := by
  rcases fileCreate_outcome env hc name h0 with ⟨r, hrun, houtcome, -⟩ | ⟨hrun, hfits, hcase⟩
  · rw [hrun]
    exact houtcome.whole_iff
  · rw [hrun]
    refine iff_of_false (fun ⟨r, hr, _⟩ => nomatch hr) fun hwhole => ?_
    have hstuck : ∀ n, ChecksPass s name n → 0 ≤ s.curDir.numEntry →
        ¬ (searchCurDir s name = none ∨ (ChecksPass s name (min size 5119) ∧ s.curDir.numEntry < 0)) := by
      rintro n hpass hnum (hnone | ⟨-, hneg⟩)
      · obtain ⟨x, hx, -⟩ := hpass.absent
        exact nomatch hnone.symm.trans hx
      · omega
    rcases hwhole with hlarge | ⟨-, hpass, hnum⟩ | ⟨hlarge, -, ⟨⟨x, hx⟩, hno⟩ | ⟨hpass, hnum, -⟩⟩
    · omega
    · exact hstuck _ hpass hnum hcase
    · rcases hcase with hnone | ⟨hpass, -⟩
      · exact nomatch hnone.symm.trans hx
      · rw [show min size 5119 = 5119 by omega] at hpass
        exact hno hpass
    · exact hstuck _ hpass hnum hcase

theorem allOrNothing_iff_large : CreatesWhole (formatted quiet) (letter 0) 6000 ∧
    AllOrNothing (formatted quiet) (letter 0) 6000 (fileCreate (formatted quiet) quiet (letter 0) 6000) := by
  have hsearch : searchCurDir (formatted quiet) (letter 0) = some (-1) := by decide +kernel
  have hpass : ChecksPass (formatted quiet) (letter 0) 5119 :=
    ⟨⟨-1, hsearch, by decide⟩, by decide, by decide +kernel, by decide +kernel⟩
  have hwhole : CreatesWhole (formatted quiet) (letter 0) 6000 :=
    Or.inr (Or.inr ⟨by decide, by decide, Or.inr ⟨hpass, by decide, by decide +kernel⟩⟩)
  exact ⟨hwhole, (allOrNothing_iff (inv_formatted quiet).counts quiet (letter 0) (by decide)).mpr hwhole⟩

/-- A second file of the same name is refused, but the result is 0. -/
theorem create_existing_returns_zero : ∃ s r, quietly [.create (letter 0) 10] = some s ∧ s.Counts ∧
    fileCreate s quiet (letter 0) 10 = some r ∧ r.value = 0 ∧ r.fs.curDir.numEntry = s.curDir.numEntry ∧
    ¬ AllOrNothing s (letter 0) 10 (fileCreate s quiet (letter 0) 10) := by
  have hrun : ((step (formatted quiet) ⟨quiet, .create (letter 0) 10⟩).bind fun s =>
      (fileCreate s quiet (letter 0) 10).map fun r => (r.value, r.fs.curDir.numEntry, s.curDir.numEntry)) =
      some (0, 2, 2) := by decide +kernel
  obtain ⟨s, hs, hrun⟩ := Option.bind_eq_some_iff.mp hrun
  obtain ⟨r, hr, hval⟩ := Option.map_eq_some_iff.mp hrun
  simp only [Prod.mk.injEq] at hval
  obtain ⟨hval, hafter, hbefore⟩ := hval
  obtain ⟨r₁, hr₁, hfs⟩ := Option.map_eq_some_iff.mp hs
  have hc : s.Counts := hfs ▸ (fileCreate_exact quiet (inv_formatted quiet).counts hr₁).1
  refine ⟨s, r, by rw [quietly_eq, List.map_cons, List.map_nil, Run.exec_single, hs], hc, hr, hval, by omega, ?_⟩
  rw [hr, allOrNothing_some]
  rintro (⟨-, i, hentry, -⟩ | ⟨hneg, -⟩)
  · have := hentry.1
    omega
  · omega

/-! ## Block counts -/

theorem exactBlocks_some : ExactBlocks s name size (some r) ↔
    ∃ i, NewEntry s r.fs name i ∧ (r.fs.inode i).size = size ∧ (r.fs.inode i).blockCount = ceilBlocks size ∧
      r.fs.superBlock.freeBlockCount = s.superBlock.freeBlockCount - withMap (r.fs.inode i).blockCount := by
  simp [ExactBlocks]

/-- The two helpers round up separately: one block too many at a boundary. -/
theorem blocksFor_split (h : 5120 ≤ size) :
    10 + blocksFor (size - 5119) = ceilBlocks size + if size % 512 = 0 then 1 else 0 := by
  rw [blocksFor_of_nonneg (by omega), ceilBlocks]
  split <;> omega

theorem withMap_ceilBlocks (h : 5121 ≤ size) : withMap (ceilBlocks size) = ceilBlocks size + 1 := by
  rw [withMap, if_pos (by unfold ceilBlocks; omega)]

/-- An outcome has the blocks it needs iff it is below 5120 bytes or ends inside a
block. -/
theorem Outcome.exact_iff (h : Outcome s env name size r) (h0 : 0 ≤ size) (hfits : size < 70656)
    (hpass : ChecksPass s name (min size 5119))
    (hspace : withMap (ceilBlocks size) ≤ s.superBlock.freeBlockCount) :
    ExactBlocks s name size (some r) ↔ ¬ (5120 ≤ size ∧ size % 512 = 0) := by
  rw [exactBlocks_some]
  have hroom := (room_of_not_full hpass.room).2
  cases h with
  | tooLarge hlarge => omega
  | refused _ hwhy => exact absurd hpass hwhy.fails.2.1
  | small hsmall _ hnum run =>
      have hnode := run.node
      have hcount := blocksFor_of_nonneg h0
      refine iff_of_true ⟨_, run.newEntry hnum hroom, ?_, ?_, ?_⟩ (by omega)
      · rw [hnode]
        rfl
      · rw [hnode]
        exact hcount
      · rw [run.freeBlocks, hnode]
        show _ = s.superBlock.freeBlockCount - withMap (blocksFor size)
        rw [withMap, if_neg (by omega)]
        omega
  | half hlarge _ _ hnum run hfail =>
      rw [run.largePasses_iff] at hfail
      have hsplit := blocksFor_split hlarge
      refine iff_of_false ?_ (fun hboundary => ?_)
      · rintro ⟨j, hentry, hsize, -⟩
        obtain rfl := (run.newEntry hnum hroom).unique hentry
        have hnode := congrArg Inode.size run.node
        have hsmall : (5119 : Int) = size := hnode.symm.trans hsize
        omega
      · rw [if_neg (by omega)] at hsplit
        rw [withMap_ceilBlocks (by omega)] at hspace
        omega
  | large hlarge _ _ hnum run _ grow =>
      obtain ⟨-, hsize, hcount, hfree⟩ := grow.made run
      have hentry := grow.newEntry _ (run.newEntry hnum hroom)
      have hsplit := blocksFor_split hlarge
      rw [hsplit] at hcount hfree
      by_cases hboundary : size % 512 = 0
      · rw [if_pos hboundary] at hcount
        refine iff_of_false ?_ (fun h => h ⟨hlarge, hboundary⟩)
        rintro ⟨j, hentry', -, hexact, -⟩
        obtain rfl := hentry.unique hentry'
        have hoff : ceilBlocks size + 1 = ceilBlocks size := hcount.symm.trans hexact
        omega
      · rw [if_neg hboundary, Int.add_zero] at hcount hfree
        refine iff_of_true ⟨_, hentry, hsize, hcount, ?_⟩ (fun h => hboundary h.2)
        rw [hfree, hcount, withMap_ceilBlocks (by omega)]

end Outcome

/-- **When a file takes the blocks it needs**: in every state with exact
counters, a free inode, an unused name, room in the directory and enough free
blocks, iff the size is below 5120 or no multiple of the block size. -/
theorem exactBlocks_iff (hc : s.Counts) (env : Env) (name : Name) (h0 : 0 ≤ size) (hfits : size < 70656)
    (hinode : 1 ≤ s.superBlock.freeInodeCount) (hname : ∀ e ∈ entries s.curDir, e.1 ≠ name.1)
    (hpos : 0 ≤ s.curDir.numEntry) (hroom : s.curDir.numEntry < 24)
    (hspace : withMap (ceilBlocks size) ≤ s.superBlock.freeBlockCount) :
    ExactBlocks s name size (fileCreate s env name size) ↔ ¬ (5120 ≤ size ∧ size % 512 = 0) := by
  have hsearch : searchCurDir s name = some (-1) := searchCurDir_not_found hroom.le fun k hk hmatch =>
    hname _ (mem_entries.mpr ⟨k, hk, hmatch, rfl⟩) rfl
  have hblocks : blocksFor (min size 5119) ≤ withMap (ceilBlocks size) := by
    rw [blocksFor_of_nonneg (by omega), withMap, ceilBlocks]
    split <;> omega
  have hpass : ChecksPass s name (min size 5119) :=
    ⟨⟨-1, hsearch, by decide⟩, by unfold Dentry.Full; omega, by omega, hinode⟩
  rcases fileCreate_outcome env hc name h0 with ⟨r, hrun, houtcome, -⟩ | ⟨-, -, hnone | ⟨-, hneg⟩⟩
  · rw [hrun]
    exact houtcome.exact_iff h0 hfits hpass hspace
  · exact nomatch hnone.symm.trans hsearch
  · omega

theorem exactBlocks_iff_large : ExactBlocks (formatted quiet) (letter 0) 6000
    (fileCreate (formatted quiet) quiet (letter 0) 6000) :=
  (exactBlocks_iff (inv_formatted quiet).counts quiet (letter 0) (by decide) (by decide) (by decide +kernel)
    (by decide +kernel) (by decide) (by decide) (by decide +kernel)).mpr (by decide)

/-- A file of 10 blocks is given 11, and 12 are taken. -/
theorem create_boundary_takes_more : (formatted quiet).Counts ∧ 1 ≤ (formatted quiet).superBlock.freeInodeCount ∧
    (∀ e ∈ entries (formatted quiet).curDir, e.1 ≠ (letter 0).1) ∧ (formatted quiet).curDir.numEntry = 1 ∧
    withMap (ceilBlocks 5120) = 10 ∧ (formatted quiet).superBlock.freeBlockCount = 3964 ∧
    (∃ r, fileCreate (formatted quiet) quiet (letter 0) 5120 = some r ∧ (r.fs.inode 1).blockCount = 11 ∧
      r.fs.superBlock.freeBlockCount = 3952) ∧
    ¬ ExactBlocks (formatted quiet) (letter 0) 5120 (fileCreate (formatted quiet) quiet (letter 0) 5120) := by
  have hrun : (fileCreate (formatted quiet) quiet (letter 0) 5120).map (fun r =>
      ((r.fs.inode 1).blockCount, r.fs.superBlock.freeBlockCount, (r.fs.curDir.dentry 1).inode)) =
      some (11, 3952, 1) := by decide +kernel
  obtain ⟨r, hr, hval⟩ := Option.map_eq_some_iff.mp hrun
  simp only [Prod.mk.injEq] at hval
  obtain ⟨hcount, hfree, hinode⟩ := hval
  refine ⟨(inv_formatted quiet).counts, by decide +kernel, by decide +kernel, by decide, by decide, by decide +kernel,
    ⟨r, hr, hcount, hfree⟩, ?_⟩
  rw [hr, exactBlocks_some]
  rintro ⟨i, ⟨-, k, hk, -, hi⟩, -, hexact, -⟩
  have hk : (k : Int) = 1 := hk
  obtain rfl : k = 1 := Fin.ext (by exact_mod_cast hk)
  obtain rfl : i = 1 := Fin.ext (by exact_mod_cast hi.symm.trans hinode)
  exact absurd (hcount.symm.trans hexact) (by decide)

end OperatingSystem.Fs
