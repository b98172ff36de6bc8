import OperatingSystem.Fs.Alloc

/-!
# OperatingSystem.Fs.Make

What `file_create` and `dir_make` do in any state whose free counters are exact.
The checks they make first are all that can fail: once these have passed, the
allocations that follow find what they take, so a refused call has changed
nothing and none of the messages of a failed allocation is printed.
-/

namespace OperatingSystem.Fs

/-! ## Checks -/

theorem blocksFor_of_nonneg (h : 0 ≤ size) : blocksFor size = (size + 511) / 512 := by
  unfold blocksFor
  rw [Int.tmod_eq_emod_of_nonneg h, Int.tdiv_eq_ediv_of_nonneg h]
  split <;> omega

/-- The checks of `file_create_small_helper`.  A name counts as absent if the
number found with it is negative. -/
structure ChecksPass (s : FS) (name : Name) (size : Int) : Prop where
  absent : ∃ x, searchCurDir s name = some x ∧ x < 0
  room : ¬ s.curDir.Full
  blocks : blocksFor size ≤ s.superBlock.freeBlockCount
  inodes : 1 ≤ s.superBlock.freeInodeCount

/-- The space check of `file_create_large_helper`. -/
def LargePasses (s : FS) (size : Int) : Prop := blocksFor size + 1 ≤ s.superBlock.freeBlockCount

/-- Why `file_create_small_helper` refuses, in the order of its checks, and what it
prints. -/
inductive SmallRefused (s : FS) (name : Name) (size : Int) : Printf → Prop
  | present (found : searchCurDir s name = some x) (inode : 0 ≤ x) :
      SmallRefused s name size (.name "File create failed:  %s exist.\n" name.1)
  | full (found : searchCurDir s name = some x) (absent : x < 0) (full : s.curDir.Full) :
      SmallRefused s name size (.text "File create failed: directory is full!\n")
  | space (found : searchCurDir s name = some x) (absent : x < 0) (room : ¬ s.curDir.Full)
      (blocks : s.superBlock.freeBlockCount < blocksFor size) :
      SmallRefused s name size (.text "File create failed: not enough space\n")
  | inodes (found : searchCurDir s name = some x) (absent : x < 0) (room : ¬ s.curDir.Full)
      (blocks : blocksFor size ≤ s.superBlock.freeBlockCount) (inodes : s.superBlock.freeInodeCount < 1) :
      SmallRefused s name size (.text "File create failed: not enough inode\n")

/-- What is printed behind a failed `get_free_inode` or `get_free_block`. -/
def allocationFailures : List Printf :=
  [.text "File_create error: not enough inode.\n", .text "File_create error: get_free_block failed\n",
    .text "Directory create error: not enough inode.\n", .text "Directory create error: get_free_block failed\n"]

/-- No allocation failed. -/
def NoFailure (out : List Printf) : Prop := ∀ p ∈ out, p ∉ allocationFailures

theorem noFailure_append (h : NoFailure out) (h' : NoFailure out') : NoFailure (out ++ out') := fun p hp =>
  (List.mem_append.mp hp).elim (h p) (h' p)

theorem noFailure_singleton {p : Printf} (h : p ∉ allocationFailures) : NoFailure [p] := fun q hq => by
  rw [List.mem_singleton.mp hq]
  exact h

/-- It refuses only if a check fails, and the message is not that of a failed
allocation. -/
theorem SmallRefused.fails {s : FS} (h : SmallRefused s name size p) :
    (∃ x, searchCurDir s name = some x) ∧ ¬ ChecksPass s name size ∧ p ∉ allocationFailures := by
  cases h with
  | present found inode =>
      refine ⟨⟨_, found⟩, fun hpass => ?_, by simp [allocationFailures]⟩
      obtain ⟨y, hy, hneg⟩ := hpass.absent
      obtain rfl := Option.some.inj (found.symm.trans hy)
      omega
  | full found absent full => exact ⟨⟨_, found⟩, fun hpass => hpass.room full, by decide⟩
  | space found absent room blocks =>
      exact ⟨⟨_, found⟩, fun hpass => absurd hpass.blocks (Int.not_le.mpr blocks), by decide⟩
  | inodes found absent room blocks inodes =>
      exact ⟨⟨_, found⟩, fun hpass => absurd hpass.inodes (Int.not_le.mpr inodes), by decide⟩

/-! ## The state after the entry has been added -/

/-- The state after inode `i` has been taken and filled, and its entry added. -/
def FS.addInode (s : FS) (i : Fin 512) (n : Inode) (d : Dentry) : FS :=
  { s.flipInode i with inode := Function.update s.inode i n, curDir := d }

theorem counts_addInode {s : FS} (hc : s.Counts) (i : Fin 512) (n : Inode) (d : Dentry) :
    (s.addInode i n d).Counts :=
  ⟨(hc.flipInode i).inodes, (hc.flipInode i).blocks⟩

section Make

variable {s : FS} {name : Name} {size : Int} (env : Env)

/-- A directory that is not full has a free entry, unless its count is negative. -/
theorem room_of_not_full (h : ¬ s.curDir.Full) : -1 ≤ s.curDir.numEntry ∧ s.curDir.numEntry < 24 := by
  unfold Dentry.Full at h
  omega

/-- With a count of -1 there is no entry to write to. -/
theorem addEntry_negative (d : Dentry) (h : d.numEntry < 0) (name : Name) (inode : Int) :
    d.addEntry name inode = none := by
  have hrange : ¬ (0 ≤ d.numEntry ∧ d.numEntry < (25 : Nat)) := by omega
  rw [Dentry.addEntry, Arr.read, dif_neg hrange]
  rfl

/-! ## The small helper -/

/-- The inode `file_create_small_helper` fills. -/
def FS.smallNode (s : FS) (env : Env) (size : Int) (i : Fin 512) : Inode :=
  (s.inode i).fill env .file size (blocksFor size)

/-- What `file_create_small_helper` takes: inode `i`, and the blocks `bs` for the
buffer. -/
structure SmallRun (s : FS) (env : Env) (name : Name) (size : Int) (tmp : Nat → Byte) (i : Fin 512) (d : Dentry)
    (bs : List (Fin 4096)) (t : FS) : Prop where
  inode : s.FirstFree i
  entry : AddStep s.curDir name i d
  length : (bs.length : Int) = blocksFor size
  taken : Taken (s.addInode i (s.smallNode env size i) d) bs t
  data : ∀ k b, bs[k]? = some b → t.disk b = chunk tmp k

/-- The state `file_create_small_helper` leaves. -/
def FS.smallFile (s t : FS) (i : Fin 512) (bs : List (Fin 4096)) : FS :=
  (directSlots i).set t (place (s.inode i).directBlock bs)

theorem fileCreateSmallHelper_none (h : searchCurDir s name = none) (tmp : Nat → Byte) :
    fileCreateSmallHelper s env name size tmp = none := by
  rw [fileCreateSmallHelper, h]
  rfl

/-- A call that is refused changes nothing. -/
theorem fileCreateSmallHelper_refused (hsearch : searchCurDir s name = some x) (hfail : ¬ ChecksPass s name size)
    (tmp : Nat → Byte) :
    ∃ p, SmallRefused s name size p ∧ fileCreateSmallHelper s env name size tmp = some ⟨-1, [p], s⟩ := by
  unfold fileCreateSmallHelper
  rw [hsearch, Option.bind_eq_bind, Option.bind_some]
  by_cases hx : x ≥ 0
  · rw [if_pos hx]
    exact ⟨_, .present hsearch hx, rfl⟩
  rw [if_neg hx]
  by_cases hfull : s.curDir.Full
  · rw [if_pos hfull]
    exact ⟨_, .full hsearch (by omega) hfull, rfl⟩
  rw [if_neg hfull]
  by_cases hspace : blocksFor size > s.superBlock.freeBlockCount
  · rw [if_pos hspace]
    exact ⟨_, .space hsearch (by omega) hfull hspace, rfl⟩
  rw [if_neg hspace]
  by_cases hnode : s.superBlock.freeInodeCount < 1
  · rw [if_pos hnode]
    exact ⟨_, .inodes hsearch (by omega) hfull (by omega) hnode, rfl⟩
  exact absurd ⟨⟨x, hsearch, by omega⟩, hfull, by omega, by omega⟩ hfail

/-- Behind the checks the helper is the allocation of an inode, its entry and
the blocks. -/
theorem fileCreateSmallHelper_passed (hc : s.Counts) (hpass : ChecksPass s name size) (tmp : Nat → Byte) :
    ∃ i, s.FirstFree i ∧ fileCreateSmallHelper s env name size tmp =
      (s.curDir.addEntry name (i : Fin 512)).bind fun d =>
        (getBlocks (putDirect i) (chunk tmp) (List.range (blocksFor size).toNat)
          (s.addInode i (s.smallNode env size i) d)).bind fun p =>
            if p.1 = -1 then some ⟨-1, [.text "File_create error: get_free_block failed\n"], p.2⟩
            else some ⟨(i : Fin 512), [], p.2⟩ := by
  obtain ⟨x, hsearch, hx⟩ := hpass.absent
  have hblocks := hpass.blocks
  have hinodes := hpass.inodes
  obtain ⟨i, hfree, hget⟩ := getFreeInode_spec hc (by omega)
  refine ⟨i, hfree, ?_⟩
  have hneg : ¬ ((i : Nat) : Int) < 0 := by omega
  have hread : (s.flipInode i).inode.read i = some (s.inode i) := Arr.read_fin _ i
  have hwrite : ∀ n, (s.flipInode i).inode.write i n = some (Function.update s.inode i n) := fun n =>
    Arr.write_fin _ i n
  unfold fileCreateSmallHelper
  rw [hsearch, Option.bind_eq_bind, Option.bind_some, if_neg (by omega), if_neg hpass.room, if_neg (by omega),
    if_neg (by omega), hget]
  dsimp only
  rw [if_neg hneg, hread, Option.bind_eq_bind, Option.bind_some, hwrite, Option.bind_eq_bind,
    Option.bind_some]
  rfl

theorem fileCreateSmallHelper_negative (hc : s.Counts) (hpass : ChecksPass s name size)
    (hnum : s.curDir.numEntry < 0) (tmp : Nat → Byte) : fileCreateSmallHelper s env name size tmp = none := by
  obtain ⟨i, -, hrun⟩ := fileCreateSmallHelper_passed env hc hpass tmp
  rw [hrun, addEntry_negative _ hnum, Option.bind_none]

/-- **The small helper**: behind its checks, it makes the file. -/
theorem fileCreateSmallHelper_run (hc : s.Counts) (hpass : ChecksPass s name size) (h0 : 0 ≤ size)
    (hsize : size < 5120) (hnum : 0 ≤ s.curDir.numEntry) (tmp : Nat → Byte) :
    ∃ i d bs t, SmallRun s env name size tmp i d bs t ∧ fileCreateSmallHelper s env name size tmp =
      some ⟨(i : Fin 512), [], s.smallFile t i bs⟩ := by
  have hblocks := hpass.blocks
  have hroom := (room_of_not_full hpass.room).2
  have hcount := blocksFor_of_nonneg h0
  obtain ⟨i, hfree, hrun⟩ := fileCreateSmallHelper_passed env hc hpass tmp
  obtain ⟨d, hadd, hentry⟩ := addEntry_spec hnum (by omega) name i
  obtain ⟨bs, t, hlen, htaken, hdata, hloop⟩ := getBlocks_spec (directSlots i) (chunk tmp)
    (n := (blocksFor size).toNat) (by omega) (counts_addInode hc i (s.smallNode env size i) d)
    (by simp only [FS.addInode, FS.flipInode]; omega) (s.inode i).directBlock
  have hself : (directSlots i).set (s.addInode i (s.smallNode env size i) d) (s.inode i).directBlock =
      s.addInode i (s.smallNode env size i) d := by
    have h := directSlots_set_self (s.addInode i (s.smallNode env size i) d) i
    simp only [FS.addInode, Function.update_self] at h ⊢
    exact h
  rw [hself] at hloop
  have hloop' : getBlocks (putDirect i) (chunk tmp) (List.range (blocksFor size).toNat)
      (s.addInode i (s.smallNode env size i) d) = _ := hloop
  refine ⟨i, d, bs, t, ⟨hfree, hentry, by omega, htaken, hdata⟩, ?_⟩
  rw [hrun, hadd, Option.bind_some, hloop', Option.bind_some, if_neg (show ¬ (0 : Int) = -1 by decide)]
  rfl

/-- What the small helper's result says. -/
theorem fileCreateSmallHelper_some (hc : s.Counts) (h0 : 0 ≤ size) (hsize : size < 5120)
    (h : fileCreateSmallHelper s env name size tmp = some r) :
    (∃ p, SmallRefused s name size p ∧ r = ⟨-1, [p], s⟩) ∨
      (ChecksPass s name size ∧ 0 ≤ s.curDir.numEntry ∧ ∃ i d bs t, SmallRun s env name size tmp i d bs t ∧
        r = ⟨(i : Fin 512), [], s.smallFile t i bs⟩) := by
  cases hsearch : searchCurDir s name with
  | none => exact nomatch (fileCreateSmallHelper_none env hsearch tmp).symm.trans h
  | some x =>
      by_cases hpass : ChecksPass s name size
      · by_cases hnum : 0 ≤ s.curDir.numEntry
        · obtain ⟨i, d, bs, t, hsmall, hrun⟩ := fileCreateSmallHelper_run env hc hpass h0 hsize hnum tmp
          exact Or.inr ⟨hpass, hnum, i, d, bs, t, hsmall, Option.some.inj (h.symm.trans hrun)⟩
        · exact nomatch (fileCreateSmallHelper_negative env hc hpass (by omega) tmp).symm.trans h
      · obtain ⟨p, hp, hrun⟩ := fileCreateSmallHelper_refused env hsearch hpass tmp
        exact Or.inl ⟨p, hp, Option.some.inj (h.symm.trans hrun)⟩

/-- The helper has undefined behaviour only if the search does, or if there is no
entry to write to. -/
theorem fileCreateSmallHelper_eq_none (hc : s.Counts) (h0 : 0 ≤ size) (hsize : size < 5120)
    (h : fileCreateSmallHelper s env name size tmp = none) :
    searchCurDir s name = none ∨ (ChecksPass s name size ∧ s.curDir.numEntry < 0) := by
  cases hsearch : searchCurDir s name with
  | none => exact Or.inl rfl
  | some x =>
      by_cases hpass : ChecksPass s name size
      · refine Or.inr ⟨hpass, ?_⟩
        by_contra hnum
        obtain ⟨i, d, bs, t, -, hrun⟩ := fileCreateSmallHelper_run env hc hpass h0 hsize (by omega) tmp
        exact nomatch h.symm.trans hrun
      · obtain ⟨p, -, hrun⟩ := fileCreateSmallHelper_refused env hsearch hpass tmp
        exact nomatch h.symm.trans hrun

theorem SmallRun.counts (h : SmallRun s env name size tmp i d bs t) : (s.smallFile t i bs).Counts :=
  ((directSlots i).counts_set t _).mpr h.taken.counts

/-! ## The large helper -/

/-- The fields `file_create_large_helper` sets. -/
def Inode.grow (n : Inode) (size count indirect : Int) : Inode :=
  { n with size := n.size + size, blockCount := n.blockCount + count, indirectBlock := indirect }

/-- What `file_create_large_helper` takes: block `b` for the map, and the blocks
`cs` for the rest of the buffer. -/
structure LargeRun (s : FS) (size : Int) (tmp : Nat → Byte) (b : Fin 4096) (cs : List (Fin 4096)) (t : FS) :
    Prop where
  fresh : s.used b = false
  length : (cs.length : Int) = blocksFor size
  taken : Taken (s.flipBlock b) cs t
  data : ∀ k c, cs[k]? = some c → t.disk c = chunk tmp (k + 10)

/-- The state `file_create_large_helper` leaves. -/
def FS.growFile (s t : FS) (i : Fin 512) (size : Int) (b : Fin 4096) (cs : List (Fin 4096)) : FS :=
  { t.diskWrite b (InDirectBlockMap.codec.store 512 (place s.inDirectBMap cs)) with
    inode := Function.update t.inode i ((s.inode i).grow size (blocksFor size) b)
    inDirectBMap := place s.inDirectBMap cs }

theorem fileCreateLargeHelper_refused (hfail : ¬ LargePasses s size) (inodeNum : Int) (tmp : Nat → Byte) :
    fileCreateLargeHelper s inodeNum size tmp = some ⟨-1, [.text "File create failed: not enough space\n"], s⟩ := by
  unfold fileCreateLargeHelper
  rw [LargePasses] at hfail
  rw [if_pos (by omega)]
  rfl

/-- **The large helper**: behind its check, it adds the blocks. -/
theorem fileCreateLargeHelper_run (hc : s.Counts) (hpass : LargePasses s size) (h0 : 0 ≤ size)
    (hsize : size ≤ 65536) (i : Fin 512) (tmp : Nat → Byte) :
    ∃ b cs t, LargeRun s size tmp b cs t ∧
      fileCreateLargeHelper s i size tmp = some ⟨0, [], s.growFile t i size b cs⟩ := by
  have hcount := blocksFor_of_nonneg h0
  rw [LargePasses] at hpass
  obtain ⟨b, hb, hget⟩ := getFreeBlock_spec hc (by omega)
  have hfree : (s.flipBlock b).superBlock.freeBlockCount = s.superBlock.freeBlockCount - 1 := by
    simp only [FS.flipBlock, hb, Bool.false_eq_true, if_false]
    omega
  obtain ⟨cs, t, hlen, htaken, hdata, hloop⟩ := getBlocks_spec indirectSlots (fun k : Nat => chunk tmp (k + 10))
    (n := (blocksFor size).toNat) (by omega) (hc.flipBlock b) (by omega) s.inDirectBMap
  refine ⟨b, cs, t, ⟨hb, by omega, htaken, hdata⟩, ?_⟩
  have hneg : ¬ ((b : Nat) : Int) = -1 := by omega
  have hnode : t.inode i = s.inode i := by
    rw [htaken.rest]
    rfl
  have hread : (indirectSlots.set t (place s.inDirectBMap cs)).inode.read i = some (s.inode i) := by
    rw [← hnode]
    exact Arr.read_fin _ i
  have hwrite : ∀ m, (indirectSlots.set t (place s.inDirectBMap cs)).inode.write i m =
      some (Function.update t.inode i m) := fun m => Arr.write_fin _ i m
  have hloop' : getBlocks putIndirect (fun k : Nat => chunk tmp (k + 10)) (List.range (blocksFor size).toNat)
      (s.flipBlock b) = _ := hloop
  unfold fileCreateLargeHelper
  rw [if_neg (by omega), hget]
  dsimp only
  rw [if_neg hneg, hloop', Option.bind_eq_bind, Option.bind_some]
  dsimp only
  rw [if_neg (by decide), hread, Option.bind_eq_bind, Option.bind_some, hwrite, Option.bind_eq_bind,
    Option.bind_some, diskWriteOut_fin, FS.growFile]
  simp only [diskWrite_fin]
  rfl

theorem LargeRun.counts (h : LargeRun s size tmp b cs t) (i : Fin 512) : (s.growFile t i size b cs).Counts := by
  rw [FS.growFile, diskWrite_fin]
  exact ⟨h.taken.counts.inodes, h.taken.counts.blocks⟩

/-! ## file_create -/

/-- What `file_create` returns, prints and leaves: it refuses, or it makes a small
file, or half of a large one, or all of it. -/
inductive Outcome (s : FS) (env : Env) (name : Name) (size : Int) : Ret → Prop
  | tooLarge (large : 70656 ≤ size) :
      Outcome s env name size ⟨-1, [.text "File create failed:  size over 70,656.\n"], s⟩
  | refused (fits : size < 70656) (why : SmallRefused s name (min size 5119) p) :
      Outcome s env name size ⟨if size < 5120 then 0 else -1,
        if size < 5120 then [p, .created name.1 (-1) size] else [p], s⟩
  | small (small : size < 5120) (pass : ChecksPass s name (min size 5119)) (entries : 0 ≤ s.curDir.numEntry)
      (run : SmallRun s env name size (createBuffer env size) i d bs t) :
      Outcome s env name size ⟨0, [.created name.1 (i : Fin 512) size], s.smallFile t i bs⟩
  | half (large : 5120 ≤ size) (fits : size < 70656) (pass : ChecksPass s name (min size 5119))
      (entries : 0 ≤ s.curDir.numEntry) (run : SmallRun s env name 5119 (createBuffer env size) i d bs t)
      (fail : ¬ LargePasses (s.smallFile t i bs) (size - 5119)) :
      Outcome s env name size
        ⟨0, [.text "File create failed: not enough space\n", .created name.1 (i : Fin 512) size], s.smallFile t i bs⟩
  | large (large : 5120 ≤ size) (fits : size < 70656) (pass : ChecksPass s name (min size 5119))
      (entries : 0 ≤ s.curDir.numEntry) (run : SmallRun s env name 5119 (createBuffer env size) i d bs t)
      (space : LargePasses (s.smallFile t i bs) (size - 5119))
      (grow : LargeRun (s.smallFile t i bs) (size - 5119) (createBuffer env size) b cs u) :
      Outcome s env name size ⟨0, [.created name.1 (i : Fin 512) size],
        (s.smallFile t i bs).growFile u i (size - 5119) b cs⟩

/-- **What `file_create` does**: one of its outcomes, and no allocation fails; it
has undefined behaviour where the search does, or where the entry would be
outside the array. -/
theorem fileCreate_outcome (hc : s.Counts) (name : Name) (h0 : 0 ≤ size) :
    (∃ r, fileCreate s env name size = some r ∧ Outcome s env name size r ∧ NoFailure r.out) ∨
      (fileCreate s env name size = none ∧ size < 70656 ∧ (searchCurDir s name = none ∨
        (ChecksPass s name (min size 5119) ∧ s.curDir.numEntry < 0))) := by
  have hcreated : ∀ i size, NoFailure [Printf.created name.1 i size] := fun i size =>
    noFailure_singleton (by simp [allocationFailures])
  unfold fileCreate
  by_cases hmax : size ≥ 70656
  · rw [if_pos hmax]
    exact Or.inl ⟨_, rfl, .tooLarge hmax, noFailure_singleton (by decide)⟩
  rw [if_neg hmax, if_neg (show ¬ size < 0 by omega)]
  dsimp only
  by_cases hlarge : size ≥ 5120
  · have hmin : min size 5119 = 5119 := by omega
    rw [if_pos hlarge, show (5120 - 1 : Int) = 5119 from rfl]
    cases hsmall : fileCreateSmallHelper s env name 5119 (createBuffer env size) with
    | none =>
        have hcase := fileCreateSmallHelper_eq_none env hc (by decide) (by decide) hsmall
        exact Or.inr ⟨rfl, by omega, by rw [hmin]; exact hcase⟩
    | some r₁ =>
        rw [Option.bind_eq_bind, Option.bind_some]
        rcases fileCreateSmallHelper_some env hc (by decide) (by decide) hsmall with
          ⟨p, hp, rfl⟩ | ⟨hpass, hnum, i, d, bs, t, hrun, rfl⟩
        · rw [if_pos (show (-1 : Int) < 0 by decide)]
          have houtcome : Outcome s env name size _ := .refused (by omega) (by rw [hmin]; exact hp)
          rw [if_neg (by omega), if_neg (by omega)] at houtcome
          exact Or.inl ⟨_, rfl, houtcome, noFailure_singleton hp.fails.2.2⟩
        · rw [if_neg (show ¬ ((i : Nat) : Int) < 0 by omega)]
          dsimp only
          by_cases hspace : LargePasses (s.smallFile t i bs) (size - 5119)
          · obtain ⟨b, cs, u, hl, hrun'⟩ := fileCreateLargeHelper_run hrun.counts hspace (by omega) (by omega) i
              (createBuffer env size)
            rw [hrun', Option.bind_some]
            exact Or.inl ⟨_, rfl, .large hlarge (by omega) (by rw [hmin]; exact hpass) hnum hrun hspace hl, hcreated _ _⟩
          · rw [fileCreateLargeHelper_refused hspace i (createBuffer env size), Option.bind_some]
            exact Or.inl ⟨_, rfl, .half hlarge (by omega) (by rw [hmin]; exact hpass) hnum hrun hspace,
              noFailure_append (noFailure_singleton (by decide)) (hcreated _ _)⟩
  · have hmin : min size 5119 = size := by omega
    rw [if_neg hlarge]
    cases hsmall : fileCreateSmallHelper s env name size (createBuffer env size) with
    | none =>
        have hcase := fileCreateSmallHelper_eq_none env hc h0 (by omega) hsmall
        exact Or.inr ⟨rfl, by omega, by rw [hmin]; exact hcase⟩
    | some r₁ =>
        rw [Option.bind_eq_bind, Option.bind_some]
        rcases fileCreateSmallHelper_some env hc h0 (by omega) hsmall with
          ⟨p, hp, rfl⟩ | ⟨hpass, hnum, i, d, bs, t, hrun, rfl⟩
        · have houtcome : Outcome s env name size _ := .refused (by omega) (by rw [hmin]; exact hp)
          rw [if_pos (by omega), if_pos (by omega)] at houtcome
          exact Or.inl ⟨_, rfl, houtcome, noFailure_append (noFailure_singleton hp.fails.2.2) (hcreated _ _)⟩
        · exact Or.inl ⟨_, rfl, .small (by omega) (by rw [hmin]; exact hpass) hnum hrun, hcreated _ _⟩

theorem Outcome.counts (hc : s.Counts) (h : Outcome s env name size r) : r.fs.Counts := by
  cases h with
  | tooLarge => exact hc
  | refused => exact hc
  | small _ _ _ run => exact run.counts
  | half _ _ _ _ run => exact run.counts
  | large _ _ _ _ _ _ grow => exact grow.counts _

/-- A call that returns was one of these. -/
theorem fileCreate_some (hc : s.Counts) (h : fileCreate s env name size = some r) :
    0 ≤ size ∧ Outcome s env name size r ∧ NoFailure r.out := by
  by_cases h0 : 0 ≤ size
  · rcases fileCreate_outcome env hc name h0 with ⟨r', hrun, houtcome, hout⟩ | ⟨hnone, -⟩
    · obtain rfl := Option.some.inj (hrun.symm.trans h)
      exact ⟨h0, houtcome, hout⟩
    · simp [hnone] at h
  · rw [fileCreate, if_neg (by omega), if_pos (by omega)] at h
    contradiction

/-- `file_create` keeps the counters exact, and no allocation in it fails. -/
theorem fileCreate_exact (hc : s.Counts) (h : fileCreate s env name size = some r) :
    r.fs.Counts ∧ NoFailure r.out := by
  obtain ⟨-, houtcome, hout⟩ := fileCreate_some env hc h
  exact ⟨houtcome.counts env hc, hout⟩

/-- A call whose checks fail changes nothing. -/
theorem fileCreate_fs (hc : s.Counts) (h : fileCreate s env name size = some r)
    (hfail : size < 70656 → ¬ ChecksPass s name (min size 5119)) : r.fs = s := by
  obtain ⟨-, houtcome, -⟩ := fileCreate_some env hc h
  cases houtcome with
  | tooLarge => rfl
  | refused => rfl
  | small hsmall hpass => exact absurd hpass (hfail (by omega))
  | half _ hfits hpass => exact absurd hpass (hfail hfits)
  | large _ hfits hpass => exact absurd hpass (hfail hfits)

/-! ## dir_make -/

/-- The checks of `dir_make`. -/
structure DirChecksPass (s : FS) (name : Name) : Prop where
  absent : ∃ x, searchCurDir s name = some x ∧ x < 0
  room : ¬ s.curDir.Full
  inodes : 1 ≤ s.superBlock.freeInodeCount
  blocks : 1 ≤ s.superBlock.freeBlockCount

/-- Why `dir_make` refuses, in the order of its checks, and what it prints. -/
inductive DirRefused (s : FS) (name : Name) : Printf → Prop
  | present (found : searchCurDir s name = some x) (inode : 0 ≤ x) :
      DirRefused s name (.name "Directory create failed:  %s exist.\n" name.1)
  | full (found : searchCurDir s name = some x) (absent : x < 0) (full : s.curDir.Full) :
      DirRefused s name (.text "Directory create failed: directory is full!\n")
  | inodes (found : searchCurDir s name = some x) (absent : x < 0) (room : ¬ s.curDir.Full)
      (inodes : s.superBlock.freeInodeCount < 1) :
      DirRefused s name (.text "Directory create failed: not enough inode\n")
  | space (found : searchCurDir s name = some x) (absent : x < 0) (room : ¬ s.curDir.Full)
      (inodes : 1 ≤ s.superBlock.freeInodeCount) (blocks : s.superBlock.freeBlockCount < 1) :
      DirRefused s name (.text "Directory create failed: not enough space\n")

/-- The inode `dir_make` fills. -/
def FS.dirNode (s : FS) (env : Env) (i : Fin 512) : Inode := (s.inode i).fill env .directory 1 1

/-- What `dir_make` takes: inode `i` and block `b`, to which the two entries of
the new directory are written. -/
structure DirRun (s : FS) (env : Env) (name : Name) (i : Fin 512) (d : Dentry) (b : Fin 4096) (t : FS) : Prop where
  inode : s.FirstFree i
  entry : AddStep s.curDir name i d
  taken : Taken (s.addInode i (s.dirNode env i) d) [b] t
  disk : t.disk b = Dentry.codec.store 512 (subDir env.stack i (d.dentry 0).inode)

theorem dirMake_none (h : searchCurDir s name = none) : dirMake s env name = none := by
  rw [dirMake, h]
  rfl

/-- The message is not that of a failed allocation. -/
theorem DirRefused.noFailure (h : DirRefused s name p) : NoFailure [p] := by
  refine noFailure_singleton ?_
  cases h with
  | present => simp [allocationFailures]
  | _ => decide

/-- A call that is refused changes nothing. -/
theorem dirMake_refused (hsearch : searchCurDir s name = some x) (hfail : ¬ DirChecksPass s name) :
    ∃ p, DirRefused s name p ∧ dirMake s env name = some ⟨-1, [p], s⟩ := by
  unfold dirMake
  rw [hsearch, Option.bind_eq_bind, Option.bind_some]
  by_cases hx : x ≥ 0
  · rw [if_pos hx]
    exact ⟨_, .present hsearch hx, rfl⟩
  rw [if_neg hx]
  by_cases hfull : s.curDir.Full
  · rw [if_pos hfull]
    exact ⟨_, .full hsearch (by omega) hfull, rfl⟩
  rw [if_neg hfull]
  by_cases hnode : s.superBlock.freeInodeCount < 1
  · rw [if_pos hnode]
    exact ⟨_, .inodes hsearch (by omega) hfull hnode, rfl⟩
  rw [if_neg hnode]
  by_cases hspace : s.superBlock.freeBlockCount < 1
  · rw [if_pos hspace]
    exact ⟨_, .space hsearch (by omega) hfull (by omega) hspace, rfl⟩
  exact absurd ⟨⟨x, hsearch, by omega⟩, hfull, by omega, by omega⟩ hfail

/-- Behind the checks `dir_make` allocates an inode and a block, and adds the
entry. -/
theorem dirMake_passed (hc : s.Counts) (hpass : DirChecksPass s name) :
    ∃ i b, s.FirstFree i ∧ s.used b = false ∧ dirMake s env name =
      (s.curDir.addEntry name (i : Fin 512)).bind fun d => some
        ⟨0, [.name "Directory %s create success! 
" name.1],
          (directSlots i).set (((s.addInode i (s.dirNode env i) d).flipBlock b).diskWrite b
            (Dentry.codec.store 512 (subDir env.stack i (d.dentry 0).inode))) (place (s.inode i).directBlock [b])⟩ := by
  obtain ⟨x, hsearch, hx⟩ := hpass.absent
  have hblocks := hpass.blocks
  have hinodes := hpass.inodes
  obtain ⟨i, hfree, hget⟩ := getFreeInode_spec hc (by omega)
  obtain ⟨b, hb, hget'⟩ := getFreeBlock_spec (hc.flipInode i) (by simp only [FS.flipInode]; omega)
  refine ⟨i, b, hfree, hb, ?_⟩
  have hneg : ¬ ((i : Nat) : Int) < 0 := by omega
  have hneg' : ¬ ((b : Nat) : Int) = -1 := by omega
  have hread : ((s.flipInode i).flipBlock b).inode.read i = some (s.inode i) := Arr.read_fin _ i
  have hwrite : ∀ m, ((s.flipInode i).flipBlock b).inode.write i m = some (Function.update s.inode i m) :=
    fun m => Arr.write_fin _ i m
  have hplace : place (s.inode i).directBlock [b] = Function.update (s.inode i).directBlock 0 (b : Int) :=
    place_concat (s.inode i).directBlock [] b (by decide)
  unfold dirMake
  rw [hsearch, Option.bind_eq_bind, Option.bind_some, if_neg (by omega), if_neg hpass.room, if_neg (by omega),
    if_neg (by omega), hget]
  dsimp only
  rw [if_neg hneg, hget']
  dsimp only
  rw [if_neg hneg', hread, Option.bind_eq_bind, Option.bind_some, hwrite, Option.bind_eq_bind, Option.bind_some,
    hplace]
  refine congrArg (Option.bind _) (funext fun d => ?_)
  simp only [diskWrite_fin, diskWriteOut_fin, directSlots, FS.addInode, FS.flipBlock, Function.update_self,
    Function.update_idem]
  rfl

theorem dirMake_negative (hc : s.Counts) (hpass : DirChecksPass s name) (hnum : s.curDir.numEntry < 0) :
    dirMake s env name = none := by
  obtain ⟨i, b, -, -, hrun⟩ := dirMake_passed env hc hpass
  rw [hrun, addEntry_negative _ hnum, Option.bind_none]

/-- **`dir_make`**: behind its checks, it makes the directory. -/
theorem dirMake_run (hc : s.Counts) (hpass : DirChecksPass s name) (hnum : 0 ≤ s.curDir.numEntry) :
    ∃ i d b t, DirRun s env name i d b t ∧ dirMake s env name =
      some ⟨0, [.name "Directory %s create success! 
" name.1],
        (directSlots i).set t (place (s.inode i).directBlock [b])⟩ := by
  obtain ⟨i, b, hfree, hb, hrun⟩ := dirMake_passed env hc hpass
  have hroom := (room_of_not_full hpass.room).2
  obtain ⟨d, hadd, hentry⟩ := addEntry_spec hnum (by omega) name i
  have htaken := (Taken.nil (counts_addInode hc i (s.dirNode env i) d)).concat hb
    (Dentry.codec.store 512 (subDir env.stack i (d.dentry 0).inode))
  rw [List.nil_append] at htaken
  refine ⟨i, d, b, _, ⟨hfree, hentry, htaken, by rw [diskWrite_disk, if_pos rfl]⟩, ?_⟩
  rw [hrun, hadd, Option.bind_some]

/-- `dir_make` keeps the counters exact, and no allocation in it fails. -/
theorem dirMake_exact (hc : s.Counts) (h : dirMake s env name = some r) : r.fs.Counts ∧ NoFailure r.out := by
  cases hsearch : searchCurDir s name with
  | none => exact nomatch (dirMake_none env hsearch).symm.trans h
  | some x =>
      by_cases hpass : DirChecksPass s name
      · by_cases hnum : 0 ≤ s.curDir.numEntry
        · obtain ⟨i, d, b, t, hmade, hrun⟩ := dirMake_run env hc hpass hnum
          obtain rfl := Option.some.inj (h.symm.trans hrun)
          exact ⟨((directSlots i).counts_set t _).mpr hmade.taken.counts,
            noFailure_singleton (by simp [allocationFailures])⟩
        · exact nomatch (dirMake_negative env hc hpass (by omega)).symm.trans h
      · obtain ⟨p, hp, hrun⟩ := dirMake_refused env hsearch hpass
        obtain rfl := Option.some.inj (h.symm.trans hrun)
        exact ⟨hc, hp.noFailure⟩

end Make

/-! ## What the helpers leave -/

section Left

variable {s : FS} {name : Name} {size : Int} {env : Env} {tmp : Nat → Byte} {i : Fin 512} {d : Dentry}
  {bs : List (Fin 4096)} {t : FS}

/-- An inode that has been made, after the blocks for it have been taken. -/
theorem addInode_made {n : Inode} (h : Taken (s.addInode i n d) bs t) (hfree : s.live i = false) (p : Arr 10 Int) :
    ((directSlots i).set t p).inode i = { n with directBlock := p } ∧
      ((directSlots i).set t p).inDirectBMap = s.inDirectBMap ∧ ((directSlots i).set t p).live i = true := by
  have hnode : t.inode i = n := by
    rw [h.rest]
    exact Function.update_self _ _ _
  have hmap : t.inDirectBMap = s.inDirectBMap := by
    rw [h.rest]
    rfl
  have hlive : t.live i = (s.flipInode i).live i := by
    rw [h.rest]
    rfl
  rw [FS.live_flipInode, hfree] at hlive
  refine ⟨?_, hmap, hlive.trans (by simp)⟩
  simp only [directSlots, Function.update_self, hnode]

theorem SmallRun.made (h : SmallRun s env name size tmp i d bs t) :
    (s.smallFile t i bs).inode i =
        { s.smallNode env size i with directBlock := place (s.inode i).directBlock bs } ∧
      (s.smallFile t i bs).inDirectBMap = s.inDirectBMap ∧ (s.smallFile t i bs).live i = true :=
  addInode_made h.taken h.inode.free _

theorem SmallRun.node (h : SmallRun s env name size tmp i d bs t) :
    (s.smallFile t i bs).inode i =
      { s.smallNode env size i with directBlock := place (s.inode i).directBlock bs } :=
  h.made.1

theorem SmallRun.freeBlocks (h : SmallRun s env name size tmp i d bs t) :
    (s.smallFile t i bs).superBlock.freeBlockCount = s.superBlock.freeBlockCount - blocksFor size := by
  show t.superBlock.freeBlockCount = _
  rw [h.taken.free, h.length]
  rfl

/-- Both helpers together. -/
theorem LargeRun.made (small : SmallRun s env name 5119 tmp i d bs t)
    (grow : LargeRun (s.smallFile t i bs) (size - 5119) tmp b cs u) :
    (((s.smallFile t i bs).growFile u i (size - 5119) b cs).inode i).type = .file ∧
      (((s.smallFile t i bs).growFile u i (size - 5119) b cs).inode i).size = size ∧
      (((s.smallFile t i bs).growFile u i (size - 5119) b cs).inode i).blockCount = 10 + blocksFor (size - 5119) ∧
      ((s.smallFile t i bs).growFile u i (size - 5119) b cs).superBlock.freeBlockCount =
        s.superBlock.freeBlockCount - (10 + blocksFor (size - 5119) + 1) := by
  have hten : blocksFor 5119 = 10 := by decide
  have hnode : ((s.smallFile t i bs).growFile u i (size - 5119) b cs).inode i = _ := Function.update_self _ _ _
  have hflip : ((s.smallFile t i bs).flipBlock b).superBlock.freeBlockCount =
      (s.smallFile t i bs).superBlock.freeBlockCount - 1 := by
    simp only [FS.flipBlock, grow.fresh, Bool.false_eq_true, if_false]
    omega
  rw [hnode, small.node]
  refine ⟨rfl, ?_, rfl, ?_⟩
  · show 5119 + (size - 5119) = size
    omega
  · simp only [FS.growFile, diskWrite_superBlock]
    rw [grow.taken.free, hflip, grow.length, small.freeBlocks, hten]
    omega

theorem LargeRun.live (h : LargeRun s size tmp b cs t) (i : Fin 512) : (s.growFile t i size b cs).live i = s.live i := by
  have hgrow : (s.growFile t i size b cs).live i = t.live i := by
    rw [FS.growFile, diskWrite_fin]
    rfl
  rw [hgrow, h.taken.rest]
  rfl

/-- The map of a grown file is in memory and in its block. -/
theorem growFile_map (s t : FS) (i : Fin 512) (size : Int) (b : Fin 4096) (cs : List (Fin 4096)) :
    ((s.growFile t i size b cs).inode i).indirectBlock = b ∧
      (s.growFile t i size b cs).inDirectBMap = place s.inDirectBMap cs ∧
      (s.growFile t i size b cs).disk b = InDirectBlockMap.codec.store 512 (place s.inDirectBMap cs) := by
  simp [FS.growFile, Inode.grow, diskWrite_disk]

end Left

end OperatingSystem.Fs
