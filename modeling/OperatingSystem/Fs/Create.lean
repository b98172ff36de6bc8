import OperatingSystem.Fs.Make
import OperatingSystem.Fs.Preserve
import OperatingSystem.Fs.Write

/-!
# OperatingSystem.Fs.Create

What `file_create` and `dir_make` do in a state that satisfies the invariant:
they refuse and change nothing, or they create an inode with fresh blocks
(`CreateStep`) whose contents are the generated characters.
-/

namespace OperatingSystem.Fs

open Codec (Fits)

/-! ## A new entry -/

section New

variable {s t : FS} {L : Set (Fin 4096)} {i : Fin 512} {n : Inode} {d : Dentry} {bs : List (Fin 4096)}

theorem fits_small {x : Int} (h0 : 0 ≤ x) (h : x < 2147483648) : Fits x := ⟨by omega, h⟩

theorem fits_inode (i : Fin 512) : Fits i := fits_small (by omega) (by omega)

theorem inodeOk_place (hok : InodeOk n) (bs : List (Fin 4096)) :
    InodeOk { n with directBlock := place n.directBlock bs } := by
  refine ⟨hok.owner, hok.group, hok.size, hok.blockCount, fun k => ?_, hok.indirect⟩
  dsimp only [place]
  split
  · next b _ => exact ⟨b, rfl⟩
  · exact hok.direct k

/-- The directory of an inode whose first block is `b`. -/
theorem stored_place (t : FS) (i : Fin 512) (p : Arr 10 Int) (b : Fin 4096) :
    ((directSlots i).set t (place p [b])).stored i = Dentry.codec.load (t.disk b) := by
  unfold FS.stored FS.diskRead
  simp only [directSlots, Function.update_self]
  rw [place_get (k := 0) (b := b) rfl, Arr.read_fin, Option.getD_some]

/-- **Creating**: an inode and blocks taken from the free ones. -/
theorem createStep_of_taken (hinv : Inv L s) (hfree : s.live i = false) (htaken : Taken (s.addInode i n d) bs t)
    (hroom : s.curDir.numEntry < 24)
    (hnew : ∀ k : Fin 25, (k : Int) < s.curDir.numEntry → cstr (s.curDir.dentry k).name ≠ name.1)
    (hadd : AddStep s.curDir name i d) (hfits : Dentry.codec.Ok d) (hok : InodeOk n)
    (hfile : n.type = .file → FileOk n ∧ n.blockCount = bs.length ∧ bs.length ≤ 10)
    (hdir : n.type = .directory → ∃ b, bs = [b] ∧ DirOk (Dentry.codec.load (t.disk b)) i) :
    CreateStep s name i { n with directBlock := place n.directBlock bs } bs
      ((directSlots i).set t (place n.directBlock bs)) := by
  have hinodeMap : t.inodeMap = (s.flipInode i).inodeMap := by rw [htaken.rest]; rfl
  have hinode : t.inode = Function.update s.inode i n := by rw [htaken.rest]; rfl
  have hcurDir : t.curDir = d := by rw [htaken.rest]; rfl
  have hcurDirBlock : t.curDirBlock = s.curDirBlock := by rw [htaken.rest]; rfl
  have hmap : t.inDirectBMap = s.inDirectBMap := by rw [htaken.rest]; rfl
  refine ⟨hfree, fun j => ?_, htaken.nodup, htaken.fresh, htaken.used,
    ((directSlots i).counts_set t _).mpr htaken.counts, ?_, htaken.disk, ?_, hroom, hnew, ?_, ?_, hcurDirBlock,
    ?_, inodeOk_place hok bs, fun ht => ?_, fun ht => ?_⟩
  · have hlive : ((directSlots i).set t (place n.directBlock bs)).live j = (s.flipInode i).live j := by
      show Bitmap.getBit t.inodeMap j = _
      rw [hinodeMap]
      rfl
    rw [hlive, FS.live_flipInode, hfree]
    by_cases hji : j = i <;> simp [hji]
  · show Function.update t.inode i { t.inode i with directBlock := place n.directBlock bs } = _
    rw [hinode, Function.update_self, Function.update_idem]
  · cases ht : n.type with
    | file =>
        obtain ⟨-, hcount, hlen⟩ := hfile ht
        have hle : ¬ n.blockCount > 10 := by omega
        have hdirect := take_place n.directBlock bs hlen
        simp only [ownedBlocks, directBlocks, if_neg hle, List.append_nil]
        rw [show n.blockCount.toNat = bs.length by omega]
        exact hdirect
    | directory =>
        obtain ⟨b, rfl, -⟩ := hdir ht
        simp only [ownedBlocks, List.map_cons, List.map_nil]
        rw [place_get (k := 0) (b := b) rfl]
  · rw [← hcurDir] at hadd
    exact hadd
  · rw [← hcurDir] at hfits
    exact hfits
  · have hfit := hinv.mapFits
    rw [← hmap] at hfit
    exact hfit
  · obtain ⟨hf, -, -⟩ := hfile ht
    exact ⟨hf.size_nonneg, hf.count_nonneg, hf.count_le, hf.size_le, hf.large⟩
  · obtain ⟨b, rfl, hd⟩ := hdir ht
    rw [stored_place]
    exact hd

end New

/-! ## file_create -/

/-- The checks of `file_create_small_helper`. -/
structure SmallPasses (s : FS) (name : Name) (size : Int) : Prop where
  absent : searchCurDir s name = some (-1)
  room : ¬ s.curDir.Full
  blocks : blocksFor size ≤ s.superBlock.freeBlockCount
  inodes : 1 ≤ s.superBlock.freeInodeCount

section File

variable {s : FS} {L : Set (Fin 4096)}

/-- The file `file_create_small_helper` makes: the entry, the inode `i` and the
blocks `bs` that hold the buffer. -/
structure SmallFile (s : FS) (name : Name) (size : Int) (tmp : Nat → Byte) (i : Fin 512) (n : Inode)
    (bs : List (Fin 4096)) (s' : FS) : Prop where
  step : CreateStep s name i n bs s'
  first : ∀ j < i, s.live j = true
  type : n.type = .file
  owner : n.owner = 1
  group : n.group = 2
  sized : n.size = size
  blockCount : n.blockCount = bs.length
  blocks : (bs.length : Int) = blocksFor size
  data : ∀ k b, bs[k]? = some b → s'.disk b = chunk tmp k
  free : s'.superBlock.freeBlockCount = s.superBlock.freeBlockCount - bs.length

theorem fill_ok (hok : InodeOk n) (env : Env) (type : TYPE) (hsize : Fits size) (hcount : Fits count) :
    InodeOk (n.fill env type size count) :=
  ⟨show Fits 1 by decide, show Fits 2 by decide, hsize, hcount, hok.direct, hok.indirect⟩

/-- Where the name is absent and the numbers are right, the helper's checks pass. -/
theorem SmallPasses.checks (h : SmallPasses s name size) : ChecksPass s name size :=
  ⟨⟨-1, h.absent, by decide⟩, h.room, h.blocks, h.inodes⟩

/-- A name found with a negative number stands nowhere in a well-formed
directory. -/
theorem absent_of_negative (hd : Table s.curDir) (h : ∃ x, searchCurDir s name = some x ∧ x < 0) :
    searchCurDir s name = some (-1) ∧
      ∀ k : Fin 25, (k : Int) < s.curDir.numEntry → cstr (s.curDir.dentry k).name ≠ name.1 := by
  obtain ⟨x, hx, hneg⟩ := h
  rcases searchCurDir_cases hd name with ⟨-, -, -, j, -, hsearch⟩ | ⟨hnew, hsearch⟩
  · rw [hx, Option.some.injEq] at hsearch
    omega
  · exact ⟨hsearch, hnew⟩

theorem SmallRun.smallFile (hinv : Inv L s) (hpass : ChecksPass s name size)
    (h : SmallRun s env name size tmp i d bs t) (h0 : 0 ≤ size) (hsize : size < 5120) :
    SmallFile s name size tmp i { s.smallNode env size i with directBlock := place (s.inode i).directBlock bs } bs
      ((directSlots i).set t (place (s.inode i).directBlock bs)) := by
  obtain ⟨c, hcur, hclive, hctype⟩ := hinv.current
  have hd := hinv.curDir hcur hclive hctype
  have hcount := blocksFor_of_nonneg h0
  have hlen := h.length
  have hok : InodeOk (s.smallNode env size i) :=
    fill_ok (hinv.inodes i) env .file (fits_small h0 (by omega)) (fits_small (by omega) (by omega))
  have hfile : FileOk (s.smallNode env size i) := by
    refine ⟨?_, ?_, ?_, ?_, ?_⟩ <;> simp only [FS.smallNode, Inode.fill] <;> omega
  have hcreate := createStep_of_taken hinv h.inode.free h.taken (room_of_not_full hpass.room).2
    (absent_of_negative hd.toTable hpass.absent).2 h.entry (h.entry.fits hd hinv.curFits) hok
    (fun _ => ⟨hfile, hlen.symm, by omega⟩) (fun ht => nomatch ht)
  refine ⟨hcreate, h.inode.first, rfl, rfl, rfl, rfl, hlen.symm, hlen, h.data, ?_⟩
  show t.superBlock.freeBlockCount = _
  rw [h.taken.free]
  rfl

/-- **The small helper**: the checks pass and a file is made, or nothing
changes. -/
theorem fileCreateSmallHelper_cases (hinv : Inv L s) (env : Env) (name : Name) (h0 : 0 ≤ size)
    (hsize : size < 5120) (tmp : Nat → Byte) :
    (¬ SmallPasses s name size ∧
      ∃ out, fileCreateSmallHelper s env name size tmp = some ⟨-1, out, s⟩) ∨
    (SmallPasses s name size ∧ ∃ i n bs s', SmallFile s name size tmp i n bs s' ∧
      fileCreateSmallHelper s env name size tmp = some ⟨(i : Fin 512), [], s'⟩) := by
  obtain ⟨c, hcur, hclive, hctype⟩ := hinv.current
  have hd := hinv.curDir hcur hclive hctype
  have hpos := hd.pos
  by_cases hpass : ChecksPass s name size
  · obtain ⟨i, d, bs, t, hsmall, hrun⟩ := fileCreateSmallHelper_run env hinv.counts hpass h0 hsize (by omega) tmp
    exact Or.inr ⟨⟨(absent_of_negative hd.toTable hpass.absent).1, hpass.room, hpass.blocks, hpass.inodes⟩, i, _, bs, _,
      hsmall.smallFile hinv hpass h0 hsize, hrun⟩
  · obtain ⟨x, hsearch⟩ := searchCurDir_some hd.toTable name
    obtain ⟨p, -, hrun⟩ := fileCreateSmallHelper_refused env hsearch hpass tmp
    exact Or.inl ⟨fun hp => hpass hp.checks, [p], hrun⟩

/-- A created file takes more blocks. -/
theorem CreateStep.extend (h : CreateStep s name i n bs s₁) (htaken : Taken s₁ cs t) (hn' : InodeOk n')
    (hfile : FileOk n') (htype : n'.type = .file) {map : InDirectBlockMap} (hmap : InDirectBlockMap.codec.Ok map)
    (howned : ownedBlocks t n' = (bs ++ cs).map fun b : Fin 4096 => ((b : Nat) : Int)) :
    CreateStep s name i n' (bs ++ cs)
      { t with inode := Function.update t.inode i n', inDirectBMap := map } := by
  have hinodeMap : t.inodeMap = s₁.inodeMap := by rw [htaken.rest]
  have hinode : t.inode = s₁.inode := by rw [htaken.rest]
  have hcurDir : t.curDir = s₁.curDir := by rw [htaken.rest]
  have hcurDirBlock : t.curDirBlock = s₁.curDirBlock := by rw [htaken.rest]
  have hapart : ∀ c ∈ cs, c ∉ bs ∧ s.used c = false := fun c hc => by
    have hfresh := htaken.fresh c hc
    rw [← Bool.not_eq_true, h.used, not_or, Bool.not_eq_true] at hfresh
    exact hfresh
  refine ⟨h.free, fun j => ?_, List.nodup_append.mpr ⟨h.nodup, htaken.nodup, fun b hb c hc => ?_⟩,
    fun b hb => ?_, fun b => ?_, ⟨htaken.counts.inodes, htaken.counts.blocks⟩, ?_, fun b hb => ?_, howned,
    h.room, h.new, ?_, ?_, hcurDirBlock.trans h.curDirBlock, hmap, hn', fun _ => hfile,
    fun ht => nomatch htype.symm.trans ht⟩
  · rw [← h.live]
    show Bitmap.getBit t.inodeMap j = true ↔ _
    rw [hinodeMap]
    rfl
  · rintro rfl
    exact (hapart b hc).1 hb
  · rcases List.mem_append.mp hb with hb | hb
    · exact h.fresh b hb
    · exact (hapart b hb).2
  · show t.used b = true ↔ _
    rw [htaken.used, h.used, List.mem_append]
    tauto
  · show Function.update t.inode i n' = _
    rw [hinode, h.inode, Function.update_idem]
  · rw [List.mem_append, not_or] at hb
    exact (htaken.disk b hb.2).trans (h.disk b hb.1)
  · have hadd := h.curDir
    rw [← hcurDir] at hadd
    exact hadd
  · have hfits := h.curFits
    rw [← hcurDir] at hfits
    exact hfits

/-- The blocks that both helpers take, with the one for the map. -/
def createBlocks (size : Int) : Int := if size < 5120 then blocksFor size else 10 + blocksFor (size - 5119) + 1

/-- Those of them that hold the characters. -/
def dataCount (size : Int) : Int := if size < 5120 then blocksFor size else 10 + blocksFor (size - 5119)

/-- The file of `size` characters that `file_create` makes. -/
structure NewFile (s : FS) (name : Name) (size : Int) (tmp : Nat → Byte) (i : Fin 512) (n : Inode) (s' : FS) :
    Prop where
  step : ∃ bs, CreateStep s name i n bs s'
  first : ∀ j < i, s.live j = true
  type : n.type = .file
  owner : n.owner = 1
  group : n.group = 2
  sized : n.size = size
  blockCount : n.blockCount = dataCount size
  free : s'.superBlock.freeBlockCount = s.superBlock.freeBlockCount - createBlocks size
  data : ∀ k (b : Fin 4096), (dataBlocks s' n)[k]? = some (b : Int) → s'.disk b = chunk tmp k

/-- The direct blocks of a file that was just made. -/
theorem SmallFile.directBlocks_eq (h : SmallFile s name size tmp i n bs s') (hle : bs.length ≤ 10) :
    directBlocks n = bs.map fun b : Fin 4096 => ((b : Nat) : Int) := by
  have howned := h.step.owned
  have hcount := h.blockCount
  have hc : ¬ n.blockCount > 10 := by omega
  simpa only [ownedBlocks, h.type, if_neg hc, List.append_nil] using howned

/-- A small file has ten blocks at most. -/
theorem SmallFile.length_le (h : SmallFile s name size tmp i n bs s') (hsize : size < 5120) : bs.length ≤ 10 := by
  have h0 := (h.step.fileOk h.type).size_nonneg
  have hblocks := h.blocks
  rw [h.sized] at h0
  rw [blocksFor_of_nonneg h0] at hblocks
  omega

theorem SmallFile.newFile (h : SmallFile s name size tmp i n bs s') (hsize : size < 5120) :
    NewFile s name size tmp i n s' := by
  have hle := h.length_le hsize
  have hcount := h.blockCount
  refine ⟨⟨bs, h.step⟩, h.first, h.type, h.owner, h.group, h.sized, ?_, ?_, fun k b hk => h.data k b ?_⟩
  · rw [hcount, h.blocks, dataCount, if_pos hsize]
  · rw [h.free, h.blocks, createBlocks, if_pos hsize]
  · have hzero : (n.blockCount - 10).toNat = 0 := by omega
    have hmapped : mappedBlocks s' n = [] := by simp [mappedBlocks, hzero]
    rw [dataBlocks, hmapped, List.append_nil, h.directBlocks_eq hle, List.getElem?_map, Option.map_eq_some_iff] at hk
    obtain ⟨c, hc, hcb⟩ := hk
    rw [hc, show c = b from Fin.ext (by omega)]

/-- The map of a file, stored in its block and read back. -/
theorem mapOf_store {n : Inode} {b : Fin 4096} {map : InDirectBlockMap} (hb : n.indirectBlock = (b : Int))
    (hdisk : s.disk b = InDirectBlockMap.codec.store 512 map) (hmap : InDirectBlockMap.codec.Ok map) :
    mapOf s n = map := by
  rw [mapOf, hb, diskRead_fin, hdisk]
  exact Codec.load_store _ (show 128 * 4 ≤ 512 by decide) hmap

theorem mapOk_place {p : InDirectBlockMap} (hp : InDirectBlockMap.codec.Ok p) (bs : List (Fin 4096)) :
    InDirectBlockMap.codec.Ok (place p bs) := fun k => by
  dsimp only [place]
  split
  · exact fits_small (by omega) (by omega)
  · exact hp k

/-- The large file: the map's block `b` and the blocks `cs` it lists join the ten
direct ones. -/
theorem SmallFile.grow (h : SmallFile s name 5119 tmp i n bs s₁) (hsize : 5120 ≤ size) (hmax : size < 70656)
    (hb : s₁.used b = false) (htaken : Taken (s₁.flipBlock b) cs t)
    (hlen : (cs.length : Int) = blocksFor (size - 5119))
    (hdata : ∀ k c, cs[k]? = some c → t.disk c = chunk tmp (k + 10))
    {buf : Block} (hbuf : buf = InDirectBlockMap.codec.store 512 (place s₁.inDirectBMap cs)) :
    NewFile s name size tmp i (n.grow (size - 5119) (blocksFor (size - 5119)) b)
      { t.diskWrite b buf with
        inode := Function.update t.inode i (n.grow (size - 5119) (blocksFor (size - 5119)) b)
        inDirectBMap := place s₁.inDirectBMap cs } := by
  have hblocks := h.blocks
  have hcount := h.blockCount
  rw [blocksFor_of_nonneg (by decide)] at hblocks
  have hnum : blocksFor (size - 5119) = (size - 4608) / 512 := by
    rw [blocksFor_of_nonneg (by omega)]
    omega
  have hmap := mapOk_place h.step.mapFits cs
  obtain ⟨n', hn'⟩ : ∃ n', n.grow (size - 5119) (blocksFor (size - 5119)) b = n' := ⟨_, rfl⟩
  have htype : n'.type = .file := by rw [← hn']; exact h.type
  have hsized : n'.size = size := by
    rw [← hn']
    show n.size + (size - 5119) = size
    rw [h.sized]
    omega
  have hcount' : n'.blockCount = 10 + cs.length := by
    rw [← hn', Inode.grow]
    dsimp only
    omega
  have hind : n'.indirectBlock = b := by rw [← hn']; rfl
  have hok : InodeOk n' := by
    have hold := h.step.inodeOk
    rw [← hn'] at hsized hcount' ⊢
    exact ⟨hold.owner, hold.group, fits_small (by omega) (by omega), fits_small (by omega) (by omega),
      hold.direct, ⟨b, rfl⟩⟩
  have hdirect : directBlocks n' = bs.map fun b : Fin 4096 => ((b : Nat) : Int) := by
    rw [← h.directBlocks_eq (by omega)]
    unfold directBlocks
    rw [List.take_of_length_le (by simp; omega), List.take_of_length_le (by simp; omega), ← hn']
    rfl
  have hmapped : ∀ u : FS, u.disk b = InDirectBlockMap.codec.store 512 (place s₁.inDirectBMap cs) →
      mappedBlocks u n' = cs.map fun b : Fin 4096 => ((b : Nat) : Int) := fun u hu => by
    rw [mappedBlocks, mapOf_store hind hu hmap, show (n'.blockCount - 10).toNat = cs.length by omega]
    exact take_place _ cs (by omega)
  have htaken' := htaken.cons hb buf
  have hstore : (t.diskWrite b buf).disk b = buf := by rw [diskWrite_disk, if_pos rfl]
  rw [hn']
  have howned : ownedBlocks (t.diskWrite b buf) n' =
      (bs ++ b :: cs).map fun b : Fin 4096 => ((b : Nat) : Int) := by
    have hgt : n'.blockCount > 10 := by omega
    simp only [ownedBlocks, htype, if_pos hgt, hind, hdirect, hmapped _ (hstore.trans hbuf), List.map_append,
      List.map_cons]
  have hstep := h.step.extend htaken' hok ⟨by omega, by omega, by omega, by omega, by omega⟩ htype hmap howned
  rw [diskWrite_inode] at hstep
  refine ⟨⟨_, hstep⟩, h.first, htype, by rw [← hn']; exact h.owner, by rw [← hn']; exact h.group, hsized, ?_, ?_,
    fun k c hk => ?_⟩
  · rw [hcount', hlen, dataCount, if_neg (by omega)]
  · have hflip : (s₁.flipBlock b).superBlock.freeBlockCount = s₁.superBlock.freeBlockCount - 1 := by
      simp only [FS.flipBlock, hb, Bool.false_eq_true, if_false]
      omega
    rw [diskWrite_superBlock, htaken.free, hflip, hlen, h.free, hblocks, createBlocks, if_neg (by omega)]
    omega
  have hne : ∀ d, d ∈ bs ++ cs → d ≠ b := fun d hd => by
    have hnodup := hstep.nodup
    rw [List.nodup_append] at hnodup
    obtain ⟨-, hcs, hcross⟩ := hnodup
    rcases List.mem_append.mp hd with hd | hd
    · exact hcross d hd b List.mem_cons_self
    · rintro rfl
      exact (List.nodup_cons.mp hcs).1 hd
  rw [dataBlocks, hdirect, hmapped, ← List.map_append, List.getElem?_map, Option.map_eq_some_iff] at hk
  swap
  · dsimp only
    exact hstore.trans hbuf
  obtain ⟨c', hc, hcc⟩ := hk
  obtain rfl : c' = c := Fin.ext (by omega)
  dsimp only
  have hbc : ¬ ((b : Nat) : Int) = (c' : Nat) := fun heq =>
    hne c' (List.mem_of_getElem? hc) (Fin.ext (by omega))
  rw [diskWrite_disk, if_neg hbc]
  by_cases hk10 : k < bs.length
  · rw [List.getElem?_append_left hk10] at hc
    rw [← h.data k c' hc]
    refine htaken.disk c' fun hmem => ?_
    have hnodup := hstep.nodup
    rw [List.nodup_append] at hnodup
    exact hnodup.2.2 c' (List.mem_of_getElem? hc) c' (List.mem_cons_of_mem b hmem) rfl
  · rw [List.getElem?_append_right (by omega)] at hc
    rw [hdata _ _ hc, show k - bs.length + 10 = k by omega]

theorem LargeRun.newFile (h : LargeRun s₁ (size - 5119) tmp b cs t) (small : SmallFile s name 5119 tmp i n bs s₁)
    (hsize : 5120 ≤ size) (hmax : size < 70656) :
    NewFile s name size tmp i (n.grow (size - 5119) (blocksFor (size - 5119)) b) (s₁.growFile t i (size - 5119) b cs) := by
  have hnode : s₁.inode i = n := by rw [small.step.inode, Function.update_self]
  rw [FS.growFile, hnode]
  exact small.grow hsize hmax h.fresh h.taken h.length h.data rfl

/-- **The large helper**: its check passes and the file is completed, or nothing
changes. -/
theorem fileCreateLargeHelper_cases (h : SmallFile s name 5119 tmp i n bs s₁) (hsize : 5120 ≤ size)
    (hmax : size < 70656) :
    (¬ LargePasses s₁ (size - 5119) ∧
      ∃ out, fileCreateLargeHelper s₁ i (size - 5119) tmp = some ⟨-1, out, s₁⟩) ∨
    (LargePasses s₁ (size - 5119) ∧ ∃ n' out s', NewFile s name size tmp i n' s' ∧
      fileCreateLargeHelper s₁ i (size - 5119) tmp = some ⟨0, out, s'⟩) := by
  by_cases hpass : LargePasses s₁ (size - 5119)
  · obtain ⟨b, cs, t, hlarge, hrun⟩ := fileCreateLargeHelper_run h.step.counts hpass (by omega) (by omega) i tmp
    exact Or.inr ⟨hpass, _, [], _, hlarge.newFile h hsize hmax, hrun⟩
  · exact Or.inl ⟨hpass, _, fileCreateLargeHelper_refused hpass i tmp⟩

/-- All the checks of `file_create`; that of the large helper is made after the
small one has run. -/
structure Passes (s : FS) (env : Env) (name : Name) (size : Int) : Prop where
  fits : size < 70656
  small : SmallPasses s name (min size 5119)
  large : 5120 ≤ size → ∀ r, fileCreateSmallHelper s env name 5119 (createBuffer env size) = some r →
    LargePasses r.fs (size - 5119)

/-- **What `file_create` does**: if all checks pass it makes the file; else
nothing, or, when there is no space behind the direct blocks, a file of 5119
characters. -/
theorem fileCreate_cases (hinv : Inv L s) (env : Env) (name : Name) (h0 : 0 ≤ size) :
    ∃ r, fileCreate s env name size = some r ∧
      ((¬ Passes s env name size ∧
        (r.fs = s ∨ ∃ i n, NewFile s name 5119 (createBuffer env size) i n r.fs)) ∨
      (Passes s env name size ∧ ∃ i n, NewFile s name size (createBuffer env size) i n r.fs)) := by
  unfold fileCreate
  by_cases hmax : size ≥ 70656
  · rw [if_pos hmax]
    exact ⟨_, rfl, Or.inl ⟨fun hp => by have := hp.fits; omega, Or.inl rfl⟩⟩
  rw [if_neg hmax, if_neg (show ¬ size < 0 by omega)]
  dsimp only
  by_cases hlarge : size ≥ 5120
  · rw [if_pos hlarge, show (5120 - 1 : Int) = 5119 from rfl]
    rcases fileCreateSmallHelper_cases hinv env name (show (0 : Int) ≤ 5119 by decide) (by decide)
      (createBuffer env size) with ⟨hfail, out, hrun⟩ | ⟨hpass, i, n, bs, s₁, hsmall, hrun⟩
    · rw [hrun, Option.bind_eq_bind, Option.bind_some, if_pos (show (-1 : Int) < 0 by decide)]
      refine ⟨_, rfl, Or.inl ⟨fun hp => hfail ?_, Or.inl rfl⟩⟩
      rw [← show min size 5119 = 5119 by omega]
      exact hp.small
    · have hneg : ¬ ((i : Nat) : Int) < 0 := by omega
      have hall : LargePasses s₁ (size - 5119) ↔ Passes s env name size := by
        constructor
        · intro hl
          refine ⟨by omega, by rw [show min size 5119 = 5119 by omega]; exact hpass, fun _ r hr => ?_⟩
          rw [hrun, Option.some.injEq] at hr
          rw [← hr]
          exact hl
        · exact fun hp => hp.large (by omega) _ hrun
      rw [hrun, Option.bind_eq_bind, Option.bind_some]
      dsimp only
      rw [if_neg hneg]
      rcases fileCreateLargeHelper_cases hsmall hlarge (by omega) with
        ⟨hfail, out, hrun'⟩ | ⟨hl, n', out, s', hfile, hrun'⟩
      · rw [hrun', Option.bind_some]
        exact ⟨_, rfl, Or.inl ⟨fun hp => hfail (hall.mpr hp), Or.inr ⟨i, n, hsmall.newFile (by decide)⟩⟩⟩
      · rw [hrun', Option.bind_some]
        exact ⟨_, rfl, Or.inr ⟨hall.mp hl, i, n', hfile⟩⟩
  · rw [if_neg hlarge]
    have hmin : min size 5119 = size := by omega
    rcases fileCreateSmallHelper_cases hinv env name h0 (by omega) (createBuffer env size) with
      ⟨hfail, out, hrun⟩ | ⟨hpass, i, n, bs, s₁, hsmall, hrun⟩
    · rw [hrun, Option.bind_eq_bind, Option.bind_some]
      exact ⟨_, rfl, Or.inl ⟨fun hp => hfail (hmin ▸ hp.small), Or.inl rfl⟩⟩
    · rw [hrun, Option.bind_eq_bind, Option.bind_some]
      exact ⟨_, rfl, Or.inr ⟨⟨by omega, by rw [hmin]; exact hpass, fun h => by omega⟩, i, n,
        hsmall.newFile (by omega)⟩⟩

end File

/-! ## dir_make -/

section Dir

variable {s : FS} {L : Set (Fin 4096)}

theorem subDir_fits (stack : Block) (i p : Fin 512) : Dentry.codec.Ok (subDir stack i p) := by
  have hload := (Dentry.ok_iff _).mp (Codec.load_ok Dentry.codec stack)
  rw [Dentry.ok_iff]
  refine ⟨show Fits 2 by decide, fun k => ?_⟩
  dsimp only [subDir]
  by_cases h1 : k = 1
  · rw [h1, Function.update_self]
    exact fits_inode p
  · rw [Function.update_of_ne h1]
    by_cases h0 : k = 0
    · rw [h0, Function.update_self]
      exact fits_inode i
    · rw [Function.update_of_ne h0]
      exact hload.2 k

theorem subDir_zero (stack : Block) (i p : Int) :
    cstr ((subDir stack i p).dentry 0).name = dot.1 ∧ ((subDir stack i p).dentry 0).inode = i := by
  dsimp only [subDir]
  rw [Function.update_of_ne (show (0 : Fin 25) ≠ 1 by decide), Function.update_self]
  exact ⟨cstr_strcpy _ dot, rfl⟩

theorem subDir_one (stack : Block) (i p : Int) :
    cstr ((subDir stack i p).dentry 1).name = dotdot.1 ∧ ((subDir stack i p).dentry 1).inode = p := by
  dsimp only [subDir]
  rw [Function.update_self]
  exact ⟨cstr_strcpy _ dotdot, rfl⟩

theorem entries_subDir (stack : Block) (i p : Int) :
    entries (subDir stack i p) = [(dot.1, i), (dotdot.1, p)] := by
  obtain ⟨hname0, hinode0⟩ := subDir_zero stack i p
  obtain ⟨hname1, hinode1⟩ := subDir_one stack i p
  have htake : (List.finRange 25).take 2 = [0, 1] := by decide
  rw [entries, show (subDir stack i p).numEntry.toNat = 2 from rfl, htake, List.map_cons, List.map_singleton,
    hname0, hinode0, hname1, hinode1]

/-- A new directory is well formed. -/
theorem subDir_dirOk (stack : Block) (i p : Fin 512) : DirOk (subDir stack i p) i := by
  obtain ⟨hname0, hinode0⟩ := subDir_zero stack i p
  obtain ⟨hname1, hinode1⟩ := subDir_one stack i p
  have htwo : (subDir stack i p).numEntry = 2 := rfl
  have hne : dot.1 ≠ dotdot.1 := by decide
  have hcase : ∀ k : Fin 25, (k : Int) < 2 → k = 0 ∨ k = 1 := fun k hk => by
    rcases (show (k : Nat) = 0 ∨ (k : Nat) = 1 by omega) with h | h
    · exact Or.inl (Fin.ext h)
    · exact Or.inr (Fin.ext h)
  refine ⟨⟨by omega, fun k hk => ?_, fun k l hk hl hname => ?_⟩, by omega, hinode0⟩
  · rcases hcase k (by omega) with rfl | rfl
    · exact ⟨i, hinode0⟩
    · exact ⟨p, hinode1⟩
  · rcases hcase k (by omega) with rfl | rfl <;> rcases hcase l (by omega) with rfl | rfl
    · rfl
    · exact absurd (hname0.symm.trans (hname.trans hname1)) hne
    · exact absurd (hname0.symm.trans (hname.symm.trans hname1)) hne
    · rfl

/-- **What `dir_make` does**: nothing, or it creates a directory of two entries. -/
theorem dirMake_cases (hinv : Inv L s) (env : Env) (name : Name) (hcur : s.Current c) :
    ∃ r, dirMake s env name = some r ∧ ((r.value = -1 ∧ r.fs = s) ∨
      (r.value = 0 ∧ ∃ i n b, CreateStep s name i n [b] r.fs ∧ n.type = .directory ∧
        r.fs.stored i = subDir env.stack i c)) := by
  obtain ⟨c', hcur', hclive, hctype⟩ := hinv.current
  obtain rfl := hcur.unique hcur'
  have hd := hinv.curDir hcur hclive hctype
  have hpos := hd.pos
  by_cases hpass : DirChecksPass s name
  · obtain ⟨i, d, b, t, hmade, hrun⟩ := dirMake_run env hinv.counts hpass (by omega)
    have hok : InodeOk (s.dirNode env i) := fill_ok (hinv.inodes i) env .directory (by decide) (by decide)
    have hfirst : (d.dentry 0).inode = c := by
      have h0 : ((0 : Fin 25) : Int) ≠ s.curDir.numEntry := by simp; omega
      rw [hmade.entry.other 0 h0]
      exact hcur
    have hload : Dentry.codec.load (t.disk b) = subDir env.stack i c := by
      rw [hmade.disk, hfirst]
      exact Codec.load_store _ (show 4 + (25 * (16 + 4) + 8) ≤ 512 by decide) (subDir_fits _ i c)
    have hcreate := createStep_of_taken hinv hmade.inode.free hmade.taken (room_of_not_full hpass.room).2
      (absent_of_negative hd.toTable hpass.absent).2 hmade.entry (hmade.entry.fits hd hinv.curFits) hok
      (fun ht => nomatch ht) (fun _ => ⟨b, rfl, by rw [hload]; exact subDir_dirOk _ i c⟩)
    exact ⟨_, hrun, Or.inr ⟨rfl, i, _, b, hcreate, rfl, by rw [← hload]; exact stored_place _ _ _ _⟩⟩
  · obtain ⟨x, hsearch⟩ := searchCurDir_some hd.toTable name
    obtain ⟨p, -, hrun⟩ := dirMake_refused env hsearch hpass
    exact ⟨_, hrun, Or.inl ⟨rfl, rfl⟩⟩

end Dir

end OperatingSystem.Fs
