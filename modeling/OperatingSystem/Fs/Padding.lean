import OperatingSystem.Fs.Atomic
import OperatingSystem.Fs.Contents

/-!
# OperatingSystem.Fs.Padding

What `file_create` puts behind the text of a new file.  Whole blocks are written
from the buffer `tmp`, of which `size + 1` bytes have been set, the last to zero:
byte `p` of the file is byte `p` of `tmp`, up to the end of the last block
(`fileByte_create`).  The blocks end within the part that has been set only if the
last block is full or has room for the null and nothing else, and at a multiple of
the block size only below `SMALL_FILE`, where no block is taken for the null
(`storesText_iff`).  All other files hold uninitialised memory.
-/

namespace OperatingSystem.Fs

/-! ## The buffer -/

/-- The bytes of `tmp` that `malloc` reserves. -/
def allocated (size : Int) : Int := 4 * size + 1

/-- The bytes of `tmp` that `memset` and `rand_string` set. -/
def initialised (size : Int) : Int := size + 1

/-- A byte of the file at position `p` is the byte of `tmp` there, which is inside
the buffer and has been set: to a generated character below `size`, to zero at
`size`. -/
def FromText (env : Env) (size : Int) (p : Nat) (byte : Option Byte) : Prop :=
  byte = some (createBuffer env size p) ∧ p < allocated size ∧ p < initialised size ∧
    createBuffer env size p = if p < size then charset (env.rand p % 62) else 0

/-- A file has been made, and every byte of its data blocks is from the text. -/
def StoresText (s : FS) (env : Env) (name : Name) (size : Int) (result : Option Ret) : Prop :=
  ∃ r i, result = some r ∧ NewEntry s r.fs name i ∧ ∀ p : Nat, p < 512 * (r.fs.inode i).blockCount →
    FromText env size p (fileByte r.fs (r.fs.inode i) p)

theorem createBuffer_heap (env : Env) {size : Int} {p : Nat} (h1 : 1 ≤ size) (hp : size < p) : createBuffer env size p = env.heap p := by
  have hset : ¬ ((p : Int) < size + 1) := by omega
  rw [createBuffer, randString, if_neg (by omega), if_neg (by omega), if_neg (by omega), if_neg hset]

/-- A position in the part that has been set. -/
theorem createBuffer_text (env : Env) {size : Int} {p : Nat} (h0 : 0 ≤ size) (hp : p < initialised size) :
    createBuffer env size p = if p < size then charset (env.rand p % 62) else 0 := by
  unfold initialised at hp
  by_cases hlt : (p : Int) < size
  · rw [if_pos hlt, createBuffer_lt env hlt]
  · obtain rfl : p = size.toNat := by omega
    rw [if_neg hlt, createBuffer_end env h0]

/-! ## The blocks of the file -/

section Blocks

variable {s t : FS} {env : Env} {name : Name} {size : Int} {tmp : Nat → Byte} {i : Fin 512} {d : Dentry}
  {b : Fin 4096} {bs cs : List (Fin 4096)}

theorem fileByte_of_block {n : Inode} {p : Nat} (hb : (dataBlocks s n)[p / 512]? = some (b : Int))
    (hdisk : s.disk b = chunk tmp (p / 512)) : fileByte s n p = some (tmp p) := by
  have hpos : p / 512 * 512 + p % 512 = p := by omega
  rw [fileByte, hb, Option.bind_eq_bind, Option.bind_some, Arr.read_fin, Option.bind_eq_bind, Option.bind_some, hdisk,
    Option.pure_def, chunk, hpos]

theorem place_getElem {p : Arr m Int} {k : Nat} (hk : k < bs.length) (hm : k < m) : place p bs ⟨k, hm⟩ = bs[k] :=
  place_get (List.getElem?_eq_getElem hk)

/-- The small helper stores the buffer. -/
theorem SmallRun.fileByte (h : SmallRun s env name size tmp i d bs t) (hle : size ≤ 5119) (h0 : 0 ≤ size) {p : Nat}
    (hp : p < 512 * blocksFor size) :
    Fs.fileByte (s.smallFile t i bs) ((s.smallFile t i bs).inode i) p = some (tmp p) := by
  have hlen := h.length
  have hcount : ((s.smallFile t i bs).inode i).blockCount = blocksFor size := by
    rw [h.node]
    rfl
  have hten : blocksFor size ≤ 10 := by
    rw [blocksFor_of_nonneg h0]
    omega
  have hk : p / 512 < bs.length := by omega
  refine fileByte_of_block (b := bs[p / 512]) ?_ (h.data _ _ (List.getElem?_eq_getElem hk))
  rw [dataBlocks_direct _ _ (by omega) (by omega), h.node]
  exact congrArg some (place_getElem hk (by omega))

/-- An entry of a map that was stored is read back. -/
theorem mapOf_entry {n : Inode} {map : InDirectBlockMap} (hb : n.indirectBlock = (b : Int))
    (hdisk : s.disk b = InDirectBlockMap.codec.store 512 map) {k : Fin 128} {c : Fin 4096} (hk : map k = (c : Int)) :
    mapOf s n k = (c : Int) := by
  have hfits : Codec.Fits (map k) := by
    rw [hk]
    exact fits_small (by omega) (by omega)
  rw [mapOf, hb, diskRead_fin, hdisk, ← hk]
  exact Codec.load_store_array Codec.int32 (by decide) hfits

/-- The blocks of both helpers are different ones, and no one is the map's. -/
theorem LargeRun.apart (small : SmallRun s env name 5119 tmp i d bs t)
    (grow : LargeRun (s.smallFile t i bs) size tmp b cs u) :
    (∀ c ∈ bs, c ≠ b ∧ c ∉ cs) ∧ ∀ c ∈ cs, c ≠ b := by
  have hused : ∀ c, (s.smallFile t i bs).used c = t.used c := fun _ => rfl
  have hfresh : ∀ c ∈ cs, c ≠ b ∧ t.used c = false := fun c hc => by
    have h := grow.taken.fresh c hc
    rw [FS.used_flipBlock, grow.fresh, hused] at h
    by_cases hcb : c = b
    · simp [hcb] at h
    · rw [if_neg hcb] at h
      exact ⟨hcb, h⟩
  have htaken : ∀ c ∈ bs, t.used c = true := fun c hc => (small.taken.used c).mpr (.inl hc)
  refine ⟨fun c hc => ⟨?_, fun hcs => ?_⟩, fun c hc => (hfresh c hc).1⟩
  · rintro rfl
    exact Bool.false_ne_true ((grow.fresh.symm.trans (hused c)).trans (htaken c hc))
  · exact Bool.false_ne_true ((hfresh c hcs).2.symm.trans (htaken c hc))

/-- Both helpers store the buffer. -/
theorem LargeRun.fileByte (small : SmallRun s env name 5119 tmp i d bs t)
    (grow : LargeRun (s.smallFile t i bs) (size - 5119) tmp b cs u) (hlarge : 5120 ≤ size) (hmax : size < 70656) {p : Nat}
    (hp : p < 512 * (10 + blocksFor (size - 5119))) :
    Fs.fileByte ((s.smallFile t i bs).growFile u i (size - 5119) b cs)
      (((s.smallFile t i bs).growFile u i (size - 5119) b cs).inode i) p = some (tmp p) := by
  obtain ⟨hbs, hcs⟩ := LargeRun.apart small grow
  have hten : (bs.length : Int) = 10 := small.length
  have hlen := grow.length
  have hcount := (grow.made small).2.2.1
  have hmany : blocksFor (size - 5119) ≤ 128 := by
    rw [blocksFor_of_nonneg (by omega)]
    omega
  obtain ⟨hindirect, -, hmap⟩ := growFile_map (s.smallFile t i bs) u i (size - 5119) b cs
  have hdisk : ∀ c, c ≠ b → ((s.smallFile t i bs).growFile u i (size - 5119) b cs).disk c = u.disk c := fun c hc => by
    have hne : ¬ ((b : Nat) : Int) = (c : Nat) := fun h => hc (Fin.ext (by omega))
    simp only [FS.growFile, diskWrite_disk, if_neg hne]
  by_cases hk : p / 512 < 10
  · have hmem : bs[p / 512] ∈ bs := List.getElem_mem (by omega)
    refine fileByte_of_block (b := bs[p / 512]) ?_ ?_
    · rw [dataBlocks_direct _ _ hk (by omega)]
      have hnode : ((s.smallFile t i bs).growFile u i (size - 5119) b cs).inode i =
          ((s.smallFile t i bs).inode i).grow (size - 5119) (blocksFor (size - 5119)) b := Function.update_self _ _ _
      rw [hnode, small.node]
      exact congrArg some (place_getElem (by omega) hk)
    · rw [hdisk _ (hbs _ hmem).1, grow.taken.disk _ (hbs _ hmem).2]
      exact small.data _ _ (List.getElem?_eq_getElem (by omega))
  · have hk' : p / 512 - 10 < cs.length := by omega
    have hmem : cs[p / 512 - 10] ∈ cs := List.getElem_mem hk'
    refine fileByte_of_block (b := cs[p / 512 - 10]) ?_ ?_
    · rw [dataBlocks_mapped _ _ (by omega) (by omega) (by omega)]
      exact congrArg some (mapOf_entry hindirect hmap (place_getElem hk' (by omega)))
    · rw [hdisk _ (hcs _ hmem), grow.data _ _ (List.getElem?_eq_getElem hk'), Nat.sub_add_cancel (by omega)]

end Blocks

/-! ## A new file -/

section Create

variable {s : FS} {env : Env} {name : Name} {size : Int}

/-- **What `file_create` stores**: with enough space, byte `p` of the blocks of the
new file is byte `p` of the buffer. -/
theorem fileByte_create (hc : s.Counts) (env : Env) (name : Name) (h0 : 0 ≤ size) (hfits : size < 70656)
    (hinode : 1 ≤ s.superBlock.freeInodeCount) (hname : ∀ e ∈ entries s.curDir, e.1 ≠ name.1)
    (hpos : 0 ≤ s.curDir.numEntry) (hroom : s.curDir.numEntry < 24)
    (hspace : createBlocks size ≤ s.superBlock.freeBlockCount) :
    ∃ r i, fileCreate s env name size = some r ∧ NewEntry s r.fs name i ∧
      (r.fs.inode i).blockCount = (if size < 5120 then blocksFor size else 10 + blocksFor (size - 5119)) ∧
      ∀ p : Nat, p < 512 * (r.fs.inode i).blockCount →
        fileByte r.fs (r.fs.inode i) p = some (createBuffer env size p) := by
  have hsearch : searchCurDir s name = some (-1) := searchCurDir_not_found hroom.le fun k hk hmatch =>
    hname _ (mem_entries.mpr ⟨k, hk, hmatch, rfl⟩) rfl
  have hten : blocksFor 5119 = 10 := by decide
  have hblocks : blocksFor (min size 5119) ≤ s.superBlock.freeBlockCount := by
    rw [createBlocks] at hspace
    by_cases hsmall : size < 5120
    · rwa [if_pos hsmall, show size = min size 5119 by omega] at hspace
    · rw [if_neg hsmall, blocksFor_of_nonneg (by omega)] at hspace
      rw [show min size 5119 = 5119 by omega, hten]
      omega
  have hpass : ChecksPass s name (min size 5119) :=
    ⟨⟨-1, hsearch, by decide⟩, by unfold Dentry.Full; omega, hblocks, hinode⟩
  rcases fileCreate_outcome env hc name h0 with ⟨r, hrun, houtcome, -⟩ | ⟨-, -, hnone | ⟨-, hneg⟩⟩
  · rw [hrun]
    cases houtcome with
    | tooLarge hlarge => omega
    | refused _ hwhy => exact absurd hpass hwhy.fails.2.1
    | small hsmall _ hnum run =>
        have hcount : ((s.smallFile _ _ _).inode _).blockCount = blocksFor size := congrArg Inode.blockCount run.node
        refine ⟨_, _, rfl, run.newEntry hnum hroom, by rw [if_pos hsmall]; exact hcount, fun p hp => ?_⟩
        exact run.fileByte (by omega) h0 (by rw [← hcount]; exact hp)
    | half hlarge _ _ _ run hfail =>
        rw [run.largePasses_iff] at hfail
        rw [createBlocks, if_neg (by omega)] at hspace
        omega
    | large hlarge _ _ hnum run _ grow =>
        have hcount := (grow.made run).2.2.1
        refine ⟨_, _, rfl, grow.newEntry _ (run.newEntry hnum hroom), by rw [if_neg (by omega)]; exact hcount, fun p hp => ?_⟩
        exact grow.fileByte run hlarge hfits (by rw [← hcount]; exact hp)
  · simp [hsearch] at hnone
  · omega

/-- **When a file stores nothing but its text**: in every state with exact
counters, a free inode, an unused name, room in the directory and enough free
blocks, iff the text and its null fill the last block, or the text alone does and
the file is small. -/
theorem storesText_iff (hc : s.Counts) (env : Env) (name : Name) (h1 : 1 ≤ size) (hfits : size < 70656)
    (hinode : 1 ≤ s.superBlock.freeInodeCount) (hname : ∀ e ∈ entries s.curDir, e.1 ≠ name.1)
    (hpos : 0 ≤ s.curDir.numEntry) (hroom : s.curDir.numEntry < 24)
    (hspace : createBlocks size ≤ s.superBlock.freeBlockCount) :
    StoresText s env name size (fileCreate s env name size) ↔
      size % 512 = 511 ∨ (size < 5120 ∧ size % 512 = 0) := by
  obtain ⟨r, i, hrun, hentry, hcount, hbyte⟩ :=
    fileByte_create hc env name (by omega) hfits hinode hname hpos hroom hspace
  -- the blocks end where the set part does, or one byte before
  have hend : 512 * (r.fs.inode i).blockCount ≤ initialised size ↔
      size % 512 = 511 ∨ (size < 5120 ∧ size % 512 = 0) := by
    rw [hcount, initialised]
    split
    · rw [blocksFor_of_nonneg (by omega)]
      omega
    · rw [blocksFor_of_nonneg (by omega)]
      omega
  rw [← hend]
  constructor
  · rintro ⟨r', j, hr', hentry', hall⟩
    obtain rfl := Option.some.inj (hrun.symm.trans hr')
    obtain rfl := hentry.unique hentry'
    by_contra hover
    have hlast := (hall (512 * (r.fs.inode i).blockCount - 1).toNat (by unfold initialised at hover; omega)).2.2.1
    unfold initialised at hlast hover
    omega
  · intro hle
    refine ⟨r, i, hrun, hentry, fun p hp => ⟨hbyte p hp, ?_, by omega, createBuffer_text env (by omega) (by omega)⟩⟩
    unfold allocated
    unfold initialised at hle
    omega

theorem storesText_iff_full : StoresText (formatted quiet) quiet (letter 0) 511
    (fileCreate (formatted quiet) quiet (letter 0) 511) :=
  (storesText_iff (inv_formatted quiet).counts quiet (letter 0) (by decide) (by decide) (by decide +kernel)
    (by decide +kernel) (by decide) (by decide) (by decide +kernel)).mpr (by decide)

/-- A file of one character on a machine whose heap holds sevens: they are stored
from byte 2 on, also from byte 5, which is behind the buffer. -/
theorem create_stores_heap : ∃ r i, fileCreate (formatted quiet) { quiet with heap := fun _ => 7 } (letter 0) 1 = some r ∧
    NewEntry (formatted quiet) r.fs (letter 0) i ∧ fileByte r.fs (r.fs.inode i) 2 = some 7 ∧
    fileByte r.fs (r.fs.inode i) 5 = some 7 ∧ initialised 1 = 2 ∧ allocated 1 = 5 ∧
    ¬ StoresText (formatted quiet) { quiet with heap := fun _ => 7 } (letter 0) 1
      (fileCreate (formatted quiet) { quiet with heap := fun _ => 7 } (letter 0) 1) := by
  obtain ⟨r, i, hrun, hentry, hcount, hbyte⟩ := fileByte_create (inv_formatted quiet).counts
    { quiet with heap := fun _ => 7 } (letter 0) (show (0 : Int) ≤ 1 by decide) (by decide) (by decide +kernel) (by decide +kernel)
    (by decide) (by decide) (by decide +kernel)
  have hone : (r.fs.inode i).blockCount = 1 := hcount
  rw [hone] at hbyte
  have hheap : ∀ p : Nat, 1 < p → p < 512 → fileByte r.fs (r.fs.inode i) p = some 7 := fun p hp hmax => by
    rw [hbyte p (by omega), createBuffer_heap _ (by decide) (by omega)]
  refine ⟨r, i, hrun, hentry, hheap 2 (by decide) (by decide), hheap 5 (by decide) (by decide), rfl, rfl, ?_⟩
  rintro ⟨r', j, hr', hentry', hall⟩
  obtain rfl := Option.some.inj (hrun.symm.trans hr')
  obtain rfl := hentry.unique hentry'
  have htwo := (hall 2 (by rw [hone]; decide)).2.2.1
  exact absurd htwo (by decide)

end Create

end OperatingSystem.Fs
