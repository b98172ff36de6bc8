import OperatingSystem.Fs.ReadBack

/-!
# OperatingSystem.Fs.Contents

The string `cat` prints for a file (`fileText`).  For a file that `file_create`
has just made it is the string `rand_string` generated, and it depends on
nothing but the file's own blocks.
-/

namespace OperatingSystem.Fs

/-- The string in a file's data blocks. -/
def fileText (s : FS) (n : Inode) : List Byte :=
  strn (flatten ((dataBlocks s n).map fun b => s.diskRead b fun _ => 0)) (n.blockCount.toNat * 512)

/-- The characters `rand_string` generates. -/
def randChars (rand : Nat → Nat) (size : Int) : List Byte :=
  (List.range size.toNat).map fun n => charset (rand n % 62)

/-! ## Strings -/

theorem strn_congr (h : ∀ k < n, p k = q k) : strn p n = strn q n := by
  rw [strn, strn, List.map_congr_left fun k hk => h k (List.mem_range.mp hk)]

/-- A string ends at its first null. -/
theorem strn_eq (hmn : m ≤ n) (hne : ∀ k < m, p k ≠ 0) (hend : m < n → p m = 0) :
    strn p n = (List.range m).map p := by
  obtain ⟨d, rfl⟩ := Nat.exists_eq_add_of_le hmn
  rw [strn, List.range_add, List.map_append, List.takeWhile_append_of_pos]
  swap
  · intro x hx
    obtain ⟨k, hk, rfl⟩ := List.mem_map.mp hx
    simpa using hne k (List.mem_range.mp hk)
  cases d with
  | zero => simp
  | succ d =>
      have h0 : p m = 0 := hend (by omega)
      simp [List.range_succ_eq_map, h0]

theorem charset_ne_zero (key : Fin 62) : charset key ≠ 0 := by
  revert key
  decide

theorem createBuffer_lt (env : Env) {k : Nat} (hk : (k : Int) < size) :
    createBuffer env size k = charset (env.rand k % 62) := by
  have hpos : ¬ size < 1 := by omega
  rw [createBuffer, randString, if_neg hpos, if_pos hk]

theorem createBuffer_end (env : Env) (h0 : 0 ≤ size) : createBuffer env size size.toNat = 0 := by
  have hcast : ((size.toNat : Nat) : Int) = size := by omega
  have hlt : size < size + 1 := by omega
  simp [createBuffer, randString, hcast, hlt]

/-- The buffer of `file_create` holds the generated string. -/
theorem strn_createBuffer (env : Env) (h0 : 0 ≤ size) (n : Nat) :
    strn (createBuffer env size) n = (randChars env.rand size).take n := by
  have hne : ∀ k < min n size.toNat, createBuffer env size k ≠ 0 := fun k hk => by
    rw [createBuffer_lt env (by omega)]
    exact charset_ne_zero ⟨env.rand k % 62, Nat.mod_lt _ (by decide)⟩
  have hend : min n size.toNat < n → createBuffer env size (min n size.toNat) = 0 := fun hlt => by
    rw [show min n size.toNat = size.toNat by omega]
    exact createBuffer_end env h0
  rw [strn_eq (Nat.min_le_left _ _) hne hend, randChars, ← List.map_take, List.take_range]
  exact List.map_congr_left fun k hk => createBuffer_lt env (by have := List.mem_range.mp hk; omega)

/-! ## file_cat -/

section Cat

variable {s s' : FS} {L : Set (Fin 4096)} {n : Inode} {i : Fin 512}

/-- A read loop over blocks on the disk. -/
theorem readBlocks_map {is xs : List Int}
    (h : List.Forall₂ (fun j (x : Int) => ptr j = some x ∧ ∃ b : Fin 4096, x = b) is xs) (str : Block) :
    readBlocks s ptr is str = some (xs.map fun x => s.diskRead x fun _ => 0, []) := by
  induction h generalizing str with
  | nil => rfl
  | cons hx _ ih =>
      obtain ⟨hptr, b, rfl⟩ := hx
      simp only [readBlocks, hptr, ih, diskRead_fin, diskReadOut_fin, Option.bind_eq_bind, Option.bind_some,
        List.map_cons, List.nil_append, Option.pure_def]

/-- The data blocks behind the tenth are those of the map. -/
theorem dataBlocks_mapped (s : FS) (n : Inode) {k : Nat} (h10 : 10 ≤ k) (hk : k - 10 < 128)
    (hc : (k : Int) < n.blockCount) : (dataBlocks s n)[k]? = some (mapOf s n ⟨k - 10, hk⟩) := by
  have hlen := length_directBlocks n
  rw [dataBlocks, List.getElem?_append_right (by omega), mappedBlocks, List.getElem?_map,
    List.getElem?_take_of_lt (by omega), List.getElem?_eq_getElem (by simp; omega), List.getElem_finRange]
  exact congrArg (fun j => some (mapOf s n j)) (Fin.ext (by simp; omega))

/-- Behind the direct pointers come those of the map. -/
theorem largePtr_map (s : FS) (i : Int) (map : InDirectBlockMap) {k : Nat} (h10 : 10 ≤ k) (hlt : k - 10 < 128) :
    largePtr s i map k = some (map ⟨k - 10, hlt⟩) := by
  have hindex : (k : Int) - 10 = (k - 10 : Nat) := (Int.ofNat_sub h10).symm
  rw [largePtr, if_neg (by omega), hindex]
  exact Arr.read_fin map ⟨k - 10, hlt⟩

/-- The pointers of a file's blocks are its data blocks. -/
theorem largePtr_dataBlocks (hinv : Inv L s) (hlive : s.live i = true) (htype : (s.inode i).type = .file) {k : Nat}
    (hk : (k : Int) < (s.inode i).blockCount) :
    largePtr s i (mapOf s (s.inode i)) k = (dataBlocks s (s.inode i))[k]? := by
  have hle := (hinv.files i hlive htype).count_le
  by_cases h10 : k < 10
  · rw [largePtr, if_pos (by omega), directPtr_of_lt s i h10, dataBlocks_direct s _ h10 hk]
  · rw [largePtr_map s i _ (by omega) (by omega), dataBlocks_mapped s _ (by omega) (by omega) hk]

/-- The block numbers a loop over the file uses are its data blocks. -/
theorem Inv.dataBlocks_loop (hinv : Inv L s) (hlive : s.live i = true) (htype : (s.inode i).type = .file)
    (ptr : Int → Option Int)
    (hptr : ∀ k : Nat, (k : Int) < (s.inode i).blockCount → ptr k = (dataBlocks s (s.inode i))[k]?) :
    List.Forall₂ (fun j (x : Int) => ptr j = some x ∧ ∃ b : Fin 4096, x = b) (loop 0 ((s.inode i).blockCount - 1))
      (dataBlocks s (s.inode i)) := by
  have hlen : (loop 0 ((s.inode i).blockCount - 1)).length = (s.inode i).blockCount.toNat := by
    simp only [loop, List.length_map, List.length_range]
    omega
  rw [List.forall₂_iff_get]
  refine ⟨by rw [hlen, hinv.length_dataBlocks hlive htype], fun k hk hk' => ?_⟩
  have hkc : (k : Int) < (s.inode i).blockCount := by omega
  obtain ⟨b, hb, -⟩ := hinv.dataBlock hlive htype hkc
  have hindex : (loop 0 ((s.inode i).blockCount - 1)).get ⟨k, hk⟩ = k := by
    simp [loop]
  have hget : (dataBlocks s (s.inode i)).get ⟨k, hk'⟩ = (b : Int) := by
    rw [List.get_eq_getElem]
    exact Option.some.inj ((List.getElem?_eq_getElem hk').symm.trans hb)
  rw [hindex, hget, hptr k hkc]
  exact ⟨hb, b, rfl⟩

/-- **`cat` prints the file.** -/
theorem fileCat_text (hinv : Inv L s) (htarget : Target s name .file i) (env : Env) :
    fileCat s env name = some ⟨0, [.contents (fileText s (s.inode i))], s⟩ := by
  have hfile := hinv.files i htarget.live htarget.typed
  have hle := hfile.count_le
  have hlarge := hfile.large
  have hread : s.inode.read i = some (s.inode i) := Arr.read_fin _ i
  unfold fileCat
  rw [lookup_found htarget.search, htarget.typed, if_neg (by decide)]
  by_cases hsize : (s.inode i).size ≥ 5120
  · have hcount : ¬ (s.inode i).blockCount < 10 := by omega
    obtain ⟨b, hb⟩ := (hinv.inodes i).indirect
    have hloop := hinv.dataBlocks_loop htarget.live htarget.typed
      (largePtr s i (mapOf s (s.inode i))) fun k hk => largePtr_dataBlocks hinv htarget.live htarget.typed hk
    rw [if_pos hsize, fileCatHelper, hread, Option.bind_eq_bind, Option.bind_some]
    dsimp only
    rw [if_neg hcount, ← mapOf, readBlocks_map hloop, hb, diskReadOut_fin]
    rfl
  · have hloop := hinv.dataBlocks_loop htarget.live htarget.typed (directPtr s i) fun k hk => by
      rw [directPtr_of_lt s i (show k < 10 by omega), dataBlocks_direct s _ (by omega) hk]
    rw [if_neg hsize, if_neg (show ¬ (s.inode i).blockCount < 0 by have := hfile.count_nonneg; omega),
      readBlocks_map hloop]
    rfl

/-! ## What the text depends on -/

theorem fileText_congr (hinv : Inv L s) (hlive : s.live i = true) (htype : (s.inode i).type = .file)
    (h : ∀ k b, Owns s i k b → s'.disk b = s.disk b) : fileText s' (s.inode i) = fileText s (s.inode i) := by
  have hblocks : dataBlocks s' (s.inode i) = dataBlocks s (s.inode i) :=
    dataBlocks_congr fun hc b hb => h 10 b (owns_indirect hlive htype hc hb)
  have hdisk : ∀ x ∈ dataBlocks s (s.inode i), s'.diskRead x (fun _ => 0) = s.diskRead x fun _ => 0 := by
    intro x hx
    obtain ⟨k, hk, -⟩ := ownedBlocks_data htype hx
    obtain ⟨b, rfl, -⟩ := hinv.owned i hlive x (List.mem_of_getElem? hk)
    rw [diskRead_fin, diskRead_fin, h k b ⟨hlive, hk⟩]
  rw [fileText, hblocks, List.map_congr_left hdisk, fileText]

/-- The text of a new file, as far as its blocks reach. -/
theorem NewFile.fileText_eq (hinv : Inv L s) (h0 : 0 ≤ size)
    (h : NewFile s name m (createBuffer env size) i n s') :
    fileText s' n = (randChars env.rand size).take (n.blockCount.toNat * 512) := by
  obtain ⟨bs, hstep⟩ := h.step
  have hnode : s'.inode i = n := by rw [hstep.inode, Function.update_self]
  have hlive : s'.live i = true := (hstep.live i).mpr (Or.inl rfl)
  rw [← strn_createBuffer env h0, fileText]
  refine strn_congr fun k hk => ?_
  obtain ⟨b, hb, -⟩ := (hstep.inv hinv).dataBlock hlive (by rw [hnode]; exact h.type) (k := k / 512)
    (by rw [hnode]; omega)
  rw [hnode] at hb
  have hblock : ((dataBlocks s' n).map fun b => s'.diskRead b fun _ => 0)[k / 512]? = some (s'.disk b) := by
    rw [List.getElem?_map, hb, Option.map_some, diskRead_fin]
  have hget := flatten_get hblock ⟨k % 512, Nat.mod_lt _ (by decide)⟩
  dsimp only at hget
  rw [show k / 512 * 512 + k % 512 = k by omega] at hget
  rw [hget, h.data _ b hb, chunk]
  exact congrArg (createBuffer env size) (by simp only []; omega)

/-- **A file that was made in full holds the generated string.** -/
theorem NewFile.fileText_full (hinv : Inv L s) (h0 : 0 ≤ size)
    (h : NewFile s name size (createBuffer env size) i n s') : fileText s' n = randChars env.rand size := by
  obtain ⟨bs, hstep⟩ := h.step
  have hle := (hstep.fileOk h.type).size_le
  rw [h.fileText_eq hinv h0]
  refine List.take_of_length_le ?_
  rw [randChars, List.length_map, List.length_range]
  have := h.sized
  omega

end Cat

end OperatingSystem.Fs
