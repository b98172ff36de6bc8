import OperatingSystem.Fs.Listing
import OperatingSystem.Fs.Printable
import OperatingSystem.Lib.TreeEdit

/-!
# OperatingSystem.Fs.Edit

`write` and `read` in terms of the string `cat` shows.  A write that ends inside a
direct block of the file puts its buffer in the place of as many characters
(`fileWrite_text`), and a read prints those of its range (`fileRead_text`); what the
file holds behind its string does not matter.
-/

namespace OperatingSystem.Fs

open Splice (splice)

/-! ## Strings -/

/-- A string of at most `n` characters: up to the first null. -/
theorem strn_spec (p : Nat → Byte) (n : Nat) :
    (strn p n).length ≤ n ∧ (∀ k < (strn p n).length, p k ≠ 0) ∧ ((strn p n).length < n → p (strn p n).length = 0) ∧
      strn p n = (List.range (strn p n).length).map p := by
  induction n generalizing p with
  | zero => exact ⟨Nat.le_refl _, fun _ hk => absurd hk (Nat.not_lt_zero _), fun h => absurd h (Nat.lt_irrefl _), rfl⟩
  | succ n ih =>
      rw [strn_succ]
      by_cases h0 : p 0 = 0
      · rw [if_pos h0]
        exact ⟨Nat.zero_le _, fun _ hk => absurd hk (Nat.not_lt_zero _), fun _ => h0, rfl⟩
      · obtain ⟨hlen, hne, hend, heq⟩ := ih fun k => p (k + 1)
        rw [if_neg h0, List.length_cons]
        refine ⟨Nat.succ_le_succ hlen, fun k hk => ?_, fun h => hend (Nat.lt_of_succ_lt_succ h), ?_⟩
        · cases k with
          | zero => exact h0
          | succ k => exact hne k (Nat.lt_of_succ_lt_succ hk)
        · rw [List.range_succ_eq_map, List.map_cons, List.map_map]
          exact congrArg (p 0 :: ·) heq

/-- A string without nulls over part of a string. -/
theorem strn_splice {p q : Nat → Byte} {n o : Nat} {buf : List Byte} (hrange : o + buf.length ≤ (strn p n).length)
    (hbuf : 0 ∉ buf) (hin : ∀ k, o ≤ k → k < o + buf.length → buf[k - o]? = some (q k))
    (hout : ∀ k < n, k < o ∨ o + buf.length ≤ k → q k = p k) : strn q n = splice (strn p n) o buf := by
  obtain ⟨hlen, hne, hend, heq⟩ := strn_spec p n
  have hne' : ∀ k < (strn p n).length, q k ≠ 0 := fun k hk => by
    by_cases hrange' : o ≤ k ∧ k < o + buf.length
    · exact fun h => hbuf (h ▸ List.mem_of_getElem? (hin k hrange'.1 hrange'.2))
    · rw [hout k (by omega) (by omega)]
      exact hne k hk
  have hend' : (strn p n).length < n → q (strn p n).length = 0 := fun hlt => by
    rw [hout _ hlt (Or.inr hrange)]
    exact hend hlt
  rw [strn_eq hlen hne' hend']
  conv_rhs => rw [heq]
  exact (Splice.splice_map_range hrange hin fun k hk => hout k (by omega)).symm

/-- The bytes in a file's blocks, one block behind the other. -/
def content (s : FS) (n : Inode) : Nat → Byte := flatten ((dataBlocks s n).map fun b => s.diskRead b fun _ => 0)

section Write

variable {s s' : FS} {L : Set (Fin 4096)} {i : Fin 512} {name : Name} {buf : List Byte} {offset : Int}

theorem content_of_block {n : Inode} {p : Nat} {b : Fin 4096} (h : (dataBlocks s n)[p / 512]? = some (b : Int)) :
    content s n p = s.disk b ⟨p % 512, mod_lt_block p⟩ := by
  have hblock : ((dataBlocks s n).map fun b => s.diskRead b fun _ => 0)[p / 512]? = some (s.disk b) := by
    rw [List.getElem?_map, h, Option.map_some, diskRead_fin]
  have hget := flatten_get hblock ⟨p % 512, mod_lt_block p⟩
  dsimp only at hget
  rwa [show p / 512 * 512 + p % 512 = p by omega] at hget

/-- **The bytes after a small write** that ends inside a block of the file. -/
theorem SmallWrite.content_eq (hinv : Inv L s) (hlive : s.live i = true) (htype : (s.inode i).type = .file)
    (h : SmallWrite s i offset buf s') (hrange : offset + buf.length ≤ (s.inode i).size)
    (hend : endBlock offset buf < (s.inode i).blockCount) {p : Nat} (hp : p < (s.inode i).blockCount.toNat * 512) :
    content s' (s.inode i) p =
      if offset ≤ p ∧ p < offset + buf.length then buf.getD ((p : Int) - offset).toNat 0 else content s (s.inode i) p := by
  have h0 := h.offset_nonneg
  have hnine := h.end_le
  have hendEq : endBlock offset buf = (offset + buf.length) / 512 := endBlock_of_nonneg h0
  obtain ⟨b, hb, hown⟩ := hinv.dataBlock hlive htype (k := p / 512) (by omega)
  have hb' : (dataBlocks s' (s.inode i))[p / 512]? = some (b : Int) := by
    rw [h.dataBlocks_eq hinv hlive htype hrange, hb]
  rw [content_of_block hb, content_of_block hb']
  -- an index of the range that points to the block is the byte's own
  have hindex : ∀ j : Int, offset / 512 ≤ j → j ≤ endBlock offset buf → directPtr s i j = some (b : Int) →
      j = (p / 512 : Nat) := by
    intro j hlo hhi hptr
    have hj : j.toNat < 10 := by omega
    obtain ⟨c, hc, hown'⟩ := hinv.dataBlock hlive htype (k := j.toNat) (by omega)
    rw [show j = (j.toNat : Nat) by omega, directPtr_of_lt s i hj, Option.some.injEq] at hptr
    rw [dataBlocks_direct s _ hj (by omega), Option.some.injEq] at hc
    obtain rfl : b = c := Fin.ext (by omega)
    have := hinv.dataBlock_inj hown hown'
    omega
  obtain ⟨hnone, hsame⟩ | ⟨j, hlo, hhi, hptr, -, hdisk⟩ := h.disk b
  · rw [hsame, if_neg]
    rintro ⟨hlo, hhi⟩
    have hk : p / 512 < 10 := by omega
    refine hnone (p / 512 : Nat) (by omega) (by omega) ?_
    rw [directPtr_of_lt s i hk, ← hb, dataBlocks_direct s _ hk (by omega)]
  · obtain rfl := hindex j hlo hhi hptr
    have hpos : 512 * ((p / 512 : Nat) : Int) + (p % 512 : Nat) = p := by omega
    rw [hdisk, written]
    dsimp only
    rw [hpos]

end Write

/-! ## Ranges of the string -/

/-- The range `offset … offset + size` lies in the string, and ends inside one of its
blocks; the block it starts in is one of the first eleven. -/
structure Within (w : List Byte) (offset size : Int) : Prop where
  offset_nonneg : 0 ≤ offset
  size_nonneg : 0 ≤ size
  start : offset < 5632
  le : offset + size ≤ w.length
  inside : offset + size < w.length ∨ (offset + size) % 512 ≠ 0

section Range

variable {s : FS} {L : Set (Fin 4096)} {i : Fin 512} {name : Name} {buf : List Byte} {offset size : Int}

theorem fileText_content (s : FS) (n : Inode) : fileText s n = strn (content s n) (n.blockCount.toNat * 512) := rfl

/-- The last block of the range is one of the file. -/
theorem Within.block_lt {n : Inode} (h : Within (fileText s n) offset size) : (offset + size) / 512 < n.blockCount := by
  have hlen : (fileText s n).length ≤ n.blockCount.toNat * 512 := (strn_spec (content s n) _).1
  have h0 := h.offset_nonneg
  have h1 := h.size_nonneg
  have hle := h.le
  obtain hlt | hne := h.inside <;> omega

/-- **The string after a write** that ends within the direct blocks. -/
theorem SmallWrite.fileText_eq {s' : FS} (hinv : Inv L s) (hlive : s.live i = true)
    (htype : (s.inode i).type = .file) (hwithin : Within (fileText s (s.inode i)) offset buf.length) (hbuf : 0 ∉ buf)
    (hsize : offset + buf.length ≤ (s.inode i).size) (h : SmallWrite s i offset buf s') :
    fileText s' (s.inode i) = splice (fileText s (s.inode i)) offset.toNat buf := by
  have h0 := h.offset_nonneg
  have hlt := hwithin.block_lt
  have hle := hwithin.le
  have hend : endBlock offset buf < (s.inode i).blockCount := by rwa [endBlock_of_nonneg h0]
  have hlen : (fileText s (s.inode i)).length ≤ (s.inode i).blockCount.toNat * 512 :=
    (strn_spec (content s (s.inode i)) _).1
  rw [fileText_content] at hle hlen
  rw [fileText_content, fileText_content]
  refine strn_splice (by omega) hbuf (fun k hlo hhi => ?_) fun k hk hout => ?_
  · have hlt' : k - offset.toNat < buf.length := by omega
    rw [h.content_eq hinv hlive htype hsize hend (by omega), if_pos (by omega),
      show ((k : Int) - offset).toNat = k - offset.toNat by omega, List.getD_eq_getElem?_getD,
      List.getElem?_eq_getElem hlt', Option.getD_some]
  · rw [h.content_eq hinv hlive htype hsize hend hk, if_neg (by omega)]

/-- **A small write inside a file** in the tree: the file has another text. -/
theorem SmallWrite.tree {s' : FS} (hinv : Inv L s) (htarget : Target s name .file i)
    (hrange : offset + buf.length ≤ (s.inode i).size) (h : SmallWrite s i offset buf s')
    (hfs : s' = { s with disk := s'.disk }) : s'.tree = s.tree.write i (fileText s' (s.inode i)) := by
  have hchanged : ∀ b, s'.disk b ≠ s.disk b → ∃ k : Nat, k < 10 ∧ Owns s i k b := fun b =>
    h.changed hinv htarget.live htarget.typed hrange
  obtain ⟨d, rfl⟩ : ∃ d, s' = { s with disk := d } := ⟨_, hfs⟩
  have hfixed : ∀ b, Fixed s b → d b = s.disk b := fun b hb => by
    by_contra hne
    obtain ⟨k, hk, hown⟩ := hchanged b hne
    obtain ⟨j, l, hown', hcase⟩ := hb.owns hinv
    obtain ⟨rfl, rfl⟩ := hinv.unique i j k l b hown hown'
    obtain ⟨-, -, h10⟩ | ⟨hdir, -⟩ := hcase
    · omega
    · exact nomatch htarget.typed.symm.trans hdir
  have hlisting : FS.listing { s with disk := d } = s.listing := funext fun j =>
    listing_congr rfl rfl fun hlive htype => dir_setDisk hinv hfixed hlive htype
  have htext : FS.text { s with disk := d } =
      Function.update s.text i (some (fileText { s with disk := d } (s.inode i))) := by
    funext j
    by_cases hji : j = i
    · subst hji
      rw [Function.update_self]
      exact text_eq_some.mpr ⟨htarget.live, htarget.typed, rfl⟩
    · rw [Function.update_of_ne hji]
      refine text_congr rfl rfl fun hlive htype => fileText_congr hinv hlive htype fun k b hown => ?_
      by_contra hne
      obtain ⟨l, -, hown'⟩ := hchanged b hne
      exact hji (hinv.unique j i k l b hown hown').1
  simp only [FS.tree, DirTree.write]
  rw [hlisting, htext, atInode_update]

end Range

end OperatingSystem.Fs
