import Mathlib.Data.List.TakeWhile
import OperatingSystem.Lib.Words
import OperatingSystem.Wc.Count

/-!
# OperatingSystem.Wc.Words

What `word_count` is for, and when it does it.  The loop counts a word at every
separator and, if there is any character, one word and one line at the end.
That is the number of words when every separator stands alone between two words,
and of lines when the file does not end with one (`counts_iff`).

The loop ends at a byte 255, which is `EOF` as a `char`.  A counter goes up by
one, so it overflows, which is undefined behaviour, exactly when it becomes
negative (`Count.Nonneg`).
-/

namespace OperatingSystem.Wc

open Words

/-! ## The counts of a file -/

/-- Space and newline. -/
def isSep (ch : Byte) : Bool := ch == 32 || ch == 10

def chars (bytes : List Byte) : Nat := bytes.countP fun ch => !isSep ch

def lines (bytes : List Byte) : Nat :=
  bytes.count 10 + if bytes.getLast?.any (· != 10) then 1 else 0

/-- No counter has overflowed. -/
def Count.Nonneg (count : Count) : Prop :=
  0 ≤ count.linecount.toInt ∧ 0 ≤ count.wordcount.toInt ∧ 0 ≤ count.charcount.toInt

/-- `word_count` of a file overflows nowhere, and returns its counts. -/
structure Counts (bytes : List Byte) : Prop where
  loop : ∀ pre, pre <+: bytes → (countLoop 0 pre).Nonneg
  nonneg : (wordCount (some bytes)).Nonneg
  charcount : (wordCount (some bytes)).charcount.toInt = chars bytes
  wordcount : (wordCount (some bytes)).wordcount.toInt = (words isSep bytes).length
  linecount : (wordCount (some bytes)).linecount.toInt = lines bytes

/-! ## The loop -/

/-- What the loop adds for bytes none of which is `EOF`. -/
def tally (bytes : List Byte) : Count where
  linecount := .ofNat 32 (bytes.count 10)
  wordcount := .ofNat 32 (bytes.countP isSep)
  charcount := .ofNat 32 (chars bytes)

/-- One byte. -/
theorem countChar_eq (count : Count) (ch : Byte) : countChar count ch = count + tally [ch] := by
  by_cases h32 : ch = 32
  · subst h32
    ext1 <;> simp [countChar, tally, chars, isSep]
  · by_cases h10 : ch = 10
    · subst h10
      ext1 <;> simp [countChar, tally, chars, isSep]
    · have hchar : countChar count ch = { count with charcount := count.charcount + 1 } := by
        simp [countChar, show ¬ ch = 32#8 from h32, show ¬ ch = 10#8 from h10]
      have hsep : isSep ch = false := by simpa [isSep] using ⟨h32, h10⟩
      have hline : [ch].count 10#8 = 0 := List.count_eq_zero.mpr fun h => h10 (List.mem_singleton.mp h).symm
      rw [hchar]
      ext1 <;> simp [tally, chars, hsep, hline]

@[simp] theorem tally_nil : tally [] = 0 := rfl

theorem tally_append (as bs : List Byte) : tally (as ++ bs) = tally as + tally bs := by
  ext1 <;> simp [tally, chars, BitVec.ofNat_add]

/-- The loop counts the bytes before the first that is `EOF`. -/
theorem countLoop_eq (count : Count) (bytes : List Byte) :
    countLoop count bytes = count + tally (bytes.takeWhile fun ch => ch.toInt ≠ -1) := by
  induction bytes generalizing count with
  | nil => simp [countLoop]
  | cons ch bytes ih =>
      rw [countLoop, List.takeWhile_cons]
      by_cases heof : ch.toInt = -1
      · simp [heof]
      · rw [if_neg heof, ih, countChar_eq, if_pos (by simpa using heof), add_assoc, ← tally_append, List.singleton_append]

/-- The byte that is `EOF`. -/
theorem toInt_eq_neg_one_iff (ch : Byte) : ch.toInt = -1 ↔ ch = 255 := by
  have heof : (255 : Byte).toInt = -1 := rfl
  rw [← heof, BitVec.toInt_inj]

theorem countLoop_of_noEof {bytes : List Byte} (h : ∀ ch ∈ bytes, ch ≠ 255) : countLoop 0 bytes = tally bytes := by
  rw [countLoop_eq, zero_add, List.takeWhile_eq_self_iff.mpr fun ch hch => by simpa [toInt_eq_neg_one_iff] using h ch hch]

/-! ## Overflow -/

theorem toInt_ofNat_of_lt {n : Nat} (h : n < 2 ^ 31) : (BitVec.ofNat 32 n).toInt = n := by
  have hmod : n % 2 ^ 32 = n := Nat.mod_eq_of_lt (by omega)
  rw [BitVec.toInt_eq_toNat_cond, BitVec.toNat_ofNat, hmod, if_pos (by omega)]

theorem toInt_ofNat_le (n : Nat) : (BitVec.ofNat 32 n).toInt ≤ n := by
  have hmod := Nat.mod_le n (2 ^ 32)
  rw [BitVec.toInt_eq_toNat_cond, BitVec.toNat_ofNat]
  split <;> omega

/-- Every number up to a count is the count of a prefix. -/
theorem exists_prefix_countP (p : Byte → Bool) (bytes : List Byte) {k : Nat} (h : k ≤ bytes.countP p) :
    ∃ pre, pre <+: bytes ∧ pre.countP p = k := by
  induction bytes using List.reverseRecOn with
  | nil => exact ⟨[], List.prefix_rfl, by simpa using (Nat.le_zero.mp h).symm⟩
  | append_singleton bytes ch ih =>
      by_cases hk : k ≤ bytes.countP p
      · obtain ⟨pre, hpre, hcount⟩ := ih hk
        exact ⟨pre, hpre.trans (List.prefix_append bytes [ch]), hcount⟩
      · refine ⟨bytes ++ [ch], List.prefix_rfl, ?_⟩
        have hle : [ch].countP p ≤ 1 := List.countP_le_length
        rw [List.countP_append] at h ⊢
        omega

/-- A loop that does not overflow counts fewer than `2 ^ 31` separators. -/
theorem seps_lt {bytes : List Byte} (h : ∀ ch ∈ bytes, ch ≠ 255)
    (hloop : ∀ pre, pre <+: bytes → (countLoop 0 pre).Nonneg) : bytes.countP isSep < 2 ^ 31 := by
  by_contra hge
  obtain ⟨pre, hpre, hcount⟩ := exists_prefix_countP isSep bytes (not_lt.mp hge)
  have hword := (hloop pre hpre).2.1
  rw [countLoop_of_noEof fun ch hch => h ch (hpre.subset hch), tally, hcount] at hword
  exact absurd (show 0 ≤ (BitVec.ofNat 32 (2 ^ 31)).toInt from hword) (by decide)

/-! ## When the counts are right -/

theorem length_eq (bytes : List Byte) : bytes.length = bytes.countP isSep + chars bytes := by
  rw [List.length_eq_countP_add_countP isSep]
  simp [chars]

/-- A byte 255 ends the loop, and is a character that it does not count. -/
theorem chars_takeWhile_lt {bytes : List Byte} (h : 255 ∈ bytes) :
    chars (bytes.takeWhile fun ch => ch.toInt ≠ -1) < chars bytes := by
  induction bytes with
  | nil => exact absurd h List.not_mem_nil
  | cons ch bytes ih =>
      rw [List.takeWhile_cons]
      by_cases heof : ch = 255
      · have heof' : ch.toInt = -1 := (toInt_eq_neg_one_iff ch).mpr heof
        simp [heof, chars, isSep]
      · have heof' : ch.toInt ≠ -1 := fun h => heof ((toInt_eq_neg_one_iff ch).mp h)
        have hlt := ih ((List.mem_cons.mp h).resolve_left (Ne.symm heof))
        rw [if_pos (by simpa using heof')]
        simp only [chars, List.countP_cons] at hlt ⊢
        omega

/-- The characters the loop has counted are not changed behind it. -/
theorem charcount_wordCount (bytes : List Byte) : (wordCount (some bytes)).charcount = (countLoop 0 bytes).charcount := by
  simp only [wordCount]
  split <;> rfl

theorem Counts.noEof {bytes : List Byte} (h : Counts bytes) : ∀ ch ∈ bytes, ch ≠ 255 := by
  rintro _ hch rfl
  have hlt := chars_takeWhile_lt hch
  have hle := toInt_ofNat_le (chars (bytes.takeWhile fun ch => ch.toInt ≠ -1))
  have hcount := h.charcount
  rw [charcount_wordCount, countLoop_eq, zero_add] at hcount
  simp only [tally] at hcount
  omega

/-- What `word_count` returns, when no byte ends the loop. -/
theorem wordCount_of_noEof {bytes : List Byte} (h : ∀ ch ∈ bytes, ch ≠ 255) (hchars : chars bytes < 2 ^ 31) :
    wordCount (some bytes) = if chars bytes = 0 then tally bytes else
      ⟨.ofNat 32 (bytes.count 10 + 1), .ofNat 32 (bytes.countP isSep + 1), .ofNat 32 (chars bytes)⟩ := by
  have hcount : (tally bytes).charcount.toInt = chars bytes := toInt_ofNat_of_lt hchars
  simp only [wordCount, countLoop_of_noEof h, hcount]
  by_cases hz : chars bytes = 0
  · rw [if_neg (by omega), if_pos hz]
  · rw [if_pos (by omega), if_neg hz]
    simp [tally, BitVec.ofNat_add]

/-- The last byte of a spaced file ends no line. -/
theorem lines_of_spaced {bytes : List Byte} (hne : bytes ≠ []) (h : Spaced isSep bytes) : lines bytes = bytes.count 10 + 1 := by
  have hlast := h.last (bytes.getLast hne) (List.getLast?_eq_some_getLast hne)
  have hline : ¬ bytes.getLast hne = 10#8 := fun h10 => by simp [h10, isSep] at hlast
  simp [lines, List.getLast?_eq_some_getLast hne, hline]

theorem Counts.chars_lt {bytes : List Byte} (h : Counts bytes) : chars bytes < 2 ^ 31 := by
  have hlt := BitVec.two_mul_toInt_lt (x := (wordCount (some bytes)).charcount)
  rw [h.charcount] at hlt
  omega

theorem Counts.spaced {bytes : List Byte} (h : Counts bytes) (hne : bytes ≠ []) : Spaced isSep bytes := by
  have hseps := seps_lt h.noEof h.loop
  have hwords := h.wordcount
  rw [wordCount_of_noEof h.noEof h.chars_lt] at hwords
  by_cases hz : chars bytes = 0
  · -- no characters: as many words as separators, so no bytes at all
    rw [if_pos hz] at hwords
    simp only [tally, toInt_ofNat_of_lt hseps] at hwords
    have hle := length_words_le_chars isSep bytes
    have hlen := length_eq bytes
    unfold chars at hz hlen
    exact absurd (List.length_eq_zero_iff.mp (by omega)) hne
  · rw [if_neg hz] at hwords
    have hlt : bytes.countP isSep + 1 < 2 ^ 31 := by
      by_contra hge
      have hmax : bytes.countP isSep + 1 = 2 ^ 31 := by omega
      rw [hmax] at hwords
      exact absurd (hwords.symm.trans (show _ = (-2 ^ 31 : Int) from rfl)) (by omega)
    simp only [toInt_ofNat_of_lt hlt] at hwords
    exact (length_words_eq_iff.mp (by omega)).2

/-- One word more than separators, and no more words than characters. -/
theorem counts_of_spaced {bytes : List Byte} (hne : bytes ≠ []) (heof : ∀ ch ∈ bytes, ch ≠ 255)
    (hchars : chars bytes < 2 ^ 31) (hspaced : Spaced isSep bytes) : Counts bytes := by
  have hwords := length_words_eq_iff.mpr ⟨hne, hspaced⟩
  have hle : (words isSep bytes).length ≤ chars bytes := length_words_le_chars isSep bytes
  have hnewlines : bytes.count 10 ≤ bytes.countP isSep :=
    List.countP_mono_left fun ch _ h10 => by simp [isSep, beq_iff_eq.mp h10]
  have hcount := wordCount_of_noEof heof hchars
  rw [if_neg (by omega)] at hcount
  have hline : (BitVec.ofNat 32 (bytes.count 10 + 1)).toInt = (bytes.count 10 + 1 : Nat) := toInt_ofNat_of_lt (by omega)
  have hword : (BitVec.ofNat 32 (bytes.countP isSep + 1)).toInt = (bytes.countP isSep + 1 : Nat) :=
    toInt_ofNat_of_lt (by omega)
  have hchar : (BitVec.ofNat 32 (chars bytes)).toInt = chars bytes := toInt_ofNat_of_lt hchars
  refine ⟨?_, ?_, ?_, ?_, ?_⟩
  · intro pre hpre
    have hpre10 := hpre.sublist.count_le 10
    have hpresep := hpre.sublist.countP_le (p := isSep)
    have hprechars : chars pre ≤ chars bytes := hpre.sublist.countP_le
    rw [countLoop_of_noEof fun ch hch => heof ch (hpre.subset hch)]
    simp only [Count.Nonneg, tally]
    rw [toInt_ofNat_of_lt (by omega), toInt_ofNat_of_lt (by omega), toInt_ofNat_of_lt (by omega)]
    omega
  · simp only [hcount, Count.Nonneg, hline, hword, hchar]
    omega
  · rw [hcount, hchar]
  · rw [hcount, hword, hwords]
  · rw [hcount, hline, lines_of_spaced hne hspaced]

theorem counts_nil : Counts [] where
  loop pre hpre := by
    rw [List.prefix_nil.mp hpre]
    exact ⟨le_rfl, le_rfl, le_rfl⟩
  nonneg := ⟨le_rfl, le_rfl, le_rfl⟩
  charcount := rfl
  wordcount := rfl
  linecount := rfl

/-- A file of which `word_count` counts lines, words and characters: it is empty,
or it holds no byte 255 and fewer than `2 ^ 31` characters, and every space and
newline stands alone between two words. -/
theorem counts_iff (bytes : List Byte) : Counts bytes ↔
    bytes = [] ∨ (∀ ch ∈ bytes, ch ≠ 255) ∧ chars bytes < 2 ^ 31 ∧ Spaced isSep bytes := by
  by_cases hne : bytes = []
  · subst hne
    exact iff_of_true counts_nil (.inl rfl)
  · rw [or_iff_right hne]
    exact ⟨fun h => ⟨h.noEof, h.chars_lt, h.spaced hne⟩, fun h => counts_of_spaced hne h.1 h.2.1 h.2.2⟩

/-- Text that ends its line, two words with two spaces between them, and a byte
255 in front of a character. -/
theorem counts_miss : ¬ Counts [97, 10] ∧ ¬ Counts [97, 32, 32, 98] ∧ ¬ Counts [97, 255, 98] :=
  ⟨fun h => absurd h.linecount (by decide), fun h => absurd h.wordcount (by decide), fun h => absurd h.charcount (by decide)⟩

end OperatingSystem.Wc
