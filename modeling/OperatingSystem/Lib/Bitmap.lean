import OperatingSystem.Lib.Codec
import Mathlib.Data.Finset.Card
import Mathlib.Data.Finset.Range

/-!
# OperatingSystem.Lib.Bitmap

Bitmaps in a `char` array: bit `i` is bit `i % 8` of byte `i / 8`.  Bits are
flipped by exclusive or; `zeroBits` counts the clear ones, and `firstZero` is
the scan for the first of them.
-/

namespace Bitmap

variable {n : Nat}

/-- Bit `i`. -/
def getBit (m : Arr n Byte) (i : Nat) : Bool :=
  if h : i / 8 < n then (m ⟨i / 8, h⟩).getLsbD (i % 8) else false

/-- Flip bit `i`. -/
def toggleBit (m : Arr n Byte) (i : Nat) : Arr n Byte :=
  if h : i / 8 < n then Function.update m ⟨i / 8, h⟩ (m ⟨i / 8, h⟩ ^^^ (1#8 <<< (i % 8))) else m

theorem getBit_toggleBit (m : Arr n Byte) {i : Nat} (hi : i < 8 * n) (j : Nat) :
    getBit (toggleBit m i) j = if j = i then !getBit m i else getBit m j := by
  have hi' : i / 8 < n := by omega
  rw [toggleBit, dif_pos hi']
  unfold getBit
  by_cases hj : j / 8 < n
  · rw [dif_pos hj, dif_pos hj, dif_pos hi']
    by_cases hbyte : j / 8 = i / 8
    · have hfin : (⟨j / 8, hj⟩ : Fin n) = ⟨i / 8, hi'⟩ := Fin.ext hbyte
      have hlt : j % 8 < 8 := Nat.mod_lt _ (by decide)
      rw [hfin, Function.update_self, BitVec.getLsbD_xor, BitVec.getLsbD_shiftLeft]
      by_cases hji : j = i
      · subst hji
        simp [hlt]
      · have hne : j % 8 ≠ i % 8 := by omega
        rw [if_neg hji]
        by_cases hle : j % 8 < i % 8
        · simp [hle]
        · have hpos : j % 8 - i % 8 ≠ 0 := by omega
          simp [hpos]
    · have hji : j ≠ i := fun h => hbyte (by rw [h])
      rw [if_neg hji, Function.update_of_ne]
      exact fun h => hbyte (congrArg Fin.val h)
  · have hji : j ≠ i := fun h => hj (by rw [h]; exact hi')
    rw [dif_neg hj, dif_neg hj, if_neg hji]

theorem toggleBit_toggleBit (m : Arr n Byte) (i : Nat) : toggleBit (toggleBit m i) i = m := by
  unfold toggleBit
  by_cases h : i / 8 < n
  · simp only [dif_pos h, Function.update_self, Function.update_idem, BitVec.xor_assoc,
      BitVec.xor_self, BitVec.xor_zero, Function.update_eq_self]
  · simp only [dif_neg h]

/-- A bitmap is determined by its bits. -/
theorem ext_getBit {m m' : Arr n Byte} (h : ∀ i, i < 8 * n → getBit m i = getBit m' i) : m = m' := by
  funext k
  refine BitVec.eq_of_getLsbD_eq fun j hj => ?_
  have hk := k.isLt
  have hbit := h (8 * k + j) (by omega)
  have hdiv : (8 * (k : Nat) + j) / 8 = k := by omega
  have hmod : (8 * (k : Nat) + j) % 8 = j := by omega
  simpa only [getBit, hdiv, hmod, hk, dif_pos] using hbit

/-! ## Counting the clear bits -/

/-- How many bits are clear. -/
def zeroBits (m : Arr n Byte) : Nat := ((Finset.range (8 * n)).filter fun i => getBit m i = false).card

theorem zeroBits_toggle_of_false {m : Arr n Byte} {i : Nat} (hi : i < 8 * n)
    (h : getBit m i = false) : zeroBits (toggleBit m i) + 1 = zeroBits m := by
  have herase : (Finset.range (8 * n)).filter (fun j => getBit (toggleBit m i) j = false) =
      ((Finset.range (8 * n)).filter fun j => getBit m j = false).erase i := by
    ext j
    rw [Finset.mem_erase, Finset.mem_filter, Finset.mem_filter, getBit_toggleBit m hi]
    by_cases hji : j = i <;> simp [hji, h]
  unfold zeroBits
  rw [herase, Finset.card_erase_add_one]
  simp [h, hi]

theorem zeroBits_toggle_of_true {m : Arr n Byte} {i : Nat} (hi : i < 8 * n)
    (h : getBit m i = true) : zeroBits (toggleBit m i) = zeroBits m + 1 := by
  have hclear : getBit (toggleBit m i) i = false := by rw [getBit_toggleBit m hi]; simp [h]
  rw [← zeroBits_toggle_of_false hi hclear, toggleBit_toggleBit]

/-- The clear bits and the set ones are all. -/
theorem zeroBits_add_card (m : Arr n Byte) :
    zeroBits m + ((Finset.range (8 * n)).filter fun i => getBit m i = true).card = 8 * n := by
  have hset : ((Finset.range (8 * n)).filter fun i => getBit m i = true) =
      (Finset.range (8 * n)).filter fun i => ¬ getBit m i = false := by simp
  rw [zeroBits, hset, Finset.card_filter_add_card_filter_not, Finset.card_range]

/-- A bitmap whose first `r` bits are set. -/
theorem zeroBits_of_low {m : Arr n Byte} {r : Nat} (hr : r ≤ 8 * n) (h : ∀ i < 8 * n, getBit m i = decide (i < r)) :
    zeroBits m = 8 * n - r := by
  have hclear : (Finset.range (8 * n)).filter (fun i => getBit m i = false) = Finset.range (8 * n) \ Finset.range r := by
    ext i
    rw [Finset.mem_filter, Finset.mem_sdiff, Finset.mem_range, Finset.mem_range]
    refine and_congr_right fun hi => ?_
    rw [h i hi, decide_eq_false_iff_not]
  rw [zeroBits, hclear, Finset.card_sdiff_of_subset (Finset.range_mono hr), Finset.card_range, Finset.card_range]

/-! ## The scan -/

/-- The first clear bit among the first `k`. -/
def firstZero (m : Arr n Byte) (k : Nat) : Option Nat := (List.range k).find? fun i => !getBit m i

theorem firstZero_eq_some {m : Arr n Byte} (h : firstZero m k = some i) :
    i < k ∧ getBit m i = false := by
  have hi := List.find?_some h
  have hmem := List.mem_of_find?_eq_some h
  exact ⟨List.mem_range.mp hmem, by simpa using hi⟩

/-- Every bit in front of it is set. -/
theorem getBit_of_lt_firstZero {m : Arr n Byte} (h : firstZero m k = some i) (hj : j < i) : getBit m j = true := by
  rw [firstZero, List.find?_range_eq_some] at h
  simpa using h.2.2 j hj

theorem firstZero_eq {m : Arr n Byte} (hi : i < k) (hclear : getBit m i = false) (hset : ∀ j < i, getBit m j = true) :
    firstZero m k = some i := by
  rw [firstZero, List.find?_range_eq_some]
  exact ⟨by simpa using hclear, List.mem_range.mpr hi, fun j hj => by simpa using hset j hj⟩

/-- The scan finds a bit whenever one is clear. -/
theorem firstZero_of_zeroBits {m : Arr n Byte} (h : 0 < zeroBits m) :
    ∃ i, firstZero m (8 * n) = some i := by
  obtain ⟨i, hi⟩ := Finset.card_pos.mp h
  rw [Finset.mem_filter, Finset.mem_range] at hi
  cases hfind : firstZero m (8 * n) with
  | some j => exact ⟨j, rfl⟩
  | none =>
      have hnone := List.find?_eq_none.mp hfind i (List.mem_range.mpr hi.1)
      simp [hi.2] at hnone

end Bitmap
