import Mathlib.Data.List.Basic

/-!
# OperatingSystem.Lib.Splice

Changes in the middle of a list.  `splice w k buf` is `w` with `buf` over the places
from `k` on; where the list is what a function gives on `0, …, n - 1`, so is the new
one (`splice_map_range`).  `takeOut w p` is `w` without place `p`, which the last
element takes; the others are those of `w`, in another order (`takeOut_perm`).
-/

namespace Splice

variable {α : Type*} {w buf : List α} {k : Nat}

/-- `w` with `buf` in the places from `k` on. -/
def splice (w : List α) (k : Nat) (buf : List α) : List α := w.take k ++ buf ++ w.drop (k + buf.length)

@[simp] theorem length_splice (h : k + buf.length ≤ w.length) : (splice w k buf).length = w.length := by
  simp only [splice, List.length_append, List.length_take, List.length_drop]
  omega

theorem getElem?_splice (h : k + buf.length ≤ w.length) (i : Nat) :
    (splice w k buf)[i]? = if k ≤ i ∧ i < k + buf.length then buf[i - k]? else w[i]? := by
  have htake : (w.take k).length = k := List.length_take_of_le (by omega)
  rw [splice, List.append_assoc]
  by_cases hlo : k ≤ i
  · rw [List.getElem?_append_right (by omega), htake]
    by_cases hhi : i < k + buf.length
    · rw [if_pos ⟨hlo, hhi⟩, List.getElem?_append_left (by omega)]
    · rw [if_neg (by omega), List.getElem?_append_right (by omega), List.getElem?_drop]
      congr 1
      omega
  · rw [if_neg (by omega), List.getElem?_append_left (by omega), List.getElem?_take_of_lt (by omega)]

/-- The range that is written over holds what was written. -/
theorem take_drop_splice (h : k + buf.length ≤ w.length) : ((splice w k buf).drop k).take buf.length = buf := by
  refine List.ext_getElem? fun i => ?_
  rw [List.getElem?_take, List.getElem?_drop, getElem?_splice h]
  grind

/-- Another range holds what it held. -/
theorem take_drop_splice_of_disjoint {o n : Nat} (h : k + buf.length ≤ w.length)
    (hdisjoint : k + buf.length ≤ o ∨ o + n ≤ k) : ((splice w k buf).drop o).take n = (w.drop o).take n := by
  refine List.ext_getElem? fun i => ?_
  rw [List.getElem?_take, List.getElem?_take, List.getElem?_drop, List.getElem?_drop, getElem?_splice h]
  grind

/-- The values of `p`, written over, are the values of `q`. -/
theorem splice_map_range {p q : Nat → α} {n : Nat} (h : k + buf.length ≤ n)
    (hin : ∀ i, k ≤ i → i < k + buf.length → buf[i - k]? = some (q i))
    (hout : ∀ i < n, i < k ∨ k + buf.length ≤ i → q i = p i) :
    splice ((List.range n).map p) k buf = (List.range n).map q := by
  have hlen : k + buf.length ≤ ((List.range n).map p).length := by simpa using h
  refine List.ext_getElem? fun i => ?_
  rw [getElem?_splice hlen, List.getElem?_map, List.getElem?_map]
  by_cases hi : i < n
  · rw [List.getElem?_range hi, Option.map_some, Option.map_some]
    by_cases hrange : k ≤ i ∧ i < k + buf.length
    · rw [if_pos hrange, hin i hrange.1 hrange.2]
    · rw [if_neg hrange, hout i hi (by omega)]
  · rw [if_neg (by omega), List.getElem?_eq_none (by simpa using hi)]
    rfl

/-! ## Taking an element out -/

/-- `w` without the element at place `p`: the last one is put there. -/
def takeOut (w : List α) (p : Nat) : List α :=
  match w.getLast? with
  | some e => (w.set p e).dropLast
  | none => []

variable {p : Nat}

theorem takeOut_concat (w : List α) (e : α) (p : Nat) : takeOut (w ++ [e]) p = ((w ++ [e]).set p e).dropLast := by
  rw [takeOut, List.getLast?_concat]

theorem getElem?_takeOut (hp : p < w.length) (k : Nat) : (takeOut w p)[k]? =
    if k + 1 < w.length then (if k = p then w[w.length - 1]? else w[k]?) else none := by
  obtain rfl | ⟨v, e, rfl⟩ := List.eq_nil_or_concat w
  · exact absurd hp (Nat.not_lt_zero p)
  · rw [List.concat_eq_append] at hp ⊢
    rw [takeOut_concat, List.getElem?_dropLast, List.length_set, List.length_append, List.length_singleton,
      Nat.add_sub_cancel, List.getElem?_concat_length]
    by_cases hk : k < v.length
    · rw [if_pos hk, if_pos (by omega), List.getElem?_set]
      by_cases hkp : p = k
      · rw [if_pos hkp, if_pos (by simpa using hp), if_pos hkp.symm]
      · rw [if_neg hkp, if_neg (Ne.symm hkp)]
    · rw [if_neg hk, if_neg (by omega)]

/-- The other elements stay. -/
theorem takeOut_perm (a b : List α) (e : α) : (takeOut (a ++ e :: b) a.length).Perm (a ++ b) := by
  obtain rfl | ⟨b, l, rfl⟩ := List.eq_nil_or_concat b
  · rw [takeOut_concat, List.set_append_right _ _ (Nat.le_refl _), Nat.sub_self, List.set_cons_zero,
      List.dropLast_concat, List.append_nil]
  · have happend : a ++ e :: b.concat l = (a ++ e :: b) ++ [l] := by simp
    have hset : ((a ++ e :: b) ++ [l]).set a.length l = (a ++ l :: b) ++ [l] := by simp
    rw [happend, takeOut_concat, hset, List.dropLast_concat, List.concat_eq_append]
    exact List.Perm.append_left a (List.perm_append_singleton l b).symm

end Splice
