import Mathlib.Logic.Function.Basic

/-!
# OperatingSystem.Lib.Arr

C arrays: `n` cells indexed by an `int`.  Reading or writing outside the array
is undefined behaviour, so both return `none` there; `read_of_lt` and
`write_of_lt` resolve an access once its index is known to be in bounds, and
`read_fin` / `write_fin` do so for an index that comes from `Fin n`.
-/

/-- An array of `n` cells. -/
abbrev Arr (n : Nat) (α : Type) := Fin n → α

namespace Arr

variable {n : Nat} {α : Type}

theorem toNat_lt {i : Int} (h : 0 ≤ i ∧ i < n) : i.toNat < n := by omega

theorem exists_fin {i : Int} (h0 : 0 ≤ i) (hn : i < n) : ∃ k : Fin n, i = k.val :=
  ⟨⟨i.toNat, toNat_lt ⟨h0, hn⟩⟩, (Int.toNat_of_nonneg h0).symm⟩

/-- `a[i]`; `none` when `i` is out of bounds. -/
def read (a : Arr n α) (i : Int) : Option α :=
  if h : 0 ≤ i ∧ i < n then some (a ⟨i.toNat, toNat_lt h⟩) else none

/-- `a[i] = x`; `none` when `i` is out of bounds. -/
def write (a : Arr n α) (i : Int) (x : α) : Option (Arr n α) :=
  if h : 0 ≤ i ∧ i < n then some (Function.update a ⟨i.toNat, toNat_lt h⟩ x) else none

theorem read_of_lt (a : Arr n α) {i : Int} (h0 : 0 ≤ i) (hn : i < n) :
    a.read i = some (a ⟨i.toNat, by omega⟩) := dif_pos ⟨h0, hn⟩

theorem write_of_lt (a : Arr n α) {i : Int} (x : α) (h0 : 0 ≤ i) (hn : i < n) :
    a.write i x = some (Function.update a ⟨i.toNat, by omega⟩ x) := dif_pos ⟨h0, hn⟩

@[simp] theorem read_fin (a : Arr n α) (k : Fin n) : a.read (k.val : Int) = some (a k) := by
  rw [read_of_lt a (by omega) (by omega)]
  congr 2

@[simp] theorem write_fin (a : Arr n α) (k : Fin n) (x : α) :
    a.write (k.val : Int) x = some (Function.update a k x) := by
  rw [write_of_lt a x (by omega) (by omega)]
  congr 2

theorem read_update_of_ne (a : Arr n α) {i : Int} {k : Fin n} (h : i ≠ k.val) (x : α) :
    read (Function.update a k x) i = a.read i := by
  unfold read
  split
  · next hb =>
      have hk : (⟨i.toNat, toNat_lt hb⟩ : Fin n) ≠ k := fun heq => h (by rw [← heq, Int.toNat_of_nonneg hb.1])
      rw [Function.update_of_ne hk]
  · rfl

/-- An access that has a result was in bounds. -/
theorem read_eq_some {a : Arr n α} {i : Int} {x : α} (h : a.read i = some x) :
    ∃ k : Fin n, i = k.val ∧ a k = x := by
  unfold read at h
  split at h
  · next hb =>
      obtain ⟨k, rfl⟩ := exists_fin hb.1 hb.2
      exact ⟨k, rfl, Option.some.inj h⟩
  · contradiction

theorem write_eq_some {a b : Arr n α} {i : Int} {x : α} (h : a.write i x = some b) :
    ∃ k : Fin n, i = k.val ∧ b = Function.update a k x := by
  unfold write at h
  split at h
  · next hb =>
      obtain ⟨k, rfl⟩ := exists_fin hb.1 hb.2
      exact ⟨k, rfl, (Option.some.inj h).symm⟩
  · contradiction

end Arr
