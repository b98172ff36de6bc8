import Mathlib.Algebra.BigOperators.Fin
import Mathlib.Algebra.Order.BigOperators.Group.Finset
import Mathlib.Data.Multiset.AddSub

/-!
# OperatingSystem.Lib.Tally

A weight summed over the members of a finite family, such as the threads of a
process: how many are in a phase (a weight in `Nat`), what they hold between
them (a weight in `Multiset`).  One member's move changes the sum by the two
weights of that member (`total_update`); a move between states of one weight
leaves it alone (`total_congr`).
-/

namespace Tally

variable {ι β M : Type} [Fintype ι]

/-- The sum of the members' weights. -/
def total [AddCommMonoid M] (w : β → M) (f : ι → β) : M := ∑ i, w (f i)

section Monoid

variable [AddCommMonoid M] {w v : β → M} {f g : ι → β}

theorem total_congr (h : ∀ i, w (f i) = v (g i)) : total w f = total v g :=
  Finset.sum_congr rfl fun i _ => h i

theorem total_zero (h : ∀ i, w (f i) = 0) : total w f = 0 := Finset.sum_eq_zero fun i _ => h i

variable [DecidableEq ι]

/-- **One move**: the old weight of the member that moves goes, the new one comes. -/
theorem total_update (w : β → M) (f : ι → β) (i : ι) (b : β) :
    total w (Function.update f i b) + w (f i) = total w f + w b := by
  have hrest : ∑ j ∈ Finset.univ.erase i, w (Function.update f i b j) = ∑ j ∈ Finset.univ.erase i, w (f j) :=
    Finset.sum_congr rfl fun j hj => by rw [Function.update_of_ne (Finset.ne_of_mem_erase hj)]
  have hnew := Finset.add_sum_erase Finset.univ (fun j => w (Function.update f i b j)) (Finset.mem_univ i)
  have hold := Finset.add_sum_erase Finset.univ (fun j => w (f j)) (Finset.mem_univ i)
  simp only [Function.update_self, hrest] at hnew
  rw [total, total, ← hnew, ← hold, add_comm (w b), add_right_comm, add_comm _ (w (f i))]

theorem total_update_of_eq {i : ι} {b : β} (h : w b = w (f i)) : total w (Function.update f i b) = total w f :=
  total_congr fun j => by
    by_cases hj : j = i
    · subst hj
      rw [Function.update_self, h]
    · rw [Function.update_of_ne hj]

end Monoid

section Nat

variable {w : β → Nat} {f : ι → β}

theorem le_total (w : β → Nat) (f : ι → β) (i : ι) : w (f i) ≤ total w f :=
  Finset.single_le_sum (f := fun i => w (f i)) (fun _ _ => Nat.zero_le _) (Finset.mem_univ i)

theorem total_eq_zero : total w f = 0 ↔ ∀ i, w (f i) = 0 := by
  simp [total]

/-- A weight that is one everywhere or less counts everyone only if it is one
everywhere. -/
theorem total_eq_card (hw : ∀ b, w b ≤ 1) : total w f = Fintype.card ι ↔ ∀ i, w (f i) = 1 := by
  constructor
  · intro h i
    by_contra hi
    have hlt : total w f < ∑ _i : ι, 1 :=
      Finset.sum_lt_sum (fun j _ => hw (f j)) ⟨i, Finset.mem_univ i, lt_of_le_of_ne (hw _) hi⟩
    simp [h] at hlt
  · intro h
    simp [total, h]

end Nat

section Multiset

variable {α : Type} {w : β → Multiset α} {f : ι → β}

theorem mem_total {x : α} : x ∈ total w f ↔ ∃ i, x ∈ w (f i) := by
  simp [total, Multiset.mem_sum]

end Multiset

end Tally
