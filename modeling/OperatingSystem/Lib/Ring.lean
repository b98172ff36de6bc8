import Mathlib.Algebra.GroupWithZero.Nat
import Mathlib.Logic.Function.Basic
import Mathlib.Data.List.Nodup

/-!
# OperatingSystem.Lib.Ring

Ring buffers: `n` slots filled in turn, item `i` of a sequence going to slot
`i % n`.  The slots then hold the last `n` items (`Holds.mem_window`), and the
one that is filled next holds the oldest of them (`Holds.oldest`).
-/

namespace Ring

variable {α : Type} {n : Nat} [NeZero n]

/-- Each of the last `n` items of `l` is in its slot. -/
def Holds (a : Fin n → α) (l : List α) : Prop :=
  ∀ i (h : i < l.length), l.length ≤ i + n → a (Fin.ofNat n i) = l[i]

/-- The last `n` items. -/
def window (n : Nat) (l : List α) : List α := l.drop (l.length - n)

theorem holds_nil (a : Fin n → α) : Holds a [] := fun i h => absurd h (Nat.not_lt_zero i)

/-- Two items of the window in one slot are the same item. -/
theorem eq_of_slot {i j k : Nat} (hi : k ≤ i + n) (hik : i < k) (hj : k ≤ j + n) (hjk : j < k)
    (h : Fin.ofNat n i = Fin.ofNat n j) : i = j := by
  have hmod : i % n = j % n := congrArg Fin.val h
  have hdiv := Nat.div_add_mod i n
  have hdiv' := Nat.div_add_mod j n
  have hclose : i < j + n ∧ j < i + n := by omega
  rw [← hdiv, ← hdiv', hmod]
  congr 1
  rcases Nat.lt_trichotomy (i / n) (j / n) with hlt | heq | hlt
  · have := Nat.mul_le_mul_left n (Nat.succ_le_of_lt hlt)
    rw [Nat.mul_succ] at this
    omega
  · rw [heq]
  · have := Nat.mul_le_mul_left n (Nat.succ_le_of_lt hlt)
    rw [Nat.mul_succ] at this
    omega

variable {a : Fin n → α} {l : List α}

/-- The next item goes to the next slot. -/
theorem Holds.push (h : Holds a l) (x : α) : Holds (Function.update a (Fin.ofNat n l.length) x) (l ++ [x]) := by
  intro i hi hwin
  rw [List.length_append, List.length_singleton] at hi hwin
  by_cases hlast : i = l.length
  · subst hlast
    simp
  · have hslot : Fin.ofNat n i ≠ Fin.ofNat n l.length := fun heq =>
      hlast (eq_of_slot hwin hi (by have := Nat.pos_of_neZero n; omega) (Nat.lt_succ_self _) heq)
    rw [Function.update_of_ne hslot, h i (by omega) (by omega), List.getElem_append_left]

/-- **The slots hold the window.** -/
theorem Holds.mem_window (h : Holds a l) (x : α) : x ∈ window n l ↔ ∃ f : Fin n, (f : Nat) < l.length ∧ a f = x := by
  rw [window, List.mem_drop_iff_getElem]
  constructor
  · rintro ⟨i, hi, rfl⟩
    refine ⟨Fin.ofNat n (l.length - n + i), ?_, h _ (by omega) (by omega)⟩
    exact Nat.lt_of_le_of_lt (Nat.mod_le _ _) (by omega)
  · rintro ⟨f, hf, rfl⟩
    -- the last item whose index is `f` modulo `n`
    have hpos := Nat.pos_of_neZero n
    have hdiv := Nat.div_add_mod (l.length - 1 - f) n
    have hmod := Nat.mod_lt (l.length - 1 - f) hpos
    obtain ⟨i, hi⟩ : ∃ i, i = f + n * ((l.length - 1 - f) / n) := ⟨_, rfl⟩
    have hslot : Fin.ofNat n i = f := Fin.ext (by rw [Fin.val_ofNat, hi, Nat.add_mul_mod_self_left, Nat.mod_eq_of_lt f.isLt])
    have hlt : i < l.length := by omega
    have hwin : l.length ≤ i + n := by omega
    refine ⟨i - (l.length - n), by omega, ?_⟩
    have hitem : a f = l[i] := by rw [← hslot, h i hlt hwin]
    rw [hitem]
    congr 1
    omega

/-- The slot to be filled next holds the oldest item. -/
theorem Holds.oldest (h : Holds a l) (hfull : n ≤ l.length) :
    window n l = a (Fin.ofNat n l.length) :: (window n l).tail := by
  have hpos := Nat.pos_of_neZero n
  have hslot : Fin.ofNat n (l.length - n) = Fin.ofNat n l.length :=
    Fin.ext (by rw [Fin.val_ofNat, Fin.val_ofNat, ← Nat.add_mod_right (l.length - n), Nat.sub_add_cancel hfull])
  rw [← hslot, h _ (by omega) (by omega), window, List.drop_eq_getElem_cons (by omega),
    List.tail_cons]

/-- Slots with different contents make a window without repetition. -/
theorem Holds.nodup (h : Holds a l) (hinj : ∀ f g : Fin n, (f : Nat) < l.length → (g : Nat) < l.length → a f = a g → f = g) :
    (window n l).Nodup := by
  rw [window, List.nodup_iff_injective_getElem]
  intro i j heq
  have hi := Nat.lt_of_lt_of_eq i.isLt List.length_drop
  have hj := Nat.lt_of_lt_of_eq j.isLt List.length_drop
  simp only [List.getElem_drop] at heq
  rw [← h _ (by omega) (by omega), ← h _ (by omega) (by omega)] at heq
  have hlt : ∀ k, k < l.length → (Fin.ofNat n k : Nat) < l.length := fun k hk => Nat.lt_of_le_of_lt (Nat.mod_le k n) hk
  have hslot := hinj _ _ (hlt _ (by omega)) (hlt _ (by omega)) heq
  have hij : l.length - n + i = l.length - n + j :=
    eq_of_slot (k := l.length) (by omega) (by omega) (by omega) (by omega) hslot
  exact Fin.ext (by omega)

end Ring
