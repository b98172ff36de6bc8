import Mathlib.Data.List.Infix

/-!
# OperatingSystem.Lib.Search

The first occurrence of one list in another.  `find needle s` is `s` from there on;
`find_eq_some_iff` says that no occurrence starts earlier.
-/

namespace Search

variable {α : Type*} [DecidableEq α]

/-- The list from the first occurrence of `needle` on. -/
def find (needle : List α) : List α → Option (List α)
  | [] => if needle = [] then some [] else none
  | c :: s => if needle <+: c :: s then some (c :: s) else find needle s

variable {needle s t a b : List α}

theorem find_of_prefix (h : needle <+: s) : find needle s = some s := by
  cases s with
  | nil => exact if_pos (List.prefix_nil.mp h)
  | cons c s => exact if_pos h

theorem find_cons_of_not_prefix {c : α} (h : ¬ needle <+: c :: s) : find needle (c :: s) = find needle s := if_neg h

/-- An occurrence is found, at the latest where it is. -/
theorem exists_find (h : needle <+: t) (a : List α) : ∃ b u, find needle (a ++ t) = some u ∧ a ++ t = b ++ u ∧ b.length ≤ a.length := by
  induction a with
  | nil => exact ⟨[], t, find_of_prefix h, rfl, Nat.le_refl 0⟩
  | cons c a ih =>
      by_cases hc : needle <+: c :: (a ++ t)
      · exact ⟨[], c :: (a ++ t), find_of_prefix hc, rfl, Nat.zero_le _⟩
      · obtain ⟨b, u, hfind, hsplit, hle⟩ := ih
        refine ⟨c :: b, u, ?_, by rw [List.cons_append, hsplit]; rfl, Nat.succ_le_succ hle⟩
        rw [List.cons_append, find_cons_of_not_prefix hc, hfind]

/-- What is found is an occurrence. -/
theorem find_some (h : find needle s = some t) : needle <+: t ∧ t <:+ s := by
  induction s with
  | nil =>
      rw [find] at h
      split at h
      · next hnil =>
          cases h
          exact ⟨by rw [hnil], List.suffix_rfl⟩
      · contradiction
  | cons c s ih =>
      rw [find] at h
      split at h
      · next hc =>
          cases h
          exact ⟨hc, List.suffix_rfl⟩
      · obtain ⟨hpre, hsuf⟩ := ih h
        exact ⟨hpre, hsuf.trans (List.suffix_cons c s)⟩

/-- **The first occurrence**: none starts before it. -/
theorem find_eq_some_iff : find needle (a ++ t) = some t ↔
    needle <+: t ∧ ∀ b u, a ++ t = b ++ u → needle <+: u → a.length ≤ b.length := by
  constructor
  · intro h
    refine ⟨(find_some h).1, fun b u hsplit hu => ?_⟩
    obtain ⟨b', u', hfind, hsplit', hle⟩ := exists_find hu b
    rw [← hsplit, h] at hfind
    cases hfind
    have hlen := congrArg List.length (hsplit.trans hsplit')
    rw [← hsplit] at hsplit'
    have hlen' := congrArg List.length hsplit'
    simp only [List.length_append] at hlen hlen'
    omega
  · rintro ⟨ht, hfirst⟩
    obtain ⟨b, u, hfind, hsplit, hle⟩ := exists_find ht a
    have hge := hfirst b u hsplit (find_some hfind).1
    obtain ⟨-, rfl⟩ := List.append_inj hsplit (by omega)
    exact hfind

/-- Nothing is found where there is no occurrence. -/
theorem find_eq_none_iff : find needle s = none ↔ ∀ b u, s = b ++ u → ¬ needle <+: u := by
  constructor
  · rintro h b u rfl hu
    obtain ⟨b', u', hfind, -⟩ := exists_find hu b
    rw [h] at hfind
    contradiction
  · intro h
    cases hfind : find needle s with
    | none => rfl
    | some t =>
        obtain ⟨hpre, b, rfl⟩ := find_some hfind
        exact absurd hpre (h b t rfl)

section First

variable (h : find needle (a ++ t) = some t)

include h

/-- What ends before the first occurrence ends has none. -/
theorem find_eq_none_of_prefix (hs : s <+: a ++ t) (hlen : s.length < a.length + needle.length) : find needle s = none := by
  rw [find_eq_none_iff]
  rintro b u rfl hu
  obtain ⟨v, hv⟩ := hs
  have hle := (find_eq_some_iff.mp h).2 b (u ++ v) (by rw [← hv, List.append_assoc]) (hu.trans (List.prefix_append u v))
  have hul := hu.length_le
  rw [List.length_append] at hlen
  omega

/-- The first occurrence is found when what comes behind it is cut off. -/
theorem find_of_prefix_append (hs : a ++ s <+: a ++ t) (hneedle : needle <+: s) : find needle (a ++ s) = some s := by
  refine find_eq_some_iff.mpr ⟨hneedle, fun b u hsplit hu => ?_⟩
  obtain ⟨v, hv⟩ := hs
  exact (find_eq_some_iff.mp h).2 b (u ++ v) (by rw [← hv, hsplit, List.append_assoc]) (hu.trans (List.prefix_append u v))

end First

/-- The first occurrence is found when what comes before it is cut off. -/
theorem find_of_append (h : find needle (b ++ a ++ t) = some t) : find needle (a ++ t) = some t := by
  obtain ⟨ht, hfirst⟩ := find_eq_some_iff.mp h
  refine find_eq_some_iff.mpr ⟨ht, fun c u hsplit hu => ?_⟩
  have hle := hfirst (b ++ c) u (by rw [List.append_assoc, hsplit, List.append_assoc]) hu
  rw [List.length_append, List.length_append] at hle
  omega

end Search
