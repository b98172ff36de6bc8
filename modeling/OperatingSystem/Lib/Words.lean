import Mathlib.Algebra.Order.BigOperators.Group.List
import Mathlib.Data.List.Chain
import Mathlib.Data.List.TakeWhile

/-!
# OperatingSystem.Lib.Words

Words between separators.  The words of a list are its maximal nonempty runs of
elements that are not separators.  There is at most one more of them than there
are separators, and exactly one more when no separator is wasted
(`length_words_eq_iff`): each stands alone between two words.  The words of a
prefix are words of the list, up to the one where it is cut (`words_prefix`).
-/

namespace Words

variable {α : Type} {sep : α → Bool} {l : List α}

/-- The maximal nonempty runs without a separator. -/
def words (sep : α → Bool) (l : List α) : List (List α) := (l.splitOnP sep).filter (!·.isEmpty)

/-- Every separator stands alone between two words. -/
structure Spaced (sep : α → Bool) (l : List α) : Prop where
  head : ∀ a ∈ l.head?, sep a = false
  last : ∀ a ∈ l.getLast?, sep a = false
  pairs : l.IsChain fun a b => ¬ (sep a = true ∧ sep b = true)

theorem length_splitOnP (sep : α → Bool) (l : List α) : (l.splitOnP sep).length = l.countP sep + 1 := by
  induction l with
  | nil => rfl
  | cons a l ih =>
      rw [List.splitOnP_cons_eq_if_modifyHead, List.countP_cons]
      by_cases ha : sep a = true
      · simp [ha, ih]
      · simp [ha, ih]

/-- The pieces hold the elements that are not separators. -/
theorem flatten_splitOnP (sep : α → Bool) (l : List α) : (l.splitOnP sep).flatten = l.filter fun a => !sep a := by
  induction l with
  | nil => rfl
  | cons a l ih =>
      rw [List.splitOnP_cons_eq_if_modifyHead]
      by_cases ha : sep a = true
      · simp [ha, ih]
      · obtain ⟨w, ws, hw⟩ := List.exists_cons_of_ne_nil (List.splitOnP_ne_nil sep l)
        rw [hw] at ih ⊢
        simp [ha, ← ih]

theorem length_words_le_chars (sep : α → Bool) (l : List α) : (words sep l).length ≤ l.countP fun a => !sep a := by
  have hlen : (l.countP fun a => !sep a) = ((words sep l).map List.length).sum := by
    rw [List.countP_eq_length_filter, ← flatten_splitOnP, words, ← List.length_flatten, List.flatten_filter_not_isEmpty]
  rw [hlen, ← List.length_map (f := List.length)]
  refine List.length_le_sum_of_one_le _ fun n hn => ?_
  obtain ⟨w, hw, rfl⟩ := List.mem_map.mp hn
  have hne : w ≠ [] := by simpa [words] using (List.mem_filter.mp hw).2
  exact List.length_pos_iff.mpr hne

/-! ## Counting words by their separators -/

/-- The first piece grows by an element that is not a separator, and is cut off by one that is. -/
theorem pieces_ne_nil_cons (a : α) (l : List α) : (∀ w ∈ (a :: l).splitOnP sep, w ≠ []) ↔
    sep a = false ∧ ∀ w ∈ (l.splitOnP sep).tail, w ≠ [] := by
  obtain ⟨w, ws, hw⟩ := List.exists_cons_of_ne_nil (List.splitOnP_ne_nil sep l)
  rw [List.splitOnP_cons_eq_if_modifyHead, hw]
  by_cases ha : sep a = true <;> simp [ha]

theorem tail_ne_nil_cons (a : α) (l : List α) : (∀ w ∈ ((a :: l).splitOnP sep).tail, w ≠ []) ↔
    (sep a = true → ∀ w ∈ l.splitOnP sep, w ≠ []) ∧ ∀ w ∈ (l.splitOnP sep).tail, w ≠ [] := by
  obtain ⟨w, ws, hw⟩ := List.exists_cons_of_ne_nil (List.splitOnP_ne_nil sep l)
  rw [List.splitOnP_cons_eq_if_modifyHead, hw]
  by_cases ha : sep a = true
  · simp only [ha, if_true, List.tail_cons, forall_const]
    exact ⟨fun h => ⟨h, fun v hv => h v (List.mem_cons_of_mem w hv)⟩, And.left⟩
  · simp [ha]

/-- No piece behind the first is empty: no separator follows another, and none is last. -/
theorem tail_ne_nil_iff (l : List α) : (∀ w ∈ (l.splitOnP sep).tail, w ≠ []) ↔
    (∀ a ∈ l.getLast?, sep a = false) ∧ l.IsChain fun a b => ¬ (sep a = true ∧ sep b = true) := by
  induction l with
  | nil => simp
  | cons a l ih =>
      rw [tail_ne_nil_cons, ih]
      cases l with
      | nil => simp
      | cons b l =>
          rw [pieces_ne_nil_cons, List.isChain_cons_cons, List.getLast?_cons_cons]
          constructor
          · rintro ⟨hab, hlast, hpairs⟩
            refine ⟨hlast, fun h => ?_, hpairs⟩
            rw [(hab h.1).1] at h
            exact Bool.false_ne_true h.2
          · rintro ⟨hlast, hab, hpairs⟩
            have htail := ((tail_ne_nil_cons b l).mp (ih.mpr ⟨hlast, hpairs⟩)).2
            exact ⟨fun ha => ⟨Bool.eq_false_iff.mpr fun hb => hab ⟨ha, hb⟩, htail⟩, hlast, hpairs⟩

/-- As many words as there can be. -/
theorem length_words_eq_iff : (words sep l).length = l.countP sep + 1 ↔ l ≠ [] ∧ Spaced sep l := by
  rw [← length_splitOnP, words, List.length_filter_eq_length_iff]
  cases l with
  | nil => simp
  | cons a l =>
      have hhead : (∀ b ∈ (a :: l).head?, sep b = false) ↔ sep a = false := by simp
      have htail := (@tail_ne_nil_cons α sep a l).symm.trans (tail_ne_nil_iff (a :: l))
      constructor
      · intro h
        obtain ⟨ha, hl⟩ := (pieces_ne_nil_cons a l).mp fun w hw => by simpa using h w hw
        obtain ⟨hlast, hpairs⟩ := htail.mp ⟨fun ha' => absurd ha' (by simp [ha]), hl⟩
        exact ⟨List.cons_ne_nil a l, hhead.mpr ha, hlast, hpairs⟩
      · rintro ⟨-, hs⟩
        have hall := (pieces_ne_nil_cons a l).mpr ⟨hhead.mp hs.head, (htail.mpr ⟨hs.last, hs.pairs⟩).2⟩
        exact fun w hw => by simpa using hall w hw

/-! ## Words of parts -/

theorem words_cons_sep {a : α} (ha : sep a = true) (l : List α) : words sep (a :: l) = words sep l := by
  rw [words, List.splitOnP_cons_eq_if_modifyHead, if_pos ha]
  simp [words]

theorem words_append_cons (l : List α) {a : α} (ha : sep a = true) (l' : List α) :
    words sep (l ++ a :: l') = words sep l ++ words sep (a :: l') := by
  rw [words_cons_sep ha, words, List.splitOnP_append_cons l l' ha, List.filter_append]
  rfl

/-- A word. -/
theorem words_of_forall (hne : l ≠ []) (h : ∀ a ∈ l, sep a = false) : words sep l = [l] := by
  rw [words, List.splitOnP_eq_singleton h]
  simp [hne]

theorem words_dropWhile (l : List α) : words sep (l.dropWhile sep) = words sep l := by
  induction l with
  | nil => rfl
  | cons a l ih =>
      by_cases ha : sep a = true
      · rw [List.dropWhile_cons_of_pos ha, ih, words_cons_sep ha]
      · rw [List.dropWhile_cons_of_neg ha]

/-- **The first word**, and the words behind it. -/
theorem words_eq (sep : α → Bool) (l : List α) : words sep l = if l.dropWhile sep = [] then [] else
    (l.dropWhile sep).takeWhile (fun a => !sep a) :: words sep ((l.dropWhile sep).dropWhile fun a => !sep a) := by
  split
  · next hnil => rw [← words_dropWhile, hnil]; rfl
  · next hne =>
      have hsplit := List.takeWhile_append_dropWhile (p := fun a => !sep a) (l := l.dropWhile sep)
      have hword : ∀ a ∈ (l.dropWhile sep).takeWhile (fun a => !sep a), sep a = false := fun a ha => by
        simpa using List.mem_takeWhile_imp ha
      have hpos : (l.dropWhile sep).takeWhile (fun a => !sep a) ≠ [] := by
        obtain ⟨a, t, ht⟩ := List.exists_cons_of_ne_nil hne
        have ha : sep a = false := by
          have hhead := List.head?_dropWhile_not sep l
          rw [ht] at hhead
          simpa using hhead
        rw [ht, List.takeWhile_cons_of_pos (by simpa using ha)]
        exact List.cons_ne_nil _ _
      rw [← words_dropWhile]
      cases hrest : (l.dropWhile sep).dropWhile fun a => !sep a with
      | nil =>
          rw [hrest, List.append_nil] at hsplit
          conv_lhs => rw [← hsplit, words_of_forall hpos hword]
          rfl
      | cons a t =>
          have ha : sep a = true := by
            have hhead := List.head?_dropWhile_not (fun a => !sep a) (l.dropWhile sep)
            rw [hrest] at hhead
            simpa using hhead
          conv_lhs => rw [← hsplit, hrest, words_append_cons _ ha, words_of_forall hpos hword]
          rfl

/-- What a word consists of. -/
theorem ne_nil_of_mem_words {w : List α} (h : w ∈ words sep l) : w ≠ [] ∧ ∀ a ∈ w, a ∈ l ∧ sep a = false := by
  obtain ⟨hmem, hne⟩ := List.mem_filter.mp h
  refine ⟨by simpa using hne, fun a ha => ?_⟩
  have hflat : a ∈ (l.splitOnP sep).flatten := List.mem_flatten.mpr ⟨w, hmem, ha⟩
  rw [flatten_splitOnP, List.mem_filter] at hflat
  simpa using hflat

/-- **Words that are joined** are found again. -/
theorem words_intercalate {a : α} (ha : sep a = true) (ws : List (List α)) (h : ∀ w ∈ ws, w ≠ [] ∧ ∀ b ∈ w, sep b = false) :
    words sep ([a].intercalate ws) = ws := by
  induction ws with
  | nil => rfl
  | cons w ws ih =>
      obtain ⟨hne, hw⟩ := h w List.mem_cons_self
      cases ws with
      | nil => rw [List.intercalate_singleton, words_of_forall hne hw]
      | cons w' ws =>
          rw [List.intercalate_cons_cons, List.append_assoc, List.singleton_append, words_append_cons w ha,
            words_cons_sep ha, words_of_forall hne hw, ih fun v hv => h v (List.mem_cons_of_mem w hv)]
          rfl

theorem mem_intercalate {a b : α} {ws : List (List α)} (h : b ∈ [a].intercalate ws) : b = a ∨ ∃ w ∈ ws, b ∈ w := by
  induction ws with
  | nil => exact absurd h (by simp)
  | cons w ws ih =>
      cases ws with
      | nil =>
          rw [List.intercalate_singleton] at h
          exact Or.inr ⟨w, List.mem_cons_self, h⟩
      | cons w' ws =>
          rw [List.intercalate_cons_cons, List.append_assoc, List.singleton_append, List.mem_append, List.mem_cons] at h
          obtain h | h | h := h
          · exact Or.inr ⟨w, List.mem_cons_self, h⟩
          · exact Or.inl h
          · obtain h | ⟨v, hv, hb⟩ := ih h
            · exact Or.inl h
            · exact Or.inr ⟨v, List.mem_cons_of_mem w hv, hb⟩

/-- Where a list is cut, the last piece of the first part and the first of the second are one. -/
theorem splitOnP_append (l l' : List α) : ∃ init w w' tail, l.splitOnP sep = init ++ [w] ∧
    l'.splitOnP sep = w' :: tail ∧ (l ++ l').splitOnP sep = init ++ (w ++ w') :: tail := by
  induction l with
  | nil =>
      obtain ⟨w', tail, hw'⟩ := List.exists_cons_of_ne_nil (List.splitOnP_ne_nil sep l')
      exact ⟨[], [], w', tail, rfl, hw', by simpa using hw'⟩
  | cons a l ih =>
      obtain ⟨init, w, w', tail, hl, hl', happ⟩ := ih
      rw [List.cons_append, List.splitOnP_cons_eq_if_modifyHead, List.splitOnP_cons_eq_if_modifyHead, hl, happ]
      by_cases ha : sep a = true
      · exact ⟨[] :: init, w, w', tail, by simp [ha], hl', by simp [ha]⟩
      · cases init with
        | nil => exact ⟨[], a :: w, w', tail, by simp [ha], hl', by simp [ha]⟩
        | cons v init => exact ⟨(a :: v) :: init, w, w', tail, by simp [ha], hl', by simp [ha]⟩

/-- The words of a prefix are words of the list, but for the last, which may be cut. -/
theorem words_prefix {pre : List α} (h : pre <+: l) :
    ∃ ws, ws <+: words sep l ∧ (words sep pre = ws ∨ ∃ w, words sep pre = ws ++ [w]) := by
  obtain ⟨rest, rfl⟩ := h
  obtain ⟨init, w, w', tail, hpre, -, happ⟩ := @splitOnP_append α sep pre rest
  refine ⟨init.filter (!·.isEmpty), ?_, ?_⟩
  · rw [words, happ, List.filter_append]
    exact List.prefix_append _ _
  · rw [words, hpre, List.filter_append]
    by_cases hw : w = []
    · exact .inl (by simp [hw])
    · exact .inr ⟨w, by simp [hw]⟩

end Words
