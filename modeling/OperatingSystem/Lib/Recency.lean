import Mathlib.Data.List.Dedup
import Mathlib.Data.List.Induction
import Mathlib.Data.Finset.Card

/-!
# OperatingSystem.Lib.Recency

The recency list of a history of references, and the stack-distance law.

`recent h` lists the distinct elements of the history `h`, the latest
reference first.  The first `k` of them are what a cache of `k` entries with
least-recently-used replacement holds; `mem_take_recent_iff` says, in terms of
the history alone, when an element is among them: it was referenced, and fewer
than `k` distinct others were referenced since.
-/

namespace Recency

variable {α : Type _} [DecidableEq α]

/-- Move an element to the front. -/
def touch (x : α) (l : List α) : List α := x :: l.erase x

/-- The distinct elements of a history (oldest reference first), most recent first. -/
def recent (h : List α) : List α := h.foldl (fun l x => touch x l) []

@[simp] theorem recent_nil : recent ([] : List α) = [] := rfl

@[simp] theorem recent_concat (h : List α) (x : α) : recent (h ++ [x]) = touch x (recent h) := by
  simp [recent]

theorem nodup_touch {l : List α} (hl : l.Nodup) (x : α) : (touch x l).Nodup :=
  List.nodup_cons.mpr ⟨hl.not_mem_erase, hl.erase x⟩

theorem nodup_recent (h : List α) : (recent h).Nodup := by
  induction h using List.reverseRecOn with
  | nil => simp
  | append_singleton h x ih => rw [recent_concat]; exact nodup_touch ih x

theorem mem_touch {l : List α} {x y : α} : y ∈ touch x l ↔ y = x ∨ y ∈ l := by
  rw [touch, List.mem_cons]
  by_cases hyx : y = x
  · simp [hyx]
  · simp [hyx, List.mem_erase_of_ne hyx]

theorem mem_recent {h : List α} {x : α} : x ∈ recent h ↔ x ∈ h := by
  induction h using List.reverseRecOn with
  | nil => simp
  | append_singleton h y ih => rw [recent_concat, mem_touch, ih, List.mem_append,
      List.mem_singleton, or_comm]

/-- The recency list has one element for each distinct one of the history. -/
theorem length_recent (h : List α) : (recent h).length = h.toFinset.card := by
  rw [← List.toFinset_card_of_nodup (nodup_recent h)]
  congr 1
  ext x
  simp [mem_recent]

/-- Erasing commutes with a map that is injective on the list. -/
theorem map_erase_of_inj {β : Type _} [DecidableEq β] (g : α → β) {l : List α} {x : α}
    (hinj : ∀ y ∈ l, g y = g x → y = x) : (l.erase x).map g = (l.map g).erase (g x) := by
  induction l with
  | nil => rfl
  | cons y l ih =>
      by_cases hyx : y = x
      · simp [hyx]
      · have hg : g y ≠ g x := fun h => hyx (hinj y List.mem_cons_self h)
        rw [List.erase_cons_tail (by simpa using hyx), List.map_cons, List.map_cons,
          List.erase_cons_tail (by simpa using hg), ih fun z hz => hinj z (List.mem_cons_of_mem y hz)]

theorem map_touch_of_inj {β : Type _} [DecidableEq β] (g : α → β) {l : List α} {x : α}
    (hinj : ∀ y ∈ l, g y = g x → y = x) : (touch x l).map g = touch (g x) (l.map g) := by
  rw [touch, touch, List.map_cons, map_erase_of_inj g hinj]

/-! ## A bounded cache -/

/-- A reference to a cached element of a bounded cache moves it to the front. -/
theorem take_touch_of_mem {l : List α} {x : α} {k : Nat} (hx : x ∈ l.take k) :
    (touch x l).take k = touch x (l.take k) := by
  obtain ⟨u, v, hu, hnot⟩ := List.eq_append_cons_of_mem hx
  have hl : l = u ++ x :: (v ++ l.drop k) := by
    rw [← List.cons_append, ← List.append_assoc, ← hu, List.take_append_drop]
  have herase : l.erase x = u ++ (v ++ l.drop k) := by
    conv_lhs => rw [hl]
    rw [List.erase_append_right _ hnot, List.erase_cons_head]
  obtain ⟨k, rfl⟩ : ∃ m, k = m + 1 := by
    cases k with
    | zero => simp at hx
    | succ m => exact ⟨m, rfl⟩
  have hmin : u.length + 1 + v.length = min (k + 1) l.length := by
    have := congrArg List.length hu
    simp only [List.length_take, List.length_append, List.length_cons] at this
    omega
  rw [touch, touch, List.take_succ_cons, herase, hu, List.erase_append_right _ hnot,
    List.erase_cons_head, ← List.append_assoc]
  by_cases hk : k + 1 ≤ l.length
  · rw [List.take_append_of_le_length (by simp; omega), List.take_of_length_le (by simp; omega)]
  · rw [List.drop_of_length_le (by omega), List.append_nil, List.take_of_length_le (by simp; omega)]

/-- A reference to an element that is not cached brings it in and drops the
oldest of a full cache. -/
theorem take_touch_of_not_mem {l : List α} {x : α} {k : Nat} (hx : x ∉ l.take (k + 1)) :
    (touch x l).take (k + 1) = x :: l.take k := by
  have herase : l.erase x = l.take (k + 1) ++ (l.drop (k + 1)).erase x := by
    conv_lhs => rw [← List.take_append_drop (k + 1) l]
    exact List.erase_append_right _ hx
  rw [touch, List.take_succ_cons, herase]
  by_cases hk : k + 1 ≤ l.length
  · rw [List.take_append_of_le_length (by simp; omega), List.take_take, Nat.min_eq_left (by omega)]
  · rw [List.drop_of_length_le (by omega), List.erase_nil, List.append_nil, List.take_take,
      Nat.min_eq_left (by omega)]

/-- What a miss drops from a full cache: the oldest element, and no other. -/
theorem not_mem_take_touch_iff {l : List α} {x y : α} {k : Nat} (hl : l.Nodup)
    (hx : x ∉ l.take (k + 1)) (hy : y ∈ l.take (k + 1)) :
    y ∉ (touch x l).take (k + 1) ↔ l[k]? = some y := by
  have hyx : y ≠ x := fun h => hx (h ▸ hy)
  have hsplit : l.take (k + 1) = l.take k ++ (l[k]?).toList := List.take_add_one
  have hdisj : ∀ z ∈ l.take k, l[k]? ≠ some z := by
    intro z hz hlast
    have hnd := hl.sublist (List.take_sublist (k + 1) l)
    rw [hsplit, hlast] at hnd
    exact (List.nodup_append.mp hnd).2.2 z hz z (by simp) rfl
  rw [take_touch_of_not_mem hx, List.mem_cons, not_or]
  rw [hsplit, List.mem_append, Option.mem_toList] at hy
  constructor
  · rintro ⟨-, hnot⟩
    exact hy.resolve_left hnot
  · intro hlast
    exact ⟨hyx, fun hmem => hdisj y hmem hlast⟩

/-! ## The stack-distance law -/

/-- After the last reference to `x`, the elements listed before `x` are the
distinct ones referenced since. -/
theorem recent_append_cons (h t : List α) {x : α} (hx : x ∉ t) :
    ∃ l, recent (h ++ x :: t) = recent t ++ x :: l := by
  induction t using List.reverseRecOn with
  | nil => exact ⟨(recent h).erase x, by rw [recent_concat]; rfl⟩
  | append_singleton t y ih =>
      simp only [List.mem_append, List.mem_singleton, not_or] at hx
      obtain ⟨l, hl⟩ := ih hx.1
      rw [← List.cons_append, ← List.append_assoc, recent_concat, recent_concat, hl]
      by_cases hy : y ∈ recent t
      · exact ⟨l, by simp [touch, List.erase_append_left _ hy]⟩
      · refine ⟨l.erase y, ?_⟩
        rw [touch, touch, List.erase_append_right _ hy, List.erase_of_not_mem hy,
          List.erase_cons_tail (by simpa using hx.2), List.cons_append]

/-- **Stack distance**: `x` is among the `k` most recent elements of a history
iff it was referenced and fewer than `k` distinct other elements were since its
last reference. -/
theorem mem_take_recent_iff (hist : List α) (x : α) (k : Nat) :
    x ∈ (recent hist).take k ↔
      ∃ h t, hist = h ++ x :: t ∧ x ∉ t ∧ t.toFinset.card < k := by
  constructor
  · intro hmem
    have hx : x ∈ hist := mem_recent.mp (List.mem_of_mem_take hmem)
    obtain ⟨t, h, hrev, hnot⟩ := List.eq_append_cons_of_mem (List.mem_reverse.mpr hx)
    have hsplit : hist = h.reverse ++ x :: t.reverse := by
      rw [← List.reverse_reverse hist, hrev]
      simp
    have hnot' : x ∉ t.reverse := fun hm => hnot (List.mem_reverse.mp hm)
    refine ⟨h.reverse, t.reverse, hsplit, hnot', ?_⟩
    obtain ⟨l, hl⟩ := recent_append_cons h.reverse t.reverse hnot'
    by_contra hge
    rw [hsplit, hl, List.take_append_of_le_length (by rw [length_recent]; omega)] at hmem
    exact hnot' (mem_recent.mp (List.mem_of_mem_take hmem))
  · rintro ⟨h, t, rfl, hnot, hlt⟩
    obtain ⟨l, hl⟩ := recent_append_cons h t hnot
    rw [hl, List.take_append, List.mem_append]
    right
    obtain ⟨m, hm⟩ : ∃ m, k - (recent t).length = m + 1 :=
      ⟨k - (recent t).length - 1, by rw [length_recent]; omega⟩
    rw [hm]
    simp

end Recency
