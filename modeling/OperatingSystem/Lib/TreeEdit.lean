import OperatingSystem.Lib.Splice
import OperatingSystem.Lib.Tree

/-!
# OperatingSystem.Lib.TreeEdit

Trees that do not only grow.  A file gets another text (`write`), or a node is taken
away with its entry in the current directory (`remove`).  Writing keeps a tree well
formed, and so does taking a node away that no other entry names (`Wf.remove`).
-/

namespace DirTree

open Splice (takeOut)

variable {ν α β : Type*}

/-! ## Taking an entry out of a directory -/

section Entry

variable {es : List (α × ν)} {p : Nat} {e x : α × ν}

/-- A list around the element at place `p`. -/
theorem split_of_getElem? (h : es[p]? = some e) : ∃ a b, es = a ++ e :: b ∧ (takeOut es p).Perm (a ++ b) := by
  obtain ⟨hp, rfl⟩ := List.getElem?_eq_some_iff.mp h
  have hes : es = es.take p ++ es[p] :: es.drop (p + 1) := by
    rw [← List.drop_eq_getElem_cons hp, List.take_append_drop]
  have hlen : (es.take p).length = p := List.length_take_of_le (by omega)
  refine ⟨_, _, hes, ?_⟩
  have hperm := Splice.takeOut_perm (es.take p) (es.drop (p + 1)) es[p]
  rwa [← hes, hlen] at hperm

theorem nodup_takeOut (hnodup : (es.map Prod.fst).Nodup) (h : es[p]? = some e) :
    ((takeOut es p).map Prod.fst).Nodup := by
  obtain ⟨a, b, rfl, hperm⟩ := split_of_getElem? h
  rw [(hperm.map Prod.fst).nodup_iff]
  exact hnodup.sublist (((List.sublist_cons_self e b).append_left a).map Prod.fst)

/-- The entries that are left are those of other names. -/
theorem mem_takeOut (hnodup : (es.map Prod.fst).Nodup) (h : es[p]? = some e) :
    x ∈ takeOut es p ↔ x ∈ es ∧ x.1 ≠ e.1 := by
  obtain ⟨a, b, rfl, hperm⟩ := split_of_getElem? h
  rw [List.map_append, List.map_cons, List.nodup_middle, List.nodup_cons, ← List.map_append] at hnodup
  rw [hperm.mem_iff]
  have hmem : x ∈ a ++ e :: b ↔ x = e ∨ x ∈ a ++ b := by
    rw [List.mem_append, List.mem_cons, List.mem_append, or_left_comm]
  have hne : x ∈ a ++ b → x.1 ≠ e.1 := fun hx heq => hnodup.1 (heq ▸ List.mem_map_of_mem hx)
  rw [hmem]
  constructor
  · exact fun hx => ⟨Or.inr hx, hne hx⟩
  · rintro ⟨rfl | hx, hxe⟩
    · exact absurd rfl hxe
    · exact hx

end Entry

/-! ## Changes -/

section Change

variable [DecidableEq ν]

/-- The tree where file `i` holds `w`. -/
def write (t : DirTree ν α β) (i : ν) (w : List β) : DirTree ν α β :=
  { t with text := Function.update t.text i (some w) }

/-- The tree without node `i`, whose entry was at place `p` of the current directory. -/
def remove (t : DirTree ν α β) (es : List (α × ν)) (p : Nat) (i : ν) : DirTree ν α β where
  cur := t.cur
  dirs := Function.update (Function.update t.dirs t.cur (some (takeOut es p))) i none
  text := Function.update t.text i none

variable {t : DirTree ν α β} {dot dotdot name : α} {i j : ν} {es : List (α × ν)} {p : Nat}

theorem write_dirs : (t.write i w).dirs = t.dirs := rfl

theorem write_text_self : (t.write i w).text i = some w := Function.update_self _ _ _

theorem write_text_of_ne (hji : j ≠ i) : (t.write i w).text j = t.text j := Function.update_of_ne hji _ _

theorem write_fresh_iff (hi : t.text i = some v) : (t.write i w).Fresh j ↔ t.Fresh j := by
  by_cases hji : j = i
  · subst hji
    refine iff_of_false (fun h => ?_) fun h => h.ne_file hi rfl
    exact h.ne_file write_text_self rfl
  · have htext : (t.write i w).text j = t.text j := write_text_of_ne hji
    exact ⟨fun h => ⟨h.noDir, htext ▸ h.noText⟩, fun h => ⟨h.noDir, htext.trans h.noText⟩⟩

/-- **Writing keeps a tree well formed.** -/
theorem Wf.write (hwf : t.Wf dot dotdot) (hi : t.text i = some v) (w : List β) : (t.write i w).Wf dot dotdot where
  cur := hwf.cur
  distinct := hwf.distinct
  named := fun c es name j hc hmem hfresh => hwf.named c es name j hc hmem ((write_fresh_iff hi).mp hfresh)
  parent := hwf.parent

theorem remove_dirs_self : (t.remove es p i).dirs i = none := Function.update_self _ _ _

theorem remove_dirs_of_ne (hji : j ≠ i) :
    (t.remove es p i).dirs j = Function.update t.dirs t.cur (some (takeOut es p)) j := Function.update_of_ne hji _ _

theorem remove_text_of_ne (hji : j ≠ i) : (t.remove es p i).text j = t.text j := Function.update_of_ne hji _ _

theorem remove_dirs_cur (hcur : i ≠ t.cur) : (t.remove es p i).dirs t.cur = some (takeOut es p) := by
  rw [remove_dirs_of_ne hcur.symm, Function.update_self]

/-- A directory that is left: the current one without its entry, or another as it
was. -/
theorem remove_dirs_cases (h : (t.remove es p i).dirs c = some es') :
    c ≠ i ∧ ((c = t.cur ∧ es' = takeOut es p) ∨ (c ≠ t.cur ∧ t.dirs c = some es')) := by
  by_cases hci : c = i
  · rw [hci, remove_dirs_self] at h
    contradiction
  · rw [remove_dirs_of_ne hci] at h
    obtain ⟨hc, rfl⟩ | ⟨hc, h⟩ := update_some_cases h
    · exact ⟨hci, Or.inl ⟨hc, rfl⟩⟩
    · exact ⟨hci, Or.inr ⟨hc, h⟩⟩

section

variable (hwf : t.Wf dot dotdot) (dir : t.dirs t.cur = some es) (entry : es[p]? = some (name, i))

include hwf dir entry

/-- An entry that is left is an old one, of another name if the directory is the
current one. -/
theorem Wf.remove_mem (h : (t.remove es p i).dirs c = some es') {e : α × ν} :
    ∃ es₀, t.dirs c = some es₀ ∧ (e ∈ es' ↔ e ∈ es₀ ∧ (c = t.cur → e.1 ≠ name)) := by
  obtain ⟨-, ⟨rfl, rfl⟩ | ⟨hc, h⟩⟩ := remove_dirs_cases h
  · have hmem : e ∈ takeOut es p ↔ e ∈ es ∧ e.1 ≠ name := mem_takeOut (hwf.distinct _ _ dir) entry
    exact ⟨es, dir, hmem.trans (and_congr_right fun _ => ⟨fun hne _ => hne, fun hne => hne rfl⟩)⟩
  · exact ⟨es', h, by simp [hc]⟩

/-- **Taking a node away keeps a tree well formed**, if no other entry names it but
in itself. -/
theorem Wf.remove (hname : name ≠ dotdot) (hcur : i ≠ t.cur)
    (honly : ∀ c es' a, t.dirs c = some es' → (a, i) ∈ es' → c = i ∨ (c = t.cur ∧ a = name)) :
    (t.remove es p i).Wf dot dotdot := by
  refine ⟨Option.isSome_iff_exists.mpr ⟨_, remove_dirs_cur hcur⟩, fun c es' hc => ?_,
    fun c es' a j hc hmem hfresh => ?_, fun c es' a j es'' hc hmem hdot hdotdot hj => ?_⟩
  · obtain ⟨-, ⟨rfl, rfl⟩ | ⟨-, hc⟩⟩ := remove_dirs_cases hc
    · exact nodup_takeOut (hwf.distinct _ _ dir) entry
    · exact hwf.distinct c es' hc
  · obtain ⟨es₀, hes₀, hiff⟩ := hwf.remove_mem dir entry hc
    obtain ⟨hmem₀, hne⟩ := hiff.mp hmem
    by_cases hji : j = i
    · subst hji
      obtain hci | ⟨hcc, ha⟩ := honly c es₀ a hes₀ hmem₀
      · exact (remove_dirs_cases hc).1 hci
      · exact hne hcc ha
    · refine hwf.named c es₀ a j hes₀ hmem₀ ⟨?_, ?_⟩
      · by_cases hjc : j = t.cur
        · exact absurd hfresh.noDir (by rw [hjc, remove_dirs_cur hcur]; simp)
        · have hdir := hfresh.noDir
          rwa [remove_dirs_of_ne hji, Function.update_of_ne hjc] at hdir
      · have htext := hfresh.noText
        rwa [remove_text_of_ne hji] at htext
  · obtain ⟨es₀, hes₀, hiff⟩ := hwf.remove_mem dir entry hc
    obtain ⟨hmem₀, -⟩ := hiff.mp hmem
    obtain ⟨es₁, hes₁, hiff₁⟩ := hwf.remove_mem dir entry hj
    exact hiff₁.mpr ⟨hwf.parent c es₀ a j es₁ hes₀ hmem₀ hdot hdotdot hes₁, fun _ => hname.symm⟩

end

end Change

end DirTree
