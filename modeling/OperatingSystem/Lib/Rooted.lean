import Mathlib.Logic.Relation
import Mathlib.Logic.ExistsUnique

/-!
# OperatingSystem.Lib.Rooted

Graphs whose nodes hang on a root by named edges: an edge leads from a node in
use to a node in use, no node has two edges that lead to it, none leads to the
root, and every node can be reached from the root.  A new leaf and the removal of
a leaf keep a graph rooted (`Rooted.add`, `Rooted.remove`).
-/

section

variable {ν α : Type*}

/-- The nodes in use hang on the root `r` by the edges. -/
structure Rooted (live : ν → Prop) (edge : ν → α → ν → Prop) (r : ν) : Prop where
  root : live r
  source : ∀ {c a i}, edge c a i → live c
  target : ∀ {c a i}, edge c a i → live i
  unique : ∀ {c a c' a' i}, edge c a i → edge c' a' i → c = c' ∧ a = a'
  top : ∀ {c a}, ¬ edge c a r
  reach : ∀ {i}, live i → Relation.ReflTransGen (fun c i => ∃ a, edge c a i) r i

namespace Rooted

variable {live live' : ν → Prop} {edge edge' : ν → α → ν → Prop} {r c i : ν} {a : α}

theorem single (r : ν) : Rooted (· = r) (fun _ (_ : α) _ => False) r where
  root := rfl
  source := False.elim
  target := False.elim
  unique := fun h => h.elim
  top := id
  reach := fun {i} h => by
    subst h
    exact .refl

/-- **Every node but the root is named, exactly once.** -/
theorem existsUnique (h : Rooted live edge r) (hlive : live i) (hi : i ≠ r) : ∃! p : ν × α, edge p.1 p.2 i := by
  rcases (h.reach hlive).cases_tail with heq | ⟨c, -, a, hedge⟩
  · exact absurd heq hi
  · refine ⟨(c, a), hedge, fun p hp => ?_⟩
    obtain ⟨hc, ha⟩ := h.unique hp hedge
    exact Prod.ext hc ha

/-- A new node, named by a node in use. -/
theorem add (h : Rooted live edge r) (hc : live c) (hi : ¬ live i) (hlive : ∀ j, live' j ↔ j = i ∨ live j)
    (hedge : ∀ d b j, edge' d b j ↔ edge d b j ∨ (d = c ∧ b = a ∧ j = i)) : Rooted live' edge' r := by
  have hnew : ∀ {d b}, ¬ edge d b i := fun hd => hi (h.target hd)
  have hold : ∀ {j}, Relation.ReflTransGen (fun c i => ∃ a, edge c a i) r j →
      Relation.ReflTransGen (fun c i => ∃ a, edge' c a i) r j := fun hpath =>
    Relation.ReflTransGen.mono (fun d j ⟨b, hd⟩ => ⟨b, (hedge d b j).mpr (Or.inl hd)⟩) _ _ hpath
  refine ⟨(hlive r).mpr (Or.inr h.root), fun {d b j} hd => ?_, fun {d b j} hd => ?_, fun {d b d' b' j} hd hd' => ?_,
    fun {d b} hd => ?_, fun {j} hj => ?_⟩
  · rcases (hedge d b j).mp hd with hd | ⟨rfl, -, -⟩
    · exact (hlive d).mpr (Or.inr (h.source hd))
    · exact (hlive d).mpr (Or.inr hc)
  · rcases (hedge d b j).mp hd with hd | ⟨-, -, rfl⟩
    · exact (hlive j).mpr (Or.inr (h.target hd))
    · exact (hlive j).mpr (Or.inl rfl)
  · rcases (hedge d b j).mp hd with hd | ⟨rfl, rfl, rfl⟩ <;> rcases (hedge d' b' _).mp hd' with hd' | ⟨rfl, rfl, heq⟩
    · exact h.unique hd hd'
    · exact absurd (heq ▸ hd) hnew
    · exact absurd hd' hnew
    · exact ⟨rfl, rfl⟩
  · rcases (hedge d b r).mp hd with hd | ⟨-, -, rfl⟩
    · exact h.top hd
    · exact hi h.root
  · rcases (hlive j).mp hj with rfl | hj
    · exact (hold (h.reach hc)).tail ⟨a, (hedge c a j).mpr (Or.inr ⟨rfl, rfl, rfl⟩)⟩
    · exact hold (h.reach hj)

/-- A node that names no other is taken away. -/
theorem remove (h : Rooted live edge r) (hi : i ≠ r) (hleaf : ∀ b j, ¬ edge i b j)
    (hlive : ∀ j, live' j ↔ j ≠ i ∧ live j) (hedge : ∀ d b j, edge' d b j ↔ edge d b j ∧ j ≠ i) :
    Rooted live' edge' r := by
  have hsource : ∀ {d b j}, edge d b j → d ≠ i := fun {d b j} hd => by
    rintro rfl
    exact hleaf b j hd
  refine ⟨(hlive r).mpr ⟨hi.symm, h.root⟩, fun {d b j} hd => ?_, fun {d b j} hd => ?_, fun {d b d' b' j} hd hd' => ?_,
    fun {d b} hd => ?_, fun {j} hj => ?_⟩
  · have hd := ((hedge d b j).mp hd).1
    exact (hlive d).mpr ⟨hsource hd, h.source hd⟩
  · obtain ⟨hd, hj⟩ := (hedge d b j).mp hd
    exact (hlive j).mpr ⟨hj, h.target hd⟩
  · exact h.unique ((hedge d b j).mp hd).1 ((hedge d' b' j).mp hd').1
  · exact h.top ((hedge d b r).mp hd).1
  · -- a path to another node does not pass through the leaf
    obtain ⟨hji, hj⟩ := (hlive j).mp hj
    have hpath : ∀ {k}, Relation.ReflTransGen (fun c i => ∃ a, edge c a i) r k → k ≠ i →
        Relation.ReflTransGen (fun c i => ∃ a, edge' c a i) r k := by
      intro k hk
      induction hk with
      | refl => exact fun _ => .refl
      | @tail d k _ hd ih =>
          intro hki
          obtain ⟨b, hd⟩ := hd
          exact (ih (hsource hd)).tail ⟨b, (hedge d b k).mpr ⟨hd, hki⟩⟩
    exact hpath (h.reach hj) hji

end Rooted

end
