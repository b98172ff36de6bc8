import Mathlib.Logic.Function.Basic

/-!
# OperatingSystem.Lib.Mutex

A lock and the places in which its holder stands.  `Guards lock holds` says that
the lock's owner is the one thread at such a place: `holds` is read off where the
threads stand, `lock` is what the lock records.  A thread enters such a place by
taking the free lock (`acquire`) and leaves it by giving the lock back
(`release`), and no two threads are there at once (`exclusive`).  A program whose
every move is a `Move` of the lock keeps it guarded (`move`).
-/

namespace Mutex

variable {τ : Type} {lock : Option τ} {holds holds' : τ → Bool} {t u : τ}

/-- The owner of the lock is the thread that stands where the lock is held. -/
def Guards (lock : Option τ) (holds : τ → Bool) : Prop := ∀ t, lock = some t ↔ holds t = true

/-- What a thread's move does to the lock: `b` and `b'` say whether it stands where
the lock is held before the move and after it. -/
inductive Move (t : τ) : Option τ → Bool → Option τ → Bool → Prop
  | keep {l : Option τ} {b : Bool} : Move t l b l b
  | acquire {b : Bool} : Move t none b (some t) true
  | release {l : Option τ} : Move t l true none false

theorem guards_none : Guards (none : Option τ) fun _ => false := fun t => by simp

namespace Guards

/-- **Mutual exclusion**. -/
theorem exclusive (h : Guards lock holds) (ht : holds t = true) (hu : holds u = true) : t = u :=
  Option.some.inj (((h t).mpr ht).symm.trans ((h u).mpr hu))

theorem of_none (h : Guards none holds) (t : τ) : holds t = false := by
  have := h t
  simpa using this

/-- The lock is free when nobody stands where it is held. -/
theorem eq_none (h : Guards lock holds) (hno : ∀ t, holds t = false) : lock = none := by
  cases lock with
  | none => rfl
  | some t =>
      have ht := (h t).mp rfl
      rw [hno t] at ht
      cases ht

/-- Moves that neither take nor release the lock. -/
theorem keep (h : Guards lock holds) (heq : ∀ t, holds' t = holds t) : Guards lock holds' := fun t => by
  rw [heq t]
  exact h t

/-- Taking the free lock. -/
theorem acquire (h : Guards none holds) (ht : holds' t = true) (heq : ∀ u, u ≠ t → holds' u = holds u) :
    Guards (some t) holds' := fun u => by
  by_cases hu : u = t
  · subst hu
    simp [ht]
  · rw [heq u hu, h.of_none u]
    simp [Ne.symm hu]

/-- Giving the lock back. -/
theorem release (h : Guards lock holds) (ht : holds t = true) (ht' : holds' t = false)
    (heq : ∀ u, u ≠ t → holds' u = holds u) : Guards none holds' := fun u => by
  by_cases hu : u = t
  · subst hu
    simp [ht']
  · rw [heq u hu]
    simpa using fun hholds => hu (h.exclusive hholds ht)

/-- **One move**: it keeps the lock and the places in step. -/
theorem move (h : Guards lock holds) {lock' : Option τ} (hmove : Move t lock (holds t) lock' (holds' t))
    (heq : ∀ u, u ≠ t → holds' u = holds u) : Guards lock' holds' := by
  generalize hb : holds t = b at hmove
  generalize hb' : holds' t = b' at hmove
  cases hmove with
  | keep =>
      refine h.keep fun u => ?_
      by_cases hu : u = t
      · rw [hu, hb, hb']
      · exact heq u hu
  | acquire => exact h.acquire hb' heq
  | release => exact h.release hb hb' heq

end Guards

end Mutex
