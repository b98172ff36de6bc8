import Mathlib.Algebra.GroupWithZero.Nat
import Mathlib.Data.List.Induction

/-!
# OperatingSystem.Lib.Run

Runs of a partial step function.  A step `σ → α → Option σ` is a command
interpreter that may stop with undefined behaviour (`none`); `exec` threads a
state through a list of commands.  The induction principles are the ones
every run theorem of the development goes through:

* `exec_induct` — an invariant over the *history* and the state, preserved by
  each step that returns, holds at the end of every run that returns;
* `exec_total` — if moreover each admitted step does return, so does the run;
* `exec_along` — an invariant that only the steps meeting a condition preserve.

`watch` adds an observer to a step function: it sees every step and keeps a
value of its own, and does not change the run (`exec_watch`).
-/

namespace Run

/-- Execute a list of commands from a state; `none` once a step has no result. -/
def exec (step : σ → α → Option σ) (s : σ) : List α → Option σ
  | [] => some s
  | a :: as => (step s a).bind fun s' => exec step s' as

@[simp] theorem exec_nil (step : σ → α → Option σ) (s : σ) : exec step s [] = some s := rfl

@[simp] theorem exec_single (step : σ → α → Option σ) (s : σ) (a : α) : exec step s [a] = step s a := by
  cases h : step s a <;> simp [exec, h]

theorem exec_append (step : σ → α → Option σ) (s : σ) (as bs : List α) :
    exec step s (as ++ bs) = (exec step s as).bind fun s' => exec step s' bs := by
  induction as generalizing s with
  | nil => rfl
  | cons a as ih =>
      simp only [List.cons_append, exec]
      cases step s a with
      | none => rfl
      | some s' => exact ih s'

/-- The last command of a run, peeled off. -/
theorem exec_concat (step : σ → α → Option σ) (s : σ) (as : List α) (a : α) :
    exec step s (as ++ [a]) = (exec step s as).bind fun s' => step s' a := by
  rw [exec_append]
  congr 1
  funext s'
  cases h : step s' a <;> simp [exec, h]

/-- A run that ends with `a` ends with one step from a state reached before. -/
theorem exec_concat_some {step : σ → α → Option σ} {as : List α} {a : α}
    (h : exec step s (as ++ [a]) = some s') :
    ∃ m, exec step s as = some m ∧ step m a = some s' := by
  rw [exec_concat] at h
  exact Option.bind_eq_some_iff.mp h

/-- The states reached by a run's prefixes exist when the run's last state does. -/
theorem exec_append_some {step : σ → α → Option σ} {as bs : List α}
    (h : exec step s (as ++ bs) = some s') :
    ∃ m, exec step s as = some m ∧ exec step m bs = some s' := by
  rw [exec_append] at h
  exact Option.bind_eq_some_iff.mp h

/-- **Invariants of runs**: `P` holds of the empty history and the initial
state, and every step that returns extends it; then it holds at the end of
every run. -/
theorem exec_induct {step : σ → α → Option σ} (P : List α → σ → Prop) (init : P [] s)
    (next : ∀ h m a m', P h m → step m a = some m' → P (h ++ [a]) m') (as : List α) :
    ∀ s', exec step s as = some s' → P as s' := by
  induction as using List.reverseRecOn with
  | nil =>
      intro s' h
      cases h
      exact init
  | append_singleton as a ih =>
      intro s' h
      obtain ⟨m, hm, hstep⟩ := exec_concat_some h
      exact next as m a s' (ih m hm) hstep

/-- **Runs that cannot fault**: if a step from a state satisfying `P` always
returns, provided the command is admitted after its history, then a run of
admitted commands returns. -/
theorem exec_total {step : σ → α → Option σ} (P : List α → σ → Prop)
    (Admits : List α → α → Prop) (init : P [] s)
    (next : ∀ h m a, P h m → Admits h a → ∃ m', step m a = some m' ∧ P (h ++ [a]) m')
    (as : List α) (hadm : ∀ h a t, as = h ++ a :: t → Admits h a) :
    ∃ s', exec step s as = some s' ∧ P as s' := by
  induction as using List.reverseRecOn with
  | nil => exact ⟨s, rfl, init⟩
  | append_singleton as a ih =>
      obtain ⟨m, hm, hP⟩ := ih fun h b t hb => hadm h b (t ++ [a]) (by simp [hb])
      obtain ⟨m', hstep, hP'⟩ := next as m a hP (hadm as a [] rfl)
      refine ⟨m', ?_, hP'⟩
      rw [exec_concat, hm]
      exact hstep

/-- Every step of the run meets `P` in the state it starts from. -/
def Along (step : σ → α → Option σ) (P : σ → α → Prop) (s : σ) : List α → Prop
  | [] => True
  | a :: as => P s a ∧ ∀ s', step s a = some s' → Along step P s' as

/-- In terms of the history: the condition holds wherever a prefix of the run
leads. -/
theorem along_iff {step : σ → α → Option σ} {P : σ → α → Prop} {as : List α} :
    Along step P s as ↔ ∀ h a t m, as = h ++ a :: t → exec step s h = some m → P m a := by
  induction as generalizing s with
  | nil => simp [Along]
  | cons b as ih =>
      constructor
      · rintro ⟨hb, hrest⟩ h a t m hsplit hm
        match h, hsplit, hm with
        | [], hsplit, hm =>
            obtain ⟨rfl, -⟩ := List.cons.inj hsplit
            obtain rfl := Option.some.inj hm
            exact hb
        | c :: h, hsplit, hm =>
            obtain ⟨rfl, htail⟩ := List.cons.inj hsplit
            obtain ⟨s', hs', hm⟩ := Option.bind_eq_some_iff.mp hm
            exact ih.mp (hrest s' hs') h a t m htail hm
      · intro hall
        refine ⟨hall [] b as s rfl rfl, fun s' hs' => ih.mpr fun h a t m hsplit hm => ?_⟩
        exact hall (b :: h) a t m (by rw [hsplit, List.cons_append]) (by rw [exec, hs', Option.bind_some, hm])

/-- A condition on the commands joins one on the steps. -/
theorem Along.and_forall {step : σ → α → Option σ} {P : σ → α → Prop} {Q : α → Prop} {as : List α}
    (h : Along step P s as) (hq : ∀ a ∈ as, Q a) : Along step (fun s a => P s a ∧ Q a) s as := by
  rw [along_iff] at h ⊢
  intro hist a t m hsplit hm
  exact ⟨h hist a t m hsplit hm, hq a (by simp [hsplit])⟩

/-- **Conditional invariants**: what each step that meets `P` preserves holds at
the end of a run whose steps all meet `P`. -/
theorem exec_along {step : σ → α → Option σ} {P : σ → α → Prop} (Inv : σ → Prop)
    (next : ∀ s a s', Inv s → P s a → step s a = some s' → Inv s') (as : List α) {s s' : σ} (init : Inv s)
    (hsafe : Along step P s as) (h : exec step s as = some s') : Inv s' := by
  induction as generalizing s with
  | nil =>
      cases h
      exact init
  | cons a as ih =>
      obtain ⟨m, hm, hrest⟩ := Option.bind_eq_some_iff.mp h
      exact ih (next s a m init hsafe.1 hm) (hsafe.2 m hm) hrest

/-- **Bounded runs**: a step that `counts` uses up rank, unless its price is paid,
so the number of these steps in a run is bounded by the rank it starts with and
the prices paid. -/
theorem exec_bounded {step : σ → α → Option σ} (P : σ → Prop) (rank : σ → Nat) (counts : α → Bool) (price : α → Nat)
    (as : List α) {s s' : σ}
    (next : ∀ a ∈ as, ∀ s s', P s → step s a = some s' → P s' ∧ rank s' + (counts a).toNat ≤ rank s + price a)
    (init : P s) (h : exec step s as = some s') : rank s' + as.countP counts ≤ rank s + (as.map price).sum := by
  induction as generalizing s with
  | nil =>
      cases h
      exact Nat.le_refl _
  | cons a as ih =>
      obtain ⟨m, hm, hrest⟩ := Option.bind_eq_some_iff.mp h
      obtain ⟨hP, hrank⟩ := next a List.mem_cons_self s m init hm
      have htail := ih (fun b hb => next b (List.mem_cons_of_mem a hb)) hP hrest
      rw [List.countP_cons, List.map_cons, List.sum_cons]
      cases hc : counts a
      · simp only [hc, Bool.toNat_false, Bool.false_eq_true, if_false] at hrank ⊢
        omega
      · simp only [hc, Bool.toNat_true, if_true] at hrank ⊢
        omega

/-- **Running out**: steps that each use up rank can be taken until none is left. -/
theorem exec_exhaust {step : σ → α → Option σ} (P : σ → Prop) (allowed : α → Prop) (rank : σ → Nat)
    (next : ∀ s a s', P s → allowed a → step s a = some s' → P s' ∧ rank s' < rank s) {s : σ} (init : P s) :
    ∃ as s', (∀ a ∈ as, allowed a) ∧ exec step s as = some s' ∧ P s' ∧ ∀ a, allowed a → step s' a = none := by
  induction hr : rank s using Nat.strongRecOn generalizing s with
  | ind r ih =>
      by_cases hex : ∃ a s', allowed a ∧ step s a = some s'
      · obtain ⟨a, m, ha, hm⟩ := hex
        obtain ⟨hP, hlt⟩ := next s a m init ha hm
        obtain ⟨as, s', has, hrun, hend⟩ := ih (rank m) (hr ▸ hlt) hP rfl
        refine ⟨a :: as, s', fun b hb => ?_, by rw [exec, hm, Option.bind_some, hrun], hend⟩
        obtain rfl | hb := List.mem_cons.mp hb
        · exact ha
        · exact has b hb
      · refine ⟨[], s, by simp, rfl, init, fun a ha => Option.eq_none_iff_forall_ne_some.mpr fun s' hs' => hex ⟨a, s', ha, hs'⟩⟩

/-- **Simulation**: a machine with errors of its own, each of whose steps is one
of this machine, runs only as this one does. -/
theorem exec_simulates {step : σ → α → Option σ} {step' : τ → α → Except ε τ} (R : σ → τ → Prop)
    (next : ∀ s t a t', R s t → step' t a = .ok t' → ∃ s', step s a = some s' ∧ R s' t') (as : List α) {s : σ} {t t' : τ}
    (hR : R s t) (h : as.foldlM step' t = .ok t') : ∃ s', exec step s as = some s' ∧ R s' t' := by
  induction as generalizing s t with
  | nil =>
      cases h
      exact ⟨s, rfl, hR⟩
  | cons a as ih =>
      rw [List.foldlM_cons] at h
      cases hstep : step' t a with
      | error e =>
          rw [hstep] at h
          cases h
      | ok m' =>
          rw [hstep] at h
          obtain ⟨m, hm, hR'⟩ := next s t a m' hR hstep
          obtain ⟨s', hs', hR''⟩ := ih hR' h
          exact ⟨s', by rw [exec, hm, Option.bind_some, hs'], hR''⟩

/-! ## Observers -/

/-- The step function with an observer, whose value is `see`n anew after every
step. -/
def watch (step : σ → α → Option σ) (see : μ → σ → α → σ → μ) (p : σ × μ) (a : α) : Option (σ × μ) :=
  (step p.1 a).map fun s' => (s', see p.2 p.1 a s')

section Watch

variable {step : σ → α → Option σ} {see : μ → σ → α → σ → μ}

theorem watch_eq_some {p q : σ × μ} :
    watch step see p a = some q ↔ step p.1 a = some q.1 ∧ see p.2 p.1 a q.1 = q.2 := by
  simp only [watch, Option.map_eq_some_iff, Prod.ext_iff]
  constructor
  · rintro ⟨s', hstep, rfl, hsee⟩
    exact ⟨hstep, hsee⟩
  · rintro ⟨hstep, hsee⟩
    exact ⟨q.1, hstep, rfl, hsee⟩

/-- The observer changes nothing. -/
theorem exec_watch (as : List α) (p : σ × μ) :
    (exec (watch step see) p as).map Prod.fst = exec step p.1 as := by
  induction as generalizing p with
  | nil => rfl
  | cons a as ih =>
      simp only [exec, watch]
      cases step p.1 a with
      | none => rfl
      | some s' => exact ih _

/-- **What an observer sees**: an invariant of the history, the state and the
observer's value. -/
theorem exec_watch_induct (P : List α → σ → μ → Prop) {m : μ} (init : P [] s m)
    (next : ∀ h u v a u', P h u v → step u a = some u' → P (h ++ [a]) u' (see v u a u')) (as : List α)
    (h : exec step s as = some s') : ∃ m', exec (watch step see) (s, m) as = some (s', m') ∧ P as s' m' := by
  have hwatch : (exec (watch step see) (s, m) as).map Prod.fst = some s' := (exec_watch as (s, m)).trans h
  obtain ⟨⟨t, m'⟩, hrun, rfl⟩ := Option.map_eq_some_iff.mp hwatch
  refine ⟨m', hrun, exec_induct (fun h p => P h p.1 p.2) init (fun h p a q hp hstep => ?_) as _ hrun⟩
  obtain ⟨hstep, hsee⟩ := watch_eq_some.mp hstep
  rw [← hsee]
  exact next h p.1 p.2 a q.1 hp hstep

end Watch

end Run
