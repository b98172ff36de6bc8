import OperatingSystem.Pool.Wakeup

/-!
# OperatingSystem.Pool.Order

When job functions are called and return.  An event is the call of one job, the
return of one, or neither (`Step.calls`); a pool of one worker calls the jobs in
the order in which they were added (`in_order`).
-/

namespace OperatingSystem.Pool

open Function Tally Queue

variable {n : Nat} {α : Type}

/-! ## Calls and returns -/

section

variable {s s' : Sys n α} {e : Event n α} {pool pool' : Thpool n α} {i : Fin n} {w w' : Worker α} {c c' : Caller}
  {sig : Signal}

theorem ThreadDo.calls (h : ThreadDo pool i w pool' w' sig) :
    (pool'.called = pool.called ∧ pool'.returned = pool.returned ∧ w'.inside = w.inside) ∨
      ∃ p x, (w = .call (some p) ∧ dataAt pool.memory p = some x ∧ pool'.called = pool.called ++ [x] ∧
          pool'.returned = pool.returned ∧ w'.inside = {x}) ∨
        w = .running p x ∧ pool'.called = pool.called ∧ pool'.returned = pool.returned ++ [x] ∧ w'.inside = 0 := by
  cases h with
  | call hjob => exact .inr ⟨_, _, .inl ⟨rfl, by rw [dataAt, hjob]; rfl, rfl, rfl, rfl⟩⟩
  | ret => exact .inr ⟨_, _, .inr ⟨rfl, rfl, rfl, rfl⟩⟩
  | unlock => exact .inl ⟨rfl, rfl, rfl⟩
  | _ => exact .inl ⟨rfl, rfl, rfl⟩

theorem CallerDo.calls (h : CallerDo pool c pool' c' sig) : pool'.called = pool.called ∧ pool'.returned = pool.returned := by
  cases h <;> exact ⟨rfl, rfl⟩

/-- **An event** calls one job, returns from one, or does neither. -/
theorem Step.calls (h : Step s e s') (hphases : Phases s) :
    (s'.pool.called = s.pool.called ∧ s'.pool.returned = s.pool.returned ∧ ∀ j, (s'.worker j).inside = (s.worker j).inside) ∨
      ∃ i woken p x, e = .worker i woken ∧ (∀ j, j ≠ i → (s'.worker j).inside = (s.worker j).inside) ∧
        ((s.worker i = .call (some p) ∧ dataAt s.pool.memory p = some x ∧ s'.pool.called = s.pool.called ++ [x] ∧
            s'.pool.returned = s.pool.returned ∧ (s'.worker i).inside = {x}) ∨
          s.worker i = .running p x ∧ s'.pool.called = s.pool.called ∧ s'.pool.returned = s.pool.returned ++ [x] ∧
            (s'.worker i).inside = 0) := by
  cases h with
  | create ok hc hk =>
      refine .inl ⟨rfl, rfl, fun j => ?_⟩
      cases ok with
      | false => rfl
      | true =>
          by_cases hj : j = ⟨_, hk⟩
          · have hunborn := hphases.unborn ⟨_, hk⟩ (by rw [hc]; exact Nat.le_refl _)
            subst hj
            show (update s.worker _ Worker.born _).inside = _
            rw [update_self, hunborn]
            rfl
          · show (update s.worker _ Worker.born j).inside = _
            rw [update_of_ne hj]
  | caller hdo hsig =>
      have hw := signal_woken hsig
      obtain ⟨hcalled, hret⟩ := hdo.calls
      exact .inl ⟨by rw [hw.pool, hcalled], by rw [hw.pool, hret], hw.worker_eq Worker.inside rfl⟩
  | @worker i pool w sig woken _ _ hdo hsig =>
      have hw := signal_woken hsig
      have hself : (s'.worker i).inside = w.inside := (hw.worker_eq Worker.inside rfl i).trans
        (congrArg Worker.inside (update_self ..))
      have hother : ∀ j, j ≠ i → (s'.worker j).inside = (s.worker j).inside := fun j hj =>
        (hw.worker_eq Worker.inside rfl j).trans (congrArg Worker.inside (update_of_ne hj ..))
      have hpool : s'.pool = pool := hw.pool
      rw [hpool]
      obtain ⟨hcalled, hret, hin⟩ | ⟨p, x, hcase⟩ := hdo.calls
      · refine .inl ⟨hcalled, hret, fun j => ?_⟩
        by_cases hj : j = i
        · rw [hj, hself, hin]
        · exact hother j hj
      · rw [← hself] at hcase
        exact .inr ⟨i, woken, p, x, rfl, hother, hcase⟩
  | wake hi => exact .inl ⟨rfl, rfl, (woken_update hi).worker_eq Worker.inside rfl⟩
  | _ => exact .inl ⟨rfl, rfl, fun _ => rfl⟩

end

/-! ## One worker -/

section

variable {s s' : Sys 1 α} {es : List (Event 1 α)} {e : Event 1 α}

theorem Inv.called_in_order (h : Inv es s) (hcalled : s.pool.called <+: added es) (hstep : Step s e s') :
    s'.pool.called <+: added (es ++ [e]) := by
  have hadded : added es <+: added (es ++ [e]) := added_append es [e] ▸ List.prefix_append _ _
  obtain ⟨hsame, -, -⟩ | ⟨i, woken, p, x, -, -, ⟨hi, hx, hcall, -, -⟩ | ⟨-, hsame, -, -⟩⟩ := hstep.calls h.base.phases
  · exact hsame ▸ hcalled.trans hadded
  · obtain ⟨l, hjobs⟩ := h.jobs
    obtain ⟨taken, has, htaken⟩ := hjobs.taken
    -- a worker is in its loop, so nothing was freed uncalled
    have hclean : s.caller.cleansUp = false := by
      by_contra hclean
      have hgone := h.base.phases.gone (by simpa using hclean) i
      rw [hi] at hgone
      cases hgone
    have hpulled : total (Worker.pulled s.pool.memory) s.worker = {x} := by
      rw [total, Fin.sum_univ_one, ← Subsingleton.elim i 0, hi, Worker.pulled, hx]
      rfl
    rw [h.wakeup.undropped hclean, hpulled] at htaken
    have hlen := congrArg Multiset.card htaken
    simp only [Multiset.card_add, Multiset.coe_card, Multiset.card_singleton, List.length_nil] at hlen
    obtain ⟨t, rfl⟩ : s.pool.called <+: taken :=
      List.prefix_of_prefix_length_le hcalled (has ▸ List.prefix_append _ _) (by omega)
    have ht : (t : Multiset α) = {x} := by
      rw [← Multiset.coe_add, Multiset.coe_nil, add_zero] at htaken
      exact Multiset.add_right_inj.mp htaken
    obtain rfl : t = [x] := by simpa using ht
    rw [hcall]
    exact (has ▸ List.prefix_append _ _ : s.pool.called ++ [x] <+: added es).trans hadded
  · exact hsame ▸ hcalled.trans hadded

theorem Inv.inside_eq (h : Inv es s) : (s.pool.called : Multiset α) = ↑s.pool.returned + (s.worker 0).inside := by
  obtain ⟨l, hjobs⟩ := h.jobs
  rw [hjobs.called, total, Fin.sum_univ_one]

theorem Inv.returned_in_order (h : Inv es s) (hret : s.pool.returned <+: s.pool.called) (hstep : Step s e s') :
    s'.pool.returned <+: s'.pool.called := by
  obtain ⟨hcalled, hsame, -⟩ | ⟨i, woken, p, x, -, -, ⟨-, -, hcalled, hsame, -⟩ | ⟨hi, hcalled, hmore, -⟩⟩ :=
    hstep.calls h.base.phases
  · rwa [hcalled, hsame]
  · rw [hcalled, hsame]
    exact hret.trans (List.prefix_append _ _)
  · -- the call that returns is the only one left
    obtain ⟨t, ht⟩ := hret
    have hone := h.inside_eq
    rw [← Subsingleton.elim i 0, hi, ← ht, ← Multiset.coe_add] at hone
    obtain rfl : t = [x] := by simpa [Worker.inside] using Multiset.add_right_inj.mp hone
    rw [hcalled, hmore, ht]

/-- **A pool of one worker** calls the jobs in the order in which they were added,
and each after the one before has returned. -/
theorem in_order (h : Run.exec next (Sys.start 1 α) es = some s) :
    s.pool.returned <+: s.pool.called ∧ s.pool.called <+: added es := by
  have hrun := Run.exec_induct
    (fun es s => Inv es s ∧ s.pool.returned <+: s.pool.called ∧ s.pool.called <+: added es)
    ⟨.start, List.nil_prefix, List.nil_prefix⟩ (fun _ _ _ _ ht hnext => ⟨ht.1.step (next_cases hnext),
      ht.1.returned_in_order ht.2.1 (next_cases hnext), ht.1.called_in_order ht.2.2 (next_cases hnext)⟩) es s h
  exact hrun.2

end

end OperatingSystem.Pool
