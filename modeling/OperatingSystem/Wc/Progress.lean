import OperatingSystem.Lib.Tally
import OperatingSystem.Wc.Totals

/-!
# OperatingSystem.Wc.Progress

The counting gets done.  Every event uses up rank, so a schedule is no longer than
the rank the processes start with.  Where nothing can happen any more, the parent is
gone and so are the children: the parent does not wait for a record that no child
will write, because a write end is open only as long as its owner can still close
it (`Open`).
-/

namespace OperatingSystem.Wc

open Tally

variable {n : Nat} {tmp : Fin n → Count} {s s' : Sys n} {event : Event n} {events : List (Event n)}

/-- Nothing can happen any more. -/
def Stuck (tmp : Fin n → Count) (s : Sys n) : Prop := ∀ event, step tmp s event = none

/-! ## Rank -/

/-- How many events the parent has in front of it. -/
def Parent.rank (n : Nat) : Parent → Nat
  | .start => 2 * n + 3
  | .forking i => (n - i) + n + 2
  | .reading j => (n - j) + 1
  | .unpiped => 1
  | .exited => 0

def Child.rank : Child → Nat
  | .unborn | .counting => 2
  | .written => 1
  | .ended => 0

def Sys.rank (s : Sys n) : Nat := s.parent.rank n + total Child.rank s.child

/-- **Every event uses up rank.** -/
theorem step_rank (hunborn : ∀ i : Fin n, s.parent.forked n ≤ i → s.child i = .unborn) (h : step tmp s event = some s') :
    s'.rank + 1 ≤ s.rank := by
  cases event with simp only [step] at h
  | pipe ok =>
      split at h
      · next hparent =>
          obtain rfl := Option.some.inj h
          cases ok <;> simp only [Sys.rank, hparent, Parent.rank, if_true, Bool.false_eq_true, if_false] <;> omega
      · contradiction
  | fork ok =>
      split at h
      · next i hparent =>
          split at h
          · next hi =>
              cases ok with
              | false =>
                  obtain rfl := Option.some.inj h
                  simp only [Sys.rank, hparent, Parent.rank]
                  omega
              | true =>
                  obtain ⟨p, -, rfl⟩ := Option.map_eq_some_iff.mp h
                  have hsum := total_update Child.rank s.child ⟨i, hi⟩ .counting
                  rw [hunborn ⟨i, hi⟩ (by simp [hparent, Parent.forked])] at hsum
                  simp only [Sys.rank, hparent, Parent.rank, Child.rank] at hsum ⊢
                  omega
          · contradiction
      · contradiction
  | close =>
      split at h
      · next hparent =>
          obtain rfl := Option.some.inj h
          simp only [Sys.rank, hparent, Parent.rank]
          omega
      · contradiction
  | read kk =>
      split at h
      · next j hparent =>
          split at h
          · next hj =>
              obtain ⟨p, -, rfl⟩ := Option.map_eq_some_iff.mp h
              simp only [Sys.rank, hparent, Parent.rank]
              omega
          · contradiction
      · contradiction
  | print =>
      split at h
      · next hparent =>
          obtain rfl := Option.some.inj h
          obtain hparent | hparent := hparent <;> simp only [Sys.rank, hparent, Parent.rank] <;> omega
      · contradiction
  | write i =>
      split at h
      · next hchild =>
          obtain ⟨p, -, rfl⟩ := Option.map_eq_some_iff.mp h
          have hsum := total_update Child.rank s.child i .written
          rw [hchild] at hsum
          simp only [Sys.rank, Child.rank] at hsum ⊢
          omega
      · contradiction
  | finish i =>
      split at h
      · next hchild =>
          obtain rfl := Option.some.inj h
          have hsum := total_update Child.rank s.child i .ended
          obtain hchild | hchild := hchild <;> rw [hchild] at hsum <;> simp only [Sys.rank, Child.rank] at hsum ⊢ <;> omega
      · contradiction

/-! ## Open ends -/

/-- Who holds the write ends: the parent until it has forked, and the children until
they end. -/
structure Open (s : Sys n) : Prop where
  parent : none ∈ s.pipe.writers ↔ ∃ i, s.parent = .forking i
  child : ∀ i, some i ∈ s.pipe.writers ↔ s.child i = .counting ∨ s.child i = .written
  forking : ∀ i, s.parent = .forking i → i ≤ n
  reading : ∀ j, s.parent = .reading j → j ≤ n
  unborn : ∀ i : Fin n, s.parent.forked n ≤ i → s.child i = .unborn

theorem open_start : Open (.start n) where
  parent := by simp [Sys.start]
  child := by simp [Sys.start]
  forking := by simp [Sys.start]
  reading := by simp [Sys.start]
  unborn := fun _ _ => rfl

theorem Open.step (ho : Open s) (h : Wc.step tmp s event = some s') : Open s' := by
  cases event with simp only [Wc.step] at h
  | pipe ok =>
      split at h
      · next hparent =>
          obtain rfl := Option.some.inj h
          have hunborn : ∀ i, s.child i = .unborn := fun i => ho.unborn i (by simp [hparent, Parent.forked])
          cases ok with
          | true => exact ⟨by simp [Pipe.create], by simp [Pipe.create, hunborn], by simp, by simp, fun i _ => hunborn i⟩
          | false =>
              have hnone := ho.parent
              simp only [hparent, reduceCtorEq, exists_false, iff_false] at hnone
              exact ⟨by simpa using hnone, ho.child, by simp, by simp, fun i _ => hunborn i⟩
      · contradiction
  | fork ok =>
      split at h
      · next i hparent =>
          split at h
          · next hi =>
              cases ok with
              | false =>
                  obtain rfl := Option.some.inj h
                  exact ⟨by simp [Pipe.close], fun k => by simpa [Pipe.close] using ho.child k, by simp, by simp,
                    fun k hk => absurd k.isLt (Nat.not_lt.mpr hk)⟩
              | true =>
                  obtain ⟨p, hdup, rfl⟩ := Option.map_eq_some_iff.mp h
                  obtain ⟨hnone, rfl⟩ := Pipe.dup_eq_some.mp hdup
                  refine ⟨by simpa using hnone, fun k => ?_, fun k hk => ?_, by simp, fun k hk => ?_⟩
                  · by_cases hk : k = ⟨i, hi⟩
                    · simp [hk]
                    · simpa [hk] using ho.child k
                  · cases hk
                    exact hi
                  · have hlt : i < k := hk
                    have hne : k ≠ ⟨i, hi⟩ := by
                      rintro rfl
                      exact absurd hlt (Nat.lt_irrefl _)
                    simpa [hne] using ho.unborn k (by simp only [hparent, Parent.forked]; omega)
          · contradiction
      · contradiction
  | close =>
      split at h
      · next hparent =>
          obtain rfl := Option.some.inj h
          exact ⟨by simp [Pipe.close], fun k => by simpa [Pipe.close] using ho.child k, by simp,
            fun j hj => by cases hj; exact Nat.zero_le n, fun k hk => absurd k.isLt (Nat.not_lt.mpr hk)⟩
      · contradiction
  | read kk =>
      split at h
      · next j hparent =>
          split at h
          · next hj =>
              obtain ⟨⟨got, p⟩, hread, rfl⟩ := Option.map_eq_some_iff.mp h
              have hwriters : p.writers = s.pipe.writers := by
                obtain ⟨a, -, -, hw⟩ | ⟨-, -, -, rfl⟩ := Pipe.read_eq_some.mp hread
                · exact hw
                · rfl
              have hnone := ho.parent
              simp only [hparent, reduceCtorEq, exists_false, iff_false] at hnone
              exact ⟨by simpa [hwriters] using hnone, by simpa [hwriters] using ho.child, by simp,
                fun k hk => by cases hk; exact hj, fun k hk => absurd k.isLt (Nat.not_lt.mpr hk)⟩
          · contradiction
      · contradiction
  | print =>
      split at h
      · next hparent =>
          obtain rfl := Option.some.inj h
          have hnone : none ∉ s.pipe.writers := by
            rw [ho.parent]
            obtain hparent | hparent := hparent <;> simp [hparent]
          exact ⟨by simpa using hnone, ho.child, by simp, by simp, fun k hk => absurd k.isLt (Nat.not_lt.mpr hk)⟩
      · contradiction
  | write i =>
      split at h
      · next hchild =>
          obtain ⟨p, hwrite, rfl⟩ := Option.map_eq_some_iff.mp h
          obtain ⟨-, rfl⟩ := Pipe.write_eq_some.mp hwrite
          refine ⟨ho.parent, fun k => ?_, ho.forking, ho.reading, fun k hk => ?_⟩
          · by_cases hk : k = i
            · simpa [hk, hchild] using ho.child i
            · simpa [hk] using ho.child k
          · have hunborn := ho.unborn k hk
            have hne : k ≠ i := by
              rintro rfl
              simp [hunborn] at hchild
            simpa [hne] using hunborn
      · contradiction
  | finish i =>
      split at h
      · next hchild =>
          obtain rfl := Option.some.inj h
          refine ⟨by simpa [Pipe.close] using ho.parent, fun k => ?_, ho.forking, ho.reading, fun k hk => ?_⟩
          · by_cases hk : k = i
            · simp [hk, Pipe.close]
            · simpa [hk, Pipe.close] using ho.child k
          · have hunborn := ho.unborn k hk
            have hne : k ≠ i := by
              rintro rfl
              simp [hunborn] at hchild
            simpa [hne] using hunborn
      · contradiction

/-- **No deadlock**: where nothing can happen, everybody is gone. -/
theorem Open.stuck (ho : Open s) (h : Stuck tmp s) :
    s.parent = .exited ∧ s.pipe.writers = ∅ ∧ ∀ i, s.child i = .unborn ∨ s.child i = .ended := by
  have hchild : ∀ i, s.child i = .unborn ∨ s.child i = .ended := by
    intro i
    have hfinish := h (.finish i)
    simp only [Wc.step, ite_eq_right_iff, reduceCtorEq, imp_false, not_or] at hfinish
    cases hc : s.child i <;> simp_all
  have hends : ∀ i, some i ∉ s.pipe.writers := by
    intro i hi
    have hi' := (ho.child i).mp hi
    rcases hchild i with hc | hc <;> simp [hc] at hi'
  have hparent : s.parent = .exited := by
    cases hp : s.parent with
    | start => simpa [Wc.step, hp] using h (.pipe true)
    | forking i =>
        have hle := ho.forking i hp
        by_cases hi : i < n
        · simpa [Wc.step, hp, hi] using h (.fork false)
        · obtain rfl : i = n := by omega
          simpa [Wc.step, hp] using h .close
    | reading j =>
        have hle := ho.reading j hp
        by_cases hj : j < n
        · have hread := h (.read 0)
          have hnone : none ∉ s.pipe.writers := by simp [ho.parent, hp]
          have hempty : s.pipe.writers = ∅ := by
            refine Finset.eq_empty_of_forall_notMem fun w => ?_
            cases w with
            | none => exact hnone
            | some i => exact hends i
          simp only [Wc.step, hp, hj, if_true, Option.map_eq_none_iff, Pipe.read] at hread
          split at hread
          · contradiction
          · rw [if_pos hempty] at hread
            contradiction
        · obtain rfl : j = n := by omega
          simpa [Wc.step, hp] using h .print
    | unpiped => simpa [Wc.step, hp] using h .print
    | exited => rfl
  refine ⟨hparent, Finset.eq_empty_of_forall_notMem fun w => ?_, hchild⟩
  cases w with
  | none => simp [ho.parent, hparent]
  | some i => exact hends i

/-! ## Runs -/

/-- The parent prints before it is gone, unless a fork has failed. -/
def Prints (events : List (Event n)) (s : Sys n) : Prop :=
  if s.parent = .exited then s.printed = none ↔ .fork false ∈ events else s.printed = none ∧ .fork false ∉ events

/-- An event of the parent that it goes on after. -/
theorem Prints.goes_on {child : Fin n → Child} {pipe : Pipe Count (Option (Fin n))} {count : Count} {parent : Parent}
    (hp : Prints events s) (hparent : s.parent ≠ .exited) (hnext : parent ≠ .exited) (hevent : event ≠ .fork false) :
    Prints (events ++ [event]) ⟨parent, child, pipe, count, s.printed⟩ := by
  rw [Prints, if_neg hparent] at hp
  rw [Prints, if_neg hnext]
  exact ⟨hp.1, by simpa [Ne.symm hevent] using hp.2⟩

/-- An event of a child. -/
theorem Prints.stays {child : Fin n → Child} {pipe : Pipe Count (Option (Fin n))} (hp : Prints events s)
    (hevent : event ≠ .fork false) : Prints (events ++ [event]) ⟨s.parent, child, pipe, s.count, s.printed⟩ := by
  unfold Prints at hp ⊢
  simpa [Ne.symm hevent] using hp

theorem Prints.step (hp : Prints events s) (h : Wc.step tmp s event = some s') : Prints (events ++ [event]) s' := by
  cases event with simp only [Wc.step] at h
  | pipe ok =>
      split at h
      · next hparent =>
          obtain rfl := Option.some.inj h
          cases ok
          · exact hp.goes_on (by simp [hparent]) (by simp) (by simp)
          · exact hp.goes_on (by simp [hparent]) (by simp) (by simp)
      · contradiction
  | fork ok =>
      split at h
      · next i hparent =>
          split at h
          · next hi =>
              cases ok with
              | false =>
                  obtain rfl := Option.some.inj h
                  rw [Prints, if_neg (by simp [hparent])] at hp
                  simp [Prints, hp.1]
              | true =>
                  obtain ⟨p, -, rfl⟩ := Option.map_eq_some_iff.mp h
                  exact hp.goes_on (by simp [hparent]) (by simp) (by simp)
          · contradiction
      · contradiction
  | close =>
      split at h
      · next hparent =>
          obtain rfl := Option.some.inj h
          exact hp.goes_on (by simp [hparent]) (by simp) (by simp)
      · contradiction
  | read kk =>
      split at h
      · next j hparent =>
          split at h
          · next hj =>
              obtain ⟨p, -, rfl⟩ := Option.map_eq_some_iff.mp h
              exact hp.goes_on (by simp [hparent]) (by simp) (by simp)
          · contradiction
      · contradiction
  | print =>
      split at h
      · next hparent =>
          obtain rfl := Option.some.inj h
          have hne : s.parent ≠ .exited := by obtain h | h := hparent <;> simp [h]
          rw [Prints, if_neg hne] at hp
          simp [Prints, hp.2]
      · contradiction
  | write i =>
      split at h
      · obtain ⟨p, -, rfl⟩ := Option.map_eq_some_iff.mp h
        exact hp.stays (by simp)
      · contradiction
  | finish i =>
      split at h
      · obtain rfl := Option.some.inj h
        exact hp.stays (by simp)
      · contradiction

/-- What holds at the end of every run. -/
theorem open_of_run (h : Run.exec (step tmp) (.start n) events = some s) : Open s ∧ Prints events s :=
  Run.exec_induct (fun events s => Open s ∧ Prints events s) ⟨open_start, by simp [Prints, Sys.start]⟩
    (fun _ _ _ _ hp hstep => ⟨hp.1.step hstep, hp.2.step hstep⟩) events s h

/-- **The counting gets done**: a schedule of `numFiles` children has at most
`4 * numFiles + 3` events, and can always be continued until nothing can happen any
more; then the parent is gone, every child that was forked has ended, no write end is
open, and the totals were printed unless a fork failed. -/
theorem run_ends {argc numFiles : Int} {s₀ : Sys n} (hmain : main argc numFiles = some ⟨n, s₀⟩)
    (h : Run.exec (step tmp) s₀ events = some s) :
    events.length ≤ 4 * n + 3 ∧ (∃ more s', Run.exec (step tmp) s more = some s' ∧ Stuck tmp s') ∧
      (Stuck tmp s → s.parent = .exited ∧ s.pipe.writers = ∅ ∧ (∀ i, s.child i = .unborn ∨ s.child i = .ended) ∧
        (s.printed = none ↔ .fork false ∈ events)) := by
  obtain rfl := main_eq_some hmain
  obtain ⟨ho, hp⟩ := open_of_run h
  refine ⟨?_, ?_, fun hstuck => ?_⟩
  · have hbound := Run.exec_bounded Open Sys.rank (fun _ => true) (fun _ => 0) events
      (fun event _ s s' ho hstep => ⟨ho.step hstep, step_rank ho.unborn hstep⟩) open_start h
    have hstart : (Sys.start n).rank = 2 * n + 3 + n * 2 := by
      simp [Sys.rank, Sys.start, Parent.rank, Child.rank, total]
    rw [hstart, List.countP_true, List.map_const', List.sum_replicate] at hbound
    simp only [smul_eq_mul, Nat.mul_zero, Nat.add_zero] at hbound
    omega
  · obtain ⟨more, s', -, hmore, -, hstuck⟩ := Run.exec_exhaust Open (fun _ => True) Sys.rank
      (fun s event s' ho _ hstep => ⟨ho.step hstep, step_rank ho.unborn hstep⟩) ho
    exact ⟨more, s', hmore, fun event => hstuck event trivial⟩
  · obtain ⟨hparent, hwriters, hchild⟩ := ho.stuck hstuck
    rw [Prints, if_pos hparent] at hp
    exact ⟨hparent, hwriters, hchild, hp⟩

/-- One child, killed before it writes. -/
theorem run_ends_killed : ∃ (events : List (Event 1)) (s : Sys 1), main 2 1 = some ⟨1, .start 1⟩ ∧
    events = [.pipe true, .fork true, .finish 0, .close] ∧ Run.exec (step fun _ => ⟨1, 2, 3⟩) (.start 1) events = some s ∧
    events.length ≤ 4 * 1 + 3 ∧ (∃ more s', Run.exec (step fun _ => ⟨1, 2, 3⟩) s more = some s' ∧ Stuck (fun _ => ⟨1, 2, 3⟩) s') ∧
      (Stuck (fun _ => ⟨1, 2, 3⟩) s → s.parent = .exited ∧ s.pipe.writers = ∅ ∧
        (∀ i, s.child i = .unborn ∨ s.child i = .ended) ∧ (s.printed = none ↔ .fork false ∈ events)) := by
  have hsome : (Run.exec (step fun _ : Fin 1 => ⟨1, 2, 3⟩) (.start 1) [.pipe true, .fork true, .finish 0, .close]).isSome = true := by
    decide
  obtain ⟨s, hs⟩ := Option.isSome_iff_exists.mp hsome
  have hmain : main 2 1 = some ⟨1, .start 1⟩ := rfl
  exact ⟨_, s, hmain, rfl, hs, run_ends hmain hs⟩

end OperatingSystem.Wc
