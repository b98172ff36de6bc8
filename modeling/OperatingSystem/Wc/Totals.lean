import Mathlib.Algebra.BigOperators.Group.Finset.Basic
import Mathlib.Data.Fintype.Card
import OperatingSystem.Wc.Main

/-!
# OperatingSystem.Wc.Totals

What the parent prints.  In every schedule the reads take the records in the
order written and then meet the end of file (`Inv`), so the totals are the sum
of the records written and of what `kk` held at the surplus reads
(`Inv.total`).
-/

namespace OperatingSystem.Wc

open Finset

/-! ## Schedules -/

/-- The child an event writes the record of. -/
def Event.writer : Event n → Option (Fin n)
  | .write i => some i
  | _ => none

/-- What `kk` holds before an event reads. -/
def Event.stale : Event n → Option Count
  | .read kk => some kk
  | _ => none

/-- The children that write, in order. -/
def writers (events : List (Event n)) : List (Fin n) := events.filterMap Event.writer

/-- What `kk` holds before each read. -/
def stales (events : List (Event n)) : List Count := events.filterMap Event.stale

/-- What `kk` holds before the reads for which there is no record. -/
def surplus (events : List (Event n)) : List Count := (stales events).drop (writers events).length

/-- The number of reads behind the parent. -/
def Parent.reads : Parent → Nat
  | .reading j => j
  | _ => 0

/-- The number of children that may have been forked. -/
def Parent.forked (n : Nat) : Parent → Nat
  | .start | .unpiped => 0
  | .forking i => i
  | _ => n

theorem mem_writers {events : List (Event n)} {i : Fin n} : i ∈ writers events ↔ .write i ∈ events := by
  simp only [writers, List.mem_filterMap]
  constructor
  · rintro ⟨event, hmem, hi⟩
    cases event <;> simp_all [Event.writer]
  · exact fun hmem => ⟨_, hmem, rfl⟩

@[simp] theorem writers_snoc (events : List (Event n)) (event : Event n) :
    writers (events ++ [event]) = writers events ++ event.writer.toList := by
  cases event <;> simp [writers, Event.writer]

@[simp] theorem stales_snoc (events : List (Event n)) (event : Event n) :
    stales (events ++ [event]) = stales events ++ event.stale.toList := by
  cases event <;> simp [stales, Event.stale]

/-! ## The invariant -/

/-- The invariant of a run in which the children `ws` wrote, in this order, and
`kk` held `ks` before the reads. -/
structure Inv (tmp : Fin n → Count) (ws : List (Fin n)) (ks : List Count) (s : Sys n) : Prop where
  log : ∃ got, s.pipe.Log (ws.map tmp) got ∧ got.length = ks.length ∧ s.count = (List.zipWith Option.getD got ks).sum
  reads : s.parent ≠ .exited → ks.length = s.parent.reads
  reads_le : ks.length ≤ n
  nodup : ws.Nodup
  wrote : ∀ i ∈ ws, s.child i = .written ∨ s.child i = .ended
  unborn : ∀ i : Fin n, s.parent.forked n ≤ i → s.child i = .unborn
  held : ∀ i, s.child i = .counting → some i ∈ s.pipe.writers
  printed : ∀ total, s.printed = some total → total = s.count ∧ s.parent = .exited ∧ s.pipe.queue = [] ∧
    ∀ i, s.child i ≠ .counting

section Run

variable {tmp : Fin n → Count} {ws : List (Fin n)} {ks : List Count} {s s' : Sys n} {event : Event n}

theorem inv_start : Inv tmp [] [] (.start n) where
  log := ⟨[], .empty rfl, rfl, rfl⟩
  reads := fun _ => rfl
  reads_le := by simp
  nodup := List.nodup_nil
  wrote := by simp
  unborn := fun _ _ => rfl
  held := by simp [Sys.start]
  printed := by simp [Sys.start]

theorem Inv.not_printed (h : Inv tmp ws ks s) (hparent : s.parent ≠ .exited) : s.printed = none := by
  cases hprinted : s.printed with
  | none => rfl
  | some total => exact absurd (h.printed total hprinted).2.1 hparent

theorem Inv.not_written (h : Inv tmp ws ks s) (hchild : s.child i = .unborn ∨ s.child i = .counting) : i ∉ ws := by
  intro hmem
  rcases h.wrote i hmem with hi | hi <;> simp [hi] at hchild

/-- When the parent has made all its reads, every record has been read, and no
child will write one. -/
theorem Inv.all_read (h : Inv tmp ws ks s) (hparent : s.parent = .reading n ∨ s.parent = .unpiped) :
    s.pipe.queue = [] ∧ ∀ i, s.child i ≠ .counting := by
  obtain ⟨got, hlog, hgot, -⟩ := h.log
  rcases hparent with hparent | hparent
  · have hreads : ks.length = n := by simpa [hparent, Parent.reads] using h.reads
    have hle : ws.length ≤ n := by simpa using h.nodup.length_le_card
    refine ⟨hlog.queue_eq_nil (by simp; omega), fun i hi => ?_⟩
    by_cases hall : ws.length = n
    · -- all children have written
      have huniv : ws.toFinset = univ := by
        rw [← Finset.card_eq_iff_eq_univ, List.toFinset_card_of_nodup h.nodup, hall, Fintype.card_fin]
      exact h.not_written (Or.inr hi) (by simp [← List.mem_toFinset, huniv])
    · -- the last read met the end of file
      have hheld := h.held i hi
      simp [hlog.closed (by simp; omega)] at hheld
  · have hunborn : ∀ i, s.child i = .unborn := fun i => h.unborn i (by simp [hparent, Parent.forked])
    have hnone : ws = [] := List.eq_nil_iff_forall_not_mem.mpr fun i => h.not_written (Or.inl (hunborn i))
    exact ⟨hlog.queue_eq_nil (by simp [hnone]), fun i => by simp [hunborn i]⟩

/-- The parent reads a record, or the end of file. -/
theorem Inv.read {kk : Count} (h : Inv tmp ws ks s) (hparent : s.parent = .reading j) (hj : j < n)
    (hread : s.pipe.read = some (got, p)) :
    Inv tmp ws (ks ++ [kk]) { s with parent := .reading (j + 1), pipe := p, count := s.count + got.getD kk } := by
  obtain ⟨gots, hlog, hlen, hcount⟩ := h.log
  have hwriters : p.writers = s.pipe.writers := by
    rcases Pipe.read_eq_some.mp hread with ⟨a, -, -, hw⟩ | ⟨-, -, -, rfl⟩
    · exact hw
    · rfl
  have hks : ks.length = j := by simpa [hparent, Parent.reads] using h.reads
  have hcount' : s.count + got.getD kk = (List.zipWith Option.getD (gots ++ [got]) (ks ++ [kk])).sum := by
    simp [List.zipWith_append hlen, hcount]
  exact {
    h with
    log := ⟨gots ++ [got], hlog.read hread, by simp [hlen], hcount'⟩
    reads := by simp [hks, Parent.reads]
    reads_le := by simp [hks]; omega
    unborn := by simp [Parent.forked]
    held := by simpa [hwriters] using h.held
    printed := by simp [h.not_printed (by simp [hparent])] }

/-- A child writes its record. -/
theorem Inv.write (h : Inv tmp ws ks s) (hchild : s.child i = .counting)
    (hwrite : s.pipe.write (some i) (tmp i) = some p) :
    Inv tmp (ws ++ [i]) ks { s with child := Function.update s.child i .written, pipe := p } := by
  obtain ⟨got, hlog, hgot⟩ := h.log
  have hnew := h.not_written (Or.inr hchild)
  have hwriters : p.writers = s.pipe.writers := by
    obtain ⟨-, rfl⟩ := Pipe.write_eq_some.mp hwrite
    rfl
  exact {
    h with
    log := ⟨got, by simpa using hlog.write hwrite, hgot⟩
    nodup := by
      rw [List.nodup_append]
      exact ⟨h.nodup, by simp, by simpa using fun j hj => ne_of_mem_of_not_mem hj hnew⟩
    wrote := fun j hj => by
      by_cases hji : j = i
      · simp [hji]
      · simpa [hji] using h.wrote j (by simpa [hji] using hj)
    unborn := fun j hj => by
      have hji : j ≠ i := by
        rintro rfl
        simp [h.unborn j hj] at hchild
      simpa [hji] using h.unborn j hj
    held := fun j hj => by
      by_cases hji : j = i
      · simp [hji] at hj
      · simpa [hwriters] using h.held j (by simpa [hji] using hj)
    printed := fun total htotal => absurd hchild ((h.printed total htotal).2.2.2 i) }

/-- A child ends, whether it has written or not. -/
theorem Inv.finish (h : Inv tmp ws ks s) (hchild : s.child i = .counting ∨ s.child i = .written) :
    Inv tmp ws ks { s with child := Function.update s.child i .ended, pipe := s.pipe.close (some i) } := by
  obtain ⟨got, hlog, hgot⟩ := h.log
  have hkept : ∀ {j c}, Function.update s.child i .ended j = c → c ≠ .ended → j ≠ i ∧ s.child j = c := by
    intro j c hj hc
    by_cases hji : j = i
    · rw [hji, Function.update_self] at hj
      exact absurd hj.symm hc
    · simpa [hji] using hj
  exact {
    h with
    log := ⟨got, hlog.close _, hgot⟩
    wrote := fun j hj => by
      by_cases hji : j = i
      · simp [hji]
      · simpa [hji] using h.wrote j hj
    unborn := fun j hj => by
      have hji : j ≠ i := by
        rintro rfl
        simp [h.unborn j hj] at hchild
      simpa [hji] using h.unborn j hj
    held := fun j hj => by
      obtain ⟨hji, hj⟩ := hkept hj (by decide)
      simpa [Pipe.close, hji] using h.held j hj
    printed := fun total htotal => by
      obtain ⟨hcount, hparent, hqueue, hnone⟩ := h.printed total htotal
      exact ⟨hcount, hparent, hqueue, fun j hj => hnone j (hkept hj (by decide)).2⟩ }

/-- The parent forks a child, which holds a copy of the parent's write end. -/
theorem Inv.fork {i : Fin n} (h : Inv tmp ws ks s) (hparent : s.parent = .forking i)
    (hdup : s.pipe.dup none (some i) = some p) :
    Inv tmp ws ks
      { s with parent := .forking (i + 1), child := Function.update s.child i .counting, pipe := p } := by
  obtain ⟨got, hlog, hgot⟩ := h.log
  have hwriters : p.writers = insert (some i) s.pipe.writers := by
    obtain ⟨-, rfl⟩ := Pipe.dup_eq_some.mp hdup
    rfl
  have hunborn : ∀ j : Fin n, i ≤ j → s.child j = .unborn := fun j hj => h.unborn j (by simpa [hparent, Parent.forked])
  exact {
    h with
    log := ⟨got, hlog.dup hdup, hgot⟩
    reads := by simpa [hparent, Parent.reads] using h.reads
    wrote := fun j hj => by
      have hji : j ≠ i := by
        rintro rfl
        exact h.not_written (Or.inl (hunborn j le_rfl)) hj
      simpa [hji] using h.wrote j hj
    unborn := fun j hj => by
      have hlt : (i : Nat) < j := hj
      have hji : j ≠ i := by
        rintro rfl
        omega
      simpa [hji] using hunborn j (by omega)
    held := fun j hj => by
      by_cases hji : j = i
      · simp [hji, hwriters]
      · simpa [hwriters, hji] using h.held j (by simpa [hji] using hj)
    printed := by simp [h.not_printed (by simp [hparent])] }

/-- The parent moves on, and at most its write end is closed. -/
theorem Inv.move {parent : Parent} (h : Inv tmp ws ks s) (hparent : s.parent ≠ .exited)
    (hreads : parent ≠ .exited → parent.reads = s.parent.reads) (hforked : s.parent.forked n ≤ parent.forked n) :
    Inv tmp ws ks { s with parent } ∧ Inv tmp ws ks { s with parent, pipe := s.pipe.close none } := by
  obtain ⟨got, hlog, hgot⟩ := h.log
  have hmove : Inv tmp ws ks { s with parent } := {
    h with
    reads := fun hne => (h.reads hparent).trans (hreads hne).symm
    unborn := fun j hj => h.unborn j (hforked.trans hj)
    printed := by simp [h.not_printed hparent] }
  exact ⟨hmove, {
    hmove with
    log := ⟨got, hlog.close none, hgot⟩
    held := fun j hj => by simpa [Pipe.close] using h.held j hj
    printed := by simp [h.not_printed hparent] }⟩

/-- The pipe is made. -/
theorem Inv.pipe (h : Inv tmp ws ks s) (hparent : s.parent = .start) :
    Inv tmp ws ks { s with parent := .forking 0, pipe := .create none } := by
  have hunborn : ∀ i, s.child i = .unborn := fun i => h.unborn i (by simp [hparent, Parent.forked])
  obtain rfl : ws = [] := List.eq_nil_iff_forall_not_mem.mpr fun i => h.not_written (Or.inl (hunborn i))
  obtain rfl : ks = [] := List.eq_nil_of_length_eq_zero (by simpa [hparent, Parent.reads] using h.reads)
  obtain ⟨got, -, hgot, hcount⟩ := h.log
  obtain rfl := List.eq_nil_of_length_eq_zero hgot
  exact {
    h with
    log := ⟨[], .empty rfl, rfl, hcount⟩
    reads := fun _ => rfl
    unborn := fun i _ => hunborn i
    held := by simp [hunborn]
    printed := by simp [h.not_printed (by simp [hparent])] }

/-- The parent prints the totals and is gone. -/
theorem Inv.print (h : Inv tmp ws ks s) (hparent : s.parent = .reading n ∨ s.parent = .unpiped) :
    Inv tmp ws ks { s with parent := .exited, printed := some s.count } := by
  obtain ⟨hqueue, hnone⟩ := h.all_read hparent
  exact {
    h with
    reads := fun hne => absurd rfl hne
    unborn := fun i hi => absurd hi (Nat.not_le.mpr i.isLt)
    printed := fun total htotal => ⟨(Option.some.inj htotal).symm, rfl, hqueue, hnone⟩ }

/-- **The step lemma.** -/
theorem Inv.step (h : Inv tmp ws ks s) (hstep : Wc.step tmp s event = some s') :
    Inv tmp (ws ++ event.writer.toList) (ks ++ event.stale.toList) s' := by
  cases event with simp only [Wc.step, Event.writer, Event.stale, Option.toList_none, Option.toList_some, List.append_nil] at hstep ⊢
  | pipe ok =>
      split at hstep
      · next hparent =>
          obtain rfl := Option.some.inj hstep
          cases ok with
          | false => exact (h.move (by simp [hparent]) (by simp [hparent, Parent.reads]) (by simp [hparent, Parent.forked])).1
          | true => exact h.pipe hparent
      · contradiction
  | fork ok =>
      split at hstep
      · next i hparent =>
          split at hstep
          · next hi =>
              cases ok with
              | false =>
                  obtain rfl := Option.some.inj hstep
                  exact (h.move (by simp [hparent]) (by simp) (by simp [hparent, Parent.forked, hi.le])).2
              | true =>
                  obtain ⟨p, hdup, rfl⟩ := Option.map_eq_some_iff.mp hstep
                  exact h.fork (i := ⟨i, hi⟩) hparent hdup
          · contradiction
      · contradiction
  | close =>
      split at hstep
      · next hparent =>
          obtain rfl := Option.some.inj hstep
          exact (h.move (by simp [hparent]) (by simp [hparent, Parent.reads]) (by simp [hparent, Parent.forked])).2
      · contradiction
  | read kk =>
      split at hstep
      · next j hparent =>
          split at hstep
          · next hj =>
              obtain ⟨⟨got, p⟩, hread, rfl⟩ := Option.map_eq_some_iff.mp hstep
              exact h.read hparent hj hread
          · contradiction
      · contradiction
  | print =>
      split at hstep
      · next hparent =>
          obtain rfl := Option.some.inj hstep
          exact h.print hparent
      · contradiction
  | write i =>
      split at hstep
      · next hchild =>
          obtain ⟨p, hwrite, rfl⟩ := Option.map_eq_some_iff.mp hstep
          exact h.write hchild hwrite
      · contradiction
  | finish i =>
      split at hstep
      · next hchild =>
          obtain rfl := Option.some.inj hstep
          exact h.finish hchild
      · contradiction

/-- The records, and what `kk` holds behind the last of them, are added up. -/
theorem zipWith_getD (as : List α) {ks : List α} (h : ks.length = as.length + k) :
    List.zipWith Option.getD (as.map some ++ List.replicate k none) ks = as ++ ks.drop as.length := by
  induction as generalizing ks with
  | nil =>
      induction k generalizing ks with
      | zero => simp_all
      | succ k ih =>
          obtain ⟨x, xs, rfl⟩ := List.exists_cons_of_length_eq_add_one h
          simpa [List.replicate_succ] using @ih xs (by simpa using h)
  | cons a as ih =>
      obtain ⟨x, xs, rfl⟩ := List.exists_cons_of_length_pos (l := ks) (by rw [h, List.length_cons]; omega)
      simp only [List.length_cons] at h
      simpa using @ih xs (by omega)

/-- **What is printed**: the sum of the records written, and of what `kk` held at
the surplus reads. -/
theorem Inv.total {total : Count} (h : Inv tmp ws ks s) (hprint : s.printed = some total) :
    total = ∑ i ∈ ws.toFinset, tmp i + (ks.drop ws.length).sum := by
  obtain ⟨got, hlog, hgot, hcount⟩ := h.log
  obtain ⟨htotal, -, hqueue, -⟩ := h.printed total hprint
  obtain ⟨k, rfl⟩ := hlog.delivered hqueue
  rw [htotal, hcount, zipWith_getD _ (by simpa using hgot.symm), List.sum_append, List.sum_toFinset tmp h.nodup,
    List.length_map]

/-- **The run lemma.** -/
theorem inv_of_run {events : List (Event n)} (h : Run.exec (step tmp) (.start n) events = some s) :
    Inv tmp (writers events) (stales events) s := by
  refine Run.exec_induct (fun events s => Inv tmp (writers events) (stales events) s) inv_start
    (fun events s event s' hinv hstep => ?_) events s h
  rw [writers_snoc, stales_snoc]
  exact hinv.step hstep

/-- The children that write, as a set. -/
theorem writers_toFinset (events : List (Event n)) : (writers events).toFinset = univ.filter fun i => .write i ∈ events := by
  ext i
  simp [mem_writers]

/-- If every child writes, each read takes a record, and the totals are those of
the files. -/
theorem totals_of_files {file : Fin n → Option (List Byte)} {events : List (Event n)} {total : Count}
    (h : Run.exec (step fun i => wordCount (file i)) (.start n) events = some s) (hprint : s.printed = some total)
    (hall : ∀ i, .write i ∈ events) : total = ∑ i, wordCount (file i) := by
  have hinv := inv_of_run h
  have huniv : (writers events).toFinset = univ := by simp [writers_toFinset, hall]
  have hlen : (writers events).length = n := by
    rw [← List.toFinset_card_of_nodup hinv.nodup, huniv, card_univ, Fintype.card_fin]
  have hnone : (stales events).drop (writers events).length = [] :=
    List.drop_eq_nil_of_le (by rw [hlen]; exact hinv.reads_le)
  rw [hinv.total hprint, huniv, hnone, List.sum_nil, add_zero]

theorem main_eq_some {argc numFiles : Int} {s₀ : Sys n} (h : main argc numFiles = some ⟨n, s₀⟩) : s₀ = .start n := by
  unfold main at h
  split at h
  · contradiction
  split at h
  · contradiction
  cases h
  rfl

/-- **Totals**: in every schedule, the parent prints the sum of the records that
were written iff what `kk` held at the surplus reads adds up to 0. -/
theorem totals_iff {argc numFiles : Int} {s₀ : Sys n} {events : List (Event n)} {total : Count}
    (hmain : main argc numFiles = some ⟨n, s₀⟩) (h : Run.exec (step tmp) s₀ events = some s)
    (hprint : s.printed = some total) :
    total = ∑ i with .write i ∈ events, tmp i ↔ (surplus events).sum = 0 := by
  obtain rfl := main_eq_some hmain
  rw [(inv_of_run h).total hprint, writers_toFinset, surplus, add_eq_left]

/-- Two children that both write, the second one first. -/
theorem totals_iff_both : ∃ (events : List (Event 2)) (s : Sys 2), main 2 2 = some ⟨2, .start 2⟩ ∧
    Run.exec (step fun i => ⟨1, 2, i⟩) (.start 2) events = some s ∧ s.printed = some ⟨2, 4, 1⟩ ∧
    ((⟨2, 4, 1⟩ : Count) = ∑ i with .write i ∈ events, ⟨1, 2, i⟩ ↔ (surplus events).sum = 0) := by
  have hrun : (Run.exec (step fun i : Fin 2 => ⟨1, 2, i⟩) (.start 2) [.pipe true, .fork true, .fork true, .write 1,
      .close, .read 0, .finish 1, .write 0, .finish 0, .read 0, .print]).map Sys.printed = some (some ⟨2, 4, 1⟩) := by
    decide
  obtain ⟨s, hs, hprint⟩ := Option.map_eq_some_iff.mp hrun
  have hmain : main 2 2 = some ⟨2, .start 2⟩ := rfl
  exact ⟨_, s, hmain, hs, hprint, totals_iff hmain hs hprint⟩

/-- Of two children the second one is killed before it writes.  At the second
read `kk` still holds the record of the first one, which is added again. -/
theorem totals_count_twice : ∃ (events : List (Event 2)) (s : Sys 2), main 2 2 = some ⟨2, .start 2⟩ ∧
    events = [.pipe true, .fork true, .fork true, .close, .write 0, .finish 0, .finish 1, .read 0, .read ⟨1, 2, 3⟩, .print] ∧
    Run.exec (step fun _ => ⟨1, 2, 3⟩) (.start 2) events = some s ∧ s.printed = some ⟨2, 4, 6⟩ ∧
    ∑ i with .write i ∈ events, ⟨1, 2, 3⟩ = (⟨1, 2, 3⟩ : Count) := by
  have hrun : (Run.exec (step fun _ : Fin 2 => ⟨1, 2, 3⟩) (.start 2) [.pipe true, .fork true, .fork true, .close,
      .write 0, .finish 0, .finish 1, .read 0, .read ⟨1, 2, 3⟩, .print]).map Sys.printed = some (some ⟨2, 4, 6⟩) := by
    decide
  obtain ⟨s, hs, hprint⟩ := Option.map_eq_some_iff.mp hrun
  exact ⟨_, s, rfl, rfl, hs, hprint, by decide⟩

end Run

end OperatingSystem.Wc
