import Mathlib.Data.Finset.Erase
import Mathlib.Data.Finset.Insert

/-!
# OperatingSystem.Lib.Pipe

Pipes that deliver whole records in the order written.  A pipe holds the
records on their way and the write ends that are open.  A read takes the first
record; if there is none, it reports end of file once no write end is open, and
blocks until then.  `Pipe.Log` says what the history of a pipe is like.
-/

/-- A pipe for records `α` with write ends `ω`. -/
structure Pipe (α ω : Type*) where
  queue : List α
  writers : Finset ω

namespace Pipe

variable {α ω : Type*}

section Operations

variable [DecidableEq ω]

/-- A pipe with one write end. -/
def create (w : ω) : Pipe α ω := ⟨[], {w}⟩

/-- Write a record through the end `w`, if it is open. -/
def write (p : Pipe α ω) (w : ω) (a : α) : Option (Pipe α ω) :=
  if w ∈ p.writers then some { p with queue := p.queue ++ [a] } else none

/-- Open the end `w'` as a copy of `w`, if `w` is open. -/
def dup (p : Pipe α ω) (w w' : ω) : Option (Pipe α ω) :=
  if w ∈ p.writers then some { p with writers := insert w' p.writers } else none

/-- Close the end `w`. -/
def close (p : Pipe α ω) (w : ω) : Pipe α ω := { p with writers := p.writers.erase w }

/-- Read a record, or end of file (`some none`); `none` while the read blocks. -/
def read (p : Pipe α ω) : Option (Option α × Pipe α ω) :=
  match p.queue with
  | a :: q => some (some a, { p with queue := q })
  | [] => if p.writers = ∅ then some (none, p) else none

variable {p p' : Pipe α ω} {w w' : ω} {a : α} {got : Option α}

theorem write_eq_some : p.write w a = some p' ↔ w ∈ p.writers ∧ { p with queue := p.queue ++ [a] } = p' := by
  simp [write]

theorem dup_eq_some : p.dup w w' = some p' ↔ w ∈ p.writers ∧ { p with writers := insert w' p.writers } = p' := by
  simp [dup]

theorem read_eq_some : p.read = some (got, p') ↔
    (∃ a, got = some a ∧ p.queue = a :: p'.queue ∧ p'.writers = p.writers) ∨
      (got = none ∧ p.queue = [] ∧ p.writers = ∅ ∧ p' = p) := by
  obtain ⟨queue, writers⟩ := p
  obtain ⟨queue', writers'⟩ := p'
  cases queue with
  | nil =>
      simp only [read]
      grind
  | cons a q =>
      simp only [read, Option.some.injEq, Prod.mk.injEq, Pipe.mk.injEq]
      grind

end Operations

/-- The pipe after `sent` has been written to it, and `got` read: the reads took
the first records, in order, and then met the end of file, if at all. -/
def Log (p : Pipe α ω) (sent : List α) (got : List (Option α)) : Prop :=
  ∃ taken k, got = taken.map some ++ List.replicate k none ∧ sent = taken ++ p.queue ∧
    (k ≠ 0 → p.queue = [] ∧ p.writers = ∅)

namespace Log

variable {p p' : Pipe α ω} {sent : List α} {got : List (Option α)} {w w' : ω} {a : α} {g : Option α}

theorem empty (hqueue : p.queue = []) : p.Log [] [] := ⟨[], 0, rfl, by simp [hqueue], by simp⟩

/-- After as many reads as records the pipe is empty. -/
theorem queue_eq_nil (h : p.Log sent got) (hle : sent.length ≤ got.length) : p.queue = [] := by
  obtain ⟨taken, k, rfl, rfl, hend⟩ := h
  by_cases hk : k = 0
  · simp only [hk, List.length_append, List.length_map, List.length_replicate] at hle
    exact List.eq_nil_of_length_eq_zero (by omega)
  · exact (hend hk).1

/-- **Delivery**: once the pipe is empty the reads have taken exactly the
records, and behind them the end of file. -/
theorem delivered (h : p.Log sent got) (hqueue : p.queue = []) :
    ∃ k, got = sent.map some ++ List.replicate k none := by
  obtain ⟨taken, k, rfl, rfl, -⟩ := h
  exact ⟨k, by simp [hqueue]⟩

/-- After more reads than records no write end is open. -/
theorem closed (h : p.Log sent got) (hlt : sent.length < got.length) : p.writers = ∅ := by
  obtain ⟨taken, k, rfl, rfl, hend⟩ := h
  refine (hend ?_).2
  rintro rfl
  simp only [List.length_append, List.length_map, List.length_replicate] at hlt
  omega

section Steps

variable [DecidableEq ω]

/-- Nothing is written behind an end of file. -/
theorem write (h : p.Log sent got) (hwrite : p.write w a = some p') : p'.Log (sent ++ [a]) got := by
  obtain ⟨hw, rfl⟩ := write_eq_some.mp hwrite
  obtain ⟨taken, k, hgot, rfl, hend⟩ := h
  refine ⟨taken, k, hgot, List.append_assoc .., fun hk => ?_⟩
  simp [(hend hk).2] at hw

theorem dup (h : p.Log sent got) (hdup : p.dup w w' = some p') : p'.Log sent got := by
  obtain ⟨hw, rfl⟩ := dup_eq_some.mp hdup
  obtain ⟨taken, k, hgot, hsent, hend⟩ := h
  refine ⟨taken, k, hgot, hsent, fun hk => ?_⟩
  simp [(hend hk).2] at hw

theorem close (h : p.Log sent got) (w : ω) : (p.close w).Log sent got := by
  obtain ⟨taken, k, hgot, hsent, hend⟩ := h
  exact ⟨taken, k, hgot, hsent, fun hk => ⟨(hend hk).1, by simp [Pipe.close, (hend hk).2]⟩⟩

theorem read (h : p.Log sent got) (hread : p.read = some (g, p')) : p'.Log sent (got ++ [g]) := by
  obtain ⟨taken, k, rfl, rfl, hend⟩ := h
  rcases read_eq_some.mp hread with ⟨a, rfl, hqueue, -⟩ | ⟨rfl, hqueue, hwriters, rfl⟩
  · obtain rfl : k = 0 := by
      by_contra hk
      simp [(hend hk).1] at hqueue
    exact ⟨taken ++ [a], 0, by simp, by simp [hqueue], by simp⟩
  · refine ⟨taken, k + 1, ?_, rfl, fun _ => ⟨hqueue, hwriters⟩⟩
    rw [List.replicate_succ', List.append_assoc]

end Steps

end Log

end Pipe
