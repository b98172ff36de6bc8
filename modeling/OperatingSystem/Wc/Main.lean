import Mathlib.Algebra.BigOperators.Fin
import OperatingSystem.Lib.Pipe
import OperatingSystem.Lib.Run
import OperatingSystem.Wc.Count

/-!
# OperatingSystem.Wc.Main

`main` of `wc_multi.c`: a parent forks a child for each file, the children
write their counts to a pipe, and the parent reads as many times as there are
files and adds up.  A schedule is a list of events; a child may end before it
writes, `fork` and `pipe` may fail, and a read blocks until there is a record or
all write ends are closed.

The parent does not look at what `read` returns.  At end of file it adds what is
in `kk`, an array of the block that no code has initialised.
-/

namespace OperatingSystem.Wc

/-- Where the parent is: before `pipe`, in the first loop with `i` children
forked, in the second loop behind `j` reads, behind a failed `pipe`, or gone. -/
inductive Parent where
  | start
  | forking (i : Nat)
  | reading (j : Nat)
  | unpiped
  | exited
deriving DecidableEq

/-- Where a child is. -/
inductive Child where
  | unborn
  | counting
  | written
  | ended
deriving DecidableEq

/-- The processes, for `n` files.  The write end of the parent is `none`, that
of child `i` is `some i`. -/
structure Sys (n : Nat) where
  parent : Parent
  child : Fin n → Child
  pipe : Pipe Count (Option (Fin n))
  count : Count
  printed : Option Count

/-- What happens next: a call of the parent, or of child `i`.  `kk` is what the
array of that name holds at the start of the loop's body. -/
inductive Event (n : Nat) where
  | pipe (ok : Bool)
  | fork (ok : Bool)
  | close
  | read (kk : Count)
  | print
  | write (i : Fin n)
  | finish (i : Fin n)
deriving DecidableEq

/-- Before the pipe. -/
def Sys.start (n : Nat) : Sys n := ⟨.start, fun _ => .unborn, ⟨[], ∅⟩, 0, none⟩

/-- `main` up to the pipe, where `numFiles` is the number `atoi` reads in the
first argument; `none` where the usage is printed. -/
def main (argc numFiles : Int) : Option (Σ n, Sys n) :=
  if argc < 2 then none
  else if numFiles ≤ 0 ∨ numFiles > 10 then none
  else some ⟨numFiles.toNat, .start numFiles.toNat⟩

/-- One event, where `tmp i` is the count of file `i`; `none` if it cannot happen
in this state. -/
def step (tmp : Fin n → Count) (s : Sys n) : Event n → Option (Sys n)
  | .pipe ok =>
      if s.parent = .start then
        some (if ok then { s with parent := .forking 0, pipe := .create none } else { s with parent := .unpiped })
      else none
  | .fork ok =>
      match s.parent with
      | .forking i =>
          if h : i < n then
            if ok then
              (s.pipe.dup none (some ⟨i, h⟩)).map fun p =>
                { s with parent := .forking (i + 1), child := Function.update s.child ⟨i, h⟩ .counting, pipe := p }
            else some { s with parent := .exited, pipe := s.pipe.close none }
          else none
      | _ => none
  | .close => if s.parent = .forking n then some { s with parent := .reading 0, pipe := s.pipe.close none } else none
  | .read kk =>
      match s.parent with
      | .reading j =>
          if j < n then
            s.pipe.read.map fun (got, p) =>
              { s with parent := .reading (j + 1), pipe := p, count := s.count + got.getD kk }
          else none
      | _ => none
  | .print =>
      if s.parent = .reading n ∨ s.parent = .unpiped then
        some { s with parent := .exited, printed := some s.count }
      else none
  | .write i =>
      if s.child i = .counting then
        (s.pipe.write (some i) (tmp i)).map fun p =>
          { s with child := Function.update s.child i .written, pipe := p }
      else none
  | .finish i =>
      if s.child i = .counting ∨ s.child i = .written then
        some { s with child := Function.update s.child i .ended, pipe := s.pipe.close (some i) }
      else none

end OperatingSystem.Wc
