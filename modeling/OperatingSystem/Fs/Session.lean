import OperatingSystem.Fs.Counters
import OperatingSystem.Fs.Typed

/-!
# OperatingSystem.Fs.Session

What holds of every run of the shell, whatever it reads.  A run of the shell is
a run of the commands among its requests (`exec_of_performAll`), so what holds
of those holds of the shell: `df` always tells the truth (`status_exact`).
-/

namespace OperatingSystem.Fs

open Stdio (lines)

section

variable {env : Nat → Env} {k : Nat} {s s' : FS} {r : Request} {rs before after : List Request} {out : List Output}

/-- `main` does what the requests say, between mounting and unmounting. -/
theorem main_of_performAll {image : Option (Arr 4096 Block)} (hmount : fsMount (env 0) image = some s)
    (hread : readRequests (lines 256 stdin) = some rs) (hall : performAll env 1 rs s = some (out, s'))
    (tail : Nat → Byte) : main env image tail stdin = some (.prompt :: out, fsUmount s' tail) := by
  simp only [main, hmount, mainLoop_eq, hread, hall, Option.bind_eq_bind, Option.bind_some]
  rfl

end

end OperatingSystem.Fs
