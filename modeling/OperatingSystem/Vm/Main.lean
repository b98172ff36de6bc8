import OperatingSystem.Lib.Stdio
import OperatingSystem.Vm.Run

/-!
# OperatingSystem.Vm.Main

`main` of `vm.c`, which reads requests from standard input and passes them to
`MMU`, and `main` of `input_gen.c`, which writes such requests.

`vm.c` gives up at the first line that is no request, and then prints no
statistics.  It never resets `hit` and `tlbhit`: `MMU` leaves them alone when it
refuses a request, so the line printed for that one repeats the flags of the
request before it, or whatever the variables held at the start.
-/

namespace OperatingSystem.Vm

open Numeral
open Stdio (lines cstr isspace scanNumber toInt toUnsigned atoi str newline)

/-! ## vm.c -/

/-- What the simulator writes. -/
inductive Output where
  | usage
  | policy (replacementPolicy : Int) (name : String)
  /-- The lines of `MMU` for a request that it refuses. -/
  | invalidPage (pid addr : Int)
  | invalidPid (pid addr : Int)
  | translated (pid : Int) (type : Char) (tlbhit hit : Bool) (addr physicalAddr : Int)
  | invalidFormat
  /-- `pt_print_stats` and `disk_print_stats`. -/
  | stats (req hit miss tlbHit tlbMiss : Nat)
  | disk (numDiskRead numDiskWrite : Nat)
deriving DecidableEq

/-- The constants of `vm.h`, with the names `main` prints. -/
def policyOf (replacementPolicy : Int) : Option (Policy × String) :=
  if replacementPolicy = 0 then some (.random, "RANDOM")
  else if replacementPolicy = 1 then some (.fifo, "FIFO")
  else if replacementPolicy = 2 then some (.lru, "LRU")
  else if replacementPolicy = 3 then some (.clock, "CLOCK")
  else none

/-- `sscanf(input, "%d %c 0x%x", &pid, &type, &addr)`, if it fills all three. -/
def scanRequest (input : List Byte) : Option (Int × Char × Int) := do
  let (pid, s) ← scanNumber 10 (cstr input)
  match s.dropWhile isspace with
  | [] => none
  | type :: s =>
      let s := s.dropWhile isspace
      if s.take 2 = [48, 120] then do
        let (addr, _) ← scanNumber 16 (s.drop 2)
        return (toInt pid, Char.ofNat type.toNat, toUnsigned addr)
      else none

/-- What `MMU` prints. -/
def mmuOutput (pid addr : Int) : List Output :=
  if addr.shiftRight 8 > maxPage then [.invalidPage pid addr]
  else if pid > maxPid then [.invalidPid pid addr]
  else []

def ptPrintStats (s : State) : Output :=
  .stats (s.stats.hitCount + s.stats.missCount) s.stats.hitCount s.stats.missCount s.stats.tlbHitCount s.stats.tlbMissCount

def diskPrintStats (s : State) : Output := .disk s.numDiskRead s.numDiskWrite

/-- The loop of `main` over the lines, and what comes behind it.  `rnd k` is what
`rand()` returns if request number `k` makes a random eviction. -/
def mainLoop (rnd : Nat → Nat) : Nat → List (List Byte) → State → Bool → Bool → Option (List Output)
  | _, [], s, _, _ => some [ptPrintStats s, diskPrintStats s]
  | k, input :: inputs, s, hit, tlbhit =>
      if input.head? = some 35 then mainLoop rnd k inputs s hit tlbhit
      else
        match scanRequest input with
        | none => some [.invalidFormat]
        | some (pid, type, addr) => do
            let (s, r) ← mmu s pid addr type (rnd k) hit tlbhit
            let out ← mainLoop rnd (k + 1) inputs s r.hit r.tlbhit
            return mmuOutput pid addr ++ .translated pid type r.tlbhit r.hit addr r.physicalAddr :: out

/-- `main`; `hit` and `tlbhit` are what these variables hold before they are set. -/
def main (argc : Int) (arg : List Byte) (rnd : Nat → Nat) (hit tlbhit : Bool) (stdin : List Byte) : Option (List Output) :=
  if argc < 2 then some [.usage]
  else
    match policyOf (atoi arg) with
    | none => some [.policy (atoi arg) "UNKNOWN!"]
    | some (policy, name) =>
        (mainLoop rnd 0 (lines 256 stdin) (State.init policy) hit tlbhit).map (.policy (atoi arg) name :: ·)

/-! ## input_gen.c -/

/-- `printf("%d %c 0x%x\n", pid, type, addr)`, without the newline. -/
def requestLine (pid : Int) (type : Byte) (addr : Nat) : List Byte :=
  printInt pid ++ [32, type, 32, 48, 120] ++ printNat 16 addr

/-- A request of the generator, from the four values of `rand()` in one round. -/
structure Draw where
  pid : Nat
  page : Nat
  offset : Nat
  type : Nat

namespace Draw

def typeByte (d : Draw) : Byte := if d.type % 2 = 0 then 82 else 87

def addr (d : Draw) : Nat := d.page % maxPage * 256 + d.offset % 0xFF

def line (d : Draw) : List Byte := requestLine (d.pid % maxPid : Nat) d.typeByte d.addr

end Draw

/-- The values of `rand()`, in rounds of four. -/
def draw (rand : Nat → Nat) (i : Nat) : Draw := ⟨rand (4 * i), rand (4 * i + 1), rand (4 * i + 2), rand (4 * i + 3)⟩

/-- What `input_gen` writes with the argument `reqNum`. -/
def inputGen (reqNum : Int) (rand : Nat → Nat) : List Byte :=
  (List.range reqNum.toNat).flatMap fun i => (draw rand i).line ++ [newline]

end OperatingSystem.Vm
