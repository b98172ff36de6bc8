import Mathlib.Algebra.GroupWithZero.Nat
import OperatingSystem.Lib.Arr
import OperatingSystem.Vm.List

/-!
# OperatingSystem.Vm.State

The global variables of the virtual-memory simulator (`pagetable.h`,
`pagetable.c`, `replacement.c`, `disk.c`), as one state record.

Process and page numbers are indices of the tables, so they are `Fin` values;
frame numbers are C `int`s that index the frame arrays, and an index outside
an array is undefined behaviour (`Arr.read`, `Arr.write`).  The counters are
unbounded: the simulator's `int`s agree with them below `2 ^ 31`.

`disk.c` only counts its calls; here each call is also recorded in
`diskLog`, so that a later layer can say what the transfers move.
-/

namespace OperatingSystem.Vm

open Dlist

/-! ## vm.h -/

abbrev maxFrame : Nat := 8
abbrev maxPage : Nat := 8
abbrev maxPid : Nat := 2

/-- Sets of the two-way TLB: `TLB_ENTRY / 2`. -/
abbrev tlbSets : Nat := 2

scoped instance neZero_two : NeZero 2 := ⟨Nat.succ_ne_zero 1⟩
scoped instance neZero_eight : NeZero 8 := ⟨Nat.succ_ne_zero 7⟩

/-- `replacementPolicy`. -/
inductive Policy where
  | random
  | fifo
  | lru
  | clock
deriving DecidableEq, Repr

abbrev Pid := Fin maxPid
abbrev Page := Fin maxPage

/-- A virtual page: the row and the column of the page table. -/
abbrev VPage := Pid × Page

/-- `pageNo % (TLB_ENTRY/2)` in the TLB row of `pid`. -/
def tlbSet (x : VPage) : Pid × Fin tlbSets := (x.1, ⟨x.2 % tlbSets, Nat.mod_lt _ (by decide)⟩)

/-! ## pagetable.h -/

structure PTE where
  frameNo : Int
  valid : Bool
  dirty : Bool
deriving DecidableEq, Repr

structure Stats where
  hitCount : Nat
  missCount : Nat
  tlbHitCount : Nat
  tlbMissCount : Nat
deriving DecidableEq, Repr

/-- One set of the TLB: the virtual page, the cached frame and the valid bit
of each of its two ways. -/
structure TLB where
  entry : Fin 2 → Int
  frameNo : Fin 2 → Int
  valid : Fin 2 → Bool

/-! ## disk.c -/

/-- A call of `disk_read` or `disk_write`: the frame and the page. -/
inductive DiskOp where
  | read (frame : Int) (page : VPage)
  | write (frame : Int) (page : VPage)
deriving DecidableEq, Repr

/-! ## The globals -/

/-- The variables the replacement policies keep: the flag and the frame that
tell LRU what to do, its list, and the state of CLOCK and FIFO. -/
structure Repl where
  lruFlag : Nat
  clockFlag : Arr maxFrame Int
  currentFrame : Int
  frameRef : Int
  heap : Heap Int
  head : Ptr
  clockIndex : Fin maxFrame
  fifoIndex : Nat

structure State where
  replacementPolicy : Policy
  entry : VPage → PTE
  stats : Stats
  invertTable : Arr maxFrame VPage
  tlb : Pid × Fin tlbSets → TLB
  tlbsetPtr : Pid × Fin tlbSets → Fin 2
  frameInd : Int
  repl : Repl
  numDiskRead : Nat
  numDiskWrite : Nat
  diskLog : List DiskOp

/-- The zeroed globals of the policies. -/
def Repl.init : Repl where
  lruFlag := 0
  clockFlag := fun _ => 0
  currentFrame := 0
  frameRef := 0
  heap := Heap.empty
  head := none
  clockIndex := 0
  fifoIndex := 0

/-- The zeroed globals after `pt_init` and `tlb_init`.  `tlbset_ptr` is
declared with the initialiser `{1}`, which sets its first element only. -/
def State.init (policy : Policy) : State where
  replacementPolicy := policy
  entry := fun _ => ⟨0, false, false⟩
  stats := ⟨0, 0, 0, 0⟩
  invertTable := fun _ => (0, 0)
  tlb := fun _ => ⟨fun _ => 0, fun _ => 0, fun _ => false⟩
  tlbsetPtr := fun i => if i = (0, 0) then 1 else 0
  frameInd := 0
  repl := Repl.init
  numDiskRead := 0
  numDiskWrite := 0
  diskLog := []

namespace State

def diskRead (s : State) (frame : Int) (x : VPage) : State :=
  { s with numDiskRead := s.numDiskRead + 1, diskLog := s.diskLog ++ [.read frame x] }

def diskWrite (s : State) (frame : Int) (x : VPage) : State :=
  { s with numDiskWrite := s.numDiskWrite + 1, diskLog := s.diskLog ++ [.write frame x] }

/-- `pageTable.entry[pid][pageNo] = e`. -/
def setEntry (s : State) (x : VPage) (e : PTE) : State :=
  { s with entry := Function.update s.entry x e }

/-- `if(type == 'W') pageTable.entry[pid][pageNo].dirty = true`. -/
def markDirty (s : State) (x : VPage) (type : Char) : State :=
  s.setEntry x { s.entry x with dirty := if type = 'W' then true else (s.entry x).dirty }

/-- The TLB insertion all three access paths make: flip the set's pointer and
fill the way it now points to. -/
def tlbInsert (s : State) (x : VPage) (frame : Int) : State :=
  let i := tlbSet x
  let k := 1 - s.tlbsetPtr i
  let t := s.tlb i
  { s with
    tlbsetPtr := Function.update s.tlbsetPtr i k
    tlb := Function.update s.tlb i
      { entry := Function.update t.entry k (x.2 : Int)
        frameNo := Function.update t.frameNo k frame
        valid := Function.update t.valid k true } }

end State

end OperatingSystem.Vm
