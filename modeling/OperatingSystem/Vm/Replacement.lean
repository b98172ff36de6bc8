import OperatingSystem.Vm.State
import Mathlib.Data.List.FinRange

/-!
# OperatingSystem.Vm.Replacement

The four page-replacement policies of `replacement.c`.  The frame a policy
returns is meaningful on a fault with all frames in use (`lru_flag = 2`); on a
hit or a fault with a free frame only LRU is called, to update its list.
-/

namespace OperatingSystem.Vm

open Dlist

/-! ## replacement.c -/

/-- `random()`; `rnd` is what `rand()` returns. -/
def random (rnd : Nat) : Int := rnd % maxPage

def fifo (r : Repl) : Repl × Int :=
  ({ r with fifoIndex := r.fifoIndex + 1 }, r.fifoIndex % maxFrame)

/-- `lru()`.  The walk to the tail moves `head` itself and walks it back, so
only the frame at the tail is kept of it. -/
def lru (r : Repl) : Option (Repl × Int) :=
  if r.lruFlag = 1 ∨ r.lruFlag = 3 then do
    let (h, head) ← listRemove r.heap r.head r.frameRef
    let (h, head) ← listInsertHead h head r.frameRef
    return ({ r with heap := h, head := head }, 0)
  else if r.lruFlag = 2 then do
    let head ← r.head
    let tail ← lastNode r.heap r.heap.brk head
    let n ← r.heap.cells tail
    let frameRef := n.data
    let head ← firstNode r.heap r.heap.brk tail
    let (h, head) ← listRemoveTail r.heap (some head)
    let (h, head) ← listInsertHead h head frameRef
    return ({ r with heap := h, head := head, frameRef := frameRef }, frameRef)
  else some (r, 0)

/-- One loop of `clock()`: clear the flags that are set, up to the first frame
whose flag is not; that frame's flag is set. -/
def clockSweep (flags : Arr maxFrame Int) : List (Fin maxFrame) → Arr maxFrame Int × Option (Fin maxFrame)
  | [] => (flags, none)
  | i :: is =>
      if flags i = 1 then clockSweep (Function.update flags i 0) is
      else (Function.update flags i 1, some i)

def clock (r : Repl) : Repl × Int :=
  match clockSweep r.clockFlag ((List.finRange maxFrame).filter (r.clockIndex ≤ ·)) with
  | (flags, some i) => ({ r with clockFlag := flags, clockIndex := i }, i.val)
  | (flags, none) =>
      match clockSweep flags ((List.finRange maxFrame).filter (· < r.clockIndex)) with
      | (flags, some i) => ({ r with clockFlag := flags, clockIndex := i }, i.val)
      | (flags, none) => ({ r with clockFlag := flags }, r.clockIndex.val)

def pageReplacement (replacementPolicy : Policy) (r : Repl) (rnd : Nat) : Option (Repl × Int) :=
  match replacementPolicy with
  | .random => some (r, random rnd)
  | .fifo => some (fifo r)
  | .lru => lru r
  | .clock => some (clock r)

end OperatingSystem.Vm
