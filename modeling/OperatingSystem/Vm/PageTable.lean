import OperatingSystem.Vm.Replacement

/-!
# OperatingSystem.Vm.PageTable

The memory management unit of `pagetable.c`: a request is looked up in the
TLB, then in the page table, and served by the page-fault handler when both
miss.  A lookup returns the frame number, or `-1` on a miss.
-/

namespace OperatingSystem.Vm

/-! ## pagetable.c -/

/-- What a lookup that found a frame, or a load that took one, does for the
replacement policy.  LRU moves the frame to the head of its list, CLOCK sets its
reference flag. -/
def touchFrame (replacementPolicy : Policy) (r : Repl) (frame : Int) (lruFlag rnd : Nat) : Option Repl :=
  match replacementPolicy with
  | .lru =>
      (pageReplacement .lru { r with frameRef := frame, lruFlag := lruFlag } rnd).map Prod.fst
  | .clock =>
      (r.clockFlag.write frame 1).map fun flags => { r with frameRef := frame, clockFlag := flags }
  | _ => some r

/-- `is_page_hit`. -/
def isPageHit (s : State) (x : VPage) (type : Char) (rnd : Nat) : Option (State × Int) :=
  if (s.entry x).valid then do
    let frame := (s.entry x).frameNo
    let s := s.markDirty x type
    let r ← touchFrame s.replacementPolicy { s.repl with currentFrame := frame } frame 1 rnd
    let s := { s with repl := r }
    -- a page hit is a TLB miss, so the TLB is filled
    let s := s.tlbInsert x frame
    return (s, frame)
  else some (s, -1)

/-- The loop over the two ways of the victim's TLB set: a way that carries its
page number is invalidated, and the set's pointer steered past it. -/
def tlbInvalidateSet (t : TLB) (ptr : Fin 2) (page : Int) : TLB × Fin 2 :=
  ([0, 1] : List (Fin 2)).foldl (fun (t, ptr) j =>
    if t.entry j = page then ({ t with valid := Function.update t.valid j false }, 1 - j)
    else (t, ptr)) (t, ptr)

/-- The TLB part of an eviction. -/
def tlbInvalidate (s : State) (victim : VPage) : State :=
  let i := tlbSet victim
  let t := tlbInvalidateSet (s.tlb i) (s.tlbsetPtr i) victim.2
  { s with
    tlb := Function.update s.tlb i t.1
    tlbsetPtr := Function.update s.tlbsetPtr i t.2 }

/-- The eviction branch of `pagefault_handler`.  The TLB slot of the new page
is filled before the page table is, so it caches the page's previous frame
number. -/
def pagefaultEvict (s : State) (x : VPage) (type : Char) (rnd : Nat) : Option (State × Int) := do
  let (r, victimFrame) ← pageReplacement s.replacementPolicy { s.repl with lruFlag := 2 } rnd
  let s := { s with repl := r }
  let victim ← s.invertTable.read victimFrame
  let s := tlbInvalidate s victim
  let s := s.tlbInsert x (s.entry x).frameNo
  let s := s.setEntry victim { s.entry victim with valid := false }
  let s := if (s.entry victim).dirty then
      (s.diskWrite victimFrame victim).setEntry victim { s.entry victim with dirty := false }
    else s
  let s := s.setEntry x { s.entry x with valid := true, frameNo := victimFrame }
  let s := s.diskRead victimFrame x
  let invert ← s.invertTable.write victimFrame x
  let s := { s with invertTable := invert }
  let s := s.setEntry x { s.entry x with dirty := false }
  let s := s.markDirty x type
  return (s, victimFrame)

/-- The branch of `pagefault_handler` that takes the next free frame. -/
def pagefaultLoad (s : State) (x : VPage) (type : Char) (rnd : Nat) : Option (State × Int) := do
  let frame := s.frameInd
  let s := s.setEntry x { s.entry x with valid := true, frameNo := frame }
  let r ← touchFrame s.replacementPolicy { s.repl with lruFlag := 3, currentFrame := frame } frame 3 rnd
  let s := { s with repl := r }
  let s := s.diskRead frame x
  let invert ← s.invertTable.write frame x
  let s := { s with invertTable := invert }
  let s := s.setEntry x { s.entry x with dirty := false }
  let s := s.markDirty x type
  let s := s.tlbInsert x frame
  let s := { s with frameInd := s.frameInd + 1 }
  return (s, frame)

/-- `pagefault_handler`. -/
def pagefaultHandler (s : State) (x : VPage) (type : Char) (rnd : Nat) : Option (State × Int) :=
  if s.frameInd = maxFrame then pagefaultEvict s x type rnd else pagefaultLoad s x type rnd

/-- The body of the loop of `is_TLB_hit`, for a way that matched.  The frame
comes from the page table, not from the TLB. -/
def tlbHitAt (s : State) (x : VPage) (type : Char) (rnd : Nat) (k : Fin 2) : Option (State × Int) := do
  let frame := (s.entry x).frameNo
  let s := { s with tlbsetPtr := Function.update s.tlbsetPtr (tlbSet x) k }
  let s := s.markDirty x type
  let r ← touchFrame s.replacementPolicy { s.repl with currentFrame := frame } frame 1 rnd
  return ({ s with repl := r }, frame)

/-- `is_TLB_hit`. -/
def isTlbHit (s : State) (x : VPage) (type : Char) (rnd : Nat) : Option (State × Int) :=
  let t := s.tlb (tlbSet x)
  match [0, 1].find? fun k => t.valid k && t.entry k == (x.2 : Int) with
  | some k => tlbHitAt s x type rnd k
  | none => some (s, -1)

/-- What `MMU` returns: the physical address, and the two flags it writes. -/
structure Reply where
  physicalAddr : Int
  hit : Bool
  tlbhit : Bool
deriving DecidableEq, Repr

/-- An `int` used as an index of a dimension of size `n`; `none` outside it. -/
def index (n : Nat) (i : Int) : Option (Fin n) :=
  if h : 0 ≤ i ∧ i < n then some ⟨i.toNat, Arr.toNat_lt h⟩ else none

/-- The part of `MMU` behind its two guards, for a page of the table. -/
def serve (s : State) (x : VPage) (offset : Int) (type : Char) (rnd : Nat) : Option (State × Reply) := do
  let (s, frameNo) ← isTlbHit s x type rnd
  if frameNo > -1 then
    let s := { s with stats := { s.stats with
      hitCount := s.stats.hitCount + 1, tlbHitCount := s.stats.tlbHitCount + 1 } }
    return (s, ⟨frameNo * 256 + offset, true, true⟩)
  else do
    let (s, frameNo) ← isPageHit s x type rnd
    if frameNo > -1 then
      let s := { s with stats := { s.stats with
        hitCount := s.stats.hitCount + 1, tlbMissCount := s.stats.tlbMissCount + 1 } }
      return (s, ⟨frameNo * 256 + offset, true, false⟩)
    else do
      let (s, frameNo) ← pagefaultHandler s x type rnd
      let s := { s with stats := { s.stats with
        missCount := s.stats.missCount + 1, tlbMissCount := s.stats.tlbMissCount + 1 } }
      return (s, ⟨frameNo * 256 + offset, false, false⟩)

/-- `MMU(pid, addr, type, &hit, &tlbhit)`; `hit` and `tlbhit` are the flags'
values before the call.  The guards compare with `>`, so a page number or a pid
equal to its bound, or a negative one, gets past them and indexes outside the
tables. -/
def mmu (s : State) (pid addr : Int) (type : Char) (rnd : Nat) (hit tlbhit : Bool) :
    Option (State × Reply) :=
  let pageNo := addr.shiftRight 8
  let offset := addr - pageNo * 256
  if pageNo > maxPage then some (s, ⟨-1, hit, tlbhit⟩)
  else if pid > maxPid then some (s, ⟨-1, hit, tlbhit⟩)
  else do
    let pid ← index maxPid pid
    let page ← index maxPage pageNo
    serve s (pid, page) offset type rnd

end OperatingSystem.Vm
