import OperatingSystem.Vm.Run

/-!
# OperatingSystem.Vm.Checked

The memory management unit on the tables as C has them: arrays of arrays
indexed by `int`s, also where the index was itself read from a table.  An index
outside `pageTable.entry`, `tlb` or `tlbset_ptr` is a trap of its own
(`Trap.bounds`), so that one can say which requests stay inside these tables.

On pages of the tables this machine does what the one of
`OperatingSystem.Vm.PageTable` does (`mmu_toChecked`): every index it takes from
a table is one that a request of a page of the tables put there.  A request that
is not to such a page is refused only when its pid or its page number is greater
than the bound; any other indexes outside the tables (`guards_exact_iff`).
-/

namespace OperatingSystem.Vm.Checked

/-! ## Accesses -/

/-- Why the machine stops: an index outside the three tables, or anything else
(a null pointer in the list, a frame that does not exist). -/
inductive Trap where
  | bounds
  | other
deriving DecidableEq, Repr

/-- `a[m][n]`. -/
abbrev Table (m n : Nat) (α : Type) := Arr m (Arr n α)

def inBounds : Option α → Except Trap α
  | some x => .ok x
  | none => .error .bounds

def other : Option α → Except Trap α
  | some x => .ok x
  | none => .error .other

/-- `a[i][j]`. -/
def read (a : Table m n α) (i j : Int) : Except Trap α := inBounds ((Arr.read a i).bind (·.read j))

/-- `a[i][j] = x`. -/
def write (a : Table m n α) (i j : Int) (x : α) : Except Trap (Table m n α) :=
  inBounds ((Arr.read a i).bind fun row => (row.write j x).bind fun row => Arr.write a i row)

/-! ## The tables -/

/-- The globals of `pagetable.c`, with the pids and pages of the inverted table
and the pointers of the TLB sets as `int`s. -/
structure State where
  replacementPolicy : Policy
  entry : Table maxPid maxPage PTE
  stats : Stats
  invertTable : Arr maxFrame (Int × Int)
  tlb : Table maxPid tlbSets TLB
  tlbsetPtr : Table maxPid tlbSets Int
  frameInd : Int
  repl : Repl
  numDiskRead : Nat
  numDiskWrite : Nat

/-- The zeroed globals after `pt_init` and `tlb_init`. -/
def State.init (policy : Policy) : State where
  replacementPolicy := policy
  entry := fun _ _ => ⟨0, false, false⟩
  stats := ⟨0, 0, 0, 0⟩
  invertTable := fun _ => (0, 0)
  tlb := fun _ _ => ⟨fun _ => 0, fun _ => 0, fun _ => false⟩
  tlbsetPtr := fun i j => if i = 0 ∧ j = 0 then 1 else 0
  frameInd := 0
  repl := Repl.init
  numDiskRead := 0
  numDiskWrite := 0

/-- `pageNo%(TLB_ENTRY/2)`, of the sign of `pageNo`. -/
def tlbSet (pageNo : Int) : Int := pageNo.tmod tlbSets

namespace State

def modifyEntry (c : State) (pid pageNo : Int) (f : PTE → PTE) : Except Trap State := do
  let e ← read c.entry pid pageNo
  let entry ← write c.entry pid pageNo (f e)
  return { c with entry := entry }

/-- `if(type == 'W') pageTable.entry[pid][pageNo].dirty = true`. -/
def markDirty (c : State) (pid pageNo : Int) (type : Char) : Except Trap State :=
  c.modifyEntry pid pageNo fun e => { e with dirty := if type = 'W' then true else e.dirty }

/-- The insertion into the TLB. -/
def tlbInsert (c : State) (pid pageNo frame : Int) : Except Trap State := do
  let ptr ← read c.tlbsetPtr pid (tlbSet pageNo)
  let ptr := 1 - ptr
  let tlbsetPtr ← write c.tlbsetPtr pid (tlbSet pageNo) ptr
  let t ← read c.tlb pid (tlbSet pageNo)
  let entry ← inBounds (Arr.write t.entry ptr pageNo)
  let frameNo ← inBounds (Arr.write t.frameNo ptr frame)
  let valid ← inBounds (Arr.write t.valid ptr true)
  let tlb ← write c.tlb pid (tlbSet pageNo) ⟨entry, frameNo, valid⟩
  return { c with tlbsetPtr := tlbsetPtr, tlb := tlb }

def diskRead (c : State) : State := { c with numDiskRead := c.numDiskRead + 1 }

def diskWrite (c : State) : State := { c with numDiskWrite := c.numDiskWrite + 1 }

end State

/-! ## pagetable.c -/

/-- `is_page_hit`. -/
def isPageHit (c : State) (pid pageNo : Int) (type : Char) (rnd : Nat) : Except Trap (State × Int) := do
  let e ← read c.entry pid pageNo
  if e.valid then do
    let c ← c.markDirty pid pageNo type
    let r ← other (touchFrame c.replacementPolicy { c.repl with currentFrame := e.frameNo } e.frameNo 1 rnd)
    let c ← { c with repl := r }.tlbInsert pid pageNo e.frameNo
    return (c, e.frameNo)
  else return (c, -1)

/-- The loop over the ways of the victim's TLB set. -/
def tlbInvalidate (c : State) (pid page : Int) : List (Fin 2) → Except Trap State
  | [] => .ok c
  | j :: js => do
      let t ← read c.tlb pid (tlbSet page)
      if t.entry j = page then do
        let tlb ← write c.tlb pid (tlbSet page) { t with valid := Function.update t.valid j false }
        let tlbsetPtr ← write c.tlbsetPtr pid (tlbSet page) (1 - j)
        tlbInvalidate { c with tlb := tlb, tlbsetPtr := tlbsetPtr } pid page js
      else tlbInvalidate c pid page js

/-- The writeback of a dirty victim. -/
def writeback (c : State) (pid pageNo : Int) : Except Trap State := do
  let e ← read c.entry pid pageNo
  if e.dirty then c.diskWrite.modifyEntry pid pageNo fun e => { e with dirty := false }
  else return c

/-- The eviction branch of `pagefault_handler`. -/
def pagefaultEvict (c : State) (pid pageNo : Int) (type : Char) (rnd : Nat) : Except Trap (State × Int) := do
  let (r, victimFrame) ← other (pageReplacement c.replacementPolicy { c.repl with lruFlag := 2 } rnd)
  let c := { c with repl := r }
  let (victimPid, victimPage) ← other (c.invertTable.read victimFrame)
  let c ← tlbInvalidate c victimPid victimPage [0, 1]
  let e ← read c.entry pid pageNo
  let c ← c.tlbInsert pid pageNo e.frameNo
  let c ← c.modifyEntry victimPid victimPage fun e => { e with valid := false }
  let c ← writeback c victimPid victimPage
  let c ← c.modifyEntry pid pageNo fun e => { e with valid := true, frameNo := victimFrame }
  let c := c.diskRead
  let invert ← other (c.invertTable.write victimFrame (pid, pageNo))
  let c ← { c with invertTable := invert }.modifyEntry pid pageNo fun e => { e with dirty := false }
  let c ← c.markDirty pid pageNo type
  return (c, victimFrame)

/-- The branch of `pagefault_handler` that takes the next free frame. -/
def pagefaultLoad (c : State) (pid pageNo : Int) (type : Char) (rnd : Nat) : Except Trap (State × Int) := do
  let frame := c.frameInd
  let c ← c.modifyEntry pid pageNo fun e => { e with valid := true, frameNo := frame }
  let r ← other (touchFrame c.replacementPolicy { c.repl with lruFlag := 3, currentFrame := frame } frame 3 rnd)
  let c := { c with repl := r }.diskRead
  let invert ← other (c.invertTable.write frame (pid, pageNo))
  let c ← { c with invertTable := invert }.modifyEntry pid pageNo fun e => { e with dirty := false }
  let c ← c.markDirty pid pageNo type
  let c ← c.tlbInsert pid pageNo frame
  return ({ c with frameInd := c.frameInd + 1 }, frame)

/-- `pagefault_handler`. -/
def pagefaultHandler (c : State) (pid pageNo : Int) (type : Char) (rnd : Nat) : Except Trap (State × Int) :=
  if c.frameInd = maxFrame then pagefaultEvict c pid pageNo type rnd else pagefaultLoad c pid pageNo type rnd

/-- The loop of `is_TLB_hit`. -/
def isTlbHit (c : State) (pid pageNo : Int) (type : Char) (rnd : Nat) : List (Fin 2) → Except Trap (State × Int)
  | [] => .ok (c, -1)
  | k :: ks => do
      let t ← read c.tlb pid (tlbSet pageNo)
      if t.valid k && t.entry k == pageNo then do
        let tlbsetPtr ← write c.tlbsetPtr pid (tlbSet pageNo) k
        let e ← read c.entry pid pageNo
        let c ← { c with tlbsetPtr := tlbsetPtr }.markDirty pid pageNo type
        let r ← other (touchFrame c.replacementPolicy { c.repl with currentFrame := e.frameNo } e.frameNo 1 rnd)
        return ({ c with repl := r }, e.frameNo)
      else isTlbHit c pid pageNo type rnd ks

/-- The part of `MMU` behind its two guards. -/
def serve (c : State) (pid pageNo offset : Int) (type : Char) (rnd : Nat) : Except Trap (State × Reply) := do
  let (c, frameNo) ← isTlbHit c pid pageNo type rnd [0, 1]
  if frameNo > -1 then
    let c := { c with stats := { c.stats with
      hitCount := c.stats.hitCount + 1, tlbHitCount := c.stats.tlbHitCount + 1 } }
    return (c, ⟨frameNo * 256 + offset, true, true⟩)
  else do
    let (c, frameNo) ← isPageHit c pid pageNo type rnd
    if frameNo > -1 then
      let c := { c with stats := { c.stats with
        hitCount := c.stats.hitCount + 1, tlbMissCount := c.stats.tlbMissCount + 1 } }
      return (c, ⟨frameNo * 256 + offset, true, false⟩)
    else do
      let (c, frameNo) ← pagefaultHandler c pid pageNo type rnd
      let c := { c with stats := { c.stats with
        missCount := c.stats.missCount + 1, tlbMissCount := c.stats.tlbMissCount + 1 } }
      return (c, ⟨frameNo * 256 + offset, false, false⟩)

/-- `MMU`. -/
def mmu (c : State) (pid addr : Int) (type : Char) (rnd : Nat) (hit tlbhit : Bool) :
    Except Trap (State × Reply) :=
  let pageNo := addr.shiftRight 8
  let offset := addr - pageNo * 256
  if pageNo > maxPage then .ok (c, ⟨-1, hit, tlbhit⟩)
  else if pid > maxPid then .ok (c, ⟨-1, hit, tlbhit⟩)
  else serve c pid pageNo offset type rnd

/-- One call of `MMU`, with both flags clear before it. -/
def request (c : State) (r : Request) : Except Trap (State × Reply) := mmu c r.pid r.addr r.type r.rnd false false

/-- The state after a run of requests, or the first trap. -/
def run (policy : Policy) (reqs : List Request) : Except Trap State :=
  reqs.foldlM (fun c r => (request c r).map Prod.fst) (State.init policy)

/-! ## Pages of the tables -/

/-- An inverted table of pages, as `int`s. -/
def ofInvert (t : Arr maxFrame VPage) : Arr maxFrame (Int × Int) := fun k => ((t k).1, (t k).2)

/-- The tables of the machine on pages, as `int`s. -/
def ofState (s : Vm.State) : State where
  replacementPolicy := s.replacementPolicy
  entry := fun i j => s.entry (i, j)
  stats := s.stats
  invertTable := ofInvert s.invertTable
  tlb := fun i j => s.tlb (i, j)
  tlbsetPtr := fun i j => s.tlbsetPtr (i, j)
  frameInd := s.frameInd
  repl := s.repl
  numDiskRead := s.numDiskRead
  numDiskWrite := s.numDiskWrite

/-- The outcome of the machine on pages, which cannot index outside the tables. -/
def ofOption (o : Option (Vm.State × α)) : Except Trap (State × α) := other (o.map fun p => (ofState p.1, p.2))

@[simp] theorem ok_bind (a : α) (f : α → Except Trap β) : (Except.ok a >>= f) = f a := rfl

@[simp] theorem error_bind (t : Trap) (f : α → Except Trap β) : (Except.error t >>= f) = Except.error t := rfl

@[simp] theorem pure_eq_ok (a : α) : (pure a : Except Trap α) = .ok a := rfl

@[simp] theorem inBounds_some (x : α) : inBounds (some x) = .ok x := rfl

@[simp] theorem other_some (x : α) : other (some x) = .ok x := rfl

@[simp] theorem other_none : (other none : Except Trap α) = .error .other := rfl

theorem inBounds_cases (o : Option α) : (∃ x, inBounds o = .ok x) ∨ inBounds o = .error .bounds := by
  cases o with
  | none => exact .inr rfl
  | some x => exact .inl ⟨x, rfl⟩

/-! Steps of the machine on pages that this one follows. -/

theorem bind_ok {e : Except Trap α} {a : α} {f : α → Except Trap β} {r : Except Trap β} (he : e = .ok a) (hf : f a = r) :
    (e >>= f) = r := by
  rw [he, ok_bind, hf]

theorem bind_map {e : Option β} {o : Option α} {g : α → β} {f : β → Except Trap δ} {f' : α → Option γ} {g' : γ → δ}
    (he : e = o.map g) (hf : ∀ a, f (g a) = other ((f' a).map g')) : (other e >>= f) = other ((o >>= f').map g') := by
  subst he
  cases o with
  | none => rfl
  | some a => exact hf a

theorem bind_other {o : Option α} {f : α → Except Trap δ} {f' : α → Option γ} {g' : γ → δ}
    (hf : ∀ a, f a = other ((f' a).map g')) : (other o >>= f) = other ((o >>= f').map g') :=
  bind_map (by rw [Option.map_id']) hf

theorem bind_ofOption {e : Except Trap (State × α)} {o : Option (Vm.State × α)} {f : State × α → Except Trap δ}
    {f' : Vm.State × α → Option γ} {g' : γ → δ} (he : e = ofOption o)
    (hf : ∀ s a, f (ofState s, a) = other ((f' (s, a)).map g')) : (e >>= f) = other ((o >>= f').map g') :=
  he ▸ bind_map rfl fun p => hf p.1 p.2

theorem ite_other {p : Prop} [Decidable p] {e₁ e₂ : Except Trap β} {o₁ o₂ : Option α} {g : α → β}
    (h₁ : e₁ = other (o₁.map g)) (h₂ : e₂ = other (o₂.map g)) :
    (if p then e₁ else e₂) = other ((if p then o₁ else o₂).map g) := by
  split
  · exact h₁
  · exact h₂

section Access

variable {m n : Nat} {α : Type}

@[simp] theorem read_fin (a : Table m n α) (i : Fin m) (j : Fin n) : read a i j = .ok (a i j) := by
  simp [read]

@[simp] theorem write_fin (a : Table m n α) (i : Fin m) (j : Fin n) (x : α) :
    write a i j x = .ok (Function.update a i (Function.update (a i) j x)) := by
  simp [write]

/-- An index outside the table is a trap. -/
theorem read_out (a : Table m n α) {i j : Int} (h : ¬ ((0 ≤ i ∧ i < m) ∧ (0 ≤ j ∧ j < n))) :
    read a i j = .error .bounds := by
  by_cases hi : 0 ≤ i ∧ i < m
  · have hj : ¬ (0 ≤ j ∧ j < n) := fun hj => h ⟨hi, hj⟩
    simp [read, Arr.read, hi, hj, inBounds]
  · simp [read, Arr.read, hi, inBounds]

/-- A write to a table of pairs, row by row, seen through `g`. -/
theorem map_update_pair {β γ δ : Type} [DecidableEq α] [DecidableEq β] (g : γ → δ) (f : α × β → γ) (x : α × β) (v : γ) :
    (fun i j => g (Function.update f x v (i, j))) =
      Function.update (fun i j => g (f (i, j))) x.1 (Function.update (fun j => g (f (x.1, j))) x.2 (g v)) := by
  obtain ⟨a, b⟩ := x
  funext i j
  by_cases hi : i = a
  · subst hi
    by_cases hj : j = b <;> simp [hj]
  · simp [hi]

theorem update_pair {β γ : Type} [DecidableEq α] [DecidableEq β] (f : α × β → γ) (x : α × β) (v : γ) :
    (fun i j => Function.update f x v (i, j)) =
      Function.update (fun i j => f (i, j)) x.1 (Function.update (fun j => f (x.1, j)) x.2 v) :=
  map_update_pair id f x v

end Access

theorem tlbSet_page (x : VPage) : tlbSet (x.2 : Nat) = ((Vm.tlbSet x).2 : Nat) := by
  simp [tlbSet, Vm.tlbSet, Int.tmod]

theorem one_sub_way : ∀ k : Fin 2, 1 - ((k : Nat) : Int) = ((1 - k : Fin 2) : Nat) := by decide

section OfState

variable (s : Vm.State) (x : VPage)

theorem modifyEntry_ofState (f : PTE → PTE) :
    (ofState s).modifyEntry x.1 x.2 f = .ok (ofState (s.setEntry x (f (s.entry x)))) := by
  simp only [State.modifyEntry, ofState, Vm.State.setEntry, read_fin, write_fin, ok_bind, pure_eq_ok]
  rw [update_pair]

theorem markDirty_ofState (type : Char) : (ofState s).markDirty x.1 x.2 type = .ok (ofState (s.markDirty x type)) :=
  modifyEntry_ofState s x _

theorem tlbInsert_ofState (frame : Int) :
    (ofState s).tlbInsert x.1 x.2 frame = .ok (ofState (s.tlbInsert x frame)) := by
  simp only [State.tlbInsert, tlbSet_page, ofState, read_fin, write_fin, one_sub_way, ok_bind, Arr.write_fin, inBounds_some,
    pure_eq_ok, Vm.State.tlbInsert]
  rw [update_pair, map_update_pair fun k : Fin 2 => ((k : Nat) : Int)]
  rfl

/-- One way of the victim's set. -/
theorem tlbInvalidate_cons (j : Fin 2) (js : List (Fin 2)) : tlbInvalidate (ofState s) x.1 x.2 (j :: js) =
    if (s.tlb (Vm.tlbSet x)).entry j = (x.2 : Nat) then
      tlbInvalidate (ofState { s with
        tlb := Function.update s.tlb (Vm.tlbSet x) { s.tlb (Vm.tlbSet x) with
          valid := Function.update (s.tlb (Vm.tlbSet x)).valid j false }
        tlbsetPtr := Function.update s.tlbsetPtr (Vm.tlbSet x) (1 - j) }) x.1 x.2 js
    else tlbInvalidate (ofState s) x.1 x.2 js := by
  have hread : read (ofState s).tlb x.1 (tlbSet x.2) = .ok (s.tlb (Vm.tlbSet x)) := by
    rw [tlbSet_page, read_fin]
    rfl
  rw [tlbInvalidate, hread, ok_bind]
  by_cases hj : (s.tlb (Vm.tlbSet x)).entry j = (x.2 : Nat)
  · rw [if_pos hj, if_pos hj, tlbSet_page]
    simp only [ofState, write_fin, one_sub_way, ok_bind]
    rw [update_pair, map_update_pair fun k : Fin 2 => ((k : Nat) : Int)]
    rfl
  · rw [if_neg hj, if_neg hj]

theorem tlbInvalidate_ofState : tlbInvalidate (ofState s) x.1 x.2 [0, 1] = .ok (ofState (Vm.tlbInvalidate s x)) := by
  have hnil : ∀ t, tlbInvalidate (ofState t) x.1 x.2 [] = .ok (ofState t) := fun _ => rfl
  simp only [tlbInvalidate_cons, Function.update_self, hnil]
  by_cases h0 : (s.tlb (Vm.tlbSet x)).entry 0 = (x.2 : Nat) <;>
    by_cases h1 : (s.tlb (Vm.tlbSet x)).entry 1 = (x.2 : Nat) <;>
    simp [Vm.tlbInvalidate, tlbInvalidateSet, h0, h1]

/-! ## The machine on pages of the tables -/

theorem isPageHit_ofState (type : Char) (rnd : Nat) :
    isPageHit (ofState s) x.1 x.2 type rnd = ofOption (Vm.isPageHit s x type rnd) := by
  have hread : read (ofState s).entry x.1 x.2 = .ok (s.entry x) := read_fin _ _ _
  rw [isPageHit, hread, ok_bind, Vm.isPageHit]
  by_cases hv : (s.entry x).valid = true
  · rw [if_pos hv, if_pos hv]
    refine bind_ok (markDirty_ofState s x type) (bind_other fun r => ?_)
    exact bind_ok (tlbInsert_ofState { s.markDirty x type with repl := r } x (s.entry x).frameNo) rfl
  · rw [if_neg hv, if_neg hv]
    rfl

theorem invertTable_read (f : Int) :
    (ofState s).invertTable.read f = (s.invertTable.read f).map fun y => (((y.1 : Nat) : Int), ((y.2 : Nat) : Int)) := by
  unfold Arr.read
  split <;> rfl

theorem invertTable_write (f : Int) : (ofState s).invertTable.write f ((x.1 : Nat), (x.2 : Nat)) =
    (s.invertTable.write f x).map ofInvert := by
  unfold Arr.write
  split
  · next h =>
      simp only [Option.map_some, Option.some.injEq, ofState]
      funext k
      by_cases hk : k = ⟨f.toNat, Arr.toNat_lt h⟩ <;> simp [ofInvert, hk]
  · rfl

theorem pagefaultLoad_ofState (type : Char) (rnd : Nat) :
    pagefaultLoad (ofState s) x.1 x.2 type rnd = ofOption (Vm.pagefaultLoad s x type rnd) := by
  let s₁ := s.setEntry x { s.entry x with valid := true, frameNo := s.frameInd }
  refine bind_ok (modifyEntry_ofState s x _) (bind_other fun r => ?_)
  let s₂ := ({ s₁ with repl := r } : Vm.State).diskRead s.frameInd x
  refine bind_map (invertTable_write s₂ x s.frameInd) fun t => ?_
  let s₃ : Vm.State := { s₂ with invertTable := t }
  let s₄ := s₃.setEntry x { s₃.entry x with dirty := false }
  refine bind_ok (modifyEntry_ofState s₃ x _) ?_
  refine bind_ok (markDirty_ofState s₄ x type) ?_
  exact bind_ok (tlbInsert_ofState (s₄.markDirty x type) x s.frameInd) rfl

theorem writeback_ofState (y : VPage) (frame : Int) :
    writeback (ofState s) y.1 y.2 = .ok (ofState (if (s.entry y).dirty then
      (s.diskWrite frame y).setEntry y { s.entry y with dirty := false } else s)) := by
  refine bind_ok (read_fin _ _ _) ?_
  have hentry : (ofState s).entry y.1 y.2 = s.entry y := rfl
  rw [hentry]
  split
  · exact modifyEntry_ofState (s.diskWrite frame y) y _
  · rfl

theorem pagefaultEvict_ofState (type : Char) (rnd : Nat) :
    pagefaultEvict (ofState s) x.1 x.2 type rnd = ofOption (Vm.pagefaultEvict s x type rnd) := by
  refine bind_other fun p => ?_
  let s₁ : Vm.State := { s with repl := p.1 }
  refine bind_map (invertTable_read s₁ p.2) fun y => ?_
  let s₂ := Vm.tlbInvalidate s₁ y
  refine bind_ok (tlbInvalidate_ofState s₁ y) (bind_ok (read_fin _ _ _) ?_)
  let s₃ := s₂.tlbInsert x (s₂.entry x).frameNo
  refine bind_ok (tlbInsert_ofState s₂ x _) (bind_ok (modifyEntry_ofState s₃ y _) ?_)
  let s₄ := s₃.setEntry y { s₃.entry y with valid := false }
  let s₅ := if (s₄.entry y).dirty then
    (s₄.diskWrite p.2 y).setEntry y { s₄.entry y with dirty := false } else s₄
  refine bind_ok (writeback_ofState s₄ y p.2) ?_
  refine bind_ok (modifyEntry_ofState s₅ x _) ?_
  let s₆ := (s₅.setEntry x { s₅.entry x with valid := true, frameNo := p.2 }).diskRead p.2 x
  refine bind_map (invertTable_write s₆ x p.2) fun t => ?_
  let s₇ : Vm.State := { s₆ with invertTable := t }
  refine bind_ok (modifyEntry_ofState s₇ x _) ?_
  exact bind_ok (markDirty_ofState (s₇.setEntry x { s₇.entry x with dirty := false }) x type) rfl

theorem pagefaultHandler_ofState (type : Char) (rnd : Nat) :
    pagefaultHandler (ofState s) x.1 x.2 type rnd = ofOption (Vm.pagefaultHandler s x type rnd) := by
  have hframe : (ofState s).frameInd = s.frameInd := rfl
  rw [pagefaultHandler, Vm.pagefaultHandler, hframe]
  split
  · exact pagefaultEvict_ofState s x type rnd
  · exact pagefaultLoad_ofState s x type rnd

/-- One way of the set of the page. -/
theorem isTlbHit_cons (type : Char) (rnd : Nat) (k : Fin 2) (ks : List (Fin 2)) :
    isTlbHit (ofState s) x.1 x.2 type rnd (k :: ks) =
      if (s.tlb (Vm.tlbSet x)).valid k && (s.tlb (Vm.tlbSet x)).entry k == (x.2 : Nat) then
        ofOption (Vm.tlbHitAt s x type rnd k)
      else isTlbHit (ofState s) x.1 x.2 type rnd ks := by
  have hread : read (ofState s).tlb x.1 (tlbSet x.2) = .ok (s.tlb (Vm.tlbSet x)) := by
    rw [tlbSet_page]
    exact read_fin _ _ _
  let s₁ : Vm.State := { s with tlbsetPtr := Function.update s.tlbsetPtr (Vm.tlbSet x) k }
  have hwrite : write (ofState s).tlbsetPtr x.1 (tlbSet x.2) k = .ok (ofState s₁).tlbsetPtr := by
    simp only [tlbSet_page, ofState, write_fin, s₁]
    rw [map_update_pair fun k : Fin 2 => ((k : Nat) : Int)]
    rfl
  rw [isTlbHit, hread, ok_bind]
  split
  · refine bind_ok hwrite (bind_ok (read_fin _ _ _) ?_)
    exact bind_ok (markDirty_ofState s₁ x type) (bind_other fun r => rfl)
  · rfl

theorem isTlbHit_ofState (type : Char) (rnd : Nat) :
    isTlbHit (ofState s) x.1 x.2 type rnd [0, 1] = ofOption (Vm.isTlbHit s x type rnd) := by
  have hnil : isTlbHit (ofState s) x.1 x.2 type rnd [] = .ok (ofState s, -1) := rfl
  simp only [isTlbHit_cons, hnil, Vm.isTlbHit, List.find?_cons, List.find?_nil]
  cases ((s.tlb (Vm.tlbSet x)).valid 0 && (s.tlb (Vm.tlbSet x)).entry 0 == ((x.2 : Nat) : Int)) <;>
    cases ((s.tlb (Vm.tlbSet x)).valid 1 && (s.tlb (Vm.tlbSet x)).entry 1 == ((x.2 : Nat) : Int)) <;>
    rfl

theorem serve_ofState (offset : Int) (type : Char) (rnd : Nat) :
    serve (ofState s) x.1 x.2 offset type rnd = ofOption (Vm.serve s x offset type rnd) := by
  refine bind_ofOption (isTlbHit_ofState s x type rnd) fun s₁ frame₁ => ite_other rfl ?_
  refine bind_ofOption (isPageHit_ofState s₁ x type rnd) fun s₂ frame₂ => ite_other rfl ?_
  exact bind_ofOption (pagefaultHandler_ofState s₂ x type rnd) fun s₃ frame₃ => rfl

end OfState

/-- An outcome of the machine on pages is never an index outside the tables. -/
theorem ofOption_ne_bounds (o : Option (Vm.State × α)) : ofOption o ≠ .error .bounds := by
  cases o <;> simp [ofOption]

/-- `MMU` lets the request to one of its guards: the page number or the pid is
greater than the bound. -/
def Refused (pid addr : Int) : Prop := addr.shiftRight 8 > maxPage ∨ pid > maxPid

instance (pid addr : Int) : Decidable (Refused pid addr) := inferInstanceAs (Decidable (_ ∨ _))

theorem mmu_refused (c : State) {pid addr : Int} (h : Refused pid addr) (type : Char) (rnd : Nat) (hit tlbhit : Bool) :
    mmu c pid addr type rnd hit tlbhit = .ok (c, ⟨-1, hit, tlbhit⟩) := by
  unfold mmu
  obtain h | h := h
  · exact if_pos h
  · by_cases hp : addr.shiftRight 8 > maxPage
    · exact if_pos hp
    · exact (if_neg hp).trans (if_pos h)

theorem mmu_toServe (c : State) {pid addr : Int} (h : ¬ Refused pid addr) (type : Char) (rnd : Nat) (hit tlbhit : Bool) :
    mmu c pid addr type rnd hit tlbhit =
      serve c pid (addr.shiftRight 8) (addr - addr.shiftRight 8 * 256) type rnd := by
  rw [Refused, not_or] at h
  exact (if_neg h.1).trans (if_neg h.2)

/-- On a page of the tables this is the machine on pages. -/
theorem mmu_toChecked (s : Vm.State) {r : Request} (h : r.Valid) (hit tlbhit : Bool) :
    mmu (ofState s) r.pid r.addr r.type r.rnd hit tlbhit = ofOption (Vm.request s r) := by
  obtain ⟨⟨hp0, hp⟩, ha0, ha⟩ := id h
  have hpid : r.pid = (r.vpage.1 : Nat) := by
    have hmod : r.pid.toNat % maxPid = r.pid.toNat := Nat.mod_eq_of_lt (by omega)
    simp only [Request.vpage, Fin.ofNat, hmod]
    omega
  have hpage : r.addr.shiftRight 8 = (r.vpage.2 : Nat) := by
    have hmod : (r.addr.shiftRight 8).toNat % maxPage = (r.addr.shiftRight 8).toNat := Nat.mod_eq_of_lt (by omega)
    simp only [Request.vpage, Fin.ofNat, hmod]
    omega
  rw [request_of_valid s h, ← serve_ofState, ← hpid, ← hpage]
  exact mmu_toServe _ (by unfold Refused; omega) _ _ _ _

/-! ## Outside the tables -/

section Outside

variable {c : State} {pid pageNo : Int}

/-- A lookup of a page that is not in the tables misses, unless an access traps first. -/
theorem isTlbHit_out (h : ¬ ((0 ≤ pid ∧ pid < maxPid) ∧ (0 ≤ pageNo ∧ pageNo < maxPage))) (type : Char) (rnd : Nat)
    (ks : List (Fin 2)) :
    isTlbHit c pid pageNo type rnd ks = .error .bounds ∨ isTlbHit c pid pageNo type rnd ks = .ok (c, -1) := by
  induction ks with
  | nil => exact .inr rfl
  | cons k ks ih =>
      rw [isTlbHit]
      obtain ⟨t, ht⟩ | ht := inBounds_cases ((Arr.read c.tlb pid).bind (·.read (tlbSet pageNo)))
      · rw [read, ht, ok_bind]
        split
        · -- a way that matched: the pointer is set, and the page table is read
          refine .inl ?_
          rw [read_out _ h]
          obtain ⟨a, ha⟩ | ha := inBounds_cases ((Arr.read c.tlbsetPtr pid).bind fun row =>
            (row.write (tlbSet pageNo) k).bind fun row => Arr.write c.tlbsetPtr pid row)
          · rw [write, ha]
            rfl
          · rw [write, ha]
            rfl
        · exact ih
      · rw [read, ht]
        exact .inl rfl

theorem serve_out (h : ¬ ((0 ≤ pid ∧ pid < maxPid) ∧ (0 ≤ pageNo ∧ pageNo < maxPage))) (offset : Int) (type : Char)
    (rnd : Nat) : serve c pid pageNo offset type rnd = .error .bounds := by
  rw [serve]
  obtain hmiss | hmiss := isTlbHit_out h type rnd [0, 1]
  · rw [hmiss]
    rfl
  · refine bind_ok hmiss ((if_neg (by decide)).trans ?_)
    rw [isPageHit, read_out _ h]
    rfl

end Outside

/-! ## Runs -/

theorem ofState_init (policy : Policy) : ofState (Vm.State.init policy) = State.init policy := by
  simp only [ofState, Vm.State.init, State.init, State.mk.injEq, true_and, and_true]
  refine ⟨rfl, ?_⟩
  funext i j
  by_cases hi : i = 0 <;> by_cases hj : j = 0 <;> simp [hi, hj]

/-- The machine on pages refuses the same requests. -/
theorem step_refused (s : Vm.State) {r : Request} (h : Refused r.pid r.addr) : step s r = some s := by
  have hmmu : Vm.request s r = some (s, ⟨-1, false, false⟩) := by
    unfold Vm.request Vm.mmu
    obtain h | h := h
    · exact if_pos h
    · by_cases hp : r.addr.shiftRight 8 > maxPage
      · exact if_pos hp
      · exact (if_neg hp).trans (if_pos h)
  rw [step, hmmu]
  rfl

/-- Every state that a run reaches is one that the machine on pages reaches with it. -/
theorem run_toState {policy : Policy} {reqs : List Request} {c : State} (h : run policy reqs = .ok c) :
    ∃ s, Vm.run policy reqs = some s ∧ c = ofState s := by
  refine Run.exec_simulates (fun s c => c = ofState s) ?_ reqs (ofState_init policy).symm h
  rintro s c r c' rfl hstep
  by_cases hr : Refused r.pid r.addr
  · rw [request, mmu_refused _ hr] at hstep
    cases hstep
    exact ⟨s, step_refused s hr, rfl⟩
  · by_cases hv : r.Valid
    · rw [request, mmu_toChecked s hv] at hstep
      rw [step]
      cases ho : Vm.request s r with
      | none =>
          rw [ho] at hstep
          cases hstep
      | some p =>
          rw [ho] at hstep
          cases hstep
          exact ⟨p.1, rfl, rfl⟩
    · rw [request, mmu_toServe _ hr, serve_out hv] at hstep
      cases hstep

/-! ## The guards -/

/-- The guards are exact for a request: one outside the tables is refused and
changes nothing, and one inside makes no access outside them. -/
def GuardsExact (c : State) (r : Request) : Prop :=
  if r.Valid then ∀ hit tlbhit, mmu c r.pid r.addr r.type r.rnd hit tlbhit ≠ .error .bounds
  else ∀ hit tlbhit, mmu c r.pid r.addr r.type r.rnd hit tlbhit = .ok (c, ⟨-1, hit, tlbhit⟩)

/-- In every state that a run reaches the guards are exact for the requests
inside the tables and for those whose pid or page number is greater than its
bound: a pid or a page number that equals its bound, or is negative, gets past
them and indexes outside the tables. -/
theorem guards_exact_iff {policy : Policy} {reqs : List Request} {c : State} (h : run policy reqs = .ok c) (r : Request) :
    GuardsExact c r ↔ r.Valid ∨ Refused r.pid r.addr := by
  obtain ⟨s, -, rfl⟩ := run_toState h
  unfold GuardsExact
  split
  · next hv =>
      refine iff_of_true (fun hit tlbhit => ?_) (.inl hv)
      rw [mmu_toChecked s hv]
      exact ofOption_ne_bounds _
  · next hv =>
      rw [or_iff_right hv]
      constructor
      · intro hall
        by_contra hr
        have hok := hall false false
        rw [mmu_toServe _ hr, serve_out hv] at hok
        cases hok
      · exact fun hr hit tlbhit => mmu_refused _ hr _ _ _ _

theorem guards_exact_iff_write : ∃ c, run .fifo [⟨0, 0x100, 'W', 0⟩] = .ok c ∧
    (GuardsExact c ⟨2, 0, 'R', 0⟩ ↔ Request.Valid ⟨2, 0, 'R', 0⟩ ∨ Refused 2 0) := by
  have hok : (run .fifo [⟨0, 0x100, 'W', 0⟩]).isOk = true := rfl
  cases hrun : run .fifo [⟨0, 0x100, 'W', 0⟩] with
  | error t =>
      rw [hrun] at hok
      cases hok
  | ok c => exact ⟨c, rfl, guards_exact_iff hrun ⟨2, 0, 'R', 0⟩⟩

/-- `2 R 0x0`, `0 R 0x800`, `-1 R 0x0` and a negative address as the first
request: none is to a page of the tables, and all get past the guards. -/
theorem guards_admit_bounds : run .fifo [] = .ok (State.init .fifo) ∧
    ∀ r ∈ [(⟨2, 0, 'R', 0⟩ : Request), ⟨0, 0x800, 'R', 0⟩, ⟨-1, 0, 'R', 0⟩, ⟨0, -1, 'R', 0⟩],
      ¬ r.Valid ∧ request (State.init .fifo) r = .error .bounds ∧ ¬ GuardsExact (State.init .fifo) r := by
  refine ⟨rfl, fun r hr => ?_⟩
  have hv : ¬ r.Valid := by revert r; decide
  have htrap : request (State.init .fifo) r = .error .bounds := by
    simp only [List.mem_cons, List.not_mem_nil, or_false] at hr
    obtain rfl | rfl | rfl | rfl := hr <;> rfl
  refine ⟨hv, htrap, fun h => ?_⟩
  rw [GuardsExact, if_neg hv] at h
  have hok : request (State.init .fifo) r = .ok (State.init .fifo, ⟨-1, false, false⟩) := h false false
  rw [htrap] at hok
  cases hok

end OperatingSystem.Vm.Checked
