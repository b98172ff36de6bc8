import OperatingSystem.Vm.PageTable
import OperatingSystem.Lib.Recency

/-!
# OperatingSystem.Vm.Step

What serving one request does, said once.  A request to a resident page is a
hit (`HitStep`), one to a page that is not resident takes a free frame
(`LoadStep`) or evicts a page (`EvictStep`); each record lists every change
the request makes to the tables.  `serve_cases` says that a request in a state
satisfying the table invariant `Inv` always returns, by one of the three.
-/

namespace OperatingSystem.Vm

open Dlist Recency

/-! ## The LRU list -/

/-- The list at `head` holds exactly the frames `l`, in this order. -/
def Holds (h : Heap Int) (head : Ptr) (l : List Int) : Prop :=
  ∃ nodes, IsList h head nodes ∧ contents nodes = l

theorem Holds.length_contents {nodes : List (Nat × Int)} (h : contents nodes = l) :
    nodes.length = l.length := by
  rw [← h, contents, List.length_map]

theorem Holds.unique (h₁ : Holds h head l₁) (h₂ : Holds h head l₂) : l₁ = l₂ := by
  obtain ⟨m₁, hm₁, rfl⟩ := h₁
  obtain ⟨m₂, hm₂, rfl⟩ := h₂
  rw [chain_unique hm₁.chain hm₂.chain (hm₁.head_eq.symm.trans hm₂.head_eq)]

/-- **`lru()` on a hit or a load** moves the frame to the head of the list,
unless the frame is the only one in it: then the removal dereferences null. -/
theorem lru_touch (r : Repl) (hflag : r.lruFlag = 1 ∨ r.lruFlag = 3)
    (hl : Holds r.heap r.head l) (hlen : r.frameRef ∈ l → 2 ≤ l.length) :
    ∃ h head, lru r = some ({ r with heap := h, head := head }, 0) ∧
      Holds h head (touch r.frameRef l) := by
  obtain ⟨nodes, hlist, hcont⟩ := hl
  have hremove : ∃ h head m, listRemove r.heap r.head r.frameRef = some (h, head) ∧
      IsList h head m ∧ contents m = l.erase r.frameRef := by
    by_cases hmem : r.frameRef ∈ l
    · have hspec := listRemove_spec hlist (by rw [Holds.length_contents hcont]; exact hlen hmem)
        (hcont ▸ hmem)
      rwa [hcont] at hspec
    · refine ⟨r.heap, r.head, nodes, listRemove_not_mem hlist (hcont ▸ hmem), hlist, ?_⟩
      rw [hcont, List.erase_of_not_mem hmem]
  obtain ⟨h, head, m, hrem, hlist', hm⟩ := hremove
  obtain ⟨h', head', m', hins, hlist'', hm'⟩ := listInsertHead_spec hlist' r.frameRef
  refine ⟨h', head', ?_, m', hlist'', by rw [hm', hm]; rfl⟩
  simp only [lru, if_pos hflag, hrem, Option.bind_eq_bind, Option.bind_some, hins]
  rfl

/-- **`lru()` on the only frame of the list** dereferences null. -/
theorem lru_singleton (r : Repl) (hflag : r.lruFlag = 1)
    (hl : Holds r.heap r.head [r.frameRef]) : lru r = none := by
  obtain ⟨nodes, hlist, hcont⟩ := hl
  obtain ⟨⟨a, x⟩, m, rfl, hx, hm⟩ := List.map_eq_cons_iff.mp hcont
  cases List.map_eq_nil_iff.mp hm
  simp only at hx
  subst hx
  simp [lru, hflag, listRemove_singleton hlist]

/-- **`lru()` on an eviction** takes the frame at the tail of the list and moves
it to the head. -/
theorem lru_evict (r : Repl) (hflag : r.lruFlag = 2) (hl : Holds r.heap r.head (l ++ [g, f])) :
    ∃ h head, lru r = some ({ r with heap := h, head := head, frameRef := f }, f) ∧
      Holds h head (f :: (l ++ [g])) := by
  obtain ⟨nodes, hlist, hcont⟩ := hl
  obtain ⟨m, m', rfl, hm, hm'⟩ := List.map_eq_append_iff.mp hcont
  obtain ⟨⟨b, y⟩, m', rfl, hy, hm'⟩ := List.map_eq_cons_iff.mp hm'
  obtain ⟨⟨a, x⟩, m', rfl, hx, hm'⟩ := List.map_eq_cons_iff.mp hm'
  cases List.map_eq_nil_iff.mp hm'
  simp only at hx hy
  subst hx hy
  have hlen := hlist.length_le
  have hsplit : m ++ [(b, y), (a, x)] = (m ++ [(b, y)]) ++ [(a, x)] := by simp
  have hchain : Chain r.heap.cells none ((m ++ [(b, y)]) ++ [(a, x)]) none := hsplit ▸ hlist.chain
  have hfuel : (m ++ [(b, y)]).length < r.heap.brk := by
    simp only [List.length_append, List.length_cons, List.length_nil] at hlen ⊢
    omega
  obtain ⟨c, hentry, hlast⟩ := lastNode_spec (m ++ [(b, y)]) hchain hfuel
  obtain ⟨c', hentry', hfirst⟩ := firstNode_spec (m ++ [(b, y)]) hchain hfuel
  have hcell := ((chain_append _ _ _ _).mp hchain).2.1
  have hhead : r.head = some c := by rw [hlist.head_eq, hsplit, hentry]
  have hcc : c' = c := Option.some.inj (hentry'.symm.trans hentry)
  subst hcc
  obtain ⟨h, hrem, hlist'⟩ := listRemoveTail_spec hlist
  obtain ⟨h', head', m', hins, hlist'', hm''⟩ := listInsertHead_spec hlist' x
  refine ⟨h', head', ?_, m', hlist'', ?_⟩
  · rw [hhead] at hrem hins
    simp [lru, hflag, hhead, hlast, hcell, hfirst, hrem, hins]
  · rw [hm'', ← hm]
    simp [contents]

/-! ## The policies -/

/-- What a hit or a load changes for the policy: LRU's list and CLOCK's flags. -/
structure TouchStep (policy : Policy) (r : Repl) (frame : Fin maxFrame) (r' : Repl) : Prop where
  recency : ∀ l, policy = .lru → Holds r.heap r.head l → Holds r'.heap r'.head (touch (frame : Int) l)
  clockFlag : r'.clockFlag = if policy = .clock then Function.update r.clockFlag frame 1
    else r.clockFlag
  clockIndex : r'.clockIndex = r.clockIndex
  fifoIndex : r'.fifoIndex = r.fifoIndex

/-- A hit or a load always gets through the policy update, except for LRU on
the only frame of its list. -/
theorem touchFrame_spec (policy : Policy) (r : Repl) (frame : Fin maxFrame) (flag rnd : Nat)
    (hflag : flag = 1 ∨ flag = 3)
    (hlru : policy = .lru → ∃ l, Holds r.heap r.head l ∧ ((frame : Int) ∈ l → 2 ≤ l.length)) :
    ∃ r', touchFrame policy r frame flag rnd = some r' ∧ TouchStep policy r frame r' := by
  cases policy with
  | random => exact ⟨r, rfl, by simp, by simp, rfl, rfl⟩
  | fifo => exact ⟨r, rfl, by simp, by simp, rfl, rfl⟩
  | lru =>
      obtain ⟨l, hl, hlen⟩ := hlru rfl
      obtain ⟨h, head, hrun, hholds⟩ :=
        lru_touch { r with frameRef := frame, lruFlag := flag } hflag hl hlen
      refine ⟨_, congrArg (Option.map Prod.fst) hrun, ?_, by simp, rfl, rfl⟩
      intro l' _ hl'
      rwa [hl'.unique hl]
  | clock =>
      refine ⟨{ r with frameRef := frame, clockFlag := Function.update r.clockFlag frame 1 }, ?_,
        by simp, rfl, rfl, rfl⟩
      simp only [touchFrame, Arr.write_fin, Option.map_some]

/-- Asked for a victim, every policy names a frame of the table. -/
theorem pageReplacement_spec (policy : Policy) (r : Repl) (rnd : Nat) (hflag : r.lruFlag = 2)
    (hlru : policy = .lru → ∃ l g, ∃ f : Fin maxFrame, Holds r.heap r.head (l ++ [g, (f : Int)])) :
    ∃ r' victim, pageReplacement policy r rnd = some (r', ((victim : Fin maxFrame) : Int)) := by
  cases policy with
  | random => exact ⟨r, ⟨rnd % maxPage, Nat.mod_lt _ (by decide)⟩, rfl⟩
  | fifo => exact ⟨_, ⟨r.fifoIndex % maxFrame, Nat.mod_lt _ (by decide)⟩, rfl⟩
  | lru =>
      obtain ⟨l, g, f, hl⟩ := hlru rfl
      obtain ⟨h, head, hrun, -⟩ := lru_evict r hflag hl
      exact ⟨_, f, hrun⟩
  | clock =>
      simp only [pageReplacement, clock]
      split
      · exact ⟨_, _, rfl⟩
      · split
        · exact ⟨_, _, rfl⟩
        · exact ⟨_, _, rfl⟩

/-- LRU's victim is the frame at the tail of its list, which moves to the head. -/
theorem pageReplacement_lru {r r' : Repl} {victim : Int} (hflag : r.lruFlag = 2)
    (hl : Holds r.heap r.head (l ++ [g, f]))
    (h : pageReplacement .lru r rnd = some (r', victim)) :
    victim = f ∧ Holds r'.heap r'.head (f :: (l ++ [g])) := by
  obtain ⟨hp, head, hrun, hholds⟩ := lru_evict r hflag hl
  obtain ⟨rfl, rfl⟩ := Prod.mk.inj (Option.some.inj (h.symm.trans hrun))
  exact ⟨rfl, hholds⟩

/-! ## The table invariant -/

/-- The page table and the inverted table are inverse to each other on the
frames in use, every valid TLB slot names a resident page of its set, and under
LRU the list holds each frame in use exactly once. -/
structure Inv (s : State) : Prop where
  frameInd_nonneg : 0 ≤ s.frameInd
  frameInd_le : s.frameInd ≤ maxFrame
  frame_resident : ∀ f : Fin maxFrame, (f : Int) < s.frameInd →
    (s.entry (s.invertTable f)).valid = true ∧ (s.entry (s.invertTable f)).frameNo = f
  resident_frame : ∀ x, (s.entry x).valid = true →
    ∃ f : Fin maxFrame, (s.entry x).frameNo = f ∧ (f : Int) < s.frameInd ∧ s.invertTable f = x
  tlb_resident : ∀ i k, (s.tlb i).valid k = true →
    ∃ x, tlbSet x = i ∧ (s.tlb i).entry k = x.2 ∧ (s.entry x).valid = true
  lruList : s.replacementPolicy = .lru →
    ∃ l, Holds s.repl.heap s.repl.head l ∧ l.Nodup ∧ ∀ f, f ∈ l ↔ 0 ≤ f ∧ f < s.frameInd

/-- LRU can serve the request: it is not a hit while only one frame is in use. -/
def Ready (s : State) (x : VPage) : Prop :=
  s.replacementPolicy = .lru → s.frameInd = 1 → (s.entry x).valid = false

section Step

variable {s : State} {x : VPage}

/-- Under the table invariant, a TLB hit is on a resident page. -/
theorem Inv.resident_of_tlb (hinv : Inv s) {k : Fin 2} (hv : (s.tlb (tlbSet x)).valid k = true)
    (he : (s.tlb (tlbSet x)).entry k = x.2) : (s.entry x).valid = true := by
  obtain ⟨y, hset, hentry, hres⟩ := hinv.tlb_resident _ _ hv
  have hpage : y.2 = x.2 := Fin.ext (Int.ofNat.inj (hentry.symm.trans he))
  have hpid : y.1 = x.1 := congrArg (fun i => i.1) hset
  have hxy : y = x := Prod.ext hpid hpage
  rwa [hxy] at hres

/-- What LRU needs before it moves the frame of a resident page. -/
theorem Inv.lru_ready (hinv : Inv s) (hready : Ready s x) {f : Fin maxFrame}
    (hres : (s.entry x).valid = true) (hlru : s.replacementPolicy = .lru) :
    ∃ l, Holds s.repl.heap s.repl.head l ∧ ((f : Int) ∈ l → 2 ≤ l.length) := by
  obtain ⟨l, hl, hnd, hmem⟩ := hinv.lruList hlru
  refine ⟨l, hl, fun hf => ?_⟩
  have hone : s.frameInd ≠ 1 := fun h1 => by
    rw [hready hlru h1] at hres
    contradiction
  have hpos := (hmem f).mp hf
  have h0 : (0 : Int) ∈ l := (hmem 0).mpr ⟨by omega, by omega⟩
  have h1 : (1 : Int) ∈ l := (hmem 1).mpr ⟨by omega, by omega⟩
  match l, h0, h1 with
  | [a], h0, h1 => simp only [List.mem_singleton] at h0 h1; omega
  | _ :: _ :: _, _, _ => simp

/-! ## Hits -/

/-- Everything a request to a resident page changes. -/
structure HitStep (s : State) (x : VPage) (offset : Int) (type : Char) (s' : State) (r : Reply) :
    Prop where
  resident : (s.entry x).valid = true
  policy : s'.replacementPolicy = s.replacementPolicy
  entry : s'.entry = (s.markDirty x type).entry
  invertTable : s'.invertTable = s.invertTable
  frameInd : s'.frameInd = s.frameInd
  repl : ∃ f, (s.entry x).frameNo = ((f : Fin maxFrame) : Int) ∧
    TouchStep s.replacementPolicy { s.repl with currentFrame := f } f s'.repl
  diskLog : s'.diskLog = s.diskLog
  numDisk : s'.numDiskRead = s.numDiskRead ∧ s'.numDiskWrite = s.numDiskWrite
  tlb : (r.tlbhit = true ∧ ∃ k, (s.tlb (tlbSet x)).valid k = true ∧
        (s.tlb (tlbSet x)).entry k = x.2 ∧ s'.tlb = s.tlb ∧
        s'.tlbsetPtr = Function.update s.tlbsetPtr (tlbSet x) k) ∨
      (r.tlbhit = false ∧
        (∀ k, (s.tlb (tlbSet x)).valid k = true → (s.tlb (tlbSet x)).entry k ≠ x.2) ∧
        s'.tlb = (s.tlbInsert x (s.entry x).frameNo).tlb ∧
        s'.tlbsetPtr = (s.tlbInsert x (s.entry x).frameNo).tlbsetPtr)
  stats : s'.stats = { s.stats with
    hitCount := s.stats.hitCount + 1
    tlbHitCount := s.stats.tlbHitCount + if r.tlbhit then 1 else 0
    tlbMissCount := s.stats.tlbMissCount + if r.tlbhit then 0 else 1 }
  physicalAddr : r.physicalAddr = (s.entry x).frameNo * 256 + offset
  hit : r.hit = true

@[simp] theorem markDirty_frameNo (s : State) (x y : VPage) (type : Char) :
    ((s.markDirty x type).entry y).frameNo = (s.entry y).frameNo := by
  by_cases hy : y = x <;> simp [State.markDirty, State.setEntry, hy]

@[simp] theorem markDirty_valid (s : State) (x y : VPage) (type : Char) :
    ((s.markDirty x type).entry y).valid = (s.entry y).valid := by
  by_cases hy : y = x <;> simp [State.markDirty, State.setEntry, hy]

/-- A TLB look-up finds a way that holds the page, or there is none. -/
theorem isTlbHit_cases (s : State) (x : VPage) (type : Char) (rnd : Nat) :
    (∃ k, (s.tlb (tlbSet x)).valid k = true ∧ (s.tlb (tlbSet x)).entry k = x.2 ∧
      isTlbHit s x type rnd = tlbHitAt s x type rnd k) ∨
    ((∀ k, (s.tlb (tlbSet x)).valid k = true → (s.tlb (tlbSet x)).entry k ≠ x.2) ∧
      isTlbHit s x type rnd = some (s, -1)) := by
  unfold isTlbHit
  cases hfind : [0, 1].find? fun k => (s.tlb (tlbSet x)).valid k &&
      (s.tlb (tlbSet x)).entry k == (x.2 : Int) with
  | some k =>
      have hk := List.find?_some hfind
      simp only [Bool.and_eq_true, beq_iff_eq] at hk
      exact Or.inl ⟨k, hk.1, hk.2, by simp [hfind]⟩
  | none =>
      have hnone := List.find?_eq_none.mp hfind
      refine Or.inr ⟨?_, by simp [hfind]⟩
      intro k hv he
      have hmem := (by decide : ∀ k : Fin 2, k ∈ ([0, 1] : List (Fin 2))) k
      exact hnone k hmem (by simp [hv, he])

/-- **Hits**: a request to a resident page is served from the tables. -/
theorem serve_hit (hinv : Inv s) (hready : Ready s x) (hres : (s.entry x).valid = true)
    (offset : Int) (type : Char) (rnd : Nat) :
    ∃ s' r, serve s x offset type rnd = some (s', r) ∧ HitStep s x offset type s' r := by
  obtain ⟨f, hframe, -, -⟩ := hinv.resident_frame x hres
  have hge : (f : Int) > -1 := by omega
  obtain ⟨r, htouch, hstep⟩ := touchFrame_spec s.replacementPolicy
    { s.repl with currentFrame := f } f 1 rnd (Or.inl rfl) (hinv.lru_ready hready hres)
  rcases isTlbHit_cases s x type rnd with ⟨k, hv, he, heq⟩ | ⟨hnone, heq⟩
  · -- TLB hit
    have hserve : serve s x offset type rnd = some
        ({ s.markDirty x type with
            tlbsetPtr := Function.update s.tlbsetPtr (tlbSet x) k
            repl := r
            stats := { s.stats with
              hitCount := s.stats.hitCount + 1, tlbHitCount := s.stats.tlbHitCount + 1 } },
          ⟨f * 256 + offset, true, true⟩) := by
      simp only [serve, heq, tlbHitAt, State.markDirty, State.setEntry, hframe, htouch,
        Option.bind_eq_bind, Option.bind_some, Option.pure_def, if_pos hge]
    exact ⟨_, _, hserve,
      { resident := hres, policy := rfl, entry := rfl, invertTable := rfl, frameInd := rfl
        repl := ⟨f, hframe, hstep⟩, diskLog := rfl, numDisk := ⟨rfl, rfl⟩
        tlb := Or.inl ⟨rfl, k, hv, he, rfl, rfl⟩, stats := rfl
        physicalAddr := by rw [hframe]
        hit := rfl }⟩
  · -- page hit
    have hserve : serve s x offset type rnd = some
        ({ (s.markDirty x type).tlbInsert x f with
            repl := r
            stats := { s.stats with
              hitCount := s.stats.hitCount + 1, tlbMissCount := s.stats.tlbMissCount + 1 } },
          ⟨f * 256 + offset, true, false⟩) := by
      simp only [serve, heq, isPageHit, State.markDirty, State.setEntry, State.tlbInsert, hframe,
        hres, htouch, Option.bind_eq_bind, Option.bind_some, Option.pure_def, if_pos hge, if_true]
      rfl
    exact ⟨_, _, hserve,
      { resident := hres, policy := rfl, entry := rfl, invertTable := rfl, frameInd := rfl
        repl := ⟨f, hframe, hstep⟩, diskLog := rfl, numDisk := ⟨rfl, rfl⟩
        tlb := Or.inr ⟨rfl, hnone, by rw [hframe]; rfl, by rw [hframe]; rfl⟩, stats := rfl
        physicalAddr := by rw [hframe]
        hit := rfl }⟩

/-! ## Faults -/

/-- A page that is not resident is missed by both look-ups. -/
theorem serve_fault (hinv : Inv s) (hres : (s.entry x).valid = false) (offset : Int) (type : Char)
    (rnd : Nat) :
    serve s x offset type rnd = (pagefaultHandler s x type rnd).map fun p =>
      ({ p.1 with stats := { p.1.stats with
          missCount := p.1.stats.missCount + 1, tlbMissCount := p.1.stats.tlbMissCount + 1 } },
        ⟨p.2 * 256 + offset, false, false⟩) := by
  rcases isTlbHit_cases s x type rnd with ⟨k, hv, he, -⟩ | ⟨-, heq⟩
  · rw [hinv.resident_of_tlb hv he] at hres
    contradiction
  · have hlt : ¬ (-1 : Int) > -1 := by omega
    simp only [serve, heq, isPageHit, hres, Option.bind_eq_bind, Option.bind_some, if_neg hlt,
      Bool.false_eq_true, if_false]
    cases pagefaultHandler s x type rnd <;> rfl

/-- Everything a fault with a free frame changes. -/
structure LoadStep (s : State) (x : VPage) (offset : Int) (type : Char) (s' : State) (r : Reply) :
    Prop where
  missing : (s.entry x).valid = false
  free : s.frameInd < maxFrame
  policy : s'.replacementPolicy = s.replacementPolicy
  entry : s'.entry = Function.update s.entry x ⟨s.frameInd, true, decide (type = 'W')⟩
  repl : ∃ f, s.frameInd = ((f : Fin maxFrame) : Int) ∧
    s'.invertTable = Function.update s.invertTable f x ∧
    TouchStep s.replacementPolicy { s.repl with lruFlag := 3, currentFrame := f } f s'.repl
  frameInd : s'.frameInd = s.frameInd + 1
  diskLog : s'.diskLog = s.diskLog ++ [.read s.frameInd x]
  numDisk : s'.numDiskRead = s.numDiskRead + 1 ∧ s'.numDiskWrite = s.numDiskWrite
  tlb : s'.tlb = (s.tlbInsert x s.frameInd).tlb
  tlbsetPtr : s'.tlbsetPtr = (s.tlbInsert x s.frameInd).tlbsetPtr
  stats : s'.stats = { s.stats with
    missCount := s.stats.missCount + 1, tlbMissCount := s.stats.tlbMissCount + 1 }
  reply : r = ⟨s.frameInd * 256 + offset, false, false⟩

/-- **Loads**: a fault with a free frame takes it. -/
theorem serve_load (hinv : Inv s) (hres : (s.entry x).valid = false) (hfree : s.frameInd < maxFrame)
    (offset : Int) (type : Char) (rnd : Nat) :
    ∃ s' r, serve s x offset type rnd = some (s', r) ∧ LoadStep s x offset type s' r := by
  have hnonneg := hinv.frameInd_nonneg
  obtain ⟨f, hf⟩ : ∃ f : Fin maxFrame, s.frameInd = (f : Int) := Arr.exists_fin hnonneg hfree
  have hlru : s.replacementPolicy = .lru →
      ∃ l, Holds s.repl.heap s.repl.head l ∧ ((f : Int) ∈ l → 2 ≤ l.length) := by
    intro hp
    obtain ⟨l, hl, -, hmem⟩ := hinv.lruList hp
    refine ⟨l, hl, fun hfl => ?_⟩
    have := ((hmem f).mp hfl).2
    omega
  obtain ⟨r, htouch, hstep⟩ := touchFrame_spec s.replacementPolicy
    { s.repl with lruFlag := 3, currentFrame := f } f 3 rnd (Or.inr rfl) hlru
  have hne : ¬ (f : Int) = maxFrame := by omega
  have hserve : serve s x offset type rnd = some
      ({ (s.tlbInsert x f).diskRead f x with
          entry := Function.update s.entry x ⟨f, true, decide (type = 'W')⟩
          invertTable := Function.update s.invertTable f x
          frameInd := f + 1
          repl := r
          stats := { s.stats with
            missCount := s.stats.missCount + 1, tlbMissCount := s.stats.tlbMissCount + 1 } },
        ⟨f * 256 + offset, false, false⟩) := by
    rw [serve_fault hinv hres, pagefaultHandler, if_neg (by rw [hf]; exact hne)]
    simp only [pagefaultLoad, State.markDirty, State.setEntry, State.tlbInsert, State.diskRead, hf,
      htouch, Arr.write_fin, Option.bind_eq_bind, Option.bind_some, Option.pure_def, Option.map_some,
      Function.update_self, Function.update_idem]
    by_cases hw : type = 'W' <;> simp [hw]
  exact ⟨_, _, hserve,
    { missing := hres, free := hfree, policy := rfl, entry := by rw [hf]
      repl := ⟨f, hf, rfl, hstep⟩, frameInd := by rw [hf], diskLog := by rw [hf]; rfl
      numDisk := ⟨rfl, rfl⟩, tlb := by rw [hf]; rfl, tlbsetPtr := by rw [hf]; rfl, stats := rfl
      reply := by rw [hf] }⟩

/-- Everything a fault with all frames in use changes, `victim` being the frame
the policy named. -/
structure EvictStep (s : State) (x : VPage) (offset : Int) (type : Char) (rnd : Nat)
    (victim : Fin maxFrame) (s' : State) (r : Reply) : Prop where
  missing : (s.entry x).valid = false
  full : s.frameInd = maxFrame
  replaced : pageReplacement s.replacementPolicy { s.repl with lruFlag := 2 } rnd =
    some (s'.repl, (victim : Int))
  policy : s'.replacementPolicy = s.replacementPolicy
  entry : s'.entry = Function.update (Function.update s.entry (s.invertTable victim)
      { s.entry (s.invertTable victim) with valid := false, dirty := false })
    x ⟨victim, true, decide (type = 'W')⟩
  invertTable : s'.invertTable = Function.update s.invertTable victim x
  frameInd : s'.frameInd = s.frameInd
  diskLog : s'.diskLog = s.diskLog ++
    (if (s.entry (s.invertTable victim)).dirty then [.write victim (s.invertTable victim)] else []) ++
    [.read victim x]
  numDisk : s'.numDiskRead = s.numDiskRead + 1 ∧ s'.numDiskWrite =
    s.numDiskWrite + if (s.entry (s.invertTable victim)).dirty then 1 else 0
  tlb : s'.tlb = ((tlbInvalidate s (s.invertTable victim)).tlbInsert x (s.entry x).frameNo).tlb
  tlbsetPtr : s'.tlbsetPtr =
    ((tlbInvalidate s (s.invertTable victim)).tlbInsert x (s.entry x).frameNo).tlbsetPtr
  stats : s'.stats = { s.stats with
    missCount := s.stats.missCount + 1, tlbMissCount := s.stats.tlbMissCount + 1 }
  reply : r = ⟨victim * 256 + offset, false, false⟩

/-- With all frames in use, LRU's list has a tail with a frame before it. -/
theorem Inv.lru_full (hinv : Inv s) (hfull : s.frameInd = maxFrame)
    (hlru : s.replacementPolicy = .lru) :
    ∃ l g, ∃ f : Fin maxFrame, Holds s.repl.heap s.repl.head (l ++ [g, (f : Int)]) := by
  obtain ⟨l, hl, hnd, hmem⟩ := hinv.lruList hlru
  have h0 : (0 : Int) ∈ l := (hmem 0).mpr (by rw [hfull]; decide)
  have h1 : (1 : Int) ∈ l := (hmem 1).mpr (by rw [hfull]; decide)
  obtain ⟨l, f, rfl⟩ := l.eq_nil_or_concat'.resolve_left (List.ne_nil_of_mem h0)
  have hne : l ≠ [] := by
    rintro rfl
    simp only [List.nil_append, List.mem_singleton] at h0 h1
    omega
  obtain ⟨l, g, rfl⟩ := l.eq_nil_or_concat'.resolve_left hne
  have hf := (hmem f).mp (by simp)
  obtain ⟨k, rfl⟩ : ∃ k : Fin maxFrame, f = (k : Int) := Arr.exists_fin hf.1 (hfull ▸ hf.2)
  exact ⟨l, g, k, by simpa using hl⟩

/-- **Evictions**: a fault with all frames in use replaces the page of the
frame the policy names. -/
theorem serve_evict (hinv : Inv s) (hres : (s.entry x).valid = false) (hfull : s.frameInd = maxFrame)
    (offset : Int) (type : Char) (rnd : Nat) :
    ∃ s' r victim, serve s x offset type rnd = some (s', r) ∧
      EvictStep s x offset type rnd victim s' r := by
  obtain ⟨r, v, hrepl⟩ := pageReplacement_spec s.replacementPolicy { s.repl with lruFlag := 2 } rnd
    rfl (hinv.lru_full hfull)
  have hy := (hinv.frame_resident v (by rw [hfull]; omega)).1
  have hxy : s.invertTable v ≠ x := by
    intro h
    rw [h, hres] at hy
    contradiction
  have hserve : serve s x offset type rnd = some
      ({ ((tlbInvalidate s (s.invertTable v)).tlbInsert x (s.entry x).frameNo) with
          entry := Function.update (Function.update s.entry (s.invertTable v)
              { s.entry (s.invertTable v) with valid := false, dirty := false })
            x ⟨v, true, decide (type = 'W')⟩
          invertTable := Function.update s.invertTable v x
          repl := r
          diskLog := s.diskLog ++
            (if (s.entry (s.invertTable v)).dirty then [.write v (s.invertTable v)] else []) ++
            [.read v x]
          numDiskRead := s.numDiskRead + 1
          numDiskWrite := s.numDiskWrite + if (s.entry (s.invertTable v)).dirty then 1 else 0
          stats := { s.stats with
            missCount := s.stats.missCount + 1, tlbMissCount := s.stats.tlbMissCount + 1 } },
        ⟨v * 256 + offset, false, false⟩) := by
    rw [serve_fault hinv hres, pagefaultHandler, if_pos hfull]
    simp only [pagefaultEvict, hrepl, Option.bind_eq_bind, Option.bind_some, Arr.read_fin,
      tlbInvalidate, State.tlbInsert, State.setEntry, State.diskWrite, State.diskRead, State.markDirty,
      Function.update_self]
    cases hd : (s.entry (s.invertTable v)).dirty <;> by_cases hw : type = 'W' <;>
      simp [hw, Function.update_of_ne (Ne.symm hxy)]
  exact ⟨_, _, v, hserve,
    { missing := hres, full := hfull, replaced := hrepl, policy := rfl, entry := rfl
      invertTable := rfl, frameInd := rfl, diskLog := rfl, numDisk := ⟨rfl, rfl⟩, tlb := rfl
      tlbsetPtr := rfl, stats := rfl, reply := rfl }⟩

/-- **What a request does**: in a state that satisfies the table invariant,
and unless LRU would have to move the only frame of its list, a request to a
page of the tables returns, as a hit, a load or an eviction. -/
theorem serve_cases (hinv : Inv s) (hready : Ready s x) (offset : Int) (type : Char) (rnd : Nat) :
    ∃ s' r, serve s x offset type rnd = some (s', r) ∧
      (HitStep s x offset type s' r ∨ LoadStep s x offset type s' r ∨
        ∃ victim, EvictStep s x offset type rnd victim s' r) := by
  cases hres : (s.entry x).valid with
  | true =>
      obtain ⟨s', r, hserve, hstep⟩ := serve_hit hinv hready hres offset type rnd
      exact ⟨s', r, hserve, Or.inl hstep⟩
  | false =>
      have hle := hinv.frameInd_le
      by_cases hfull : s.frameInd = maxFrame
      · obtain ⟨s', r, v, hserve, hstep⟩ := serve_evict hinv hres hfull offset type rnd
        exact ⟨s', r, hserve, Or.inr (Or.inr ⟨v, hstep⟩)⟩
      · obtain ⟨s', r, hserve, hstep⟩ := serve_load hinv hres (by omega) offset type rnd
        exact ⟨s', r, hserve, Or.inr (Or.inl hstep)⟩

end Step

end OperatingSystem.Vm
