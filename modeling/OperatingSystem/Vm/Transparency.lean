import OperatingSystem.Vm.Run

/-!
# OperatingSystem.Vm.Transparency

The memory behind the tables.  The simulator moves no bytes; here each
`disk_read` copies a page's disk image into the frame and each `disk_write`
copies the frame back (`transfer`), a `W` request stores a byte at the physical
address `MMU` returned and every other request loads the byte there
(`Machine.access`).

`Memory` is the purpose of it all: one flat memory of bytes for each process.
`Backs` ties the two together, and `memory_transparent` concludes that a load
always finds the byte last stored at its address.
-/

namespace OperatingSystem.Vm

/-- A byte's place in its page: the low 8 bits of an address. -/
abbrev Offset := Fin 256

/-! ## The machine -/

/-- The simulator together with the contents of physical memory and of the
pages' disk images. -/
structure Machine (α : Type _) where
  vm : State
  phys : Int → α
  image : VPage → Offset → α

/-- Physical memory after a page has been copied into a frame. -/
def copyIn (phys : Int → α) (f : Int) (row : Offset → α) (a : Int) : α :=
  if h : f * 256 ≤ a ∧ a < f * 256 + 256 then row ⟨(a - f * 256).toNat, by omega⟩ else phys a

/-- The bytes a call of `disk.c` moves. -/
def transfer (m : Machine α) : DiskOp → Machine α
  | .read f x => { m with phys := copyIn m.phys f (m.image x) }
  | .write f x => { m with image := Function.update m.image x (fun o => m.phys (f * 256 + o)) }

/-- One access: the request goes through `MMU`, its transfers are carried out,
and then the byte is stored at the physical address, or loaded from it. -/
def Machine.access (m : Machine α) (r : Request) (byte : α) : Option (Machine α × Option α) := do
  let (vm, reply) ← request m.vm r
  let ops := vm.diskLog.drop m.vm.diskLog.length
  let m := ops.foldl transfer { m with vm := vm }
  if r.type = 'W' then
    return ({ m with phys := Function.update m.phys reply.physicalAddr byte }, none)
  else
    return (m, some (m.phys reply.physicalAddr))

/-- A run of accesses, each with the byte it stores if it is a `W` request. -/
def Machine.run (m : Machine α) (trace : List (Request × α)) : Option (Machine α) :=
  Run.exec (fun m e => (m.access e.1 e.2).map Prod.fst) m trace

/-! ## The flat memory -/

/-- The byte the trace last stored at the request's address, or the initial
image's byte. -/
def lastWritten (image : VPage → Offset → α) (trace : List (Request × α)) (r : Request) : α :=
  match trace.reverse.find? fun e => e.1.type = 'W' ∧ e.1.pid = r.pid ∧ e.1.addr = r.addr with
  | some e => e.2
  | none => image r.vpage (Fin.ofNat 256 r.offset.toNat)

/-- The memory the processes see: each page is a row of bytes. -/
abbrev Memory (α : Type _) := VPage → Offset → α

namespace Memory

/-- Store one byte. -/
def store (mem : Memory α) (x : VPage) (o : Offset) (byte : α) : Memory α :=
  Function.update mem x (Function.update (mem x) o byte)

@[simp] theorem store_same (mem : Memory α) (x : VPage) (o : Offset) (byte : α) :
    mem.store x o byte x o = byte := by
  simp [store]

theorem store_ne (mem : Memory α) (byte : α) (h : ¬ (y = x ∧ o' = o)) :
    mem.store x o byte y o' = mem y o' := by
  by_cases hy : y = x
  · subst hy
    have ho : o' ≠ o := fun ho => h ⟨rfl, ho⟩
    simp [store, ho]
  · simp [store, hy]

end Memory

namespace Request

/-- The offset of an address within its page. -/
def byte (r : Request) : Offset := Fin.ofNat 256 r.offset.toNat

theorem offset_bounds (r : Request) : 0 ≤ r.offset ∧ r.offset < 256 := by
  have hshift : r.addr.shiftRight 8 = r.addr / 256 := Int.shiftRight_eq_div_pow r.addr 8
  rw [offset, hshift]
  omega

theorem coe_byte (r : Request) : ((r.byte : Nat) : Int) = r.offset := by
  have h := r.offset_bounds
  have hmod : r.offset.toNat % 256 = r.offset.toNat := Nat.mod_eq_of_lt (by omega)
  rw [byte, Fin.val_ofNat, hmod]
  omega

/-- Page and offset determine the process and the address. -/
theorem Valid.addr_eq_iff {r q : Request} (hr : r.Valid) (hq : q.Valid) :
    (q.pid = r.pid ∧ q.addr = r.addr) ↔ (r.vpage = q.vpage ∧ r.byte = q.byte) := by
  constructor
  · rintro ⟨hpid, haddr⟩
    simp only [vpage, byte, offset, hpid, haddr, and_self]
  · rintro ⟨hpage, hbyte⟩
    obtain ⟨⟨hp0, hp⟩, ha0, ha⟩ := hr
    obtain ⟨⟨hp0', hp'⟩, ha0', ha'⟩ := hq
    have hpid := congrArg (fun x : VPage => (x.1 : Nat)) hpage
    have hno := congrArg (fun x : VPage => (x.2 : Nat)) hpage
    have hoff := congrArg (fun o : Offset => ((o : Nat) : Int)) hbyte
    simp only [vpage, Fin.val_ofNat, coe_byte] at hpid hno hoff
    rw [Nat.mod_eq_of_lt (by omega), Nat.mod_eq_of_lt (by omega)] at hpid hno
    unfold offset at hoff
    omega

end Request

/-- What an access does to the flat memory. -/
def Memory.step (mem : Memory α) (e : Request × α) : Memory α :=
  if e.1.type = 'W' then mem.store e.1.vpage e.1.byte e.2 else mem

/-- The flat memory holds the byte last stored at each address. -/
theorem memory_eq_lastWritten (image : VPage → Offset → α) (trace : List (Request × α))
    (hvalid : ∀ e ∈ trace, e.1.Valid) (hr : r.Valid) :
    trace.foldl Memory.step image r.vpage r.byte = lastWritten image trace r := by
  induction trace using List.reverseRecOn with
  | nil => rfl
  | append_singleton trace e ih =>
      have ih := ih fun e' he' => hvalid e' (List.mem_append_left _ he')
      have hkey := Request.Valid.addr_eq_iff hr (hvalid e (by simp))
      rw [List.foldl_concat, Memory.step]
      unfold lastWritten at ih ⊢
      rw [List.reverse_append, List.reverse_singleton, List.singleton_append, List.find?_cons]
      by_cases hw : e.1.type = 'W'
      · by_cases haddr : e.1.pid = r.pid ∧ e.1.addr = r.addr
        · obtain ⟨hpage, hbyte⟩ := hkey.mp haddr
          rw [if_pos hw, hpage, hbyte, Memory.store_same]
          simp [hw, haddr]
        · rw [if_pos hw, Memory.store_ne _ _ (fun h => haddr (hkey.mpr h)), ih]
          simp [haddr]
      · rw [if_neg hw, ih]
        simp [hw]

/-! ## The simulation -/

/-- The machine backs the flat memory: the byte of a resident page is in its
frame, and the image of a page is up to date unless the page is resident and
dirty. -/
structure Backs (m : Machine α) (mem : Memory α) : Prop where
  frame : ∀ x (o : Offset), (m.vm.entry x).valid = true →
    m.phys ((m.vm.entry x).frameNo * 256 + o) = mem x o
  image : ∀ x, ¬ ((m.vm.entry x).valid = true ∧ (m.vm.entry x).dirty = true) → m.image x = mem x

/-- A machine in which the request's page has just been found or brought in. -/
structure Served (m : Machine α) (x : VPage) (type : Char) : Prop where
  resident : (m.vm.entry x).valid = true
  dirty : type = 'W' → (m.vm.entry x).dirty = true

section Transfer

variable {m : Machine α} {mem : Memory α}

theorem transfer_read_frame (m : Machine α) (f : Int) (x : VPage) (o : Offset) :
    (transfer m (.read f x)).phys (f * 256 + o) = m.image x o := by
  have ho := o.isLt
  have hlo : f * 256 ≤ f * 256 + (o : Int) ∧ f * 256 + (o : Int) < f * 256 + 256 := by omega
  have hidx : (f * 256 + (o : Int) - f * 256).toNat = o := by omega
  simp only [transfer, copyIn, dif_pos hlo, hidx]

theorem transfer_read_other (m : Machine α) {f g : Int} (x : VPage) (o : Offset) (h : g ≠ f) :
    (transfer m (.read f x)).phys (g * 256 + o) = m.phys (g * 256 + o) := by
  have ho := o.isLt
  have hout : ¬ (f * 256 ≤ g * 256 + (o : Int) ∧ g * 256 + (o : Int) < f * 256 + 256) := by omega
  simp only [transfer, copyIn, dif_neg hout]

/-- A hit moves nothing. -/
theorem HitStep.backs (h : HitStep m.vm x offset type s' rep) (hb : Backs m mem) :
    Backs { m with vm := s' } mem ∧ Served { m with vm := s' } x type := by
  have hvalid : ∀ y, (s'.entry y).valid = (m.vm.entry y).valid := fun y => by
    rw [h.entry, markDirty_valid]
  have hdirty : ∀ y, (m.vm.entry y).dirty = true → (s'.entry y).dirty = true := fun y hy => by
    rw [h.entry]
    by_cases hyx : y = x
    · subst hyx
      simp [State.markDirty, State.setEntry, hy]
    · simpa [State.markDirty, State.setEntry, hyx] using hy
  refine ⟨⟨fun y o hy => ?_, fun y hy => ?_⟩, ?_, fun hw => ?_⟩
  · rw [show (s'.entry y).frameNo = (m.vm.entry y).frameNo by rw [h.entry, markDirty_frameNo]]
    exact hb.frame y o (by rwa [← hvalid])
  · exact hb.image y fun hy' => hy ⟨by rw [hvalid]; exact hy'.1, hdirty y hy'.2⟩
  · rw [hvalid]
    exact h.resident
  · rw [h.entry]
    simp [State.markDirty, State.setEntry, hw]

/-- A load copies the page's image, which is up to date, into the free frame. -/
theorem LoadStep.backs (hinv : Inv m.vm) (h : LoadStep m.vm x offset type s' rep)
    (hb : Backs m mem) :
    Backs (transfer { m with vm := s' } (.read m.vm.frameInd x)) mem ∧
      Served (transfer { m with vm := s' } (.read m.vm.frameInd x)) x type := by
  have hx : s'.entry x = ⟨m.vm.frameInd, true, decide (type = 'W')⟩ := by rw [h.entry]; simp
  have hy : ∀ y, y ≠ x → s'.entry y = m.vm.entry y := fun y hyx => by rw [h.entry]; simp [hyx]
  have hximage : m.image x = mem x := hb.image x (by simp [h.missing])
  refine ⟨⟨fun y o hyv => ?_, fun y hyv => ?_⟩, ?_, fun hw => ?_⟩
  · change (transfer _ _).phys ((s'.entry y).frameNo * 256 + o) = _
    change (s'.entry y).valid = true at hyv
    by_cases hyx : y = x
    · subst hyx
      rw [hx, transfer_read_frame, ← hximage]
    · rw [hy y hyx] at hyv ⊢
      obtain ⟨g, hg, hlt, -⟩ := hinv.resident_frame y hyv
      rw [transfer_read_other _ _ _ (by omega)]
      exact hb.frame y o hyv
  · change ¬ ((s'.entry y).valid = true ∧ (s'.entry y).dirty = true) at hyv
    change m.image y = mem y
    by_cases hyx : y = x
    · rw [hyx, hximage]
    · exact hb.image y (by rwa [hy y hyx] at hyv)
  · change (s'.entry x).valid = true
    rw [hx]
  · change (s'.entry x).dirty = true
    rw [hx, hw]
    rfl

/-- An eviction writes a dirty victim back before its frame is overwritten. -/
theorem EvictStep.backs (hinv : Inv m.vm) (h : EvictStep m.vm x offset type rnd v s' rep)
    (hb : Backs m mem) :
    Backs ((s'.diskLog.drop m.vm.diskLog.length).foldl transfer { m with vm := s' }) mem ∧
      Served ((s'.diskLog.drop m.vm.diskLog.length).foldl transfer { m with vm := s' }) x type := by
  obtain ⟨hvictim, hframe⟩ := hinv.frame_resident v (by rw [h.full]; omega)
  have hxy : m.vm.invertTable v ≠ x := by
    intro heq
    rw [heq, h.missing] at hvictim
    contradiction
  have hx : s'.entry x = ⟨v, true, decide (type = 'W')⟩ := by rw [h.entry]; simp
  have hvict : s'.entry (m.vm.invertTable v) =
      { m.vm.entry (m.vm.invertTable v) with valid := false, dirty := false } := by
    rw [h.entry, Function.update_of_ne hxy, Function.update_self]
  have hy : ∀ y, y ≠ x → y ≠ m.vm.invertTable v → s'.entry y = m.vm.entry y := fun y hyx hyv => by
    rw [h.entry, Function.update_of_ne hyx, Function.update_of_ne hyv]
  -- the images after the write-back, if there is one
  obtain ⟨image, himage, hops⟩ : ∃ image : VPage → Offset → α,
      (∀ y, y = m.vm.invertTable v ∨ ¬ ((m.vm.entry y).valid = true ∧ (m.vm.entry y).dirty = true) →
        image y = mem y) ∧
      (s'.diskLog.drop m.vm.diskLog.length).foldl transfer { m with vm := s' } =
        transfer { vm := s', phys := m.phys, image := image } (.read v x) := by
    rw [h.diskLog, List.append_assoc, List.drop_left]
    cases hd : (m.vm.entry (m.vm.invertTable v)).dirty with
    | true =>
        refine ⟨Function.update m.image (m.vm.invertTable v) fun o => m.phys ((v : Int) * 256 + o),
          fun y hor => ?_, by simp [transfer]⟩
        by_cases hyv : y = m.vm.invertTable v
        · subst hyv
          rw [Function.update_self]
          funext o
          rw [← hframe]
          exact hb.frame _ o hvictim
        · rw [Function.update_of_ne hyv]
          exact hb.image y (hor.resolve_left hyv)
    | false =>
        refine ⟨m.image, fun y hor => hb.image y ?_, by simp⟩
        rcases hor with rfl | hnot
        · simp [hd]
        · exact hnot
  rw [hops]
  have hximage : image x = mem x := himage x (Or.inr (by simp [h.missing]))
  refine ⟨⟨fun y o hyv => ?_, fun y hyv => ?_⟩, ?_, fun hw => ?_⟩
  · change (transfer _ _).phys ((s'.entry y).frameNo * 256 + o) = _
    change (s'.entry y).valid = true at hyv
    by_cases hyx : y = x
    · subst hyx
      rw [hx, transfer_read_frame, ← hximage]
    · have hyv' : y ≠ m.vm.invertTable v := by
        rintro rfl
        rw [hvict] at hyv
        contradiction
      rw [hy y hyx hyv'] at hyv ⊢
      obtain ⟨g, hg, -, hpage⟩ := hinv.resident_frame y hyv
      have hgv : (m.vm.entry y).frameNo ≠ v := fun heq => by
        have : g = v := Fin.ext (Int.ofNat.inj (hg.symm.trans heq))
        rw [this] at hpage
        exact hyv' hpage.symm
      rw [transfer_read_other _ _ _ hgv]
      exact hb.frame y o hyv
  · change ¬ ((s'.entry y).valid = true ∧ (s'.entry y).dirty = true) at hyv
    change image y = mem y
    by_cases hyx : y = x
    · rw [hyx, hximage]
    · by_cases hyv' : y = m.vm.invertTable v
      · exact himage y (Or.inl hyv')
      · exact himage y (Or.inr (by rwa [hy y hyx hyv'] at hyv))
  · change (s'.entry x).valid = true
    rw [hx]
  · change (s'.entry x).dirty = true
    rw [hx, hw]
    rfl

end Transfer

/-- Transfers touch the memory, never the tables. -/
theorem foldl_transfer_vm (ops : List DiskOp) (m : Machine α) : (ops.foldl transfer m).vm = m.vm := by
  induction ops generalizing m with
  | nil => rfl
  | cons op ops ih =>
      rw [List.foldl_cons, ih]
      cases op <;> rfl

/-- A store into the frame of a resident dirty page is a store into the flat
memory. -/
theorem Backs.store {m : Machine α} {mem : Memory α} (hinv : Inv m.vm) (hb : Backs m mem)
    (hs : Served m x 'W') (o : Offset) (byte : α) :
    Backs { m with phys := Function.update m.phys ((m.vm.entry x).frameNo * 256 + o) byte }
      (mem.store x o byte) := by
  obtain ⟨f, hf, -, hpage⟩ := hinv.resident_frame x hs.resident
  refine ⟨fun y o' hy => ?_, fun y hy => ?_⟩
  · simp only at hy ⊢
    have ho := o.isLt
    have ho' := o'.isLt
    obtain ⟨g, hg, -, hpage'⟩ := hinv.resident_frame y hy
    by_cases heq : y = x ∧ o' = o
    · obtain ⟨rfl, rfl⟩ := heq
      rw [Function.update_self, Memory.store_same]
    · have hne : (m.vm.entry y).frameNo * 256 + (o' : Int) ≠ (m.vm.entry x).frameNo * 256 + (o : Int) := by
        intro haddr
        have hfg : g = f := Fin.ext (by omega)
        refine heq ⟨?_, Fin.ext (by omega)⟩
        rw [← hpage', hfg, hpage]
      rw [Function.update_of_ne hne, Memory.store_ne _ _ heq]
      exact hb.frame y o' hy
  · simp only at hy ⊢
    have hyx : y ≠ x := by
      rintro rfl
      exact hy ⟨hs.resident, hs.dirty rfl⟩
    rw [hb.image y hy]
    simp [Memory.store, hyx]

/-- **One access of a run**: it returns; a load yields the flat memory's byte,
and afterwards the machine backs the flat memory after the access. -/
theorem access_spec {m : Machine α} {mem : Memory α} {reqs : List Request}
    (hreach : Reached policy (reqs.map Request.vpage) m.vm) (hb : Backs m mem) (hvalid : r.Valid)
    (hdiff : policy = .lru → SecondDiffers (reqs ++ [r])) (byte : α) :
    ∃ m' out, m.access r byte = some (m', out) ∧
      Reached policy ((reqs ++ [r]).map Request.vpage) m'.vm ∧ Backs m' (mem.step (r, byte)) ∧
      out = if r.type = 'W' then none else some (mem r.vpage r.byte) := by
  obtain ⟨s', rep, hreq, hreach', hstep⟩ := hreach.request hvalid hdiff
  let m₁ := (s'.diskLog.drop m.vm.diskLog.length).foldl transfer { m with vm := s' }
  have hvm : m₁.vm = s' := foldl_transfer_vm _ _
  have hm₁ : (Backs m₁ mem ∧ Served m₁ r.vpage r.type) ∧
      rep.physicalAddr = (s'.entry r.vpage).frameNo * 256 + r.offset := by
    rcases hstep with hstep | hstep | ⟨v, hstep⟩
    · refine ⟨?_, ?_⟩
      · simp only [m₁, hstep.diskLog, List.drop_length, List.foldl_nil]
        exact hstep.backs hb
      · rw [hstep.physicalAddr, hstep.entry, markDirty_frameNo]
    · refine ⟨?_, ?_⟩
      · simp only [m₁, hstep.diskLog, List.drop_left, List.foldl_cons, List.foldl_nil]
        exact hstep.backs hreach.inv hb
      · rw [hstep.reply, hstep.entry, Function.update_self]
    · refine ⟨hstep.backs hreach.inv hb, ?_⟩
      rw [hstep.reply, hstep.entry, Function.update_self]
  obtain ⟨⟨hb₁, hserved⟩, hphys⟩ := hm₁
  rw [← hvm, ← r.coe_byte] at hphys
  by_cases hw : r.type = 'W'
  · refine ⟨{ m₁ with phys := Function.update m₁.phys rep.physicalAddr byte }, none, ?_, ?_, ?_, ?_⟩
    · simp [Machine.access, hreq, hw, m₁]
    · rw [← hvm] at hreach'
      exact hreach'
    · rw [Memory.step, if_pos hw, hphys]
      rw [hw] at hserved
      exact hb₁.store (hvm ▸ hreach'.inv) hserved r.byte byte
    · rw [if_pos hw]
  · refine ⟨m₁, some (m₁.phys rep.physicalAddr), ?_, hvm ▸ hreach', ?_, ?_⟩
    · simp [Machine.access, hreq, hw, m₁]
    · rw [Memory.step, if_neg hw]
      exact hb₁
    · rw [if_neg hw, hphys, hb₁.frame _ _ hserved.resident]

/-- **The simulation**: every admitted run of accesses returns, in a machine
that backs the flat memory of the trace. -/
theorem machine_run_spec (policy : Policy) (phys : Int → α) (image : VPage → Offset → α)
    (trace : List (Request × α)) (h : Admissible policy (trace.map Prod.fst)) :
    ∃ m, Machine.run ⟨State.init policy, phys, image⟩ trace = some m ∧
      Reached policy ((trace.map Prod.fst).map Request.vpage) m.vm ∧
      Backs m (trace.foldl Memory.step image) := by
  have hinit : Backs ⟨State.init policy, phys, image⟩ image :=
    ⟨fun x o hx => by simp [State.init] at hx, fun x _ => rfl⟩
  refine Run.exec_total
    (fun hist (m : Machine α) => Reached policy ((hist.map Prod.fst).map Request.vpage) m.vm ∧
      Backs m (hist.foldl Memory.step image))
    (fun hist e => e.1.Valid ∧ (policy = .lru → SecondDiffers (hist.map Prod.fst ++ [e.1])))
    ?_ ?_ trace ?_
  · exact ⟨reached_init policy, hinit⟩
  · rintro hist m ⟨r, byte⟩ ⟨hreach, hb⟩ ⟨hvalid, hdiff⟩
    obtain ⟨m', out, hacc, hreach', hb', -⟩ := access_spec hreach hb hvalid hdiff byte
    refine ⟨m', by simp [hacc], ?_, ?_⟩
    · rwa [List.map_append, List.map_singleton]
    · rwa [List.foldl_concat]
  · rintro hist e t rfl
    refine ⟨h.1 e.1 (by simp), fun hp => ?_⟩
    have hdiff := h.2 hp
    rw [show (hist ++ e :: t).map Prod.fst = (hist.map Prod.fst ++ [e.1]) ++ t.map Prod.fst by simp]
      at hdiff
    exact secondDiffers_of_append hdiff

/-- **Virtual memory is transparent**: under every policy, from every initial
contents of the frames and the disk, each load of an admitted run yields the
byte last stored at the same address of the same process, or the initial
image's byte if there was none. -/
theorem memory_transparent (policy : Policy) (phys : Int → α) (image : VPage → Offset → α)
    (trace : List (Request × α)) (r : Request) (byte : α)
    (h : Admissible policy (trace.map Prod.fst ++ [r])) :
    ∃ m m' out, Machine.run ⟨State.init policy, phys, image⟩ trace = some m ∧
      m.access r byte = some (m', out) ∧
      out = if r.type = 'W' then none else some (lastWritten image trace r) := by
  obtain ⟨m, hrun, hreach, hb⟩ := machine_run_spec policy phys image trace h.left
  have hr : r.Valid := h.1 r (by simp)
  obtain ⟨m', out, hacc, -, -, hout⟩ := access_spec hreach hb hr h.2 byte
  refine ⟨m, m', out, hrun, hacc, ?_⟩
  rw [hout, memory_eq_lastWritten image trace _ hr]
  exact fun e he => h.1 e.1 (by simp; exact Or.inl ⟨e.2, he⟩)

/-- A page is written, evicted by all the others, and read again. -/
theorem memory_transparent_evicted :
    ∃ m m' out, Machine.run ⟨State.init .lru, fun _ => 0, fun _ _ => 0⟩
        ((⟨0, 5, 'W', 0⟩, 7) :: allPages.reverse.map fun r => ({ r with addr := r.addr + 6 }, 9)) = some m ∧
      m.access ⟨0, 5, 'R', 0⟩ 0 = some (m', out) ∧
      out = if ('R' : Char) = 'W' then none else some (lastWritten (fun _ _ => 0)
        ((⟨0, 5, 'W', 0⟩, 7) :: allPages.reverse.map fun r => ({ r with addr := r.addr + 6 }, 9)) ⟨0, 5, 'R', 0⟩) :=
  memory_transparent .lru _ _ _ _ _ (by decide)

end OperatingSystem.Vm
