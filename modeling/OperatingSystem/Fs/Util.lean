import OperatingSystem.Fs.State
import Mathlib.Data.List.OfFn

/-!
# OperatingSystem.Fs.Util

`fs_util.c`: the bitmaps of inodes and blocks and the free counters that go with
them, and `rand_string`.  A function that takes an index checks nothing, so an
index outside the bitmap is undefined behaviour; `free_inode` and `free_block`
undo a flip that set the bit.

What a function gets from outside (the results of `rand`, the time, the bytes
of uninitialised memory) is in its environment `Env`.
-/

namespace OperatingSystem.Fs

open Bitmap Codec

/-- What one command finds outside the program. -/
structure Env where
  /-- The results of `rand()`, in order. -/
  rand : Nat → Nat
  created : Timeval
  lastAccess : Timeval
  /-- The bytes of a fresh heap buffer. -/
  heap : Nat → Byte
  /-- The bytes of a fresh local variable. -/
  stack : Block

/-! ## fs_util.c -/

/-- `charset[key]`: the lower-case letters, the upper-case letters, the digits. -/
def charset (key : Nat) : Byte :=
  if key < 26 then BitVec.ofNat 8 (97 + key)
  else if key < 52 then BitVec.ofNat 8 (65 + (key - 26))
  else BitVec.ofNat 8 (48 + (key - 52))

/-- `rand_string`. -/
def randString (rand : Nat → Nat) (str : Nat → Byte) (size : Int) (n : Nat) : Byte :=
  if size < 1 then str n
  else if (n : Int) < size then charset (rand n % 62)
  else if (n : Int) = size then 0
  else str n

def setBit (array : Arr n Byte) (index : Nat) (value : Bool) : Arr n Byte :=
  let a := toggleBit array index
  if getBit a index = value then a else toggleBit a index

def getFreeInode (s : FS) : Int × FS :=
  match firstZero s.inodeMap 512 with
  | some i => (i, { s with
      inodeMap := setBit s.inodeMap i true
      superBlock := { s.superBlock with freeInodeCount := s.superBlock.freeInodeCount - 1 } })
  | none => (-1, s)

def freeInode (s : FS) (index : Int) : Option (Int × FS) :=
  if 0 ≤ index ∧ index < 512 then
    let m := toggleBit s.inodeMap index.toNat
    if getBit m index.toNat then
      -- the bit was clear: roll back
      some (-1, { s with inodeMap := toggleBit m index.toNat })
    else
      some (0, { s with
        inodeMap := m
        superBlock := { s.superBlock with freeInodeCount := s.superBlock.freeInodeCount + 1 } })
  else none

def getFreeBlock (s : FS) : Int × FS :=
  match firstZero s.blockMap 4096 with
  | some i => (i, { s with
      blockMap := setBit s.blockMap i true
      superBlock := { s.superBlock with freeBlockCount := s.superBlock.freeBlockCount - 1 } })
  | none => (-1, s)

def freeBlock (s : FS) (index : Int) : Option (Int × FS) :=
  if 0 ≤ index ∧ index < 4096 then
    let m := toggleBit s.blockMap index.toNat
    if getBit m index.toNat then
      some (-1, { s with blockMap := toggleBit m index.toNat })
    else
      some (0, { s with
        blockMap := m
        superBlock := { s.superBlock with freeBlockCount := s.superBlock.freeBlockCount + 1 } })
  else none

/-! ## Names -/

/-- A name as the shell passes it: 1 to 15 characters and a null. -/
abbrev Name := { s : List Byte // 1 ≤ s.length ∧ s.length ≤ 15 ∧ ∀ b ∈ s, b ≠ 0 }

/-- The string in a `char` array. -/
def cstr (a : Arr 16 Byte) : List Byte := (List.ofFn a).takeWhile (· != 0)

/-- `strncpy(a, s, strlen(s)); a[strlen(s)] = '\0'`: what lies behind the null
stays as it was. -/
def strcpy (a : Arr 16 Byte) (s : List Byte) : Arr 16 Byte := fun i =>
  if i ≤ s.length then s.getD i 0 else a i

/-! ## Bits -/

theorem getBit_setBit (a : Arr n Byte) {i : Nat} (hi : i < 8 * n) (v : Bool) (j : Nat) :
    getBit (setBit a i v) j = if j = i then v else getBit a j := by
  rw [setBit]
  have hself := getBit_toggleBit a hi i
  rw [if_pos rfl] at hself
  by_cases h : getBit (toggleBit a i) i = v
  · rw [if_pos h, getBit_toggleBit a hi, ← hself, h]
  · rw [if_neg h, toggleBit_toggleBit]
    have hv : getBit a i = v := by
      rw [hself] at h
      cases hb : getBit a i <;> cases v <;> simp_all
    by_cases hji : j = i <;> simp [hji, hv]

theorem setBit_of_ne (a : Arr n Byte) {i : Nat} (hi : i < 8 * n) {v : Bool} (h : getBit a i ≠ v) :
    setBit a i v = toggleBit a i := by
  have hself := getBit_toggleBit a hi i
  rw [if_pos rfl] at hself
  rw [setBit, if_pos]
  rw [hself]
  cases hb : getBit a i <;> cases v <;> simp_all

namespace FS

/-- The inode is marked used. -/
def live (s : FS) (i : Fin 512) : Bool := getBit s.inodeMap i

/-- The block is marked used. -/
def used (s : FS) (b : Fin 4096) : Bool := getBit s.blockMap b

/-- The free counters are the numbers of clear bits. -/
structure Counts (s : FS) : Prop where
  inodes : s.superBlock.freeInodeCount = zeroBits s.inodeMap
  blocks : s.superBlock.freeBlockCount = zeroBits s.blockMap

/-- The state after inode `i` changed between free and used. -/
def flipInode (s : FS) (i : Fin 512) : FS :=
  { s with
    inodeMap := toggleBit s.inodeMap i
    superBlock := { s.superBlock with
      freeInodeCount := s.superBlock.freeInodeCount + if s.live i then 1 else -1 } }

/-- The state after block `b` changed between free and used. -/
def flipBlock (s : FS) (b : Fin 4096) : FS :=
  { s with
    blockMap := toggleBit s.blockMap b
    superBlock := { s.superBlock with
      freeBlockCount := s.superBlock.freeBlockCount + if s.used b then 1 else -1 } }

section Flip

variable (s : FS) (i j : Fin 512) (b c : Fin 4096)

@[simp] theorem live_flipInode : (s.flipInode i).live j = if j = i then !s.live i else s.live j := by
  have h := getBit_toggleBit s.inodeMap (show (i : Nat) < 8 * 64 by omega) j
  simpa only [live, flipInode, Fin.ext_iff] using h

@[simp] theorem used_flipInode : (s.flipInode i).used c = s.used c := rfl

@[simp] theorem used_flipBlock : (s.flipBlock b).used c = if c = b then !s.used b else s.used c := by
  have h := getBit_toggleBit s.blockMap (show (b : Nat) < 8 * 512 by omega) c
  simpa only [used, flipBlock, Fin.ext_iff] using h

@[simp] theorem live_flipBlock : (s.flipBlock b).live j = s.live j := rfl

variable {s}

theorem Counts.flipInode (h : s.Counts) : (s.flipInode i).Counts := by
  refine ⟨?_, h.blocks⟩
  have hi : (i : Nat) < 8 * 64 := by omega
  have hcount := h.inodes
  cases hl : s.live i with
  | true =>
      have hz := zeroBits_toggle_of_true hi hl
      simp only [FS.flipInode, hl, if_true]
      omega
  | false =>
      have hz := zeroBits_toggle_of_false hi hl
      simp only [FS.flipInode, hl, Bool.false_eq_true, if_false]
      omega

theorem Counts.flipBlock (h : s.Counts) : (s.flipBlock b).Counts := by
  refine ⟨h.inodes, ?_⟩
  have hb : (b : Nat) < 8 * 512 := by omega
  have hcount := h.blocks
  cases hu : s.used b with
  | true =>
      have hz := zeroBits_toggle_of_true hb hu
      simp only [FS.flipBlock, hu, if_true]
      omega
  | false =>
      have hz := zeroBits_toggle_of_false hb hu
      simp only [FS.flipBlock, hu, Bool.false_eq_true, if_false]
      omega

end Flip

end FS

/-! ## What the functions do -/

section Spec

variable {s : FS}

/-- The scan for a free inode: a free one is taken, or there is none. -/
theorem getFreeInode_cases (s : FS) :
    (∃ i : Fin 512, s.live i = false ∧ getFreeInode s = ((i : Int), s.flipInode i)) ∨
      getFreeInode s = (-1, s) := by
  unfold getFreeInode
  cases h : firstZero s.inodeMap 512 with
  | none => exact Or.inr rfl
  | some i =>
      obtain ⟨hi, hbit⟩ := firstZero_eq_some h
      have hlive : s.live ⟨i, hi⟩ = false := hbit
      refine Or.inl ⟨⟨i, hi⟩, hlive, ?_⟩
      have hset : setBit s.inodeMap i true = toggleBit s.inodeMap i :=
        setBit_of_ne s.inodeMap hi (by simp [hbit])
      simp only [FS.flipInode, hlive, hset, Bool.false_eq_true, if_false]
      rfl

/-- The scan for a free block, likewise. -/
theorem getFreeBlock_cases (s : FS) :
    (∃ b : Fin 4096, s.used b = false ∧ getFreeBlock s = ((b : Int), s.flipBlock b)) ∨
      getFreeBlock s = (-1, s) := by
  unfold getFreeBlock
  cases h : firstZero s.blockMap 4096 with
  | none => exact Or.inr rfl
  | some i =>
      obtain ⟨hi, hbit⟩ := firstZero_eq_some h
      have hused : s.used ⟨i, hi⟩ = false := hbit
      refine Or.inl ⟨⟨i, hi⟩, hused, ?_⟩
      have hset : setBit s.blockMap i true = toggleBit s.blockMap i :=
        setBit_of_ne s.blockMap hi (by simp [hbit])
      simp only [FS.flipBlock, hused, hset, Bool.false_eq_true, if_false]
      rfl

/-- A free block is found whenever the counter is positive. -/
theorem getFreeBlock_spec (hc : s.Counts) (hpos : 0 < s.superBlock.freeBlockCount) :
    ∃ b : Fin 4096, s.used b = false ∧ getFreeBlock s = ((b : Int), s.flipBlock b) := by
  have hblocks := hc.blocks
  have hz : 0 < zeroBits s.blockMap := by omega
  obtain ⟨i, hi⟩ := firstZero_of_zeroBits hz
  have hvalue : (getFreeBlock s).1 = i := by
    unfold getFreeBlock
    rw [show firstZero s.blockMap 4096 = some i from hi]
  refine (getFreeBlock_cases s).resolve_right fun h => ?_
  rw [h] at hvalue
  exact absurd hvalue (by simp)

/-- Inode `i` is the first free one. -/
structure FS.FirstFree (s : FS) (i : Fin 512) : Prop where
  free : s.live i = false
  first : ∀ j < i, s.live j = true

/-- The first free inode, likewise. -/
theorem getFreeInode_spec (hc : s.Counts) (hpos : 0 < s.superBlock.freeInodeCount) :
    ∃ i : Fin 512, s.FirstFree i ∧ getFreeInode s = ((i : Int), s.flipInode i) := by
  have hinodes := hc.inodes
  have hz : 0 < zeroBits s.inodeMap := by omega
  obtain ⟨i, hi⟩ := firstZero_of_zeroBits hz
  have hvalue : (getFreeInode s).1 = i := by
    unfold getFreeInode
    rw [show firstZero s.inodeMap 512 = some i from hi]
  obtain ⟨k, hk, hget⟩ | h := getFreeInode_cases s
  · rw [hget] at hvalue
    obtain rfl : (k : Nat) = i := Int.ofNat.inj hvalue
    exact ⟨k, ⟨hk, fun j hj => getBit_of_lt_firstZero hi hj⟩, hget⟩
  · rw [h] at hvalue
    exact absurd hvalue (by simp)

/-- A used inode is freed. -/
theorem freeInode_of_live {i : Fin 512} (h : s.live i = true) :
    freeInode s i = some (0, s.flipInode i) := by
  have hbit : getBit s.inodeMap i = true := h
  have hclear : getBit (toggleBit s.inodeMap i) i = false := by
    rw [getBit_toggleBit _ (by omega)]
    simp [hbit]
  have hi : 0 ≤ (i : Int) ∧ (i : Int) < 512 := by omega
  simp only [freeInode, if_pos hi, Int.toNat_natCast, hclear, Bool.false_eq_true, if_false,
    FS.flipInode, h, if_true]

/-- A free inode is refused. -/
theorem freeInode_of_not_live {i : Fin 512} (h : s.live i = false) :
    freeInode s i = some (-1, s) := by
  have hbit : getBit s.inodeMap i = false := h
  have hset : getBit (toggleBit s.inodeMap i) i = true := by
    rw [getBit_toggleBit _ (by omega)]
    simp [hbit]
  have hi : 0 ≤ (i : Int) ∧ (i : Int) < 512 := by omega
  simp only [freeInode, if_pos hi, Int.toNat_natCast, hset, if_true, toggleBit_toggleBit]

/-- A used block is freed. -/
theorem freeBlock_of_used {b : Fin 4096} (h : s.used b = true) :
    freeBlock s b = some (0, s.flipBlock b) := by
  have hbit : getBit s.blockMap b = true := h
  have hclear : getBit (toggleBit s.blockMap b) b = false := by
    rw [getBit_toggleBit _ (by omega)]
    simp [hbit]
  have hb : 0 ≤ (b : Int) ∧ (b : Int) < 4096 := by omega
  simp only [freeBlock, if_pos hb, Int.toNat_natCast, hclear, Bool.false_eq_true, if_false,
    FS.flipBlock, h, if_true]

/-- A free block is refused. -/
theorem freeBlock_of_not_used {b : Fin 4096} (h : s.used b = false) : freeBlock s b = some (-1, s) := by
  have hbit : getBit s.blockMap b = false := h
  have hset : getBit (toggleBit s.blockMap b) b = true := by
    rw [getBit_toggleBit _ (by omega)]
    simp [hbit]
  have hb : 0 ≤ (b : Int) ∧ (b : Int) < 4096 := by omega
  simp only [freeBlock, if_pos hb, Int.toNat_natCast, hset, if_true, toggleBit_toggleBit]

/-- What `free_inode` does with an index inside the bitmap. -/
theorem freeInode_cases (h : freeInode s x = some p) :
    ∃ i : Fin 512, x = i ∧ (s.live i = true ∧ p = (0, s.flipInode i) ∨ s.live i = false ∧ p = (-1, s)) := by
  by_cases hx : 0 ≤ x ∧ x < 512
  · obtain ⟨i, rfl⟩ : ∃ i : Fin 512, x = i := Arr.exists_fin (by omega) (by omega)
    refine ⟨i, rfl, ?_⟩
    cases hl : s.live i with
    | true => exact Or.inl ⟨rfl, Option.some.inj (h.symm.trans (freeInode_of_live hl))⟩
    | false => exact Or.inr ⟨rfl, Option.some.inj (h.symm.trans (freeInode_of_not_live hl))⟩
  · rw [freeInode, if_neg hx] at h
    contradiction

/-- What `free_block` does, likewise. -/
theorem freeBlock_cases (h : freeBlock s x = some p) :
    ∃ b : Fin 4096, x = b ∧ (s.used b = true ∧ p = (0, s.flipBlock b) ∨ s.used b = false ∧ p = (-1, s)) := by
  by_cases hx : 0 ≤ x ∧ x < 4096
  · obtain ⟨b, rfl⟩ : ∃ b : Fin 4096, x = b := Arr.exists_fin (by omega) (by omega)
    refine ⟨b, rfl, ?_⟩
    cases hu : s.used b with
    | true => exact Or.inl ⟨rfl, Option.some.inj (h.symm.trans (freeBlock_of_used hu))⟩
    | false => exact Or.inr ⟨rfl, Option.some.inj (h.symm.trans (freeBlock_of_not_used hu))⟩
  · rw [freeBlock, if_neg hx] at h
    contradiction

end Spec

/-- A copied name is read back. -/
theorem cstr_strcpy (a : Arr 16 Byte) (name : Name) : cstr (strcpy a name.1) = name.1 := by
  obtain ⟨s, hpos, hlen, hne⟩ := name
  have hsplit : List.ofFn (strcpy a s) = s ++ 0 :: (List.ofFn (strcpy a s)).drop (s.length + 1) := by
    refine List.ext_getElem (by simp; omega) fun i hi hi' => ?_
    rw [List.getElem_ofFn, List.getElem_append]
    by_cases hs : i < s.length
    · simp [strcpy, hs, Nat.le_of_lt hs]
    · rw [dif_neg hs, List.getElem_cons]
      by_cases h0 : i = s.length
      · simp [strcpy, h0]
      · rw [dif_neg (by omega), List.getElem_drop, List.getElem_ofFn]
        congr 1
        exact Fin.ext (by simp; omega)
  rw [cstr, hsplit, List.takeWhile_append_of_pos fun b hb => by simpa using hne b hb]
  simp

end OperatingSystem.Fs
