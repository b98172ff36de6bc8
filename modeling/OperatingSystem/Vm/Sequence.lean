import OperatingSystem.Vm.List

/-!
# OperatingSystem.Vm.Sequence

The five operations of `list.c` as operations on sequences.  Each of them does
what its name says to the contents of a well-formed list, and leaves the two
link directions in step; the removals alone fail, on a list of one node, which
they do not unlink but follow (`implements_iff`).
-/

namespace OperatingSystem.Vm

open Dlist

/-! ## Traversals -/

/-- What `list_print` prints. -/
def listPrint (h : Heap Int) : Nat → Ptr → Option (List Int)
  | _, none => some []
  | 0, some _ => none
  | fuel + 1, some temp => (h.cells temp).bind fun n => (listPrint h fuel n.next).map (n.data :: ·)

/-- The second loop of `list_reverse_print`. -/
def printBack (h : Heap Int) : Nat → Ptr → Option (List Int)
  | _, none => some []
  | 0, some _ => none
  | fuel + 1, some temp => (h.cells temp).bind fun n => (printBack h fuel n.prev).map (n.data :: ·)

/-- What `list_reverse_print` prints. -/
def listReversePrint (h : Heap Int) : Ptr → Option (List Int)
  | none => some []
  | some head => (lastNode h h.brk head).bind fun temp => printBack h h.brk (some temp)

/-- Forwards, a chain is read in its order. -/
theorem listPrint_chain {h : Heap Int} (hc : Chain h.cells p l none) (hf : l.length ≤ fuel) :
    listPrint h fuel (entry l none) = some (contents l) := by
  induction l generalizing p fuel with
  | nil => cases fuel <;> rfl
  | cons n l ih =>
      obtain ⟨a, x⟩ := n
      obtain ⟨fuel, rfl⟩ : ∃ k, fuel = k + 1 := ⟨fuel - 1, by simp at hf; omega⟩
      rw [entry_cons, listPrint, hc.1, Option.bind_some, ih hc.2 (by simpa using hf)]
      rfl

/-- Backwards, it is read in the reverse order. -/
theorem printBack_chain {h : Heap Int} (hc : Chain h.cells none l q) (hf : l.length ≤ fuel) :
    printBack h fuel (exit none l) = some (contents l).reverse := by
  induction l using List.reverseRecOn generalizing q fuel with
  | nil => cases fuel <;> rfl
  | append_singleton l n ih =>
      obtain ⟨a, x⟩ := n
      obtain ⟨fuel, rfl⟩ : ∃ k, fuel = k + 1 := ⟨fuel - 1, by simp at hf; omega⟩
      rw [chain_append] at hc
      rw [exit_concat, printBack, hc.2.1, Option.bind_some, ih hc.1 (by simpa using hf)]
      simp [contents]

/-- **Both traversals** of a list agree. -/
theorem listReversePrint_spec {h : Heap Int} (hl : IsList h head l) :
    listPrint h h.brk head = some (contents l) ∧ listReversePrint h head = some (contents l).reverse := by
  rw [hl.head_eq]
  refine ⟨listPrint_chain hl.chain hl.length_le, ?_⟩
  cases l using List.reverseRecOn with
  | nil => rfl
  | append_singleton l n =>
      obtain ⟨a, x⟩ := n
      have hlen := hl.length_le
      have hback := printBack_chain hl.chain hlen
      obtain ⟨b, hentry, hlast⟩ := lastNode_spec l hl.chain (by simpa [Nat.succ_le_iff] using hlen)
      rw [exit_concat] at hback
      rw [hentry, listReversePrint, hlast, Option.bind_some, hback]

/-! ## Operations on sequences -/

/-- The operations of `list.h` that change a list. -/
inductive ListOp where
  | insertHead (x : Int)
  | insertTail (x : Int)
  | removeHead
  | removeTail
  | remove (x : Int)
deriving DecidableEq

/-- The operation on a list in a heap. -/
def ListOp.run (h : Heap Int) (head : Ptr) : ListOp → Option (Heap Int × Ptr)
  | .insertHead x => listInsertHead h head x
  | .insertTail x => listInsertTail h head x
  | .removeHead => listRemoveHead h head
  | .removeTail => listRemoveTail h head
  | .remove x => listRemove h head x

/-- The operation on a sequence. -/
def ListOp.apply (xs : List Int) : ListOp → List Int
  | .insertHead x => x :: xs
  | .insertTail x => xs ++ [x]
  | .removeHead => xs.tail
  | .removeTail => xs.dropLast
  | .remove x => xs.erase x

/-- What the operation asks of the sequence: a removal does not take its only
element. -/
def ListOp.Fits (xs : List Int) : ListOp → Prop
  | .insertHead _ => True
  | .insertTail _ => True
  | .removeHead => xs.length ≠ 1
  | .removeTail => xs.length ≠ 1
  | .remove x => xs ≠ [x]

/-- The operation returns a well-formed list with the contents it should have,
which both traversals print. -/
def Implements (h : Heap Int) (head : Ptr) (xs : List Int) (op : ListOp) : Prop :=
  ∃ h' head' m, op.run h head = some (h', head') ∧ IsList h' head' m ∧ contents m = op.apply xs ∧
    listPrint h' h'.brk head' = some (op.apply xs) ∧ listReversePrint h' head' = some (op.apply xs).reverse

/-- The traversals come for free. -/
theorem implements_of_contents {h : Heap Int} {op : ListOp} (hrun : op.run h head = some (h', head'))
    (hl : IsList h' head' m) (hm : contents m = op.apply xs) : Implements h head xs op := by
  obtain ⟨hprint, hback⟩ := listReversePrint_spec hl
  rw [hm] at hprint hback
  exact ⟨h', head', m, hrun, hl, hm, hprint, hback⟩

theorem not_implements_of_none {h : Heap Int} {op : ListOp} (hrun : op.run h head = none) :
    ¬ Implements h head xs op := by
  rintro ⟨h', head', m, hsome, -⟩
  exact nomatch hrun.symm.trans hsome

section Removal

variable {h : Heap Int} {head : Ptr} {l : List (Nat × Int)}

theorem implements_removeHead (hl : IsList h head l) :
    Implements h head (contents l) .removeHead ↔ l.length ≠ 1 := by
  match l, hl with
  | [], hl =>
      refine iff_of_true (implements_of_contents (m := []) ?_ hl rfl) (by simp)
      rw [hl.head_eq]
      rfl
  | [(a, x)], hl => exact iff_of_false (not_implements_of_none (listRemoveHead_singleton hl)) (by simp)
  | (a, x) :: (b, y) :: l, hl =>
      obtain ⟨h', hrem, hl'⟩ := listRemoveHead_spec hl
      exact iff_of_true (implements_of_contents hrem hl' rfl) (by simp)

theorem implements_removeTail (hl : IsList h head l) :
    Implements h head (contents l) .removeTail ↔ l.length ≠ 1 := by
  cases l using List.reverseRecOn with
  | nil =>
      refine iff_of_true (implements_of_contents (m := []) ?_ hl rfl) (by simp)
      rw [hl.head_eq]
      rfl
  | append_singleton l n =>
      obtain ⟨a, x⟩ := n
      cases l using List.reverseRecOn with
      | nil => exact iff_of_false (not_implements_of_none (listRemoveTail_singleton hl)) (by simp)
      | append_singleton l n =>
          obtain ⟨b, y⟩ := n
          rw [List.append_assoc] at hl
          obtain ⟨h', hrem, hl'⟩ := listRemoveTail_spec hl
          refine iff_of_true (implements_of_contents hrem hl' ?_) (by simp)
          simp [contents, ListOp.apply]

theorem implements_remove (hl : IsList h head l) (x : Int) :
    Implements h head (contents l) (.remove x) ↔ contents l ≠ [x] := by
  by_cases hmem : x ∈ contents l
  · by_cases hlen : 2 ≤ l.length
    · obtain ⟨h', head', m, hrem, hl', hm⟩ := listRemove_spec hl hlen hmem
      refine iff_of_true (implements_of_contents hrem hl' hm) fun hone => ?_
      have hlength := congrArg List.length hone
      simp only [contents, List.length_map, List.length_singleton] at hlength
      omega
    · obtain ⟨⟨a, y⟩, rfl⟩ : ∃ n, l = [n] := by
        have hpos := List.length_pos_of_mem hmem
        rw [contents, List.length_map] at hpos
        exact List.length_eq_one_iff.mp (by omega)
      obtain rfl : x = y := by simpa [contents] using hmem
      exact iff_of_false (not_implements_of_none (listRemove_singleton hl)) (by simp [contents])
  · refine iff_of_true (implements_of_contents (listRemove_not_mem hl hmem) hl ?_) ?_
    · rw [ListOp.apply, List.erase_of_not_mem hmem]
    · rintro hone
      simp [hone] at hmem

end Removal

/-- **The list operations implement sequences** on every well-formed list, each
exactly where it does not remove the only element. -/
theorem implements_iff {h : Heap Int} {head : Ptr} (hl : IsList h head l) (op : ListOp) :
    Implements h head (contents l) op ↔ op.Fits (contents l) := by
  cases op with
  | insertHead x =>
      obtain ⟨h', head', m, hins, hl', hm⟩ := listInsertHead_spec hl x
      exact iff_of_true (implements_of_contents hins hl' hm) trivial
  | insertTail x =>
      obtain ⟨h', head', m, hins, hl', hm⟩ := listInsertTail_spec hl x
      exact iff_of_true (implements_of_contents hins hl' hm) trivial
  | removeHead => simpa [ListOp.Fits, contents] using implements_removeHead hl
  | removeTail => simpa [ListOp.Fits, contents] using implements_removeTail hl
  | remove x => exact implements_remove hl x

/-- `list_remove` in the middle of the list that three calls of `list_insert_tail` make
of the empty one. -/
theorem implements_iff_between : ∃ h₁ head₁ h₂ head₂ h head, listInsertTail Heap.empty none 4 = some (h₁, head₁) ∧
    listInsertTail h₁ head₁ 2 = some (h₂, head₂) ∧ listInsertTail h₂ head₂ 6 = some (h, head) ∧
    Implements h head [4, 2, 6] (.remove 2) := by
  obtain ⟨h₁, head₁, l₁, hins₁, hl₁, hc₁⟩ := listInsertTail_spec (isList_nil Heap.ok_empty) 4
  obtain ⟨h₂, head₂, l₂, hins₂, hl₂, hc₂⟩ := listInsertTail_spec hl₁ 2
  obtain ⟨h, head, l, hins, hl, hc⟩ := listInsertTail_spec hl₂ 6
  have hcontents : contents l = [4, 2, 6] := by
    rw [hc, hc₂, hc₁]
    rfl
  refine ⟨h₁, head₁, h₂, head₂, h, head, hins₁, hins₂, hins, ?_⟩
  rw [← hcontents]
  refine (implements_iff hl (.remove 2)).mpr ?_
  rw [hcontents]
  exact fun hone => absurd hone (by decide)

/-- The list of one node that `list_insert_head` makes of the empty one. -/
def oneNode (x : Int) : Heap Int := (Heap.empty.alloc ⟨x, none, none⟩).1

theorem isList_oneNode (x : Int) : IsList (oneNode x) (some 0) [(0, x)] := by
  have hc : Chain (oneNode x).cells none [(0, x)] none := by
    simp [oneNode, Heap.alloc, Heap.empty, chain_cons]
  exact isList_of_chain (Heap.ok_alloc Heap.ok_empty _) hc

/-- All three removals dereference null on the list of one node. -/
theorem removals_crash : listInsertHead Heap.empty none 2 = some (oneNode 2, some 0) ∧
    IsList (oneNode 2) (some 0) [(0, 2)] ∧ listRemoveHead (oneNode 2) (some 0) = none ∧
    listRemoveTail (oneNode 2) (some 0) = none ∧ listRemove (oneNode 2) (some 0) 2 = none ∧
    ¬ ∀ op, Implements (oneNode 2) (some 0) [2] op := by
  have hl := isList_oneNode 2
  have hcrash : ListOp.removeHead.run (oneNode 2) (some 0) = none := listRemoveHead_singleton hl
  exact ⟨rfl, hl, hcrash, listRemoveTail_singleton hl, listRemove_singleton hl,
    fun hall => not_implements_of_none hcrash (hall .removeHead)⟩

end OperatingSystem.Vm
