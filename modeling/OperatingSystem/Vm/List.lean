import Mathlib.Data.List.Basic
import Mathlib.Data.List.Induction
import OperatingSystem.Lib.Dlist

/-!
# OperatingSystem.Vm.List

The doubly linked list of `list.c`, over a heap of nodes.  Every function
returns `none` where the C code dereferences a null pointer.  A traversal runs
on fuel: the number of nodes ever allocated, which only a cyclic list can
exhaust.

The specifications are stated about the list's contents: `list_remove_tail`,
`list_remove_head` and `list_remove` do their job on lists of at least two
nodes (`listRemove_spec`), and on the one-node list both removals dereference
null (`listRemove_singleton`).
-/

namespace OperatingSystem.Vm

open Dlist

/-- `struct Node *`: an address, or `NULL`. -/
abbrev Ptr := Option Nat

/-! ## list.c -/

def listNewNode (h : Heap Int) (x : Int) : Heap Int × Nat :=
  h.alloc { data := x, next := none, prev := none }

/-- `while(ret->next != NULL) ret = ret->next;` -/
def lastNode (h : Heap Int) : Nat → Nat → Option Nat
  | 0, _ => none
  | fuel + 1, ret => (h.cells ret).bind fun n =>
      match n.next with
      | none => some ret
      | some next => lastNode h fuel next

/-- `while(ret->prev != NULL) ret = ret->prev;` -/
def firstNode (h : Heap Int) : Nat → Nat → Option Nat
  | 0, _ => none
  | fuel + 1, ret => (h.cells ret).bind fun n =>
      match n.prev with
      | none => some ret
      | some prev => firstNode h fuel prev

def listRemoveTail (h : Heap Int) (head : Ptr) : Option (Heap Int × Ptr) :=
  match head with
  | none => some (h, none)
  | some a => do
      let ret ← lastNode h h.brk a
      let n ← h.cells ret
      let prev ← n.prev
      let h ← h.setNext prev none
      return (h, some a)

def listRemoveHead (h : Heap Int) (head : Ptr) : Option (Heap Int × Ptr) :=
  match head with
  | none => some (h, none)
  | some a => do
      let n ← h.cells a
      let head ← n.next
      let h ← h.setPrev head none
      return (h, some head)

/-- `ret->prev->next = ret->next; ret->next->prev = ret->prev;`, each guarded
by a null check. -/
def unlink (h : Heap Int) (ret : Nat) : Option (Heap Int) := do
  let n ← h.cells ret
  let h ← match n.prev with
    | some prev => h.setNext prev n.next
    | none => some h
  let n ← h.cells ret
  match n.next with
    | some next => h.setPrev next n.prev
    | none => some h

/-- The search loop of `list_remove`, from the node `ret`. -/
def listRemoveFrom (h : Heap Int) (head : Nat) (data : Int) : Nat → Ptr → Option (Heap Int × Ptr)
  | _, none => some (h, some head)
  | 0, some _ => none
  | fuel + 1, some ret => (h.cells ret).bind fun n =>
      if data = n.data then
        if ret = head then listRemoveHead h (some head)
        else if n.next = none then listRemoveTail h (some head)
        else (unlink h ret).map fun h => (h, some head)
      else listRemoveFrom h head data fuel n.next

def listRemove (h : Heap Int) (head : Ptr) (data : Int) : Option (Heap Int × Ptr) :=
  match head with
  | none => some (h, none)
  | some a => listRemoveFrom h a data h.brk (some a)

def listInsertHead (h : Heap Int) (head : Ptr) (x : Int) : Option (Heap Int × Ptr) :=
  let (h, newNode) := listNewNode h x
  match head with
  | none => some (h, some newNode)
  | some a => do
      let h ← h.setPrev a (some newNode)
      let h ← h.setNext newNode (some a)
      return (h, some newNode)

def listInsertTail (h : Heap Int) (head : Ptr) (x : Int) : Option (Heap Int × Ptr) :=
  let (h, newNode) := listNewNode h x
  match head with
  | none => some (h, some newNode)
  | some a => do
      let temp ← lastNode h h.brk a
      let h ← h.setNext temp (some newNode)
      let h ← h.setPrev newNode (some temp)
      return (h, some a)

/-! ## Traversals -/

/-- Walking right from inside a chain that ends in null reaches its last node. -/
theorem lastNode_spec {h : Heap Int} (l : List (Nat × Int)) (hc : Chain h.cells p (l ++ [(a, x)]) none)
    (hf : l.length < fuel) :
    ∃ b, entry (l ++ [(a, x)]) none = some b ∧ lastNode h fuel b = some a := by
  induction l generalizing p fuel with
  | nil =>
      obtain ⟨fuel, rfl⟩ : ∃ k, fuel = k + 1 := ⟨fuel - 1, by simp at hf; omega⟩
      refine ⟨a, rfl, ?_⟩
      have ha := hc.1
      simp [lastNode, ha]
  | cons n l ih =>
      obtain ⟨b, y⟩ := n
      obtain ⟨fuel, rfl⟩ : ∃ k, fuel = k + 1 := ⟨fuel - 1, by simp at hf; omega⟩
      simp only [List.cons_append, chain_cons] at hc
      obtain ⟨c, hentry, hlast⟩ := ih hc.2 (by simp at hf; omega)
      refine ⟨b, rfl, ?_⟩
      rw [lastNode, hc.1, hentry]
      exact hlast

/-- Walking left from the last node of a chain that starts in null reaches its
first node. -/
theorem firstNode_spec {h : Heap Int} (l : List (Nat × Int)) (hc : Chain h.cells none (l ++ [(a, x)]) q)
    (hf : l.length < fuel) :
    ∃ b, entry (l ++ [(a, x)]) q = some b ∧ firstNode h fuel a = some b := by
  induction l using List.reverseRecOn generalizing a x q fuel with
  | nil =>
      obtain ⟨fuel, rfl⟩ : ∃ k, fuel = k + 1 := ⟨fuel - 1, by simp at hf; omega⟩
      refine ⟨a, rfl, ?_⟩
      have ha := hc.1
      simp [firstNode, ha]
  | append_singleton l n ih =>
      obtain ⟨b, y⟩ := n
      obtain ⟨fuel, rfl⟩ : ∃ k, fuel = k + 1 := ⟨fuel - 1, by simp at hf; omega⟩
      rw [chain_append] at hc
      obtain ⟨c, hentry, hfirst⟩ := ih hc.1 (by simp at hf; omega)
      have ha := hc.2.1
      rw [exit_concat] at ha
      refine ⟨c, ?_, ?_⟩
      · rw [entry_append]
        simpa using hentry
      · rw [firstNode, ha]
        exact hfirst

/-! ## Specifications -/

/-- Dropping the last of at least two nodes. -/
theorem listRemoveTail_spec {h : Heap Int} {head : Ptr}
    (hl : IsList h head (l ++ [(b, y), (a, x)])) :
    ∃ h', listRemoveTail h head = some (h', head) ∧ IsList h' head (l ++ [(b, y)]) := by
  have hsplit : l ++ [(b, y), (a, x)] = (l ++ [(b, y)]) ++ [(a, x)] := by simp
  have hlen := hl.length_le
  have hfuel : (l ++ [(b, y)]).length < h.brk := by
    simp only [List.length_append, List.length_cons, List.length_nil] at hlen ⊢
    omega
  obtain ⟨c, hentry, hlast⟩ := lastNode_spec (l ++ [(b, y)]) (hsplit ▸ hl.chain) hfuel
  have hhead : head = some c := by rw [hl.head_eq, hsplit, hentry]
  have hc := hl.chain
  rw [hsplit, chain_append] at hc
  have ha := hc.2.1
  rw [exit_concat] at ha
  have hb := ((chain_append _ _ _ _).mp hc.1).2.1
  have hnd := hl.nodup
  simp only [addrs_append, addrs_cons, addrs_nil] at hnd
  have hbl : b ∉ addrs l := fun hmem => (List.nodup_append.mp hnd).2.2 b hmem b (by simp) rfl
  refine ⟨{ h with cells := Function.update h.cells b (some ⟨y, none, exit none l⟩) },
    ?_, ?_, ?_, chain_setNext_last hbl hc.1 none, ?_⟩
  · subst hhead
    simp [listRemoveTail, hlast, ha, hb, Heap.setNext]
  · exact Heap.ok_update hl.ok hb _
  · rw [hl.head_eq]
    cases l <;> rfl
  · rw [addrs_append]
    exact hnd.sublist (by simp)

/-- Dropping the first of at least two nodes. -/
theorem listRemoveHead_spec {h : Heap Int} {head : Ptr}
    (hl : IsList h head ((a, x) :: (b, y) :: l)) :
    ∃ h', listRemoveHead h head = some (h', some b) ∧ IsList h' (some b) ((b, y) :: l) := by
  have hhead : head = some a := hl.head_eq
  obtain ⟨ha, hb⟩ := chain_cons.mp hl.chain
  have hnd := List.nodup_cons.mp hl.nodup
  have hbl : b ∉ addrs l := (List.nodup_cons.mp hnd.2).1
  refine ⟨{ h with cells := Function.update h.cells b (some ⟨y, entry l none, none⟩) },
    ?_, ?_, rfl, chain_setPrev_first hbl hb none, hnd.2⟩
  · subst hhead
    simp [listRemoveHead, ha, Heap.setPrev, hb.1]
  · exact Heap.ok_update hl.ok hb.1 _

/-- Unlinking an inner node joins its neighbours. -/
theorem unlink_spec {h : Heap Int} {head : Ptr}
    (hl : IsList h head (l ++ (b, y) :: (a, x) :: (c, z) :: m)) :
    ∃ h', unlink h a = some h' ∧ IsList h' head (l ++ (b, y) :: (c, z) :: m) := by
  have hc := hl.chain
  rw [show l ++ (b, y) :: (a, x) :: (c, z) :: m = (l ++ [(b, y)]) ++ (a, x) :: (c, z) :: m by simp,
    chain_append] at hc
  have ha := hc.2.1
  rw [exit_concat] at ha
  have hb := ((chain_append _ _ _ _).mp hc.1).2.1
  have hcz := hc.2.2
  have hnd := hl.nodup
  simp only [addrs_append, addrs_cons] at hnd
  have hnd' : (b :: a :: c :: addrs m).Nodup := (List.nodup_append.mp hnd).2.1
  simp only [List.nodup_cons, List.mem_cons, not_or] at hnd'
  obtain ⟨⟨hba, hbc, hbm⟩, ⟨hac, -⟩, hcm, -⟩ := hnd'
  have hbl : b ∉ addrs l := fun hmem => (List.nodup_append.mp hnd).2.2 b hmem b (by simp) rfl
  have hcl : c ∉ addrs (l ++ [(b, y)]) := by
    rw [addrs_append, List.mem_append, not_or]
    exact ⟨fun hmem => (List.nodup_append.mp hnd).2.2 c hmem c (by simp) rfl,
      by simpa using Ne.symm hbc⟩
  have hcell : Function.update h.cells b (some ⟨y, some c, exit none l⟩) c =
      some ⟨z, entry m none, some a⟩ := by
    rw [Function.update_of_ne (Ne.symm hbc)]
    exact hcz.1
  have hcell' : Function.update h.cells b (some ⟨y, some c, exit none l⟩) a =
      some ⟨x, some c, some b⟩ := by
    rw [Function.update_of_ne (Ne.symm hba)]
    exact ha
  refine ⟨{ h with cells := Function.update (Function.update h.cells b
    (some ⟨y, some c, exit none l⟩)) c (some ⟨z, entry m none, some b⟩) }, ?_, ?_, ?_, ?_, ?_⟩
  · simp [unlink, ha, hb, Heap.setNext, Heap.setPrev, hcell, hcell']
  · exact Heap.ok_update (Heap.ok_update hl.ok hb _) hcell _
  · rw [hl.head_eq]
    cases l <;> rfl
  · rw [show l ++ (b, y) :: (c, z) :: m = (l ++ [(b, y)]) ++ (c, z) :: m by simp, chain_append,
      exit_concat]
    refine ⟨chain_frame hcl _ (chain_setNext_last hbl hc.1 (some c)), ?_⟩
    exact chain_setPrev_first hcm (chain_frame (by simpa [hbc] using hbm) _ hcz) (some b)
  · rw [addrs_append]
    exact hnd.sublist (by simp)

/-- The search walks over the nodes that do not hold `data`. -/
theorem listRemoveFrom_skip {h : Heap Int} (l m : List (Nat × Int)) (hc : Chain h.cells p (l ++ m) none)
    (hl : data ∉ contents l) (head fuel : Nat) :
    listRemoveFrom h head data (l.length + fuel) (entry (l ++ m) none) =
      listRemoveFrom h head data fuel (entry m none) := by
  induction l generalizing p with
  | nil => simp
  | cons n l ih =>
      obtain ⟨a, x⟩ := n
      simp only [contents, List.map_cons, List.mem_cons, not_or] at hl
      simp only [List.cons_append, chain_cons] at hc
      rw [← ih hc.2 hl.2, List.length_cons,
        show l.length + 1 + fuel = (l.length + fuel) + 1 by omega, List.cons_append, entry_cons,
        listRemoveFrom, hc.1, Option.bind_some, if_neg hl.1]

/-- `list_remove` leaves a list without the datum alone. -/
theorem listRemove_not_mem {h : Heap Int} {head : Ptr} (hl : IsList h head l)
    (hdata : data ∉ contents l) : listRemove h head data = some (h, head) := by
  cases l with
  | nil => rw [hl.head_eq]; rfl
  | cons n l =>
      obtain ⟨a, x⟩ := n
      have hlen := hl.length_le
      obtain ⟨k, hk⟩ : ∃ k, h.brk = ((a, x) :: l).length + k := ⟨_, (Nat.add_sub_of_le hlen).symm⟩
      have hskip := listRemoveFrom_skip _ [] (by simpa using hl.chain) hdata a k
      rw [List.append_nil, ← hk] at hskip
      rw [hl.head_eq]
      cases k <;> exact hskip

/-- **`list_remove` on a list of two nodes or more**: it finishes without a null
dereference and its result holds the old contents without the first occurrence
of the datum. -/
theorem listRemove_spec {h : Heap Int} {head : Ptr} (hl : IsList h head l)
    (hlen : 2 ≤ l.length) (hdata : data ∈ contents l) :
    ∃ h' head' m, listRemove h head data = some (h', head') ∧ IsList h' head' m ∧
      contents m = (contents l).erase data := by
  obtain ⟨xs, ys, hxs, hdata'⟩ := List.eq_append_cons_of_mem hdata
  obtain ⟨l₁, m₁, rfl, rfl, hm₁⟩ := List.map_eq_append_iff.mp hxs
  obtain ⟨⟨a, x⟩, l₂, rfl, rfl, rfl⟩ := List.map_eq_cons_iff.mp hm₁
  have herase : (contents (l₁ ++ (a, x) :: l₂)).erase x = contents (l₁ ++ l₂) := by
    simp only [contents, List.map_append, List.map_cons]
    rw [List.erase_append_right _ hdata', List.erase_cons_head]
  obtain ⟨k, hk⟩ : ∃ k, h.brk = l₁.length + (k + 1) := by
    have hle := hl.length_le
    simp only [List.length_append, List.length_cons] at hle
    exact ⟨h.brk - l₁.length - 1, by omega⟩
  have hskip := fun head => listRemoveFrom_skip l₁ ((a, x) :: l₂) hl.chain hdata' head (k + 1)
  have hcell := ((chain_append l₁ ((a, x) :: l₂) _ _).mp hl.chain).2.1
  rw [← hk] at hskip
  rw [herase]
  cases l₁ with
  | nil =>
      -- the datum is at the head
      obtain ⟨⟨b, y⟩, l₂, rfl⟩ := List.exists_cons_of_length_pos (l := l₂)
        (by simp at hlen; omega)
      obtain ⟨h', hrem, hl'⟩ := listRemoveHead_spec hl
      refine ⟨h', some b, (b, y) :: l₂, ?_, hl', rfl⟩
      rw [hl.head_eq] at hrem ⊢
      simp only [List.nil_append, entry_cons, listRemove] at hskip hrem ⊢
      rw [hskip, listRemoveFrom, hcell, Option.bind_some, if_pos rfl, if_pos rfl]
      exact hrem
  | cons n l₁ =>
      obtain ⟨c, z⟩ := n
      have hhead : head = some c := hl.head_eq
      have hac : a ≠ c := by
        rintro rfl
        exact (List.nodup_cons.mp hl.nodup).1 (by simp)
      have hstep : listRemove h head x = (if l₂ = [] then listRemoveTail h (some c)
          else (unlink h a).map fun h => (h, some c)) := by
        rw [hhead, listRemove, ← hhead, hl.head_eq, hskip]
        simp only [entry_cons, listRemoveFrom, hcell, Option.bind_some, if_neg hac]
        cases l₂ <;> rfl
      rw [hstep]
      obtain ⟨u, ⟨b, y⟩, hu⟩ := ((c, z) :: l₁).eq_nil_or_concat'.resolve_left (List.cons_ne_nil _ _)
      cases l₂ with
      | nil =>
          rw [hu, List.append_assoc] at hl
          obtain ⟨h', hrem, hl'⟩ := listRemoveTail_spec hl
          refine ⟨h', head, u ++ [(b, y)], ?_, hl', by rw [hu, List.append_nil]⟩
          rw [if_pos rfl, ← hhead, hrem]
      | cons n l₂ =>
          obtain ⟨d, w⟩ := n
          rw [hu, List.append_assoc] at hl
          obtain ⟨h', hrem, hl'⟩ := unlink_spec hl
          refine ⟨h', head, u ++ (b, y) :: (d, w) :: l₂, ?_, hl', by rw [hu, List.append_assoc]; rfl⟩
          rw [if_neg (List.cons_ne_nil _ _), hrem, hhead]
          rfl

/-- On the one-node list, `list_remove` of its datum goes to `list_remove_head`,
which writes `prev` through the null `next` of that node. -/
theorem listRemove_singleton {h : Heap Int} {head : Ptr} (hl : IsList h head [(a, x)]) :
    listRemove h head x = none := by
  have hcell := hl.chain.1
  have hlen := hl.length_le
  obtain ⟨k, hk⟩ : ∃ k, h.brk = k + 1 := ⟨h.brk - 1, by simp at hlen; omega⟩
  rw [hl.head_eq]
  simp [listRemove, hk, listRemoveFrom, hcell, listRemoveHead]

/-- `list_remove_head` writes `prev` through the null `next` of an only node. -/
theorem listRemoveHead_singleton {h : Heap Int} {head : Ptr} (hl : IsList h head [(a, x)]) :
    listRemoveHead h head = none := by
  have hcell := hl.chain.1
  rw [hl.head_eq]
  simp [listRemoveHead, hcell]

/-- `list_remove_tail` writes `next` through the null `prev` of an only node. -/
theorem listRemoveTail_singleton {h : Heap Int} {head : Ptr} (hl : IsList h head [(a, x)]) :
    listRemoveTail h head = none := by
  have hcell := hl.chain.1
  obtain ⟨b, hentry, hlast⟩ := lastNode_spec [] hl.chain hl.length_le
  obtain rfl := Option.some.inj hentry
  rw [hl.head_eq]
  simp [listRemoveTail, hlast, hcell]

/-- **`list_insert_head`** puts the datum before the old contents. -/
theorem listInsertHead_spec {h : Heap Int} {head : Ptr} (hl : IsList h head l) (x : Int) :
    ∃ h' head' m, listInsertHead h head x = some (h', head') ∧ IsList h' head' m ∧
      contents m = x :: contents l := by
  cases l with
  | nil =>
      rw [hl.head_eq]
      refine ⟨_, _, [(h.brk, x)], rfl, ⟨Heap.ok_alloc hl.ok _, rfl, ?_, by simp⟩, rfl⟩
      simp [chain_cons]
  | cons n l =>
      obtain ⟨b, y⟩ := n
      have hb := hl.chain.1
      have hlt := Heap.lt_brk hl.ok hb
      have hne : b ≠ h.brk := by omega
      refine ⟨_, _, _, ?_, hl.push x, rfl⟩
      rw [hl.head_eq]
      simp only [listInsertHead, listNewNode, Heap.alloc, Heap.setPrev, Heap.setNext, entry_cons,
        Function.update_of_ne hne, Function.update_of_ne (Ne.symm hne), hb, Function.update_self,
        Option.map_some, Option.bind_eq_bind, Option.bind_some]
      rw [Function.update_comm hne, Function.update_idem, Function.update_comm (Ne.symm hne)]
      rfl

/-- **`list_insert_tail`** puts the datum behind the old contents. -/
theorem listInsertTail_spec {h : Heap Int} {head : Ptr} (hl : IsList h head l) (x : Int) :
    ∃ h' head' m, listInsertTail h head x = some (h', head') ∧ IsList h' head' m ∧
      contents m = contents l ++ [x] := by
  cases l using List.reverseRecOn with
  | nil =>
      rw [hl.head_eq]
      refine ⟨_, _, [(h.brk, x)], rfl, ⟨Heap.ok_alloc hl.ok _, rfl, ?_, by simp⟩, rfl⟩
      simp [chain_cons]
  | append_singleton l n =>
      obtain ⟨a, y⟩ := n
      have ha := ((chain_append _ _ _ _).mp hl.chain).2.1
      have hlt := Heap.lt_brk hl.ok ha
      have hne : a ≠ h.brk := by omega
      -- the walk to the last node runs behind the allocation
      have halloc := hl.alloc ⟨x, none, none⟩
      have hfuel : l.length < (h.alloc ⟨x, none, none⟩).1.brk := by
        have hlen := hl.length_le
        simp only [List.length_append, List.length_singleton] at hlen
        simp only [Heap.alloc]
        omega
      obtain ⟨b, hentry, hlast⟩ := lastNode_spec l halloc.chain hfuel
      refine ⟨_, head, _, ?_, hl.snoc x, by simp [contents]⟩
      rw [hl.head_eq, hentry]
      simp only [listInsertTail, listNewNode, Heap.alloc] at hlast ⊢
      simp only [hlast, Heap.setNext, Heap.setPrev, Function.update_of_ne hne, ha,
        Function.update_of_ne (Ne.symm hne), Function.update_self, Option.map_some, Option.bind_eq_bind,
        Option.bind_some, Option.pure_def]
      rw [Function.update_comm hne, Function.update_idem, Function.update_comm (Ne.symm hne)]

end OperatingSystem.Vm
