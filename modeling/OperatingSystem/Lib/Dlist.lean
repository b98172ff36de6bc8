import Mathlib.Logic.Function.Basic
import Mathlib.Data.List.Perm.Subperm

/-!
# OperatingSystem.Lib.Dlist

Doubly linked lists in a heap of nodes.  A heap maps addresses to nodes and
remembers the next address `malloc` returns; a null pointer is `none`.

`Chain c p l q` says that the cells `c` hold, in order, the nodes `l` (address
and datum), linked in both directions, with `p` before the first and `q` after
the last.  Chains split at every point (`chain_append`), ignore writes outside
their addresses (`chain_frame`), and their two boundary pointers can be
redirected (`chain_setNext_last`, `chain_setPrev_first`): every pointer
surgery on a list is a composition of the three.  `IsList` closes a chain at
both ends with null pointers.
-/

namespace Dlist

/-- A list node: its datum and its two links. -/
structure Node (α : Type) where
  data : α
  next : Option Nat
  prev : Option Nat
deriving DecidableEq

/-- A heap of nodes, with the next address to allocate. -/
structure Heap (α : Type) where
  cells : Nat → Option (Node α)
  brk : Nat

variable {α : Type}

namespace Heap

/-- The heap nothing was allocated in. -/
def empty : Heap α := ⟨fun _ => none, 0⟩

/-- Every node lies below the allocation pointer. -/
def Ok (h : Heap α) : Prop := ∀ a, h.brk ≤ a → h.cells a = none

/-- Allocate a node: a fresh address holding it. -/
def alloc (h : Heap α) (n : Node α) : Heap α × Nat :=
  (⟨Function.update h.cells h.brk (some n), h.brk + 1⟩, h.brk)

/-- `a->next = v`; `none` when there is no node at `a`. -/
def setNext (h : Heap α) (a : Nat) (v : Option Nat) : Option (Heap α) :=
  (h.cells a).map fun n => { h with cells := Function.update h.cells a (some { n with next := v }) }

/-- `a->prev = v`; `none` when there is no node at `a`. -/
def setPrev (h : Heap α) (a : Nat) (v : Option Nat) : Option (Heap α) :=
  (h.cells a).map fun n => { h with cells := Function.update h.cells a (some { n with prev := v }) }

theorem ok_empty : (empty : Heap α).Ok := fun _ _ => rfl

theorem ok_alloc {h : Heap α} (hok : h.Ok) (n : Node α) : (h.alloc n).1.Ok := by
  intro a ha
  simp only [alloc] at ha ⊢
  rw [Function.update_of_ne (by omega)]
  exact hok a (by omega)

/-- Rewriting a node that exists keeps the heap well formed. -/
theorem ok_update {h : Heap α} (hok : h.Ok) (ha : h.cells a = some n) (m : Node α) :
    Heap.Ok { h with cells := Function.update h.cells a (some m) } := by
  intro b hb
  have hne : b ≠ a := by
    rintro rfl
    rw [hok b hb] at ha
    contradiction
  simpa [hne] using hok b hb

theorem lt_brk {h : Heap α} (hok : h.Ok) (ha : h.cells a = some n) : a < h.brk := by
  by_contra hge
  rw [hok a (by omega)] at ha
  contradiction

end Heap

/-! ## Chains -/

/-- The address a chain is entered at: its first node, or `q` when it is empty. -/
def entry (l : List (Nat × α)) (q : Option Nat) : Option Nat :=
  match l with
  | [] => q
  | (a, _) :: _ => some a

/-- The address a chain is left from: its last node, or `p` when it is empty. -/
def exit (p : Option Nat) (l : List (Nat × α)) : Option Nat :=
  match l with
  | [] => p
  | (a, _) :: l => exit (some a) l

/-- The cells hold the nodes `l`, linked both ways, between `p` and `q`. -/
def Chain (c : Nat → Option (Node α)) (p : Option Nat) : List (Nat × α) → Option Nat → Prop
  | [], _ => True
  | (a, x) :: l, q => c a = some ⟨x, entry l q, p⟩ ∧ Chain c (some a) l q

@[simp] theorem entry_nil (q : Option Nat) : entry ([] : List (Nat × α)) q = q := rfl

@[simp] theorem entry_cons (a : Nat) (x : α) (l : List (Nat × α)) (q : Option Nat) :
    entry ((a, x) :: l) q = some a := rfl

@[simp] theorem exit_nil (p : Option Nat) : exit p ([] : List (Nat × α)) = p := rfl

@[simp] theorem exit_concat (p : Option Nat) (l : List (Nat × α)) (a : Nat) (x : α) :
    exit p (l ++ [(a, x)]) = some a := by
  induction l generalizing p with
  | nil => rfl
  | cons n l ih =>
      obtain ⟨b, y⟩ := n
      exact ih (some b)

theorem entry_append (l m : List (Nat × α)) (q : Option Nat) :
    entry (l ++ m) q = entry l (entry m q) := by
  cases l <;> rfl

@[simp] theorem chain_nil (c : Nat → Option (Node α)) (p q : Option Nat) : Chain c p [] q :=
  trivial

theorem chain_cons {c : Nat → Option (Node α)} {p q : Option Nat} {a : Nat} {x : α}
    {l : List (Nat × α)} :
    Chain c p ((a, x) :: l) q ↔ c a = some ⟨x, entry l q, p⟩ ∧ Chain c (some a) l q := Iff.rfl

/-- **Splitting**: a chain over `l ++ m` is a chain over `l` up to the entry of
`m`, and one over `m` from the exit of `l`. -/
theorem chain_append {c : Nat → Option (Node α)} (l m : List (Nat × α)) (p q : Option Nat) :
    Chain c p (l ++ m) q ↔ Chain c p l (entry m q) ∧ Chain c (exit p l) m q := by
  induction l generalizing p with
  | nil => simp
  | cons n l ih =>
      obtain ⟨a, x⟩ := n
      simp only [List.cons_append, chain_cons, entry_append, ih (some a), exit]
      exact and_assoc.symm

/-- The addresses of a chain's nodes. -/
def addrs (l : List (Nat × α)) : List Nat := l.map Prod.fst

@[simp] theorem addrs_append (l m : List (Nat × α)) : addrs (l ++ m) = addrs l ++ addrs m := by
  simp [addrs]

@[simp] theorem addrs_cons (a : Nat) (x : α) (l : List (Nat × α)) :
    addrs ((a, x) :: l) = a :: addrs l := rfl

@[simp] theorem addrs_nil : addrs ([] : List (Nat × α)) = [] := rfl

/-- **Frame**: a chain does not see a write outside its own addresses. -/
theorem chain_frame {c : Nat → Option (Node α)} {l : List (Nat × α)} {p q : Option Nat}
    (ha : a ∉ addrs l) (v : Option (Node α)) (h : Chain c p l q) :
    Chain (Function.update c a v) p l q := by
  induction l generalizing p with
  | nil => trivial
  | cons n l ih =>
      obtain ⟨b, x⟩ := n
      simp only [addrs_cons, List.mem_cons, not_or] at ha
      rw [chain_cons] at h ⊢
      rw [Function.update_of_ne (Ne.symm ha.1)]
      exact ⟨h.1, ih ha.2 h.2⟩

/-- Every address of a chain holds a node. -/
theorem cells_of_mem {c : Nat → Option (Node α)} {l : List (Nat × α)} {p q : Option Nat}
    (h : Chain c p l q) (ha : a ∈ addrs l) : ∃ n, c a = some n := by
  induction l generalizing p with
  | nil => simp at ha
  | cons n l ih =>
      obtain ⟨b, x⟩ := n
      rw [addrs_cons, List.mem_cons] at ha
      cases ha with
      | inl hab => exact ⟨_, hab ▸ h.1⟩
      | inr hal => exact ih h.2 hal

/-- Redirecting the last node's `next` moves the chain's right boundary. -/
theorem chain_setNext_last {c : Nat → Option (Node α)} {l : List (Nat × α)} {p q : Option Nat}
    (hnd : a ∉ addrs l) (h : Chain c p (l ++ [(a, x)]) q) (q' : Option Nat) :
    Chain (Function.update c a (some ⟨x, q', exit p l⟩)) p (l ++ [(a, x)]) q' := by
  rw [chain_append] at h ⊢
  refine ⟨chain_frame hnd _ h.1, ?_⟩
  simp [chain_cons]

/-- Redirecting the first node's `prev` moves the chain's left boundary. -/
theorem chain_setPrev_first {c : Nat → Option (Node α)} {l : List (Nat × α)} {p q : Option Nat}
    (hnd : a ∉ addrs l) (h : Chain c p ((a, x) :: l) q) (p' : Option Nat) :
    Chain (Function.update c a (some ⟨x, entry l q, p'⟩)) p' ((a, x) :: l) q := by
  rw [chain_cons] at h ⊢
  exact ⟨by simp, chain_frame hnd _ h.2⟩

/-- The nodes of a null-terminated chain are determined by where it is entered. -/
theorem chain_unique {c : Nat → Option (Node α)} {l m : List (Nat × α)} {p p' : Option Nat}
    (hl : Chain c p l none) (hm : Chain c p' m none) (h : entry l none = entry m none) : l = m := by
  induction l generalizing p p' m with
  | nil =>
      cases m with
      | nil => rfl
      | cons n m => exact absurd h (by simp [entry])
  | cons n l ih =>
      obtain ⟨a, x⟩ := n
      cases m with
      | nil => simp at h
      | cons n m =>
          obtain ⟨b, y⟩ := n
          simp only [entry_cons, Option.some.injEq] at h
          subst h
          have hcell := Option.some.inj (hl.1.symm.trans hm.1)
          simp only [Node.mk.injEq] at hcell
          rw [hcell.1, ih hl.2 hm.2 hcell.2.1]

/-- A null-terminated chain does not come back to an address. -/
theorem chain_nodup {c : Nat → Option (Node α)} {l : List (Nat × α)} {p : Option Nat} (h : Chain c p l none) :
    (addrs l).Nodup := by
  induction l generalizing p with
  | nil => exact List.nodup_nil
  | cons n l ih =>
      obtain ⟨a, x⟩ := n
      refine List.nodup_cons.mpr ⟨fun hmem => ?_, ih h.2⟩
      obtain ⟨⟨b, y⟩, hn, rfl⟩ := List.mem_map.mp hmem
      obtain ⟨l₁, l₂, rfl⟩ := List.append_of_mem hn
      -- from the second visit on the chain would be the whole chain again
      have hagain := ((chain_append l₁ _ _ _).mp h.2).2
      have hlength := congrArg List.length (chain_unique h hagain rfl)
      simp only [List.length_cons, List.length_append] at hlength
      omega

/-! ## Lists -/

/-- The data stored along a chain. -/
def contents (l : List (Nat × α)) : List α := l.map Prod.snd

/-- A well-formed list at `head`: a chain between null pointers through
pairwise distinct addresses of a well-formed heap. -/
structure IsList (h : Heap α) (head : Option Nat) (l : List (Nat × α)) : Prop where
  ok : h.Ok
  head_eq : head = entry l none
  chain : Chain h.cells none l none
  nodup : (addrs l).Nodup

/-- The links alone make a list: its addresses are distinct. -/
theorem isList_of_chain {h : Heap α} (hok : h.Ok) (hc : Chain h.cells none l none) : IsList h (entry l none) l :=
  ⟨hok, rfl, hc, chain_nodup hc⟩

theorem isList_nil {h : Heap α} (hok : h.Ok) : IsList h none [] := ⟨hok, rfl, trivial, by simp⟩

/-- A list has at most as many nodes as were ever allocated. -/
theorem IsList.length_le {h : Heap α} (hl : IsList h head l) : l.length ≤ h.brk := by
  have hsub : addrs l ⊆ List.range h.brk := by
    intro a ha
    obtain ⟨n, hn⟩ := cells_of_mem hl.chain ha
    exact List.mem_range.mpr (Heap.lt_brk hl.ok hn)
  have hle := (hl.nodup.subperm hsub).length_le
  simpa [addrs] using hle

/-- Pushing a freshly allocated node at the front of a list. -/
theorem IsList.push {h : Heap α} (hl : IsList h head ((b, y) :: l)) (x : α) :
    IsList ⟨Function.update (Function.update h.cells b (some ⟨y, entry l none, some h.brk⟩)) h.brk
        (some ⟨x, some b, none⟩), h.brk + 1⟩ (some h.brk) ((h.brk, x) :: (b, y) :: l) := by
  have hfresh : h.brk ∉ addrs ((b, y) :: l) := by
    intro hmem
    obtain ⟨n, hn⟩ := cells_of_mem hl.chain hmem
    exact Nat.lt_irrefl _ (Heap.lt_brk hl.ok hn)
  have hbl : b ∉ addrs l := (List.nodup_cons.mp hl.nodup).1
  have hb := Heap.lt_brk hl.ok (chain_cons.mp hl.chain).1
  refine ⟨?_, rfl, ?_, List.nodup_cons.mpr ⟨hfresh, hl.nodup⟩⟩
  · intro a ha
    simp only at ha ⊢
    rw [Function.update_of_ne (by omega), Function.update_of_ne (by omega)]
    exact hl.ok a (by omega)
  · rw [chain_cons]
    refine ⟨by simp, chain_frame hfresh _ ?_⟩
    exact chain_setPrev_first hbl hl.chain (some h.brk)

/-- A list does not see an allocation. -/
theorem IsList.alloc {h : Heap α} (hl : IsList h head l) (n : Node α) : IsList (h.alloc n).1 head l := by
  refine ⟨Heap.ok_alloc hl.ok n, hl.head_eq, chain_frame (fun hmem => ?_) _ hl.chain, hl.nodup⟩
  obtain ⟨m, hm⟩ := cells_of_mem hl.chain hmem
  exact Nat.lt_irrefl _ (Heap.lt_brk hl.ok hm)

/-- Linking a freshly allocated node behind the last node of a list. -/
theorem IsList.snoc {h : Heap α} (hl : IsList h head (l ++ [(a, y)])) (x : α) :
    IsList ⟨Function.update (Function.update h.cells a (some ⟨y, some h.brk, exit none l⟩)) h.brk
        (some ⟨x, none, some a⟩), h.brk + 1⟩ head (l ++ [(a, y)] ++ [(h.brk, x)]) := by
  have hfresh : h.brk ∉ addrs (l ++ [(a, y)]) := by
    intro hmem
    obtain ⟨n, hn⟩ := cells_of_mem hl.chain hmem
    exact Nat.lt_irrefl _ (Heap.lt_brk hl.ok hn)
  have hnd := hl.nodup
  rw [addrs_append, List.nodup_append] at hnd
  have hal : a ∉ addrs l := fun hmem => hnd.2.2 a hmem a (by simp) rfl
  have ha := Heap.lt_brk hl.ok ((chain_append _ _ _ _).mp hl.chain).2.1
  refine ⟨?_, ?_, ?_, ?_⟩
  · intro b hb
    simp only at hb ⊢
    rw [Function.update_of_ne (by omega), Function.update_of_ne (by omega)]
    exact hl.ok b (by omega)
  · rw [hl.head_eq]
    cases l <;> rfl
  · rw [chain_append, exit_concat]
    refine ⟨chain_frame hfresh _ (chain_setNext_last hal hl.chain (some h.brk)), ?_⟩
    simp [chain_cons]
  · rw [addrs_append, List.nodup_append]
    refine ⟨hl.nodup, by simp, fun b hb c hc hbc => ?_⟩
    rw [addrs_cons, addrs_nil, List.mem_singleton] at hc
    exact hfresh (hc ▸ hbc ▸ hb)

end Dlist
