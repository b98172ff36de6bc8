import Mathlib.Data.List.Nodup
import Mathlib.Logic.Function.Basic

/-!
# OperatingSystem.Lib.Queue

A queue of singly linked nodes in memory.  Memory maps an address to the node
`malloc` returned there, or to nothing; a null pointer is `none`.  The link of a
node leads to the one queued behind it.

`Linked c l` says that the nodes at the addresses `l` hold this order.  Linking a
new node behind the last is `linked_push`, taking the first one off is
`Linked.tail`, and writes elsewhere do not matter (`linked_congr`).
-/

namespace Queue

/-- A queued node: its datum and the link to the node behind it. -/
structure Node (α : Type) where
  data : α
  prev : Option Nat
deriving DecidableEq

variable {α : Type}

/-- The datum of the node at `p`. -/
def dataAt (c : Nat → Option (Node α)) (p : Nat) : Option α := (c p).map Node.data

/-- The data at the addresses `l`, in order. -/
def contents (c : Nat → Option (Node α)) (l : List Nat) : List α := l.filterMap (dataAt c)

/-- The addresses reached from `p` in at most `k` links. -/
def walk (c : Nat → Option (Node α)) : Nat → Option Nat → List Nat
  | 0, _ => []
  | _ + 1, none => []
  | k + 1, some p =>
      match c p with
      | none => []
      | some node => p :: walk c k node.prev

/-- Each node at the addresses `l` links to the next, and the last one nowhere. -/
def Linked (c : Nat → Option (Node α)) : List Nat → Prop
  | [] => True
  | p :: l => (∃ x, c p = some ⟨x, l.head?⟩) ∧ Linked c l

variable {c c' : Nat → Option (Node α)} {p q : Nat} {l m : List Nat} {x : α}

theorem Linked.tail (h : Linked c (p :: l)) : Linked c l := h.2

theorem Linked.mem (h : Linked c l) (hp : p ∈ l) : ∃ node, c p = some node := by
  induction l with
  | nil => cases hp
  | cons q l ih =>
      obtain ⟨⟨x, hx⟩, htail⟩ := h
      obtain rfl | hp := List.mem_cons.mp hp
      · exact ⟨_, hx⟩
      · exact ih htail hp

/-- Only the cells at the addresses matter. -/
theorem linked_congr (h : ∀ p ∈ l, c' p = c p) (hl : Linked c l) : Linked c' l := by
  induction l with
  | nil => trivial
  | cons q l ih =>
      obtain ⟨⟨x, hx⟩, htail⟩ := hl
      refine ⟨⟨x, ?_⟩, ih (fun p hp => h p (List.mem_cons_of_mem _ hp)) htail⟩
      rw [h q List.mem_cons_self, hx]

/-- What is written to a cell outside the queue does not matter. -/
theorem linked_update (hl : Linked c l) (hp : p ∉ l) (node : Option (Node α)) :
    Linked (Function.update c p node) l := by
  refine linked_congr (fun q hq => Function.update_of_ne ?_ _ _) hl
  rintro rfl
  exact hp hq

/-- The walk from the front meets the queue, and nothing else. -/
theorem walk_eq (h : Linked c l) : walk c l.length l.head? = l := by
  induction l with
  | nil => rfl
  | cons p l ih =>
      obtain ⟨⟨x, hx⟩, htail⟩ := h
      simp only [List.length_cons, List.head?_cons, walk, hx, ih htail]

@[simp] theorem contents_nil (c : Nat → Option (Node α)) : contents c [] = [] := rfl

theorem contents_cons (c : Nat → Option (Node α)) (p : Nat) (l : List Nat) :
    contents c (p :: l) = (dataAt c p).toList ++ contents c l := by
  cases h : dataAt c p <;> simp [contents, h]

theorem contents_append (c : Nat → Option (Node α)) (l m : List Nat) :
    contents c (l ++ m) = contents c l ++ contents c m := List.filterMap_append

theorem contents_congr (h : ∀ p ∈ l, dataAt c' p = dataAt c p) : contents c' l = contents c l :=
  List.filterMap_congr h

/-- **Push**: a new node behind the last one. -/
theorem linked_push {node : Node α} (hl : Linked c (l ++ [p])) (hnodup : (l ++ [p]).Nodup)
    (hq : q ∉ l ++ [p]) (hnew : c q = some ⟨x, none⟩) :
    Linked (Function.update c p (some { node with prev := some q })) (l ++ [p, q]) := by
  have hqp : q ≠ p := fun h => hq (by simp [h])
  induction l with
  | nil =>
      refine ⟨⟨node.data, Function.update_self ..⟩, ⟨x, ?_⟩, trivial⟩
      rw [Function.update_of_ne hqp, hnew]
      rfl
  | cons a l ih =>
      obtain ⟨⟨y, hy⟩, htail⟩ := hl
      have hap : a ≠ p := fun h => (List.nodup_cons.mp hnodup).1 (by simp [h])
      refine ⟨⟨y, ?_⟩, ih htail (List.nodup_cons.mp hnodup).2 fun h => hq (List.mem_cons_of_mem _ h)⟩
      rw [Function.update_of_ne hap, hy]
      cases l <;> rfl

/-- Redirecting a link changes no datum. -/
theorem dataAt_setPrev {node : Node α} (hp : c p = some node) (v : Option Nat) (a : Nat) :
    dataAt (Function.update c p (some { node with prev := v })) a = dataAt c a := by
  by_cases ha : a = p
  · subst ha
    simp [dataAt, hp]
  · rw [dataAt, Function.update_of_ne ha, dataAt]

end Queue
