import OperatingSystem.Lib.Arr
import Mathlib.Data.Fin.Basic

/-!
# OperatingSystem.Lib.Codec

Fixed-size memory layouts.  A `Codec α` says how a value of `α` lies in memory:
`enc x i` is the byte at offset `i`, and `dec` reads a value back from bytes.
The layouts of C structs are built from the layouts of their fields:
`int32` for an `int` (little-endian, two's complement), `bytes` for a `char`
array, `pair` for fields one after another, `array` for an array, and `iso`
to go from nested pairs to a record.

A C `int` is an unbounded `Int` here, so the layout keeps only values in range
(`Codec.Ok`); `dec_enc` is the round trip, and `dec_ok` says that what is read
from memory is always in range.
-/

abbrev Byte := BitVec 8

structure Codec (α : Type _) where
  size : Nat
  enc : α → Nat → Byte
  dec : (Nat → Byte) → α
  Ok : α → Prop
  dec_ok : ∀ f, Ok (dec f)
  dec_enc : ∀ x f, Ok x → (∀ i, i < size → f i = enc x i) → dec f = x

namespace Codec

/-! ## Integers and bytes -/

/-- The values of a 32-bit `int`. -/
def Fits (x : Int) : Prop := -2147483648 ≤ x ∧ x < 2147483648

instance (x : Int) : Decidable (Fits x) := inferInstanceAs (Decidable (_ ∧ _))

/-- The byte of weight `w` of an integer. -/
def byteOf (x : Int) (w : Int) : Byte := BitVec.ofInt 8 (x / w)

theorem toNat_byteOf (x w : Int) : ((byteOf x w).toNat : Int) = x / w % 256 := by
  rw [byteOf, BitVec.toNat_ofInt]
  omega

/-- The unsigned value of four bytes, the least significant first. -/
def word (f : Nat → Byte) : Int :=
  (f 0).toNat + 256 * (f 1).toNat + 65536 * (f 2).toNat + 16777216 * (f 3).toNat

theorem word_bounds (f : Nat → Byte) : 0 ≤ word f ∧ word f < 4294967296 := by
  have h0 := (f 0).isLt
  have h1 := (f 1).isLt
  have h2 := (f 2).isLt
  have h3 := (f 3).isLt
  unfold word
  omega

/-- An `int`. -/
def int32 : Codec Int where
  size := 4
  enc x i := match i with
    | 0 => byteOf x 1
    | 1 => byteOf x 256
    | 2 => byteOf x 65536
    | _ => byteOf x 16777216
  dec f := if word f < 2147483648 then word f else word f - 4294967296
  Ok := Fits
  dec_ok f := by
    have h := word_bounds f
    unfold Fits
    split <;> omega
  dec_enc x f hx hf := by
    have h0 := congrArg (fun b : Byte => (b.toNat : Int)) (hf 0 (by decide))
    have h1 := congrArg (fun b : Byte => (b.toNat : Int)) (hf 1 (by decide))
    have h2 := congrArg (fun b : Byte => (b.toNat : Int)) (hf 2 (by decide))
    have h3 := congrArg (fun b : Byte => (b.toNat : Int)) (hf 3 (by decide))
    simp only [toNat_byteOf] at h0 h1 h2 h3
    unfold Fits at hx
    unfold word
    split <;> omega

/-- A `char` array. -/
def bytes (n : Nat) : Codec (Arr n Byte) where
  size := n
  enc a i := if h : i < n then a ⟨i, h⟩ else 0
  dec f k := f k
  Ok _ := True
  dec_ok _ := trivial
  dec_enc a f _ hf := by
    funext k
    rw [hf k k.isLt, dif_pos k.isLt]

/-- Bytes between two fields that the program never reads. -/
def gap (n : Nat) : Codec Unit where
  size := n
  enc _ _ := 0
  dec _ := ()
  Ok _ := True
  dec_ok _ := trivial
  dec_enc _ _ _ _ := rfl

/-! ## Records and arrays -/

/-- One value after another. -/
def pair (a : Codec α) (b : Codec β) : Codec (α × β) where
  size := a.size + b.size
  enc p i := if i < a.size then a.enc p.1 i else b.enc p.2 (i - a.size)
  dec f := (a.dec f, b.dec fun i => f (a.size + i))
  Ok p := a.Ok p.1 ∧ b.Ok p.2
  dec_ok f := ⟨a.dec_ok f, b.dec_ok _⟩
  dec_enc p f hp hf := by
    have h₁ : a.dec f = p.1 := a.dec_enc p.1 f hp.1 fun i hi => by
      rw [hf i (by omega), if_pos hi]
    have h₂ : (b.dec fun i => f (a.size + i)) = p.2 := b.dec_enc p.2 _ hp.2 fun i hi => by
      rw [hf (a.size + i) (by omega), if_neg (by omega), Nat.add_sub_cancel_left]
    rw [h₁, h₂]

/-- The byte `i` of the value `k`. -/
theorem array_index {n m : Nat} (k : Fin n) {i : Nat} (hi : i < m) :
    (k : Nat) * m + i < n * m ∧ ((k : Nat) * m + i) / m = k ∧ ((k : Nat) * m + i) % m = i := by
  refine ⟨?_, ?_, ?_⟩
  · calc (k : Nat) * m + i < k * m + m := by omega
      _ = (k + 1) * m := by rw [Nat.add_mul, Nat.one_mul]
      _ ≤ n * m := Nat.mul_le_mul_right _ k.isLt
  · rw [Nat.mul_comm, Nat.mul_add_div (by omega), Nat.div_eq_of_lt hi, Nat.add_zero]
  · rw [Nat.mul_comm, Nat.mul_add_mod, Nat.mod_eq_of_lt hi]

/-- Equal values one after another. -/
def array (n : Nat) (c : Codec α) : Codec (Arr n α) where
  size := n * c.size
  enc a i := if h : i / c.size < n then c.enc (a ⟨i / c.size, h⟩) (i % c.size) else 0
  dec f k := c.dec fun i => f (k * c.size + i)
  Ok a := ∀ k, c.Ok (a k)
  dec_ok f k := c.dec_ok _
  dec_enc a f ha hf := by
    funext k
    refine c.dec_enc (a k) _ (ha k) fun i hi => ?_
    obtain ⟨hlt, hdiv, hmod⟩ := array_index k hi
    rw [hf _ hlt]
    simp only [hdiv, hmod, k.isLt, dif_pos]

/-- The same layout under another view of the value. -/
def iso (c : Codec α) (view : β → α) (make : α → β) (h : ∀ x, make (view x) = x)
    (h' : ∀ y, view (make y) = y) : Codec β where
  size := c.size
  enc x := c.enc (view x)
  dec f := make (c.dec f)
  Ok x := c.Ok (view x)
  dec_ok f := by rw [h']; exact c.dec_ok f
  dec_enc x f hx hf := by rw [c.dec_enc (view x) f hx hf, h]

/-! ## Storage in a block -/

/-- The bytes of a value, in a buffer of `n` bytes. -/
def store (c : Codec α) (n : Nat) (x : α) : Arr n Byte := fun i => c.enc x i

/-- The value at the beginning of a buffer. -/
def load (c : Codec α) {n : Nat} (b : Arr n Byte) : α :=
  c.dec fun i => if h : i < n then b ⟨i, h⟩ else 0

/-- One value of an array in a buffer is read back, whatever the others are. -/
theorem load_store_array (c : Codec α) {n m : Nat} (hn : m * c.size ≤ n) {a : Arr m α} {k : Fin m} (hk : c.Ok (a k)) :
    (array m c).load ((array m c).store n a) k = a k := by
  refine c.dec_enc (a k) _ hk fun i hi => ?_
  obtain ⟨hlt, hdiv, hmod⟩ := array_index k hi
  have hin : (k : Nat) * c.size + i < n := by omega
  simp only [store, array, hin, hdiv, hmod, k.isLt, dif_pos]

theorem load_ok (c : Codec α) (b : Arr n Byte) : c.Ok (c.load b) := c.dec_ok _

/-- **Round trip**: a value that fits the buffer is read back. -/
theorem load_store (c : Codec α) {n : Nat} (hn : c.size ≤ n) {x : α} (hx : c.Ok x) :
    c.load (c.store n x) = x :=
  c.dec_enc x _ hx fun i hi => by rw [dif_pos (by omega)]; rfl

end Codec
