import Mathlib.Algebra.BigOperators.Group.List.Basic
import Mathlib.Data.BitVec
import OperatingSystem.Lib.Codec

/-!
# OperatingSystem.Wc.Count

`count_t` and `word_count` of `wc_multi.c`.  An `int` is a bit vector of 32
bits, so that sums are modulo `2 ^ 32`.
-/

namespace OperatingSystem.Wc

/-- `count_t`. -/
@[ext] structure Count where
  linecount : BitVec 32
  wordcount : BitVec 32
  charcount : BitVec 32
deriving DecidableEq

namespace Count

instance : Zero Count := ⟨⟨0, 0, 0⟩⟩

instance : Add Count := ⟨fun a b => ⟨a.linecount + b.linecount, a.wordcount + b.wordcount, a.charcount + b.charcount⟩⟩

@[simp] theorem zero_linecount : (0 : Count).linecount = 0 := rfl
@[simp] theorem zero_wordcount : (0 : Count).wordcount = 0 := rfl
@[simp] theorem zero_charcount : (0 : Count).charcount = 0 := rfl

@[simp] theorem add_linecount (a b : Count) : (a + b).linecount = a.linecount + b.linecount := rfl
@[simp] theorem add_wordcount (a b : Count) : (a + b).wordcount = a.wordcount + b.wordcount := rfl
@[simp] theorem add_charcount (a b : Count) : (a + b).charcount = a.charcount + b.charcount := rfl

/-- Counts are added field by field. -/
instance : AddCommMonoid Count where
  add_assoc a b c := by ext1 <;> simp [add_assoc]
  zero_add a := by ext1 <;> simp
  add_zero a := by ext1 <;> simp
  add_comm a b := by ext1 <;> simp [add_comm]
  nsmul := nsmulRec

instance : IsLeftCancelAdd Count where
  add_left_cancel a b c h := by
    simp only [Count.ext_iff, add_linecount, add_wordcount, add_charcount] at h
    ext1
    · exact add_left_cancel h.1
    · exact add_left_cancel h.2.1
    · exact add_left_cancel h.2.2

end Count

/-! ## word_count -/

/-- The body of the loop of `word_count`. -/
def countChar (count : Count) (ch : Byte) : Count :=
  let count := if ch ≠ 32 ∧ ch ≠ 10 then { count with charcount := count.charcount + 1 } else count
  let count := if ch = 32 ∨ ch = 10 then { count with wordcount := count.wordcount + 1 } else count
  if ch = 10 then { count with linecount := count.linecount + 1 } else count

/-- The loop of `word_count`.  A `char` is signed: the byte 255 is `EOF`. -/
def countLoop (count : Count) : List Byte → Count
  | [] => count
  | ch :: rest => if ch.toInt = -1 then count else countLoop (countChar count ch) rest

/-- `word_count` of a file that holds these bytes, or that cannot be opened. -/
def wordCount : Option (List Byte) → Count
  | none => 0
  | some bytes =>
      let count := countLoop 0 bytes
      if count.charcount.toInt > 0 then
        { count with linecount := count.linecount + 1, wordcount := count.wordcount + 1 }
      else count

end OperatingSystem.Wc
