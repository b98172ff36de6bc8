import Mathlib.Tactic.IntervalCases
import OperatingSystem.Lib.Codec

/-!
# OperatingSystem.Lib.Numeral

Numerals as bytes.  `printNat b n` writes `n` in base `b`, as `%d` and `%x` do;
`number b s` is the value of a string of digits, the most significant first.
What is printed is read back (`number_printNat`), and consists of digits
(`isDigit_of_mem_printNat`).
-/

namespace Numeral

/-- The value of a digit; letters stand for 10 to 35, and 36 is no digit in any
base. -/
def digit (c : Byte) : Nat :=
  if 48 ≤ c.toNat ∧ c.toNat ≤ 57 then c.toNat - 48
  else if 97 ≤ c.toNat ∧ c.toNat ≤ 122 then c.toNat - 87
  else if 65 ≤ c.toNat ∧ c.toNat ≤ 90 then c.toNat - 55
  else 36

def isDigit (base : Nat) (c : Byte) : Bool := digit c < base

/-- The value of a string of digits. -/
def number (base : Nat) (s : List Byte) : Nat := s.foldl (fun v c => v * base + digit c) 0

/-- The digits of a number, in lower case. -/
def printNat (base n : Nat) : List Byte := (Nat.toDigits base n).map fun c => BitVec.ofNat 8 c.toNat

/-- `%d`. -/
def printInt (x : Int) : List Byte := if x < 0 then 45 :: printNat 10 x.natAbs else printNat 10 x.natAbs

variable {base n : Nat} {c : Byte}

theorem digit_lt (h : isDigit base c = true) : digit c < base := by simpa [isDigit] using h

theorem le_of_isDigit (h16 : base ≤ 16) (h : isDigit base c = true) : 48 ≤ c.toNat := by
  have hlt := digit_lt h
  unfold digit at hlt
  split at hlt
  · omega
  · split at hlt
    · omega
    · split at hlt <;> omega

theorem digit_digitChar (h : n < 16) : digit (BitVec.ofNat 8 (Nat.digitChar n).toNat) = n := by
  interval_cases n <;> rfl

theorem number_concat (base : Nat) (s : List Byte) (c : Byte) :
    number base (s ++ [c]) = number base s * base + digit c := by
  rw [number, List.foldl_append]
  rfl

theorem printNat_of_lt (h : n < base) : printNat base n = [BitVec.ofNat 8 (Nat.digitChar n).toNat] := by
  rw [printNat, Nat.toDigits_of_lt_base h]
  rfl

theorem printNat_of_le (hb : 1 < base) (h : base ≤ n) :
    printNat base n = printNat base (n / base) ++ [BitVec.ofNat 8 (Nat.digitChar (n % base)).toNat] := by
  rw [printNat, Nat.toDigits_of_base_le hb h, List.map_append]
  rfl

theorem printNat_ne_nil (base n : Nat) : printNat base n ≠ [] := by
  simp [printNat]

section Base

variable (hb : 1 < base) (h16 : base ≤ 16)

include hb h16

/-- **A printed number is read back.** -/
theorem number_printNat (n : Nat) : number base (printNat base n) = n := by
  induction n using Nat.strongRecOn with
  | ind n ih =>
      by_cases h : n < base
      · rw [printNat_of_lt h, ← List.nil_append [_], number_concat, digit_digitChar (by omega)]
        simp [number]
      · have hmod : n % base < 16 := Nat.lt_of_lt_of_le (Nat.mod_lt n (by omega)) h16
        rw [printNat_of_le hb (Nat.le_of_not_lt h), number_concat, ih _ (Nat.div_lt_self (by omega) hb),
          digit_digitChar hmod, Nat.mul_comm, Nat.div_add_mod]

theorem isDigit_of_mem_printNat (n : Nat) : ∀ c ∈ printNat base n, isDigit base c = true := by
  induction n using Nat.strongRecOn with
  | ind n ih =>
      intro c hc
      by_cases h : n < base
      · rw [printNat_of_lt h, List.mem_singleton] at hc
        rw [hc, isDigit, digit_digitChar (by omega)]
        simpa using h
      · have hmod := Nat.mod_lt n (show base > 0 by omega)
        rw [printNat_of_le hb (Nat.le_of_not_lt h), List.mem_append, List.mem_singleton] at hc
        obtain hc | rfl := hc
        · exact ih _ (Nat.div_lt_self (by omega) hb) c hc
        · rw [isDigit, digit_digitChar (by omega)]
          simpa using hmod

theorem le_of_mem_printNat (h : c ∈ printNat base n) : 48 ≤ c.toNat :=
  le_of_isDigit h16 (isDigit_of_mem_printNat hb h16 n c h)

end Base

theorem le_of_mem_printInt {x : Int} (h : c ∈ printInt x) : 45 ≤ c.toNat := by
  have hdigit : c ∈ printNat 10 x.natAbs → 45 ≤ c.toNat := fun h => by
    have := le_of_mem_printNat (by decide) (by decide) h
    omega
  unfold printInt at h
  split at h
  · obtain rfl | h := List.mem_cons.mp h
    · decide
    · exact hdigit h
  · exact hdigit h

theorem length_printNat_le {k : Nat} (hb : 1 < base) (hk : 0 < k) : (printNat base n).length ≤ k ↔ n < base ^ k := by
  rw [printNat, List.length_map, Nat.length_toDigits_le_iff hb hk]

/-- An `int` is at most ten digits and a sign. -/
theorem length_printInt (x : Int) (h : Codec.Fits x) : (printInt x).length ≤ 11 := by
  have hlen : (printNat 10 x.natAbs).length ≤ 10 := (length_printNat_le (by decide) (by decide)).mpr (by
    have hlo := h.1
    have hhi := h.2
    omega)
  unfold printInt
  split
  · rw [List.length_cons]
    omega
  · omega

end Numeral
