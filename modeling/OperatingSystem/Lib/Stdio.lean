import Mathlib.Data.List.TakeWhile
import OperatingSystem.Lib.Numeral
import OperatingSystem.Lib.Words

/-!
# OperatingSystem.Lib.Stdio

Input as C programs read it: `fgets`, and what `sscanf` does for `%s`, `%d` and
`%x`.  `lines` is what repeated calls of `fgets` give.  They cut the input in
pieces, none longer than the buffer (`flatten_lines`), and where every line fits,
the pieces are the lines (`lines_of_fit`).

`scanWords` reads words into buffers; a word that does not fit its buffer is
undefined behaviour (`scanWords_eq`).  An `int` that is printed is read back
(`scanNumber_printInt`, `atoi_printInt`).
-/

namespace Stdio

open Numeral Words Codec

/-- The bytes of a string literal. -/
def str (s : String) : List Byte := s.toList.map fun c => BitVec.ofNat 8 c.toNat

def newline : Byte := 10

def isspace (c : Byte) : Bool := c == 32 || (9 ≤ c.toNat && c.toNat ≤ 13)

/-- The string in a buffer. -/
def cstr (buf : List Byte) : List Byte := buf.takeWhile (· != 0)

/-! ## fgets -/

/-- `fgets(buf, n, f)`: at most `n - 1` bytes, up to a newline and with it, and what
is left of the stream. -/
def fgets (n : Nat) (input : List Byte) : Option (List Byte × List Byte) :=
  if input = [] then none
  else
    let bytes := input.take (n - 1)
    let line := bytes.takeWhile (· != newline) ++ (bytes.dropWhile (· != newline)).take 1
    some (line, input.drop line.length)

/-- What `fuel` calls of `fgets` give, up to the first that gives nothing. -/
def linesFuel (n : Nat) : Nat → List Byte → List (List Byte)
  | 0, _ => []
  | fuel + 1, input =>
      match fgets n input with
      | none => []
      | some (line, rest) => line :: linesFuel n fuel rest

/-- What the loop `while(fgets(buf, n, f))` reads. -/
def lines (n : Nat) (input : List Byte) : List (List Byte) := linesFuel n input.length input

section Fgets

variable {n : Nat} {input line rest : List Byte}

@[simp] theorem fgets_nil (n : Nat) : fgets n [] = none := rfl

/-- What `fgets` does with a buffer for at least one character. -/
theorem fgets_some (hn : 2 ≤ n) (h : fgets n input = some (line, rest)) :
    input = line ++ rest ∧ line ≠ [] ∧ line.length < n := by
  rw [fgets] at h
  split at h
  · contradiction
  next hne =>
    obtain ⟨rfl, rfl⟩ := Prod.mk.inj (Option.some.inj h)
    have hpart : (input.take (n - 1)).takeWhile (· != newline) ++ ((input.take (n - 1)).dropWhile (· != newline)).take 1
        <+: input.take (n - 1) := by
      conv_rhs => rw [← List.takeWhile_append_dropWhile (p := (· != newline)) (l := input.take (n - 1))]
      exact (List.prefix_append_right_inj _).mpr (List.take_prefix 1 _)
    refine ⟨?_, fun hnil => ?_, ?_⟩
    · exact (List.prefix_iff_eq_append.mp (hpart.trans (List.take_prefix (n - 1) input))).symm
    · obtain ⟨hpre, htake⟩ := List.append_eq_nil_iff.mp hnil
      have hrest := List.takeWhile_append_dropWhile (p := (· != newline)) (l := input.take (n - 1))
      have hdrop : (input.take (n - 1)).dropWhile (· != newline) = [] := by
        rcases List.take_eq_nil_iff.mp htake with h | h
        · exact absurd h (by decide)
        · exact h
      rw [hpre, hdrop] at hrest
      rcases List.take_eq_nil_iff.mp hrest.symm with h | h
      · omega
      · exact hne h
    · have hlen := hpart.length_le
      rw [List.length_take] at hlen
      omega

/-- A line that fits is read whole. -/
theorem fgets_append (h : newline ∉ line) (hlen : line.length + 1 < n) (rest : List Byte) :
    fgets n (line ++ newline :: rest) = some (line ++ [newline], rest) := by
  have hmem : ∀ c ∈ line, (c != newline) = true := fun c hc => bne_iff_ne.mpr fun heq => h (heq ▸ hc)
  obtain ⟨rest', htake⟩ : ∃ rest', (line ++ newline :: rest).take (n - 1) = line ++ newline :: rest' := by
    refine ⟨rest.take (n - 2 - line.length), ?_⟩
    rw [List.take_append, List.take_of_length_le (by omega), show n - 1 - line.length = n - 2 - line.length + 1 by omega,
      List.take_succ_cons]
  rw [fgets, if_neg (by simp), htake]
  dsimp only
  rw [List.takeWhile_append_of_pos hmem, List.dropWhile_append_of_pos hmem, List.takeWhile_cons_of_neg (by simp),
    List.dropWhile_cons_of_neg (by simp), List.append_nil]
  simp [List.drop_append]

/-- Enough fuel. -/
theorem linesFuel_eq (hn : 2 ≤ n) (fuel : Nat) (input : List Byte) (h : input.length ≤ fuel) :
    linesFuel n fuel input = lines n input := by
  induction fuel using Nat.strongRecOn generalizing input with
  | ind fuel ih =>
      cases fuel with
      | zero => rw [lines, List.eq_nil_of_length_eq_zero (Nat.le_zero.mp h)]; rfl
      | succ fuel =>
          cases hlen : input.length with
          | zero =>
              rw [List.eq_nil_of_length_eq_zero hlen]
              rfl
          | succ k =>
              rw [lines, hlen, linesFuel, linesFuel]
              cases hg : fgets n input with
              | none => rfl
              | some p =>
                  obtain ⟨line, rest⟩ := p
                  obtain ⟨rfl, hne, -⟩ := fgets_some hn hg
                  have hpos := List.length_pos_iff.mpr hne
                  rw [List.length_append] at hlen h
                  dsimp only
                  rw [ih fuel (by omega) rest (by omega), ih k (by omega) rest (by omega)]

/-- The loop, one call at a time. -/
theorem lines_eq (hn : 2 ≤ n) (input : List Byte) :
    lines n input = match fgets n input with
      | none => []
      | some (line, rest) => line :: lines n rest := by
  cases hlen : input.length with
  | zero =>
      rw [List.eq_nil_of_length_eq_zero hlen]
      rfl
  | succ k =>
      rw [lines, hlen, linesFuel]
      cases hg : fgets n input with
      | none => rfl
      | some p =>
          obtain ⟨line, rest⟩ := p
          obtain ⟨rfl, hne, -⟩ := fgets_some hn hg
          have hpos := List.length_pos_iff.mpr hne
          rw [List.length_append] at hlen
          dsimp only
          rw [linesFuel_eq hn k rest (by omega)]

theorem lines_cons (hn : 2 ≤ n) (h : fgets n input = some (line, rest)) : lines n input = line :: lines n rest := by
  rw [lines_eq hn, h]

/-- **Nothing is lost or added**: the pieces are the input, and each fits the
buffer. -/
theorem flatten_lines (hn : 2 ≤ n) (input : List Byte) :
    (lines n input).flatten = input ∧ ∀ line ∈ lines n input, line ≠ [] ∧ line.length < n := by
  induction hlen : input.length using Nat.strongRecOn generalizing input with
  | ind k ih =>
      rw [lines_eq hn]
      cases hg : fgets n input with
      | none =>
          have hnil : input = [] := by
            by_contra hne
            simp [fgets, hne] at hg
          simp [hnil]
      | some p =>
          obtain ⟨line, rest⟩ := p
          obtain ⟨rfl, hne, hlt⟩ := fgets_some hn hg
          have hpos := List.length_pos_iff.mpr hne
          rw [List.length_append] at hlen
          obtain ⟨hflat, hall⟩ := ih rest.length (by omega) rest rfl
          refine ⟨by rw [List.flatten_cons, hflat], fun l hl => ?_⟩
          obtain rfl | hl := List.mem_cons.mp hl
          · exact ⟨hne, hlt⟩
          · exact hall l hl

/-- **Lines that fit** are read one by one. -/
theorem lines_of_fit (ls : List (List Byte)) (h : ∀ line ∈ ls, newline ∉ line ∧ line.length + 1 < n) (rest : List Byte)
    (hn : 2 ≤ n) : lines n (ls.flatMap (· ++ [newline]) ++ rest) = ls.map (· ++ [newline]) ++ lines n rest := by
  induction ls with
  | nil => rfl
  | cons line ls ih =>
      obtain ⟨hline, hlen⟩ := h line List.mem_cons_self
      have hg := fgets_append hline hlen (ls.flatMap (· ++ [newline]) ++ rest)
      rw [List.flatMap_cons, List.append_assoc, List.append_assoc, List.singleton_append, lines_cons hn hg,
        ih fun l hl => h l (List.mem_cons_of_mem _ hl)]
      rfl

end Fgets

/-! ## Words -/

/-- `sscanf` with a `%s` for each buffer size: the words it reads, of which there may
be fewer.  A word needs room for itself and a null. -/
def scanWords : List Nat → List Byte → Option (List (List Byte))
  | [], _ => some []
  | size :: sizes, s =>
      let s := s.dropWhile isspace
      if s = [] then some []
      else
        let word := s.takeWhile (!isspace ·)
        if word.length < size then (scanWords sizes (s.dropWhile (!isspace ·))).map (word :: ·) else none

section ScanWords

variable {s w : List Byte}

/-- **What is read**: the words of the string, as many as there are buffers, if
each fits. -/
theorem scanWords_eq (sizes : List Nat) (s : List Byte) :
    scanWords sizes s =
      if ∀ p ∈ sizes.zip (words isspace s), p.2.length < p.1 then some ((words isspace s).take sizes.length) else none := by
  induction sizes generalizing s with
  | nil => simp [scanWords]
  | cons size sizes ih =>
      rw [scanWords, words_eq]
      dsimp only
      by_cases hnil : s.dropWhile isspace = []
      · simp [hnil]
      · rw [if_neg hnil, if_neg hnil, ih]
        by_cases hsize : (List.takeWhile (!isspace ·) (s.dropWhile isspace)).length < size
        · simp only [List.zip_cons_cons, List.forall_mem_cons, hsize, true_and, if_true, List.length_cons, List.take_succ_cons]
          split <;> rfl
        · simp [hsize]

end ScanWords

/-! ## Numbers -/

/-- The number an optional sign and digits stand for, and what comes behind, for
base 10 or 16; in base 16 `0x` may stand before the digits. -/
def scanNumber (base : Nat) (s : List Byte) : Option (Int × List Byte) :=
  let s := s.dropWhile isspace
  let negative := s.head? = some 45
  let s := if s.head? = some 45 ∨ s.head? = some 43 then s.tail else s
  let s := if base = 16 ∧ (s.take 2 = [48, 120] ∨ s.take 2 = [48, 88]) then s.drop 2 else s
  let digits := s.takeWhile (isDigit base)
  if digits = [] then none
  else some (if negative then -(number base digits : Int) else number base digits, s.dropWhile (isDigit base))

/-- A number as an `int`: `strtol` stops at the ends of `long`, and the conversion
is modulo `2 ^ 32`. -/
def toInt (x : Int) : Int := (max (-(2 ^ 63)) (min x (2 ^ 63 - 1))).bmod (2 ^ 32)

/-- The same for `%x`: `strtoul` takes a minus sign as a negation modulo `2 ^ 64`, and
stops at the end of `unsigned long`. -/
def toUnsigned (x : Int) : Int := if x.natAbs < 2 ^ 64 then x.bmod (2 ^ 32) else -1

def atoi (s : List Byte) : Int :=
  match scanNumber 10 s with
  | some (x, _) => toInt x
  | none => 0

section Number

variable {base : Nat} {s rest : List Byte} {c : Byte} {x : Int}

theorem isspace_of_le (h : 33 ≤ c.toNat) : isspace c = false := by
  have h32 : (c == 32) = false := beq_eq_false_iff_ne.mpr fun heq => by
    rw [heq] at h
    exact absurd h (by decide)
  rw [isspace, h32, Bool.false_or]
  simp only [Bool.and_eq_false_iff, decide_eq_false_iff_not]
  omega

variable (h16 : base ≤ 16) (hs : ∀ c ∈ s, isDigit base c = true) (hne : s ≠ []) (hrest : ∀ c ∈ rest.head?, digit c = 36)

include h16 hs hrest

/-- Digits end where something else than a digit or a letter follows. -/
theorem takeWhile_digits : (s ++ rest).takeWhile (isDigit base) = s ∧ (s ++ rest).dropWhile (isDigit base) = rest := by
  rw [List.takeWhile_append_of_pos hs, List.dropWhile_append_of_pos hs]
  cases rest with
  | nil => exact ⟨List.append_nil s, rfl⟩
  | cons c rest =>
      have hc : ¬ isDigit base c = true := by
        rw [isDigit, hrest c rfl, decide_eq_true_eq]
        omega
      rw [List.takeWhile_cons_of_neg hc, List.dropWhile_cons_of_neg hc, List.append_nil]
      exact ⟨rfl, rfl⟩

/-- There is no `x` behind the first digit. -/
theorem no_prefix (hx : digit c = 33) : ¬ (s ++ rest).take 2 = [48, c] := by
  intro h
  have hmem : (s ++ rest)[1]? = some c := by
    rw [← List.getElem?_take_of_lt (show 1 < 2 by decide), h]
    rfl
  match s, hs, hmem with
  | [], _, hmem =>
      have h0 : (rest.head?) = some 48 := by
        rw [List.head?_eq_getElem?, ← List.getElem?_take_of_lt (show 0 < 2 by decide)]
        exact congrArg (·[0]?) h
      exact absurd (hrest 48 h0) (by decide)
  | [_], _, hmem =>
      have hc : rest.head? = some c := by simpa [List.head?_eq_getElem?] using hmem
      exact absurd (hx.symm.trans (hrest c hc)) (by decide)
  | _ :: b :: _, hs, hmem =>
      obtain rfl : b = c := by simpa using hmem
      have hlt := digit_lt (hs b (by simp))
      omega

include hne

/-- Digits without a sign. -/
theorem scanNumber_digits : scanNumber base (s ++ rest) = some ((number base s : Int), rest) := by
  obtain ⟨c, t, hct⟩ := List.exists_cons_of_ne_nil hne
  have hc := le_of_isDigit h16 (hs c (by simp [hct]))
  have hskip : (s ++ rest).dropWhile isspace = s ++ rest := by
    rw [hct, List.cons_append, List.dropWhile_cons_of_neg]
    simp [isspace_of_le (show 33 ≤ c.toNat by omega)]
  have hhead : (s ++ rest).head? = some c := by rw [hct]; rfl
  have hminus : c ≠ 45 := fun heq => absurd hc (by rw [heq]; decide)
  have hplus : c ≠ 43 := fun heq => absurd hc (by rw [heq]; decide)
  obtain ⟨htake, hdrop⟩ := takeWhile_digits h16 hs hrest
  have hx := no_prefix (c := 120) h16 hs hrest (by decide)
  have hX := no_prefix (c := 88) h16 hs hrest (by decide)
  simp only [scanNumber, hskip, hhead, Option.some.injEq, hminus, hplus, or_self, if_false, hx, hX, and_false, htake,
    hdrop, if_neg hne]

/-- Digits behind a minus sign. -/
theorem scanNumber_minus : scanNumber base (45 :: (s ++ rest)) = some (-(number base s : Int), rest) := by
  have hskip : (45 :: (s ++ rest)).dropWhile isspace = 45 :: (s ++ rest) :=
    List.dropWhile_cons_of_neg (by decide)
  obtain ⟨htake, hdrop⟩ := takeWhile_digits h16 hs hrest
  have hx := no_prefix (c := 120) h16 hs hrest (by decide)
  have hX := no_prefix (c := 88) h16 hs hrest (by decide)
  simp only [scanNumber, hskip, List.head?_cons, true_or, if_true, List.tail_cons, or_self, hx, hX, and_false, if_false,
    htake, hdrop, if_neg hne]

end Number

section Print

variable {x : Int} {rest : List Byte} (hrest : ∀ c ∈ rest.head?, digit c = 36)

include hrest

/-- **`%x` reads what `%x` printed.** -/
theorem scanNumber_printNat (n : Nat) : scanNumber 16 (printNat 16 n ++ rest) = some ((n : Int), rest) := by
  rw [scanNumber_digits (by decide) (isDigit_of_mem_printNat (by decide) (by decide) n) (printNat_ne_nil 16 n) hrest,
    number_printNat (by decide) (by decide)]

/-- **`%d` reads what `%d` printed.** -/
theorem scanNumber_printInt (x : Int) : scanNumber 10 (printInt x ++ rest) = some (x, rest) := by
  have hdigits : ∀ c ∈ printNat 10 x.natAbs, isDigit 10 c = true := isDigit_of_mem_printNat (by decide) (by decide) _
  rw [printInt]
  split
  · next hneg =>
      rw [List.cons_append, scanNumber_minus (by decide) hdigits (printNat_ne_nil 10 _) hrest,
        number_printNat (by decide) (by decide)]
      congr 2
      omega
  · next hpos =>
      rw [scanNumber_digits (by decide) hdigits (printNat_ne_nil 10 _) hrest, number_printNat (by decide) (by decide)]
      congr 2
      omega

end Print

theorem toInt_of_fits {x : Int} (h : Fits x) : toInt x = x := by
  have hlo := h.1
  have hhi := h.2
  rw [toInt, min_eq_left (by omega), max_eq_right (by omega)]
  exact Int.bmod_eq_of_le (by omega) (by omega)

/-- **`atoi` reads what `%d` printed.** -/
theorem atoi_printInt {x : Int} (h : Fits x) : atoi (printInt x) = x := by
  have hscan : scanNumber 10 (printInt x ++ []) = some (x, []) := scanNumber_printInt (by simp) x
  rw [List.append_nil] at hscan
  rw [atoi, hscan]
  exact toInt_of_fits h

end Stdio
