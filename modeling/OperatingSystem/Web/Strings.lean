import Mathlib.Algebra.GroupWithZero.Nat
import Mathlib.Data.List.TakeWhile
import OperatingSystem.Lib.Codec

/-!
# OperatingSystem.Web.Strings

The C strings of the web server: lists of bytes without a null.  Of the string
functions only what `process` and its helpers use of them: `strtok` with one
delimiter, `strrchr`, `strcasecmp`, and `fgets` on the bytes of a stream.
-/

namespace OperatingSystem.Web

/-- The bytes of a string literal. -/
def str (s : String) : List Byte := s.toList.map fun c => BitVec.ofNat 8 c.toNat

/-- `' '`. -/
def space : Byte := 32

/-- `'/'`. -/
def slash : Byte := 47

/-- `'\r'`. -/
def cr : Byte := 13

/-- The names of a directory itself and of its parent. -/
def dot : List Byte := str "."

def dotdot : List Byte := str ".."

/-- `fgets(buf, n, f)`: at most `n - 1` bytes, up to a newline and with it. -/
def fgets (n : Nat) (input : List Byte) : Option (List Byte) :=
  if input = [] then none
  else
    let bytes := input.take (n - 1)
    some (bytes.takeWhile (· != 10) ++ (bytes.dropWhile (· != 10)).take 1)

/-- The string in a buffer. -/
def cstr (buf : List Byte) : List Byte := buf.takeWhile (· != 0)

/-- `strtok`: delimiters are skipped, and the token ends at the next one; the
second component is what the next call goes on with. -/
def strtok (s : List Byte) (delim : Byte) : Option (List Byte × List Byte) :=
  let s := s.dropWhile (· == delim)
  if s = [] then none
  else some (s.takeWhile (· != delim), (s.dropWhile (· != delim)).drop 1)

/-- `strrchr`: the string from the last `c` on. -/
def strrchr (s : List Byte) (c : Byte) : Option (List Byte) :=
  if c ∈ s then some (c :: (s.reverse.takeWhile (· != c)).reverse) else none

def tolower (c : Byte) : Byte := if 65 ≤ c.toNat ∧ c.toNat ≤ 90 then c + 32 else c

/-- `strcasecmp(s, t) == 0`. -/
def strcaseeq (s t : List Byte) : Bool := s.map tolower == t.map tolower

/-! ## Tokens -/

theorem strtok_token {delim : Byte} {s token rest : List Byte} (h : strtok s delim = some (token, rest)) :
    token ≠ [] ∧ delim ∉ token := by
  simp only [strtok] at h
  split at h
  · contradiction
  next hne =>
    obtain ⟨rfl, -⟩ := Prod.mk.inj (Option.some.inj h)
    refine ⟨?_, fun hmem => ?_⟩
    · obtain ⟨c, cs, hcs⟩ := List.exists_cons_of_ne_nil hne
      have hc : (c == delim) = false := by
        have hhead := List.head?_dropWhile_not (· == delim) s
        rw [hcs] at hhead
        simpa using hhead
      rw [hcs, List.takeWhile_cons]
      simp only [bne, hc]
      exact List.cons_ne_nil c _
    · have hne := List.mem_takeWhile_imp hmem
      simp at hne

/-- A string that starts with a token. -/
theorem strtok_append {delim : Byte} {token : List Byte} (hne : token ≠ []) (h : delim ∉ token) (rest : List Byte) :
    strtok (token ++ delim :: rest) delim = some (token, rest) := by
  have hmem : ∀ c ∈ token, (c != delim) = true := fun c hc => bne_iff_ne.mpr fun heq => h (heq ▸ hc)
  have hskip : (token ++ delim :: rest).dropWhile (· == delim) = token ++ delim :: rest := by
    obtain ⟨c, cs, rfl⟩ := List.exists_cons_of_ne_nil hne
    have hc : ¬ (c == delim) = true := by simpa using hmem c List.mem_cons_self
    rw [List.cons_append, List.dropWhile_cons_of_neg (p := (· == delim)) hc]
  have htake : (token ++ delim :: rest).takeWhile (· != delim) = token := by
    rw [List.takeWhile_append_of_pos hmem, List.takeWhile_cons_of_neg (by simp), List.append_nil]
  have hdrop : (token ++ delim :: rest).dropWhile (· != delim) = delim :: rest := by
    rw [List.dropWhile_append_of_pos hmem, List.dropWhile_cons_of_neg (by simp)]
  rw [strtok, hskip, if_neg (by simp [hne]), htake, hdrop]
  rfl

end OperatingSystem.Web
