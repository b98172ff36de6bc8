import OperatingSystem.Lib.Numeral
import OperatingSystem.Lib.Search
import OperatingSystem.Web.Process

/-!
# OperatingSystem.Web.Wire

The bytes of a reply.  `format` is `fprintf` for the conversions that the server and
its client use; a time is put in by `strftime`, which is a parameter.

A reply starts with a block of lines and an empty line.  No line of the block is
empty or has a carriage return in it, so the first `"\r\n\r\n"` of the reply is the
end of the block (`find_headerEnd`).
-/

namespace OperatingSystem.Web

open Numeral Search

/-- The bytes that `strftime` makes of a format and a time. -/
abbrev Strftime := String → Int → List Byte

/-- An argument of `%s` or `%d`. -/
def Arg.bytes (strftime : Strftime) : Arg → List Byte
  | .int n => printInt (n.bmod (2 ^ 32))
  | .text s => Web.str s
  | .str s => s
  | .time format t => strftime format t

/-- A field width. -/
def pad (width : Nat) (s : List Byte) : List Byte := List.replicate (width - s.length) space ++ s

/-- `fprintf`, with the conversions `%s`, `%d`, `%10d` and `%*s`. -/
def format (strftime : Strftime) : List Char → List Arg → List Byte
  | '%' :: 's' :: cs, a :: args => a.bytes strftime ++ format strftime cs args
  | '%' :: 'd' :: cs, a :: args => a.bytes strftime ++ format strftime cs args
  | '%' :: '1' :: '0' :: 'd' :: cs, a :: args => pad 10 (a.bytes strftime) ++ format strftime cs args
  | '%' :: '*' :: 's' :: cs, .int width :: a :: args => pad width.toNat (a.bytes strftime) ++ format strftime cs args
  | c :: cs, args => BitVec.ofNat 8 c.toNat :: format strftime cs args
  | [], _ => []

def Write.bytes (strftime : Strftime) : Write → List Byte
  | .fprintf fmt args => Web.format strftime fmt.toList args
  | .fwrite data => data

/-- The bytes of a reply. -/
def wire (strftime : Strftime) (reply : List Write) : List Byte := reply.flatMap (Write.bytes strftime)

/-! ## Header blocks -/

def crlf : List Byte := [13, 10]

/-- `"\r\n\r\n"`. -/
def headerEnd : List Byte := crlf ++ crlf

/-- Lines and an empty line. -/
def block (ls : List (List Byte)) : List Byte := ls.flatMap (· ++ crlf) ++ crlf

/-- The line is not empty, and has no carriage return and no null. -/
def HeaderLine (line : List Byte) : Prop := line ≠ [] ∧ cr ∉ line ∧ 0 ∉ line

theorem not_prefix_headerEnd {c : Byte} (hc : c ≠ cr) (s : List Byte) : ¬ headerEnd <+: c :: s := fun h =>
  hc (List.cons_prefix_cons.mp h).1.symm

/-- A line has no part in what is found. -/
theorem find_headerLine {line : List Byte} (hline : cr ∉ line) (s : List Byte) :
    find headerEnd (line ++ s) = find headerEnd s := by
  induction line with
  | nil => rfl
  | cons c line ih =>
      have hc : c ≠ cr := (List.ne_of_not_mem_cons hline).symm
      rw [List.cons_append, find_cons_of_not_prefix (not_prefix_headerEnd hc _), ih (List.not_mem_of_not_mem_cons hline)]

/-- The end of a line with a line behind it is not the end of the block. -/
theorem find_crlf {c : Byte} (hc : c ≠ cr) (s : List Byte) : find headerEnd (crlf ++ c :: s) = find headerEnd (c :: s) := by
  have h13 : ¬ headerEnd <+: 13 :: 10 :: c :: s := by
    intro h
    have h3 := (List.cons_prefix_cons.mp (List.cons_prefix_cons.mp (List.cons_prefix_cons.mp h).2).2).1
    exact hc h3.symm
  have h10 : ¬ headerEnd <+: 10 :: c :: s := not_prefix_headerEnd (by decide) _
  rw [crlf, List.cons_append, List.cons_append, List.nil_append, find_cons_of_not_prefix h13, find_cons_of_not_prefix h10]

/-- The lines of a block without the end of the last. -/
theorem block_eq_append {ls : List (List Byte)} (hne : ls ≠ []) : ∃ h, block ls = h ++ headerEnd := by
  obtain ⟨ls, line, rfl⟩ := ls.eq_nil_or_concat'.resolve_left hne
  exact ⟨ls.flatMap (· ++ crlf) ++ line, by simp [block, headerEnd]⟩

/-- **The end of a block** is the first empty line. -/
theorem find_headerEnd {ls : List (List Byte)} (hne : ls ≠ []) (hls : ∀ line ∈ ls, HeaderLine line) (data : List Byte) :
    find headerEnd (block ls ++ data) = some (headerEnd ++ data) := by
  induction ls with
  | nil => exact absurd rfl hne
  | cons line ls ih =>
      obtain ⟨-, hline, -⟩ := hls line List.mem_cons_self
      rw [block, List.flatMap_cons, List.append_assoc, List.append_assoc, List.append_assoc, find_headerLine hline]
      cases ls with
      | nil =>
          rw [List.flatMap_nil, List.nil_append, ← List.append_assoc]
          exact find_of_prefix (List.prefix_append _ _)
      | cons next ls =>
          obtain ⟨hnext, hcr, -⟩ := hls next (by simp)
          obtain ⟨c, cs, rfl⟩ := List.exists_cons_of_ne_nil hnext
          have hc : c ≠ cr := (List.ne_of_not_mem_cons hcr).symm
          have htail := ih (List.cons_ne_nil _ _) fun l hl => hls l (List.mem_cons_of_mem _ hl)
          rw [block, List.flatMap_cons, List.append_assoc, List.append_assoc, List.append_assoc, List.cons_append] at htail
          rw [List.flatMap_cons, List.append_assoc, List.append_assoc, List.cons_append, find_crlf hc, htail]

/-! ## The headers of a file -/

/-- A time in the headers' format is the string of a line. -/
def PlainTimes (strftime : Strftime) : Prop := ∀ t, cr ∉ strftime rfc1123fmt t ∧ 0 ∉ strftime rfc1123fmt t

/-- The lines in front of a file. -/
def fileLines (strftime : Strftime) (m : Machine) (mime : Option String) (length date : Int) : List (List Byte) :=
  [str "HTTP/1.0 200 OK", str "Server: webserver/1.0", str "Date: " ++ strftime rfc1123fmt m.time] ++
  (mime.map fun s => str "Content-Type: " ++ str s).toList ++
  (if length ≥ 0 then [str "Content-Length: " ++ printInt (length.bmod (2 ^ 32))] else []) ++
  (if date ≠ -1 then [str "Last-Modified: " ++ strftime rfc1123fmt date] else []) ++
  [str "Connection: close"]

/-- **The headers** of a file are a block of lines. -/
theorem wire_sendHeaders (strftime : Strftime) (m : Machine) (mime : Option String) (length date : Int) :
    wire strftime (sendHeaders m 200 "OK" none mime length date) = block (fileLines strftime m mime length date) := by
  have hstatus : (Write.fprintf "%s %d %s\r\n" [.text protocol, .int 200, .text "OK"]).bytes strftime =
      str "HTTP/1.0 200 OK" ++ crlf := rfl
  have hserver : (Write.fprintf "Server: %s\r\n" [.text server]).bytes strftime = str "Server: webserver/1.0" ++ crlf := rfl
  have hdate (t : Int) : (Write.fprintf "Date: %s\r\n" [.time rfc1123fmt t]).bytes strftime =
      str "Date: " ++ strftime rfc1123fmt t ++ crlf := by
    rw [List.append_assoc]
    rfl
  have hmime (s : String) : (Write.fprintf "Content-Type: %s\r\n" [.text s]).bytes strftime =
      str "Content-Type: " ++ str s ++ crlf := by
    rw [List.append_assoc]
    rfl
  have hlength : (Write.fprintf "Content-Length: %d\r\n" [.int length]).bytes strftime =
      str "Content-Length: " ++ printInt (length.bmod (2 ^ 32)) ++ crlf := by
    rw [List.append_assoc]
    rfl
  have hmodified (t : Int) : (Write.fprintf "Last-Modified: %s\r\n" [.time rfc1123fmt t]).bytes strftime =
      str "Last-Modified: " ++ strftime rfc1123fmt t ++ crlf := by
    rw [List.append_assoc]
    rfl
  have hclose : (Write.fprintf "Connection: close\r\n" []).bytes strftime = str "Connection: close" ++ crlf := rfl
  have hend : (Write.fprintf "\r\n" []).bytes strftime = crlf := rfl
  cases mime <;> by_cases hl : length ≥ 0 <;> by_cases hd : date = -1 <;>
    simp only [wire, sendHeaders, fileLines, block, hl, hd, ne_eq, not_true_eq_false, not_false_eq_true, if_true, if_false,
      Option.map_none, Option.map_some, Option.toList, List.cons_append, List.nil_append, List.append_nil, List.flatMap_cons,
      List.flatMap_nil, hstatus, hserver, hdate, hmime, hlength, hmodified, hclose, hend, List.append_assoc]

/-- The lines are lines. -/
theorem headerLine_fileLines {strftime : Strftime} (htimes : PlainTimes strftime) {m : Machine} {mime : Option String}
    (hmime : ∀ s ∈ mime, cr ∉ str s ∧ 0 ∉ str s) (length date : Int) :
    ∀ line ∈ fileLines strftime m mime length date, HeaderLine line := by
  have happ {a b : List Byte} (ha : HeaderLine a) (hb : cr ∉ b ∧ 0 ∉ b) : HeaderLine (a ++ b) :=
    ⟨by simp [ha.1], fun h => (List.mem_append.mp h).elim ha.2.1 hb.1, fun h => (List.mem_append.mp h).elim ha.2.2 hb.2⟩
  have hnumber (x : Int) : cr ∉ printInt x ∧ 0 ∉ printInt x :=
    ⟨fun h => absurd (le_of_mem_printInt h) (by decide), fun h => absurd (le_of_mem_printInt h) (by decide)⟩
  intro line hline
  simp only [fileLines, List.mem_append, List.mem_cons, List.not_mem_nil, or_false, Option.mem_toList] at hline
  obtain ((((rfl | rfl | rfl) | hline) | hline) | hline) | rfl := hline
  · exact ⟨by decide, by decide, by decide⟩
  · exact ⟨by decide, by decide, by decide⟩
  · exact happ ⟨by decide, by decide, by decide⟩ (htimes _)
  · obtain ⟨s, hs, rfl⟩ := Option.map_eq_some_iff.mp hline
    exact happ ⟨by decide, by decide, by decide⟩ (hmime s hs)
  · split at hline
    · obtain rfl := List.mem_singleton.mp hline
      exact happ ⟨by decide, by decide, by decide⟩ (hnumber _)
    · contradiction
  · split at hline
    · obtain rfl := List.mem_singleton.mp hline
      exact happ ⟨by decide, by decide, by decide⟩ (htimes _)
    · contradiction
  · exact ⟨by decide, by decide, by decide⟩

theorem getMimeType_line {name : List Byte} : ∀ s ∈ getMimeType name, cr ∉ str s ∧ 0 ∉ str s := by
  intro s hs
  obtain ⟨ext, -, h⟩ := Option.bind_eq_some_iff.mp hs
  obtain ⟨e, he, rfl⟩ := Option.map_eq_some_iff.mp h
  have hall : ∀ e ∈ mimeTypes, cr ∉ str e.2 ∧ 0 ∉ str e.2 := by decide
  exact hall e (List.mem_of_find?_eq_some he)

/-- **A file on the wire**: its headers, and what it holds. -/
theorem wire_sendFile {m : Machine} {path data : List Byte} (h : m.fopen path = some data) (strftime : Strftime)
    (statbuf : Stat) : wire strftime (sendFile m path statbuf) =
      block (fileLines strftime m (getMimeType path) (fileLength statbuf) statbuf.mtime) ++ data := by
  rw [sendFile, h, wire, List.flatMap_append, ← wire, wire_sendHeaders, List.flatMap_singleton]
  rfl

end OperatingSystem.Web
