import OperatingSystem.Fs.Shell

/-!
# OperatingSystem.Fs.Typed

What the shell makes of the bytes it reads.  Its lines are requests
(`readRequests`), and it does what these say, one after another (`mainLoop_eq`).
A buffer overflows exactly when one of the first four words of a line is too
long for it (`readRequests_eq_none_iff`), and requests that a user types are the
ones that are read (`readRequests_typed`).
-/

namespace OperatingSystem.Fs

open Words Numeral Codec
open Stdio (lines scanWords atoi str isspace newline)

/-- The request in the words of a line. -/
def requestOf (ws : List (List Byte)) : Option Request :=
  request (ws.getD 0 []) (ws.getD 1 []) (ws.getD 2 []) (ws.getD 3 []) (ws.getD 4 []) (numArg ws - 1)

/-- The requests in the lines, up to the line that ends the shell. -/
def readRequests : List (List Byte) → Option (List Request)
  | [] => some []
  | input :: inputs => do
      let ws ← scanLine input
      if quits ws then return []
      else do
        let r ← requestOf ws
        let rs ← readRequests inputs
        return r :: rs

/-- The requests one after another, with a prompt behind each. -/
def performAll (env : Nat → Env) : Nat → List Request → FS → Option (List Output × FS)
  | _, [], s => some ([], s)
  | k, r :: rs, s => do
      let (out, s) ← perform s (env k) r
      let (out', s) ← performAll env (k + 1) rs s
      return (out ++ .prompt :: out', s)

theorem performAll_cons_none {env : Nat → Env} {k : Nat} {r : Request} {rs : List Request} {s : FS}
    (h : perform s (env k) r = none) : performAll env k (r :: rs) s = none := by
  rw [performAll, h]
  rfl

/-- **The loop** reads requests and does what they say. -/
theorem mainLoop_eq (env : Nat → Env) (k : Nat) (inputs : List (List Byte)) (s : FS) :
    mainLoop env k inputs s = (readRequests inputs).bind fun rs => performAll env k rs s := by
  induction inputs generalizing k s with
  | nil => rfl
  | cons input inputs ih =>
      rw [mainLoop, readRequests]
      cases hws : scanLine input with
      | none => rfl
      | some ws =>
          simp only [Option.bind_eq_bind, Option.bind_some, executeCommand]
          by_cases hquit : quits ws = true
          · rw [if_pos hquit, if_pos hquit]
            rfl
          · rw [if_neg hquit, if_neg hquit, ← requestOf]
            cases hr : requestOf ws with
            | none => rfl
            | some r =>
                rw [Option.bind_some, Option.bind_some]
                cases hp : perform s (env k) r with
                | none =>
                    rw [Option.bind_none]
                    cases readRequests inputs with
                    | none => rfl
                    | some rs => exact (performAll_cons_none hp).symm
                | some p =>
                    obtain ⟨out, s'⟩ := p
                    simp only [Option.bind_some, ih]
                    cases readRequests inputs with
                    | none => rfl
                    | some rs =>
                        rw [Option.bind_some, Option.bind_some]
                        simp only [Option.pure_def, Option.bind_some, performAll, hp, Option.bind_eq_bind]

/-! ## Overflow -/

/-- The words of a line. -/
def lineWords (input : List Byte) : List (List Byte) := words isspace (Stdio.cstr input)

/-- A word does not fit its buffer. -/
def TooLong (input : List Byte) : Prop :=
  (∃ w ∈ (lineWords input)[0]?, 64 ≤ w.length) ∨ ∃ k, 1 ≤ k ∧ k ≤ 3 ∧ ∃ w ∈ (lineWords input)[k]?, 16 ≤ w.length

section Overflow

variable {input stdin : List Byte} {inputs : List (List Byte)}

theorem mem_zip_bufferSizes {ws : List (List Byte)} {p : Nat × List Byte} :
    p ∈ bufferSizes.zip ws ↔ ∃ k : Nat, bufferSizes[k]? = some p.1 ∧ ws[k]? = some p.2 := by
  simp only [List.mem_iff_getElem?, List.getElem?_zip_eq_some]

theorem length_le_of_lineWords {w : List Byte} (h : w ∈ lineWords input) : w.length ≤ input.length := by
  have hflat : ((Stdio.cstr input).splitOnP isspace).flatten.length ≤ input.length := by
    rw [flatten_splitOnP]
    exact (List.length_filter_le _ _).trans (List.takeWhile_prefix _).length_le
  have hmem := (List.mem_filter.mp h).1
  exact (List.sublist_flatten_of_mem hmem).length_le.trans hflat

theorem scanLine_tooLong (h : TooLong input) : scanLine input = none := by
  rw [scanLine, Stdio.scanWords_eq, if_neg]
  intro hall
  rcases h with ⟨w, hw, hlen⟩ | ⟨k, h1, h3, w, hw, hlen⟩
  · exact absurd (hall (64, w) (mem_zip_bufferSizes.mpr ⟨0, rfl, hw⟩)) (Nat.not_lt.mpr hlen)
  · have hsize : bufferSizes[k]? = some 16 := by
      interval_cases k <;> rfl
    exact absurd (hall (16, w) (mem_zip_bufferSizes.mpr ⟨k, hsize, hw⟩)) (Nat.not_lt.mpr hlen)

/-- A line of `fgets` whose words fit is read.  Its fifth word always fits. -/
theorem scanLine_fits (h : ¬ TooLong input) (hlen : input.length < 256) :
    scanLine input = some ((lineWords input).take 5) := by
  rw [scanLine, Stdio.scanWords_eq, if_pos]
  · rfl
  rintro ⟨size, w⟩ hp
  obtain ⟨k, hsize, hw⟩ := mem_zip_bufferSizes.mp hp
  have hk : k < 5 := (List.getElem?_eq_some_iff.mp hsize).1
  have hle := length_le_of_lineWords (List.mem_of_getElem? hw)
  rw [← not_le]
  intro hlong
  match k, hk, hsize, hw with
  | 0, _, hsize, hw =>
      obtain rfl := Option.some.inj hsize
      exact h (Or.inl ⟨w, hw, hlong⟩)
  | 1, _, hsize, hw =>
      obtain rfl := Option.some.inj hsize
      exact h (Or.inr ⟨1, by omega, by omega, w, hw, hlong⟩)
  | 2, _, hsize, hw =>
      obtain rfl := Option.some.inj hsize
      exact h (Or.inr ⟨2, by omega, by omega, w, hw, hlong⟩)
  | 3, _, hsize, hw =>
      obtain rfl := Option.some.inj hsize
      exact h (Or.inr ⟨3, by omega, by omega, w, hw, hlong⟩)
  | 4, _, hsize, hw =>
      obtain rfl := Option.some.inj hsize
      dsimp only at hlong hle
      omega

theorem isSome_ite {c : Prop} [Decidable c] {a b : Option α} (ha : a.isSome) (hb : b.isSome) :
    (if c then a else b).isSome := by
  split
  · exact ha
  · exact hb

theorem request_isSome (comm arg1 arg2 arg3 arg4 : List Byte) {numArg : Int} (h : 1 ≤ numArg → (nameOf arg1).isSome) :
    (request comm arg1 arg2 arg3 arg4 numArg).isSome := by
  have hneed : ∀ (n : Int) (text : String) (f : Name → Request), 1 ≤ n →
      (if numArg < n then some (.usage text) else (nameOf arg1).map f).isSome := by
    intro n text f hn
    split
    · rfl
    · rw [Option.isSome_map]
      exact h (by omega)
  exact isSome_ite (hneed 2 _ _ (by decide)) <| isSome_ite (hneed 1 _ _ (by decide)) <|
    isSome_ite (hneed 4 _ _ (by decide)) <| isSome_ite (hneed 3 _ _ (by decide)) <|
    isSome_ite (hneed 1 _ _ (by decide)) <| isSome_ite (hneed 1 _ _ (by decide)) <|
    isSome_ite (hneed 1 _ _ (by decide)) <| isSome_ite (hneed 1 _ _ (by decide)) <|
    isSome_ite rfl <| isSome_ite (hneed 1 _ _ (by decide)) <| isSome_ite rfl rfl

/-- The words of a line that fit ask for something. -/
theorem requestOf_isSome (h : ¬ TooLong input) : (requestOf ((lineWords input).take 5)).isSome := by
  refine request_isSome _ _ _ _ _ fun harg => ?_
  have htwo : 2 ≤ ((lineWords input).take 5).length := by
    rw [numArg] at harg
    split at harg <;> omega
  rw [List.length_take] at htwo
  obtain ⟨w, hw⟩ : ∃ w, (lineWords input)[1]? = some w := ⟨_, List.getElem?_eq_getElem (by omega)⟩
  have hget : ((lineWords input).take 5).getD 1 [] = w := by
    rw [List.getD_eq_getElem?_getD, List.getElem?_take_of_lt (by omega), hw]
    rfl
  obtain ⟨hne, hmem⟩ := ne_nil_of_mem_words (List.mem_of_getElem? hw)
  have hshort : ¬ 16 ≤ w.length := fun hlong => h (Or.inr ⟨1, by omega, by omega, w, hw, hlong⟩)
  rw [hget, nameOf, dif_pos]
  · rfl
  · refine ⟨List.length_pos_iff.mpr hne, by omega, List.all_eq_true.mpr fun b hb => ?_⟩
    exact List.mem_takeWhile_imp (p := fun b => b != 0) (hmem b hb).1

/-- The line asks the shell to end. -/
def Quits (input : List Byte) : Prop := quits (lineWords input) = true

theorem quits_take (ws : List (List Byte)) : quits (ws.take 5) = quits ws := by
  cases ws <;> rfl

theorem readRequests_none_iff (h : ∀ input ∈ inputs, input.length < 256) :
    readRequests inputs = none ↔
      ∃ before input after, inputs = before ++ input :: after ∧ TooLong input ∧ ∀ i ∈ before, ¬ Quits i := by
  induction inputs with
  | nil => simp [readRequests]
  | cons input inputs ih =>
      have ih := ih fun i hi => h i (List.mem_cons_of_mem _ hi)
      rw [readRequests]
      by_cases hlong : TooLong input
      · rw [scanLine_tooLong hlong]
        exact ⟨fun _ => ⟨[], input, inputs, rfl, hlong, by simp⟩, fun _ => rfl⟩
      rw [scanLine_fits hlong (h input List.mem_cons_self)]
      simp only [Option.bind_eq_bind, Option.bind_some]
      rw [quits_take]
      by_cases hquit : quits (lineWords input) = true
      · rw [if_pos hquit]
        constructor
        · intro hnone
          cases hnone
        · rintro ⟨before, i, after, hsplit, hi, hbefore⟩
          cases before with
          | nil => exact absurd ((List.cons.inj hsplit).1 ▸ hi) hlong
          | cons j before => exact absurd ((List.cons.inj hsplit).1 ▸ hquit) (hbefore j List.mem_cons_self)
      · rw [if_neg hquit]
        obtain ⟨r, hr⟩ := Option.isSome_iff_exists.mp (requestOf_isSome hlong)
        rw [hr, Option.bind_some]
        have hiff : ((readRequests inputs).bind fun rs => pure (r :: rs)) = none ↔ readRequests inputs = none := by
          cases readRequests inputs <;> simp
        rw [hiff, ih]
        constructor
        · rintro ⟨before, i, after, rfl, hi, hbefore⟩
          exact ⟨input :: before, i, after, rfl, hi, List.forall_mem_cons.mpr ⟨hquit, hbefore⟩⟩
        · rintro ⟨before, i, after, hsplit, hi, hbefore⟩
          cases before with
          | nil => exact absurd ((List.cons.inj hsplit).1 ▸ hi) hlong
          | cons j before =>
              exact ⟨before, i, after, (List.cons.inj hsplit).2, hi, fun i hi => hbefore i (List.mem_cons_of_mem j hi)⟩

end Overflow

/-- **The buffers of the shell** overflow exactly when one of the first words of
a line is too long, before the shell ends. -/
theorem readRequests_eq_none_iff (stdin : List Byte) : readRequests (lines 256 stdin) = none ↔
    ∃ before input after, lines 256 stdin = before ++ input :: after ∧ TooLong input ∧ ∀ i ∈ before, ¬ Quits i :=
  readRequests_none_iff fun i hi => ((Stdio.flatten_lines (by decide) stdin).2 i hi).2

/-! ## Typing requests -/

/-- A string that `%s` reads whole. -/
def Plain (w : List Byte) : Prop := w ≠ [] ∧ ∀ c ∈ w, isspace c = false ∧ c ≠ 0

instance (w : List Byte) : Decidable (Plain w) :=
  decidable_of_iff (w ≠ [] ∧ w.all (fun c => !isspace c && c != 0) = true) (by simp [Plain])

/-- The words of a request. -/
def Request.words : Request → List (List Byte)
  | .command (.create name size) => [str "create", name.1, printInt size]
  | .command (.cat name) => [str "cat", name.1]
  | .command (.write name offset size buf) => [str "write", name.1, printInt offset, printInt size, buf]
  | .command (.read name offset size) => [str "read", name.1, printInt offset, printInt size]
  | .command (.rm name) => [str "rm", name.1]
  | .command (.mkdir name) => [str "mkdir", name.1]
  | .command (.rmdir name) => [str "rmdir", name.1]
  | .command (.cd name) => [str "cd", name.1]
  | .ls => [str "ls"]
  | .stat name => [str "stat", name.1]
  | .df => [str "df"]
  | .usage _ => []
  | .notFound comm => [comm]

/-- The numbers in a request. -/
def Request.numbers : Request → List Int
  | .command (.create _ size) => [size]
  | .command (.write _ offset size _) => [offset, size]
  | .command (.read _ offset size) => [offset, size]
  | _ => []

/-- A usage is not typed, and what is not found is none of the commands. -/
def Request.Named : Request → Prop
  | .usage _ => False
  | .notFound comm => comm.length < 64 ∧ comm ∉ [str "create", str "cat", str "write", str "read", str "rm", str "mkdir",
      str "rmdir", str "cd", str "ls", str "stat", str "df", str "quit", str "exit"]
  | _ => True

/-- The line a user types for a request. -/
def Request.line (r : Request) : List Byte := [32].intercalate r.words

/-- What can be typed: words without spaces, numbers that are `int`s, and no line
longer than the buffer. -/
structure Typable (r : Request) : Prop where
  plain : ∀ w ∈ r.words, Plain w
  numbers : ∀ x ∈ r.numbers, Fits x
  named : r.Named
  length : r.line.length ≤ 254

/-- What a user types for some requests. -/
def typed (rs : List Request) : List Byte := (rs.map Request.line).flatMap (· ++ [newline])

section Typing

variable {r : Request}

theorem command_iff {a b : List Byte} : command a b = true ↔ a = b := by
  rw [command, Bool.and_eq_true, beq_iff_eq, beq_iff_eq]
  constructor
  · rintro ⟨hlen, htake⟩
    rwa [List.take_length, hlen, List.take_length] at htake
  · rintro rfl
    exact ⟨rfl, rfl⟩

theorem nameOf_name (name : Name) : nameOf name.1 = some name :=
  dif_pos ⟨name.2.1, name.2.2.1, List.all_eq_true.mpr fun b hb => bne_iff_ne.mpr (name.2.2.2 b hb)⟩

/-- The words of a request ask for it. -/
theorem requestOf_words (h : Typable r) : requestOf r.words = some r := by
  have hnumbers := h.numbers
  have hnamed := h.named
  match r with
  | .command (.create name size) =>
      have hsize : Fits size := hnumbers size List.mem_cons_self
      show (nameOf name.1).map (fun n => Request.command (.create n (atoi (printInt size)))) = _
      rw [nameOf_name, Stdio.atoi_printInt hsize]
      rfl
  | .command (.cat name) => exact congrArg (Option.map fun n => Request.command (.cat n)) (nameOf_name name)
  | .command (.write name offset size buf) =>
      have hoffset : Fits offset := hnumbers offset List.mem_cons_self
      have hsize : Fits size := hnumbers size (List.mem_cons_of_mem _ List.mem_cons_self)
      show (nameOf name.1).map (fun n => Request.command (.write n (atoi (printInt offset)) (atoi (printInt size)) buf)) = _
      rw [nameOf_name, Stdio.atoi_printInt hoffset, Stdio.atoi_printInt hsize]
      rfl
  | .command (.read name offset size) =>
      have hoffset : Fits offset := hnumbers offset List.mem_cons_self
      have hsize : Fits size := hnumbers size (List.mem_cons_of_mem _ List.mem_cons_self)
      show (nameOf name.1).map (fun n => Request.command (.read n (atoi (printInt offset)) (atoi (printInt size)))) = _
      rw [nameOf_name, Stdio.atoi_printInt hoffset, Stdio.atoi_printInt hsize]
      rfl
  | .command (.rm name) => exact congrArg (Option.map fun n => Request.command (.rm n)) (nameOf_name name)
  | .command (.mkdir name) => exact congrArg (Option.map fun n => Request.command (.mkdir n)) (nameOf_name name)
  | .command (.rmdir name) => exact congrArg (Option.map fun n => Request.command (.rmdir n)) (nameOf_name name)
  | .command (.cd name) => exact congrArg (Option.map fun n => Request.command (.cd n)) (nameOf_name name)
  | .ls => rfl
  | .stat name => exact congrArg (Option.map Request.stat) (nameOf_name name)
  | .df => rfl
  | .usage _ => exact hnamed.elim
  | .notFound comm =>
      have hnot := hnamed.2
      simp only [List.mem_cons, List.not_mem_nil, or_false, not_or] at hnot
      simp [requestOf, request, Request.words, command_iff, hnot]

/-- They do not end the shell. -/
theorem quits_words (h : Typable r) : quits r.words = false := by
  have hnamed := h.named
  match r with
  | .command (.create _ _) | .command (.cat _) | .command (.write _ _ _ _) | .command (.read _ _ _) | .command (.rm _)
  | .command (.mkdir _) | .command (.rmdir _) | .command (.cd _) | .ls | .stat _ | .df => rfl
  | .usage _ => exact hnamed.elim
  | .notFound comm =>
      have hnot := hnamed.2
      simp only [List.mem_cons, List.not_mem_nil, or_false, not_or] at hnot
      rw [Bool.eq_false_iff]
      simp [quits, Request.words, command_iff, hnot]

/-- They fit the buffers. -/
theorem words_fit (h : Typable r) :
    (∀ w ∈ r.words.take 1, w.length < 64) ∧ (∀ w ∈ (r.words.drop 1).take 3, w.length < 16) ∧ r.words.length ≤ 5 := by
  have hname : ∀ name : Name, name.1.length < 16 := fun name => Nat.lt_succ_of_le name.2.2.1
  have hnumbers : ∀ x ∈ r.numbers, (printInt x).length < 16 := fun x hx => by
    have hlen := length_printInt x (h.numbers x hx)
    omega
  have hnamed := h.named
  match r with
  | .command (.create name size) =>
      exact ⟨by simp [Request.words, str], by simpa [Request.words, Request.numbers, hname] using hnumbers, by simp [Request.words]⟩
  | .command (.write name offset size buf) =>
      exact ⟨by simp [Request.words, str], by simpa [Request.words, Request.numbers, hname] using hnumbers, by simp [Request.words]⟩
  | .command (.read name offset size) =>
      exact ⟨by simp [Request.words, str], by simpa [Request.words, Request.numbers, hname] using hnumbers, by simp [Request.words]⟩
  | .command (.cat name) | .command (.rm name) | .command (.mkdir name) | .command (.rmdir name) | .command (.cd name)
  | .stat name => exact ⟨by simp [Request.words, str], by simp [Request.words, hname], by simp [Request.words]⟩
  | .ls | .df => exact ⟨by simp [Request.words, str], by simp [Request.words], by simp [Request.words]⟩
  | .usage _ => exact hnamed.elim
  | .notFound comm => exact ⟨by simpa [Request.words] using hnamed.1, by simp [Request.words], by simp [Request.words]⟩

/-- The bytes of a line. -/
theorem mem_line (h : Typable r) : ∀ c ∈ r.line, c ≠ 0 ∧ c ≠ newline := by
  intro c hc
  obtain rfl | ⟨w, hw, hcw⟩ := mem_intercalate hc
  · exact ⟨by decide, by decide⟩
  · obtain ⟨hspace, hzero⟩ := (h.plain w hw).2 c hcw
    refine ⟨hzero, ?_⟩
    rintro rfl
    exact absurd hspace (by decide)

/-- **A typed line** has the words of its request. -/
theorem lineWords_line (h : Typable r) : lineWords (r.line ++ [newline]) = r.words := by
  have hcstr : Stdio.cstr (r.line ++ [newline]) = r.line ++ [newline] := by
    rw [Stdio.cstr, List.takeWhile_append_of_pos fun c hc => bne_iff_ne.mpr (mem_line h c hc).1]
    rfl
  have hspace : isspace newline = true := by decide
  rw [lineWords, hcstr, words_append_cons _ hspace, words_cons_sep hspace, Request.line,
    words_intercalate (by decide) _ fun w hw => ⟨(h.plain w hw).1, fun c hc => ((h.plain w hw).2 c hc).1⟩]
  exact List.append_nil _

theorem not_tooLong_line (h : Typable r) : ¬ TooLong (r.line ++ [newline]) := by
  obtain ⟨hfirst, hrest, -⟩ := words_fit h
  rw [TooLong, lineWords_line h]
  rintro (⟨w, hw, hlong⟩ | ⟨k, h1, h3, w, hw, hlong⟩)
  · refine absurd (hfirst w ?_) (Nat.not_lt.mpr hlong)
    exact List.mem_of_getElem? (i := 0) (by rw [List.getElem?_take_of_lt (by omega)]; exact hw)
  · refine absurd (hrest w ?_) (Nat.not_lt.mpr hlong)
    refine List.mem_of_getElem? (i := k - 1) ?_
    rw [List.getElem?_take_of_lt (by omega), List.getElem?_drop, Nat.add_sub_cancel' h1]
    exact hw

theorem readRequests_line (h : Typable r) (inputs : List (List Byte)) :
    readRequests ((r.line ++ [newline]) :: inputs) = (readRequests inputs).map (r :: ·) := by
  have hlen : (r.line ++ [newline]).length < 256 := by
    have hline := h.length
    rw [List.length_append, List.length_singleton]
    omega
  rw [readRequests, scanLine_fits (not_tooLong_line h) hlen, lineWords_line h,
    List.take_of_length_le (words_fit h).2.2]
  simp only [Option.bind_eq_bind, Option.bind_some]
  rw [quits_words h, if_neg Bool.false_ne_true, requestOf_words h, Option.bind_some]
  cases readRequests inputs <;> rfl

end Typing

/-- **Typed requests are read back**, one by one and in order. -/
theorem readRequests_typed (rs : List Request) (h : ∀ r ∈ rs, Typable r) :
    readRequests (lines 256 (typed rs)) = some rs := by
  have hfit : ∀ line ∈ rs.map Request.line, newline ∉ line ∧ line.length + 1 < 256 := by
    intro line hline
    obtain ⟨r, hr, rfl⟩ := List.mem_map.mp hline
    have hlen := (h r hr).length
    exact ⟨fun hmem => (mem_line (h r hr) newline hmem).2 rfl, by omega⟩
  have hlines := Stdio.lines_of_fit (rs.map Request.line) hfit [] (by decide)
  rw [List.append_nil] at hlines
  rw [typed, hlines, show lines 256 [] = [] from rfl, List.append_nil]
  clear hfit hlines
  induction rs with
  | nil => rfl
  | cons r rs ih =>
      rw [List.map_cons, List.map_cons, readRequests_line (h r List.mem_cons_self),
        ih fun r' hr' => h r' (List.mem_cons_of_mem r hr')]
      rfl

theorem readRequests_typed_write :
    readRequests (lines 256 (typed [.command (.mkdir dot), .command (.write dotdot (-3) 2 [120, 121]), .ls])) =
      some [.command (.mkdir dot), .command (.write dotdot (-3) 2 [120, 121]), .ls] := by
  refine readRequests_typed _ fun r hr => ?_
  simp only [List.mem_cons, List.not_mem_nil, or_false] at hr
  obtain rfl | rfl | rfl := hr
  · exact ⟨by decide, by decide, trivial, by decide⟩
  · exact ⟨by decide, by decide, trivial, by decide⟩
  · exact ⟨by decide, by decide, trivial, by decide⟩

end OperatingSystem.Fs
