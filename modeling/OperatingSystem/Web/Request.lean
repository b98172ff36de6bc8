import Mathlib.Data.List.Infix
import OperatingSystem.Web.Process

/-!
# OperatingSystem.Web.Request

The request line.  What `process` takes for the path has neither a space, a null
nor a newline (`path_of_readRequest`); a line that asks for such a path is read
back (`readRequest_line`), and a line that starts with `GET ` is read only up to the
next space (`readRequest_prefix`).
-/

namespace OperatingSystem.Web

variable {s token rest buf input method p : List Byte} {delim : Byte}

/-! ## Tokens -/

/-- A token with something behind it. -/
theorem strtok_split (h : strtok s delim = some (token, rest)) (hrest : rest ≠ []) :
    s = s.takeWhile (· == delim) ++ (token ++ delim :: rest) := by
  simp only [strtok] at h
  split at h
  · contradiction
  obtain ⟨rfl, rfl⟩ := Prod.mk.inj (Option.some.inj h)
  obtain ⟨c, cs, hcs⟩ : ∃ c cs, (s.dropWhile (· == delim)).dropWhile (· != delim) = c :: cs :=
    List.exists_cons_of_ne_nil fun hnil => hrest (by rw [hnil]; rfl)
  have hc : c = delim := by
    have hhead := List.head?_dropWhile_not (· != delim) (s.dropWhile (· == delim))
    rw [hcs] at hhead
    simpa using hhead
  have hsplit := List.takeWhile_append_dropWhile (p := (· != delim)) (l := s.dropWhile (· == delim))
  rw [hcs, hc] at hsplit
  rw [hcs, List.drop_one, List.tail_cons, hsplit, List.takeWhile_append_dropWhile]

theorem ne_nil_of_strtok (h : strtok s delim = some (token, rest)) : s ≠ [] := by
  rintro rfl
  cases h

/-- The line up to the protocol. -/
theorem requestOf_split (h : requestOf buf = some (method, p)) : ∃ rest, rest ≠ [] ∧
    buf = buf.takeWhile (· == space) ++ (method ++ space :: rest) ∧ space ∉ method ∧
    ∃ rest', rest' ≠ [] ∧ rest = rest.takeWhile (· == space) ++ (p ++ space :: rest') ∧ p ≠ [] ∧ space ∉ p := by
  simp only [requestOf, Option.bind_eq_bind, Option.bind_eq_some_iff, Option.pure_def, Option.some.injEq, Prod.mk.injEq,
    Prod.exists] at h
  obtain ⟨method', rest, hmethod, p', rest', hp, token, rest'', hprotocol, rfl, rfl⟩ := h
  have hrest := ne_nil_of_strtok hp
  have hrest' := ne_nil_of_strtok hprotocol
  obtain ⟨hne, hspace⟩ := strtok_token hp
  exact ⟨rest, hrest, strtok_split hmethod hrest, (strtok_token hmethod).2, rest', hrest', strtok_split hp hrest', hne, hspace⟩

/-! ## Prefixes -/

/-- Nothing is skipped where the delimiter is not first. -/
theorem takeWhile_delim_eq_nil {x y : List Byte} (h : x <+: y) (hy : y.head? ≠ some delim) : x.takeWhile (· == delim) = [] := by
  cases x with
  | nil => rfl
  | cons c x =>
      obtain ⟨t, rfl⟩ := h
      have hc : ¬ (c == delim) = true := by simpa using hy
      exact List.takeWhile_cons_of_neg hc

/-- The first delimiter of a prefix is the first delimiter of the whole. -/
theorem prefix_of_split {a b x y : List Byte} (h : a ++ delim :: x <+: b ++ delim :: y) (ha : delim ∉ a) (hb : delim ∉ b) :
    a = b ∧ x <+: y := by
  induction a generalizing b with
  | nil =>
      cases b with
      | nil => exact ⟨rfl, (List.cons_prefix_cons.mp h).2⟩
      | cons c b => exact absurd (List.cons_prefix_cons.mp h).1 (List.ne_of_not_mem_cons hb)
  | cons c a ih =>
      cases b with
      | nil => exact absurd (List.cons_prefix_cons.mp h).1.symm (List.ne_of_not_mem_cons ha)
      | cons c' b =>
          obtain ⟨rfl, htail⟩ := List.cons_prefix_cons.mp h
          obtain ⟨rfl, hxy⟩ := ih htail (List.not_mem_of_not_mem_cons ha) (List.not_mem_of_not_mem_cons hb)
          exact ⟨rfl, hxy⟩

/-! ## Lines -/

theorem cstr_append {a : List Byte} (h : 0 ∉ a) (b : List Byte) : cstr (a ++ b) = a ++ cstr b :=
  List.takeWhile_append_of_pos fun _ hc => bne_iff_ne.mpr fun heq => h (heq ▸ hc)

/-- A line that does not end before `c` is read up to `c` at least. -/
theorem fgets_append {n : Nat} {w v : List Byte} {c : Byte} (hlen : w.length + 1 < n) (h : 10 ∉ w) :
    ∃ z, fgets n (w ++ c :: v) = some (w ++ c :: z) := by
  have hmem : ∀ b ∈ w, (b != 10) = true := fun b hb => bne_iff_ne.mpr fun heq => h (heq ▸ hb)
  obtain ⟨v', hv⟩ : ∃ v', (w ++ c :: v).take (n - 1) = w ++ c :: v' := by
    refine ⟨v.take (n - 2 - w.length), ?_⟩
    rw [List.take_append, List.take_of_length_le (by omega), show n - 1 - w.length = n - 2 - w.length + 1 by omega,
      List.take_succ_cons]
  rw [fgets, if_neg (by simp), hv]
  dsimp only
  rw [List.takeWhile_append_of_pos hmem, List.dropWhile_append_of_pos hmem]
  by_cases hc : c = 10
  · refine ⟨[], ?_⟩
    simp [hc]
  · refine ⟨v'.takeWhile (· != 10) ++ (v'.dropWhile (· != 10)).take 1, ?_⟩
    have hpos : (c != 10) = true := bne_iff_ne.mpr hc
    rw [List.takeWhile_cons_of_pos (p := fun b => b != 10) hpos, List.dropWhile_cons_of_pos (p := fun b => b != 10) hpos,
      List.append_assoc, List.cons_append]

/-- A line has at most one newline, its last byte. -/
theorem fgets_split {n : Nat} (h : fgets n input = some buf) :
    buf <+: input ∧ ∃ a b, buf = a ++ b ∧ 10 ∉ a ∧ b.length ≤ 1 := by
  rw [fgets] at h
  split at h
  · contradiction
  obtain rfl := Option.some.inj h
  refine ⟨?_, _, _, rfl, fun hmem => ?_, List.length_take_le 1 _⟩
  · refine List.IsPrefix.trans ?_ (List.take_prefix (n - 1) input)
    conv_rhs => rw [← List.takeWhile_append_dropWhile (p := (· != 10)) (l := input.take (n - 1))]
    exact (List.prefix_append_right_inj _).mpr (List.take_prefix 1 _)
  · simpa using List.mem_takeWhile_imp hmem

/-- **The path of a request** has no space, null or newline. -/
theorem path_of_readRequest (h : readRequest input = some (method, p)) :
    p ≠ [] ∧ space ∉ p ∧ 0 ∉ p ∧ 10 ∉ p := by
  obtain ⟨buf, hbuf, hreq⟩ := Option.bind_eq_some_iff.mp h
  obtain ⟨-, a, b, hab, ha, hb⟩ := fgets_split hbuf
  obtain ⟨rest, -, hline, -, rest', -, hrest, hne, hspace⟩ := requestOf_split hreq
  -- the line is what comes before the path, the path, and at least a space
  obtain ⟨pre, hpre⟩ : ∃ pre, cstr buf = pre ++ p ++ space :: rest' := by
    refine ⟨(cstr buf).takeWhile (· == space) ++ (method ++ space :: rest.takeWhile (· == space)), ?_⟩
    conv_lhs => rw [hline, hrest]
    simp
  refine ⟨hne, hspace, fun hmem => ?_, fun hmem => ha ?_⟩
  · have hzero : (0 : Byte) ∈ cstr buf := hpre ▸ List.mem_append_left _ (List.mem_append_right pre hmem)
    simpa using List.mem_takeWhile_imp hzero
  · have hprefix : pre ++ p ++ space :: rest' <+: a ++ b := by
      rw [← hpre, ← hab]
      exact List.takeWhile_prefix _
    have hlen := hprefix.length_le
    simp only [List.length_append, List.length_cons] at hlen
    have hin : pre ++ p <+: a := List.prefix_of_prefix_length_le ((List.prefix_append _ _).trans hprefix)
      (List.prefix_append a b) (by simp only [List.length_append]; omega)
    exact hin.subset (List.mem_append_right pre hmem)

/-- What a line that starts with `GET` asks for is what comes before the next space. -/
theorem readRequest_prefix {y : List Byte} (h : readRequest (str "GET" ++ space :: y) = some (method, p))
    (hy : y.head? ≠ some space) : p ++ [space] <+: y := by
  obtain ⟨buf, hbuf, hreq⟩ := Option.bind_eq_some_iff.mp h
  obtain ⟨rest, hrestne, hline, hmethod, rest', -, hrest, -, -⟩ := requestOf_split hreq
  have hprefix : cstr buf <+: str "GET" ++ space :: y := (List.takeWhile_prefix _).trans (fgets_split hbuf).1
  have hnone : (cstr buf).takeWhile (· == space) = [] :=
    takeWhile_delim_eq_nil hprefix (by simp [str, space])
  rw [hnone, List.nil_append] at hline
  rw [hline] at hprefix
  obtain ⟨-, hresty⟩ := prefix_of_split hprefix hmethod (by decide)
  rw [takeWhile_delim_eq_nil hresty hy, List.nil_append] at hrest
  refine List.IsPrefix.trans ?_ hresty
  rw [hrest, List.prefix_append_right_inj, List.cons_prefix_cons]
  exact ⟨rfl, List.nil_prefix⟩

/-- **A line that asks for a path** is read, when something else than carriage
returns comes behind the path. -/
theorem readRequest_line {q u v : List Byte} {c : Byte} (hq : q ≠ []) (hspace : space ∉ q) (hnull : 0 ∉ q) (hline : 10 ∉ q)
    (hu : ∀ b ∈ u, b = cr) (hc : c ≠ cr) (hc0 : c ≠ 0) (hlen : q.length + u.length ≤ 4089) :
    readRequest (str "GET" ++ space :: (q ++ space :: (u ++ c :: v))) = some (str "GET", q) := by
  obtain ⟨w, hw⟩ : ∃ w, w = str "GET" ++ space :: (q ++ space :: u) := ⟨_, rfl⟩
  have hinput : str "GET" ++ space :: (q ++ space :: (u ++ c :: v)) = w ++ c :: v := by simp [hw]
  have hwlen : w.length ≤ 4094 := by
    have hget : (str "GET").length = 3 := rfl
    simp only [hw, List.length_append, List.length_cons, hget]
    omega
  have hmem : ∀ b ∈ w, b ∈ q ∨ b = cr ∨ b = space ∨ b ∈ str "GET" := by
    intro b hb
    simp only [hw, List.mem_append, List.mem_cons] at hb
    obtain hb | hb | hb | hb | hb := hb
    · exact .inr (.inr (.inr hb))
    · exact .inr (.inr (.inl hb))
    · exact .inl hb
    · exact .inr (.inr (.inl hb))
    · exact .inr (.inl (hu b hb))
  obtain ⟨z, hz⟩ : ∃ z, fgets 4096 (w ++ c :: v) = some (w ++ c :: z) := by
    refine fgets_append (by omega) fun hten => ?_
    obtain h | h | h | h := hmem 10 hten
    · exact hline h
    all_goals exact absurd h (by decide)
  have hcstr : cstr (w ++ c :: z) = str "GET" ++ space :: (q ++ space :: (u ++ c :: cstr z)) := by
    rw [cstr_append fun hzero => ?_, cstr, List.takeWhile_cons_of_pos (by simpa using hc0), ← cstr, hw]
    · simp
    · obtain h | h | h | h := hmem 0 hzero
      · exact hnull h
      all_goals exact absurd h (by decide)
  -- the protocol starts with `c`
  have hskip : (u ++ c :: cstr z).dropWhile (· == cr) = c :: cstr z := by
    rw [List.dropWhile_append_of_pos fun b hb => beq_iff_eq.mpr (hu b hb), List.dropWhile_cons_of_neg (by simpa using hc)]
  have hprotocol : ∃ t, strtok (u ++ c :: cstr z) cr = some t := by
    rw [strtok, hskip, if_neg (List.cons_ne_nil _ _)]
    exact ⟨_, rfl⟩
  obtain ⟨t, ht⟩ := hprotocol
  rw [readRequest, hinput, hz, Option.bind_some, requestOf, hcstr, strtok_append (by decide) (by decide)]
  simp [strtok_append hq hspace, ht]

end OperatingSystem.Web
