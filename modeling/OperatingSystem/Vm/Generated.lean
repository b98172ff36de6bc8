import OperatingSystem.Vm.Trace

/-!
# OperatingSystem.Vm.Generated

The simulator on what the generator writes.  A line of `input_gen` is read as the
request it was written for (`scanRequest_line`), so the two programs in a pipe are
the simulator on the requests drawn (`readRequests_inputGen`).  These are all
inside the tables, so only LRU can break, on a second request to the page of the
first (`main_generated`).
-/

namespace OperatingSystem.Vm

open Numeral Codec
open Stdio (lines cstr isspace scanNumber toInt toUnsigned atoi newline)

/-! ## One line -/

section Line

variable {pid : Int} {type : Byte} {addr : Nat} {c : Byte}

/-- The bytes of a line are no nulls and no newlines. -/
theorem mem_requestLine (htype : 33 ≤ type.toNat) (h : c ∈ requestLine pid type addr) : 32 ≤ c.toNat := by
  simp only [requestLine, List.mem_append, List.mem_cons, List.not_mem_nil, or_false] at h
  obtain (h | rfl | rfl | rfl | rfl | rfl) | h := h
  · have := le_of_mem_printInt h
    omega
  · decide
  · omega
  · decide
  · decide
  · decide
  · have := le_of_mem_printNat (by decide) (by decide) h
    omega

theorem length_requestLine (hpid : Fits pid) (haddr : addr < 2 ^ 31) : (requestLine pid type addr).length < 25 := by
  have hd := length_printInt pid hpid
  have hx : (printNat 16 addr).length ≤ 8 := (length_printNat_le (by decide) (by decide)).mpr (by omega)
  simp only [requestLine, List.length_append, List.length_cons, List.length_nil]
  omega

theorem toUnsigned_of_lt (h : addr < 2 ^ 31) : toUnsigned addr = addr := by
  rw [toUnsigned, if_pos (by omega)]
  exact Int.bmod_eq_of_le (by omega) (by omega)

/-- **A line is read back.** -/
theorem scanRequest_line (hpid : Fits pid) (htype : 33 ≤ type.toNat) (haddr : addr < 2 ^ 31) :
    scanRequest (requestLine pid type addr ++ [newline]) = some (pid, Char.ofNat type.toNat, (addr : Int)) := by
  have hzero : ∀ c ∈ requestLine pid type addr ++ [newline], (c != 0) = true := by
    intro c hc
    rw [bne_iff_ne]
    rintro rfl
    obtain h | h := List.mem_append.mp hc
    · exact absurd (mem_requestLine htype h) (by decide)
    · exact absurd h (by decide)
  have hcstr : cstr (requestLine pid type addr ++ [newline]) = requestLine pid type addr ++ [newline] :=
    List.takeWhile_eq_self_iff.mpr hzero
  have hsplit : requestLine pid type addr ++ [newline] =
      printInt pid ++ (32 :: type :: 32 :: 48 :: 120 :: (printNat 16 addr ++ [newline])) := by
    simp [requestLine]
  have hd : scanNumber 10 (printInt pid ++ (32 :: type :: 32 :: 48 :: 120 :: (printNat 16 addr ++ [newline]))) =
      some (pid, 32 :: type :: 32 :: 48 :: 120 :: (printNat 16 addr ++ [newline])) :=
    Stdio.scanNumber_printInt (by simp [digit]) pid
  have hx : scanNumber 16 (printNat 16 addr ++ [newline]) = some ((addr : Int), [newline]) :=
    Stdio.scanNumber_printNat (by simp [digit, newline]) addr
  have hskip : (32 :: type :: 32 :: 48 :: 120 :: (printNat 16 addr ++ [newline])).dropWhile isspace =
      type :: 32 :: 48 :: 120 :: (printNat 16 addr ++ [newline]) := by
    rw [List.dropWhile_cons_of_pos (by decide), List.dropWhile_cons_of_neg]
    simp [Stdio.isspace_of_le htype]
  have hskip' : (32 :: 48 :: 120 :: (printNat 16 addr ++ [newline])).dropWhile isspace =
      48 :: 120 :: (printNat 16 addr ++ [newline]) := by
    rw [List.dropWhile_cons_of_pos (by decide), List.dropWhile_cons_of_neg (by decide)]
  rw [scanRequest, hcstr, hsplit, hd]
  simp only [Option.bind_eq_bind, Option.bind_some, hskip, hskip']
  rw [if_pos (by rfl), List.drop_succ_cons, List.drop_succ_cons, List.drop_zero, hx, Option.bind_some,
    Stdio.toInt_of_fits hpid, toUnsigned_of_lt haddr]
  rfl

theorem head_requestLine : (requestLine pid type addr ++ [newline]).head? ≠ some 35 := by
  intro h
  obtain ⟨c, s, hcs⟩ := List.exists_cons_of_ne_nil (show printInt pid ≠ [] by
    unfold printInt
    split
    · exact List.cons_ne_nil _ _
    · exact printNat_ne_nil 10 _)
  have hc : c = 35 := by simpa [requestLine, hcs] using h
  have hle := le_of_mem_printInt (x := pid) (c := c) (by simp [hcs])
  exact absurd hle (by rw [hc]; decide)

end Line

/-! ## All lines -/

/-- The request that a draw makes. -/
def Draw.request (d : Draw) (rnd : Nat) : Request := ⟨(d.pid % maxPid : Nat), d.addr, Char.ofNat d.typeByte.toNat, rnd⟩

/-- The requests of the generator, as the simulator has them. -/
def generated (reqNum : Int) (rand rnd : Nat → Nat) : List Request :=
  (List.range reqNum.toNat).map fun i => (draw rand i).request (rnd i)

namespace Draw

variable (d : Draw)

theorem addr_lt : d.addr < 2048 := by
  have hpage := Nat.mod_lt d.page (show maxPage > 0 by decide)
  have hoffset := Nat.mod_lt d.offset (show 0xFF > 0 by decide)
  simp only [addr, maxPage] at hpage ⊢
  omega

theorem fits_pid : Fits (d.pid % maxPid : Nat) := by
  have hpid : d.pid % maxPid < 2 := Nat.mod_lt d.pid (by decide)
  exact ⟨by omega, by omega⟩

theorem typeByte_cases : d.typeByte = 82 ∨ d.typeByte = 87 := by
  unfold typeByte
  split
  · exact Or.inl rfl
  · exact Or.inr rfl

theorem le_typeByte : 33 ≤ d.typeByte.toNat := by
  obtain h | h := d.typeByte_cases <;> rw [h] <;> decide

/-- Every request is to a page of the tables, and none to the last byte of one. -/
theorem request_valid (rnd : Nat) : (d.request rnd).Valid ∧ (d.request rnd).offset < 255 := by
  have hpid := Nat.mod_lt d.pid (show maxPid > 0 by decide)
  have hpage : d.page % maxPage < 8 := Nat.mod_lt d.page (by decide)
  have hoffset := Nat.mod_lt d.offset (show 0xFF > 0 by decide)
  have haddr : (d.request rnd).addr = (d.page % maxPage * 256 + d.offset % 0xFF : Nat) := rfl
  have hshift : (d.request rnd).addr.shiftRight 8 = (d.request rnd).addr / 256 := Int.shiftRight_eq_div_pow _ 8
  refine ⟨⟨⟨?_, ?_⟩, ?_, ?_⟩, ?_⟩
  · exact Int.natCast_nonneg _
  · exact Int.ofNat_lt.mpr hpid
  · rw [hshift]
    omega
  · rw [hshift, haddr, show maxPage = 8 from rfl]
    omega
  · rw [Request.offset, hshift]
    omega

end Draw

/-- **The pipe**: the simulator reads the requests of the generator, in order, to the end. -/
theorem readRequests_draws (rand rnd : Nat → Nat) (k n : Nat) :
    readRequests rnd k ((List.range' k n).map fun i => (draw rand i).line ++ [newline]) =
      ((List.range' k n).map fun i => (draw rand i).request (rnd i), true) := by
  induction n generalizing k with
  | zero => rfl
  | succ n ih =>
      have haddr := (draw rand k).addr_lt
      rw [List.range'_succ, List.map_cons, List.map_cons, readRequests, Draw.line, if_neg head_requestLine,
        scanRequest_line (draw rand k).fits_pid (draw rand k).le_typeByte (by omega)]
      dsimp only
      rw [ih]
      rfl

theorem lines_inputGen (reqNum : Int) (rand : Nat → Nat) :
    lines 256 (inputGen reqNum rand) = (List.range reqNum.toNat).map fun i => (draw rand i).line ++ [newline] := by
  have hfit : ∀ line ∈ (List.range reqNum.toNat).map fun i => (draw rand i).line, newline ∉ line ∧ line.length + 1 < 256 := by
    intro line hline
    obtain ⟨i, -, rfl⟩ := List.mem_map.mp hline
    have haddr := (draw rand i).addr_lt
    have hlen : (draw rand i).line.length < 25 := length_requestLine (draw rand i).fits_pid (by omega)
    refine ⟨fun h => ?_, by omega⟩
    exact absurd (mem_requestLine (draw rand i).le_typeByte h) (by decide)
  have hlines := Stdio.lines_of_fit _ hfit [] (by decide)
  rw [List.append_nil, List.flatMap_map, List.map_map] at hlines
  rw [inputGen, hlines]
  exact List.append_nil _

theorem readRequests_inputGen (reqNum : Int) (rand rnd : Nat → Nat) :
    readRequests rnd 0 (lines 256 (inputGen reqNum rand)) = (generated reqNum rand rnd, true) := by
  rw [lines_inputGen, generated, List.range_eq_range']
  exact readRequests_draws rand rnd 0 reqNum.toNat

/-! ## Generator and simulator -/

/-- The argument that names a policy, and the name. -/
def Policy.argument : Policy → Int × String
  | .random => (0, "RANDOM")
  | .fifo => (1, "FIFO")
  | .lru => (2, "LRU")
  | .clock => (3, "CLOCK")

theorem policyOf_argument (policy : Policy) :
    policyOf (atoi (printInt policy.argument.1)) = some (policy, policy.argument.2) := by
  have hfits : Fits policy.argument.1 := by cases policy <;> decide
  rw [Stdio.atoi_printInt hfits]
  cases policy <;> rfl

/-- The line for a request that is served. -/
def line (p : Request × Reply) : Output :=
  .translated p.1.pid p.1.type p.2.tlbhit p.2.hit p.1.addr p.2.physicalAddr

theorem report_of_valid {p : Request × Reply} (h : p.1.Valid) : report p = [line p] := by
  obtain ⟨⟨-, hp⟩, -, ha⟩ := h
  rw [report, mmuOutput, if_neg (by omega), if_neg (by omega)]
  rfl

/-- **Generator and simulator**: the simulator, fed by the generator, prints a line
for each request drawn and the statistics of these lines, under any policy; unless
the policy is LRU and the second request is to the page of the first. -/
theorem main_generated (policy : Policy) (reqNum : Int) (rand rnd : Nat → Nat) (hit tlbhit : Bool) :
    let reqs := generated reqNum rand rnd
    let out := main 2 (printInt policy.argument.1) rnd hit tlbhit (inputGen reqNum rand)
    (out = none ↔ policy = .lru ∧ ¬ SecondDiffers reqs) ∧
      ∀ o, out = some o → ∃ served, served.map Prod.fst = reqs ∧
        o = .policy policy.argument.1 policy.argument.2 :: served.map line ++ summary served ∧
        ∀ p ∈ served, p.1.Valid ∧ p.1.offset < 255 ∧ p.2.physicalAddr = frameOf p.2.physicalAddr * 256 + p.1.offset := by
  intro reqs out
  have hvalid : ∀ r ∈ reqs, r.Valid ∧ r.offset < 255 := by
    intro r hr
    obtain ⟨i, -, rfl⟩ := List.mem_map.mp hr
    exact (draw rand i).request_valid (rnd i)
  have hout : out = (serveAll (State.init policy) hit tlbhit reqs).map fun p =>
      .policy policy.argument.1 policy.argument.2 :: (p.1.flatMap report ++ ending true p.2) := by
    have hfits : Fits policy.argument.1 := by cases policy <;> decide
    show main 2 _ _ _ _ _ = _
    rw [main, if_neg (by decide), policyOf_argument]
    dsimp only
    rw [mainLoop_eq, readRequests_inputGen, Option.map_map, Stdio.atoi_printInt hfits]
    rfl
  have hstate := serveAll_state (State.init policy) hit tlbhit reqs
  have hfilter : reqs.filter admitted = reqs := List.filter_eq_self.mpr fun r hr => admitted_of_valid (hvalid r hr).1
  rw [hfilter] at hstate
  constructor
  · rw [hout, Option.map_eq_none_iff, ← Option.map_eq_none_iff (f := Prod.snd), hstate]
    refine (run_eq_none_iff fun r hr => admitted_of_valid (hvalid r hr).1).trans ?_
    constructor
    · intro hadm
      by_contra hno
      refine hadm ⟨fun r hr => (hvalid r hr).1, fun hp => ?_⟩
      by_contra hdiff
      exact hno ⟨hp, hdiff⟩
    · rintro ⟨hp, hdiff⟩ hadm
      exact hdiff (hadm.2 hp)
  · intro o ho
    rw [hout] at ho
    obtain ⟨⟨served, s⟩, hserve, rfl⟩ := Option.map_eq_some_iff.mp ho
    obtain ⟨hfst, htrans⟩ := serveAll_translates (inv_init policy) hit tlbhit hserve
    have hserved : ∀ p ∈ served, p.1.Valid ∧ p.1.offset < 255 := fun p hp =>
      hvalid p.1 (hfst ▸ List.mem_map_of_mem hp)
    refine ⟨served, hfst, ?_, fun p hp => ?_⟩
    · rw [ending, if_pos rfl, htrans.summary, List.cons_append]
      congr 2
      rw [List.map_eq_flatMap]
      exact List.flatMap_congr fun p hp => report_of_valid (hserved p hp).1
    · have hans := htrans.answers p hp
      rw [Answers, if_pos (admitted_of_valid (hserved p hp).1)] at hans
      exact ⟨(hserved p hp).1, (hserved p hp).2, hans.2⟩

end OperatingSystem.Vm
