import OperatingSystem.Fs.Readable

/-!
# OperatingSystem.Fs.Read

What `file_read` prints.  The bytes of its range come from the blocks that the
direct pointers and the map lead to (`rangeByte`).  Inside a file they are the
bytes of the file, behind its end whatever the pointers lead to: two reads are
alike iff this is the same (`reads_alike_iff`).
-/

namespace OperatingSystem.Fs

/-! ## Specifications -/

/-- The byte at position `p`, through the pointers, whether the file has this
block or not. -/
def rangeByte (s : FS) (i : Fin 512) (p : Nat) : Byte :=
  match largePtr s i (mapOf s (s.inode i)) (p / 512 : Nat) with
  | some block => s.diskRead block (fun _ => 0) ⟨p % 512, mod_lt_block p⟩
  | none => 0

/-- Two reads print the same and return the same. -/
def ReadsAlike (read read' : Option Ret) : Prop :=
  ∃ r r', read = some r ∧ read' = some r' ∧ r.value = r'.value ∧ r.out = r'.out

/-- Behind the end of the file, the bytes of the range are the same as far as no
null comes before. -/
def TailsAgree (s s' : FS) (i i' : Fin 512) (offset size : Int) : Prop :=
  ∀ p : Nat, offset ≤ p → (s.inode i).size ≤ p → p < offset + size →
    (∀ q : Nat, offset ≤ q → q < p → rangeByte s i q ≠ 0) → rangeByte s i p = rangeByte s' i' p

/-! ## Strings -/

theorem strn_succ (p : Nat → Byte) (n : Nat) :
    strn p (n + 1) = if p 0 = 0 then [] else p 0 :: strn (fun k => p (k + 1)) n := by
  rw [strn, List.range_succ_eq_map, List.map_cons, List.map_map, List.takeWhile_cons]
  by_cases h : p 0 = 0
  · rw [if_pos h, if_neg (by simp [h])]
  · rw [if_neg h, if_pos (by simpa using h)]
    rfl

/-- Two strings are the same iff the bytes are, up to the first null. -/
theorem strn_eq_iff {p q : Nat → Byte} : strn p n = strn q n ↔ ∀ k < n, (∀ j < k, p j ≠ 0) → p k = q k := by
  induction n generalizing p q with
  | zero => simp [strn]
  | succ n ih =>
      have hcons : (∀ k < n + 1, (∀ j < k, p j ≠ 0) → p k = q k) ↔
          p 0 = q 0 ∧ (p 0 ≠ 0 → ∀ k < n, (∀ j < k, p (j + 1) ≠ 0) → p (k + 1) = q (k + 1)) := by
        simp only [Nat.forall_lt_succ_left, Nat.not_lt_zero, false_implies, implies_true, true_implies, and_imp]
        tauto
      rw [hcons, strn_succ, strn_succ]
      by_cases hp : p 0 = 0 <;> by_cases hq : q 0 = 0
      · exact iff_of_true (by rw [if_pos hp, if_pos hq]) ⟨hp.trans hq.symm, fun h => absurd hp h⟩
      · rw [if_pos hp, if_neg hq]
        exact iff_of_false (by simp) fun h => hq (h.1.symm.trans hp)
      · rw [if_neg hp, if_pos hq]
        exact iff_of_false (by simp) fun h => hp (h.1.trans hq)
      · rw [if_neg hp, if_neg hq, List.cons.injEq, ih]
        exact and_congr_right fun _ => ⟨fun h _ => h, fun h => h hp⟩

/-! ## The loops -/

section Read

variable {s s' : FS} {L : Set (Fin 4096)} {i : Fin 512}

/-- A read loop over block numbers that are all on the disk. -/
theorem readBlocks_loop (h : ∀ j, a ≤ j → j ≤ b → ∃ c : Fin 4096, ptr j = some (c : Int)) (str : Block) :
    ∃ bs, readBlocks s ptr (loop a b) str = some (bs, []) ∧
      ∀ j, a ≤ j → j ≤ b → ∀ c : Fin 4096, ptr j = some (c : Int) → bs[(j - a).toNat]? = some (s.disk c) := by
  have hptr : List.Forall₂ (fun j (x : Int) => ptr j = some x ∧ ∃ c : Fin 4096, x = c) (loop a b)
      ((loop a b).map fun j => (ptr j).getD 0) := by
    rw [List.forall₂_map_right_iff, List.forall₂_same]
    intro j hj
    obtain ⟨c, hc⟩ := h j (mem_loop.mp hj).1 (mem_loop.mp hj).2
    rw [hc]
    exact ⟨rfl, c, rfl⟩
  have hread := readBlocks_map (s := s) hptr str
  refine ⟨_, hread, fun j hja hjb c hc => ?_⟩
  obtain ⟨hk, hidx⟩ := getElem_loop hja hjb
  exact (readBlocks_get hread).2 _ hk c (by rw [hidx]; exact hc)

/-- A read loop has a block number for each index. -/
theorem readBlocks_ptr (h : readBlocks s ptr js str = some p) : ∀ j ∈ js, ∃ block, ptr j = some block := by
  induction js generalizing str p with
  | nil => exact fun j hj => absurd hj List.not_mem_nil
  | cons j js ih =>
      simp only [readBlocks, Option.bind_eq_bind, Option.bind_eq_some_iff, Prod.exists] at h
      obtain ⟨block, hptr, bs, out, hrec, -⟩ := h
      intro k hk
      rcases List.mem_cons.mp hk with rfl | hk
      · exact ⟨block, hptr⟩
      · exact ih hrec k hk

/-- Each block index of a range has a block. -/
theorem Readable.ptr (h : Readable L s) (hinv : Inv L s) (i : Fin 512) {k : Nat} (hk : k < 138) :
    ∃ b : Fin 4096, largePtr s i (mapOf s (s.inode i)) k = some (b : Int) := by
  unfold largePtr
  by_cases h10 : k < 10
  · obtain ⟨b, hb⟩ := (hinv.inodes i).direct ⟨k, h10⟩
    rw [if_pos (by omega), directPtr_of_lt s i h10, hb]
    exact ⟨b, rfl⟩
  · obtain ⟨b, hb⟩ := h.entries i ⟨k - 10, by omega⟩
    rw [← largePtr, largePtr_map s i _ (by omega) (by omega), hb]
    exact ⟨b, rfl⟩

/-- The map has no entry for index 138. -/
theorem largePtr_behind (s : FS) (inodeNum : Int) (map : InDirectBlockMap) : largePtr s inodeNum map 138 = none := by
  simp [largePtr, Arr.read]

theorem rangeByte_eq {p : Nat} {b : Fin 4096} (h : largePtr s i (mapOf s (s.inode i)) (p / 512 : Nat) = some (b : Int)) :
    rangeByte s i p = s.disk b ⟨p % 512, Nat.mod_lt _ (by decide)⟩ := by
  delta rangeByte
  rw [h]
  exact congrFun (diskRead_fin s b fun _ => 0) _

/-- Inside a file the bytes of the range are its own. -/
theorem fileByte_eq (hinv : Inv L s) (hlive : s.live i = true) (htype : (s.inode i).type = .file) {p : Nat}
    (hp : (p : Int) < (s.inode i).size) : fileByte s (s.inode i) p = some (rangeByte s i p) := by
  have hsize := (hinv.files i hlive htype).size_le
  have hcount := (hinv.files i hlive htype).count_le
  obtain ⟨b, hb, -⟩ := hinv.dataBlock hlive htype (k := p / 512) (by omega)
  have hptr : largePtr s i (mapOf s (s.inode i)) (p / 512 : Nat) = some (b : Int) := by
    rw [← hb]
    exact largePtr_dataBlocks hinv hlive htype (by omega)
  rw [rangeByte_eq hptr, fileByte, hb, Option.bind_eq_bind, Option.bind_some, Arr.read_fin]
  rfl

/-! ## file_read -/

/-- What is copied out of the buffer is the range. -/
theorem strn_range {ptr : Int → Option Int} {bs : List Block} (hinv : Inv L s) (h : Readable L s) (h0 : 0 ≤ offset)
    (hend : offset + size < 70656)
    (hptr : ∀ j, offset / 512 ≤ j → j ≤ (offset + size) / 512 → ptr j = largePtr s i (mapOf s (s.inode i)) j)
    (hbs : ∀ j, offset / 512 ≤ j → j ≤ (offset + size) / 512 → ∀ c : Fin 4096, ptr j = some (c : Int) →
      bs[(j - offset / 512).toNat]? = some (s.disk c)) :
    strn (fun k => flatten bs ((offset % 512).toNat + k)) size.toNat =
      strn (fun k => rangeByte s i (offset.toNat + k)) size.toNat := by
  refine strn_congr fun k hk => ?_
  obtain ⟨b, hb⟩ := h.ptr hinv i (show (offset.toNat + k) / 512 < 138 by omega)
  have hj : offset / 512 ≤ ((offset.toNat + k) / 512 : Nat) := by omega
  have hj' : (((offset.toNat + k) / 512 : Nat) : Int) ≤ (offset + size) / 512 := by omega
  have hblock := hbs _ hj hj' b ((hptr _ hj hj').trans hb)
  have hget := flatten_get hblock ⟨(offset.toNat + k) % 512, Nat.mod_lt _ (by decide)⟩
  rw [rangeByte_eq hb, ← hget]
  congr 1
  dsimp only
  omega

/-- **What `file_read` does** with a range it has the memory for. -/
theorem fileRead_range (hinv : Inv L s) (h : Readable L s) (htarget : Target s name .file i) (h0 : 0 ≤ offset)
    (hsize : 0 ≤ size) (hstart : offset < 5632) (hend : offset + size < 70656) (env : Env) :
    fileRead s env name offset size =
      some ⟨0, [.contents (strn (fun k => rangeByte s i (offset.toNat + k)) size.toNat)], s⟩ := by
  have hread : s.inode.read i = some (s.inode i) := Arr.read_fin _ i
  have hdiv : offset.tdiv 512 = offset / 512 := Int.tdiv_eq_ediv_of_nonneg h0
  have hdiv' : (offset + size).tdiv 512 = (offset + size) / 512 := Int.tdiv_eq_ediv_of_nonneg (by omega)
  have hmod : offset.tmod 512 = offset % 512 := Int.tmod_eq_emod_of_nonneg h0
  have hptr : ∀ j, offset / 512 ≤ j → j ≤ (offset + size) / 512 →
      ∃ c : Fin 4096, largePtr s i (mapOf s (s.inode i)) j = some (c : Int) := fun j hlo hhi => by
    have hcast : j = (j.toNat : Nat) := by omega
    rw [hcast]
    exact h.ptr hinv i (by omega)
  unfold fileRead
  rw [lookup_found htarget.search, htarget.typed, if_neg (by decide), hdiv, hdiv', hmod]
  dsimp only
  by_cases hlarge : (offset + size) / 512 > 9
  · obtain ⟨b, hb⟩ := (hinv.inodes i).indirect
    obtain ⟨bs, hloop, hbs⟩ := readBlocks_loop (s := s) hptr fun _ => 0
    rw [if_pos hlarge, fileReadHelper, hread, Option.bind_eq_bind, Option.bind_some]
    dsimp only
    rw [hdiv, hdiv', hmod, if_neg (by omega), ← mapOf, hloop, Option.bind_eq_bind, Option.bind_some]
    dsimp only
    rw [if_neg (by omega), hb, diskReadOut_fin, strn_range hinv h h0 hend (fun j _ _ => rfl) hbs]
    rfl
  · have hsame : ∀ j, offset / 512 ≤ j → j ≤ (offset + size) / 512 →
        directPtr s i j = largePtr s i (mapOf s (s.inode i)) j := fun j _ hhi => by
      rw [largePtr, if_pos (by omega)]
    have hptr' : ∀ j, offset / 512 ≤ j → j ≤ (offset + size) / 512 → ∃ c : Fin 4096, directPtr s i j = some (c : Int) :=
      fun j hlo hhi => by
        rw [hsame j hlo hhi]
        exact hptr j hlo hhi
    obtain ⟨bs, hloop, hbs⟩ := readBlocks_loop (s := s) hptr' (chunk env.heap 0)
    rw [if_neg hlarge, if_neg (by omega), hloop, Option.bind_eq_bind, Option.bind_some]
    dsimp only
    rw [if_neg (by omega), strn_range hinv h h0 hend hsame hbs]
    rfl

/-- A range that starts behind the eleventh block, or ends behind the last one of
the map, is copied outside the buffers. -/
theorem fileRead_none (htarget : Target s name .file i) (h0 : 0 ≤ offset) (hsize : 0 ≤ size)
    (hrange : 5632 ≤ offset ∨ 70656 ≤ offset + size) (env : Env) : fileRead s env name offset size = none := by
  have hread : s.inode.read i = some (s.inode i) := Arr.read_fin _ i
  have hdiv : offset.tdiv 512 = offset / 512 := Int.tdiv_eq_ediv_of_nonneg h0
  have hdiv' : (offset + size).tdiv 512 = (offset + size) / 512 := Int.tdiv_eq_ediv_of_nonneg (by omega)
  unfold fileRead
  rw [lookup_found htarget.search, htarget.typed, if_neg (by decide), hdiv']
  dsimp only
  rw [if_pos (by omega), fileReadHelper, hread, Option.bind_eq_bind, Option.bind_some, hdiv, hdiv']
  dsimp only
  by_cases hstart : offset / 512 > 10
  · rw [if_pos hstart]
  · rw [if_neg hstart]
    cases hloop : readBlocks s (largePtr s i (InDirectBlockMap.codec.load (s.diskRead (s.inode i).indirectBlock fun _ => 0)))
        (loop (offset / 512) ((offset + size) / 512)) fun _ => 0 with
    | none => rfl
    | some p =>
        have hmem : (138 : Int) ∈ loop (offset / 512) ((offset + size) / 512) := mem_loop.mpr ⟨by omega, by omega⟩
        obtain ⟨block, hptr⟩ := readBlocks_ptr hloop 138 hmem
        simp [largePtr_behind] at hptr

end Read

/-- **When a read depends on the file only**: two reads of one range, in states
that safe runs reach and that agree on the size and the bytes of the file, are
alike iff the buffers can hold the range and what they print of it behind the end
of the file is the same. -/
theorem reads_alike_iff {s₀ s₀' s s' : FS} {lines lines' : List Line} {i i' : Fin 512}
    (hmount : fsMount env₀ none = some s₀) (hsafe : Run.Along step SafeStep s₀ lines)
    (h : Run.exec step s₀ lines = some s) (hmount' : fsMount env₀' none = some s₀')
    (hsafe' : Run.Along step SafeStep s₀' lines') (h' : Run.exec step s₀' lines' = some s')
    (htarget : Target s name .file i) (htarget' : Target s' name .file i')
    (hsame : (s.inode i).size = (s'.inode i').size)
    (hbytes : ∀ p : Nat, (p : Int) < (s.inode i).size → fileByte s (s.inode i) p = fileByte s' (s'.inode i') p)
    (h0 : 0 ≤ offset) (hsize : 0 ≤ size) (env env' : Env) :
    ReadsAlike (fileRead s env name offset size) (fileRead s' env' name offset size) ↔
      offset < 5632 ∧ offset + size < 70656 ∧ TailsAgree s s' i i' offset size := by
  obtain ⟨L, hinv, hread⟩ := readable_of_safe hmount hsafe h
  obtain ⟨L', hinv', hread'⟩ := readable_of_safe hmount' hsafe' h'
  by_cases hrange : 5632 ≤ offset ∨ 70656 ≤ offset + size
  · rw [fileRead_none htarget h0 hsize hrange]
    refine iff_of_false (fun ⟨_, _, hnone, _⟩ => nomatch hnone) ?_
    omega
  have hstart : offset < 5632 := by omega
  have hend : offset + size < 70656 := by omega
  have hinside : ∀ p : Nat, (p : Int) < (s.inode i).size → rangeByte s i p = rangeByte s' i' p := fun p hp => by
    have hbyte := hbytes p hp
    rw [fileByte_eq hinv htarget.live htarget.typed hp, fileByte_eq hinv' htarget'.live htarget'.typed (hsame ▸ hp),
      Option.some.injEq] at hbyte
    exact hbyte
  have halike : ReadsAlike (fileRead s env name offset size) (fileRead s' env' name offset size) ↔
      strn (fun k => rangeByte s i (offset.toNat + k)) size.toNat =
        strn (fun k => rangeByte s' i' (offset.toNat + k)) size.toNat := by
    rw [fileRead_range hinv hread htarget h0 hsize hstart hend,
      fileRead_range hinv' hread' htarget' h0 hsize hstart hend]
    simp [ReadsAlike]
  rw [halike, strn_eq_iff, and_iff_right hstart, and_iff_right hend]
  constructor
  · intro hall p hlo _ hhi hne
    have hp : offset.toNat + (p - offset.toNat) = p := by omega
    have hbyte := hall (p - offset.toNat) (by omega) fun j hj => hne _ (by omega) (by omega)
    rwa [hp] at hbyte
  · intro htails k hk hne
    by_cases hin : ((offset.toNat + k : Nat) : Int) < (s.inode i).size
    · exact hinside _ hin
    · refine htails _ (by omega) (by omega) (by omega) fun q hlo hhi => ?_
      have hq : offset.toNat + (q - offset.toNat) = q := by omega
      have hbyte := hne (q - offset.toNat) (by omega)
      rwa [hq] at hbyte

theorem reads_alike_iff_beside : ∃ s s', quietly [.create (letter 0) 10] = some s ∧
    quietly [.create (letter 1) 5, .create (letter 0) 10] = some s' ∧
    (ReadsAlike (fileRead s quiet (letter 0) 2 5) (fileRead s' quiet (letter 0) 2 5) ↔
      (2 : Int) < 5632 ∧ (2 : Int) + 5 < 70656 ∧ TailsAgree s s' 1 2 2 5) := by
  have hfacts : ((Run.exec step (formatted quiet) [⟨quiet, .create (letter 0) 10⟩]).bind fun s =>
      (Run.exec step (formatted quiet) [⟨quiet, .create (letter 1) 5⟩, ⟨quiet, .create (letter 0) 10⟩]).map fun s' =>
        (decide (Target s (letter 0) .file 1 ∧ Target s' (letter 0) .file 2), (s.inode 1).size, (s'.inode 2).size,
          (List.range 10).map (fileByte s (s.inode 1)) == (List.range 10).map (fileByte s' (s'.inode 2)))) =
      some (true, 10, 10, true) := by
    decide +kernel
  obtain ⟨s, hs, hmap⟩ := Option.bind_eq_some_iff.mp hfacts
  obtain ⟨s', hs', hval⟩ := Option.map_eq_some_iff.mp hmap
  simp only [Prod.mk.injEq, beq_iff_eq, List.map_inj_left, List.mem_range] at hval
  obtain ⟨htargets, hsize, hsize', hbytes⟩ := hval
  obtain ⟨htarget, htarget'⟩ := of_decide_eq_true htargets
  refine ⟨s, s', by rw [quietly_eq]; exact hs, by rw [quietly_eq]; exact hs', ?_⟩
  have hsafe : Run.Along step SafeStep (formatted quiet) [⟨quiet, .create (letter 0) 10⟩] :=
    ⟨trivial, fun _ _ => trivial⟩
  have hsafe' : Run.Along step SafeStep (formatted quiet) [⟨quiet, .create (letter 1) 5⟩, ⟨quiet, .create (letter 0) 10⟩] :=
    ⟨trivial, fun _ _ => ⟨trivial, fun _ _ => trivial⟩⟩
  exact reads_alike_iff (fsMount_none quiet) hsafe hs (fsMount_none quiet) hsafe' hs' htarget htarget'
    (hsize.trans hsize'.symm) (fun p hp => hbytes p (by omega)) (by decide) (by decide) quiet quiet

/-- An empty file, made where a removed one was, shows what this one held. -/
theorem read_shows_removed_file : ∃ s s', quietly [.create (letter 1) 10, .rm (letter 1), .create (letter 0) 0] = some s ∧
    quietly [.create (letter 0) 0] = some s' ∧ Target s (letter 0) .file 1 ∧ Target s' (letter 0) .file 1 ∧
    (s.inode 1).size = 0 ∧ (s'.inode 1).size = 0 ∧
    (fileRead s quiet (letter 0) 0 5).map Ret.out = some [.contents [97, 98, 99, 100, 101]] ∧
    (fileRead s' quiet (letter 0) 0 5).map Ret.out = some [.contents []] ∧
    ¬ ReadsAlike (fileRead s quiet (letter 0) 0 5) (fileRead s' quiet (letter 0) 0 5) := by
  have hfacts : ((Run.exec step (formatted quiet) [⟨quiet, .create (letter 1) 10⟩, ⟨quiet, .rm (letter 1)⟩,
      ⟨quiet, .create (letter 0) 0⟩]).bind fun s =>
      (Run.exec step (formatted quiet) [⟨quiet, .create (letter 0) 0⟩]).map fun s' =>
        decide (Target s (letter 0) .file 1 ∧ Target s' (letter 0) .file 1 ∧ (s.inode 1).size = 0 ∧
          (s'.inode 1).size = 0 ∧
          (fileRead s quiet (letter 0) 0 5).map Ret.out = some [.contents [97, 98, 99, 100, 101]] ∧
          (fileRead s' quiet (letter 0) 0 5).map Ret.out = some [.contents []])) = some true := by
    decide +kernel
  obtain ⟨s, hs, hmap⟩ := Option.bind_eq_some_iff.mp hfacts
  obtain ⟨s', hs', hval⟩ := Option.map_eq_some_iff.mp hmap
  obtain ⟨htarget, htarget', hsize, hsize', hout, hout'⟩ := of_decide_eq_true hval
  refine ⟨s, s', by rw [quietly_eq]; exact hs, by rw [quietly_eq]; exact hs', htarget, htarget', hsize, hsize', hout,
    hout', ?_⟩
  rintro ⟨r, r', hr, hr', -, hsame⟩
  rw [hr, Option.map_some, Option.some.injEq] at hout
  rw [hr', Option.map_some, Option.some.injEq] at hout'
  rw [hout, hout'] at hsame
  exact absurd hsame (by decide)

end OperatingSystem.Fs
