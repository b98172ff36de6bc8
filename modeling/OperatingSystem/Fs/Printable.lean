import OperatingSystem.Fs.Read

/-!
# OperatingSystem.Fs.Printable

What a file holds can be printed: `file_create` fills it with characters, and a
write copies a string into it, so no byte before its end is null
(`printable_of_safe`).  A read of a range inside a file then prints exactly its
bytes, if the range starts in one of the first eleven blocks
(`reads_exactly_iff`).
-/

namespace OperatingSystem.Fs

/-! ## Specifications -/

/-- A read of a range inside a file prints its bytes, as `cat` shows them. -/
def ReadsExactly (s : FS) (env : Env) (name : Name) (i : Fin 512) (offset size : Int) : Prop :=
  ∃ bytes text, fileRead s env name offset size = some ⟨0, [.contents bytes], s⟩ ∧
    fileCat s env name = some ⟨0, [.contents text], s⟩ ∧
    bytes = (text.drop offset.toNat).take size.toNat ∧ bytes.length = size.toNat ∧
    ∀ k < size.toNat, bytes[k]? = fileByte s (s.inode i) (offset.toNat + k)

/-- What the shell passes: the buffer of a write is a string. -/
def Line.CString (line : Line) : Prop :=
  match line.command with
  | .write _ _ _ buf => (0 : Byte) ∉ buf
  | _ => True

/-- No byte of a file is null. -/
def Printable (s : FS) : Prop := ∀ i, s.live i = true → (s.inode i).type = .file → ∀ p : Nat,
  (p : Int) < (s.inode i).size → ∀ c, fileByte s (s.inode i) p = some c → c ≠ 0

/-! ## The characters of files -/

section Printable

variable {s s' : FS} {L : Set (Fin 4096)} {i : Fin 512}

/-- The bytes of a file are in its blocks. -/
theorem fileByte_congr (hinv : Inv L s) (hlive : s.live i = true) (htype : (s.inode i).type = .file)
    (h : ∀ k b, Owns s i k b → s'.disk b = s.disk b) (p : Nat) :
    fileByte s' (s.inode i) p = fileByte s (s.inode i) p := by
  have hblocks : dataBlocks s' (s.inode i) = dataBlocks s (s.inode i) :=
    dataBlocks_congr fun hc b hb => h 10 b (owns_indirect hlive htype hc hb)
  rw [fileByte, fileByte, hblocks]
  cases hx : (dataBlocks s (s.inode i))[p / 512]? with
  | none => rfl
  | some x =>
      obtain ⟨k, hk, -⟩ := ownedBlocks_data htype (List.mem_of_getElem? hx)
      obtain ⟨b, rfl, -⟩ := hinv.owned i hlive x (List.mem_of_getElem? hk)
      rw [Option.bind_eq_bind, Option.bind_some, Option.bind_eq_bind, Option.bind_some, Arr.read_fin, Arr.read_fin,
        h k b ⟨hlive, hk⟩]

/-- A file that is kept, with its blocks. -/
theorem Printable.kept (h : Printable s) (hinv : Inv L s) (hlive : s.live i = true) (hinode : s'.inode i = s.inode i)
    (hdisk : ∀ k b, Owns s i k b → s'.disk b = s.disk b) (htype : (s'.inode i).type = .file) {p : Nat}
    (hp : (p : Int) < (s'.inode i).size) {c : Byte} (hc : fileByte s' (s'.inode i) p = some c) : c ≠ 0 := by
  rw [hinode] at htype hp hc
  rw [fileByte_congr hinv hlive htype hdisk] at hc
  exact h i hlive htype p hp c hc

/-- The file that `file_create` makes is no longer than asked. -/
theorem Outcome.size_le (houtcome : Outcome s env name size r) (hstep : CreateStep s name i n bs r.fs) :
    n.size ≤ size := by
  have hself : r.fs.inode i = n := by rw [hstep.inode, Function.update_self]
  have hlive : r.fs.live i = true := (hstep.live i).mpr (Or.inl rfl)
  rw [← hself]
  cases houtcome with
  | tooLarge => exact nomatch hstep.free.symm.trans hlive
  | refused => exact nomatch hstep.free.symm.trans hlive
  | small _ _ _ run =>
      obtain ⟨hnode, -, hmade⟩ := run.made
      obtain rfl := hstep.eq_of_live run.inode.free hmade
      rw [hnode]
      exact le_rfl
  | half hlarge _ _ _ run =>
      obtain ⟨hnode, -, hmade⟩ := run.made
      obtain rfl := hstep.eq_of_live run.inode.free hmade
      rw [hnode]
      show 5119 ≤ size
      omega
  | large _ _ _ _ run _ grow =>
      obtain ⟨-, -, hmade⟩ := run.made
      obtain rfl := hstep.eq_of_live run.inode.free ((grow.live _).trans hmade)
      exact (grow.made run).2.1.le

theorem fileCreate_printable (hinv : Inv L s) (h : Printable s) (hrun : fileCreate s env name size = some r) :
    Printable r.fs := by
  obtain ⟨h0, houtcome, -⟩ := fileCreate_some env hinv.counts hrun
  have hnew : ∀ {m i n}, NewFile s name m (createBuffer env size) i n r.fs → Printable r.fs := by
    intro m i n hfile j hlive htype p hp c hc
    obtain ⟨bs, hstep⟩ := hfile.step
    by_cases hji : j = i
    · subst hji
      have hself : r.fs.inode j = n := by rw [hstep.inode, Function.update_self]
      have hsize := houtcome.size_le hstep
      have hle := (hstep.fileOk hfile.type).size_le
      have hinv' := hstep.inv hinv
      rw [hself] at htype hp hc
      obtain ⟨b, hb, -⟩ := hinv'.dataBlock hlive (by rw [hself]; exact htype) (k := p / 512) (by rw [hself]; omega)
      rw [hself] at hb
      rw [fileByte, hb, Option.bind_eq_bind, Option.bind_some, Arr.read_fin, Option.bind_eq_bind, Option.bind_some,
        hfile.data _ b hb] at hc
      have hchar : c = createBuffer env size p := by
        rw [← Option.some.inj hc, chunk]
        exact congrArg (createBuffer env size) (by dsimp only; omega)
      rw [hchar, createBuffer_lt env (by omega)]
      exact charset_ne_zero ⟨env.rand p % 62, Nat.mod_lt _ (by decide)⟩
    · have hlive₀ := ((hstep.live j).mp hlive).resolve_left hji
      exact h.kept hinv hlive₀ (by rw [hstep.inode, Function.update_of_ne hji])
        (fun k b hown => hstep.disk_owned hinv hown) htype hp hc
  obtain ⟨r₂, hrun₂, hcase⟩ := fileCreate_cases hinv env name h0
  obtain rfl := Option.some.inj (hrun.symm.trans hrun₂)
  rcases hcase with ⟨-, hfs | ⟨i, n, hfile⟩⟩ | ⟨-, i, n, hfile⟩
  · rw [hfs]
    exact h
  · exact hnew hfile
  · exact hnew hfile

/-- A byte on the disk after a write: it was there, or it comes from the
buffer. -/
theorem fileWrite_byte (hrun : fileWrite s env name offset size buf = some r) (b : Fin 4096) (t : Fin 512) :
    r.fs.disk b t = s.disk b t ∨ r.fs.disk b t ∈ buf := by
  rcases fileWrite_cases hrun with ⟨-, hfs, -⟩ | ⟨-, -, i, -, -, ⟨-, hfs⟩ | ⟨hsmall, -⟩⟩
  · exact Or.inl (by rw [hfs])
  · exact Or.inl (by rw [hfs])
  · rcases hsmall.disk b with ⟨-, hsame⟩ | ⟨j, -, -, -, -, hdisk⟩
    · exact Or.inl (by rw [hsame])
    · rw [hdisk, written]
      split
      · rename_i hin
        have hlt : (512 * j + t - offset).toNat < buf.length := by omega
        rw [List.getD_eq_getElem?_getD, List.getElem?_eq_getElem hlt]
        exact Or.inr (List.getElem_mem hlt)
      · exact Or.inl rfl

/-- A write of a string keeps the files printable. -/
theorem fileWrite_printable (hinv : Inv L s) (h : Printable s)
    (hsafe : size = buf.length → StaysInside s name offset buf) (hbuf : (0 : Byte) ∉ buf)
    (hrun : fileWrite s env name offset size buf = some r) : Printable r.fs := by
  obtain ⟨hfs, hdata⟩ := fileWrite_isDataOf hsafe hrun
  have hinode : r.fs.inode = s.inode := by rw [hfs]
  have hlives : ∀ j, r.fs.live j = s.live j := fun j => by rw [hfs]; rfl
  intro j hlive htype p hp c hc
  rw [hlives] at hlive
  rw [hinode] at htype hp hc
  have hblocks : dataBlocks r.fs (s.inode j) = dataBlocks s (s.inode j) := by
    refine dataBlocks_congr fun hcount b hb => ?_
    by_contra hne
    exact (hdata b hne).not_fixed hinv ⟨j, hlive, Or.inl ⟨htype, hcount, hb⟩⟩
  have hsize := (hinv.files j hlive htype).size_le
  obtain ⟨b, hb, -⟩ := hinv.dataBlock hlive htype (k := p / 512) (by omega)
  rw [fileByte, hblocks, hb, Option.bind_eq_bind, Option.bind_some, Arr.read_fin, Option.bind_eq_bind,
    Option.bind_some] at hc
  obtain rfl := Option.some.inj hc
  rcases fileWrite_byte hrun b ⟨p % 512, Nat.mod_lt _ (by decide)⟩ with hold | hnew
  · rw [hold]
    refine h j hlive htype p hp _ ?_
    rw [fileByte, hb, Option.bind_eq_bind, Option.bind_some, Arr.read_fin]
    rfl
  · rintro hzero
    exact hbuf (hzero ▸ hnew)

theorem Printable.remove (h : Printable s) (hinv : Inv L s) (hstep : RemoveStep s i freed s') : Printable s' := by
  intro j hlive htype p hp c hc
  obtain ⟨hj, hlive₀⟩ := (hstep.live j).mp hlive
  exact h.kept hinv hlive₀ (hstep.inode j hj) (fun k b _ => by rw [hstep.disk]) htype hp hc

theorem Printable.flush (h : Printable s) (hinv : Inv L s) (hclive : s.live c = true)
    (hctype : (s.inode c).type = .directory) : Printable (s.flush c) := by
  intro j hlive htype p hp x hx
  rw [flush_live] at hlive
  refine h.kept hinv hlive (by rw [flush_inode]) (fun k b hown => ?_) htype hp hx
  rw [flush_inode] at htype
  refine flush_disk_other hinv hclive hctype hown ?_
  rintro rfl
  exact nomatch htype.symm.trans hctype

theorem step_printable (hinv : Inv L s) (h : Printable s) (hsafe : SafeStep s line) (hline : line.CString)
    (hstep : step s line = some s') : Printable s' := by
  obtain ⟨env, command⟩ := line
  obtain ⟨r, hrun, rfl⟩ := Option.map_eq_some_iff.mp hstep
  obtain ⟨c, hcur, hclive, hctype⟩ := hinv.current
  have hremove : ∀ {name type i freed t out}, Target s name type i → i ≠ 0 → ¬ s.Current i → Unlinked s i freed t →
      (removeEntry t (i : Fin 512)).map (fun s' => (⟨0, out, s'⟩ : Ret)) = some r → Printable r.fs := by
    intro name type i freed t out htarget hroot hother hunlinked hrun'
    obtain ⟨s', hentry, rfl⟩ := Option.map_eq_some_iff.mp hrun'
    exact h.remove hinv (removeStep_of_unlinked hinv htarget hroot hother hunlinked hentry)
  cases command with
  | create name size => exact fileCreate_printable hinv h hrun
  | cat name =>
      rw [fileCat_fs hrun]
      exact h
  | write name offset size buf => exact fileWrite_printable hinv h hsafe hline hrun
  | read name offset size =>
      rw [fileRead_fs hrun]
      exact h
  | rm name =>
      simp only [execute] at hrun
      rcases fileRemove_cases hinv name with ⟨-, out, hrun'⟩ | ⟨i, freed, t, out, htarget, hunlinked, hrun'⟩
      · rw [← Option.some.inj (hrun'.symm.trans hrun)]
        exact h
      · obtain ⟨hroot, hother⟩ := htarget.file_ne hinv
        exact hremove htarget hroot hother hunlinked (hrun'.symm.trans hrun)
  | mkdir name =>
      simp only [execute] at hrun
      obtain ⟨r', hrun', hcase⟩ := dirMake_cases hinv env name hcur
      obtain rfl := Option.some.inj (hrun.symm.trans hrun')
      rcases hcase with ⟨-, hfs⟩ | ⟨-, i, n, b, hmade, hdir, -⟩
      · rw [hfs]
        exact h
      · intro j hlive htype p hp x hx
        have hji : j ≠ i := by
          rintro rfl
          rw [hmade.inode, Function.update_self] at htype
          simp [hdir] at htype
        exact h.kept hinv (((hmade.live j).mp hlive).resolve_left hji) (by rw [hmade.inode, Function.update_of_ne hji])
          (fun k b hown => hmade.disk_owned hinv hown) htype hp hx
  | rmdir name =>
      simp only [execute] at hrun
      rcases dirRemove_cases hinv name with ⟨-, out, hrun'⟩ | ⟨i, freed, t, out, htarget, hunlinked, hrun'⟩
      · rw [← Option.some.inj (hrun'.symm.trans hrun)]
        exact h
      · obtain ⟨hroot, hother⟩ := hsafe i htarget
        exact hremove htarget hroot hother hunlinked (hrun'.symm.trans hrun)
  | cd name =>
      simp only [execute] at hrun
      obtain ⟨r', hrun', hcase⟩ := dirChange_cases hinv hcur name
      obtain rfl := Option.some.inj (hrun.symm.trans hrun')
      have hflush := h.flush hinv hclive hctype
      rcases hcase with ⟨-, hfs, -⟩ | ⟨-, i, -, -, hfs⟩
      · rw [hfs]
        exact hflush
      · rw [hfs]
        exact hflush

/-- **The run lemma**: after a safe run with strings, what files hold can be
printed. -/
theorem printable_of_safe {s₀ s : FS} {lines : List Line} (hmount : fsMount env none = some s₀)
    (hsafe : Run.Along step SafeStep s₀ lines) (hlines : ∀ line ∈ lines, line.CString)
    (h : Run.exec step s₀ lines = some s) : Printable s := by
  rw [fsMount_none, Option.some.injEq] at hmount
  subst hmount
  refine (Run.exec_along (fun s => (∃ L, Inv L s) ∧ Printable s) ?_ lines ⟨⟨∅, inv_formatted env⟩, ?_⟩
    (hsafe.and_forall hlines) h).2
  · rintro s line s' ⟨⟨L, hinv⟩, hprint⟩ ⟨hsafe, hline⟩ hstep
    exact ⟨(step_change hinv hsafe hstep).inv hinv, step_printable hinv hprint hsafe hline hstep⟩
  · intro i hlive htype
    obtain rfl := (live_formatted env i).mp hlive
    exact nomatch htype

/-! ## Reads inside a file -/

/-- The start of a string without nulls. -/
theorem strn_take {p : Nat → Byte} (hmn : m ≤ n) (hne : ∀ k < m, p k ≠ 0) : (strn p n).take m = (List.range m).map p := by
  obtain ⟨d, rfl⟩ := Nat.exists_eq_add_of_le hmn
  rw [strn, List.range_add, List.map_append, List.takeWhile_append_of_pos]
  · rw [List.take_left' (by simp)]
  · intro x hx
    obtain ⟨k, hk, rfl⟩ := List.mem_map.mp hx
    simpa using hne k (List.mem_range.mp hk)

/-- The bytes of the file in the buffer of `cat`. -/
theorem flatten_dataBlocks (hinv : Inv L s) (hlive : s.live i = true) (htype : (s.inode i).type = .file) {p : Nat}
    (hp : (p : Int) < (s.inode i).size) :
    flatten ((dataBlocks s (s.inode i)).map fun b => s.diskRead b fun _ => 0) p = rangeByte s i p := by
  have hsize := (hinv.files i hlive htype).size_le
  obtain ⟨b, hb, -⟩ := hinv.dataBlock hlive htype (k := p / 512) (by omega)
  have hblock : ((dataBlocks s (s.inode i)).map fun b => s.diskRead b fun _ => 0)[p / 512]? = some (s.disk b) := by
    rw [List.getElem?_map, hb, Option.map_some, diskRead_fin]
  have hget := flatten_get hblock ⟨p % 512, Nat.mod_lt _ (by decide)⟩
  dsimp only at hget
  rw [show p / 512 * 512 + p % 512 = p by omega] at hget
  rw [hget, rangeByte_eq ((largePtr_dataBlocks hinv hlive htype (by omega)).trans hb)]

/-- **Inside the file** and where the buffer suffices, a read is exact. -/
theorem reads_exactly (hinv : Inv L s) (hread : Readable L s) (hprint : Printable s) (htarget : Target s name .file i)
    (h0 : 0 ≤ offset) (hsize : 0 ≤ size) (hrange : offset + size ≤ (s.inode i).size) (hstart : offset < 5632)
    (env : Env) : ReadsExactly s env name i offset size := by
  have hmax := hread.size i htarget.live htarget.typed
  have hle := (hinv.files i htarget.live htarget.typed).size_le
  have hbyte : ∀ p : Nat, (p : Int) < (s.inode i).size → rangeByte s i p ≠ 0 := fun p hp =>
    hprint i htarget.live htarget.typed p hp _ (fileByte_eq hinv htarget.live htarget.typed hp)
  have hbytes : strn (fun k => rangeByte s i (offset.toNat + k)) size.toNat =
      (List.range size.toNat).map fun k => rangeByte s i (offset.toNat + k) :=
    strn_eq le_rfl (fun k hk => hbyte _ (by omega)) (fun h => absurd h (lt_irrefl _))
  have htext : (fileText s (s.inode i)).take (s.inode i).size.toNat =
      (List.range (s.inode i).size.toNat).map (rangeByte s i) := by
    have hflat : ∀ p < (s.inode i).size.toNat,
        flatten ((dataBlocks s (s.inode i)).map fun b => s.diskRead b fun _ => 0) p = rangeByte s i p := fun p hp =>
      flatten_dataBlocks hinv htarget.live htarget.typed (by omega)
    rw [fileText, strn_take (by omega) fun k hk => by rw [hflat k hk]; exact hbyte k (by omega)]
    exact List.map_congr_left fun p hp => hflat p (List.mem_range.mp hp)
  refine ⟨_, _, fileRead_range hinv hread htarget h0 hsize hstart (by omega) env, fileCat_text hinv htarget env, ?_, ?_,
    fun k hk => ?_⟩
  · have htake : ((fileText s (s.inode i)).drop offset.toNat).take size.toNat =
        (((fileText s (s.inode i)).take (s.inode i).size.toNat).drop offset.toNat).take size.toNat := by
      rw [List.drop_take, List.take_take]
      congr 1
      omega
    rw [htake, htext, hbytes]
    refine List.ext_getElem (by simp; omega) fun k hk hk' => by simp
  · rw [hbytes, List.length_map, List.length_range]
  · rw [hbytes, List.getElem?_map, List.getElem?_range hk,
      fileByte_eq hinv htarget.live htarget.typed (p := offset.toNat + k) (by omega)]
    rfl

end Printable

/-- **When a read is exact**: in every state that a safe run with strings
reaches, a read of a range inside a regular file prints its bytes, as `cat` shows
them, iff the range starts in one of the first eleven blocks. -/
theorem reads_exactly_iff {s₀ s : FS} {lines : List Line} {i : Fin 512} (hmount : fsMount env₀ none = some s₀)
    (hsafe : Run.Along step SafeStep s₀ lines) (hlines : ∀ line ∈ lines, line.CString)
    (h : Run.exec step s₀ lines = some s) (htarget : Target s name .file i) (h0 : 0 ≤ offset) (hsize : 0 ≤ size)
    (hrange : offset + size ≤ (s.inode i).size) (env : Env) :
    ReadsExactly s env name i offset size ↔ offset < 5632 := by
  obtain ⟨L, hinv, hread⟩ := readable_of_safe hmount hsafe h
  have hprint := printable_of_safe hmount hsafe hlines h
  refine ⟨?_, fun hstart => reads_exactly hinv hread hprint htarget h0 hsize hrange hstart env⟩
  rintro ⟨bytes, text, hrun, -⟩
  by_contra hstart
  exact nomatch (fileRead_none htarget h0 hsize (Or.inl (by omega)) env).symm.trans hrun

/-- A write inside the file it names is a safe step. -/
theorem staysInside_of_inside {s : FS} {L : Set (Fin 4096)} {i : Fin 512} {buf : List Byte} (hinv : Inv L s)
    (htarget : Target s name .file i) (h0 : 0 ≤ offset) (hrange : offset + buf.length ≤ (s.inode i).size) :
    StaysInside s name offset buf := by
  refine ⟨fun ⟨j, hsearch, hdir⟩ => ?_, fun inodeNum hsearch _ hend p b hch => Or.inl ?_⟩
  · exact nomatch (htarget.at_search hsearch).2.symm.trans hdir
  obtain rfl : inodeNum = i := Option.some.inj (hsearch.symm.trans htarget.search)
  obtain ⟨hlo, hhi, hptr, -⟩ := hch
  rw [endBlock_of_nonneg h0] at hend
  have hsize := (hinv.files i htarget.live htarget.typed).size_le
  have hk : (p / 512).toNat < 10 := by omega
  have hcast : p / 512 = ((p / 512).toNat : Nat) := by omega
  rw [hcast, directPtr_of_lt s i hk] at hptr
  have hblock := dataBlocks_direct s (s.inode i) hk (by omega)
  rw [hptr] at hblock
  exact ⟨i, htarget.search, htarget.live, htarget.typed, List.mem_of_getElem? hblock⟩

/-- A read across the direct blocks and those of the map, after a write. -/
theorem reads_exactly_iff_across : ∃ s, quietly [.create (letter 0) 6000, .write (letter 0) 5000 1 [88]] = some s ∧
    (ReadsExactly s quiet (letter 0) 1 4990 300 ↔ (4990 : Int) < 5632) := by
  have hmade : (step (formatted quiet) ⟨quiet, .create (letter 0) 6000⟩).map (fun s =>
      decide (Target s (letter 0) .file 1 ∧ (s.inode 1).size = 6000)) = some true := by decide +kernel
  have hfacts : (Run.exec step (formatted quiet) [⟨quiet, .create (letter 0) 6000⟩,
      ⟨quiet, .write (letter 0) 5000 1 [88]⟩]).map (fun s =>
      decide (Target s (letter 0) .file 1 ∧ (s.inode 1).size = 6000)) = some true := by decide +kernel
  have hsafe : Run.Along step SafeStep (formatted quiet) [⟨quiet, .create (letter 0) 6000⟩,
      ⟨quiet, .write (letter 0) 5000 1 [88]⟩] := by
    have hcreate : SafeStep (formatted quiet) ⟨quiet, .create (letter 0) 6000⟩ := trivial
    refine ⟨hcreate, fun s₁ hs₁ => ⟨fun _ => ?_, fun _ _ => trivial⟩⟩
    obtain ⟨L, hinv⟩ := (step_change (inv_formatted quiet) hcreate hs₁).inv (inv_formatted quiet)
    rw [hs₁, Option.map_some, Option.some.injEq] at hmade
    obtain ⟨htarget, hsize⟩ := of_decide_eq_true hmade
    exact staysInside_of_inside hinv htarget (by decide) (by rw [hsize]; decide)
  obtain ⟨s, hs, hval⟩ := Option.map_eq_some_iff.mp hfacts
  obtain ⟨htarget, hsize⟩ := of_decide_eq_true hval
  refine ⟨s, by rw [quietly_eq]; exact hs, ?_⟩
  have hlines : ∀ line ∈ [(⟨quiet, .create (letter 0) 6000⟩ : Line), ⟨quiet, .write (letter 0) 5000 1 [88]⟩],
      line.CString := by
    simp [Line.CString]
  exact reads_exactly_iff (fsMount_none quiet) hsafe hlines hs htarget (by decide) (by decide)
    (by rw [hsize]; decide) quiet

/-- A read that starts in the twelfth block copies the eleventh to in front of the
buffer. -/
theorem read_underflows : ∃ s, quietly [.create (letter 0) 6000] = some s ∧ Target s (letter 0) .file 1 ∧
    (s.inode 1).size = 6000 ∧ fileRead s quiet (letter 0) 5632 10 = none ∧
    ¬ ReadsExactly s quiet (letter 0) 1 5632 10 := by
  have hfacts : (Run.exec step (formatted quiet) [⟨quiet, .create (letter 0) 6000⟩]).map (fun s =>
      (decide (Target s (letter 0) .file 1), (s.inode 1).size, (fileRead s quiet (letter 0) 5632 10).isNone)) =
      some (true, 6000, true) := by decide +kernel
  obtain ⟨s, hs, hval⟩ := Option.map_eq_some_iff.mp hfacts
  simp only [Prod.mk.injEq, Option.isNone_iff_eq_none] at hval
  obtain ⟨htarget, hsize, hnone⟩ := hval
  refine ⟨s, by rw [quietly_eq]; exact hs, of_decide_eq_true htarget, hsize, hnone, ?_⟩
  rintro ⟨bytes, text, hrun, -⟩
  exact nomatch hnone.symm.trans hrun

end OperatingSystem.Fs
