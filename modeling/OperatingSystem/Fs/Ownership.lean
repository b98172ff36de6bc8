import OperatingSystem.Fs.Reach

/-!
# OperatingSystem.Fs.Ownership

Exact ownership: behind the metadata a block is marked used iff a live inode
owns it, and then one inode at one position.  `file_remove` frees the data
blocks of a file but not the block of a large file's map, so ownership stays
exact in the runs that remove no large file.
-/

namespace OperatingSystem.Fs

/-- The blocks marked used are those that live inodes own, each one once. -/
structure Exact (s : FS) : Prop where
  used_iff : ∀ b : Fin 4096, 131 ≤ (b : Nat) → (s.used b = true ↔ ∃ i k, Owns s i k b)
  unique : ∀ i j k l b, Owns s i k b → Owns s j l b → i = j ∧ k = l

/-- A safe step that does not remove a file with an indirect map. -/
def KeepsMaps (s : FS) (line : Line) : Prop :=
  SafeStep s line ∧ ∀ name, line.command = .rm name → ∀ i, Target s name .file i → (s.inode i).blockCount ≤ 10

section

variable {s s' : FS} {L : Set (Fin 4096)}

theorem Inv.exact (hinv : Inv ∅ s) : Exact s :=
  ⟨fun b hge => ⟨fun hused => (hinv.cover b hge hused).resolve_left (Set.notMem_empty b),
    fun ⟨_, _, hown⟩ => (hinv.owns_used hown).2.1⟩, hinv.unique⟩

/-- Without a map all blocks are given back. -/
theorem Unlinked.mem_freed (h : Unlinked s i freed t)
    (hsmall : (s.inode i).type = .file → (s.inode i).blockCount ≤ 10) (b : Fin 4096) :
    b ∈ freed ↔ ∃ k, Owns s i k b := by
  refine ⟨h.owned b, fun ⟨k, hown⟩ => (h.forgotten k b hown).resolve_right ?_⟩
  rintro ⟨htype, hc, -⟩
  have := hsmall htype
  omega

theorem Unlinked.leaked_eq_empty (h : Unlinked s i freed t)
    (hsmall : (s.inode i).type = .file → (s.inode i).blockCount ≤ 10) : leaked s i freed = ∅ := by
  refine Set.eq_empty_of_forall_notMem fun b hb => ?_
  exact hb.2 ((h.mem_freed hsmall b).mpr hb.1)

/-- **The step lemma**: no block is lost. -/
theorem inv_of_keepsMaps (hinv : Inv ∅ s) (hkeeps : KeepsMaps s line) (hstep : step s line = some s') :
    Inv ∅ s' := by
  obtain ⟨hsafe, hsmall⟩ := hkeeps
  cases step_change hinv hsafe hstep with
  | same => exact hinv
  | create h => exact h.inv hinv
  | @remove _ type i freed t _ htarget hunlinked hnamed h =>
      have hinv' := h.inv hinv
      rw [hunlinked.leaked_eq_empty, Set.union_empty] at hinv'
      · exact hinv'
      · intro htype
        exact hsmall _ (hnamed (htarget.typed.symm.trans htype)) i (htype ▸ htarget.typed ▸ htarget)
  | write h => exact hinv.setDisk h
  | enter hcur hlive htype => exact hinv.flush_enter hcur hlive htype

theorem inv_of_run (hinv : Inv ∅ s) (hkeeps : Run.Along step KeepsMaps s lines)
    (h : Run.exec step s lines = some s') : Inv ∅ s' :=
  Run.exec_along (fun s => Inv ∅ s) (fun _ _ _ => inv_of_keepsMaps) lines hinv hkeeps h

/-- The inode of a name that was just created. -/
theorem CreateStep.search (hinv : Inv L s) (h : CreateStep s name i n bs s') :
    searchCurDir s' name = some (i : Int) := by
  obtain ⟨c, hcur, hlive, htype⟩ := (h.inv hinv).current
  have hd := (h.inv hinv).curDir hcur hlive htype
  obtain ⟨c', hcur', hlive', htype'⟩ := hinv.current
  have hpos := (hinv.curDir hcur' hlive' htype').pos
  have hroom := h.room
  have hnum := h.curDir.numEntry
  obtain ⟨k, hk⟩ : ∃ k : Fin 25, (k : Int) = s.curDir.numEntry := (Arr.exists_fin (by omega) (by omega)).imp fun _ => Eq.symm
  obtain ⟨hname, hinode⟩ := h.curDir.last k hk
  rw [searchCurDir_found hd.toTable (k := k) (by omega) hname, hinode]

/-- A file that is created under a new name and removed gives back every block. -/
theorem create_remove (hinv : Inv ∅ s) (hnew : searchCurDir s name = some (-1))
    (hcreate : fileCreate s env name size = some r)
    (hsmall : ∀ i, Target r.fs name .file i → (r.fs.inode i).blockCount ≤ 10)
    (hremove : fileRemove r.fs name = some r') : r'.fs.blockMap = s.blockMap := by
  have h0 : 0 ≤ size := by
    by_contra hneg
    have hlt : ¬ size ≥ 70656 := by omega
    rw [fileCreate, if_neg hlt, if_pos (by omega)] at hcreate
    contradiction
  obtain ⟨r₀, hrun, hcase⟩ := fileCreate_cases hinv env name h0
  obtain rfl := Option.some.inj (hcreate.symm.trans hrun)
  have hfile : r.fs = s ∨ ∃ size' i n, NewFile s name size' (createBuffer env size) i n r.fs := by
    rcases hcase with ⟨-, hfs | ⟨i, n, hfile⟩⟩ | ⟨-, i, n, hfile⟩
    · exact Or.inl hfs
    · exact Or.inr ⟨_, i, n, hfile⟩
    · exact Or.inr ⟨_, i, n, hfile⟩
  rcases hfile with hfs | ⟨size', i, n, hfile⟩
  · rw [hfs] at hremove
    rcases fileRemove_cases hinv name with ⟨-, out, hrun'⟩ | ⟨j, freed, t, out, htarget, -, -⟩
    · rw [← Option.some.inj (hrun'.symm.trans hremove)]
    · exact absurd hnew htarget.absent
  · obtain ⟨bs, hstep⟩ := hfile.step
    have hinv' := hstep.inv hinv
    have hinode : r.fs.inode i = n := by rw [hstep.inode, Function.update_self]
    have htarget : Target r.fs name .file i :=
      ⟨hstep.search hinv, (hstep.live i).mpr (Or.inl rfl), by rw [hinode]; exact hfile.type⟩
    rcases fileRemove_cases hinv' name with ⟨hnone, -⟩ | ⟨j, freed, t, out, htarget', hunlinked, hrun'⟩
    · exact absurd htarget (hnone i)
    · obtain rfl := htarget'.unique htarget.search
      obtain ⟨s', hentry, rfl⟩ := Option.map_eq_some_iff.mp (hrun'.symm.trans hremove)
      have hblockMap : s'.blockMap = t.blockMap := by rw [(removeEntry_cases hentry).2.1]
      refine hblockMap.trans (Bitmap.ext_getBit fun k hk => ?_)
      have hiff : t.used ⟨k, hk⟩ = true ↔ s.used ⟨k, hk⟩ = true := by
        have hflip : (r.fs.flipInode j).used ⟨k, hk⟩ = r.fs.used ⟨k, hk⟩ := FS.used_flipInode r.fs j _
        have hmem : ⟨k, hk⟩ ∈ freed ↔ (⟨k, hk⟩ : Fin 4096) ∈ bs := by
          rw [hunlinked.mem_freed fun _ => hsmall j htarget]
          constructor
          · rintro ⟨l, hown⟩
            rcases (hstep.owns_iff hinv j l _).mp hown with ⟨-, hl⟩ | ⟨hne, -⟩
            · exact List.mem_of_getElem? hl
            · exact absurd rfl hne
          · intro hb
            obtain ⟨l, hl⟩ := List.mem_iff_getElem?.mp hb
            exact ⟨l, (hstep.owns_iff hinv j l _).mpr (Or.inl ⟨rfl, hl⟩)⟩
        rw [hunlinked.blocks.used, hflip, hstep.used, hmem]
        constructor
        · rintro ⟨hnot, hor⟩
          exact hor.resolve_left hnot
        · refine fun hused => ⟨fun hb => ?_, Or.inr hused⟩
          rw [hstep.fresh _ hb] at hused
          contradiction
      exact Bool.eq_iff_iff.mpr hiff

end

/-- **Ownership is exact** in every state reached by a safe run that removes no
file with an indirect map; there a file that is created and removed gives back
every block. -/
theorem ownership_exact (hmount : fsMount env none = some s₀) (hkeeps : Run.Along step KeepsMaps s₀ lines)
    (h : Run.exec step s₀ lines = some s) :
    Exact s ∧ ∀ env₁ env₂ name size s', searchCurDir s name = some (-1) →
      Run.Along step KeepsMaps s [⟨env₁, .create name size⟩, ⟨env₂, .rm name⟩] →
      Run.exec step s [⟨env₁, .create name size⟩, ⟨env₂, .rm name⟩] = some s' → s'.blockMap = s.blockMap := by
  rw [fsMount_none, Option.some.injEq] at hmount
  subst hmount
  have hinv := inv_of_run (inv_formatted env) hkeeps h
  refine ⟨hinv.exact, fun env₁ env₂ name size s' hnew hkeeps' h' => ?_⟩
  obtain ⟨s₁, hcreate, h'⟩ := Option.bind_eq_some_iff.mp h'
  obtain ⟨s₂, hremove, h'⟩ := Option.bind_eq_some_iff.mp h'
  obtain rfl := Option.some.inj h'
  obtain ⟨r, hr, rfl⟩ := Option.map_eq_some_iff.mp hcreate
  obtain ⟨r', hr', rfl⟩ := Option.map_eq_some_iff.mp hremove
  exact create_remove hinv hnew hr ((hkeeps'.2 _ hcreate).1.2 name rfl) hr'

/-- A run that creates a file of ten characters and removes it. -/
theorem ownership_exact_small : ∃ s₀ s, fsMount quiet none = some s₀ ∧
    Run.exec step s₀ [⟨quiet, .create (letter 0) 10⟩, ⟨quiet, .rm (letter 0)⟩] = some s ∧
    (Exact s ∧ ∀ env₁ env₂ name size s', searchCurDir s name = some (-1) →
      Run.Along step KeepsMaps s [⟨env₁, .create name size⟩, ⟨env₂, .rm name⟩] →
      Run.exec step s [⟨env₁, .create name size⟩, ⟨env₂, .rm name⟩] = some s' → s'.blockMap = s.blockMap) := by
  have hsmall : (step (formatted quiet) ⟨quiet, .create (letter 0) 10⟩).map
      (fun s => decide (∀ i, (s.inode i).blockCount ≤ 10)) = some true := by decide +kernel
  have hsome : (Run.exec step (formatted quiet)
      [⟨quiet, .create (letter 0) 10⟩, ⟨quiet, .rm (letter 0)⟩]).isSome = true := by decide +kernel
  obtain ⟨s, hs⟩ := Option.isSome_iff_exists.mp hsome
  refine ⟨formatted quiet, s, fsMount_none quiet, hs, ownership_exact (fsMount_none quiet) ?_ hs⟩
  refine ⟨⟨trivial, fun _ h => nomatch h⟩, fun s₁ hs₁ => ⟨⟨trivial, fun name _ i _ => ?_⟩, fun _ _ => trivial⟩⟩
  rw [hs₁, Option.map_some, Option.some.injEq, decide_eq_true_iff] at hsmall
  exact hsmall i

/-- `create a 5120` and `rm a` leave block 142, which held the map, marked used. -/
theorem ownership_leaks : ∃ s, quietly [.create (letter 0) 5120, .rm (letter 0)] = some s ∧
    s.used 142 = true ∧ (¬ ∃ i k, Owns s i k 142) ∧ ¬ Exact s := by
  have hrun : (Run.exec step (formatted quiet)
      [⟨quiet, .create (letter 0) 5120⟩, ⟨quiet, .rm (letter 0)⟩]).map (fun s =>
        (s.used 142, decide (∀ i, s.live i = true → i = 0), decide (ownedBlocks s (s.inode 0) = [131]))) =
      some (true, true, true) := by decide +kernel
  obtain ⟨s, hs, hfacts⟩ := Option.map_eq_some_iff.mp hrun
  simp only [Prod.mk.injEq, decide_eq_true_iff] at hfacts
  obtain ⟨hused, hlive, howned⟩ := hfacts
  have hfree : ¬ ∃ i k, Owns s i k 142 := by
    rintro ⟨i, k, hl, hk⟩
    obtain rfl := hlive i hl
    have hmem := List.mem_of_getElem? hk
    rw [howned, List.mem_singleton] at hmem
    exact absurd hmem (by decide)
  refine ⟨s, by rw [quietly_eq]; exact hs, hused, hfree, fun hexact => ?_⟩
  exact hfree ((hexact.used_iff 142 (by decide)).mp hused)

end OperatingSystem.Fs
