import OperatingSystem.Fs.Reach

/-!
# OperatingSystem.Fs.Counters

The free counters over whole runs.  Every command, in whatever state, keeps the
counters equal to the numbers of clear bits, so they are exact in every state a
run reaches, and with them everything that rests on them: a free index is found
when the counter promises one, and no allocation fails behind the checks
(`counters_exact`).
-/

namespace OperatingSystem.Fs

/-- The free counters count the clear bits, the functions on the bitmaps change
no bit but the one they report, and no allocation fails behind the checks. -/
structure CountersExact (s : FS) : Prop where
  counts : s.Counts
  getBlock : ∀ x s', getFreeBlock s = (x, s') → x ≠ -1 → ∃ b : Fin 4096, x = b ∧ s.used b = false ∧
    (∀ c, s'.used c = true ↔ c = b ∨ s.used c = true) ∧ ∀ i, s'.live i = s.live i
  getInode : ∀ x s', getFreeInode s = (x, s') → x ≠ -1 → ∃ i : Fin 512, x = i ∧ s.live i = false ∧
    (∀ j, s'.live j = true ↔ j = i ∨ s.live j = true) ∧ ∀ b, s'.used b = s.used b
  freeBlock : ∀ b, s.used b = false → freeBlock s (b : Fin 4096) = some (-1, s)
  freeInode : ∀ i, s.live i = false → freeInode s (i : Fin 512) = some (-1, s)
  create : ∀ env name size r, fileCreate s env name size = some r → NoFailure r.out
  mkdir : ∀ env name r, dirMake s env name = some r → NoFailure r.out

section Step

variable {s s' : FS}

theorem FS.Counts.exact (hc : s.Counts) : CountersExact s := by
  refine ⟨hc, fun x s' hget hx => ?_, fun x s' hget hx => ?_, fun _ => freeBlock_of_not_used,
    fun _ => freeInode_of_not_live, fun env _ _ _ h => (fileCreate_exact env hc h).2,
    fun env _ _ h => (dirMake_exact env hc h).2⟩
  · rcases getFreeBlock_cases s with ⟨b, hb, hcase⟩ | hcase
    · obtain ⟨rfl, rfl⟩ := Prod.mk.inj (hget.symm.trans hcase)
      refine ⟨b, rfl, hb, fun c => ?_, fun _ => rfl⟩
      rw [FS.used_flipBlock, hb]
      by_cases hcb : c = b <;> simp [hcb]
    · exact absurd (Prod.mk.inj (hget.symm.trans hcase)).1 hx
  · rcases getFreeInode_cases s with ⟨i, hi, hcase⟩ | hcase
    · obtain ⟨rfl, rfl⟩ := Prod.mk.inj (hget.symm.trans hcase)
      refine ⟨i, rfl, hi, fun j => ?_, fun _ => rfl⟩
      rw [FS.live_flipInode, hi]
      by_cases hji : j = i <;> simp [hji]
    · exact absurd (Prod.mk.inj (hget.symm.trans hcase)).1 hx

/-- The counters depend on the bitmaps and the super block only. -/
theorem counts_congr (hc : s.Counts) (hi : s'.inodeMap = s.inodeMap) (hb : s'.blockMap = s.blockMap)
    (hs : s'.superBlock = s.superBlock) : s'.Counts :=
  ⟨by rw [hs, hi]; exact hc.inodes, by rw [hs, hb]; exact hc.blocks⟩

/-! ## Freeing -/

theorem freeInode_counts (hc : s.Counts) (h : freeInode s x = some p) : p.2.Counts := by
  obtain ⟨i, -, ⟨-, rfl⟩ | ⟨-, rfl⟩⟩ := freeInode_cases h
  · exact hc.flipInode i
  · exact hc

theorem freeBlock_counts (hc : s.Counts) (h : freeBlock s x = some p) : p.2.Counts := by
  obtain ⟨b, -, ⟨-, rfl⟩ | ⟨-, rfl⟩⟩ := freeBlock_cases h
  · exact hc.flipBlock b
  · exact hc

theorem freeBlocks_counts (hc : s.Counts) (h : freeBlocks ptr is s = some p) : p.2.Counts := by
  induction is generalizing s with
  | nil =>
      cases h
      exact hc
  | cons i is ih =>
      obtain ⟨x, -, h⟩ := Option.bind_eq_some_iff.mp h
      obtain ⟨⟨r, t⟩, hq, h⟩ := Option.bind_eq_some_iff.mp h
      have hq := freeBlock_counts hc hq
      dsimp only at hq h
      split at h
      · cases h
        exact hq
      · exact ih hq h

theorem removeEntry_counts (hc : s.Counts) (h : removeEntry s x = some s') : s'.Counts := by
  obtain ⟨-, hs', -⟩ := removeEntry_cases h
  rw [hs']
  exact ⟨hc.inodes, hc.blocks⟩

theorem fileRemove_counts (hc : s.Counts) (h : fileRemove s name = some r) : r.fs.Counts := by
  obtain ⟨x, -, h⟩ := Option.bind_eq_some_iff.mp h
  split at h
  · cases h
    exact hc
  obtain ⟨n, -, h⟩ := Option.bind_eq_some_iff.mp h
  split at h
  · cases h
    exact hc
  obtain ⟨⟨r₁, s₁⟩, hp, h⟩ := Option.bind_eq_some_iff.mp h
  have hp := freeInode_counts hc hp
  dsimp only at hp h
  split at h
  · cases h
    exact hp
  obtain ⟨⟨r₂, s₂⟩, hq, h⟩ := Option.bind_eq_some_iff.mp h
  have hq := freeBlocks_counts hp hq
  dsimp only at hq h
  split at h
  · cases h
    exact hq
  obtain ⟨⟨r₃, s₃⟩, hq', h⟩ := Option.bind_eq_some_iff.mp h
  have hq' := freeBlocks_counts hq hq'
  dsimp only at hq' h
  split at h
  · cases h
    exact hq'
  obtain ⟨s', hs', h⟩ := Option.bind_eq_some_iff.mp h
  cases h
  exact removeEntry_counts hq' hs'

theorem dirRemove_counts (hc : s.Counts) (h : dirRemove s name = some r) : r.fs.Counts := by
  obtain ⟨x, -, h⟩ := Option.bind_eq_some_iff.mp h
  split at h
  · cases h
    exact hc
  obtain ⟨n, -, h⟩ := Option.bind_eq_some_iff.mp h
  split at h
  · cases h
    exact hc
  obtain ⟨⟨r₁, s₁⟩, hp, h⟩ := Option.bind_eq_some_iff.mp h
  have hp := freeInode_counts hc hp
  dsimp only at hp h
  split at h
  · cases h
    exact hp
  obtain ⟨⟨r₂, s₂⟩, hq, h⟩ := Option.bind_eq_some_iff.mp h
  have hq := freeBlock_counts hp hq
  dsimp only at hq h
  split at h
  · cases h
    exact hq
  obtain ⟨s', hs', h⟩ := Option.bind_eq_some_iff.mp h
  cases h
  exact removeEntry_counts hq hs'

/-! ## The other commands -/

theorem diskWrite_counts (hc : s.Counts) (block : Int) (buf : Block) : (s.diskWrite block buf).Counts :=
  counts_congr hc (diskWrite_inodeMap s block buf) (diskWrite_blockMap s block buf) (diskWrite_superBlock s block buf)

theorem dirChange_counts (hc : s.Counts) (h : dirChange s name = some r) : r.fs.Counts := by
  obtain ⟨cur, -, h⟩ := Option.bind_eq_some_iff.mp h
  have hc := diskWrite_counts hc (cur.directBlock 0) (Dentry.codec.store 512 s.curDir)
  obtain ⟨x, -, h⟩ := Option.bind_eq_some_iff.mp h
  split at h
  · cases h
    exact hc
  obtain ⟨n, -, h⟩ := Option.bind_eq_some_iff.mp h
  split at h
  · cases h
    exact hc
  · cases h
    exact ⟨hc.inodes, hc.blocks⟩

theorem fileWrite_counts (hc : s.Counts) (h : fileWrite s env name offset size buf = some r) : r.fs.Counts := by
  rcases fileWrite_cases h with ⟨-, hfs, -⟩ | ⟨-, -, i, -, -, ⟨-, hfs⟩ | ⟨-, hfs⟩⟩
  · rw [hfs]
    exact hc
  · rw [hfs]
    exact hc
  · rw [hfs]
    exact ⟨hc.inodes, hc.blocks⟩

/-- **The step lemma**: every command keeps the counters exact. -/
theorem step_counts (hc : s.Counts) (h : step s line = some s') : s'.Counts := by
  obtain ⟨env, command⟩ := line
  obtain ⟨r, hrun, rfl⟩ := Option.map_eq_some_iff.mp h
  cases command <;> simp only [execute] at hrun
  case create => exact (fileCreate_exact env hc hrun).1
  case mkdir => exact (dirMake_exact env hc hrun).1
  case rm => exact fileRemove_counts hc hrun
  case rmdir => exact dirRemove_counts hc hrun
  case cd => exact dirChange_counts hc hrun
  case write => exact fileWrite_counts hc hrun
  case cat =>
    rw [fileCat_fs hrun]
    exact hc
  case read =>
    rw [fileRead_fs hrun]
    exact hc

end Step

/-- **The counters are exact** in every state a run reaches. -/
theorem counters_exact (hmount : fsMount env none = some s₀) (lines : List Line)
    (h : Run.exec step s₀ lines = some s) : CountersExact s := by
  rw [fsMount_none, Option.some.injEq] at hmount
  subst hmount
  have hc : s.Counts := Run.exec_induct (fun _ s => s.Counts) (inv_formatted env).counts
    (fun _ _ _ _ hc hstep => step_counts hc hstep) lines s h
  exact hc.exact

theorem counters_exact_nested : ∃ s₀ s, fsMount quiet none = some s₀ ∧
    Run.exec step s₀ [⟨quiet, .mkdir (letter 0)⟩, ⟨quiet, .create (letter 1) 6000⟩, ⟨quiet, .rm (letter 1)⟩,
      ⟨quiet, .cd (letter 0)⟩] = some s ∧ CountersExact s := by
  have hsome : (Run.exec step (formatted quiet) [⟨quiet, .mkdir (letter 0)⟩, ⟨quiet, .create (letter 1) 6000⟩,
      ⟨quiet, .rm (letter 1)⟩, ⟨quiet, .cd (letter 0)⟩]).isSome = true := by
    decide +kernel
  obtain ⟨s, hs⟩ := Option.isSome_iff_exists.mp hsome
  exact ⟨formatted quiet, s, fsMount_none quiet, hs, counters_exact (fsMount_none quiet) _ hs⟩

end OperatingSystem.Fs
