import OperatingSystem.Fs.Reach

/-!
# OperatingSystem.Fs.Persist

Unmounting and mounting again.  `fs_umount` writes the directory in memory to
the root's block, whichever directory it is, so everything comes back when the
root is current, and the root directory is lost when it is not.
-/

namespace OperatingSystem.Fs

open Codec

/-! ## The image -/

section Image

variable {s : FS} {L : Set (Fin 4096)} {d : Arr 4096 Block}

/-- The disk after one `disk_write`. -/
def poke (d : Arr 4096 Block) (block : Int) (buf : Block) : Arr 4096 Block := (d.write block buf).getD d

theorem diskWrite_poke (s : FS) (block : Int) (buf : Block) :
    s.diskWrite block buf = { s with disk := poke s.disk block buf } := rfl

theorem poke_apply (d : Arr 4096 Block) (block : Int) (buf : Block) (b : Fin 4096) :
    poke d block buf b = if block = b then buf else d b :=
  diskWrite_disk { FS.zero with disk := d } block b buf

/-- The disk after the inode blocks have been written. -/
def pokeInodes (inode : Arr 512 Inode) : List (Fin 128) → Arr 4096 Block → Arr 4096 Block
  | [], d => d
  | i :: is, d =>
      pokeInodes inode is (poke d (3 + (i : Nat) : Nat) (inodeBlockCodec.store 512 (inodesOf inode i)))

theorem writeInodes_poke (is : List (Fin 128)) (s : FS) :
    writeInodes is s = { s with disk := pokeInodes s.inode is s.disk } := by
  induction is generalizing s with
  | nil => rfl
  | cons i is ih => rw [writeInodes, ih, pokeInodes, diskWrite_poke]

theorem pokeInodes_other {inode : Arr 512 Inode} {is : List (Fin 128)} {b : Fin 4096}
    (hb : ∀ i ∈ is, 3 + (i : Nat) ≠ b) : pokeInodes inode is d b = d b := by
  induction is generalizing d with
  | nil => rfl
  | cons i is ih =>
      have hne : ¬ ((3 + (i : Nat) : Nat) : Int) = (b : Nat) := fun h => hb i List.mem_cons_self (by omega)
      rw [pokeInodes, ih fun j hj => hb j (List.mem_cons_of_mem i hj), poke_apply, if_neg hne]

/-- Each inode block holds its four inodes. -/
theorem pokeInodes_at {inode : Arr 512 Inode} {is : List (Fin 128)} {i : Fin 128} (hi : i ∈ is) {b : Fin 4096}
    (hb : (b : Nat) = 3 + i) : pokeInodes inode is d b = inodeBlockCodec.store 512 (inodesOf inode i) := by
  induction is generalizing d with
  | nil => exact absurd hi List.not_mem_nil
  | cons j is ih =>
      rw [pokeInodes]
      by_cases his : i ∈ is
      · exact ih his
      · obtain rfl : i = j := (List.mem_cons.mp hi).resolve_right his
        have hother : ∀ k ∈ is, 3 + (k : Nat) ≠ b := fun k hk heq => by
          obtain rfl : i = k := Fin.ext (by omega)
          exact his hk
        rw [pokeInodes_other hother, poke_apply, if_pos (by omega)]

theorem inodeBlock_lt (i : Fin 128) : 3 + (i : Nat) < 4096 := by omega

/-- What `fs_umount` leaves on the disk. -/
structure Image (s : FS) (d : Arr 4096 Block) : Prop where
  superBlock : d 0 = SuperBlock.codec.store 512 s.superBlock
  inodeMap : ∀ k : Fin 64, d 1 ⟨k, mapByte_lt k⟩ = s.inodeMap k
  blockMap : d 2 = s.blockMap
  inodes : ∀ i : Fin 128, d ⟨3 + i, inodeBlock_lt i⟩ = inodeBlockCodec.store 512 (inodesOf s.inode i)
  curDir : d 131 = Dentry.codec.store 512 s.curDir
  rest : ∀ b : Fin 4096, 131 < (b : Nat) → d b = s.disk b

theorem image_fsUmount (hblock : s.curDirBlock = 131) (tail : Nat → Byte) : Image s (fsUmount s tail) := by
  obtain ⟨d, himage, h0, h1, h2, hrest⟩ : ∃ d : Arr 4096 Block,
      (fsUmount s tail = poke (pokeInodes s.inode (List.finRange 128) d) 131 (Dentry.codec.store 512 s.curDir)) ∧
      d 0 = SuperBlock.codec.store 512 s.superBlock ∧
      (∀ k : Fin 64, d 1 ⟨k, by omega⟩ = s.inodeMap k) ∧ d 2 = s.blockMap ∧
      ∀ b : Fin 4096, 131 < (b : Nat) → d b = s.disk b := by
    refine ⟨poke (poke (poke s.disk 0 (SuperBlock.codec.store 512 s.superBlock)) 1
      fun k => if h : k < 64 then s.inodeMap ⟨k, h⟩ else tail k) 2 s.blockMap, ?_, ?_, fun k => ?_, ?_, fun b hb => ?_⟩
    · unfold fsUmount
      dsimp only
      rw [writeInodes_poke, diskWrite_poke, diskWrite_poke, diskWrite_poke, diskWrite_poke]
      dsimp only
      rw [hblock]
    · rw [poke_apply, if_neg (by decide), poke_apply, if_neg (by decide), poke_apply, if_pos (by decide)]
    · rw [poke_apply, if_neg (by decide), poke_apply, if_pos (by decide)]
      exact dif_pos k.isLt
    · rw [poke_apply, if_pos (by decide)]
    · rw [poke_apply, if_neg (by omega), poke_apply, if_neg (by omega), poke_apply, if_neg (by omega)]
  have hout : ∀ b : Fin 4096, (b : Nat) < 3 ∨ 131 < (b : Nat) →
      poke (pokeInodes s.inode (List.finRange 128) d) 131 (Dentry.codec.store 512 s.curDir) b = d b := by
    intro b hb
    rw [poke_apply, if_neg (by omega), pokeInodes_other fun i _ => by omega]
  rw [himage]
  refine ⟨?_, fun k => ?_, ?_, fun i => ?_, ?_, fun b hb => ?_⟩
  · rw [hout 0 (by decide), h0]
  · rw [hout 1 (by decide), h1 k]
  · rw [hout 2 (by decide), h2]
  · rw [poke_apply, if_neg (by simp only []; omega), pokeInodes_at (List.mem_finRange i) rfl]
  · rw [poke_apply, if_pos (by decide)]
  · rw [hout b (Or.inr hb), hrest b hb]

/-! ## Mounting it again -/

theorem zeroBits_le (m : Arr n Byte) : Bitmap.zeroBits m ≤ 8 * n := by
  unfold Bitmap.zeroBits
  calc _ ≤ (Finset.range (8 * n)).card := Finset.card_filter_le _ _
    _ = 8 * n := Finset.card_range _

theorem Inv.superBlockOk (hinv : Inv L s) : SuperBlock.codec.Ok s.superBlock := by
  have hinodes := hinv.counts.inodes
  have hblocks := hinv.counts.blocks
  have hle := zeroBits_le s.inodeMap
  have hle' := zeroBits_le s.blockMap
  have hblock : Fits s.superBlock.freeBlockCount := fits_small (by omega) (by omega)
  have hinode : Fits s.superBlock.freeInodeCount := fits_small (by omega) (by omega)
  exact ⟨hblock, hinode, trivial⟩

theorem InodeOk.codecOk {n : Inode} (h : InodeOk n) : Inode.codec.Ok n := by
  have hdirect : ∀ k, Fits (n.directBlock k) := fun k => by
    obtain ⟨b, hb⟩ := h.direct k
    rw [hb]
    exact fits_small (by omega) (by omega)
  have hindirect : Fits n.indirectBlock := by
    obtain ⟨b, hb⟩ := h.indirect
    rw [hb]
    exact fits_small (by omega) (by omega)
  exact ⟨trivial, h.owner, h.group, trivial, trivial, trivial, h.size, h.blockCount, hdirect, hindirect, trivial,
    trivial⟩

/-- The state after the image has been mounted. -/
theorem fsLoad_image (hinv : Inv L s) (h : Image s d) :
    fsLoad { FS.zero with disk := d } = { s with disk := d, inDirectBMap := fun _ => 0 } := by
  have hsuper : SuperBlock.codec.load (d 0) = s.superBlock := by
    rw [h.superBlock]
    exact load_store _ (show 4 + (4 + 504) ≤ 512 by decide) hinv.superBlockOk
  have hinodeMap : (fun k : Fin 64 => d 1 ⟨k, by omega⟩) = s.inodeMap := funext h.inodeMap
  have hinode : (fun n : Fin 512 => (inodeBlockCodec.load (d ⟨3 + n / 4, by omega⟩) : Arr 4 Inode)
      ⟨n % 4, Nat.mod_lt _ (by decide)⟩) = s.inode := by
    funext n
    have hok : inodeBlockCodec.Ok (inodesOf s.inode ⟨n / 4, by omega⟩) := fun k => (hinv.inodes _).codecOk
    have hload := load_store inodeBlockCodec (show 4 * 128 ≤ 512 by decide) hok
    rw [h.inodes ⟨n / 4, by omega⟩, hload]
    exact congrArg s.inode (Fin.ext (show (n : Nat) / 4 * 4 + n % 4 = n by omega))
  have hread : ({ FS.zero with disk := d } : FS).diskRead 131 (Dentry.codec.store 512 FS.zero.curDir) = d 131 :=
    diskRead_fin { FS.zero with disk := d } 131 _
  have hcurDir : Dentry.codec.load (d 131) = s.curDir := by
    rw [h.curDir]
    exact load_store _ (show 4 + (25 * (16 + 4) + 8) ≤ 512 by decide) hinv.curFits
  have hroot := congrFun hinode 0
  unfold fsLoad
  dsimp only at hroot ⊢
  rw [hsuper, hinodeMap, h.blockMap, hinode, hroot, hinv.rootBlock, hread, hcurDir, hinv.curDirBlock]
  rfl

end Image

/-! ## What comes back -/

/-- A `cd` that enters no removed directory. -/
def SafeCd (s : FS) (line : Line) : Prop := SafeStep s line ∧ ∃ name, line.command = .cd name

/-- The file system `m` has the contents of `s`, and its root is current.  The
entries of the other directories are those found on entering them. -/
structure SameContents (s m : FS) : Prop where
  superBlock : m.superBlock = s.superBlock
  inodeMap : m.inodeMap = s.inodeMap
  blockMap : m.blockMap = s.blockMap
  inode : m.inode = s.inode
  root : m.Current 0
  rootEntries : entries m.curDir = entries (s.dir 0)
  dirs : ∀ lines m', Run.Along step SafeCd m lines → Run.exec step m lines = some m' →
    ∀ i, m'.Current i → entries m'.curDir = entries (s.dir i)

section

variable {s s' : FS} {L : Set (Fin 4096)}

/-- Directories are the same in both states. -/
structure SameDirs (s s' : FS) : Prop where
  inode : s'.inode = s.inode
  live : ∀ i, s'.live i = s.live i
  dir : ∀ i, s.live i = true → (s.inode i).type = .directory → s'.dir i = s.dir i

theorem SameDirs.trans (h : SameDirs s s') (h' : SameDirs s' s'') : SameDirs s s'' :=
  ⟨h'.inode.trans h.inode, fun i => (h'.live i).trans (h.live i), fun i hlive htype =>
    (h'.dir i (by rw [h.live, hlive]) (by rw [h.inode, htype])).trans (h.dir i hlive htype)⟩

/-- **Changing the directory changes no directory.** -/
theorem dirChange_sameDirs (hinv : Inv L s)
    (hsafe : ∀ i : Fin 512, searchCurDir s name = some (i : Int) → (s.inode i).type = .directory → s.live i = true)
    (h : dirChange s name = some r) : Inv L r.fs ∧ SameDirs s r.fs := by
  obtain ⟨c, hcur, hclive, hctype⟩ := hinv.current
  have hflush := hinv.flush hcur hclive hctype
  have hsame : SameDirs s (s.flush c) :=
    ⟨flush_inode s c, flush_live s c, fun i => dir_flush hinv hcur hclive hctype⟩
  obtain ⟨r', hrun, hcase⟩ := dirChange_cases hinv hcur name
  obtain rfl := Option.some.inj (h.symm.trans hrun)
  rcases hcase with ⟨-, hfs, -⟩ | ⟨-, i, hsearch, htype, hfs⟩
  · rw [hfs]
    exact ⟨hflush, hsame⟩
  · have hlive := hsafe i hsearch htype
    have hself : (((s.flush c).dir i).dentry 0).inode = i := by
      rw [dir_flush hinv hcur hclive hctype hlive htype]
      exact (hinv.dirs i hlive htype).self
    rw [hfs]
    exact ⟨hinv.flush_enter hcur hlive htype, hsame.trans
      ⟨rfl, fun _ => rfl, fun j _ _ => FS.dir_enter (flushed_flush hinv hcur hclive hctype) hself j⟩⟩

theorem sameDirs_of_safeCd {m : FS} (hinv : Inv L m) (hsafe : Run.Along step SafeCd m lines)
    (h : Run.exec step m lines = some m') : Inv L m' ∧ SameDirs m m' :=
  Run.exec_along (fun m' => Inv L m' ∧ SameDirs m m')
    (fun s line s' ⟨hinv, hsame⟩ ⟨hsafe, name, hname⟩ hstep => by
      obtain ⟨env, command⟩ := line
      obtain rfl : command = .cd name := hname
      obtain ⟨r, hr, rfl⟩ := Option.map_eq_some_iff.mp hstep
      obtain ⟨hinv', hsame'⟩ := dirChange_sameDirs hinv hsafe hr
      exact ⟨hinv', hsame.trans hsame'⟩)
    lines ⟨hinv, rfl, fun _ => rfl, fun _ _ _ => rfl⟩ hsafe h

/-- The mounted image, if the root was current. -/
theorem sameContents_image (hinv : Inv L s) (hroot : s.Current 0) (h : Image s d) :
    SameContents s { s with disk := d, inDirectBMap := fun _ => 0 } := by
  have hfixed : ∀ b, Fixed s b → d b = s.disk b := fun b hb => by
    obtain ⟨i, k, hown, hcase⟩ := hb.owns hinv
    have hge := (hinv.owns_used hown).1
    refine h.rest b ?_
    by_contra hle
    obtain rfl : b = 131 := Fin.ext (by simp; omega)
    have hown0 : Owns s 0 0 131 := ⟨hinv.rootLive, by simp [ownedBlocks, hinv.rootType, hinv.rootBlock]⟩
    obtain ⟨rfl, -⟩ := hinv.unique i 0 k 0 131 hown hown0
    rcases hcase with ⟨hfile, -⟩ | ⟨-, hnot⟩
    · simp [hinv.rootType] at hfile
    · exact hnot hroot
  have hdisk := hinv.setDisk hfixed
  have hmounted : Inv L { s with disk := d, inDirectBMap := fun _ => 0 } :=
    { hdisk with
      counts := ⟨hinv.counts.inodes, hinv.counts.blocks⟩
      mapFits := fun _ => (by decide : Fits 0) }
  refine ⟨rfl, rfl, rfl, rfl, hroot, by rw [FS.dir_of_current hroot], fun lines m' hsafe hrun i hcur => ?_⟩
  obtain ⟨hinv', hsame⟩ := sameDirs_of_safeCd hmounted hsafe hrun
  obtain ⟨c, hcur', hlive, htype⟩ := hinv'.current
  obtain rfl := hcur.unique hcur'
  rw [hsame.live] at hlive
  rw [hsame.inode] at htype
  rw [← FS.dir_of_current hcur, hsame.dir i hlive htype]
  exact congrArg entries (dir_setDisk hinv hfixed hlive htype)

end

/-- **Unmount and mount**: after a safe run everything comes back iff the root
is the current directory. -/
theorem mount_umount_iff (hmount : fsMount env none = some s₀) (hsafe : Run.Along step SafeStep s₀ lines)
    (h : Run.exec step s₀ lines = some s) (env' : Env) (tail : Nat → Byte) :
    (∃ m, fsMount env' (some (fsUmount s tail)) = some m ∧ SameContents s m) ↔ s.Current 0 := by
  obtain ⟨L, hinv⟩ := inv_of_safe hmount hsafe h
  have himage := image_fsUmount hinv.curDirBlock tail
  have hload : fsMount env' (some (fsUmount s tail)) =
      some { s with disk := fsUmount s tail, inDirectBMap := fun _ => 0 } :=
    congrArg some (fsLoad_image hinv himage)
  rw [hload]
  constructor
  · rintro ⟨m, hm, hsame⟩
    obtain rfl := Option.some.inj hm
    exact hsame.root
  · exact fun hroot => ⟨_, rfl, sameContents_image hinv hroot himage⟩

/-- An unmount from the root, after `mkdir a`. -/
theorem mount_umount_iff_root : ∃ s₀ s, fsMount quiet none = some s₀ ∧
    Run.exec step s₀ [⟨quiet, .mkdir (letter 0)⟩] = some s ∧
    ((∃ m, fsMount quiet (some (fsUmount s fun _ => 0)) = some m ∧ SameContents s m) ↔ s.Current 0) := by
  have hsome : (Run.exec step (formatted quiet) [⟨quiet, .mkdir (letter 0)⟩]).isSome = true := by decide +kernel
  have hsafe : Run.Along step SafeStep (formatted quiet) [⟨quiet, .mkdir (letter 0)⟩] :=
    ⟨trivial, fun _ _ => trivial⟩
  obtain ⟨s, hs⟩ := Option.isSome_iff_exists.mp hsome
  exact ⟨formatted quiet, s, fsMount_none quiet, hs,
    mount_umount_iff (fsMount_none quiet) hsafe hs quiet fun _ => 0⟩

/-- After `mkdir a` and `cd a`, unmounting writes the directory `a` over the
root: mounting makes `a`'s entries, with `.` inode 1, the root directory. -/
theorem umount_overwrites_root :
    ∃ s, quietly [.mkdir (letter 0), .cd (letter 0)] = some s ∧
      ¬ ∃ m, fsMount quiet (some (fsUmount s fun _ => 0)) = some m ∧ SameContents s m := by
  have hlive : (step (formatted quiet) ⟨quiet, .mkdir (letter 0)⟩).map (fun s =>
      decide (∀ i : Fin 512, searchCurDir s (letter 0) = some (i : Int) → s.live i = true)) = some true := by
    decide +kernel
  have hrun : (Run.exec step (formatted quiet) [⟨quiet, .mkdir (letter 0)⟩, ⟨quiet, .cd (letter 0)⟩]).map
      (fun s => (s.curDir.dentry 0).inode) = some 1 := by decide +kernel
  have hsafe : Run.Along step SafeStep (formatted quiet)
      [⟨quiet, .mkdir (letter 0)⟩, ⟨quiet, .cd (letter 0)⟩] := by
    refine ⟨trivial, fun s₁ hs₁ => ⟨fun i hi _ => ?_, fun _ _ => trivial⟩⟩
    rw [hs₁, Option.map_some, Option.some.injEq, decide_eq_true_iff] at hlive
    exact hlive i hi
  obtain ⟨s, hs, hone⟩ := Option.map_eq_some_iff.mp hrun
  obtain ⟨L, hinv⟩ := inv_of_safe (fsMount_none quiet) hsafe hs
  refine ⟨s, by rw [quietly_eq]; exact hs, ?_⟩
  rintro ⟨m, hm, hsame⟩
  have hload : fsMount quiet (some (fsUmount s fun _ => 0)) =
      some { s with disk := fsUmount s fun _ => 0, inDirectBMap := fun _ => 0 } :=
    congrArg some (fsLoad_image hinv (image_fsUmount hinv.curDirBlock _))
  obtain rfl := Option.some.inj (hload.symm.trans hm)
  have hroot : (s.curDir.dentry 0).inode = ((0 : Fin 512) : Nat) := hsame.root
  rw [hone] at hroot
  exact absurd hroot (by decide)

end OperatingSystem.Fs
