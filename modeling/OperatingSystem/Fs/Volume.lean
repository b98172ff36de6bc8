import Mathlib.Data.Set.Card
import OperatingSystem.Fs.Listing

/-!
# OperatingSystem.Fs.Volume

A tree and the number of free blocks: all that decides whether something new fits.
The inodes need no number, since the nodes of the tree and the free inodes are 512
together (`FS.Counts.free_add_nodes`).  What a command prints when it refuses follows from
the volume: `CreateRefused` and `MkdirRefused` for new names, `Refuses` for the
others.
-/

namespace OperatingSystem.Fs

structure Volume extends DirTree Int (List Byte) Byte where
  /-- The number of free blocks. -/
  free : Int

instance : Coe Volume Tree := ⟨Volume.toDirTree⟩

/-- The volume a state stands for. -/
def FS.volume (s : FS) : Volume := ⟨s.tree, s.superBlock.freeBlockCount⟩

@[simp] theorem volume_tree (s : FS) : s.volume.toDirTree = s.tree := rfl

@[simp] theorem volume_free (s : FS) : s.volume.free = s.superBlock.freeBlockCount := rfl

theorem FS.volume_eq {s : FS} (htree : s.tree = t) (hfree : s.superBlock.freeBlockCount = n) : s.volume = ⟨t, n⟩ := by
  rw [← htree, ← hfree]
  rfl

/-- A disk where there is only the root. -/
def Volume.blank : Volume := ⟨DirTree.root dot.1 0, 3964⟩

theorem volume_formatted (env : Env) : (formatted env).volume = .blank :=
  FS.volume_eq (tree_formatted env) rfl

/-- The directories and files of a tree. -/
def nodes (t : Tree) : Set Int := {x | ¬ t.Fresh x}

/-- The node a new name gets. -/
structure FirstFresh (t : Tree) (i : Fin 512) : Prop where
  fresh : t.Fresh i
  first : ∀ j < i, ¬ t.Fresh (j : Fin 512)

/-- The current directory, with entries `es`, takes another name. -/
structure HasRoom (t : Tree) (name : Name) (es : List (List Byte × Int)) : Prop where
  dir : t.dirs t.cur = some es
  new : name.1 ∉ es.map Prod.fst
  room : es.length < 24

/-! ## Refusals -/

/-- Why a small file, or the first part of a large one, is not made, and what is
printed. -/
inductive CreateRefused (v : Volume) (name : Name) (size : Int) : Printf → Prop
  | present (leads : Leads v name i) : CreateRefused v name size (.name "File create failed:  %s exist.\n" name.1)
  | full (dir : v.dirs v.cur = some es) (new : name.1 ∉ es.map Prod.fst) (full : 24 ≤ es.length) :
      CreateRefused v name size (.text "File create failed: directory is full!\n")
  | space (room : HasRoom v name es) (blocks : v.free < blocksFor size) :
      CreateRefused v name size (.text "File create failed: not enough space\n")
  | inodes (room : HasRoom v name es) (blocks : blocksFor size ≤ v.free) (inodes : (nodes v).ncard = 512) :
      CreateRefused v name size (.text "File create failed: not enough inode\n")

/-- Why a directory is not made, and what is printed. -/
inductive MkdirRefused (v : Volume) (name : Name) : Printf → Prop
  | present (leads : Leads v name i) : MkdirRefused v name (.name "Directory create failed:  %s exist.\n" name.1)
  | full (dir : v.dirs v.cur = some es) (new : name.1 ∉ es.map Prod.fst) (full : 24 ≤ es.length) :
      MkdirRefused v name (.text "Directory create failed: directory is full!\n")
  | inodes (room : HasRoom v name es) (inodes : (nodes v).ncard = 512) :
      MkdirRefused v name (.text "Directory create failed: not enough inode\n")
  | space (room : HasRoom v name es) (inodes : (nodes v).ncard < 512) (blocks : v.free < 1) :
      MkdirRefused v name (.text "Directory create failed: not enough space\n")

/-- The node is of this type. -/
def HasType (t : Tree) (i : Int) : TYPE → Prop
  | .file => (t.text i).isSome
  | .directory => (t.dirs i).isSome

/-- Why a command that wants a node of some type refuses: the name leads nowhere, and it
prints `absent`, or to a node of the other type, and it prints `other`. -/
inductive Refuses (t : Tree) (name : Name) (wanted : TYPE) (absent other : Printf) : Printf → Prop
  | nowhere (leads : ∀ i, ¬ Leads t name i) : Refuses t name wanted absent other absent
  | mistyped (leads : Leads t name i) (type : ¬ HasType t i wanted) : Refuses t name wanted absent other other

theorem Leads.unique {t : Tree} (hwf : t.Wf dot.1 dotdot.1) (h : Leads t name x) (h' : Leads t name y) : x = y := by
  obtain ⟨es, hes, hx⟩ := h
  obtain ⟨es', hes', hy⟩ := h'
  obtain rfl := Option.some.inj (hes.symm.trans hes')
  exact congrArg Prod.snd (List.inj_on_of_nodup_map (hwf.distinct _ _ hes) hx hy rfl)

/-- A name that is refused does not lead to a node of that type. -/
theorem Refuses.not_hasType {t : Tree} (h : Refuses t name wanted absent other p) (hwf : t.Wf dot.1 dotdot.1)
    (hleads : Leads t name i) : ¬ HasType t i wanted := by
  cases h with
  | nowhere none => exact absurd hleads (none i)
  | mistyped leads type => rwa [hleads.unique hwf leads]

/-! ## The volume of a state -/

section Volume

variable {s s' : FS} {L : Set (Fin 4096)} {name : Name} {i c : Fin 512} {size : Int}

/-- The nodes of the tree are the inodes in use. -/
theorem nodes_eq (s : FS) :
    nodes s.tree = Nat.cast '' ((Finset.range 512).filter fun i => Bitmap.getBit s.inodeMap i = true : Set Nat) := by
  ext x
  constructor
  · intro hx
    obtain ⟨i, rfl⟩ := exists_inode hx
    have hlive : s.live i = true := Bool.not_eq_false _ ▸ fun hfree => hx (fresh_iff.mpr hfree)
    exact ⟨i, Finset.mem_coe.mpr (Finset.mem_filter.mpr ⟨Finset.mem_range.mpr i.isLt, hlive⟩), rfl⟩
  · intro ⟨i, hi, hx⟩ hfresh
    obtain ⟨hlt, hbit⟩ := Finset.mem_filter.mp (Finset.mem_coe.mp hi)
    subst hx
    have hfree : s.live ⟨i, Finset.mem_range.mp hlt⟩ = false := fresh_iff.mp hfresh
    exact nomatch hfree.symm.trans hbit

/-- **No inode is lost.** -/
theorem FS.Counts.free_add_nodes (hc : s.Counts) : s.superBlock.freeInodeCount + (nodes s.tree).ncard = 512 := by
  have hbits : _ + ((Finset.range 512).filter fun i => Bitmap.getBit s.inodeMap i = true).card = 512 :=
    Bitmap.zeroBits_add_card s.inodeMap
  rw [hc.inodes, nodes_eq, Set.ncard_image_of_injective _ Nat.cast_injective, Set.ncard_coe_finset]
  omega

theorem FS.FirstFree.fresh (h : s.FirstFree i) : FirstFresh s.tree i where
  fresh := fresh_iff.mpr h.free
  first j hj hfresh := nomatch (h.first j hj).symm.trans (fresh_iff.mp hfresh)

theorem length_entries (hd : Table d) : (entries d).length = d.numEntry.toNat := by
  have hle := hd.le
  simp only [entries, List.length_map, List.length_take, List.length_finRange]
  omega

/-- A name of the current directory leads to an inode. -/
theorem leads_cases (hinv : Inv L s) (name : Name) :
    (∃ i : Fin 512, searchCurDir s name = some (i : Int) ∧ ∀ j, Leads s.tree name j ↔ j = i) ∨
      (searchCurDir s name = some (-1) ∧ ∀ j, ¬ Leads s.tree name j) := by
  obtain ⟨c, hcur, hlive, htype⟩ := hinv.current
  have hd := (hinv.curDir hcur hlive htype).toTable
  have hleads : ∀ j, Leads s.tree name j → ∃ k : Fin 25, (k : Int) < s.curDir.numEntry ∧
      cstr (s.curDir.dentry k).name = name.1 ∧ (s.curDir.dentry k).inode = j := by
    intro j ⟨es, hes, hmem⟩
    obtain rfl := Option.some.inj ((tree_dirs_cur hinv).symm.trans hes)
    exact mem_entries.mp hmem
  obtain ⟨-, -, -, i, -, hsearch⟩ | ⟨hnone, hsearch⟩ := searchCurDir_cases hd name
  · refine Or.inl ⟨i, hsearch, fun j => ⟨fun hj => ?_, fun hj => by rw [hj]; exact (leads_iff hinv).mpr hsearch⟩⟩
    obtain ⟨k, hk, -, hinode⟩ := hleads j hj
    obtain ⟨j', hj'⟩ := hd.inode k hk
    obtain rfl : j = j' := hinode.symm.trans hj'
    have hsearch' := (leads_iff hinv).mp hj
    exact Option.some.inj (hsearch'.symm.trans hsearch)
  · refine Or.inr ⟨hsearch, fun j hj => ?_⟩
    obtain ⟨k, hk, hname, -⟩ := hleads j hj
    exact hnone k hk hname

/-- A name that is found leads somewhere. -/
theorem leads_of_found (hinv : Inv L s) (hfound : searchCurDir s name = some x) (h0 : 0 ≤ x) :
    ∃ i, Leads s.tree name i := by
  obtain ⟨i, -, hiff⟩ | ⟨hnone, -⟩ := leads_cases hinv name
  · exact ⟨i, (hiff i).mpr rfl⟩
  · have heq := Option.some.inj (hfound.symm.trans hnone)
    omega

/-- A name that is not found is new. -/
theorem new_of_absent (hinv : Inv L s) (hfound : searchCurDir s name = some x) (hneg : x < 0) :
    name.1 ∉ (entries s.curDir).map Prod.fst := by
  obtain ⟨c, hcur, hlive, htype⟩ := hinv.current
  intro hmem
  obtain ⟨e, he, hname⟩ := List.mem_map.mp hmem
  obtain ⟨k, hk, hk', -⟩ := mem_entries.mp he
  have hd := (hinv.curDir hcur hlive htype).toTable
  exact (absent_of_negative hd ⟨x, hfound, hneg⟩).2 k hk (hk'.trans hname)

/-- A full directory has 24 entries. -/
theorem Inv.full_iff (hinv : Inv L s) : s.curDir.Full ↔ 24 ≤ (entries s.curDir).length := by
  obtain ⟨c, hcur, hlive, htype⟩ := hinv.current
  have hd := hinv.curDir hcur hlive htype
  have hpos := hd.pos
  rw [length_entries hd.toTable, Dentry.Full]
  omega

theorem hasRoom_of_absent (hinv : Inv L s) (hfound : searchCurDir s name = some x) (hneg : x < 0)
    (hroom : ¬ s.curDir.Full) : HasRoom s.tree name (entries s.curDir) := by
  rw [hinv.full_iff, not_le] at hroom
  exact ⟨tree_dirs_cur hinv, new_of_absent hinv hfound hneg, hroom⟩

/-- What was made had a place. -/
theorem CreateStep.hasRoom (hinv : Inv L s) (h : CreateStep s name i n bs s') :
    HasRoom s.tree name (entries s.curDir) := by
  obtain ⟨c, hcur, hlive, htype⟩ := hinv.current
  have hlen := length_entries (hinv.curDir hcur hlive htype).toTable
  have hroom := h.room
  exact ⟨tree_dirs_cur hinv, h.new_name, by omega⟩

theorem NewFile.hasRoom (hinv : Inv L s) (h : NewFile s name size tmp i n s') :
    HasRoom s.tree name (entries s.curDir) := by
  obtain ⟨bs, hstep⟩ := h.step
  exact hstep.hasRoom hinv

/-- **A file that was made**, in the volume. -/
theorem NewFile.volume (hinv : Inv L s) (h : NewFile s name size tmp i n s') (hw : fileText s' n = w) :
    s'.volume = ⟨s.tree.addFile (entries s.curDir) name.1 i w, s.superBlock.freeBlockCount - createBlocks size⟩ := by
  obtain ⟨bs, hstep⟩ := h.step
  exact FS.volume_eq (by rw [hstep.tree_file hinv h.type, hw]) h.free

/-- **Why `file_create` refuses**, in terms of the volume. -/
theorem SmallRefused.volume (hinv : Inv L s) (h : SmallRefused s name size p) : CreateRefused s.volume name size p := by
  have hnodes := hinv.counts.free_add_nodes
  have hzero := hinv.counts.inodes
  cases h with
  | present found inode =>
      obtain ⟨i, hleads⟩ := leads_of_found hinv found inode
      exact .present hleads
  | full found absent full => exact .full (tree_dirs_cur hinv) (new_of_absent hinv found absent) (hinv.full_iff.mp full)
  | space found absent room blocks => exact .space (hasRoom_of_absent hinv found absent room) blocks
  | inodes found absent room blocks inodes =>
      refine .inodes (hasRoom_of_absent hinv found absent room) blocks ?_
      rw [volume_tree]
      omega

/-- **Why `dir_make` refuses**, in terms of the volume. -/
theorem DirRefused.volume (hinv : Inv L s) (h : DirRefused s name p) : MkdirRefused s.volume name p := by
  have hnodes := hinv.counts.free_add_nodes
  have hzero := hinv.counts.inodes
  cases h with
  | present found inode =>
      obtain ⟨i, hleads⟩ := leads_of_found hinv found inode
      exact .present hleads
  | full found absent full => exact .full (tree_dirs_cur hinv) (new_of_absent hinv found absent) (hinv.full_iff.mp full)
  | inodes found absent room inodes =>
      refine .inodes (hasRoom_of_absent hinv found absent room) ?_
      rw [volume_tree]
      omega
  | space found absent room inodes blocks =>
      refine .space (hasRoom_of_absent hinv found absent room) ?_ blocks
      rw [volume_tree]
      omega

/-- A name leads to a file, to a directory or nowhere. -/
inductive Named (s : FS) (name : Name) : Prop
  | file {i : Fin 512} (target : Target s name .file i) (leads : ∀ j, Leads s.tree name j ↔ j = i)
      (text : s.tree.text i = some (fileText s (s.inode i))) (noDir : s.tree.dirs i = none)
  | directory {i : Fin 512} (target : Target s name .directory i) (leads : ∀ j, Leads s.tree name j ↔ j = i)
      (noText : s.tree.text i = none) (listing : s.tree.dirs i = some (entries (s.dir i)))
  | nowhere (search : searchCurDir s name = some (-1)) (leads : ∀ j, ¬ Leads s.tree name j)

theorem named_of_inv (hinv : Inv L s) (hwf : s.tree.Wf dot.1 dotdot.1) (name : Name) : Named s name := by
  obtain ⟨i, hi, hiff⟩ | ⟨hi, hnone⟩ := leads_cases hinv name
  · have hlive := live_of_search hinv hwf hi
    cases htype : (s.inode i).type with
    | file =>
        refine .file ⟨hi, hlive, htype⟩ hiff ?_ ?_
        · rw [tree_text]
          exact text_eq_some.mpr ⟨hlive, htype, rfl⟩
        · rw [tree_dirs, FS.listing, if_neg]
          exact fun h => absurd (htype.symm.trans h.2) (by decide)
    | directory =>
        refine .directory ⟨hi, hlive, htype⟩ hiff ?_ ?_
        · rw [tree_text, FS.text, if_neg]
          exact fun h => absurd (htype.symm.trans h.2) (by decide)
        · rw [tree_dirs]
          exact listing_eq_some.mpr ⟨hlive, htype, rfl⟩
  · exact .nowhere hi hnone

end Volume

end OperatingSystem.Fs
