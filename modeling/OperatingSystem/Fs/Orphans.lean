import OperatingSystem.Fs.Tree
import OperatingSystem.Fs.Removal
import OperatingSystem.Lib.Rooted

/-!
# OperatingSystem.Fs.Orphans

When every inode in use hangs on the root by exactly one entry.  `create` and
`mkdir` add a leaf and `cd` moves; `rm` and `rmdir` take a leaf away if the
compaction is clean and the directory is empty, which `dir_remove` does not
check (`no_orphans_of_run`).
-/

namespace OperatingSystem.Fs

/-! ## Specification -/

/-- Entry `k` of directory `c`, neither `.` nor `..`, is that of inode `i`. -/
structure IsEntry (s : FS) (c : Fin 512) (k : Fin 25) (i : Fin 512) : Prop where
  live : s.live c = true
  typed : (s.inode c).type = .directory
  lt : (k : Int) < (s.dir c).numEntry
  inode : ((s.dir c).dentry k).inode = i
  name : cstr ((s.dir c).dentry k).name ≠ dot.1 ∧ cstr ((s.dir c).dentry k).name ≠ dotdot.1

/-- No inode is orphaned, and no entry dangles. -/
structure NoOrphans (s : FS) : Prop where
  named : ∀ c, s.live c = true → (s.inode c).type = .directory → ∀ k : Fin 25, (k : Int) < (s.dir c).numEntry →
    ∃ i : Fin 512, ((s.dir c).dentry k).inode = i ∧ s.live i = true
  once : ∀ i, s.live i = true → i ≠ 0 → ∃! p : Fin 512 × Fin 25, IsEntry s p.1 p.2 i
  reached : ∀ i, s.live i = true → Relation.ReflTransGen (fun c i => ∃ k, IsEntry s c k i) 0 i
  current : ∃ c, s.Current c ∧ s.live c = true ∧ (s.inode c).type = .directory

/-- The directory has no entries besides `.` and `..`. -/
def IsEmpty (s : FS) (i : Fin 512) : Prop :=
  ∀ k : Fin 25, (k : Int) < (s.dir i).numEntry →
    cstr ((s.dir i).dentry k).name = dot.1 ∨ cstr ((s.dir i).dentry k).name = dotdot.1

instance (s : FS) (i : Fin 512) : Decidable (IsEmpty s i) := by
  unfold IsEmpty
  infer_instance

/-- Nothing called `..` is made; `rm` and `rmdir` compact the directory cleanly;
`rmdir` removes an empty directory, and not as `.`; a write stays inside the
file it names. -/
def TidyStep (s : FS) (line : Line) : Prop :=
  match line.command with
  | .create name size => name = dotdot → size < 70656 → ¬ ChecksPass s name (min size 5119)
  | .mkdir name => name = dotdot → ¬ DirChecksPass s name
  | .rm name => ∀ i, Target s name .file i → CleanHole s name i
  | .rmdir name => ∀ i, Target s name .directory i → name ≠ dot ∧ IsEmpty s i ∧ CleanHole s name i
  | .write name offset size buf => size = buf.length → StaysInside s name offset buf
  | _ => True

/-! ## Names as edges -/

/-- Directory `c` has an entry `a`, neither `.` nor `..`, of inode `i`. -/
def Names (s : FS) (c : Fin 512) (a : List Byte) (i : Fin 512) : Prop :=
  (∃ es, s.listing c = some es ∧ (a, (i : Int)) ∈ es) ∧ a ≠ dot.1 ∧ a ≠ dotdot.1

/-- The inodes in use hang on the root; `.` is the directory itself and `..` the
one that names it. -/
structure Planted (s : FS) : Prop where
  rooted : Rooted (fun i => s.live i = true) (Names s) 0
  self : ∀ {d es x}, s.listing d = some es → ((dot.1, x) ∈ es ↔ x = ((d : Fin 512) : Int))
  parent : ∀ {d es x}, s.listing d = some es → (dotdot.1, x) ∈ es → ∃ p a, x = ((p : Fin 512) : Int) ∧ Names s p a d

section Planted

variable {s s' : FS} {L : Set (Fin 4096)} {c d i j : Fin 512} {a : List Byte}

theorem names_iff : Names s c a i ↔ ∃ k, IsEntry s c k i ∧ cstr ((s.dir c).dentry k).name = a := by
  constructor
  · rintro ⟨⟨es, hes, hmem⟩, hdot, hdotdot⟩
    obtain ⟨hlive, htype, rfl⟩ := listing_eq_some.mp hes
    obtain ⟨k, hk, rfl, hi⟩ := mem_entries.mp hmem
    exact ⟨k, ⟨hlive, htype, hk, hi, hdot, hdotdot⟩, rfl⟩
  · rintro ⟨k, h, rfl⟩
    exact ⟨⟨_, listing_eq_some.mpr ⟨h.live, h.typed, rfl⟩, mem_entries.mpr ⟨k, h.lt, rfl, h.inode⟩⟩, h.name⟩

theorem names_of_listing (hes : s.listing c = some es) :
    Names s c a i ↔ (a, (i : Int)) ∈ es ∧ a ≠ dot.1 ∧ a ≠ dotdot.1 := by
  simp [Names, hes]

theorem Planted.same (h : Planted s) (hlisting : s'.listing = s.listing) (hlive : ∀ i, s'.live i = s.live i) :
    Planted s' := by
  have hnames : Names s' = Names s := by
    unfold Names
    rw [hlisting]
  have hlives : (fun i => s'.live i = true) = fun i => s.live i = true := funext fun i => by rw [hlive]
  refine ⟨?_, fun {d es x} hes => ?_, fun {d es x} hes => ?_⟩
  · rw [hnames, hlives]
    exact h.rooted
  · rw [hlisting] at hes
    exact h.self hes
  · rw [hlisting] at hes
    rw [hnames]
    exact h.parent hes

/-- Every entry leads to an inode in use. -/
theorem Planted.live_of_mem (h : Planted s) (hes : s.listing c = some es) (hmem : (a, (i : Int)) ∈ es) :
    s.live i = true := by
  by_cases hdot : a = dot.1
  · rw [hdot, h.self hes] at hmem
    obtain rfl : i = c := Fin.ext (by omega)
    exact (listing_eq_some.mp hes).1
  by_cases hdotdot : a = dotdot.1
  · rw [hdotdot] at hmem
    obtain ⟨p, b, hp, hnames⟩ := h.parent hes hmem
    obtain rfl : i = p := Fin.ext (by omega)
    exact h.rooted.source hnames
  · exact h.rooted.target ⟨⟨_, hes, hmem⟩, hdot, hdotdot⟩

/-- **The specification follows.** -/
theorem Planted.noOrphans (h : Planted s) (hinv : Inv L s) : NoOrphans s := by
  refine ⟨fun c hlive htype k hk => ?_, fun i hlive hi => ?_, fun i hlive => ?_, hinv.current⟩
  · obtain ⟨i, hi⟩ := (hinv.dirs c hlive htype).inode k hk
    exact ⟨i, hi, h.live_of_mem (listing_eq_some.mpr ⟨hlive, htype, rfl⟩) (mem_entries.mpr ⟨k, hk, rfl, hi⟩)⟩
  · obtain ⟨⟨c, a⟩, hnames, honly⟩ := h.rooted.existsUnique hlive hi
    obtain ⟨k, hentry, hname⟩ := names_iff.mp hnames
    refine ⟨(c, k), hentry, fun ⟨c', k'⟩ hentry' => ?_⟩
    obtain ⟨rfl, rfl⟩ := Prod.mk.inj
      (honly (c', cstr ((s.dir c').dentry k').name) (names_iff.mpr ⟨k', hentry', rfl⟩))
    have hd := hinv.dirs c' hentry.live hentry.typed
    rw [hd.distinct k' k hentry'.lt hentry.lt hname.symm]
  · refine Relation.ReflTransGen.mono (fun c j ⟨a, hnames⟩ => ?_) _ _ (h.rooted.reach hlive)
    obtain ⟨k, hentry, -⟩ := names_iff.mp hnames
    exact ⟨k, hentry⟩

/-- Where the entries called `.` and `..` stay, they are right. -/
theorem Planted.dots_kept {es es' : List (List Byte × Int)} (h : Planted s) (hes : s.listing d = some es)
    (hkept : ∀ b x, b = dot.1 ∨ b = dotdot.1 → ((b, x) ∈ es' ↔ (b, x) ∈ es)) :
    ((dot.1, x) ∈ es' ↔ x = d) ∧
      ((dotdot.1, x) ∈ es' → ∃ p b, x = ((p : Fin 512) : Int) ∧ Names s p b d) := by
  rw [hkept _ _ (Or.inl rfl), hkept _ _ (Or.inr rfl)]
  exact ⟨h.self hes, h.parent hes⟩

/-- What the names `.` and `..` lead to: the current directory, and one that
names it. -/
theorem Planted.target_dots (h : Planted s) (hinv : Inv L s) (hcur : s.Current c) (htarget : Target s name type i) :
    (name.1 = dot.1 → i = c) ∧ (name.1 = dotdot.1 → ∃ a, Names s i a c) := by
  have hes := hinv.listing_current hcur
  have hmem := hinv.search_iff.mp htarget.search
  constructor <;> intro hname <;> rw [hname] at hmem
  · have := (h.self hes).mp hmem
    exact Fin.ext (by omega)
  · obtain ⟨p, a, hp, hnames⟩ := h.parent hes hmem
    obtain rfl : i = p := Fin.ext (by omega)
    exact ⟨a, hnames⟩

/-! ## Creating -/

section Create

variable (h : Planted s) (hinv : Inv L s) (hstep : CreateStep s name i n bs s')

include hinv hstep

/-- The other directories keep their entries, and at most get one called
`name`. -/
theorem CreateStep.kept (hdi : d ≠ i) (hes' : s'.listing d = some es') :
    ∃ es, s.listing d = some es ∧ ∀ b x, b ≠ name.1 → ((b, x) ∈ es' ↔ (b, x) ∈ es) := by
  by_cases hcur : s.Current d
  · rw [hstep.listing_current hinv hcur] at hes'
    obtain rfl := Option.some.inj hes'
    exact ⟨_, hinv.listing_current hcur, fun b x hb => by simp [hb]⟩
  · rw [hstep.listing_other hinv hdi hcur] at hes'
    exact ⟨es', hes', fun b x _ => Iff.rfl⟩

include h

theorem Planted.new_ne_dot : name.1 ≠ dot.1 := fun heq => by
  obtain ⟨c, hcur, -⟩ := hinv.current
  exact hstep.new_name (List.mem_map.mpr ⟨_, (h.self (hinv.listing_current hcur)).mpr rfl, heq.symm⟩)

/-- One new edge. -/
theorem Planted.create_names (hcur : s.Current c) (hname : name.1 ≠ dotdot.1)
    (hnew : ∀ es, s'.listing i = some es → es = [(dot.1, (i : Int)), (dotdot.1, (c : Int))]) :
    Names s' d b j ↔ Names s d b j ∨ (d = c ∧ b = name.1 ∧ j = i) := by
  have hci := hstep.ne_current hinv hcur
  by_cases hdi : d = i
  · subst hdi
    refine iff_of_false ?_ ?_
    · rintro ⟨⟨es, hd, hmem⟩, hb, hb'⟩
      rw [hnew es hd] at hmem
      simp_all
    · rintro (hnames | ⟨rfl, -⟩)
      · exact absurd (h.rooted.source hnames) (by simp [hstep.free])
      · exact hci rfl
  by_cases hdc : d = c
  · subst hdc
    rw [names_of_listing (hinv.listing_current hcur), names_of_listing (hstep.listing_current hinv hcur),
      List.mem_append, List.mem_singleton, Prod.mk.injEq]
    constructor
    · rintro ⟨hmem | ⟨hb, hj⟩, hdots⟩
      · exact Or.inl ⟨hmem, hdots⟩
      · exact Or.inr ⟨rfl, hb, Fin.ext (by omega)⟩
    · rintro (⟨hmem, hdots⟩ | ⟨-, rfl, rfl⟩)
      · exact ⟨Or.inl hmem, hdots⟩
      · exact ⟨Or.inr ⟨rfl, rfl⟩, h.new_ne_dot hinv hstep, hname⟩
  · unfold Names
    rw [hstep.listing_other hinv hdi fun hd => hdc (hd.unique hcur)]
    simp [hdc]

/-- **Creating** adds a leaf: a file, or a directory whose entries are `.` and
`..`. -/
theorem Planted.create (hcur : s.Current c) (hname : name.1 ≠ dotdot.1)
    (hnew : ∀ es, s'.listing i = some es → es = [(dot.1, (i : Int)), (dotdot.1, (c : Int))]) : Planted s' := by
  obtain ⟨c', hcur', hclive, -⟩ := hinv.current
  obtain rfl := hcur.unique hcur'
  have hedge : ∀ {d b j}, Names s' d b j ↔ Names s d b j ∨ (d = c ∧ b = name.1 ∧ j = i) :=
    h.create_names hinv hstep hcur hname hnew
  have hdot := h.new_ne_dot hinv hstep
  have hdots : ∀ {d es es'}, s.listing d = some es → (∀ b x, b ≠ name.1 → ((b, x) ∈ es' ↔ (b, x) ∈ es)) →
      ∀ x, ((dot.1, x) ∈ es' ↔ x = ((d : Fin 512) : Int)) ∧
        ((dotdot.1, x) ∈ es' → ∃ p b, x = ((p : Fin 512) : Int) ∧ Names s p b d) := fun hes hkept x =>
    h.dots_kept hes fun b x hb => hkept b x fun hbn => hb.elim (fun h => hdot (hbn.symm.trans h))
      fun h => hname (hbn.symm.trans h)
  refine ⟨h.rooted.add hclive (by simp [hstep.free]) hstep.live fun _ _ _ => hedge, fun {d es' x} hes' => ?_,
    fun {d es' x} hes' hx => ?_⟩
  · by_cases hdi : d = i
    · subst hdi
      simp [hnew _ hes', dots_distinct]
    · obtain ⟨es, hes, hkept⟩ := hstep.kept hinv hdi hes'
      exact (hdots hes hkept x).1
  · by_cases hdi : d = i
    · subst hdi
      have hxc : x = c := by simpa [hnew _ hes', dots_distinct.symm] using hx
      exact ⟨c, name.1, hxc, hedge.mpr (Or.inr ⟨rfl, rfl, rfl⟩)⟩
    · obtain ⟨es, hes, hkept⟩ := hstep.kept hinv hdi hes'
      obtain ⟨p, b, hp, hnames⟩ := (hdots hes hkept x).2 hx
      exact ⟨p, b, hp, hedge.mpr (Or.inl hnames)⟩

end Create

/-! ## Removing -/

section Remove

variable (h : Planted s) (hinv : Inv L s) (hstep : RemoveStep s i freed s')
  (hsearch : searchCurDir s name = some (i : Int)) (hclean : CleanHole s name i)

theorem RemoveStep.listing_gone (hstep : RemoveStep s i freed s') : s'.listing i = none := by
  rw [FS.listing, if_neg fun hi => ((hstep.live i).mp hi.1).1 rfl]

include hinv hstep

theorem RemoveStep.listing_current (hcur : s.Current c) : s'.listing c = some (entries s'.curDir) := by
  have hci : c ≠ i := by
    rintro rfl
    exact hstep.other hcur
  obtain ⟨hclive, hctype, -⟩ := listing_eq_some.mp (hinv.listing_current hcur)
  refine listing_eq_some.mpr ⟨(hstep.live c).mpr ⟨hci, hclive⟩, by rw [hstep.inode c hci]; exact hctype, ?_⟩
  rw [FS.dir_of_current ((hstep.current_iff hinv c).mpr hcur)]

theorem RemoveStep.listing_other (hdi : d ≠ i) (hcur : ¬ s.Current d) : s'.listing d = s.listing d :=
  listing_congr (by rw [Bool.eq_iff_iff, hstep.live, and_iff_right hdi]) (by rw [hstep.inode d hdi])
    fun _ _ => hstep.dir_other hinv hdi hcur

include hsearch hclean

/-- The other directories keep their entries, but for the one called `name`. -/
theorem RemoveStep.kept (hes' : s'.listing d = some es') :
    ∃ es, s.listing d = some es ∧ ∀ b x, b ≠ name.1 → ((b, x) ∈ es' ↔ (b, x) ∈ es) := by
  have hdi : d ≠ i := by
    rintro rfl
    simp [hstep.listing_gone] at hes'
  by_cases hcur : s.Current d
  · obtain ⟨hclive, hctype, -⟩ := listing_eq_some.mp (hinv.listing_current hcur)
    rw [hstep.listing_current hinv hcur] at hes'
    obtain rfl := Option.some.inj hes'
    refine ⟨_, hinv.listing_current hcur, fun b x hb => ?_⟩
    rw [hstep.curDir.mem_entries (hinv.curDir hcur hclive hctype).toTable hsearch hclean, and_iff_left hb]
  · rw [hstep.listing_other hinv hdi hcur] at hes'
    exact ⟨es', hes', fun b x _ => Iff.rfl⟩

include h

/-- The edges to the inode are gone. -/
theorem Planted.remove_names (hdots : name.1 ≠ dot.1 ∧ name.1 ≠ dotdot.1) (hleaf : ∀ b j, ¬ Names s i b j) :
    Names s' d b j ↔ Names s d b j ∧ j ≠ i := by
  obtain ⟨c, hcur, hclive, hctype⟩ := hinv.current
  have hes := hinv.listing_current hcur
  have hnames : Names s c name.1 i := ⟨⟨_, hes, hinv.search_iff.mp hsearch⟩, hdots⟩
  by_cases hdi : d = i
  · subst hdi
    refine iff_of_false ?_ fun hd => hleaf b j hd.1
    rintro ⟨⟨es, hd, -⟩, -⟩
    simp [hstep.listing_gone] at hd
  by_cases hdc : d = c
  · subst hdc
    rw [names_of_listing (hstep.listing_current hinv hcur), names_of_listing hes,
      hstep.curDir.mem_entries (hinv.curDir hcur hclive hctype).toTable hsearch hclean]
    constructor
    · rintro ⟨⟨hb, hne⟩, hbdots⟩
      refine ⟨⟨hb, hbdots⟩, ?_⟩
      rintro rfl
      exact hne (h.rooted.unique ⟨⟨_, hes, hb⟩, hbdots⟩ hnames).2
    · rintro ⟨⟨hb, hbdots⟩, hji⟩
      refine ⟨⟨hb, ?_⟩, hbdots⟩
      rintro rfl
      have hfound := hinv.search_iff.mpr hb
      rw [hsearch, Option.some.injEq] at hfound
      exact hji (Fin.ext (by omega))
  · have hiff : Names s' d b j ↔ Names s d b j := by
      unfold Names
      rw [hstep.listing_other hinv hdi fun hd => hdc (hd.unique hcur)]
    rw [hiff, iff_self_and]
    rintro hd rfl
    exact hdc (h.rooted.unique hd hnames).1

/-- **Removing** takes a leaf away, if the compaction is clean. -/
theorem Planted.remove (hdots : name.1 ≠ dot.1 ∧ name.1 ≠ dotdot.1) (hleaf : ∀ b j, ¬ Names s i b j) : Planted s' := by
  have hedge : ∀ {d b j}, Names s' d b j ↔ Names s d b j ∧ j ≠ i :=
    h.remove_names hinv hstep hsearch hclean hdots hleaf
  have hkept : ∀ {d es'}, s'.listing d = some es' → ∀ x, ((dot.1, x) ∈ es' ↔ x = ((d : Fin 512) : Int)) ∧
      ((dotdot.1, x) ∈ es' → ∃ p b, x = ((p : Fin 512) : Int) ∧ Names s p b d) := fun hes' x => by
    obtain ⟨es, hes, hkept⟩ := hstep.kept hinv hsearch hclean hes'
    exact h.dots_kept hes fun b x hb => hkept b x fun hbn => hb.elim (fun h => hdots.1 (hbn.symm.trans h))
      fun h => hdots.2 (hbn.symm.trans h)
  refine ⟨h.rooted.remove hstep.root hleaf hstep.live fun _ _ _ => hedge, fun {d es' x} hes' => (hkept hes' x).1,
    fun {d es' x} hes' hx => ?_⟩
  obtain ⟨p, b, hp, hnames⟩ := (hkept hes' x).2 hx
  refine ⟨p, b, hp, hedge.mpr ⟨hnames, ?_⟩⟩
  rintro rfl
  simp [hstep.listing_gone] at hes'

end Remove

/-! ## Commands -/

section Commands

variable (h : Planted s) (hinv : Inv L s)

include h hinv

theorem Planted.newFile (hnew : NewFile s name size tmp i n s') (hname : name ≠ dotdot) :
    (∃ L, Inv L s') ∧ Planted s' := by
  obtain ⟨c, hcur, -⟩ := hinv.current
  obtain ⟨bs, hcreate⟩ := hnew.step
  refine ⟨⟨L, hcreate.inv hinv⟩, h.create hinv hcreate hcur (fun heq => hname (Subtype.ext heq)) fun es hes => ?_⟩
  have htype := (listing_eq_some.mp hes).2.1
  simp [hcreate.inode, hnew.type] at htype

theorem Planted.fileCreate (htidy : name = dotdot → size < 70656 → ¬ ChecksPass s name (min size 5119))
    (hrun : Fs.fileCreate s env name size = some r) : (∃ L, Inv L r.fs) ∧ Planted r.fs := by
  by_cases hname : name = dotdot
  · rw [fileCreate_fs env hinv.counts hrun (htidy hname)]
    exact ⟨⟨L, hinv⟩, h⟩
  obtain ⟨r', hrun', hcase⟩ := fileCreate_cases hinv env name (fileCreate_some env hinv.counts hrun).1
  obtain rfl := Option.some.inj (hrun.symm.trans hrun')
  rcases hcase with ⟨-, hfs | ⟨i, n, hnew⟩⟩ | ⟨-, i, n, hnew⟩
  · rw [hfs]
    exact ⟨⟨L, hinv⟩, h⟩
  · exact h.newFile hinv hnew hname
  · exact h.newFile hinv hnew hname

theorem Planted.dirMake (htidy : name = dotdot → ¬ DirChecksPass s name) (hrun : Fs.dirMake s env name = some r) :
    (∃ L, Inv L r.fs) ∧ Planted r.fs := by
  obtain ⟨c, hcur, hclive, hctype⟩ := hinv.current
  obtain ⟨r', hrun', hcase⟩ := dirMake_cases hinv env name hcur
  obtain rfl := Option.some.inj (hrun.symm.trans hrun')
  rcases hcase with ⟨-, hfs⟩ | ⟨-, i, n, b, hcreate, -, hstored⟩
  · rw [hfs]
    exact ⟨⟨L, hinv⟩, h⟩
  have hname : name.1 ≠ dotdot.1 := fun heq => by
    obtain ⟨x, hsearch⟩ := searchCurDir_some (hinv.curDir hcur hclive hctype).toTable name
    obtain ⟨out, -, hrefused⟩ := dirMake_refused env hsearch (htidy (Subtype.ext heq))
    obtain rfl := Option.some.inj (hrun.symm.trans hrefused)
    have hlive := (hcreate.live i).mpr (Or.inl rfl)
    simp [hcreate.free] at hlive
  refine ⟨⟨L, hcreate.inv hinv⟩, h.create hinv hcreate hcur hname fun es hes => ?_⟩
  have hic : ¬ r.fs.Current i := fun hi =>
    hcreate.ne_current hinv hcur (hcur.unique ((hcreate.current_iff hinv i).mp hi))
  rw [← (listing_eq_some.mp hes).2.2, FS.dir_of_not_current hic, hstored, entries_subDir]

/-- A removal that reaches the compaction takes a leaf away. -/
theorem Planted.unlinked (htarget : Target s name type i) (hunlinked : Unlinked s i freed t)
    (hclean : CleanHole s name i) (hdots : name.1 ≠ dot.1 ∧ name.1 ≠ dotdot.1) (hleaf : ∀ b j, ¬ Names s i b j)
    (hrun : (removeEntry t (i : Fin 512)).map (fun s' => (⟨0, out, s'⟩ : Ret)) = some r) :
    (∃ L, Inv L r.fs) ∧ Planted r.fs := by
  obtain ⟨c, hcur, -⟩ := hinv.current
  have hnames : Names s c name.1 i :=
    ⟨⟨_, hinv.listing_current hcur, hinv.search_iff.mp htarget.search⟩, hdots⟩
  have hroot : i ≠ 0 := by
    rintro rfl
    exact h.rooted.top hnames
  have hother : ¬ s.Current i := fun hi => by
    obtain rfl := hcur.unique hi
    exact hleaf _ _ hnames
  obtain ⟨s', hentry, rfl⟩ := Option.map_eq_some_iff.mp hrun
  have hstep := removeStep_of_unlinked hinv htarget hroot hother hunlinked hentry
  exact ⟨⟨_, hstep.inv hinv⟩, h.remove hinv hstep htarget.search hclean hdots hleaf⟩

theorem Planted.fileRemove (htidy : ∀ i, Target s name .file i → CleanHole s name i)
    (hrun : Fs.fileRemove s name = some r) : (∃ L, Inv L r.fs) ∧ Planted r.fs := by
  obtain ⟨c, hcur, -⟩ := hinv.current
  rcases fileRemove_cases hinv name with ⟨-, out, hrun'⟩ | ⟨i, freed, t, out, htarget, hunlinked, hrun'⟩
  · rw [← Option.some.inj (hrun'.symm.trans hrun)]
    exact ⟨⟨L, hinv⟩, h⟩
  -- a file is no directory
  have hleaf : ∀ b j, ¬ Names s i b j := by
    rintro b j ⟨⟨es, hes, -⟩, -⟩
    have htype := (listing_eq_some.mp hes).2.1
    simp [htarget.typed] at htype
  obtain ⟨hdot, hdotdot⟩ := h.target_dots hinv hcur htarget
  refine h.unlinked hinv htarget hunlinked (htidy i htarget) ⟨fun heq => ?_, fun heq => ?_⟩ hleaf (hrun'.symm.trans hrun)
  · exact (htarget.file_ne hinv).2 (hdot heq ▸ hcur)
  · obtain ⟨a, hnames⟩ := hdotdot heq
    exact hleaf a c hnames

theorem Planted.dirRemove
    (htidy : ∀ i, Target s name .directory i → name ≠ dot ∧ IsEmpty s i ∧ CleanHole s name i)
    (hrun : Fs.dirRemove s name = some r) : (∃ L, Inv L r.fs) ∧ Planted r.fs := by
  obtain ⟨c, hcur, -⟩ := hinv.current
  rcases dirRemove_cases hinv name with ⟨-, out, hrun'⟩ | ⟨i, freed, t, out, htarget, hunlinked, hrun'⟩
  · rw [← Option.some.inj (hrun'.symm.trans hrun)]
    exact ⟨⟨L, hinv⟩, h⟩
  obtain ⟨hdot, hempty, hclean⟩ := htidy i htarget
  have hleaf : ∀ b j, ¬ Names s i b j := fun b j hnames => by
    obtain ⟨k, hentry, -⟩ := names_iff.mp hnames
    exact (hempty k hentry.lt).elim hentry.name.1 hentry.name.2
  refine h.unlinked hinv htarget hunlinked hclean ⟨fun heq => hdot (Subtype.ext heq), fun heq => ?_⟩ hleaf
    (hrun'.symm.trans hrun)
  -- the parent directory names the current one
  obtain ⟨a, hnames⟩ := (h.target_dots hinv hcur htarget).2 heq
  exact hleaf a c hnames

theorem Planted.dirChange (hrun : Fs.dirChange s name = some r) : (∃ L, Inv L r.fs) ∧ Planted r.fs := by
  obtain ⟨c, hcur, -⟩ := hinv.current
  obtain ⟨hinv', hsame⟩ := dirChange_sameDirs hinv
    (fun i hi _ => h.live_of_mem (hinv.listing_current hcur) (hinv.search_iff.mp hi)) hrun
  exact ⟨⟨L, hinv'⟩, h.same (funext fun i => listing_congr (hsame.live i) (by rw [hsame.inode]) (hsame.dir i))
    hsame.live⟩

theorem Planted.fileWrite (htidy : size = buf.length → StaysInside s name offset buf)
    (hrun : Fs.fileWrite s env name offset size buf = some r) : (∃ L, Inv L r.fs) ∧ Planted r.fs := by
  obtain ⟨hfs, hdata⟩ := fileWrite_isDataOf htidy hrun
  have hfixed : ∀ b, Fixed s b → r.fs.disk b = s.disk b := fun b hb => by
    by_contra hne
    exact (hdata b hne).not_fixed hinv hb
  rw [hfs]
  exact ⟨⟨L, hinv.setDisk hfixed⟩, h.same (funext fun i => listing_congr rfl rfl fun hlive htype =>
    dir_setDisk hinv hfixed hlive htype) fun _ => rfl⟩

/-- **The step lemma**: a tidy step keeps the inodes hanging on the root. -/
theorem Planted.step (htidy : TidyStep s line) (hstep : Fs.step s line = some s') :
    (∃ L, Inv L s') ∧ Planted s' := by
  obtain ⟨env, command⟩ := line
  obtain ⟨r, hrun, rfl⟩ := Option.map_eq_some_iff.mp hstep
  cases command with
  | create name size => exact h.fileCreate hinv htidy hrun
  | cat name =>
      rw [fileCat_fs hrun]
      exact ⟨⟨L, hinv⟩, h⟩
  | write name offset size buf => exact h.fileWrite hinv htidy hrun
  | read name offset size =>
      rw [fileRead_fs hrun]
      exact ⟨⟨L, hinv⟩, h⟩
  | rm name => exact h.fileRemove hinv htidy hrun
  | mkdir name =>
      simp only [execute] at hrun
      exact h.dirMake hinv htidy hrun
  | rmdir name => exact h.dirRemove hinv htidy hrun
  | cd name => exact h.dirChange hinv hrun

end Commands

end Planted

/-- In a fresh file system only the root is in use. -/
theorem planted_formatted (env : Env) : Planted (formatted env) := by
  have hlisting : ∀ {d es}, (formatted env).listing d = some es → d = 0 ∧ es = [(dot.1, 0)] := by
    intro d es hes
    rw [listing_formatted, Function.update_apply] at hes
    split at hes
    · next hd => exact ⟨hd, (Option.some.inj hes).symm⟩
    · contradiction
  have hnames : Names (formatted env) = fun _ _ _ => False := by
    funext c a i
    refine eq_false fun ⟨⟨es, hes, hmem⟩, hdot, _⟩ => ?_
    obtain ⟨rfl, rfl⟩ := hlisting hes
    simp_all
  have hlive : (fun i => (formatted env).live i = true) = (· = 0) := funext fun i => propext (live_formatted env i)
  refine ⟨?_, fun {d es x} hes => ?_, fun {d es x} hes hx => ?_⟩
  · rw [hnames, hlive]
    exact Rooted.single 0
  · obtain ⟨rfl, rfl⟩ := hlisting hes
    simp
  · obtain ⟨rfl, rfl⟩ := hlisting hes
    simp [dots_distinct.symm] at hx

/-- **No orphans**: in every state reached by a tidy run, the inodes in use hang
on the root, each named once, and no entry dangles. -/
theorem no_orphans_of_run (hmount : fsMount env none = some s₀) (htidy : Run.Along step TidyStep s₀ lines)
    (h : Run.exec step s₀ lines = some s) : NoOrphans s := by
  rw [fsMount_none, Option.some.injEq] at hmount
  subst hmount
  obtain ⟨⟨L, hinv⟩, hplanted⟩ := Run.exec_along (fun s => (∃ L, Inv L s) ∧ Planted s)
    (fun s line s' ⟨⟨L, hinv⟩, hplanted⟩ htidy hstep => hplanted.step hinv htidy hstep) lines
    ⟨⟨∅, inv_formatted env⟩, planted_formatted env⟩ htidy h
  exact hplanted.noOrphans hinv

/-- A file and a directory come and go. -/
theorem no_orphans_of_run_emptied : ∃ s, quietly [.mkdir (letter 0), .create (letter 1) 1, .rm (letter 1),
    .rmdir (letter 0)] = some s ∧ NoOrphans s := by
  have hfacts : ((Run.exec step (formatted quiet) [⟨quiet, .mkdir (letter 0)⟩, ⟨quiet, .create (letter 1) 1⟩]).bind
      fun s => (step s ⟨quiet, .rm (letter 1)⟩).bind fun s' => (step s' ⟨quiet, .rmdir (letter 0)⟩).map fun _ =>
        decide (Target s (letter 1) .file 2 ∧ CleanHole s (letter 1) 2 ∧ Target s' (letter 0) .directory 1 ∧
          IsEmpty s' 1 ∧ CleanHole s' (letter 0) 1)) = some true := by
    decide +kernel
  obtain ⟨s, hs, hfacts⟩ := Option.bind_eq_some_iff.mp hfacts
  obtain ⟨s', hs', hfacts⟩ := Option.bind_eq_some_iff.mp hfacts
  obtain ⟨t, ht, hfacts⟩ := Option.map_eq_some_iff.mp hfacts
  obtain ⟨hfile, hclean, hdir, hempty, hclean'⟩ := of_decide_eq_true hfacts
  obtain ⟨s₁, hmkdir, hcreate⟩ := Option.bind_eq_some_iff.mp hs
  rw [Run.exec_single] at hcreate
  have hrun : Run.exec step (formatted quiet) [⟨quiet, .mkdir (letter 0)⟩, ⟨quiet, .create (letter 1) 1⟩,
      ⟨quiet, .rm (letter 1)⟩, ⟨quiet, .rmdir (letter 0)⟩] = some t := by
    simp only [Run.exec, hmkdir, hcreate, hs', ht, Option.bind_some]
  refine ⟨t, by rw [quietly_eq]; exact hrun, no_orphans_of_run (fsMount_none quiet) ?_ hrun⟩
  refine ⟨fun h => absurd h (by decide), fun m hm => ⟨fun h => absurd h (by decide), fun m' hm' => ?_⟩⟩
  obtain rfl := Option.some.inj (hmkdir.symm.trans hm)
  obtain rfl := Option.some.inj (hcreate.symm.trans hm')
  refine ⟨fun i hi => hi.unique hfile.search ▸ hclean, fun m'' hm'' => ⟨fun i hi => ?_, fun _ _ => trivial⟩⟩
  obtain rfl := Option.some.inj (hs'.symm.trans hm'')
  obtain rfl := hi.unique hdir.search
  exact ⟨by decide, hempty, hclean'⟩

/-- In the directory `a`, inode 1, with the files `x`, inode 3, and `y`, inode 4:
`rm x` keeps the entry of `x`, frees its inode and drops the entry of `y`. -/
theorem removal_orphans : ∃ s, quietly [.mkdir (letter 0), .create (letter 1) 1, .cd (letter 0),
      .create (letter 23) 1, .create (letter 24) 1, .rm (letter 23)] = some s ∧
    s.live 1 = true ∧ (s.inode 1).type = .directory ∧ (s.dir 1).numEntry = 3 ∧
    ((s.dir 1).dentry 2).inode = 3 ∧ s.live 3 = false ∧
    s.live 4 = true ∧ (∀ k : Fin 25, (k : Int) < (s.dir 1).numEntry → ((s.dir 1).dentry k).inode ≠ 4) ∧ ¬ NoOrphans s := by
  have hfacts : (Run.exec step (formatted quiet) ([.mkdir (letter 0), .create (letter 1) 1, .cd (letter 0),
      .create (letter 23) 1, .create (letter 24) 1, .rm (letter 23)].map (Line.mk quiet))).map (fun s =>
        decide (s.live 1 = true ∧ (s.inode 1).type = .directory ∧ (s.dir 1).numEntry = 3 ∧
          ((s.dir 1).dentry 2).inode = 3 ∧ s.live 3 = false ∧ s.live 4 = true ∧
          ∀ k : Fin 25, (k : Int) < (s.dir 1).numEntry → ((s.dir 1).dentry k).inode ≠ 4)) = some true := by
    decide +kernel
  obtain ⟨s, hs, hval⟩ := Option.map_eq_some_iff.mp hfacts
  obtain ⟨hlive, htype, hnum, hinode, hfree, horphan, hnone⟩ := of_decide_eq_true hval
  refine ⟨s, by rw [quietly_eq]; exact hs, hlive, htype, hnum, hinode, hfree, horphan, hnone, fun h => ?_⟩
  obtain ⟨i, hi, hilive⟩ := h.named 1 hlive htype 2 (by rw [hnum]; decide)
  obtain rfl : i = 3 := Fin.ext (by simp; omega)
  exact nomatch hfree.symm.trans hilive

end OperatingSystem.Fs
