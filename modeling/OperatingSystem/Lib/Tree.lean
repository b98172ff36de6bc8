import Mathlib.Data.List.Nodup

/-!
# OperatingSystem.Lib.Tree

Trees of directories and files, as their user sees them.  A node is a directory
with its entries or a file with its text, and one directory is current.  `Step`
says what may come of an action: it may be refused, and what is created gets a
node that was neither a directory nor a file before.

In a well-formed tree (`Wf`) the names of each directory are distinct and every
directory leads back to the one it was made in; steps keep it so (`Step.wf`).
Nothing is lost on the way: entries and texts stay (`Steps.text_kept`,
`Steps.mem_kept`), and a directory that is not current does not change at all
(`Step.dirs_kept`).
-/

structure DirTree (ν α β : Type*) where
  cur : ν
  dirs : ν → Option (List (α × ν))
  text : ν → Option (List β)

namespace DirTree

/-- What a user asks for; `look` changes nothing. -/
inductive Action (α β : Type*) where
  | create (name : α) (text : List β)
  | mkdir (name : α)
  | enter (name : α)
  | look

variable {ν α β : Type*}

/-- The tree with node `i` current. -/
def enter (t : DirTree ν α β) (i : ν) : DirTree ν α β := { t with cur := i }

section Add

variable [DecidableEq ν]

/-- The tree with a file `i` in the current directory, whose entries were `es`. -/
def addFile (t : DirTree ν α β) (es : List (α × ν)) (name : α) (i : ν) (w : List β) : DirTree ν α β where
  cur := t.cur
  dirs := Function.update t.dirs t.cur (some (es ++ [(name, i)]))
  text := Function.update t.text i (some w)

/-- The tree with a directory `i` in the current directory, whose entries were
`es`. -/
def addDir (dot dotdot : α) (t : DirTree ν α β) (es : List (α × ν)) (name : α) (i : ν) : DirTree ν α β where
  cur := t.cur
  dirs := Function.update (Function.update t.dirs t.cur (some (es ++ [(name, i)]))) i
    (some [(dot, i), (dotdot, t.cur)])
  text := t.text

end Add

/-- The node is neither a directory nor a file. -/
structure Fresh (t : DirTree ν α β) (i : ν) : Prop where
  noDir : t.dirs i = none
  noText : t.text i = none

/-- What may come of an action.  A file may hold less than was asked for. -/
inductive Step [DecidableEq ν] (dot dotdot : α) (t : DirTree ν α β) : Action α β → DirTree ν α β → Prop
  | refused : Step dot dotdot t a t
  | create (dir : t.dirs t.cur = some es) (new : name ∉ es.map Prod.fst) (fresh : t.Fresh i) (short : w' <+: w) :
      Step dot dotdot t (.create name w) (t.addFile es name i w')
  | mkdir (dir : t.dirs t.cur = some es) (new : name ∉ es.map Prod.fst) (fresh : t.Fresh i) :
      Step dot dotdot t (.mkdir name) (addDir dot dotdot t es name i)
  | enter (dir : t.dirs t.cur = some es) (named : (name, i) ∈ es) (isDir : (t.dirs i).isSome) :
      Step dot dotdot t (.enter name) (t.enter i)

/-- What may come of a list of actions. -/
inductive Steps [DecidableEq ν] (dot dotdot : α) (t : DirTree ν α β) : List (Action α β) → DirTree ν α β → Prop
  | refl : Steps dot dotdot t [] t
  | snoc (before : Steps dot dotdot t as t') (step : Step dot dotdot t' a t'') :
      Steps dot dotdot t (as ++ [a]) t''

/-- A well-formed tree. -/
structure Wf (dot dotdot : α) (t : DirTree ν α β) : Prop where
  cur : (t.dirs t.cur).isSome
  distinct : ∀ c es, t.dirs c = some es → (es.map Prod.fst).Nodup
  named : ∀ c es name i, t.dirs c = some es → (name, i) ∈ es → ¬ t.Fresh i
  parent : ∀ c es name i es', t.dirs c = some es → (name, i) ∈ es → name ≠ dot → name ≠ dotdot →
    t.dirs i = some es' → (dotdot, c) ∈ es'

section Fresh

variable {t : DirTree ν α β} {i c : ν}

theorem Fresh.ne_dir (h : t.Fresh i) (hc : t.dirs c = some es) : c ≠ i := by
  rintro rfl
  exact nomatch h.noDir.symm.trans hc

theorem Fresh.ne_file (h : t.Fresh i) (hc : t.text c = some w) : c ≠ i := by
  rintro rfl
  exact nomatch h.noText.symm.trans hc

theorem nodup_names_concat {es : List (α × ν)} (h : (es.map Prod.fst).Nodup) (hnew : name ∉ es.map Prod.fst) :
    ((es ++ [(name, i)]).map Prod.fst).Nodup := by
  rw [List.map_append, List.map_singleton, ← List.concat_eq_append]
  exact h.concat hnew

end Fresh

/-- The tree of one directory, that names itself. -/
def root [DecidableEq ν] (dot : α) (r : ν) : DirTree ν α β where
  cur := r
  dirs c := if c = r then some [(dot, r)] else none
  text := fun _ => none

/-! ## What stays -/

section Kept

variable [DecidableEq ν] {t t' : DirTree ν α β} {a : Action α β} {as : List (Action α β)} {dot dotdot : α} {i c : ν}
  {es : List (α × ν)} {w : List β}

/-- The entries of a directory only grow. -/
theorem Step.dirs_grow (h : Step dot dotdot t a t') (hc : t.dirs c = some es) :
    ∃ es', t'.dirs c = some es' ∧ es <+: es' := by
  cases h with
  | refused => exact ⟨es, hc, List.prefix_rfl⟩
  | create dir new fresh short =>
      by_cases hcur : c = t.cur
      · subst hcur
        obtain rfl := Option.some.inj (hc.symm.trans dir)
        exact ⟨_, Function.update_self _ _ _, List.prefix_append _ _⟩
      · exact ⟨es, (Function.update_of_ne hcur _ _).trans hc, List.prefix_rfl⟩
  | mkdir dir new fresh =>
      by_cases hcur : c = t.cur
      · subst hcur
        obtain rfl := Option.some.inj (hc.symm.trans dir)
        exact ⟨_, (Function.update_of_ne (fresh.ne_dir hc) _ _).trans (Function.update_self _ _ _),
          List.prefix_append _ _⟩
      · exact ⟨es, (Function.update_of_ne (fresh.ne_dir hc) _ _).trans ((Function.update_of_ne hcur _ _).trans hc),
          List.prefix_rfl⟩
  | enter dir named isDir => exact ⟨es, hc, List.prefix_rfl⟩

/-- **A directory that is not current does not change.** -/
theorem Step.dirs_kept (h : Step dot dotdot t a t') (hc : t.dirs c = some es) (hcur : c ≠ t'.cur) :
    t'.dirs c = some es := by
  cases h with
  | refused => exact hc
  | create dir new fresh short => exact (Function.update_of_ne hcur _ _).trans hc
  | mkdir dir new fresh =>
      exact (Function.update_of_ne (fresh.ne_dir hc) _ _).trans ((Function.update_of_ne hcur _ _).trans hc)
  | enter dir named isDir => exact hc

/-- **A file does not change.** -/
theorem Step.text_kept (h : Step dot dotdot t a t') (hi : t.text i = some w) : t'.text i = some w := by
  cases h with
  | refused => exact hi
  | create dir new fresh short => exact (Function.update_of_ne (fresh.ne_file hi) _ _).trans hi
  | mkdir dir new fresh => exact hi
  | enter dir named isDir => exact hi

/-- A node that is free was free before. -/
theorem Step.fresh (h : Step dot dotdot t a t') (hi : t'.Fresh i) : t.Fresh i := by
  refine ⟨Option.eq_none_iff_forall_ne_some.mpr fun es hes => ?_,
    Option.eq_none_iff_forall_ne_some.mpr fun w hw => hi.ne_file (h.text_kept hw) rfl⟩
  obtain ⟨es', hes', -⟩ := h.dirs_grow hes
  exact hi.ne_dir hes' rfl

theorem Steps.text_kept (h : Steps dot dotdot t as t') (hi : t.text i = some w) : t'.text i = some w := by
  induction h with
  | refl => exact hi
  | snoc _ hstep ih => exact hstep.text_kept ih

/-- An entry stays. -/
theorem Steps.mem_kept (h : Steps dot dotdot t as t') (hc : t.dirs c = some es) {e : α × ν}
    (hmem : e ∈ es) : ∃ es', t'.dirs c = some es' ∧ e ∈ es' := by
  induction h with
  | refl => exact ⟨es, hc, hmem⟩
  | snoc _ hstep ih =>
      obtain ⟨es', hes', hmem'⟩ := ih
      obtain ⟨es'', hes'', hprefix⟩ := hstep.dirs_grow hes'
      exact ⟨es'', hes'', hprefix.subset hmem'⟩

end Kept

/-! ## Well-formed trees -/

section Wf

variable [DecidableEq ν] {t t' : DirTree ν α β} {a : Action α β} {as : List (Action α β)} {dot dotdot : α}

theorem update_some_cases {f : ν → Option γ} {x y : γ} (h : Function.update f c (some x) d = some y) :
    (d = c ∧ x = y) ∨ (d ≠ c ∧ f d = some y) := by
  by_cases hd : d = c
  · subst hd
    rw [Function.update_self, Option.some.injEq] at h
    exact Or.inl ⟨rfl, h⟩
  · rw [Function.update_of_ne hd] at h
    exact Or.inr ⟨hd, h⟩

/-- A directory after a step was there before, or it was just made. -/
theorem Step.dirs_cases (h : Step dot dotdot t a t') (hc : t'.dirs c = some es') :
    (∃ es, t.dirs c = some es ∧ es <+: es') ∨
      (t.Fresh c ∧ (∃ name, a = .mkdir name) ∧ es' = [(dot, c), (dotdot, t.cur)]) := by
  cases h with
  | refused => exact Or.inl ⟨es', hc, List.prefix_rfl⟩
  | create dir new fresh short =>
      rcases update_some_cases hc with ⟨rfl, rfl⟩ | ⟨-, hc⟩
      · exact Or.inl ⟨_, dir, List.prefix_append _ _⟩
      · exact Or.inl ⟨es', hc, List.prefix_rfl⟩
  | mkdir dir new fresh =>
      rcases update_some_cases hc with ⟨rfl, rfl⟩ | ⟨-, hc⟩
      · exact Or.inr ⟨fresh, ⟨_, rfl⟩, rfl⟩
      · rcases update_some_cases hc with ⟨rfl, rfl⟩ | ⟨-, hc⟩
        · exact Or.inl ⟨_, dir, List.prefix_append _ _⟩
        · exact Or.inl ⟨es', hc, List.prefix_rfl⟩
  | enter dir named isDir => exact Or.inl ⟨es', hc, List.prefix_rfl⟩

/-- An entry after a step was there before, or it names a node that exists and
that leads back if it is a directory. -/
theorem Step.mem_cases (h : Step dot dotdot t a t') (hc : t'.dirs c = some es') (hmem : (name, i) ∈ es') :
    (∃ es, t.dirs c = some es ∧ (name, i) ∈ es) ∨
      (¬ t'.Fresh i ∧ (name ≠ dot → name ≠ dotdot → ∀ es, t'.dirs i = some es → (dotdot, c) ∈ es)) := by
  have hfree : ∀ i, t'.Fresh i → t.Fresh i := fun _ => h.fresh
  cases h with
  | refused => exact Or.inl ⟨es', hc, hmem⟩
  | create dir new fresh short =>
      rcases update_some_cases hc with ⟨rfl, rfl⟩ | ⟨-, hc⟩
      · rcases List.mem_append.mp hmem with hmem | hmem
        · exact Or.inl ⟨_, dir, hmem⟩
        · obtain ⟨rfl, rfl⟩ := Prod.mk.inj (List.mem_singleton.mp hmem)
          refine Or.inr ⟨fun hfresh => hfresh.ne_file (Function.update_self _ _ _) rfl, fun _ _ es hes => ?_⟩
          rcases update_some_cases hes with ⟨rfl, -⟩ | ⟨-, hes⟩
          · exact absurd rfl (fresh.ne_dir dir)
          · exact absurd rfl (fresh.ne_dir hes)
      · exact Or.inl ⟨es', hc, hmem⟩
  | mkdir dir new fresh =>
      rcases update_some_cases hc with ⟨rfl, rfl⟩ | ⟨-, hc⟩
      · refine Or.inr ?_
        rcases List.mem_cons.mp hmem with heq | hmem
        · obtain ⟨rfl, rfl⟩ := Prod.mk.inj heq
          exact ⟨fun hfresh => hfresh.ne_dir hc rfl, fun hdot => absurd rfl hdot⟩
        · obtain ⟨rfl, rfl⟩ := Prod.mk.inj (List.mem_singleton.mp hmem)
          exact ⟨fun hfresh => (hfree _ hfresh).ne_dir dir rfl, fun _ hdotdot => absurd rfl hdotdot⟩
      · rcases update_some_cases hc with ⟨rfl, rfl⟩ | ⟨-, hc⟩
        · rcases List.mem_append.mp hmem with hmem | hmem
          · exact Or.inl ⟨_, dir, hmem⟩
          · obtain ⟨rfl, rfl⟩ := Prod.mk.inj (List.mem_singleton.mp hmem)
            refine Or.inr ⟨fun hfresh => hfresh.ne_dir (Function.update_self _ _ _) rfl, fun _ _ es hes => ?_⟩
            rcases update_some_cases hes with ⟨-, rfl⟩ | ⟨hne, -⟩
            · exact List.mem_cons_of_mem _ List.mem_cons_self
            · exact absurd rfl hne
        · exact Or.inl ⟨es', hc, hmem⟩
  | enter dir named isDir => exact Or.inl ⟨es', hc, hmem⟩

theorem Step.distinct (h : Step dot dotdot t a t') (hwf : t.Wf dot dotdot) (hdots : dot ≠ dotdot)
    (hc : t'.dirs c = some es') : (es'.map Prod.fst).Nodup := by
  cases h with
  | refused => exact hwf.distinct c es' hc
  | create dir new fresh short =>
      rcases update_some_cases hc with ⟨rfl, rfl⟩ | ⟨-, hc⟩
      · exact nodup_names_concat (hwf.distinct _ _ dir) new
      · exact hwf.distinct c es' hc
  | mkdir dir new fresh =>
      rcases update_some_cases hc with ⟨rfl, rfl⟩ | ⟨-, hc⟩
      · simpa using hdots
      · rcases update_some_cases hc with ⟨rfl, rfl⟩ | ⟨-, hc⟩
        · exact nodup_names_concat (hwf.distinct _ _ dir) new
        · exact hwf.distinct c es' hc
  | enter dir named isDir => exact hwf.distinct c es' hc

theorem Step.cur_isSome (h : Step dot dotdot t a t') (hwf : t.Wf dot dotdot) : (t'.dirs t'.cur).isSome := by
  obtain ⟨es, hes⟩ := Option.isSome_iff_exists.mp hwf.cur
  obtain ⟨es', hes', -⟩ := h.dirs_grow hes
  cases h with
  | enter dir named isDir => exact isDir
  | _ => exact Option.isSome_iff_exists.mpr ⟨es', hes'⟩

theorem wf_root (dot dotdot : α) (r : ν) : (root dot r : DirTree ν α β).Wf dot dotdot := by
  have hdirs : ∀ c es, (root dot r : DirTree ν α β).dirs c = some es → c = r ∧ es = [(dot, r)] := fun c es hc => by
    simpa [root, eq_comm] using hc
  have hr : (root dot r : DirTree ν α β).dirs r = some [(dot, r)] := if_pos rfl
  refine ⟨Option.isSome_iff_exists.mpr ⟨_, hr⟩, fun c es hc => ?_, fun c es name i hc hmem hfresh => ?_,
    fun c es name i es' hc hmem hdot _ _ => ?_⟩ <;> obtain ⟨rfl, rfl⟩ := hdirs c es hc
  · exact List.nodup_singleton _
  · obtain ⟨-, rfl⟩ := Prod.mk.inj (List.mem_singleton.mp hmem)
    exact hfresh.ne_dir hr rfl
  · exact absurd (Prod.mk.inj (List.mem_singleton.mp hmem)).1 hdot

/-- **Steps keep a tree well formed.** -/
theorem Step.wf (h : Step dot dotdot t a t') (hwf : t.Wf dot dotdot) (hdots : dot ≠ dotdot) :
    t'.Wf dot dotdot := by
  refine ⟨h.cur_isSome hwf, fun c es' => h.distinct hwf hdots, fun c es' name i hc hmem hfresh => ?_,
    fun c es' name i es'' hc hmem hdot hdotdot hi => ?_⟩
  · rcases h.mem_cases hc hmem with ⟨es, hes, hmem⟩ | ⟨hnot, -⟩
    · exact hwf.named c es name i hes hmem (h.fresh hfresh)
    · exact hnot hfresh
  · rcases h.mem_cases hc hmem with ⟨es, hes, hmem⟩ | ⟨-, hback⟩
    · rcases h.dirs_cases hi with ⟨es₀, hes₀, hprefix⟩ | ⟨hfresh, -, -⟩
      · exact hprefix.subset (hwf.parent c es name i es₀ hes hmem hdot hdotdot hes₀)
      · exact absurd hfresh (hwf.named c es name i hes hmem)
    · exact hback hdot hdotdot es'' hi

theorem Steps.wf (h : Steps dot dotdot t as t') (hwf : t.Wf dot dotdot) (hdots : dot ≠ dotdot) :
    t'.Wf dot dotdot := by
  induction h with
  | refl => exact hwf
  | snoc _ hstep ih => exact hstep.wf ih hdots

end Wf

end DirTree
