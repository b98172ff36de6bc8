import Mathlib.Data.List.Induction
import Mathlib.Data.List.Infix

/-!
# OperatingSystem.Lib.Path

Lexical resolution of paths.  A directory is the list of names that lead to it,
and a path is a list of names two of which are special: `dot` stays, and
`dotdot` goes to the parent (of the root, to the root).  A path no prefix of which
has more `dotdot` than names stays below the directory it starts in
(`NeverClimbs.resolve_eq`).
-/

namespace Path

variable {ν : Type} [DecidableEq ν] (dot dotdot : ν)

/-- A name that leads down. -/
def Plain (name : ν) : Prop := name ≠ dot ∧ name ≠ dotdot

instance (name : ν) : Decidable (Plain dot dotdot name) := inferInstanceAs (Decidable (_ ∧ _))

/-- One name. -/
def step (dir : List ν) (name : ν) : List ν :=
  if name = dot then dir else if name = dotdot then dir.dropLast else dir ++ [name]

/-- The directory a path leads to from `dir`. -/
def resolve (dir path : List ν) : List ν := path.foldl (step dot dotdot) dir

/-- No prefix of the path goes up more often than down. -/
def NeverClimbs (path : List ν) : Prop :=
  ∀ pre, pre <+: path → pre.count dotdot ≤ pre.countP fun name => Plain dot dotdot name

instance (path : List ν) : Decidable (NeverClimbs dot dotdot path) :=
  decidable_of_iff (∀ pre ∈ path.inits, pre.count dotdot ≤ pre.countP fun name => Plain dot dotdot name) (by
    simp only [NeverClimbs, List.mem_inits])

variable {dot dotdot} {dir path : List ν} {name : ν}

@[simp] theorem resolve_nil (dir : List ν) : resolve dot dotdot dir [] = dir := rfl

theorem resolve_append (dir path path' : List ν) :
    resolve dot dotdot dir (path ++ path') = resolve dot dotdot (resolve dot dotdot dir path) path' :=
  List.foldl_append

@[simp] theorem resolve_singleton (dir : List ν) (name : ν) : resolve dot dotdot dir [name] = step dot dotdot dir name := rfl

theorem step_plain (h : Plain dot dotdot name) (dir : List ν) : step dot dotdot dir name = dir ++ [name] := by
  rw [step, if_neg h.1, if_neg h.2]

theorem resolve_plain (h : ∀ name ∈ path, Plain dot dotdot name) (dir : List ν) : resolve dot dotdot dir path = dir ++ path := by
  induction path using List.reverseRecOn with
  | nil => simp
  | append_singleton path name ih =>
      rw [resolve_append, ih fun n hn => h n (by simp [hn]), resolve_singleton, step_plain (h name (by simp)), List.append_assoc]

/-- One more name leads below `dir`, unless it goes up from `dir` itself. -/
theorem step_below (dir st : List ν) (name : ν) : dir <+: step dot dotdot (dir ++ st) name ∨ (name = dotdot ∧ st = []) := by
  rw [step]
  split
  · exact .inl (List.prefix_append dir st)
  · split
    · next hdot =>
        by_cases hst : st = []
        · exact .inr ⟨hdot, hst⟩
        · rw [List.dropLast_append_of_ne_nil hst]
          exact .inl (List.prefix_append dir _)
    · rw [List.append_assoc]
      exact .inl (List.prefix_append dir _)

namespace NeverClimbs

theorem of_prefix (h : NeverClimbs dot dotdot path) (hpre : path' <+: path) : NeverClimbs dot dotdot path' :=
  fun pre hpre' => h pre (hpre'.trans hpre)

/-- A path that ends with a name. -/
theorem concat (h : NeverClimbs dot dotdot path) (hname : Plain dot dotdot name) : NeverClimbs dot dotdot (path ++ [name]) := by
  intro pre hpre
  rcases List.prefix_concat_iff.mp hpre with rfl | hpre
  · have hle := h path List.prefix_rfl
    have hcount : [name].count dotdot = 0 := List.count_eq_zero.mpr fun hmem => hname.2 (List.mem_singleton.mp hmem).symm
    rw [List.count_append, List.countP_append, hcount]
    omega
  · exact h pre hpre

/-- **A path that never climbs stays below**: it leads down by as many names as it
has more than `dotdot`. -/
theorem resolve_eq (hne : dot ≠ dotdot) (h : NeverClimbs dot dotdot path) : ∃ st : List ν,
    st.length + path.count dotdot = path.countP (fun name => Plain dot dotdot name) ∧
      ∀ dir, resolve dot dotdot dir path = dir ++ st := by
  induction path using List.reverseRecOn with
  | nil => exact ⟨[], rfl, fun dir => by simp⟩
  | append_singleton path name ih =>
      obtain ⟨st, hlen, hst⟩ := ih (h.of_prefix (List.prefix_append path [name]))
      have hall := h _ List.prefix_rfl
      simp only [List.count_append, List.countP_append, List.count_singleton, List.countP_singleton, beq_iff_eq,
        decide_eq_true_eq, resolve_append, resolve_singleton, hst] at hall ⊢
      by_cases hdot : name = dot
      · have hplain : ¬ Plain dot dotdot name := fun hname => hname.1 hdot
        rw [if_neg (hdot ▸ hne), if_neg hplain]
        exact ⟨st, hlen, fun dir => if_pos hdot⟩
      by_cases hdotdot : name = dotdot
      · have hplain : ¬ Plain dot dotdot name := fun hname => hname.2 hdotdot
        rw [if_pos hdotdot, if_neg hplain] at hall ⊢
        -- the path before has led down by a name that is left to go up from
        have hpos : 0 < st.length := by omega
        refine ⟨st.dropLast, by rw [List.length_dropLast]; omega, fun dir => ?_⟩
        rw [step, if_neg hdot, if_pos hdotdot, List.dropLast_append_of_ne_nil (List.length_pos_iff.mp hpos)]
      · have hplain : Plain dot dotdot name := ⟨hdot, hdotdot⟩
        rw [if_neg hdotdot, if_pos hplain]
        refine ⟨st ++ [name], by rw [List.length_append, List.length_singleton]; omega, fun dir => ?_⟩
        rw [step_plain hplain, List.append_assoc]

/-- The same names lead down from every directory. -/
theorem exists_resolve (hne : dot ≠ dotdot) (h : NeverClimbs dot dotdot path) :
    ∃ st : List ν, ∀ dir, resolve dot dotdot dir path = dir ++ st := by
  obtain ⟨st, -, hst⟩ := h.resolve_eq hne
  exact ⟨st, hst⟩

end NeverClimbs

end Path
