import OperatingSystem.Lib.Paging
import OperatingSystem.Vm.Checked
import OperatingSystem.Vm.Lru
import OperatingSystem.Vm.Main
import OperatingSystem.Vm.Transparency

/-!
# OperatingSystem.Vm.Trace

What the simulator prints for the bytes it reads.  Its lines are requests
(`readRequests`), and it passes these to `MMU`, one after another (`mainLoop_eq`).
It ends unless a request that `MMU` does not refuse is outside the tables, or
LRU meets the page of its first request again in the second (`main_eq_none_iff`).
Its lines are a legal trace of a pager (`main_translates`).
-/

namespace OperatingSystem.Vm

open Stdio (lines atoi str)
open Paging (Access Held)
open Checked (Refused)

/-! ## Requests -/

/-- The requests in the lines, and whether the lines are read to the end. -/
def readRequests (rnd : Nat → Nat) : Nat → List (List Byte) → List Request × Bool
  | _, [] => ([], true)
  | k, input :: inputs =>
      if input.head? = some 35 then readRequests rnd k inputs
      else
        match scanRequest input with
        | none => ([], false)
        | some (pid, type, addr) =>
            let rest := readRequests rnd (k + 1) inputs
            (⟨pid, addr, type, rnd k⟩ :: rest.1, rest.2)

/-- The requests one after another, each with its reply. -/
def serveAll : State → Bool → Bool → List Request → Option (List (Request × Reply) × State)
  | s, _, _, [] => some ([], s)
  | s, hit, tlbhit, r :: rs => do
      let (s, rep) ← mmu s r.pid r.addr r.type r.rnd hit tlbhit
      let (served, s) ← serveAll s rep.hit rep.tlbhit rs
      return ((r, rep) :: served, s)

/-- The lines for a request. -/
def report (p : Request × Reply) : List Output :=
  mmuOutput p.1.pid p.1.addr ++ [.translated p.1.pid p.1.type p.2.tlbhit p.2.hit p.1.addr p.2.physicalAddr]

/-- What comes behind the last request. -/
def ending (complete : Bool) (s : State) : List Output :=
  if complete then [ptPrintStats s, diskPrintStats s] else [.invalidFormat]

/-- **The loop** reads requests, serves them and reports. -/
theorem mainLoop_eq (rnd : Nat → Nat) (k : Nat) (inputs : List (List Byte)) (s : State) (hit tlbhit : Bool) :
    mainLoop rnd k inputs s hit tlbhit = (serveAll s hit tlbhit (readRequests rnd k inputs).1).map fun p =>
      p.1.flatMap report ++ ending (readRequests rnd k inputs).2 p.2 := by
  induction inputs generalizing k s hit tlbhit with
  | nil => rfl
  | cons input inputs ih =>
      rw [mainLoop, readRequests]
      split
      · exact ih k s hit tlbhit
      · cases scanRequest input with
        | none => rfl
        | some q =>
            obtain ⟨pid, type, addr⟩ := q
            dsimp only
            rw [serveAll]
            cases mmu s pid addr type (rnd k) hit tlbhit with
            | none => rfl
            | some p =>
                obtain ⟨s', rep⟩ := p
                simp only [Option.bind_eq_bind, Option.bind_some, ih]
                cases serveAll s' rep.hit rep.tlbhit (readRequests rnd (k + 1) inputs).1 with
                | none => rfl
                | some p => simp [report]

/-- The request gets past the guards of `MMU`. -/
def admitted (r : Request) : Bool := ¬ Refused r.pid r.addr

section Mmu

variable {s s' : State} {r : Request} {rep : Reply} {policy : Policy} {reqs : List Request}

theorem mmu_refused (h : ¬ admitted r = true) (hit tlbhit : Bool) :
    mmu s r.pid r.addr r.type r.rnd hit tlbhit = some (s, ⟨-1, hit, tlbhit⟩) := by
  have hr : Refused r.pid r.addr := by simpa [admitted] using h
  unfold mmu
  obtain h | h := hr
  · exact if_pos h
  · by_cases hp : r.addr.shiftRight 8 > maxPage
    · exact if_pos hp
    · exact (if_neg hp).trans (if_pos h)

/-- The flags matter only for a request that is refused. -/
theorem mmu_admitted (h : admitted r = true) (hit tlbhit : Bool) :
    mmu s r.pid r.addr r.type r.rnd hit tlbhit = request s r := by
  have hr : ¬ Refused r.pid r.addr := by simpa [admitted] using h
  rw [Refused, not_or] at hr
  unfold request mmu
  dsimp only
  rw [if_neg hr.1, if_neg hr.2, if_neg hr.1, if_neg hr.2]

theorem index_eq_none {n : Nat} {i : Int} (h : ¬ (0 ≤ i ∧ i < n)) : index n i = none := dif_neg h

/-- A request that gets past the guards and is outside the tables has undefined
behaviour. -/
theorem valid_of_request (h : admitted r = true) (hreq : request s r = some (s', rep)) : r.Valid := by
  have hr : ¬ Refused r.pid r.addr := by simpa [admitted] using h
  rw [Refused, not_or] at hr
  by_contra hv
  rw [request, mmu, if_neg hr.1, if_neg hr.2] at hreq
  by_cases hpid : 0 ≤ r.pid ∧ r.pid < maxPid
  · rw [index_eq_none (n := maxPage) fun hpage => hv ⟨hpid, hpage⟩] at hreq
    cases hp : index maxPid r.pid <;> simp [hp] at hreq
  · simp [index_eq_none hpid] at hreq

theorem admitted_of_valid (h : r.Valid) : admitted r = true := by
  have hr : ¬ Refused r.pid r.addr := by
    obtain ⟨⟨-, hp⟩, -, ha⟩ := h
    unfold Refused
    omega
  simpa [admitted] using hr

/-- **A request that returns** is a hit, a load or an eviction. -/
theorem request_cases (hinv : Inv s) (hvalid : r.Valid) (hreq : request s r = some (s', rep)) :
    HitStep s r.vpage r.offset r.type s' rep ∨ LoadStep s r.vpage r.offset r.type s' rep ∨
      ∃ victim, EvictStep s r.vpage r.offset r.type r.rnd victim s' rep := by
  rw [request_of_valid s hvalid] at hreq
  have hready : Ready s r.vpage := by
    intro hp hone
    by_contra hres
    rw [serve_singleton hinv hp hone (by simpa using hres)] at hreq
    contradiction
  obtain ⟨s₁, rep₁, hserve, hcases⟩ := serve_cases hinv hready r.offset r.type r.rnd
  obtain ⟨rfl, rfl⟩ := Prod.mk.inj (Option.some.inj (hreq.symm.trans hserve))
  exact hcases

theorem request_inv (hinv : Inv s) (hvalid : r.Valid) (hreq : request s r = some (s', rep)) : Inv s' := by
  obtain h | h | ⟨v, h⟩ := request_cases hinv hvalid hreq
  · exact h.inv hinv
  · exact h.inv hinv
  · exact h.inv hinv

/-! ## Undefined behaviour -/

/-- The state does not depend on the flags. -/
theorem serveAll_state (s : State) (hit tlbhit : Bool) (reqs : List Request) :
    (serveAll s hit tlbhit reqs).map Prod.snd = Run.exec step s (reqs.filter admitted) := by
  induction reqs generalizing s hit tlbhit with
  | nil => rfl
  | cons r reqs ih =>
      have hcons (o : Option (State × Reply)) :
          ((o.bind fun p => (serveAll p.1 p.2.hit p.2.tlbhit reqs).bind fun q => some ((r, p.2) :: q.1, q.2)).map Prod.snd) =
            o.bind fun p => Run.exec step p.1 (reqs.filter admitted) := by
        cases o with
        | none => rfl
        | some p =>
            rw [Option.bind_some, Option.bind_some, ← ih p.1 p.2.hit p.2.tlbhit]
            cases serveAll p.1 p.2.hit p.2.tlbhit reqs <;> rfl
      by_cases h : admitted r = true
      · rw [serveAll, mmu_admitted h, List.filter_cons_of_pos h, Run.exec, step]
        refine (hcons (request s r)).trans ?_
        cases request s r <;> rfl
      · rw [serveAll, mmu_refused h, List.filter_cons_of_neg h]
        exact hcons (some (s, ⟨-1, hit, tlbhit⟩))

/-- A run returns exactly when it is admissible. -/
theorem run_eq_none_iff (h : ∀ r ∈ reqs, admitted r = true) : run policy reqs = none ↔ ¬ Admissible policy reqs := by
  constructor
  · intro hnone hadm
    obtain ⟨s, hrun, -⟩ := run_spec hadm
    exact nomatch hnone.symm.trans hrun
  · intro hadm
    by_contra hrun
    obtain ⟨s, hs⟩ := Option.ne_none_iff_exists'.mp hrun
    have hvalid : ∀ reqs s, (∀ r ∈ reqs, admitted r = true) → Run.exec step (State.init policy) reqs = some s →
        ∀ r ∈ reqs, r.Valid := by
      intro reqs s hall hrun
      refine Run.exec_induct (fun reqs _ => (∀ r ∈ reqs, admitted r = true) → ∀ r ∈ reqs, r.Valid) (by simp) ?_ reqs s hrun hall
      intro reqs m r m' ih hstep hall q hq
      obtain ⟨⟨m'', rep⟩, hreq, -⟩ := Option.map_eq_some_iff.mp hstep
      obtain hq | rfl := List.mem_append.mp hq |>.imp_right List.mem_singleton.mp
      · exact ih (fun r hr => hall r (List.mem_append_left _ hr)) q hq
      · exact valid_of_request (hall q (by simp)) hreq
    exact hadm (admissible_of_run (hvalid reqs s h hs) hs)

end Mmu

/-- **When the simulator breaks**: it indexes outside its tables or dereferences
null, for some input, policy and random numbers, exactly when the requests it
reads, less the refused ones, are not admissible: one of them has a page number
or a pid that is negative or equal to its bound, or the policy is LRU and the
second is to the page of the first. -/
theorem main_eq_none_iff (argc : Int) (arg : List Byte) (rnd : Nat → Nat) (hit tlbhit : Bool) (stdin : List Byte) :
    main argc arg rnd hit tlbhit stdin = none ↔ 2 ≤ argc ∧ ∃ policy name, policyOf (atoi arg) = some (policy, name) ∧
      ¬ Admissible policy ((readRequests rnd 0 (lines 256 stdin)).1.filter admitted) := by
  rw [main]
  split
  · next hargc => simp [show ¬ 2 ≤ argc by omega]
  · next hargc =>
      cases hpolicy : policyOf (atoi arg) with
      | none => simp
      | some p =>
          obtain ⟨policy, name⟩ := p
          have hall : ∀ r ∈ (readRequests rnd 0 (lines 256 stdin)).1.filter admitted, admitted r = true := fun r hr =>
            (List.mem_filter.mp hr).2
          have hstate := serveAll_state (State.init policy) hit tlbhit (readRequests rnd 0 (lines 256 stdin)).1
          dsimp only
          rw [mainLoop_eq, Option.map_map, Option.map_eq_none_iff]
          have hserve : serveAll (State.init policy) hit tlbhit (readRequests rnd 0 (lines 256 stdin)).1 = none ↔
              ¬ Admissible policy ((readRequests rnd 0 (lines 256 stdin)).1.filter admitted) := by
            rw [← run_eq_none_iff hall, run, ← hstate, Option.map_eq_none_iff]
          rw [hserve]
          constructor
          · exact fun h => ⟨by omega, policy, name, rfl, h⟩
          · rintro ⟨-, policy', name', heq, h⟩
            obtain ⟨rfl, rfl⟩ := Prod.mk.inj (Option.some.inj heq)
            exact h

/-! ## The trace -/

/-- The memory as a pager has it. -/
def memory (s : State) : Paging.Memory VPage (Fin maxFrame) := fun f =>
  if (f : Int) < s.frameInd then some ⟨s.invertTable f, (s.entry (s.invertTable f)).dirty⟩ else none

/-- The frame of a physical address. -/
def frameOf (physicalAddr : Int) : Fin maxFrame := Fin.ofNat maxFrame (physicalAddr.shiftRight 8).toNat

/-- What a line reports. -/
def access (p : Request × Reply) : Access VPage (Fin maxFrame) where
  page := p.1.vpage
  frame := frameOf p.2.physicalAddr
  hit := p.2.hit
  write := p.1.type = 'W'

theorem frameOf_translated (f : Fin maxFrame) (r : Request) : frameOf (f * 256 + r.offset) = f := by
  have hshift : ((f : Int) * 256 + r.offset).shiftRight 8 = f := by
    have hdiv : ∀ x : Int, x.shiftRight 8 = x / 256 := fun x => Int.shiftRight_eq_div_pow x 8
    rw [hdiv, Request.offset, hdiv]
    omega
  rw [frameOf, hshift]
  exact Fin.ext (Nat.mod_eq_of_lt f.isLt)

theorem memory_init (policy : Policy) : memory (State.init policy) = Paging.Memory.empty := by
  funext f
  have hf : ¬ (f : Int) < (State.init policy).frameInd := by
    simp only [State.init]
    omega
  exact if_neg hf

section Steps

variable {s s' : State} {r : Request} {rep : Reply} {f v : Fin maxFrame} {x : VPage}

theorem memory_some (hf : (f : Int) < s.frameInd) :
    memory s f = some ⟨s.invertTable f, (s.entry (s.invertTable f)).dirty⟩ := if_pos hf

theorem memory_none (hf : ¬ (f : Int) < s.frameInd) : memory s f = none := if_neg hf

theorem memory_has_iff : (memory s).Has f x ↔ (f : Int) < s.frameInd ∧ s.invertTable f = x := by
  constructor
  · rintro ⟨d, hd⟩
    by_cases hf : (f : Int) < s.frameInd
    · rw [memory_some hf] at hd
      exact ⟨hf, congrArg Held.page (Option.some.inj hd)⟩
    · rw [memory_none hf] at hd
      contradiction
  · rintro ⟨hf, rfl⟩
    exact ⟨_, memory_some hf⟩

theorem Inv.not_has (hinv : Inv s) (hres : (s.entry x).valid = false) (f : Fin maxFrame) : ¬ (memory s).Has f x := by
  rintro hf
  obtain ⟨hlt, rfl⟩ := memory_has_iff.mp hf
  rw [(hinv.frame_resident f hlt).1] at hres
  contradiction

/-- What the trace says of one request: it is a legal access, its effect on the
memory is the state's, and the counters count it. -/
structure Traced (s : State) (r : Request) (s' : State) (rep : Reply) : Prop where
  physicalAddr : rep.physicalAddr = frameOf rep.physicalAddr * 256 + r.offset
  legal : (access (r, rep)).Legal (memory s)
  memory : memory s' = (access (r, rep)).after (memory s)
  stats : s'.stats = ⟨s.stats.hitCount + rep.hit.toNat, s.stats.missCount + (!rep.hit).toNat,
    s.stats.tlbHitCount + rep.tlbhit.toNat, s.stats.tlbMissCount + (!rep.tlbhit).toNat⟩
  diskRead : s'.numDiskRead = s.numDiskRead + (!rep.hit).toNat
  diskWrite : s'.numDiskWrite = s.numDiskWrite + ((access (r, rep)).writesBack (Vm.memory s)).toNat

theorem markDirty_dirty (s : State) (x y : VPage) (type : Char) :
    ((s.markDirty x type).entry y).dirty = ((decide (y = x ∧ type = 'W')) || (s.entry y).dirty) := by
  by_cases hy : y = x
  · subst hy
    by_cases hw : type = 'W' <;> simp [State.markDirty, State.setEntry, hw]
  · simp [State.markDirty, State.setEntry, hy]

theorem HitStep.traced (hinv : Inv s) (h : HitStep s r.vpage r.offset r.type s' rep) : Traced s r s' rep := by
  obtain ⟨f, hframe, hlt, hpage⟩ := hinv.resident_frame r.vpage h.resident
  have haddr : rep.physicalAddr = f * 256 + r.offset := by rw [h.physicalAddr, hframe]
  have hfo : frameOf rep.physicalAddr = f := by rw [haddr, frameOf_translated]
  have hmem : memory s f = some ⟨r.vpage, (s.entry r.vpage).dirty⟩ := by rw [memory_some hlt, hpage]
  have hno : (access (r, rep)).writesBack (memory s) = false := by simp [Access.writesBack, access, h.hit]
  refine ⟨by rw [hfo, haddr], ?_, ?_, ?_, ?_, ?_⟩
  · rw [Access.Legal, if_pos (show (access (r, rep)).hit = true from h.hit)]
    exact ⟨_, hfo ▸ hmem⟩
  · funext g
    by_cases hg : g = f
    · subst hg
      rw [memory_some (by rw [h.frameInd]; exact hlt), h.invertTable, h.entry, hpage, markDirty_dirty, Access.after, access]
      simp only [hfo, Function.update_self, h.hit, hmem, Option.any_some, true_and, Bool.true_and]
    · have hne : ∀ y, (g : Int) < s.frameInd → s.invertTable g = y → y ≠ r.vpage := by
        rintro y hlt' rfl hy
        have hg' := (hinv.frame_resident g hlt').2
        rw [hy, hframe] at hg'
        exact hg (Fin.ext (by omega))
      rw [Access.after, Function.update_of_ne (by simpa [access, hfo] using hg)]
      by_cases hlt' : (g : Int) < s.frameInd
      · rw [memory_some hlt', memory_some (by rw [h.frameInd]; exact hlt'), h.invertTable, h.entry, markDirty_dirty]
        simp [hne _ hlt' rfl]
      · rw [memory_none hlt', memory_none (by rw [h.frameInd]; exact hlt')]
  · rw [h.stats, h.hit]
    cases rep.tlbhit <;> rfl
  · rw [h.numDisk.1, h.hit]
    rfl
  · rw [h.numDisk.2, hno]
    rfl

theorem LoadStep.traced (hinv : Inv s) (h : LoadStep s r.vpage r.offset r.type s' rep) : Traced s r s' rep := by
  obtain ⟨f, hframe, hinvert, -⟩ := h.repl
  have hfo : frameOf rep.physicalAddr = f := by rw [h.reply, hframe, frameOf_translated]
  have hfree : memory s f = none := memory_none (by omega)
  have hit : rep.hit = false := by rw [h.reply]
  have hno : (access (r, rep)).writesBack (memory s) = false := by simp [Access.writesBack, access, hfo, hfree]
  refine ⟨by rw [hfo, h.reply, hframe], ?_, ?_, ?_, ?_, ?_⟩
  · rw [Access.Legal, if_neg (by simp [access, hit])]
    exact ⟨hinv.not_has h.missing, Or.inl (by rw [access]; exact hfo ▸ hfree)⟩
  · funext g
    by_cases hg : g = f
    · subst hg
      rw [memory_some (by rw [h.frameInd]; omega), hinvert, Function.update_self, h.entry, Function.update_self, Access.after,
        access]
      simp [hfo, hit]
    · rw [Access.after, Function.update_of_ne (by simpa [access, hfo] using hg)]
      by_cases hlt' : (g : Int) < s.frameInd
      · have hne : s.invertTable g ≠ r.vpage := fun hy => hinv.not_has h.missing g (memory_has_iff.mpr ⟨hlt', hy⟩)
        rw [memory_some hlt', memory_some (by rw [h.frameInd]; omega), hinvert, Function.update_of_ne hg, h.entry,
          Function.update_of_ne hne]
      · have hgf : (g : Nat) ≠ f := fun hgf => hg (Fin.ext hgf)
        rw [memory_none hlt', memory_none (by rw [h.frameInd]; omega)]
  · rw [h.stats, h.reply]
    rfl
  · rw [h.numDisk.1, hit]
    rfl
  · rw [h.numDisk.2, hno]
    rfl

theorem EvictStep.traced (hinv : Inv s) (h : EvictStep s r.vpage r.offset r.type r.rnd v s' rep) : Traced s r s' rep := by
  have hfo : frameOf rep.physicalAddr = v := by rw [h.reply, frameOf_translated]
  have hall : ∀ g : Fin maxFrame, (g : Int) < s.frameInd := fun g => by rw [h.full]; omega
  have hit : rep.hit = false := by rw [h.reply]
  have hback : (access (r, rep)).writesBack (memory s) = (s.entry (s.invertTable v)).dirty := by
    simp [Access.writesBack, access, hfo, hit, memory_some (hall v)]
  refine ⟨by rw [hfo, h.reply], ?_, ?_, ?_, ?_, ?_⟩
  · rw [Access.Legal, if_neg (by simp [access, hit])]
    refine ⟨hinv.not_has h.missing, Or.inr fun g => ?_⟩
    rw [memory_some (hall g)]
    simp
  · funext g
    have hlt : (g : Int) < s'.frameInd := by rw [h.frameInd]; exact hall g
    by_cases hg : g = v
    · subst hg
      rw [memory_some hlt, h.invertTable, Function.update_self, h.entry, Function.update_self, Access.after, access]
      simp [hfo, hit]
    · have hne : s.invertTable g ≠ r.vpage := fun hy => hinv.not_has h.missing g (memory_has_iff.mpr ⟨hall g, hy⟩)
      have hvic : s.invertTable g ≠ s.invertTable v := by
        intro hy
        have hg' := (hinv.frame_resident g (hall g)).2
        rw [hy, (hinv.frame_resident v (hall v)).2] at hg'
        exact hg (Fin.ext (by omega))
      rw [Access.after, Function.update_of_ne (by simpa [access, hfo] using hg), memory_some hlt, memory_some (hall g),
        h.invertTable, Function.update_of_ne hg, h.entry, Function.update_of_ne hne, Function.update_of_ne hvic]
  · rw [h.stats, h.reply]
    rfl
  · rw [h.numDisk.1, hit]
    rfl
  · rw [h.numDisk.2, hback]
    cases (s.entry (s.invertTable v)).dirty <;> rfl

/-- **One request**: what is printed for it is a legal access. -/
theorem traced (hinv : Inv s) (hvalid : r.Valid) (hreq : request s r = some (s', rep)) : Traced s r s' rep := by
  obtain h | h | ⟨v, h⟩ := request_cases hinv hvalid hreq
  · exact h.traced hinv
  · exact h.traced hinv
  · exact h.traced hinv

end Steps

/-! ## Runs -/

/-- The requests that were not refused. -/
def translated (served : List (Request × Reply)) : List (Request × Reply) := served.filter fun p => admitted p.1

/-- What the lines report to a pager. -/
def trace (served : List (Request × Reply)) : List (Access VPage (Fin maxFrame)) := (translated served).map access

/-- The reply to a request: its offset in some frame, or `-1` if it is refused. -/
def Answers (p : Request × Reply) : Prop :=
  if admitted p.1 then p.1.Valid ∧ p.2.physicalAddr = frameOf p.2.physicalAddr * 256 + p.1.offset
  else p.2.physicalAddr = -1

/-- A run from `s` to `s'`, as it is reported. -/
structure Translates (s : State) (served : List (Request × Reply)) (s' : State) : Prop where
  answers : ∀ p ∈ served, Answers p
  legal : Paging.Legal (memory s) (trace served)
  hitCount : s'.stats.hitCount = s.stats.hitCount + (translated served).countP (·.2.hit)
  missCount : s'.stats.missCount = s.stats.missCount + (translated served).countP (!·.2.hit)
  tlbHitCount : s'.stats.tlbHitCount = s.stats.tlbHitCount + (translated served).countP (·.2.tlbhit)
  tlbMissCount : s'.stats.tlbMissCount = s.stats.tlbMissCount + (translated served).countP (!·.2.tlbhit)
  numDiskRead : s'.numDiskRead = s.numDiskRead + (translated served).countP (!·.2.hit)
  numDiskWrite : s'.numDiskWrite = s.numDiskWrite + Paging.writebacks (memory s) (trace served)

section Runs

variable {s s₁ s' : State} {r : Request} {rep : Reply} {reqs : List Request} {served : List (Request × Reply)}

theorem Traced.cons (h : Traced s r s₁ rep) (hadm : admitted r = true) (hvalid : r.Valid) (hrest : Translates s₁ served s') :
    Translates s ((r, rep) :: served) s' := by
  have hcons : translated ((r, rep) :: served) = (r, rep) :: translated served := List.filter_cons_of_pos hadm
  have htrace : trace ((r, rep) :: served) = access (r, rep) :: trace served := by rw [trace, hcons, List.map_cons]; rfl
  have hcount (q : Request × Reply → Bool) :
      (translated ((r, rep) :: served)).countP q = (translated served).countP q + (q (r, rep)).toNat := by
    rw [hcons, List.countP_cons]
    cases q (r, rep) <;> rfl
  have hstats := h.stats
  constructor
  · intro p hp
    obtain rfl | hp := List.mem_cons.mp hp
    · rw [Answers, if_pos hadm]
      exact ⟨hvalid, h.physicalAddr⟩
    · exact hrest.answers p hp
  · rw [htrace]
    exact ⟨h.legal, h.memory ▸ hrest.legal⟩
  · rw [hrest.hitCount, hcount, hstats]
    dsimp only
    omega
  · rw [hrest.missCount, hcount, hstats]
    dsimp only
    omega
  · rw [hrest.tlbHitCount, hcount, hstats]
    dsimp only
    omega
  · rw [hrest.tlbMissCount, hcount, hstats]
    dsimp only
    omega
  · rw [hrest.numDiskRead, hcount, h.diskRead]
    dsimp only
    omega
  · rw [hrest.numDiskWrite, htrace, h.diskWrite, Paging.writebacks, ← h.memory]
    omega

theorem Translates.refused (h : ¬ admitted r = true) (hrep : rep.physicalAddr = -1) (hrest : Translates s served s') :
    Translates s ((r, rep) :: served) s' := by
  have hcons : translated ((r, rep) :: served) = translated served := List.filter_cons_of_neg h
  have htrace : trace ((r, rep) :: served) = trace served := by rw [trace, hcons]; rfl
  obtain ⟨hans, hlegal, hhit, hmiss, htlb, htlbm, hread, hwrite⟩ := hrest
  refine ⟨fun p hp => ?_, htrace ▸ hlegal, hcons ▸ hhit, hcons ▸ hmiss, hcons ▸ htlb, hcons ▸ htlbm, hcons ▸ hread,
    htrace ▸ hwrite⟩
  obtain rfl | hp := List.mem_cons.mp hp
  · rwa [Answers, if_neg h]
  · exact hans p hp

/-- **A run** is reported as what a pager does. -/
theorem serveAll_translates (hinv : Inv s) (hit tlbhit : Bool) (h : serveAll s hit tlbhit reqs = some (served, s')) :
    served.map Prod.fst = reqs ∧ Translates s served s' := by
  induction reqs generalizing s hit tlbhit served with
  | nil =>
      cases h
      exact ⟨rfl, by simp, trivial, rfl, rfl, rfl, rfl, rfl, rfl⟩
  | cons r reqs ih =>
      rw [serveAll] at h
      obtain ⟨⟨s₁, rep⟩, hmmu, h⟩ := Option.bind_eq_some_iff.mp h
      obtain ⟨⟨served', s₂⟩, hrest, h⟩ := Option.bind_eq_some_iff.mp h
      cases h
      by_cases hadm : admitted r = true
      · rw [mmu_admitted hadm] at hmmu
        have hvalid := valid_of_request hadm hmmu
        obtain ⟨hfst, htrans⟩ := ih (request_inv hinv hvalid hmmu) _ _ hrest
        exact ⟨by rw [List.map_cons, hfst], (traced hinv hvalid hmmu).cons hadm hvalid htrans⟩
      · rw [mmu_refused hadm] at hmmu
        cases hmmu
        obtain ⟨hfst, htrans⟩ := ih hinv _ _ hrest
        exact ⟨by rw [List.map_cons, hfst], htrans.refused hadm rfl⟩

/-! ## Addresses -/

variable {p q : Request × Reply} {before between behind : List (Request × Reply)}

end Runs

/-- The last lines, as the lines before them prescribe them. -/
def summary (served : List (Request × Reply)) : List Output :=
  [.stats (translated served).length ((translated served).countP (·.2.hit)) ((translated served).countP (!·.2.hit))
      ((translated served).countP (·.2.tlbhit)) ((translated served).countP (!·.2.tlbhit)),
    .disk ((translated served).countP (!·.2.hit)) (Paging.writebacks Paging.Memory.empty (trace served))]

theorem Translates.summary {policy : Policy} {served : List (Request × Reply)} {s : State}
    (h : Translates (State.init policy) served s) : [ptPrintStats s, diskPrintStats s] = Vm.summary served := by
  have hlen := List.length_eq_countP_add_countP (fun p : Request × Reply => p.2.hit) (l := translated served)
  have hnot : (fun p : Request × Reply => decide (¬ p.2.hit = true)) = fun p => !p.2.hit := by
    funext p
    cases p.2.hit <;> rfl
  rw [hnot] at hlen
  have hreads := h.numDiskRead
  have hwrites := h.numDiskWrite
  rw [memory_init] at hwrites
  simp only [ptPrintStats, diskPrintStats, Vm.summary, h.hitCount, h.missCount, h.tlbHitCount, h.tlbMissCount, hreads, hwrites,
    State.init, Nat.zero_add, hlen]

end OperatingSystem.Vm
