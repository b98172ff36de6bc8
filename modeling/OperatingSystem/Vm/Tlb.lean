import OperatingSystem.Vm.Lru

/-!
# OperatingSystem.Vm.Tlb

What the TLB holds.  Seen from outside each of its sets is an LRU cache of two
pages (`Cache`): the one record of recency is the set's pointer, which is at the
way used last, and an invalidation that empties a way steers the pointer past it
(`tlb_refines_cache`).

The frame numbers cached with the pages are not always those of the page table.
An eviction fills the TLB slot before the page table has the new frame, so the
slot caches the frame the page had when it was last in memory; no look-up uses
it.  They agree in a run iff every eviction brings its page back to that frame
(`tlb_agrees_iff`).
-/

namespace OperatingSystem.Vm

open Recency

/-! ## The abstract cache -/

/-- For each set of the TLB its pages, the most recent first. -/
abbrev Cache := Pid × Fin tlbSets → List Page

namespace Cache

def empty : Cache := fun _ => []

/-- A page has left memory. -/
def delete (c : Cache) (y : VPage) : Cache := Function.update c (tlbSet y) ((c (tlbSet y)).erase y.2)

/-- A page is requested: it moves to the front, and a third page is dropped. -/
def access (c : Cache) (x : VPage) : Cache := Function.update c (tlbSet x) ((touch x.2 (c (tlbSet x))).take 2)

end Cache

/-- All pages of all processes. -/
def vpages : List VPage := (List.finRange maxPid).flatMap fun pid => (List.finRange maxPage).map (pid, ·)

/-- The pages that left memory between two states. -/
def evicted (s s' : State) : List VPage := vpages.filter fun y => Resident s y ∧ ¬ Resident s' y

/-- The cache after a request: without the pages it evicted, and with its own. -/
def Cache.see (c : Cache) (s : State) (r : Request) (s' : State) : Cache :=
  ((evicted s s').foldl Cache.delete c).access r.vpage

theorem mem_vpages (x : VPage) : x ∈ vpages := by
  simp [vpages]

theorem nodup_vpages : vpages.Nodup := by decide

theorem mem_evicted : y ∈ evicted s s' ↔ Resident s y ∧ ¬ Resident s' y := by
  simp [evicted, mem_vpages]

section Evicted

variable {s s' : State} {x : VPage} {rep : Reply}

theorem HitStep.evicted (h : HitStep s x offset type s' rep) : evicted s s' = [] := by
  refine List.eq_nil_iff_forall_not_mem.mpr fun y hy => ?_
  obtain ⟨hres, hnot⟩ := mem_evicted.mp hy
  exact hnot (by rw [Resident, h.entry, markDirty_valid]; exact hres)

theorem LoadStep.evicted (h : LoadStep s x offset type s' rep) : evicted s s' = [] := by
  refine List.eq_nil_iff_forall_not_mem.mpr fun y hy => ?_
  obtain ⟨hres, hnot⟩ := mem_evicted.mp hy
  refine hnot ?_
  rw [Resident, h.entry]
  by_cases hyx : y = x
  · rw [hyx, Function.update_self]
  · rw [Function.update_of_ne hyx]
    exact hres

theorem EvictStep.evicted (hinv : Inv s) (h : EvictStep s x offset type rnd v s' rep) :
    evicted s s' = [s.invertTable v] := by
  have hvictim : Resident s (s.invertTable v) := (hinv.frame_resident v (by rw [h.full]; omega)).1
  have hne : s.invertTable v ≠ x := by
    rintro heq
    rw [heq, Resident, h.missing] at hvictim
    contradiction
  refine List.perm_singleton.mp ((List.perm_ext_iff_of_nodup (nodup_vpages.filter _) (List.nodup_singleton _)).mpr
    fun y => ?_)
  rw [← Vm.evicted, mem_evicted, h.resident_iff hinv, List.mem_singleton]
  constructor
  · rintro ⟨hy, hnot⟩
    by_contra hyv
    exact hnot (Or.inr ⟨hy, hyv⟩)
  · rintro rfl
    exact ⟨hvictim, by simp [hne]⟩

end Evicted

/-! ## The two ways of a set -/

/-- The pages in the valid ways. -/
def TLB.held (t : TLB) : List Int := (([0, 1] : List (Fin 2)).filter t.valid).map t.entry

/-- The ways hold the pages of the list: the first is where the set's pointer
is, and a way that holds none is invalid. -/
def Ways (t : TLB) (ptr : Fin 2) : List Page → Prop
  | [] => ∀ k, t.valid k = false
  | [a] => t.valid ptr = true ∧ t.entry ptr = a ∧ t.valid (1 - ptr) = false
  | [a, b] => a ≠ b ∧ t.valid ptr = true ∧ t.entry ptr = a ∧ t.valid (1 - ptr) = true ∧ t.entry (1 - ptr) = b
  | _ => False

@[simp] theorem flip_flip (ptr : Fin 2) : 1 - (1 - ptr) = ptr := by
  decide +revert

@[simp] theorem flip_ne (ptr : Fin 2) : 1 - ptr ≠ ptr := by
  decide +revert

theorem eq_or_flip (k ptr : Fin 2) : k = ptr ∨ k = 1 - ptr := by
  decide +revert

theorem mem_ways (k : Fin 2) : k ∈ ([0, 1] : List (Fin 2)) := by
  decide +revert

theorem perm_ways (ptr : Fin 2) : ([0, 1] : List (Fin 2)).Perm [ptr, 1 - ptr] := by
  decide +revert

section Ways

variable {t : TLB} {ptr k : Fin 2} {l : List Page} {p : Page}

theorem Ways.cases (h : Ways t ptr l) : l = [] ∨ (∃ a, l = [a]) ∨ ∃ a b, l = [a, b] := by
  match l, h with
  | [], _ => simp
  | [a], _ => simp
  | [a, b], _ => simp

theorem Ways.nodup (h : Ways t ptr l) : l.Nodup ∧ l.length ≤ 2 := by
  match l, h with
  | [], _ => simp
  | [a], _ => simp
  | [a, b], h => simpa using h.1

theorem Ways.held (h : Ways t ptr l) : t.held.Perm (l.map fun p : Page => ((p : Nat) : Int)) := by
  have hperm : t.held.Perm ((([ptr, 1 - ptr] : List (Fin 2)).filter t.valid).map t.entry) :=
    ((perm_ways ptr).filter _).map _
  refine hperm.trans (List.Perm.of_eq ?_)
  match l, h with
  | [], h => simp [h ptr, h (1 - ptr)]
  | [a], ⟨hv, he, hn⟩ => simp [hv, he, hn]
  | [a, b], ⟨_, hv, he, hv', he'⟩ => simp [hv, he, hv', he']

/-- A page is on the list iff a valid way holds it. -/
theorem Ways.mem_iff (h : Ways t ptr l) : p ∈ l ↔ ∃ k, t.valid k = true ∧ t.entry k = p := by
  have hmem : ((p : Nat) : Int) ∈ t.held ↔ p ∈ l := by
    rw [h.held.mem_iff, List.mem_map]
    exact ⟨fun ⟨q, hq, heq⟩ => (Fin.ext (by omega) : q = p) ▸ hq, fun hp => ⟨p, hp, rfl⟩⟩
  rw [← hmem, TLB.held, List.mem_map]
  refine exists_congr fun k => and_congr_left fun _ => ?_
  rw [List.mem_filter, and_iff_right (mem_ways k)]

/-- A look-up that finds a way moves the pointer there. -/
theorem Ways.hit (h : Ways t ptr l) (hv : t.valid k = true) (he : t.entry k = p) :
    Ways t k ((touch p l).take 2) := by
  match l, h with
  | [], h => simp [h k] at hv
  | [a], ⟨hva, hea, hn⟩ =>
      rcases eq_or_flip k ptr with rfl | rfl
      · obtain rfl : p = a := Fin.ext (by omega)
        simpa [touch] using ⟨hva, hea, hn⟩
      · simp [hn] at hv
  | [a, b], ⟨hab, hva, hea, hvb, heb⟩ =>
      rcases eq_or_flip k ptr with rfl | rfl
      · obtain rfl : p = a := Fin.ext (by omega)
        simpa [touch] using ⟨hab, hva, hea, hvb, heb⟩
      · obtain rfl : p = b := Fin.ext (by omega)
        rw [touch, List.erase_cons_tail (by simpa using hab), List.erase_cons_head, List.take_of_length_le (by simp)]
        exact ⟨hab.symm, hvb, heb, by rw [flip_flip]; exact ⟨hva, hea⟩⟩

/-- A page that is in no way takes the one the pointer is not at. -/
theorem Ways.fill (h : Ways t ptr l) (hp : p ∉ l) (frame : Int) :
    Ways { entry := Function.update t.entry (1 - ptr) (p : Int)
           frameNo := Function.update t.frameNo (1 - ptr) frame
           valid := Function.update t.valid (1 - ptr) true } (1 - ptr) ((touch p l).take 2) := by
  have hne : ptr ≠ 1 - ptr := (flip_ne ptr).symm
  match l, h with
  | [], h => simp [touch, Ways, hne, h ptr]
  | [a], ⟨hv, he, _⟩ => simpa [touch, Ways, hne, hv, he, List.erase_of_not_mem hp] using hp
  | [a, b], ⟨_, hv, he, _, _⟩ =>
      have hpa : p ≠ a := fun heq => hp (by simp [heq])
      simp [touch, Ways, hne, hv, he, List.erase_of_not_mem hp, hpa]

/-- The pointer is steered to a way without the page. -/
theorem tlbInvalidateSet_ptr {page : Int} (hk : t.entry k ≠ page) (hptr : k = ptr ∨ t.entry (1 - k) = page) :
    (tlbInvalidateSet t ptr page).2 = k := by
  rw [(tlbInvalidateSet_eq t ptr page).2]
  obtain rfl | rfl : k = 0 ∨ k = 1 := eq_or_flip k 0
  · rw [if_neg hk]
    split
    · rfl
    · next h1 => exact (hptr.resolve_right h1).symm
  · rw [if_neg hk]
    split
    · rfl
    · next h0 => exact (hptr.resolve_right h0).symm

/-- An invalidated page is gone, and the pointer is at the one that stays. -/
theorem Ways.invalidate (h : Ways t ptr l) (p : Page) :
    Ways (tlbInvalidateSet t ptr p).1 (tlbInvalidateSet t ptr p).2 (l.erase p) := by
  have ht := (tlbInvalidateSet_eq t ptr p).1
  have hinj : ∀ {a : Page}, a ≠ p → ((a : Nat) : Int) ≠ p := fun hne heq => hne (Fin.ext (by omega))
  match l, h with
  | [], h =>
      intro k
      simp [ht, h k]
  | [a], ⟨hv, he, hn⟩ =>
      by_cases hap : a = p
      · subst hap
        rw [List.erase_cons_head, ht]
        intro k
        rcases eq_or_flip k ptr with rfl | rfl <;> simp [he, hn]
      · have hptr := tlbInvalidateSet_ptr (by rw [he]; exact hinj hap) (Or.inl rfl)
        rw [List.erase_of_not_mem (by simpa using Ne.symm hap), hptr, ht]
        simp [Ways, hv, he, hn, hinj hap]
  | [a, b], ⟨hab, hva, hea, hvb, heb⟩ =>
      by_cases hap : a = p
      · subst hap
        have hptr : (tlbInvalidateSet t ptr a).2 = 1 - ptr :=
          tlbInvalidateSet_ptr (by rw [heb]; exact hinj hab.symm) (Or.inr (by rw [flip_flip]; exact hea))
        rw [List.erase_cons_head, hptr, ht]
        simp [Ways, hva, hea, hvb, heb, hinj hab.symm]
      · have hptr := tlbInvalidateSet_ptr (by rw [hea]; exact hinj hap) (Or.inl rfl)
        rw [List.erase_cons_tail (by simpa using hap), hptr, ht]
        by_cases hbp : b = p
        · subst hbp
          simp [Ways, hva, hea, heb, hinj hap]
        · rw [List.erase_of_not_mem (by simpa using Ne.symm hbp)]
          simp [Ways, hab, hva, hea, hvb, heb, hinj hap, hinj hbp]

end Ways

/-! ## Refinement -/

/-- Every set is the abstract cache's list. -/
def Caches (s : State) (c : Cache) : Prop := ∀ i, Ways (s.tlb i) (s.tlbsetPtr i) (c i)

section Caches

variable {s s' : State} {c : Cache} {x : VPage} {rep : Reply}

theorem caches_init (policy : Policy) : Caches (State.init policy) Cache.empty := fun _ _ => rfl

/-- A look-up finds the page iff it is on the list of its set. -/
theorem Caches.mem_iff (h : Caches s c) (x : VPage) :
    x.2 ∈ c (tlbSet x) ↔ ∃ k, (s.tlb (tlbSet x)).valid k = true ∧ (s.tlb (tlbSet x)).entry k = x.2 :=
  (h (tlbSet x)).mem_iff

theorem Caches.hit (h : Caches s c) (hv : (s.tlb (tlbSet x)).valid k = true)
    (he : (s.tlb (tlbSet x)).entry k = x.2) (htlb : s'.tlb = s.tlb)
    (hptr : s'.tlbsetPtr = Function.update s.tlbsetPtr (tlbSet x) k) : Caches s' (c.access x) := by
  intro i
  rw [htlb, hptr, Cache.access]
  by_cases hi : i = tlbSet x
  · subst hi
    rw [Function.update_self, Function.update_self]
    exact (h _).hit hv he
  · rw [Function.update_of_ne hi, Function.update_of_ne hi]
    exact h i

theorem Caches.insert (h : Caches s c) (hx : x.2 ∉ c (tlbSet x)) (frame : Int)
    (htlb : s'.tlb = (s.tlbInsert x frame).tlb) (hptr : s'.tlbsetPtr = (s.tlbInsert x frame).tlbsetPtr) :
    Caches s' (c.access x) := by
  intro i
  rw [htlb, hptr, Cache.access]
  dsimp only [State.tlbInsert]
  by_cases hi : i = tlbSet x
  · subst hi
    rw [Function.update_self, Function.update_self, Function.update_self]
    exact (h _).fill hx frame
  · rw [Function.update_of_ne hi, Function.update_of_ne hi, Function.update_of_ne hi]
    exact h i

theorem Caches.delete (h : Caches s c) (y : VPage) : Caches (tlbInvalidate s y) (c.delete y) := by
  intro i
  dsimp only [tlbInvalidate, Cache.delete]
  by_cases hi : i = tlbSet y
  · subst hi
    rw [Function.update_self, Function.update_self, Function.update_self]
    exact (h _).invalidate y.2
  · rw [Function.update_of_ne hi, Function.update_of_ne hi, Function.update_of_ne hi]
    exact h i

/-- A page that is not in memory is on no list. -/
theorem Caches.not_mem (h : Caches s c) (hinv : Inv s) (hx : (s.entry x).valid = false) :
    x.2 ∉ c (tlbSet x) := by
  rw [h.mem_iff]
  rintro ⟨k, hv, he⟩
  rw [hinv.resident_of_tlb hv he] at hx
  contradiction

theorem Cache.delete_subset (c : Cache) (y : VPage) (i : Pid × Fin tlbSets) : c.delete y i ⊆ c i := by
  rw [Cache.delete]
  by_cases hi : i = tlbSet y
  · subst hi
    rw [Function.update_self]
    exact List.erase_subset
  · rw [Function.update_of_ne hi]
    exact List.Subset.refl _

/-- **One request**: it is a TLB hit iff its page is on the list, and the sets
stay the lists of the abstract cache. -/
theorem Caches.request (h : Caches s c) (hinv : Inv s) {r : Request}
    (hstep : HitStep s r.vpage r.offset r.type s' rep ∨ LoadStep s r.vpage r.offset r.type s' rep ∨
      ∃ victim, EvictStep s r.vpage r.offset r.type r.rnd victim s' rep) :
    (rep.tlbhit = true ↔ r.vpage.2 ∈ c (tlbSet r.vpage)) ∧ Caches s' (c.see s r s') := by
  unfold Cache.see
  rcases hstep with hstep | hstep | ⟨v, hstep⟩
  · rw [hstep.evicted, List.foldl_nil]
    rcases hstep.tlb with ⟨hhit, k, hv, he, htlb, hptr⟩ | ⟨hmiss, hnone, htlb, hptr⟩
    · exact ⟨by simp [hhit, (h.mem_iff r.vpage).mpr ⟨k, hv, he⟩], h.hit hv he htlb hptr⟩
    · have hx : r.vpage.2 ∉ c (tlbSet r.vpage) := fun hmem => by
        obtain ⟨k, hv, he⟩ := (h.mem_iff _).mp hmem
        exact hnone k hv he
      exact ⟨by simp [hmiss, hx], h.insert hx _ htlb hptr⟩
  · have hx := h.not_mem hinv hstep.missing
    rw [hstep.evicted, List.foldl_nil, hstep.reply]
    exact ⟨by simp [hx], h.insert hx _ hstep.tlb hstep.tlbsetPtr⟩
  · have hx := h.not_mem hinv hstep.missing
    rw [hstep.evicted hinv, List.foldl_cons, List.foldl_nil, hstep.reply]
    exact ⟨by simp [hx], (h.delete _).insert (fun hmem => hx (Cache.delete_subset _ _ _ hmem)) _ hstep.tlb
      hstep.tlbsetPtr⟩

end Caches

/-- A TLB and the abstract cache: each set's valid ways hold the pages of its
list, each once, and there are at most two. -/
structure SameContents (s : State) (c : Cache) : Prop where
  held : ∀ i, (s.tlb i).held.Perm ((c i).map fun p : Page => ((p : Nat) : Int))
  distinct : ∀ i, (c i).Nodup
  length_le : ∀ i, (c i).length ≤ 2

/-- **The TLB refines a two-entry LRU cache**: after every admitted run, under
every policy, the valid ways of each set hold the pages of the abstract list,
and the next request is a TLB hit iff its page is on it. -/
theorem tlb_refines_cache (policy : Policy) (reqs : List Request) (h : Admissible policy reqs) :
    ∃ s c, run policy reqs = some s ∧
      Run.exec (Run.watch step Cache.see) (State.init policy, Cache.empty) reqs = some (s, c) ∧
      SameContents s c ∧ ∀ r, Admissible policy (reqs ++ [r]) → ∃ s' rep, request s r = some (s', rep) ∧
        (rep.tlbhit = true ↔ r.vpage.2 ∈ c (tlbSet r.vpage)) := by
  obtain ⟨s, c, hrun, hwatch, hreach, hc⟩ := watch_spec (fun _ => Caches) (caches_init policy)
    (fun _ _ _ _ _ _ hc hinv hstep => (hc.request hinv hstep).2) h
  refine ⟨s, c, hrun, hwatch, ⟨fun i => (hc i).held, fun i => (hc i).nodup.1, fun i => (hc i).nodup.2⟩,
    fun r hadm => ?_⟩
  obtain ⟨s', rep, hreq, -, hcases⟩ := hreach.request (hadm.1 r (by simp)) hadm.2
  exact ⟨s', rep, hreq, (hc.request hreach.inv hcases).1⟩

theorem tlb_refines_cache_allPages : ∃ s c, run .clock allPages = some s ∧
    Run.exec (Run.watch step Cache.see) (State.init .clock, Cache.empty) allPages = some (s, c) ∧
    SameContents s c ∧ ∀ r, Admissible .clock (allPages ++ [r]) → ∃ s' rep, request s r = some (s', rep) ∧
      (rep.tlbhit = true ↔ r.vpage.2 ∈ c (tlbSet r.vpage)) :=
  tlb_refines_cache .clock allPages (by decide)

/-! ## The cached frames -/

/-- Every valid way names a page of its set that is in memory, and caches the
frame the page table has for it. -/
def TlbAgrees (s : State) : Prop := ∀ i k, (s.tlb i).valid k = true →
  ∃ x, tlbSet x = i ∧ (s.tlb i).entry k = x.2 ∧ (s.entry x).valid = true ∧ (s.tlb i).frameNo k = (s.entry x).frameNo

/-- If the request is a fault with all frames in use, the victim's frame is the
one its page had before. -/
def RefillsOldFrame (s : State) (r : Request) : Prop :=
  (s.entry r.vpage).valid = false → s.frameInd = maxFrame → ∀ repl victim,
    pageReplacement s.replacementPolicy { s.repl with lruFlag := 2 } r.rnd = some (repl, victim) →
    victim = (s.entry r.vpage).frameNo

section Agrees

variable {s s' : State} {x y : VPage} {rep : Reply}

theorem vpage_ext (hset : tlbSet y = tlbSet x) (hpage : ((y.2 : Nat) : Int) = x.2) : y = x := by
  have hpid : y.1 = x.1 := congrArg (fun i => i.1) hset
  exact Prod.ext hpid (Fin.ext (by omega))

theorem tlbAgrees_init (policy : Policy) : TlbAgrees (State.init policy) := fun _ _ hk =>
  absurd hk (by simp [State.init])

theorem HitStep.agrees (h : HitStep s x offset type s' rep) (hagrees : TlbAgrees s) : TlbAgrees s' := by
  have hvalid : ∀ y, (s'.entry y).valid = (s.entry y).valid := fun y => by rw [h.entry, markDirty_valid]
  have hframeNo : ∀ y, (s'.entry y).frameNo = (s.entry y).frameNo := fun y => by rw [h.entry, markDirty_frameNo]
  intro i k hk
  simp only [hvalid, hframeNo]
  rcases h.tlb with ⟨-, j, -, -, htlb, -⟩ | ⟨-, -, htlb, -⟩
  · rw [htlb] at hk ⊢
    exact hagrees i k hk
  · rw [htlb] at hk ⊢
    rcases tlbInsert_valid s x _ i k hk with ⟨hi, hentry, hframe⟩ | ⟨hk', hentry, hframe⟩
    · exact ⟨x, hi.symm, hentry, h.resident, hframe⟩
    · rw [hentry, hframe]
      exact hagrees i k hk'

theorem LoadStep.agrees (h : LoadStep s x offset type s' rep) (hagrees : TlbAgrees s) : TlbAgrees s' := by
  intro i k hk
  rw [h.tlb] at hk ⊢
  rcases tlbInsert_valid s x _ i k hk with ⟨hi, hentry, hframe⟩ | ⟨hk', hentry, hframe⟩
  · exact ⟨x, hi.symm, hentry, by rw [h.entry, Function.update_self], by rw [hframe, h.entry, Function.update_self]⟩
  · obtain ⟨y, hset, hy, hres, hframe'⟩ := hagrees i k hk'
    have hyx : y ≠ x := by
      rintro rfl
      simp [h.missing] at hres
    exact ⟨y, hset, by rw [hentry, hy], by rw [h.entry, Function.update_of_ne hyx, hres],
      by rw [hframe, hframe', h.entry, Function.update_of_ne hyx]⟩

/-- After an eviction the new page's slot caches its old frame, every other slot
is right. -/
theorem EvictStep.agrees_iff (h : EvictStep s x offset type rnd v s' rep) (hagrees : TlbAgrees s) :
    TlbAgrees s' ↔ (v : Int) = (s.entry x).frameNo := by
  have hx : s'.entry x = ⟨v, true, decide (type = 'W')⟩ := by rw [h.entry, Function.update_self]
  constructor
  · intro hagrees'
    obtain ⟨k, hv, he, hf⟩ : ∃ k, (s'.tlb (tlbSet x)).valid k = true ∧ (s'.tlb (tlbSet x)).entry k = x.2 ∧
        (s'.tlb (tlbSet x)).frameNo k = (s.entry x).frameNo := by
      refine ⟨1 - (tlbInvalidate s (s.invertTable v)).tlbsetPtr (tlbSet x), ?_⟩
      rw [h.tlb]
      simp [State.tlbInsert]
    obtain ⟨y, hset, hy, -, hframe⟩ := hagrees' _ k hv
    obtain rfl := vpage_ext hset (hy.symm.trans he)
    rw [← hf, hframe, hx]
  · intro hv i k hk
    rw [h.tlb] at hk ⊢
    rcases tlbInsert_valid _ x _ i k hk with ⟨hi, hentry, hframe⟩ | ⟨hk', hentry, hframe⟩
    · exact ⟨x, hi.symm, hentry, by rw [hx], by rw [hframe, hx, ← hv]⟩
    · obtain ⟨hold, hentry', hframe', hnot⟩ := tlbInvalidate_valid s (s.invertTable v) i k hk'
      obtain ⟨y, hset, hy, hres, hyframe⟩ := hagrees i k hold
      have hyx : y ≠ x := by
        rintro rfl
        simp [h.missing] at hres
      have hyv : y ≠ s.invertTable v := by
        rintro rfl
        exact hnot hset.symm hy
      refine ⟨y, hset, by rw [hentry, hentry', hy], ?_, ?_⟩
      · rw [h.entry, Function.update_of_ne hyx, Function.update_of_ne hyv, hres]
      · rw [hframe, hframe', hyframe, h.entry, Function.update_of_ne hyx, Function.update_of_ne hyv]

/-- **One request**: the cached frames stay right iff an eviction, if it makes
one, brings the page back to its old frame. -/
theorem agrees_step_iff (hagrees : TlbAgrees s) {r : Request}
    (hstep : HitStep s r.vpage r.offset r.type s' rep ∨ LoadStep s r.vpage r.offset r.type s' rep ∨
      ∃ victim, EvictStep s r.vpage r.offset r.type r.rnd victim s' rep) :
    TlbAgrees s' ↔ RefillsOldFrame s r := by
  rcases hstep with h | h | ⟨v, h⟩
  · refine ⟨fun _ hmiss => ?_, fun _ => h.agrees hagrees⟩
    simp [h.resident] at hmiss
  · refine ⟨fun _ _ hfull => ?_, fun _ => h.agrees hagrees⟩
    have hfree := h.free
    omega
  · rw [h.agrees_iff hagrees]
    refine ⟨fun hv _ _ repl victim hrepl => ?_, fun hold => hold h.missing h.full _ _ h.replaced⟩
    obtain ⟨-, rfl⟩ := Prod.mk.inj (Option.some.inj (h.replaced.symm.trans hrepl))
    exact hv

end Agrees

/-- **When the cached frames are right**: in a run of requests to pages of the
tables, under any policy, the TLB agrees with the page table in every state iff
every fault with all frames in use brings its page back to the frame of its page
table entry. -/
theorem tlb_agrees_iff (policy : Policy) (reqs : List Request) (hvalid : ∀ r ∈ reqs, r.Valid) :
    (∀ pre, pre <+: reqs → ∀ s, run policy pre = some s → TlbAgrees s) ↔
      Run.Along step RefillsOldFrame (State.init policy) reqs := by
  rw [Run.along_iff]
  constructor
  · rintro hall hist r rest s rfl hrun
    have hadm := admissible_of_run (fun q hq => hvalid q (by simp [hq])) hrun
    obtain ⟨s₁, hrun₁, hreach⟩ := run_spec hadm
    obtain rfl := Option.some.inj (hrun.symm.trans hrun₁)
    intro hmiss hfull
    obtain ⟨s', rep, v, hserve, hstep⟩ := serve_evict hreach.inv hmiss hfull r.offset r.type r.rnd
    rw [← request_of_valid s (hvalid r (by simp))] at hserve
    have hnext := run_concat hrun hserve
    have hagrees := hall hist (List.prefix_append _ _) s hrun
    have hagrees' := hall (hist ++ [r]) ⟨rest, by simp⟩ s' hnext
    exact (agrees_step_iff hagrees (Or.inr (Or.inr ⟨v, hstep⟩))).mp hagrees' hmiss hfull
  · intro hcond pre
    induction pre using List.reverseRecOn with
    | nil =>
        intro _ s hrun
        obtain rfl := Option.some.inj hrun
        exact tlbAgrees_init policy
    | append_singleton hist r ih =>
        rintro ⟨rest, rfl⟩ s' hrun'
        have hadm := admissible_of_run (fun q hq => hvalid q (List.mem_append_left _ hq)) hrun'
        obtain ⟨s, s₁, rep, hrun, hreach, hreq, -, hstep⟩ := run_concat_spec hadm
        obtain rfl := Option.some.inj ((run_concat hrun hreq).symm.trans hrun')
        refine (agrees_step_iff (ih ⟨r :: rest, by simp⟩ s hrun) hstep).mpr (hcond hist r rest s (by simp) hrun)

theorem tlb_agrees_iff_nine : (∀ pre, pre <+: ninePages → ∀ s, run .fifo pre = some s → TlbAgrees s) ↔
    Run.Along step RefillsOldFrame (State.init .fifo) ninePages :=
  tlb_agrees_iff .fifo ninePages (by decide)

/-- Page 1 of process 1 is loaded into frame 1, and its slot caches frame 0. -/
theorem tlb_caches_old_frame : (∀ r ∈ allPages.take 10, r.Valid) ∧
    ∃ s, run .fifo (allPages.take 10) = some s ∧ (s.entry (1, 1)).frameNo = 1 ∧
      (s.tlb (1, 1)).valid 1 = true ∧ (s.tlb (1, 1)).entry 1 = 1 ∧ (s.tlb (1, 1)).frameNo 1 = 0 ∧ ¬ TlbAgrees s := by
  have hrun : (run .fifo (allPages.take 10)).map (fun s => ((s.entry (1, 1)).frameNo, (s.tlb (1, 1)).valid 1,
      (s.tlb (1, 1)).entry 1, (s.tlb (1, 1)).frameNo 1)) = some (1, true, 1, 0) := by
    decide +kernel
  obtain ⟨s, hs, hfacts⟩ := Option.map_eq_some_iff.mp hrun
  simp only [Prod.mk.injEq] at hfacts
  obtain ⟨hframe, hv, he, hf⟩ := hfacts
  refine ⟨by decide, s, hs, hframe, hv, he, hf, fun hagrees => ?_⟩
  obtain ⟨y, hset, hy, -, hyframe⟩ := hagrees (1, 1) 1 hv
  obtain rfl : y = (1, 1) := vpage_ext hset (hy.symm.trans he)
  rw [hf, hframe] at hyframe
  exact absurd hyframe (by decide)

end OperatingSystem.Vm
