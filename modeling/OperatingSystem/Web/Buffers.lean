import OperatingSystem.Web.Redirect

/-!
# OperatingSystem.Web.Buffers

The strings `process` builds in buffers of 4096 bytes without looking at their
length: `path`, of the working directory and the request path, and in a listing
`pathbuf`, of `path` and the name of an entry.  A line of 4095 bytes leaves room for
a request path that does not fit behind a long working directory
(`request_overflows`); `buffers_fit_iff` says which requests fit.
-/

namespace OperatingSystem.Web

variable {m : Machine} {input method p path : List Byte} {statbuf : Stat}

/-- The request for `path` is answered with a listing. -/
def Lists (m : Machine) (method path : List Byte) : Prop :=
  strcaseeq method (str "GET") = true ∧ (∃ statbuf, m.stat path = some statbuf ∧ statbuf.isDir) ∧
    path.getLast? = some slash ∧ m.stat (indexPath m.cwd path) = none

/-- The names of the entries of a listing fit behind the path. -/
def NamesFit (m : Machine) (method path : List Byte) : Prop :=
  Lists m method path → ∀ names, m.opendir path = some names → ∀ name ∈ names, path.length + name.length < 4096

/-! ## Overflows -/

theorem listEntries_overflow_iff (names : List (List Byte)) (statbuf : Stat) :
    (listEntries m path names statbuf).value = .error .overflow ↔ ∃ name ∈ names, 4096 ≤ path.length + name.length := by
  induction names generalizing statbuf with
  | nil => simp [listEntries]
  | cons name names ih =>
      simp only [listEntries, List.length_append, List.exists_mem_cons_iff]
      split
      next hlong => simp only [true_iff]; exact .inl hlong
      next hfits =>
        have hfits : ¬ 4096 ≤ path.length + name.length := hfits
        simp only [Outcome.after, hfits, false_or]
        exact ih _

theorem listing_overflow_iff :
    (listing m path statbuf).value = .error .overflow ↔
      ∃ names, m.opendir path = some names ∧ ∃ name ∈ names, 4096 ≤ path.length + name.length := by
  rw [listing]
  split
  next hnone => simp [hnone]
  next names hdir =>
    simp only [hdir, Option.some.injEq, exists_eq_left']
    exact listEntries_overflow_iff names statbuf

theorem serve_of_lists (h : Lists m method path) :
    ∃ statbuf, (serve m method path).value = (listing m path statbuf).value := by
  obtain ⟨hget, ⟨statbuf, hstat, hdir⟩, hslash, hindex⟩ := h
  refine ⟨statbuf, ?_⟩
  rw [serve_dir hget hstat hdir, serveDirectory, if_neg (not_not.mpr hslash)]
  simp only [hindex, Outcome.after]

/-- Every other answer ends. -/
theorem serve_of_not_lists (h : ¬ Lists m method path) : (serve m method path).value = .ok 0 := by
  simp only [serve]
  split
  · rfl
  next hget =>
  split
  · rfl
  next statbuf hstat =>
  split
  next hdir =>
    simp only [serveDirectory]
    split
    · rfl
    next hslash =>
    split
    · rfl
    next hindex => exact absurd ⟨by simpa using hget, ⟨statbuf, hstat, hdir⟩, not_not.mp hslash, hindex⟩ h
  · rfl

/-- Once `path` is built, only a listing overflows. -/
theorem serve_fits_iff : (serve m method path).value ≠ .error .overflow ↔ NamesFit m method path := by
  by_cases hlists : Lists m method path
  · obtain ⟨statbuf, hvalue⟩ := serve_of_lists hlists
    rw [hvalue, Ne, listing_overflow_iff]
    simp only [NamesFit, hlists, forall_const, not_exists, not_and, not_le]
  · rw [serve_of_not_lists hlists]
    exact ⟨fun _ hlist => absurd hlist hlists, fun _ => by simp⟩

theorem process_of_long (hreq : readRequest input = some (method, p)) (hcwd : m.cwd.length < 1024)
    (hpath : 4096 ≤ (m.cwd ++ p).length) : (process m input).value = .error .overflow := by
  simp only [process, hreq]
  rw [if_neg (Nat.not_le.mpr hcwd), if_pos hpath]

/-- **Overflows**: which requests fit the buffers, with a working directory that fits
its own. -/
theorem buffers_fit_iff (hcwd : m.cwd.length < 1024) :
    (process m input).value ≠ .error .overflow ↔
      ∀ method p, readRequest input = some (method, p) → m.cwd.length + p.length < 4096 ∧ NamesFit m method (m.cwd ++ p) := by
  cases hreq : readRequest input with
  | none => simp [process, hreq]
  | some r =>
      obtain ⟨method, p⟩ := r
      have hfits : (process m input).value ≠ .error .overflow ↔
          m.cwd.length + p.length < 4096 ∧ NamesFit m method (m.cwd ++ p) := by
        rw [← List.length_append]
        by_cases hpath : (m.cwd ++ p).length < 4096
        · rw [process_eq_serve hreq hcwd hpath, serve_fits_iff, and_iff_right hpath]
        · have hlong := process_of_long hreq hcwd (Nat.not_lt.mp hpath)
          exact ⟨fun h => absurd hlong h, fun h => absurd h.1 hpath⟩
      rw [hfits]
      constructor
      · rintro h method' p' heq
        obtain ⟨rfl, rfl⟩ := Prod.mk.inj (Option.some.inj heq)
        exact h
      · exact fun h => h method p rfl

/-- The listing of `/srv` fits. -/
theorem buffers_fit_root :
    (process (.hosting (str "/srv") [str "/srv/"] []) (str "GET / HTTP/1.0\r\n")).value ≠ .error .overflow := by
  have hroot : readRequest (str "GET / HTTP/1.0\r\n") = some (str "GET", str "/") := by decide
  refine (buffers_fit_iff (by decide)).mpr fun method p hreq => ?_
  obtain ⟨rfl, rfl⟩ := Prod.mk.inj (Option.some.inj (hroot.symm.trans hreq))
  refine ⟨by decide, fun _ names hdir name hname => ?_⟩
  have hnames : (Machine.hosting (str "/srv") [str "/srv/"] []).opendir (str "/srv" ++ str "/") = some [dot, dotdot] := by decide
  obtain rfl := Option.some.inj (hnames.symm.trans hdir)
  simp only [List.mem_cons, List.not_mem_nil, or_false] at hname
  obtain rfl | rfl := hname
  · decide
  · decide

/-- A working directory of 1023 bytes. -/
def deepDir : List Byte := (List.replicate 510 (str "/a")).flatten ++ str "/aa"

theorem length_deepDir : deepDir.length = 1023 := by
  rw [deepDir, List.length_append, List.length_flatten, List.map_replicate, List.sum_replicate]
  rfl

/-- A request for so many slashes. -/
def slashes (n : Nat) : List Byte := lineFor (List.replicate n slash)

theorem readRequest_slashes {n : Nat} (hpos : 0 < n) (hn : n ≤ 4089) :
    readRequest (slashes n) = some (str "GET", List.replicate n slash) := by
  have hmem {b : Byte} (hb : b ≠ slash) : b ∉ List.replicate n slash := fun h => hb (List.eq_of_mem_replicate h)
  refine readRequest_lineFor ?_ (hmem (by decide)) (hmem (by decide)) (hmem (by decide)) ?_
  · exact List.ne_nil_of_length_pos (by rwa [List.length_replicate])
  · rwa [List.length_replicate]

theorem length_slashes (n : Nat) : (slashes n).length = n + 15 := by
  have hget : (str "GET").length = 3 := rfl
  have hprotocol : (str "HTTP/1.0\r\n").length = 10 := rfl
  simp only [slashes, lineFor, List.length_append, List.length_cons, List.length_replicate, hget, hprotocol]
  omega

/-- The slashes are no index file: the name of the working directory comes behind
them. -/
theorem indexPath_ne {cwd : List Byte} {c : Byte} {n : Nat} (hc : c ∈ cwd) (hne : c ≠ slash) (hn : cwd.length ≤ n) :
    indexPath cwd (cwd ++ List.replicate n slash) ≠ cwd ++ List.replicate n slash := by
  intro h
  have hprefix : cwd ++ List.replicate n slash <+: cwd ++ (cwd ++ (List.replicate n slash ++ str "index.html")) := by
    have htake := List.take_prefix 4095 (cwd ++ (cwd ++ List.replicate n slash) ++ str "index.html")
    rw [← indexPath, h] at htake
    simpa using htake
  have hslashes := (List.prefix_append_right_inj cwd).mp hprefix
  have hin : cwd <+: List.replicate n slash :=
    List.prefix_of_prefix_length_le (List.prefix_append cwd _) hslashes (by rwa [List.length_replicate])
  exact hne (List.eq_of_mem_replicate (hin.subset hc))

/-- The one directory of a machine has entries, for which there has to be room. -/
theorem serve_hosting {cwd path : List Byte} (hslash : path.getLast? = some slash) (hindex : indexPath cwd path ≠ path)
    (hlen : 4095 ≤ path.length) : (serve (.hosting cwd [path] []) (str "GET") path).value = .error .overflow := by
  have hlists : Lists (.hosting cwd [path] []) (str "GET") path := by
    refine ⟨by decide, ⟨_, if_pos List.mem_cons_self, rfl⟩, hslash, ?_⟩
    simp [Machine.hosting, hindex]
  have hdir : (Machine.hosting cwd [path] []).opendir path = some [dot, dotdot] := if_pos List.mem_cons_self
  by_contra hfits
  have hdot := serve_fits_iff.mp hfits hlists _ hdir dot List.mem_cons_self
  have hone : dot.length = 1 := rfl
  omega

/-- In a directory of 1023 bytes, 3073 slashes overflow `path`, and 3072 slashes
`pathbuf`. -/
theorem request_overflows :
    deepDir.length = 1023 ∧
    (slashes 3073).length ≤ 4095 ∧
    (process (.hosting deepDir [] []) (slashes 3073)).value = .error .overflow ∧
    (process (.hosting deepDir [deepDir ++ List.replicate 3072 slash] []) (slashes 3072)).value = .error .overflow := by
  have hlen (n : Nat) : (deepDir ++ List.replicate n slash).length = 1023 + n := by
    rw [List.length_append, List.length_replicate, length_deepDir]
  refine ⟨length_deepDir, by rw [length_slashes]; decide, ?_, ?_⟩
  · exact process_of_long (readRequest_slashes (by decide) (by decide)) (length_deepDir.trans_lt (by decide)) (hlen 3073).ge
  · rw [process_eq_serve (readRequest_slashes (by decide) (by decide)) (length_deepDir.trans_lt (by decide))
      ((hlen 3072).trans_lt (by decide))]
    refine serve_hosting ?_ (indexPath_ne (c := 97) ?_ (by decide) (length_deepDir.trans_le (by decide))) (hlen 3072).ge
    · rw [List.getLast?_append, List.getLast?_replicate]
      rfl
    · exact List.mem_append_right _ (by decide)

end OperatingSystem.Web
