import OperatingSystem.Lib.Path
import OperatingSystem.Lib.Words
import OperatingSystem.Web.Process

/-!
# OperatingSystem.Web.Confine

Where the paths lead that `process` passes to the file system.  It resolves none
of them, so a request leaves the working directory with `..`, or with a path that
does not start with a slash (`request_climbs`).  A path that starts with a slash and
never goes up more often than down stays below, and so does everything `process`
derives from it but one: the listing of the working directory itself looks up
its entry `..` (`confined`).
-/

namespace OperatingSystem.Web

open Path Words

/-! ## Paths -/

def isSlash (c : Byte) : Bool := c == slash

/-- The names between the slashes. -/
def components (path : List Byte) : List (List Byte) := words isSlash path

/-- Where an absolute path leads. -/
def resolved (path : List Byte) : List (List Byte) := resolve dot dotdot [] (components path)

/-- The path leads to `dir` or below it. -/
def Below (dir path : List Byte) : Prop := resolved dir <+: resolved path

/-- An absolute path without `.` and `..`. -/
def Normalised (path : List Byte) : Prop :=
  path.head? = some slash ∧ ∀ name ∈ components path, Plain dot dotdot name

instance (dir path : List Byte) : Decidable (Below dir path) := inferInstanceAs (Decidable (_ <+: _))

theorem dot_ne_dotdot : dot ≠ dotdot := by decide

theorem components_append_slash {path path' : List Byte} (h : path'.head? = some slash) :
    components (path ++ path') = components path ++ components path' := by
  obtain ⟨rest, rfl⟩ := List.head?_eq_some_iff.mp h
  exact words_append_cons path (by decide) rest

theorem components_slash_append {path : List Byte} (h : path.getLast? = some slash) (path' : List Byte) :
    components (path ++ path') = components path ++ components path' := by
  obtain ⟨pre, rfl⟩ := List.getLast?_eq_some_iff.mp h
  have hslash : isSlash slash = true := by decide
  rw [List.append_assoc, List.singleton_append, components, components, components, words_append_cons pre hslash,
    words_cons_sep hslash, words_append_cons pre hslash, words_cons_sep hslash]
  simp [words]

theorem components_name {name : List Byte} (h : slash ∉ name) : components name = [] ∨ components name = [name] := by
  by_cases hne : name = []
  · subst hne
    exact .inl rfl
  · exact .inr (words_of_forall hne fun c hc => by simpa [isSlash] using fun heq : c = slash => h (heq ▸ hc))

theorem Normalised.resolved_eq {cwd : List Byte} (h : Normalised cwd) : resolved cwd = components cwd :=
  (resolve_plain h.2 []).trans (List.nil_append _)

/-! ## The calls of process -/

section Calls

variable {m : Machine} {input path : List Byte} {statbuf : Stat} {call : Call}

theorem calls_after (calls : List Call) (reply : List Write) (o : Outcome) :
    (o.after calls reply).calls = calls ++ o.calls := rfl

theorem mem_listEntries (names : List (List Byte)) (h : call ∈ (listEntries m path names statbuf).calls) :
    ∃ name ∈ names, call = .stat (path ++ name) := by
  induction names generalizing statbuf with
  | nil => exact absurd h List.not_mem_nil
  | cons name names ih =>
      rw [listEntries] at h
      split at h
      · exact absurd h List.not_mem_nil
      · rw [calls_after, List.mem_append, List.mem_singleton] at h
        obtain rfl | h := h
        · exact ⟨name, List.mem_cons_self, rfl⟩
        · obtain ⟨name', hname', hcall⟩ := ih h
          exact ⟨name', List.mem_cons_of_mem name hname', hcall⟩

/-- What `process` derives from the path it has built: the path of an index file,
and the paths of the entries of a directory. -/
inductive Derived (m : Machine) (path : List Byte) : Call → Prop where
  | path {call : Call} (h : call.path = path) : Derived m path call
  | index {call : Call} (last : path.getLast? = some slash) (h : call.path = indexPath m.cwd path) : Derived m path call
  | entry {names : List (List Byte)} {name : List Byte} (last : path.getLast? = some slash)
      (dir : m.opendir path = some names) (mem : name ∈ names) : Derived m path (.stat (path ++ name))

theorem mem_listing (hslash : path.getLast? = some slash) (h : call ∈ (listing m path statbuf).calls) :
    Derived m path call := by
  rw [listing] at h
  split at h
  · obtain rfl := List.mem_singleton.mp h
    exact .path rfl
  · next names hdir =>
      rw [calls_after, List.mem_append, List.mem_singleton] at h
      obtain rfl | h := h
      · exact .path rfl
      · obtain ⟨name, hname, rfl⟩ := mem_listEntries names h
        exact .entry hslash hdir hname

theorem mem_serveDirectory (h : call ∈ (serveDirectory m path statbuf).calls) : Derived m path call := by
  rw [serveDirectory] at h
  split at h
  · exact absurd h List.not_mem_nil
  next hslash =>
  replace hslash := not_not.mp hslash
  dsimp only at h
  split at h
  · simp only [List.mem_cons, List.not_mem_nil, or_false] at h
    obtain rfl | rfl := h
    · exact .index hslash rfl
    · exact .index hslash rfl
  · rw [calls_after, List.mem_append, List.mem_singleton] at h
    obtain rfl | h := h
    · exact .index hslash rfl
    · exact mem_listing hslash h

theorem mem_serve {method : List Byte} (h : call ∈ (serve m method path).calls) : Derived m path call := by
  rw [serve] at h
  split at h
  · exact absurd h List.not_mem_nil
  split at h
  · obtain rfl := List.mem_singleton.mp h
    exact .path rfl
  · split at h
    · rw [calls_after, List.mem_append, List.mem_singleton] at h
      obtain rfl | h := h
      · exact .path rfl
      · exact mem_serveDirectory h
    · simp only [List.mem_cons, List.not_mem_nil, or_false] at h
      obtain rfl | rfl := h
      · exact .path rfl
      · exact .path rfl

/-- **What `process` passes to the file system**. -/
theorem mem_process {method p : List Byte} (hreq : readRequest input = some (method, p))
    (h : call ∈ (process m input).calls) : m.cwd.length < 1024 ∧ Derived m (m.cwd ++ p) call := by
  rw [process, hreq] at h
  dsimp only at h
  split at h
  · exact absurd h List.not_mem_nil
  split at h
  · exact absurd h List.not_mem_nil
  · exact ⟨by omega, mem_serve h⟩

end Calls

/-! ## Confinement -/

section Below

variable {cwd p name : List Byte}

/-- The request path leads to the same place below every directory. -/
theorem resolved_request (hcwd : Normalised cwd) (hslash : p.head? = some slash)
    (hclimb : NeverClimbs dot dotdot (components p)) :
    ∃ st, (∀ dir, resolve dot dotdot dir (components p) = dir ++ st) ∧ resolved (cwd ++ p) = components cwd ++ st := by
  obtain ⟨st, hst⟩ := hclimb.exists_resolve dot_ne_dotdot
  refine ⟨st, hst, ?_⟩
  rw [resolved, components_append_slash hslash, resolve_append, hst]
  exact congrArg (· ++ st) hcwd.resolved_eq

theorem below_request (hcwd : Normalised cwd) (hslash : p.head? = some slash)
    (hclimb : NeverClimbs dot dotdot (components p)) : Below cwd (cwd ++ p) := by
  obtain ⟨st, -, hst⟩ := resolved_request hcwd hslash hclimb
  rw [Below, hst, hcwd.resolved_eq]
  exact List.prefix_append _ _

/-- An entry of the directory, `..` of the working directory apart. -/
theorem below_entry (hcwd : Normalised cwd) (hslash : p.head? = some slash) (hclimb : NeverClimbs dot dotdot (components p))
    (hlast : (cwd ++ p).getLast? = some slash) (hname : slash ∉ name) :
    Below cwd (cwd ++ p ++ name) ∨ (name = dotdot ∧ resolved (cwd ++ p) = resolved cwd) := by
  obtain ⟨st, -, hst⟩ := resolved_request hcwd hslash hclimb
  have happ : resolved (cwd ++ p ++ name) = resolve dot dotdot (components cwd ++ st) (components name) := by
    rw [resolved, components_slash_append hlast, resolve_append]
    exact congrArg (resolve dot dotdot · (components name)) hst
  rw [Below, happ, hst, hcwd.resolved_eq]
  obtain hnil | hone := components_name hname
  · rw [hnil]
    exact .inl (List.prefix_append _ _)
  · rw [hone, resolve_singleton]
    obtain h | ⟨hname, rfl⟩ := step_below (components cwd) st name
    · exact .inl h
    · exact .inr ⟨hname, List.append_nil _⟩

/-- The path of the index file, in which the working directory comes twice; where
it is cut off, a last name can be `..`, and leads to the working directory at
most. -/
theorem below_index (hcwd : Normalised cwd) (hslash : p.head? = some slash) (hclimb : NeverClimbs dot dotdot (components p))
    (hlast : p.getLast? = some slash) (hlen : cwd.length < 1024) : Below cwd (indexPath cwd (cwd ++ p)) := by
  -- the cut is behind the second working directory
  obtain ⟨x, hx, hcut⟩ : ∃ x, x <+: p ++ str "index.html" ∧ indexPath cwd (cwd ++ p) = cwd ++ (cwd ++ x) ∧ x.head? = some slash := by
    refine ⟨(p ++ str "index.html").take (4095 - cwd.length - cwd.length), List.take_prefix _ _, ?_, ?_⟩
    · rw [indexPath, List.append_assoc, List.append_assoc, List.take_append, List.take_append,
        List.take_of_length_le (by omega), List.take_of_length_le (by omega)]
    · obtain ⟨rest, rfl⟩ := List.head?_eq_some_iff.mp hslash
      rw [List.cons_append, List.head?_take, if_neg (by omega), List.head?_cons]
  obtain ⟨hcut, hx_slash⟩ := hcut
  have hcwd_slash : (cwd ++ x).head? = some slash := by
    rw [List.head?_append, hcwd.1]
    rfl
  have hcomps : components (indexPath cwd (cwd ++ p)) = components cwd ++ (components cwd ++ components x) := by
    rw [hcut, components_append_slash hcwd_slash, components_append_slash hx_slash]
  have hindex : NeverClimbs dot dotdot (components (p ++ str "index.html")) := by
    have hname : components (str "index.html") = [str "index.html"] := rfl
    rw [components_slash_append hlast, hname]
    exact hclimb.concat (by decide)
  obtain ⟨ws, hws, hwords⟩ : ∃ ws, ws <+: components (p ++ str "index.html") ∧
      (components x = ws ∨ ∃ w, components x = ws ++ [w]) := words_prefix hx
  obtain ⟨st, hst⟩ := (hindex.of_prefix hws).exists_resolve dot_ne_dotdot
  have hresolve : resolve dot dotdot [] (components cwd ++ (components cwd ++ ws)) = components cwd ++ (components cwd ++ st) := by
    rw [resolve_append, resolve_append, resolve_plain hcwd.2, resolve_plain hcwd.2, hst, List.nil_append, List.append_assoc]
  rw [Below, hcwd.resolved_eq, resolved, hcomps]
  obtain hwords | ⟨w, hwords⟩ := hwords
  · rw [hwords, hresolve]
    exact List.prefix_append _ _
  · -- the last name may be the beginning of one that is not `..`
    rw [hwords, ← List.append_assoc, ← List.append_assoc, List.append_assoc (components cwd), resolve_append, hresolve,
      resolve_singleton]
    obtain h | ⟨-, hnil⟩ := step_below (components cwd) (components cwd ++ st) w
    · exact h
    · rw [(List.append_eq_nil_iff.mp hnil).1]
      exact List.nil_prefix

end Below

/-- **Confinement**: a request path that starts with a slash and never goes up more
often than down.  Every path that `process` passes to the file system leads to the
working directory or below it, but for the entry `..` in a listing of the working
directory itself. -/
theorem confined {m : Machine} {input method p : List Byte} (hcwd : Normalised m.cwd)
    (hnames : ∀ path names, m.opendir path = some names → ∀ name ∈ names, slash ∉ name)
    (hreq : readRequest input = some (method, p)) (hslash : p.head? = some slash)
    (hclimb : NeverClimbs dot dotdot (components p)) {call : Call} (hcall : call ∈ (process m input).calls) :
    Below m.cwd call.path ∨ (call = .stat (m.cwd ++ p ++ dotdot) ∧ resolved (m.cwd ++ p) = resolved m.cwd) := by
  obtain ⟨hlen, hderived⟩ := mem_process hreq hcall
  cases hderived with
  | path hpath =>
      rw [hpath]
      exact .inl (below_request hcwd hslash hclimb)
  | index hlast hpath =>
      have hlast' : p.getLast? = some slash := by
        rw [List.getLast?_append] at hlast
        cases hp : p.getLast? with
        | none =>
            rw [List.getLast?_eq_none_iff.mp hp] at hslash
            cases hslash
        | some c => simpa [hp] using hlast
      rw [hpath]
      exact .inl (below_index hcwd hslash hclimb hlast' hlen)
  | entry hlast hdir hname =>
      obtain h | ⟨rfl, hsame⟩ := below_entry hcwd hslash hclimb hlast (hnames _ _ hdir _ hname)
      · exact .inl h
      · exact .inr ⟨rfl, hsame⟩

theorem names_hosting (cwd : List Byte) (dirs files : List (List Byte)) (path : List Byte) (names : List (List Byte))
    (h : (Machine.hosting cwd dirs files).opendir path = some names) : ∀ name ∈ names, slash ∉ name := by
  simp only [Machine.hosting] at h
  split at h
  · cases h
    decide
  · cases h

/-- The index file that is looked up for `/a/../` on a machine that serves `/srv`. -/
theorem confined_back :
    Below (str "/srv") (str "/srv/srv/a/../index.html") ∨
      (Call.stat (str "/srv/srv/a/../index.html") = .stat (str "/srv" ++ str "/a/../" ++ dotdot) ∧
        resolved (str "/srv" ++ str "/a/../") = resolved (str "/srv")) := by
  have hreq : readRequest (str "GET /a/../ HTTP/1.0\r\n") = some (str "GET", str "/a/../") := by decide
  have hcall : Call.stat (str "/srv/srv/a/../index.html") ∈
      (process (.hosting (str "/srv") [str "/srv/a/../"] []) (str "GET /a/../ HTTP/1.0\r\n")).calls := by
    decide
  exact confined ⟨by decide, by decide⟩ (names_hosting _ _ _) hreq (by decide) (by decide) hcall

/-- With `/srv` served, `GET /../key` sends a file of the root directory,
`GET -old/key` one of a directory beside, and `GET /` looks up the parent. -/
theorem request_climbs : Normalised (str "/srv") ∧
    (process (.hosting (str "/srv") [] [str "/srv/../key"]) (str "GET /../key HTTP/1.0\r\n")).calls =
      [.stat (str "/srv/../key"), .fopen (str "/srv/../key")] ∧ ¬ Below (str "/srv") (str "/srv/../key") ∧
    (process (.hosting (str "/srv") [] [str "/srv-old/key"]) (str "GET -old/key HTTP/1.0\r\n")).calls =
      [.stat (str "/srv-old/key"), .fopen (str "/srv-old/key")] ∧ ¬ Below (str "/srv") (str "/srv-old/key") ∧
    Call.stat (str "/srv/..") ∈ (process (.hosting (str "/srv") [str "/srv/"] []) (str "GET / HTTP/1.0\r\n")).calls ∧
    ¬ Below (str "/srv") (str "/srv/..") := by
  refine ⟨⟨by decide, by decide⟩, by decide, by decide, by decide, by decide, by decide, by decide⟩

end OperatingSystem.Web
