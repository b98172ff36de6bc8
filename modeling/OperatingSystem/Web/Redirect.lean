import OperatingSystem.Web.Confine
import OperatingSystem.Web.Request

/-!
# OperatingSystem.Web.Redirect

Requests for a directory.  `path` starts with the working directory, and `process`
puts the working directory in front of it once more: the location of a redirect is
`path`, which the server takes for a request path when it is sent back, and the
index file is looked up at `cwd` followed by `path`.  `consistent_iff` says when
this comes to the same.
-/

namespace OperatingSystem.Web

variable {m : Machine} {input method p path : List Byte} {statbuf : Stat}

/-! ## Outcomes -/

/-- The line a client sends for a location. -/
def lineFor (loc : List Byte) : List Byte := str "GET" ++ space :: (loc ++ space :: str "HTTP/1.0\r\n")

/-- A redirect, and the location of it makes the server look up `path` with a
slash. -/
def Redirects (m : Machine) (path : List Byte) (o : Outcome) : Prop :=
  o.value = .ok 0 ∧ ∃ loc,
    o.reply = sendError m 302 "Found" (some (str "Location: " ++ loc)) "Directories must end with a slash." ∧
    (process m (lineFor loc)).calls.head? = some (.stat (path ++ [slash]))

/-- The index file of `path`, when there is one, is the file that is sent. -/
def SendsIndex (m : Machine) (path : List Byte) (o : Outcome) : Prop :=
  ∀ statbuf, m.stat (path ++ str "index.html") = some statbuf →
    o.value = .ok 0 ∧ o.calls.getLast? = some (.fopen (path ++ str "index.html")) ∧
      o.reply = sendFile m (path ++ str "index.html") statbuf

/-- What a request `p` for a directory comes to. -/
def Consistent (m : Machine) (p : List Byte) (o : Outcome) : Prop :=
  if p.getLast? = some slash then SendsIndex m (m.cwd ++ p) o else Redirects m (m.cwd ++ p) o

/-! ## Process -/

/-- A request is served when its strings fit, and ends in a trap else. -/
theorem process_cases (hreq : readRequest input = some (method, p)) :
    (m.cwd.length < 1024 ∧ (m.cwd ++ p).length < 4096 ∧ process m input = serve m method (m.cwd ++ p)) ∨
      ¬ (m.cwd.length < 1024 ∧ (m.cwd ++ p).length < 4096) ∧ (process m input).calls = [] ∧
        ∀ n, (process m input).value ≠ .ok n := by
  simp only [process, hreq]
  split
  · exact .inr ⟨by omega, rfl, fun n h => by cases h⟩
  split
  · exact .inr ⟨by omega, rfl, fun n h => by cases h⟩
  · exact .inl ⟨by omega, by omega, rfl⟩

theorem process_eq_serve (hreq : readRequest input = some (method, p)) (hcwd : m.cwd.length < 1024)
    (hpath : (m.cwd ++ p).length < 4096) : process m input = serve m method (m.cwd ++ p) := by
  obtain ⟨-, -, h⟩ | ⟨hnot, -⟩ := process_cases hreq
  · exact h
  · exact absurd ⟨hcwd, hpath⟩ hnot

theorem serve_dir (hget : strcaseeq method (str "GET") = true) (hstat : m.stat path = some statbuf) (hdir : statbuf.isDir) :
    serve m method path = (serveDirectory m path statbuf).after [.stat path] [] := by
  simp [serve, hget, hstat, hdir]

/-- A request for a directory. -/
theorem process_dir (hreq : readRequest input = some (method, p)) (hget : strcaseeq method (str "GET") = true)
    (hstat : m.stat (m.cwd ++ p) = some statbuf) (hdir : statbuf.isDir) (hcwd : m.cwd.length < 1024)
    (hpath : (m.cwd ++ p).length < 4096) :
    process m input = (serveDirectory m (m.cwd ++ p) statbuf).after [.stat (m.cwd ++ p)] [] := by
  rw [process_eq_serve hreq hcwd hpath, serve_dir hget hstat hdir]

/-- What is looked up first is the path. -/
theorem serve_head {call : Call} (h : (serve m method path).calls.head? = some call) : call = .stat path := by
  simp only [serve] at h
  split at h
  · contradiction
  split at h
  · exact (Option.some.inj h).symm
  · split at h
    · exact (Option.some.inj h).symm
    · exact (Option.some.inj h).symm

theorem head_serve (hget : strcaseeq method (str "GET") = true) :
    (serve m method path).calls.head? = some (.stat path) := by
  rw [serve, if_neg (by simp [hget])]
  split
  · rfl
  · split
    · rfl
    · rfl

/-- The request whose path is looked up first. -/
theorem request_of_head {call : Call} (h : (process m input).calls.head? = some call) :
    ∃ method p, readRequest input = some (method, p) ∧ call = .stat (m.cwd ++ p) ∧ (m.cwd ++ p).length < 4096 := by
  cases hreq : readRequest input with
  | none => simp [process, hreq] at h
  | some r =>
      obtain ⟨method, p⟩ := r
      obtain ⟨-, hpath, hserve⟩ | ⟨-, hnil, -⟩ := process_cases (m := m) hreq
      · rw [hserve] at h
        exact ⟨_, _, rfl, serve_head h, hpath⟩
      · rw [hnil] at h
        contradiction

/-! ## Redirects -/

/-- The location of the redirect to `path`. -/
theorem location_eq (path : List Byte) : location path = str "Location: " ++ (path ++ [slash]).take 4085 := by
  rw [location, List.append_assoc, List.take_append, List.take_of_length_le (by decide)]
  rfl

theorem sendError_extra {a b : List Byte} {status : Int} {title text : String}
    (h : sendError m status title (some a) text = sendError m status title (some b) text) : a = b := by
  simpa [sendError, sendHeaders] using h

theorem not_mem_concat_slash {b : Byte} (hp : b ∉ p) (hb : b ≠ slash) : b ∉ p ++ [slash] := fun hmem =>
  (List.mem_append.mp hmem).elim hp fun h => hb (List.mem_singleton.mp h)

/-- A word that ends at the first delimiter of `b ++ delim :: c`, or in `b`. -/
theorem eq_or_prefix_of_concat {delim : Byte} {a b c : List Byte} (h : a ++ [delim] <+: b ++ delim :: c) (ha : delim ∉ a) :
    a = b ∨ a ++ [delim] <+: b := by
  have hb : b ++ [delim] <+: b ++ delim :: c :=
    (List.prefix_append_right_inj b).mpr (List.cons_prefix_cons.mpr ⟨rfl, List.nil_prefix⟩)
  obtain hle | hle := List.prefix_or_prefix_of_prefix h hb
  · obtain heq | hin := List.prefix_concat_iff.mp hle
    · exact .inl (List.append_cancel_right heq)
    · exact .inr hin
  · obtain heq | hin := List.prefix_concat_iff.mp hle
    · exact .inl (List.append_cancel_right heq).symm
    · exact absurd (hin.subset (List.mem_append_right b List.mem_cons_self)) ha

theorem prefix_of_not_mem {delim : Byte} {a b c : List Byte} (h : a ++ [delim] <+: b ++ c) (hc : delim ∉ c) :
    a ++ [delim] <+: b := by
  obtain hle | hle := List.prefix_or_prefix_of_prefix h (List.prefix_append b c)
  · exact hle
  obtain rfl | hin := List.prefix_concat_iff.mp hle
  · exact List.prefix_refl _
  · obtain ⟨e, rfl⟩ := hin
    rw [List.append_assoc, List.prefix_append_right_inj] at h
    exact absurd (h.subset (List.mem_append_right e List.mem_cons_self)) hc

/-- The location is read back as the path with a slash. -/
theorem readRequest_loc {loc : List Byte} (hloc : loc = (m.cwd ++ p ++ [slash]).take 4085) (hcwd : m.cwd.head? = some slash)
    (hspace : space ∉ p) (h : readRequest (lineFor loc) = some (method, p ++ [slash])) :
    p ++ [slash, space] <+: m.cwd ∨ p ++ [slash] = loc := by
  have hword : space ∉ p ++ [slash] := not_mem_concat_slash hspace (by decide)
  have hhead : loc.head? = some slash := by
    obtain ⟨t, ht⟩ := List.head?_eq_some_iff.mp hcwd
    rw [hloc, ht]
    rfl
  have hprefix := readRequest_prefix h (by rw [List.head?_append, hhead]; decide)
  obtain heq | hin := eq_or_prefix_of_concat hprefix hword
  · exact .inr heq
  · -- the space behind it is in the working directory
    have hpath : loc <+: m.cwd ++ (p ++ [slash]) := by
      rw [hloc, List.append_assoc]
      exact List.take_prefix _ _
    left
    simpa using prefix_of_not_mem (hin.trans hpath) hword

/-- Behind the path, something else than carriage returns. -/
theorem split_cr {x : List Byte} (h : ∃ b ∈ x, b ≠ cr) : ∃ u c v, x = u ++ c :: v ∧ (∀ b ∈ u, b = cr) ∧ c ≠ cr := by
  induction x with
  | nil => exact absurd h (by simp)
  | cons b x ih =>
      by_cases hb : b = cr
      · obtain ⟨u, c, v, rfl, hu, hc⟩ := ih (by simpa [hb] using h)
        exact ⟨b :: u, c, v, rfl, List.forall_mem_cons.mpr ⟨hb, hu⟩, hc⟩
      · exact ⟨[], b, x, rfl, by simp, hb⟩

/-- The location is read back when the working directory starts with the path, a
slash and a space. -/
theorem readRequest_space (hlen : m.cwd.length < 1024) (hnull : 0 ∉ m.cwd) (hspace : space ∉ p) (hp0 : 0 ∉ p) (hp10 : 10 ∉ p)
    (h : p ++ [slash, space] <+: m.cwd) :
    readRequest (lineFor ((m.cwd ++ p ++ [slash]).take 4085)) = some (str "GET", p ++ [slash]) := by
  obtain ⟨t, ht⟩ := h
  obtain ⟨u, c, v, hsplit, hu, hc⟩ : ∃ u c v, t ++ p ++ [slash] = u ++ c :: v ∧ (∀ b ∈ u, b = cr) ∧ c ≠ cr :=
    split_cr ⟨slash, by simp, by decide⟩
  have hcmem : c ∈ t ++ p ++ [slash] := hsplit ▸ List.mem_append_right u List.mem_cons_self
  have hlengths := congrArg List.length hsplit
  have hcwd := congrArg List.length ht
  simp only [List.length_append, List.length_cons, List.length_nil] at hlengths hcwd
  have hloc : (m.cwd ++ p ++ [slash]).take 4085 = p ++ [slash] ++ space :: (u ++ c :: v) := by
    rw [List.take_of_length_le (by simp only [List.length_append, List.length_singleton]; omega), ← hsplit, ← ht]
    simp
  have hc0 : c ≠ 0 := by
    rintro rfl
    simp only [List.mem_append, List.mem_singleton] at hcmem
    obtain (hmem | hmem) | hmem := hcmem
    · exact hnull (ht ▸ List.mem_append_right _ hmem)
    · exact hp0 hmem
    · exact absurd hmem (by decide)
  have hline : lineFor ((m.cwd ++ p ++ [slash]).take 4085) =
      str "GET" ++ space :: (p ++ [slash] ++ space :: (u ++ c :: (v ++ space :: str "HTTP/1.0\r\n"))) := by
    rw [lineFor, hloc]
    simp
  rw [hline]
  exact readRequest_line (by simp) (not_mem_concat_slash hspace (by decide)) (not_mem_concat_slash hp0 (by decide))
    (not_mem_concat_slash hp10 (by decide)) hu hc hc0 (by simp only [List.length_append, List.length_singleton]; omega)

theorem readRequest_lineFor {q : List Byte} (hq : q ≠ []) (hspace : space ∉ q) (hq0 : 0 ∉ q) (hq10 : 10 ∉ q)
    (hlen : q.length ≤ 4089) : readRequest (lineFor q) = some (str "GET", q) :=
  readRequest_line (u := []) (c := 72) (v := str "TTP/1.0\r\n") hq hspace hq0 hq10 (by simp) (by decide) (by decide) (by simpa)

/-- The location is read back when it is cut off to the path with a slash. -/
theorem readRequest_cut (hlen : p.length = 4084) (hspace : space ∉ p) (hp0 : 0 ∉ p) (hp10 : 10 ∉ p)
    (h : p ++ [slash] <+: m.cwd ++ p) :
    readRequest (lineFor ((m.cwd ++ p ++ [slash]).take 4085)) = some (str "GET", p ++ [slash]) := by
  have hloc : (m.cwd ++ p ++ [slash]).take 4085 = p ++ [slash] := by
    have hin := h.trans (List.prefix_append _ [slash])
    rw [List.prefix_iff_eq_take.mp hin, List.length_append, List.length_singleton, hlen]
  rw [hloc]
  exact readRequest_lineFor (by simp) (not_mem_concat_slash hspace (by decide)) (not_mem_concat_slash hp0 (by decide))
    (not_mem_concat_slash hp10 (by decide)) (by simp only [List.length_append, List.length_singleton]; omega)

/-- When a redirect leads to the path with a slash. -/
theorem redirects_iff (hcwd : m.cwd.head? = some slash) (hnull : 0 ∉ m.cwd) (hreq : readRequest input = some (method, p))
    (hget : strcaseeq method (str "GET") = true) (hstat : m.stat (m.cwd ++ p) = some statbuf) (hdir : statbuf.isDir)
    (hslash : p.getLast? ≠ some slash) :
    Redirects m (m.cwd ++ p) (process m input) ↔
      (p ++ [slash, space] <+: m.cwd ∧ m.cwd.length < 1024) ∨
        (p.length = 4084 ∧ m.cwd.length ≤ 10 ∧ p ++ [slash] <+: m.cwd ++ p) := by
  obtain ⟨hne, hspace, hp0, hp10⟩ := path_of_readRequest hreq
  have hlast : (m.cwd ++ p).getLast? ≠ some slash := by
    rwa [List.getLast?_append_of_ne_nil _ hne]
  have hserve (hlen : m.cwd.length < 1024) (hpath : (m.cwd ++ p).length < 4096) :
      process m input = ⟨.ok 0, [.stat (m.cwd ++ p)],
        sendError m 302 "Found" (some (location (m.cwd ++ p))) "Directories must end with a slash."⟩ := by
    rw [process_dir hreq hget hstat hdir hlen hpath, serveDirectory, if_pos hlast]
    rfl
  constructor
  · rintro ⟨hvalue, loc, hreply, hhead⟩
    obtain ⟨hlen, hpath, -⟩ | ⟨-, -, hno⟩ := process_cases (m := m) hreq
    swap
    · exact absurd hvalue (hno 0)
    rw [hserve hlen hpath, location_eq] at hreply
    have hloc := (List.append_cancel_left (sendError_extra hreply)).symm
    obtain ⟨method', p', hreq', hcall, hfit⟩ := request_of_head hhead
    obtain rfl : p' = p ++ [slash] := by
      rw [List.append_assoc] at hcall
      exact (List.append_cancel_left (Call.stat.inj hcall)).symm
    obtain hin | hcut := readRequest_loc hloc hcwd hspace hreq'
    · exact .inl ⟨hin, hlen⟩
    · -- the location is shorter than the path with a slash, so it has been cut off
      have hpos : 0 < m.cwd.length := List.length_pos_of_ne_nil fun hnil => by rw [hnil] at hcwd; cases hcwd
      have hlength := congrArg List.length (hcut.trans hloc)
      simp only [List.length_append, List.length_singleton, List.length_take] at hlength hfit
      refine .inr ⟨by omega, by omega, ?_⟩
      have hprefix : p ++ [slash] <+: m.cwd ++ p ++ [slash] := hcut.trans hloc ▸ List.take_prefix _ _
      exact List.prefix_of_prefix_length_le hprefix (List.prefix_append _ _)
        (by simp only [List.length_append, List.length_singleton]; omega)
  · intro h
    have hread : m.cwd.length < 1024 ∧ (m.cwd ++ (p ++ [slash])).length < 4096 ∧
        readRequest (lineFor ((m.cwd ++ p ++ [slash]).take 4085)) = some (str "GET", p ++ [slash]) := by
      obtain ⟨hin, hlen⟩ | ⟨hplen, hlen, hcut⟩ := h
      · have hle := hin.length_le
        simp only [List.length_append, List.length_cons, List.length_nil] at hle ⊢
        exact ⟨hlen, by omega, readRequest_space hlen hnull hspace hp0 hp10 hin⟩
      · simp only [List.length_append, List.length_singleton]
        exact ⟨by omega, by omega, readRequest_cut hplen hspace hp0 hp10 hcut⟩
    obtain ⟨hlen, hpath, hread⟩ := hread
    rw [hserve hlen (by simp only [List.length_append] at hpath ⊢; omega), location_eq]
    refine ⟨rfl, _, rfl, ?_⟩
    rw [process_eq_serve hread hlen hpath, List.append_assoc]
    exact head_serve (by decide)

/-! ## Index files -/

/-- A listing opens no file. -/
theorem fopen_not_mem_listing (file : List Byte) : .fopen file ∉ (listing m path statbuf).calls := by
  intro h
  rw [listing] at h
  split at h
  · cases List.mem_singleton.mp h
  · rw [calls_after, List.mem_append, List.mem_singleton] at h
    obtain h | h := h
    · cases h
    · obtain ⟨name, -, hcall⟩ := mem_listEntries _ h
      cases hcall

/-- A word cut off behind something else is the word again. -/
theorem take_append_eq_iff {a t : List Byte} (ha : a ≠ []) (n : Nat) :
    (a ++ t).take n = t ↔ t.length = n ∧ t <+: a ++ t := by
  have hpos := List.length_pos_of_ne_nil ha
  constructor
  · intro h
    have hlength := congrArg List.length h
    rw [List.length_take, List.length_append] at hlength
    refine ⟨by omega, ?_⟩
    have hprefix := List.take_prefix n (a ++ t)
    rwa [h] at hprefix
  · rintro ⟨rfl, hprefix⟩
    exact (List.prefix_iff_eq_take.mp hprefix).symm

/-- When the index file of the directory is sent. -/
theorem sendsIndex_iff (hcwd : m.cwd ≠ []) (hreq : readRequest input = some (method, p))
    (hget : strcaseeq method (str "GET") = true) (hstat : m.stat (m.cwd ++ p) = some statbuf) (hdir : statbuf.isDir)
    (hslash : p.getLast? = some slash) :
    SendsIndex m (m.cwd ++ p) (process m input) ↔
      m.stat (m.cwd ++ p ++ str "index.html") = none ∨
        (m.cwd.length < 1024 ∧ (m.cwd ++ p ++ str "index.html").length = 4095 ∧
          m.cwd ++ p ++ str "index.html" <+: m.cwd ++ (m.cwd ++ p ++ str "index.html")) := by
  obtain ⟨index, hindex⟩ : ∃ index, index = m.cwd ++ p ++ str "index.html" := ⟨_, rfl⟩
  have hlast : ¬ (m.cwd ++ p).getLast? ≠ some slash := by
    rw [List.getLast?_append, hslash]
    simp
  have hfile : indexPath m.cwd (m.cwd ++ p) = index ↔ index.length = 4095 ∧ index <+: m.cwd ++ index := by
    rw [indexPath, List.append_assoc, ← hindex]
    exact take_append_eq_iff hcwd 4095
  rw [SendsIndex, ← hindex, ← hfile]
  constructor
  · intro h
    cases hst : m.stat index with
    | none => exact .inl rfl
    | some st =>
        obtain ⟨hvalue, hopen, -⟩ := h st hst
        obtain ⟨hlen, hpath, -⟩ | ⟨-, -, hno⟩ := process_cases (m := m) hreq
        swap
        · exact absurd hvalue (hno 0)
        refine .inr ⟨hlen, ?_⟩
        rw [process_dir hreq hget hstat hdir hlen hpath, serveDirectory, if_neg hlast] at hopen
        dsimp only at hopen
        split at hopen
        · exact Call.fopen.inj (Option.some.inj hopen)
        · have hmem := List.mem_of_getLast? hopen
          simp only [calls_after, List.mem_append, List.mem_singleton, reduceCtorEq, false_or] at hmem
          exact absurd hmem (fopen_not_mem_listing index)
  · rintro (hnone | ⟨hlen, hsame⟩) st hst
    · rw [hnone] at hst
      cases hst
    · have hpath : (m.cwd ++ p).length < 4096 := by
        have hlength := congrArg List.length hindex
        rw [List.length_append, (hfile.mp hsame).1] at hlength
        omega
      have hsent : serveDirectory m (m.cwd ++ p) statbuf = ⟨.ok 0, [.stat index, .fopen index], sendFile m index st⟩ := by
        simp only [serveDirectory, if_neg hlast, hsame, hst]
      rw [process_dir hreq hget hstat hdir hlen hpath, hsent]
      exact ⟨rfl, rfl, rfl⟩

/-- **Consistency**: a request for a directory.  Without a slash at its end, the
location is read as the path with a slash when the working directory starts with
just that and a space, or when the cut at the end of the buffer removes what is too
much; with a slash, the index file is sent when there is none to send, or when the
cut makes up for the second working directory. -/
theorem consistent_iff (hcwd : m.cwd.head? = some slash) (hnull : 0 ∉ m.cwd) (hreq : readRequest input = some (method, p))
    (hget : strcaseeq method (str "GET") = true) (hstat : m.stat (m.cwd ++ p) = some statbuf) (hdir : statbuf.isDir) :
    Consistent m p (process m input) ↔
      if p.getLast? = some slash then
        m.stat (m.cwd ++ p ++ str "index.html") = none ∨
          (m.cwd.length < 1024 ∧ (m.cwd ++ p ++ str "index.html").length = 4095 ∧
            m.cwd ++ p ++ str "index.html" <+: m.cwd ++ (m.cwd ++ p ++ str "index.html"))
      else
        (p ++ [slash, space] <+: m.cwd ∧ m.cwd.length < 1024) ∨
          (p.length = 4084 ∧ m.cwd.length ≤ 10 ∧ p ++ [slash] <+: m.cwd ++ p) := by
  rw [Consistent]
  split
  next hslash =>
    refine sendsIndex_iff ?_ hreq hget hstat hdir hslash
    rintro hnil
    rw [hnil] at hcwd
    cases hcwd
  next hslash => exact redirects_iff hcwd hnull hreq hget hstat hdir hslash

/-- In the directory `/a/ b`, the location `/a/ b/a/` is read as `/a/`. -/
theorem consistent_space :
    Consistent (.hosting (str "/a/ b") [str "/a/ b/a"] []) (str "/a")
      (process (.hosting (str "/a/ b") [str "/a/ b/a"] []) (str "GET /a HTTP/1.0\r\n")) := by
  have hreq : readRequest (str "GET /a HTTP/1.0\r\n") = some (str "GET", str "/a") := by decide
  have hstat : (Machine.hosting (str "/a/ b") [str "/a/ b/a"] []).stat (str "/a/ b" ++ str "/a") = some ⟨true, false, 0, 0⟩ := by
    decide
  refine (consistent_iff (by decide) (by decide) hreq (by decide) hstat rfl).mpr ?_
  rw [if_neg (by decide)]
  exact .inl ⟨by decide, by decide⟩

/-- With `/srv` served, the redirect for `GET /a` leads to `/srv/srv/a/`, and
`GET /a/` looks up the index file there and lists the directory instead. -/
theorem cwd_comes_twice :
    (process (.hosting (str "/srv") [str "/srv/a"] []) (str "GET /a HTTP/1.0\r\n")).reply =
      sendError (.hosting (str "/srv") [str "/srv/a"] []) 302 "Found" (some (str "Location: " ++ str "/srv/a/"))
        "Directories must end with a slash." ∧
    (process (.hosting (str "/srv") [str "/srv/a"] []) (lineFor (str "/srv/a/"))).calls = [.stat (str "/srv/srv/a/")] ∧
    ¬ Consistent (.hosting (str "/srv") [str "/srv/a"] []) (str "/a")
      (process (.hosting (str "/srv") [str "/srv/a"] []) (str "GET /a HTTP/1.0\r\n")) ∧
    (process (.hosting (str "/srv") [str "/srv/a/"] [str "/srv/a/index.html"]) (str "GET /a/ HTTP/1.0\r\n")).calls =
      [.stat (str "/srv/a/"), .stat (str "/srv/srv/a/index.html"), .opendir (str "/srv/a/"), .stat (str "/srv/a/."),
        .stat (str "/srv/a/..")] ∧
    ¬ Consistent (.hosting (str "/srv") [str "/srv/a/"] [str "/srv/a/index.html"]) (str "/a/")
      (process (.hosting (str "/srv") [str "/srv/a/"] [str "/srv/a/index.html"]) (str "GET /a/ HTTP/1.0\r\n")) := by
  refine ⟨by decide, by decide, ?_, by decide, ?_⟩
  · have hreq : readRequest (str "GET /a HTTP/1.0\r\n") = some (str "GET", str "/a") := by decide
    have hstat : (Machine.hosting (str "/srv") [str "/srv/a"] []).stat (str "/srv" ++ str "/a") = some ⟨true, false, 0, 0⟩ := by
      decide
    rw [Consistent, if_neg (by decide)]
    exact mt (redirects_iff (by decide) (by decide) hreq (by decide) hstat rfl (by decide)).mp (by decide)
  · have hreq : readRequest (str "GET /a/ HTTP/1.0\r\n") = some (str "GET", str "/a/") := by decide
    have hstat : (Machine.hosting (str "/srv") [str "/srv/a/"] [str "/srv/a/index.html"]).stat (str "/srv" ++ str "/a/") =
        some ⟨true, false, 0, 0⟩ := by
      decide
    rw [Consistent, if_pos (by decide)]
    exact mt (sendsIndex_iff (by decide) hreq (by decide) hstat rfl (by decide)).mp (by decide)

end OperatingSystem.Web
