import OperatingSystem.Web.Client
import OperatingSystem.Web.Redirect

/-!
# OperatingSystem.Web.Fetch

The client and the server together.  The server takes the client's query for the
path that the client was given, exactly when this has no space and no newline and
fits the line buffer (`query_read_iff`).  A file comes through the client as it is
when it is plain text and the stream does not cut the end of the headers in two
(`fetch_iff`).
-/

namespace OperatingSystem.Web

open Search

/-- What is read has at most `n - 1` bytes. -/
theorem length_fgets {n : Nat} {input buf : List Byte} (h : fgets n input = some buf) : buf.length ≤ n - 1 := by
  rw [fgets] at h
  split at h
  · contradiction
  obtain rfl := Option.some.inj h
  have hsplit := congrArg List.length (List.takeWhile_append_dropWhile (p := (· != 10)) (l := input.take (n - 1)))
  rw [List.length_append, List.length_take] at hsplit
  rw [List.length_append, List.length_take]
  omega

/-- What the client asks for is read. -/
theorem readRequest_query {host page : List Byte} (hspace : space ∉ getpage page) (hline : 10 ∉ getpage page)
    (hnull : 0 ∉ getpage page) (hlen : (getpage page).length ≤ 4088) :
    readRequest (str "GET" ++ space :: (slash :: getpage page ++ space :: queryTail host)) =
      some (str "GET", slash :: getpage page) := by
  obtain ⟨v, hv⟩ : ∃ v, queryTail host = 72 :: v := ⟨_, rfl⟩
  have hline' : (slash :: getpage page).length + ([] : List Byte).length ≤ 4089 := by
    simp only [List.length_cons, List.length_nil]
    omega
  have hread := readRequest_line (q := slash :: getpage page) (u := []) (v := v) (c := 72) (List.cons_ne_nil _ _)
    (List.not_mem_cons_of_ne_of_not_mem (by decide) hspace) (List.not_mem_cons_of_ne_of_not_mem (by decide) hnull)
    (List.not_mem_cons_of_ne_of_not_mem (by decide) hline) (by simp) (by decide) (by decide) hline'
  rwa [hv]

/-- **The query on the server**: for every host and page, the client builds a query
that fills what is allocated for it, and the server reads the page from it, behind a
slash, if and only if the page has no space, newline or null and at most 4088 bytes. -/
theorem query_read_iff (host page : List Byte) : ∃ query, buildGetQuery host page = some query ∧
    query.length + 1 = host.length + (getpage page).length + (str useragent).length + (str template).length - 5 ∧
    (readRequest query = some (str "GET", slash :: getpage page) ↔
      space ∉ getpage page ∧ 10 ∉ getpage page ∧ 0 ∉ getpage page ∧ (getpage page).length ≤ 4088) := by
  refine ⟨_, buildGetQuery_eq host page, length_query host page, fun h => ?_, fun ⟨hspace, hline, hnull, hlen⟩ => ?_⟩
  · obtain ⟨-, hspace, hnull, hline⟩ := path_of_readRequest h
    refine ⟨List.not_mem_of_not_mem_cons hspace, List.not_mem_of_not_mem_cons hline, List.not_mem_of_not_mem_cons hnull, ?_⟩
    obtain ⟨buf, hbuf, hreq⟩ := Option.bind_eq_some_iff.mp h
    obtain ⟨rest, -, hmethod, -, rest', hrest', hpath, -, -⟩ := requestOf_split hreq
    have hbuf := length_fgets hbuf
    have hcstr := length_cstr_le buf
    have h1 := congrArg List.length hmethod
    have h2 := congrArg List.length hpath
    have h3 := List.length_pos_of_ne_nil hrest'
    have hget : (str "GET").length = 3 := rfl
    simp only [List.length_append, List.length_cons, hget] at h1 h2
    omega
  · exact readRequest_query hspace hline hnull hlen

/-- A request for a file. -/
theorem process_file {m : Machine} {input path : List Byte} {statbuf : Stat} (hreq : readRequest input = some (str "GET", path))
    (hcwd : m.cwd.length < 1024) (hpath : (m.cwd ++ path).length < 4096) (hstat : m.stat (m.cwd ++ path) = some statbuf)
    (hdir : statbuf.isDir = false) :
    process m input = ⟨.ok 0, [.stat (m.cwd ++ path), .fopen (m.cwd ++ path)], sendFile m (m.cwd ++ path) statbuf⟩ := by
  have hget : strcaseeq (str "GET") (str "GET") = true := by decide
  rw [process_eq_serve hreq hcwd hpath, serve, if_neg (by simp [hget]), hstat]
  simp [hdir]

/-- What a client and a server make of a file that holds `data`: the reply is headers,
of which `headers` is all but the end, and the data; and however the stream cuts it
in chunks, the client prints the data if and only if it is empty, or plain text and
no cut is in the end of the headers. -/
structure Fetches (strftime : Strftime) (o : Outcome) (data headers : List Byte) : Prop where
  value : o.value = .ok 0
  reply : wire strftime o.reply = headers ++ (headerEnd ++ data)
  prints : ∀ chunks : List (List Byte), chunks.flatten = wire strftime o.reply →
    (receive false chunks = some data ↔ data = [] ∨ Plain data ∧ Whole chunks headers)

/-- **Fetching a file**. -/
theorem fetch_iff {strftime : Strftime} {m : Machine} {host page query data : List Byte} {statbuf : Stat}
    (htimes : PlainTimes strftime) (hquery : buildGetQuery host page = some query)
    (hpage : space ∉ getpage page ∧ 10 ∉ getpage page ∧ 0 ∉ getpage page) (hcwd : m.cwd.length < 1024)
    (hpath : (m.cwd ++ slash :: getpage page).length < 4096) (hlen : (getpage page).length ≤ 4088)
    (hstat : m.stat (m.cwd ++ slash :: getpage page) = some statbuf) (hdir : statbuf.isDir = false)
    (hopen : m.fopen (m.cwd ++ slash :: getpage page) = some data) :
    ∃ headers, Fetches strftime (process m query) data headers := by
  obtain rfl := Option.some.inj ((buildGetQuery_eq host page).symm.trans hquery)
  have hreq : readRequest (str "GET" ++ space :: (slash :: getpage page ++ space :: queryTail host)) =
      some (str "GET", slash :: getpage page) := readRequest_query hpage.1 hpage.2.1 hpage.2.2 hlen
  have hlines : ∀ line ∈ fileLines strftime m (getMimeType (m.cwd ++ slash :: getpage page)) (fileLength statbuf) statbuf.mtime,
      HeaderLine line := headerLine_fileLines htimes getMimeType_line _ _
  have hne : fileLines strftime m (getMimeType (m.cwd ++ slash :: getpage page)) (fileLength statbuf) statbuf.mtime ≠ [] :=
    List.cons_ne_nil _ _
  obtain ⟨headers, hheaders⟩ := block_eq_append hne
  have hwire := wire_sendFile hopen strftime statbuf
  have hfind := find_headerEnd hne hlines data
  rw [hheaders, List.append_assoc] at hwire hfind
  refine ⟨headers, ?_⟩
  rw [process_file hreq hcwd hpath hstat hdir]
  exact ⟨rfl, hwire, fun chunks hchunks => receive_iff hfind (hchunks.trans hwire)⟩

/-- A server with one file, at time 0. -/
def site : Machine where
  cwd := str "/srv"
  stat path := if path = str "/srv/index.html" then some ⟨false, true, 6, 0⟩ else none
  fopen path := if path = str "/srv/index.html" then some (str "hello\n") else none
  opendir _ := none
  time := 0

theorem fetch_iff_site : ∃ query headers, buildGetQuery (str "localhost") (str page) = some query ∧
    Fetches (fun _ _ => str "Thu, 01 Jan 1970 00:00:00 GMT") (process site query) (str "hello\n") headers := by
  have hplain : PlainTimes fun _ _ => str "Thu, 01 Jan 1970 00:00:00 GMT" := fun _ => by
    show cr ∉ str "Thu, 01 Jan 1970 00:00:00 GMT" ∧ 0 ∉ str "Thu, 01 Jan 1970 00:00:00 GMT"
    decide
  have hstat : site.stat (site.cwd ++ slash :: getpage (str page)) = some ⟨false, true, 6, 0⟩ := by decide
  have hopen : site.fopen (site.cwd ++ slash :: getpage (str page)) = some (str "hello\n") := by decide
  have hquery := buildGetQuery_eq (str "localhost") (str page)
  obtain ⟨headers, h⟩ := fetch_iff hplain hquery ⟨by decide, by decide, by decide⟩ (by decide) (by decide)
    (by decide) hstat rfl hopen
  exact ⟨_, headers, hquery, h⟩

end OperatingSystem.Web
