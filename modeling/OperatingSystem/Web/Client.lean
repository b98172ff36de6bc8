import OperatingSystem.Web.Request
import OperatingSystem.Web.Wire

/-!
# OperatingSystem.Web.Client

The client, `htmlget.c`: the query it sends and the loop that receives the reply.

The loop looks for the end of the headers in one buffer at a time, as a comment in
it says, and stops looking at a null.  What comes behind is passed to `fprintf` as
its format.  `receive_iff` says when the loop prints what was sent.
-/

namespace OperatingSystem.Web

open Search

/-! ## htmlget.c -/

def useragent : String := "HTMLGET 1.0"

def page : String := "index.html"

/-- `tpl`. -/
def template : String := "GET /%s HTTP/1.0\r\nHost: %s\r\nUser-Agent: %s\r\n\r\n"

/-- `build_get_query`; `none` when `sprintf` writes past what `malloc` gave. -/
def buildGetQuery (host page : List Byte) : Option (List Byte) :=
  let getpage := if page.head? = some slash then page.tail else page
  let size := host.length + getpage.length + (str useragent).length + (str template).length - 5
  -- there is no time in the template
  let query := format (fun _ _ => []) template.toList [.str getpage, .str host, .text useragent]
  if query.length < size then some query else none

/-- `strstr`. -/
def strstr (haystack needle : List Byte) : Option (List Byte) := find needle haystack

/-- `fprintf(stdout, format)`; a conversion other than `%%` has no argument and is
undefined behaviour.  The flag says that a percent sign was read. -/
def printFormat : Bool → List Byte → Option (List Byte)
  | false, [] => some []
  | true, [] => none
  | false, c :: s => if c = 37 then printFormat true s else (printFormat false s).map (c :: ·)
  | true, c :: s => if c = 37 then (printFormat false s).map (c :: ·) else none

/-- The loop over what `recv` gives, with `htmlstart`: what is printed.  Behind what
was received the buffer holds nulls. -/
def receive : Bool → List (List Byte) → Option (List Byte)
  | _, [] => some []
  | htmlstart, chunk :: chunks =>
      let buf := cstr chunk
      match if htmlstart then some buf else (strstr buf headerEnd).map (·.drop 4) with
      | none => receive false chunks
      | some htmlcontent => do
          let out ← printFormat false htmlcontent
          let rest ← receive true chunks
          return out ++ rest

/-! ## The query -/

/-- The page without a slash in front. -/
def getpage (page : List Byte) : List Byte := if page.head? = some slash then page.tail else page

/-- What comes behind the path in the first line. -/
def queryTail (host : List Byte) : List Byte :=
  str "HTTP/1.0\r\nHost: " ++ (host ++ str "\r\nUser-Agent: HTMLGET 1.0\r\n\r\n")

/-- The query and its null take what `build_get_query` allocates. -/
theorem length_query (host page : List Byte) :
    (str "GET" ++ space :: (slash :: getpage page ++ space :: queryTail host)).length + 1 =
      host.length + (getpage page).length + (str useragent).length + (str template).length - 5 := by
  have htail : (queryTail host).length = host.length + 45 := by
    have h1 : (str "HTTP/1.0\r\nHost: ").length = 16 := rfl
    have h2 : (str "\r\nUser-Agent: HTMLGET 1.0\r\n\r\n").length = 29 := rfl
    rw [queryTail, List.length_append, List.length_append, h1, h2]
    omega
  have hua : (str useragent).length = 11 := rfl
  have htpl : (str template).length = 46 := rfl
  have hget : (str "GET").length = 3 := rfl
  simp only [List.length_append, List.length_cons, hget, htail, hua, htpl]
  omega

/-- **The query fits** what is allocated for it. -/
theorem buildGetQuery_eq (host page : List Byte) :
    buildGetQuery host page = some (str "GET" ++ space :: (slash :: getpage page ++ space :: queryTail host)) := by
  have hformat : format (fun _ _ => []) template.toList [.str (getpage page), .str host, .text useragent] =
      str "GET" ++ space :: (slash :: getpage page ++ space :: queryTail host) := by
    show str "GET /" ++ (getpage page ++ (str " HTTP/1.0\r\nHost: " ++ (host ++ str "\r\nUser-Agent: HTMLGET 1.0\r\n\r\n"))) = _
    rw [queryTail]
    rfl
  rw [buildGetQuery, ← getpage, hformat, if_pos]
  exact Nat.lt_of_succ_le (length_query host page).le

/-! ## printf -/

/-- The bytes that `fprintf` prints as they are. -/
def Plain (s : List Byte) : Prop := 0 ∉ s ∧ 37 ∉ s

theorem printFormat_plain {s : List Byte} (h : 37 ∉ s) : printFormat false s = some s := by
  induction s with
  | nil => rfl
  | cons c s ih =>
      rw [printFormat, if_neg (List.ne_of_not_mem_cons h).symm, ih (List.not_mem_of_not_mem_cons h)]
      rfl

/-- What is printed is the string, or shorter. -/
theorem printFormat_cases (s : List Byte) :
    (∀ out, printFormat false s = some out → (out = s ∧ 37 ∉ s) ∨ out.length < s.length) ∧
      ∀ out, printFormat true s = some out → out.length ≤ s.length := by
  induction s with
  | nil => exact ⟨fun out h => by cases h; simp, fun out h => by cases h⟩
  | cons c s ih =>
      constructor
      · intro out h
        rw [printFormat] at h
        split at h
        · exact Or.inr (Nat.lt_succ_of_le (ih.2 out h))
        · next hc =>
            obtain ⟨out', hout, rfl⟩ := Option.map_eq_some_iff.mp h
            obtain ⟨rfl, hno⟩ | hlt := ih.1 out' hout
            · exact Or.inl ⟨rfl, fun hmem => (List.mem_cons.mp hmem).elim (fun h => hc h.symm) hno⟩
            · exact Or.inr (Nat.succ_lt_succ hlt)
      · intro out h
        rw [printFormat] at h
        split at h
        · obtain ⟨out', hout, rfl⟩ := Option.map_eq_some_iff.mp h
          obtain ⟨rfl, -⟩ | hlt := ih.1 out' hout
          · exact Nat.le_refl _
          · exact Nat.succ_le_succ (Nat.le_of_lt hlt)
        · contradiction

/-! ## The loop -/

section Receive

variable {chunks : List (List Byte)} {chunk h body out s : List Byte}

theorem cstr_of_not_mem (h : 0 ∉ s) : cstr s = s :=
  List.takeWhile_eq_self_iff.mpr fun _ hc => bne_iff_ne.mpr fun heq => h (heq ▸ hc)

theorem length_cstr_le (s : List Byte) : (cstr s).length ≤ s.length := (List.takeWhile_prefix _).length_le

theorem length_cstr_lt (h : 0 ∈ s) : (cstr s).length < s.length := by
  refine Nat.lt_of_le_of_ne (length_cstr_le s) fun hlen => ?_
  have hself := (List.takeWhile_prefix (l := s) (· != 0)).eq_of_length hlen
  rw [← hself] at h
  simpa using List.mem_takeWhile_imp h

/-- Plain text is printed as it is. -/
theorem receive_plain (h : Plain chunks.flatten) : receive true chunks = some chunks.flatten := by
  induction chunks with
  | nil => rfl
  | cons chunk chunks ih =>
      obtain ⟨h0, h37⟩ := h
      rw [List.flatten_cons, List.mem_append, not_or] at h0 h37
      rw [receive, if_pos rfl, cstr_of_not_mem h0.1]
      dsimp only
      rw [printFormat_plain h37.1, ih ⟨h0.2, h37.2⟩]
      rfl

/-- Once the body has begun, what is printed is what was sent, or shorter. -/
theorem receive_true_cases (h : receive true chunks = some out) :
    (out = chunks.flatten ∧ Plain chunks.flatten) ∨ out.length < chunks.flatten.length := by
  induction chunks generalizing out with
  | nil =>
      cases h
      exact Or.inl ⟨rfl, by simp [Plain]⟩
  | cons chunk chunks ih =>
      rw [receive, if_pos rfl] at h
      obtain ⟨a, ha, h⟩ := Option.bind_eq_some_iff.mp h
      obtain ⟨b, hb, h⟩ := Option.bind_eq_some_iff.mp h
      cases h
      have hcstr := length_cstr_le chunk
      rw [List.flatten_cons, List.length_append, List.length_append]
      obtain ⟨rfl, hno⟩ | hlt := (printFormat_cases _).1 a ha
      · by_cases hzero : 0 ∈ chunk
        · have hlt := length_cstr_lt hzero
          obtain ⟨rfl, -⟩ | hlt' := ih hb <;> exact Or.inr (by omega)
        · rw [cstr_of_not_mem hzero] at hno ⊢
          obtain ⟨rfl, h0, h37⟩ | hlt' := ih hb
          · exact Or.inl ⟨rfl, fun h => (List.mem_append.mp h).elim hzero h0, fun h => (List.mem_append.mp h).elim hno h37⟩
          · exact Or.inr (by omega)
      · obtain ⟨rfl, -⟩ | hlt' := ih hb <;> exact Or.inr (by omega)

/-- Before, an end of headers is not printed. -/
theorem receive_false_cases (h : receive false chunks = some out) : out = [] ∨ out.length + 4 ≤ chunks.flatten.length := by
  induction chunks generalizing out with
  | nil =>
      cases h
      exact Or.inl rfl
  | cons chunk chunks ih =>
      rw [receive, if_neg (by decide)] at h
      rw [List.flatten_cons, List.length_append]
      cases hfind : strstr (cstr chunk) headerEnd with
      | none =>
          rw [hfind] at h
          obtain rfl | hle := ih h
          · exact Or.inl rfl
          · exact Or.inr (by omega)
      | some t =>
          rw [hfind] at h
          obtain ⟨a, ha, h⟩ := Option.bind_eq_some_iff.mp h
          obtain ⟨b, hb, h⟩ := Option.bind_eq_some_iff.mp h
          cases h
          obtain ⟨hpre, hsuf⟩ := find_some hfind
          have hlen : headerEnd.length = 4 := rfl
          have h4 := hpre.length_le
          have hle := hsuf.length_le
          have hcstr := length_cstr_le chunk
          have hdrop := List.length_drop (i := 4) (l := t)
          have ha' : a.length ≤ (t.drop 4).length := by
            dsimp only at ha
            obtain ⟨rfl, -⟩ | hlt := (printFormat_cases _).1 a ha <;> omega
          have hb' : b.length ≤ chunks.flatten.length := by
            obtain ⟨rfl, -⟩ | hlt := receive_true_cases hb <;> omega
          rw [List.length_append]
          exact Or.inr (by omega)

/-- The end of the headers `h` is in one piece, with no null before it in this piece. -/
def Whole (chunks : List (List Byte)) (h : List Byte) : Prop :=
  ∃ before a b after, chunks = before ++ (a ++ headerEnd ++ b) :: after ∧ before.flatten ++ a = h ∧ 0 ∉ a

/-- What holds no end of headers prints nothing. -/
theorem receive_short (h : chunks.flatten.length < 4) : receive false chunks = some [] := by
  induction chunks with
  | nil => rfl
  | cons chunk chunks ih =>
      rw [List.flatten_cons, List.length_append] at h
      have hnone : strstr (cstr chunk) headerEnd = none := by
        refine find_eq_none_iff.mpr fun b u hsplit hu => ?_
        have hle := hu.length_le
        have hcstr := length_cstr_le chunk
        have hend : headerEnd.length = 4 := rfl
        rw [hsplit, List.length_append] at hcstr
        omega
      rw [receive, if_neg (by decide), hnone]
      exact ih (by omega)

theorem cstr_append_of_mem (h : 0 ∈ s) (t : List Byte) : cstr (s ++ t) = cstr s := by
  have hlt : (s.takeWhile (· != 0)).length < s.length := length_cstr_lt h
  rw [cstr, List.takeWhile_append, if_neg (by omega)]
  rfl

theorem Whole.length_le (hwhole : Whole (chunk :: chunks) h) : chunk.length ≤ h.length ∨ h.length + 4 ≤ chunk.length := by
  have hend : headerEnd.length = 4 := rfl
  obtain ⟨before, a, b, after, heq, rfl, -⟩ := hwhole
  cases before with
  | nil =>
      obtain ⟨rfl, -⟩ := List.cons.inj heq
      refine Or.inr ?_
      simp only [List.flatten_nil, List.nil_append, List.length_append, hend]
      omega
  | cons c before =>
      obtain ⟨rfl, -⟩ := List.cons.inj heq
      refine Or.inl ?_
      simp only [List.flatten_cons, List.length_append]
      omega

/-- **What the client prints**: the body that was sent, if the body is empty, or has
neither nulls nor percent signs and the end of the headers comes in one piece. -/
theorem receive_iff (hfirst : find headerEnd (h ++ (headerEnd ++ body)) = some (headerEnd ++ body))
    (hchunks : chunks.flatten = h ++ (headerEnd ++ body)) :
    receive false chunks = some body ↔ body = [] ∨ Plain body ∧ Whole chunks h := by
  have hend : headerEnd.length = 4 := rfl
  induction chunks generalizing h with
  | nil =>
      have hlen := congrArg List.length hchunks
      simp only [List.flatten_nil, List.length_nil, List.length_append, hend] at hlen
      omega
  | cons chunk chunks ih =>
      rw [List.flatten_cons] at hchunks
      have hpre : chunk <+: h ++ (headerEnd ++ body) := ⟨_, hchunks⟩
      have hlen := congrArg List.length hchunks
      simp only [List.length_append, hend] at hlen
      have hcstr : cstr chunk <+: h ++ (headerEnd ++ body) := (List.takeWhile_prefix _).trans hpre
      by_cases hle : chunk.length < h.length + 4
      · -- the headers do not end in this piece
        have hnone : strstr (cstr chunk) headerEnd = none :=
          find_eq_none_of_prefix hfirst hcstr (Nat.lt_of_le_of_lt (length_cstr_le chunk) hle)
        have hstep : receive false (chunk :: chunks) = receive false chunks := by
          rw [receive, if_neg (by decide), hnone]
          rfl
        rw [hstep]
        by_cases hin : chunk.length ≤ h.length
        · obtain ⟨h', rfl⟩ := List.prefix_of_prefix_length_le hpre (List.prefix_append h _) hin
          rw [List.append_assoc] at hchunks
          refine (ih (find_of_append hfirst) (List.append_cancel_left hchunks)).trans ?_
          refine or_congr_right (and_congr_right fun _ => ⟨?_, ?_⟩)
          · rintro ⟨before, a, b, after, rfl, rfl, ha⟩
            exact ⟨chunk :: before, a, b, after, rfl, by rw [List.flatten_cons, List.append_assoc], ha⟩
          · rintro ⟨before, a, b, after, heq, hh, ha⟩
            cases before with
            | nil =>
                obtain ⟨rfl, -⟩ := List.cons.inj heq
                have := congrArg List.length hh
                simp only [List.flatten_nil, List.nil_append, List.length_append, hend] at this hle
                omega
            | cons c before =>
                obtain ⟨rfl, rfl⟩ := List.cons.inj heq
                rw [List.flatten_cons, List.append_assoc] at hh
                exact ⟨before, a, b, after, rfl, List.append_cancel_left hh, ha⟩
        · -- they are cut in two
          refine ⟨fun hrec => ?_, fun hor => ?_⟩
          · obtain rfl | hlong := receive_false_cases hrec
            · exact Or.inl rfl
            · omega
          · obtain rfl | ⟨-, hwhole⟩ := hor
            · rw [List.length_nil] at hlen
              exact receive_short (by omega)
            · have := hwhole.length_le
              omega
      · -- the headers end in this piece
        obtain ⟨b, rfl⟩ : h ++ headerEnd <+: chunk := List.prefix_of_prefix_length_le
          (by rw [← List.append_assoc]; exact List.prefix_append _ _) hpre (by rw [List.length_append, hend]; omega)
        rw [List.append_assoc, List.append_assoc] at hchunks
        obtain rfl : b ++ chunks.flatten = body := List.append_cancel_left (List.append_cancel_left hchunks)
        by_cases hzero : 0 ∈ h
        · have hshort : cstr (h ++ headerEnd ++ b) = cstr h := by
            rw [List.append_assoc]
            exact cstr_append_of_mem hzero _
          have hnone : strstr (cstr (h ++ headerEnd ++ b)) headerEnd = none := by
            refine find_eq_none_of_prefix hfirst hcstr ?_
            rw [hshort]
            have := length_cstr_lt hzero
            omega
          have hstep : receive false ((h ++ headerEnd ++ b) :: chunks) = receive false chunks := by
            rw [receive, if_neg (by decide), hnone]
            rfl
          rw [hstep]
          refine ⟨fun hrec => ?_, fun hor => ?_⟩
          · obtain hnil | hlong := receive_false_cases hrec
            · exact Or.inl hnil
            · rw [List.length_append] at hlong
              omega
          · obtain hnil | ⟨-, before, a, b', after, heq, hh, ha⟩ := hor
            · obtain ⟨rfl, hflat⟩ := List.append_eq_nil_iff.mp hnil
              rw [hflat]
              exact receive_short (by rw [hflat]; decide)
            · cases before with
              | nil => exact absurd (by rwa [← hh] at hzero) ha
              | cons c before =>
                  obtain ⟨rfl, rfl⟩ := List.cons.inj heq
                  have := congrArg List.length hh
                  simp only [List.flatten_cons, List.length_append, hend] at this
                  omega
        · have hfind : strstr (cstr (h ++ headerEnd ++ b)) headerEnd = some (headerEnd ++ cstr b) := by
            have hsplit : cstr (h ++ headerEnd ++ b) = h ++ (headerEnd ++ cstr b) := by
              rw [List.append_assoc, cstr_append hzero, cstr_append (by decide)]
            rw [hsplit]
            exact find_of_prefix_append hfirst (hsplit ▸ hcstr) (List.prefix_append _ _)
          have hstep : receive false ((h ++ headerEnd ++ b) :: chunks) = receive true (b :: chunks) := by
            rw [receive, receive, if_neg (by decide), hfind]
            rfl
          rw [hstep]
          refine ⟨fun hrec => ?_, fun hor => ?_⟩
          · obtain ⟨-, hplain⟩ | hlt := receive_true_cases hrec
            · exact Or.inr ⟨hplain, [], h, b, chunks, rfl, rfl, hzero⟩
            · exact absurd hlt (Nat.lt_irrefl _)
          · obtain hnil | ⟨hplain, -⟩ := hor
            · have hplain : Plain (b :: chunks).flatten := by
                rw [List.flatten_cons, hnil]
                exact ⟨List.not_mem_nil, List.not_mem_nil⟩
              exact receive_plain hplain
            · exact receive_plain hplain

end Receive

end OperatingSystem.Web
