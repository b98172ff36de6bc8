import OperatingSystem.Pool.Order
import OperatingSystem.Pool.Startup
import OperatingSystem.Web.Shared

/-!
# OperatingSystem.Web.Server

`webserver_part2.c` as a whole: the jobs of the pool are `handler`'s, one for each
connection that `listener` accepts, and the handlers share `strtok`'s variable.

The pool excludes nothing between two handlers.  With one worker they run one
after another all the same, so that each connection gets what `process` alone
would send, in the order in which they came (`one_worker`); with more workers than
one there are interleavings in which a connection does not (`isolates_iff`).
-/

namespace OperatingSystem.Web

open Function Pool

/-! ## webserver_part2.c -/

/-- The pool, and what the handlers share. -/
structure Server (n : Nat) (ι : Type) where
  sys : Sys n ι
  threads : Threads ι

/-- An event of the pool, or a call of `strtok` in worker `i`. -/
inductive Act (n : Nat) (ι : Type) where
  | pool (e : Event n ι)
  | strtok (i : Fin n)

/-- The calls of `strtok` in `process`, which returns before them when `fgets` reads nothing. -/
def calls (input : List Byte) : Nat := if input = [] then 0 else 3

variable {n : Nat} {ι : Type}

/-- The connection whose handler returns with this event. -/
def returning (s : Sys n ι) : Event n ι → Option ι
  | .worker i _ =>
      match s.worker i with
      | .running _ x => some x
      | _ => none
  | _ => none

/-- The pool's events in a run. -/
def pools (es : List (Act n ι)) : List (Event n ι) :=
  es.filterMap fun a =>
    match a with
    | .pool e => some e
    | .strtok _ => none

namespace Server

def start (n : Nat) (ι : Type) : Server n ι := ⟨.start n ι, .start⟩

variable [DecidableEq ι]

/-- What happens next, where connection `x` sends `input x`: a handler makes its
calls, and returns behind the last. -/
def next (input : ι → List Byte) (s : Server n ι) : Act n ι → Option (Server n ι)
  | .pool e =>
      if ∀ x ∈ returning s.sys e, (s.threads.tokens x).length = calls (input x) then
        (Pool.next s.sys e).map fun sys => { s with sys := sys }
      else none
  | .strtok i =>
      match s.sys.worker i with
      | .running _ x =>
          if (s.threads.tokens x).length < calls (input x) then
            some { s with threads := s.threads.call (fun k => line (input k)) x }
          else none
      | _ => none

/-- What the handler of connection `x` sends. -/
def reply (m : Machine) (s : Server n ι) (x : ι) : Outcome := answer m (requestIn (s.threads.tokens x))

end Server

/-! ## Runs -/

theorem pools_append (es es' : List (Act n ι)) : pools (es ++ es') = pools es ++ pools es' := List.filterMap_append

section

variable [DecidableEq ι] {input : ι → List Byte} {s s' : Server n ι}

theorem strtok_cases {i : Fin n} (h : s.next input (.strtok i) = some s') :
    ∃ p x, s.sys.worker i = .running p x ∧ (s.threads.tokens x).length < calls (input x) ∧
      s' = { s with threads := s.threads.call (fun k => line (input k)) x } := by
  simp only [Server.next] at h
  split at h
  · simp only [Option.ite_none_right_eq_some, Option.some.injEq] at h
    exact ⟨_, _, ‹_›, h.1, h.2.symm⟩
  · cases h

/-- The pool of a server runs as it does without `strtok`. -/
theorem exec_sys {es : List (Act n ι)} {a : Act n ι} (h : Run.exec Pool.next (Sys.start n ι) (pools es) = some s.sys)
    (hnext : s.next input a = some s') : Run.exec Pool.next (Sys.start n ι) (pools (es ++ [a])) = some s'.sys := by
  rw [pools_append]
  cases a with
  | pool e =>
      simp only [Server.next, Option.ite_none_right_eq_some, Option.map_eq_some_iff] at hnext
      obtain ⟨-, sys, hsys, rfl⟩ := hnext
      show Run.exec _ _ (pools es ++ [e]) = _
      rw [Run.exec_concat, h]
      exact hsys
  | strtok i =>
      obtain ⟨_, _, -, -, rfl⟩ := strtok_cases hnext
      rwa [show pools [(.strtok i : Act n ι)] = [] from rfl, List.append_nil]

end

/-! ## One worker -/

/-- The request in a stream. -/
def request (input : List Byte) : Option (List Byte × List Byte) := if input = [] then none else requestOf (line input)

theorem answer_request (m : Machine) (input : List Byte) : answer m (request input) = process m input := by
  by_cases h : input = []
  · rw [request, if_pos h, h]
    rfl
  · rw [request, if_neg h, process_eq_answer m h]

variable [DecidableEq ι] {input : ι → List Byte} {s : Server 1 ι} {x : ι}

/-- What the handlers have read: the ones that have returned, their requests; the
one that runs, what it would alone; the ones not called, nothing. -/
structure Replies (input : ι → List Byte) (s : Server 1 ι) : Prop where
  returned : ∀ x ∈ s.sys.pool.returned, requestIn (s.threads.tokens x) = request (input x)
  uncalled : ∀ x, x ∉ s.sys.pool.called → s.threads.tokens x = []
  running : ∀ x ∈ (s.sys.worker 0).inside, ∃ t : Threads ι, t.tokens x = [] ∧
    s.threads = t.run (fun k => line (input k)) (List.replicate (s.threads.tokens x).length x)

/-- A handler that has made its calls one after another has read its request. -/
theorem requestIn_replicate {t : Threads ι} (ht : t.tokens x = []) :
    requestIn ((t.run (fun k => line (input k)) (List.replicate (calls (input x)) x)).tokens x) = request (input x) := by
  by_cases h : input x = []
  · rw [calls, request, if_pos h, if_pos h]
    show requestIn (t.tokens x) = none
    rw [ht]
    rfl
  · rw [calls, request, if_neg h, if_neg h]
    exact Threads.requestIn_consecutive ht

theorem Replies.strtok {p : Nat} (h : Replies input s)
    (hcalled : (s.sys.pool.called : Multiset ι) = ↑s.sys.pool.returned + (s.sys.worker 0).inside)
    (hnodup : s.sys.pool.called.Nodup) (hx : s.sys.worker 0 = .running p x)
    (hlen : (s.threads.tokens x).length < calls (input x)) :
    Replies input { s with threads := s.threads.call (fun k => line (input k)) x } := by
  have hthree : (s.threads.tokens x).length < 3 := by
    refine hlen.trans_le ?_
    rw [calls]
    split <;> decide
  have hin : (s.sys.worker 0).inside = {x} := by rw [hx]; rfl
  rw [hin] at hcalled
  have hmem : x ∈ s.sys.pool.called := by
    rw [← Multiset.mem_coe, hcalled]
    exact Multiset.mem_add.mpr (.inr (Multiset.mem_singleton_self x))
  have hnot : x ∉ s.sys.pool.returned := by
    rw [← Multiset.coe_nodup, hcalled] at hnodup
    exact fun hret => Multiset.disjoint_left.mp (Multiset.nodup_add.mp hnodup).2.2 (Multiset.mem_coe.mpr hret)
      (Multiset.mem_singleton_self x)
  refine ⟨fun y hy => ?_, fun y hy => ?_, fun y hy => ?_⟩
  · show requestIn ((s.threads.call _ x).tokens y) = _
    rw [Threads.call_other (ne_of_mem_of_not_mem hy hnot)]
    exact h.returned y hy
  · show (s.threads.call _ x).tokens y = []
    rw [Threads.call_other (ne_of_mem_of_not_mem hmem hy).symm]
    exact h.uncalled y hy
  · have hy' : y ∈ (s.sys.worker 0).inside := hy
    obtain rfl : y = x := by simpa [hin] using hy'
    obtain ⟨t, ht, hthreads⟩ := h.running y hy'
    refine ⟨t, ht, ?_⟩
    dsimp only
    rw [Threads.length_call hthree, List.replicate_succ', Threads.run_append, ← hthreads]
    rfl

theorem Replies.pool {sys : Sys 1 ι} {e : Event 1 ι} (h : Replies input s) (hphases : Phases s.sys)
    (hstep : Pool.Step s.sys e sys)
    (hreturn : ∀ x ∈ returning s.sys e, (s.threads.tokens x).length = calls (input x)) (hnodup : sys.pool.called.Nodup) :
    Replies input { s with sys := sys } := by
  obtain ⟨hcalled, hret, hin⟩ | ⟨i, woken, p, x, rfl, -, ⟨-, -, hcalled, hret, hin⟩ | ⟨hi, hcalled, hret, hin⟩⟩ :=
    hstep.calls hphases
  · refine ⟨fun y hy => ?_, fun y hy => ?_, fun y hy => ?_⟩
    · exact h.returned y (hret ▸ hy)
    · exact h.uncalled y (hcalled ▸ hy)
    · exact h.running y (hin 0 ▸ hy)
  · -- the job that is called was not called before
    rw [Subsingleton.elim i 0] at hin
    refine ⟨fun y hy => ?_, fun y hy => ?_, fun y hy => ?_⟩
    · exact h.returned y (hret ▸ hy)
    · refine h.uncalled y fun hmem => hy ?_
      show y ∈ sys.pool.called
      rw [hcalled]
      exact List.mem_append_left _ hmem
    · obtain rfl : y = x := Multiset.mem_singleton.mp (hin ▸ hy)
      rw [hcalled] at hnodup
      have hnot : y ∉ s.sys.pool.called := fun hmem =>
        List.disjoint_of_nodup_append hnodup hmem (List.mem_singleton_self y)
      have hnil := h.uncalled y hnot
      refine ⟨s.threads, hnil, ?_⟩
      show s.threads = Threads.run _ (List.replicate (s.threads.tokens y).length y) s.threads
      rw [hnil]
      rfl
  · rw [Subsingleton.elim i 0] at hi hin
    refine ⟨fun y hy => ?_, fun y hy => ?_, fun y hy => ?_⟩
    · have hy' : y ∈ s.sys.pool.returned ++ [x] := hret ▸ hy
      obtain hy' | hy' := List.mem_append.mp hy'
      · exact h.returned y hy'
      · -- the handler that returns has made all its calls, and nobody else made one
        obtain rfl := List.mem_singleton.mp hy'
        obtain ⟨t, ht, hthreads⟩ := h.running y (by rw [hi]; exact Multiset.mem_singleton_self y)
        have hlen := hreturn y (by rw [returning, Subsingleton.elim i 0, hi]; rfl)
        show requestIn (s.threads.tokens y) = _
        rw [hthreads, hlen]
        exact requestIn_replicate ht
    · exact h.uncalled y (hcalled ▸ hy)
    · rw [hin] at hy
      exact absurd hy (Multiset.notMem_zero y)

/-- What holds after the run `es`. -/
structure Serial (input : ι → List Byte) (es : List (Act 1 ι)) (s : Server 1 ι) : Prop where
  run : Run.exec Pool.next (Sys.start 1 ι) (pools es) = some s.sys
  replies : (added (pools es)).Nodup → Replies input s

theorem Serial.step {es : List (Act 1 ι)} {a : Act 1 ι} {s' : Server 1 ι} (h : Serial input es s)
    (hnext : s.next input a = some s') : Serial input (es ++ [a]) s' := by
  have hinv := inv_of_run h.run
  have hrun := exec_sys h.run hnext
  refine ⟨hrun, fun hnodup => ?_⟩
  have hold : (added (pools es)).Nodup := by
    rw [pools_append, added_append] at hnodup
    exact (List.nodup_append.mp hnodup).1
  cases a with
  | pool e =>
      simp only [Server.next, Option.ite_none_right_eq_some, Option.map_eq_some_iff] at hnext
      obtain ⟨hreturn, sys, hsys, rfl⟩ := hnext
      exact (h.replies hold).pool hinv.base.phases (next_cases hsys) hreturn (hnodup.sublist (in_order hrun).2.sublist)
  | strtok i =>
      obtain ⟨p, x, hx, hlen, rfl⟩ := strtok_cases hnext
      rw [Subsingleton.elim i 0] at hx
      exact (h.replies hold).strtok hinv.inside_eq (hold.sublist (in_order h.run).2.sublist) hx hlen

theorem serial_of_run {es : List (Act 1 ι)} (h : Run.exec (Server.next input) (Server.start 1 ι) es = some s) :
    Serial input es s :=
  Run.exec_induct (Serial input) ⟨rfl, fun _ => ⟨by rintro _ ⟨⟩, fun _ _ => rfl, by rintro _ ⟨⟩⟩⟩
    (fun _ _ _ _ ht hnext => ht.step hnext) es s h

theorem Serial.reply {es : List (Act 1 ι)} (h : Serial input es s) (hnodup : (added (pools es)).Nodup)
    (hx : x ∈ s.sys.pool.returned) (m : Machine) : s.reply m x = process m (input x) := by
  rw [Server.reply, (h.replies hnodup).returned x hx, answer_request]

/-- **One worker.**  In every interleaving of the listener and one worker, the
connections are served in the order in which they came, and each is sent exactly
what `process` alone would send. -/
theorem one_worker {es : List (Act 1 ι)} (h : Run.exec (Server.next input) (Server.start 1 ι) es = some s)
    (hnodup : (added (pools es)).Nodup) :
    s.sys.pool.returned <+: added (pools es) ∧
      ∀ x ∈ s.sys.pool.returned, ∀ m, s.reply m x = process m (input x) := by
  obtain ⟨hret, hcalled⟩ := in_order (serial_of_run h).run
  exact ⟨hret.trans hcalled, fun _ hx m => (serial_of_run h).reply hnodup hx m⟩

/-- The listener adds a second connection while the worker runs the first one's
handler, and the worker runs them one after the other. -/
def twoConnections : List (Act 1 Bool) :=
  let i : Fin 1 := ⟨0, Nat.one_pos⟩
  [.pool (.init true), .pool (.create true), .pool (.create true), .pool (.worker i none), .pool (.worker i none),
    .pool (.caller none), .pool (.add true (some 0) none)] ++
  List.replicate 3 (.pool (.caller none)) ++ List.replicate 7 (.pool (.worker i none)) ++ [.strtok i] ++
  [.pool (.add false (some 1) none)] ++ List.replicate 3 (.pool (.caller none)) ++ List.replicate 2 (.strtok i) ++
  List.replicate 10 (.pool (.worker i none)) ++ List.replicate 3 (.strtok i) ++ [.pool (.worker i none)]

theorem twoConnections_runs : (Run.exec (Server.next clients) (Server.start 1 Bool) twoConnections).isSome := by decide

theorem one_worker_twoConnections :
    let s := (Run.exec (Server.next clients) (Server.start 1 Bool) twoConnections).get twoConnections_runs
    s.sys.pool.returned = [true, false] ∧
      ∀ x, s.reply (.hosting [] [] [str "/a", str "/b"]) x = process (.hosting [] [] [str "/a", str "/b"]) (clients x) := by
  have hserved := (one_worker (Option.some_get twoConnections_runs).symm (by decide)).2
  refine ⟨by decide, fun x => hserved x ?_ _⟩
  revert x
  decide

/-! ## More workers -/

section

variable {n : Nat}

omit [DecidableEq ι] in
theorem returned_of_returning {sys sys' : Sys n ι} {e : Event n ι} (h : Pool.Step sys e sys') (hx : returning sys e = some x) :
    sys'.pool.returned = sys.pool.returned ++ [x] := by
  cases h with
  | @worker i pool w sig woken _ _ hdo hsig =>
      rw [returning] at hx
      split at hx
      · rename_i p y hrun
        obtain rfl := Option.some.inj hx
        rw [hrun] at hdo
        cases hdo
        rw [(signal_woken hsig).pool]
      · cases hx
  | _ => cases hx

/-- As long as no handler returns, the pool's events can happen in the server. -/
theorem exec_pools {sys : Sys n ι} {es : List (Event n ι)} (h : Run.exec Pool.next (Sys.start n ι) es = some sys)
    (hret : sys.pool.returned = []) :
    Run.exec (Server.next input) (Server.start n ι) (es.map .pool) = some ⟨sys, .start⟩ := by
  induction es using List.reverseRecOn generalizing sys with
  | nil =>
      cases h
      rfl
  | append_singleton es e ih =>
      obtain ⟨sys', hrun, hnext⟩ := Run.exec_concat_some h
      have hstep := next_cases hnext
      have hnone : returning sys' e = none := by
        by_contra hsome
        obtain ⟨x, hx⟩ := Option.ne_none_iff_exists'.mp hsome
        have hmore := returned_of_returning hstep hx
        rw [hret] at hmore
        simp at hmore
      have hret' : sys'.pool.returned = [] := by
        obtain ⟨-, hsame, -⟩ | ⟨i, woken, p, x, -, -, ⟨-, -, -, hsame, -⟩ | ⟨-, -, hmore, -⟩⟩ :=
          hstep.calls (inv_of_run hrun).base.phases
        · exact hsame ▸ hret
        · exact hsame ▸ hret
        · rw [hret] at hmore
          simp at hmore
      rw [List.map_append, List.map_singleton, Run.exec_concat, ih hrun hret', Option.bind_some]
      simp [Server.next, hnone, hnext]

theorem next_strtok {sys : Sys n ι} {t : Threads ι} {i : Fin n} {p : Nat} (hx : sys.worker i = .running p x)
    (hlen : (t.tokens x).length < calls (input x)) :
    Server.next input ⟨sys, t⟩ (.strtok i) = some ⟨sys, t.call (fun k => line (input k)) x⟩ := by
  simp only [Server.next, hx, if_pos hlen]

end

/-- Without a worker no handler runs. -/
theorem returned_of_no_worker {ι : Type} {es : List (Event 0 ι)} {sys : Sys 0 ι}
    (h : Run.exec Pool.next (Sys.start 0 ι) es = some sys) : sys.pool.returned = [] := by
  have hrun := Run.exec_induct (fun es s => Inv es s ∧ s.pool.returned = []) ⟨.start, rfl⟩ (fun es s e s' ht hnext => ?_) es sys h
  · exact hrun.2
  · have hstep := next_cases hnext
    obtain ⟨-, hsame, -⟩ | ⟨i, -⟩ := hstep.calls ht.1.base.phases
    · exact ⟨ht.1.step hstep, hsame.trans ht.2⟩
    · exact i.elim0

/-- In `s` two workers run the handlers of `x` and `y` at once.  With what happens in
`es` and then in `es'`, the first handler returns and has read its request; with one
call of `strtok` by the other in between, it returns and has none. -/
structure Interrupted {n : Nat} (input : ℕ → List Byte) (s : Server n ℕ) (i j : Fin n) (x y : ℕ)
    (es es' : List (Act n ℕ)) : Prop where
  running : ∃ p, s.sys.worker i = .running p x
  other : ∃ p, s.sys.worker j = .running p y
  alone : ∃ s', Run.exec (Server.next input) s (es ++ es') = some s' ∧ x ∈ s'.sys.pool.returned ∧
    requestIn (s'.threads.tokens x) = request (input x)
  lost : ∃ s', Run.exec (Server.next input) s (es ++ .strtok j :: es') = some s' ∧ x ∈ s'.sys.pool.returned ∧
    requestIn (s'.threads.tokens x) = none

/-- Two connections, the second of which sends nothing but a null: its handler,
called between the first two calls of the other, leaves the other no third token. -/
theorem interrupted {n : Nat} {i j : Fin n} (hij : j ≠ i) :
    ∃ (es : List (Act n ℕ)) (s : Server n ℕ), Run.exec (Server.next (oneLine 0)) (Server.start n ℕ) es = some s ∧
      (added (pools (es ++ ([.strtok i] ++ .strtok j :: [.strtok i, .strtok i, .pool (.worker i none)])))).Nodup ∧
      Interrupted (oneLine 0) s i j 0 1 [.strtok i] [.strtok i, .strtok i, .pool (.worker i none)] := by
  obtain ⟨es, sys, hrun, hadded, hret, hfreed, hi, hj⟩ := two_running hij 0 1
  have hpools : pools (es.map (.pool : Event n ℕ → Act n ℕ)) = es := by
    simp [pools, List.filterMap_map]
  let sys' : Sys n ℕ :=
    { sys with pool := { sys.pool with returned := sys.pool.returned ++ [0] }, worker := update sys.worker i (.free 0) }
  have hnext : Pool.next sys (.worker i none) = some sys' := next_worker hfreed (by rw [hi]; rfl) rfl
  have hmem : 0 ∈ sys'.pool.returned := List.mem_append_right _ (List.mem_singleton_self 0)
  let t : Threads ℕ := .run (fun k => line (oneLine 0 k)) [0, 0, 0] .start
  let u : Threads ℕ := .run (fun k => line (oneLine 0 k)) [0, 1, 0, 0] .start
  have hrequest : requestIn (t.tokens 0) = request (oneLine 0 0) := by decide
  have hnone : requestIn (u.tokens 0) = none := by decide
  -- the first handler returns when it has made its three calls
  have hreturn (t : Threads ℕ) (ht : (t.tokens 0).length = 3) :
      Server.next (oneLine 0) ⟨sys, t⟩ (.pool (.worker i none)) = some ⟨sys', t⟩ := by
    rw [Server.next, if_pos, hnext]
    · rfl
    · intro x hx
      rw [returning, hi] at hx
      obtain rfl := Option.some.inj hx
      exact ht
  refine ⟨es.map .pool, ⟨sys, .start⟩, exec_pools hrun hret, ?_, ⟨0, hi⟩, ⟨1, hj⟩, ?_, ?_⟩
  · rw [pools_append, hpools, added_append, hadded]
    show ([0, 1] : List ℕ).Nodup
    decide
  · refine ⟨⟨sys', t⟩, ?_, hmem, hrequest⟩
    rw [List.singleton_append, Run.exec, next_strtok hi (by decide), Option.bind_some, Run.exec, next_strtok hi (by decide),
      Option.bind_some, Run.exec, next_strtok hi (by decide), Option.bind_some, Run.exec_single]
    exact hreturn t (by decide)
  · refine ⟨⟨sys', u⟩, ?_, hmem, hnone⟩
    rw [List.singleton_append, Run.exec, next_strtok hi (by decide), Option.bind_some, Run.exec, next_strtok hj (by decide),
      Option.bind_some, Run.exec, next_strtok hi (by decide), Option.bind_some, Run.exec, next_strtok hi (by decide),
      Option.bind_some, Run.exec_single]
    exact hreturn u (by decide)

/-- **Isolation of the server.**  A server gives every client what `process` alone
would, in every interleaving, if and only if it has no more than one worker; with two
or more there is a run behind which two handlers run at once, and one loses its
request to a call of `strtok` that the other makes. -/
theorem isolates_iff (n : Nat) :
    ((∀ (input : ℕ → List Byte) (es : List (Act n ℕ)) (s : Server n ℕ),
        Run.exec (Server.next input) (Server.start n ℕ) es = some s → (added (pools es)).Nodup →
        ∀ x ∈ s.sys.pool.returned, ∀ m, s.reply m x = process m (input x)) ↔ n ≤ 1) ∧
      (2 ≤ n → ∃ (input : ℕ → List Byte) (es : List (Act n ℕ)) (s : Server n ℕ) (i j : Fin n) (x y : ℕ)
        (es₁ es₂ : List (Act n ℕ)), Run.exec (Server.next input) (Server.start n ℕ) es = some s ∧
          (added (pools (es ++ (es₁ ++ .strtok j :: es₂)))).Nodup ∧ i ≠ j ∧ request (input x) ≠ none ∧
          Interrupted input s i j x y es₁ es₂) := by
  have htwo (hn : 2 ≤ n) : (⟨1, hn⟩ : Fin n) ≠ ⟨0, Nat.zero_lt_of_lt hn⟩ := by simp
  have hrequest : request (oneLine 0 0) ≠ none := by decide
  refine ⟨⟨fun h => ?_, ?_⟩, fun hn => ?_⟩
  · by_contra hn
    obtain ⟨es, s, hrun, hnodup, -, -, -, s', hlost, hmem, hnone⟩ := interrupted (htwo (by omega))
    have hone := h (oneLine 0) _ s' (by rw [Run.exec_append, hrun]; exact hlost) hnodup 0 hmem (.hosting [] [] [])
    rw [Server.reply, hnone, ← answer_request] at hone
    have hvalue : (answer (.hosting [] [] []) (request (oneLine 0 0))).value = .ok 0 := rfl
    rw [← hone] at hvalue
    exact absurd (Except.ok.inj hvalue) (by decide)
  · intro hn input es s hrun hnodup x hx m
    obtain rfl | rfl : n = 0 ∨ n = 1 := by omega
    · have hsys := Run.exec_induct (fun es (s : Server 0 ℕ) => Run.exec Pool.next (Sys.start 0 ℕ) (pools es) = some s.sys) rfl
        (fun _ _ _ _ ht hnext => exec_sys ht hnext) es s hrun
      rw [returned_of_no_worker hsys] at hx
      exact absurd hx List.not_mem_nil
    · exact (serial_of_run hrun).reply hnodup hx m
  · obtain ⟨es, s, hrun, hnodup, hint⟩ := interrupted (htwo hn)
    exact ⟨_, es, s, _, _, _, _, _, _, hrun, hnodup, (htwo hn).symm, hrequest, hint⟩

end OperatingSystem.Web
