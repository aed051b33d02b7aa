/-
  A reported cycle is a real one.

  WHERE IT IS FOUND
    A call whose goal is in flight is refused, and the path is cut out of the stack: from the attempt for
    that goal inwards, and then the parameter that asked for it again.

  HOW IT TRAVELS (`reentered_of_cyclic`)
    The calls above fail in turn.  Each of them writes its own label into the error and hands the path on
    as it is, so whatever a query reports was found at one of its calls.

  WHAT THE STACK IS (`run_of_mem_calls`)
    A call is made for a parameter that a match left open, while the instance that matched is in flight
    (`Leads`).  So the stack of a call, read from the outside in, is the run of attempts that led there
    from the query; and the path is the end of that run, from the repeated goal on.

  STATEMENT (`cycle_reported`)
    If a query fails with a cycle, the path is a run from a call of the query to another one that asks for
    the same goal, and what asked for it.  The goals of the run are pairwise different.
-/
import InstanceSearch.Proofs.Catalog.Declared
import InstanceSearch.Proofs.Search.CycleGuard

namespace InstanceSearch.Search

variable {q : Search}

/-! ## Runs of attempts -/

/-- `q.Leads c i p d`: in the round of the call `c` the instance `i` passed the filter, and the call `d`
    was made for the parameter `p` that it left open. -/
structure Leads (q : Search) (c : Call) (i : Instance) (p : Param) (d : Call) : Prop where
  candidate : .declared i ∈ q.candidates.values
  passed : ∃ n m, q.match? (.declared i) (q.requirement c.request) c.request.context n = some m ∧
    p ∈ q.openParams m
  label : d.request.label = p.name
  constraints : d.request.constraints = p.constraints
  made : (d.request, d.state) ∈ q.stepCalls (q.solve (q.config.maxDepth - c.depth)) c.request c.state
  stack : d.state.stack = ⟨i.name, q.goal c.request⟩ :: c.state.stack
  deeper : d.depth = c.depth + 1

/-- `q.Run c as d`: from the call `c` the attempts `as` led to the call `d`, one after the other. -/
inductive Run (q : Search) : Call → List Attempt → Call → Prop where
  | nil (c : Call) : Run q c [] c
  | cons {c d e : Call} {i : Instance} {p : Param} {as : List Attempt} (h : q.Leads c i p d)
      (rest : Run q d as e) : Run q c (⟨i.name, q.goal c.request⟩ :: as) e

namespace Run

variable {c d : Call} {as bs : List Attempt}

/-- The attempts of a run are on the stack when it ends. -/
theorem stack (h : q.Run c as d) : d.state.stack = as.reverse ++ c.state.stack := by
  induction h with
  | nil c => rfl
  | cons h _ ih => rw [ih, h.stack, List.reverse_cons, List.append_assoc, List.singleton_append]

theorem depth (h : q.Run c as d) : d.depth = c.depth + as.length := by
  induction h with
  | nil c => rfl
  | cons h _ ih => rw [ih, h.deeper, List.length_cons, Nat.add_right_comm, Nat.add_assoc]

/-- A run may be cut in two anywhere. -/
theorem split (h : q.Run c (as ++ bs) d) : ∃ e, q.Run c as e ∧ q.Run e bs d := by
  induction as generalizing c with
  | nil => exact ⟨c, .nil c, h⟩
  | cons a as ih =>
    cases h with
    | cons h rest =>
      obtain ⟨e, hfirst, hlast⟩ := ih rest
      exact ⟨e, .cons h hfirst, hlast⟩

/-- The first attempt of a run is for the goal of the call that it starts from. -/
theorem goal_eq {a : Attempt} (h : q.Run c (a :: as) d) : a.goal = q.goal c.request := by
  cases h with
  | cons h rest => rfl

/-- The call that a run ends in asks for a parameter that was left open. -/
theorem exists_last (h : q.Run c as d) (hne : as ≠ []) : ∃ e i p, q.Leads e i p d := by
  induction h with
  | nil c => exact absurd rfl hne
  | @cons c d e i p as h rest ih =>
    by_cases hlast : as = []
    · subst hlast
      cases rest with
      | nil => exact ⟨c, i, p, h⟩
    · exact ih hlast

end Run

/-! ## The runs of a query -/

section Calls

variable {levels depth : Nat} {r : Request} {st : State} {c d : Call}

/-- What a call of a round leads to. -/
theorem exists_leads {x : Request × State}
    (hx : x ∈ q.stepCalls (q.solve (q.config.maxDepth - c.depth)) c.request c.state) :
    ∃ i p, q.Leads c i p ⟨c.depth + 1, x.1, x.2⟩ := by
  obtain ⟨_, m, hm, i, p, hopens⟩ := opens_of_mem_stepCalls (q.solve_stack _) hx
  obtain ⟨candidate, hcandidate, n, _, hmatch⟩ := mem_matchAll hm
  obtain rfl : candidate = .declared i := (match?_ok hmatch).1.symm.trans hopens.candidate
  exact ⟨i, p, hcandidate, ⟨n, m, hmatch, hopens.isOpen⟩, hopens.label, hopens.constraints, hx,
    hopens.stack, rfl⟩

/-- **Every call is reached by a run** from the first one. -/
theorem run_of_mem_calls (hlevels : depth + levels = q.config.maxDepth + 1)
    (hc : c ∈ q.calls levels depth r st) : ∃ as, q.Run ⟨depth, r, st⟩ as c := by
  induction levels generalizing depth r st with
  | zero =>
    rw [calls, List.mem_singleton] at hc
    exact ⟨[], hc ▸ .nil _⟩
  | succ levels ih =>
    rw [calls, List.mem_cons, List.mem_flatMap] at hc
    rcases hc with rfl | ⟨x, hx, hc⟩
    · exact ⟨[], .nil _⟩
    · obtain ⟨as, hrun⟩ := ih (by omega) hc
      have hleft : levels = q.config.maxDepth - depth := by omega
      obtain ⟨i, p, hleads⟩ := exists_leads (c := ⟨depth, r, st⟩) (hleft ▸ hx)
      exact ⟨_, .cons hleads hrun⟩

/-- What a call leads to is a call. -/
theorem mem_calls_of_leads {i : Instance} {p : Param} (hlevels : depth + levels = q.config.maxDepth + 1)
    (hc : c ∈ q.calls levels depth r st) (hdepth : c.depth ≤ q.config.maxDepth) (h : q.Leads c i p d) :
    d ∈ q.calls levels depth r st := by
  obtain ⟨e, request, state⟩ := d
  obtain rfl : e = c.depth + 1 := h.deeper
  exact mem_calls_of_made hlevels hc hdepth (List.mem_map.2 ⟨(request, state), h.made, rfl⟩)

/-- All calls that a run passes are calls of the query, if the last one is not too deep. -/
theorem mem_calls_of_run {as : List Attempt} (hlevels : depth + levels = q.config.maxDepth + 1)
    (hc : c ∈ q.calls levels depth r st) (h : q.Run c as d) (hdepth : d.depth ≤ q.config.maxDepth + 1) :
    d ∈ q.calls levels depth r st := by
  induction h with
  | nil c => exact hc
  | cons h rest ih =>
    have hrest := rest.depth
    have hdeeper := h.deeper
    exact ih (mem_calls_of_leads hlevels hc (by omega) h) hdepth

end Calls

/-! ## Where a cycle is found -/

/-- The path that is cut out of a stack is the inner end of it, from the attempt for the goal on. -/
theorem of_reentry_eq_some {stack path : List Attempt} {goal : String}
    (h : reentry stack goal = some path) :
    ∃ outer a inner, stack.reverse = outer ++ a :: inner ∧ path = a :: inner ∧ a.goal = goal := by
  unfold reentry at h
  split at h
  · cases h
  · rename_i hne
    injection h with h
    subst h
    obtain ⟨a, inner, hcut⟩ := List.exists_cons_of_ne_nil hne
    refine ⟨stack.reverse.takeWhile fun a => a.goal != goal, a, inner, ?_, hcut, ?_⟩
    · rw [← hcut, List.takeWhile_append_dropWhile]
    · have hhead := List.head_dropWhile_not (fun a : Attempt => a.goal != goal) hne
      simp only [hcut, List.head_cons] at hhead
      simpa using hhead

/-- A cycle is reported only if a candidate was rejected for it. -/
theorem rejected_of_explain_cyclic {label l : String} {path : List Attempt} {required : List Capability}
    {rejected : List (String × Rejection)} (h : q.explain label required rejected = .cyclic l path) :
    l = label ∧ ∃ name l', (name, Rejection.dependency (.cyclic l' path)) ∈ rejected := by
  unfold explain at h
  split at h
  · cases h
  · split at h
    · rename_i path' hfound
      injection h with hl hpath
      subst hl hpath
      obtain ⟨⟨name, rejection⟩, hm, hcycle⟩ := List.exists_of_findSome?_eq_some hfound
      unfold Rejection.cycle? at hcycle
      split at hcycle
      · rename_i l' path heq
        injection hcycle with hcycle
        subst hcycle
        exact ⟨rfl, name, l', by rw [← heq]; exact hm⟩
      · cases hcycle
    · cases h

/-- A round reports a cycle if its own goal is in flight, or if one of its calls reports it. -/
theorem reentry_or_failed {solver : Solver} {r : Request} {st : State} {l : String}
    {path : List Attempt} (h : (q.step solver r st).1 = .error (.cyclic l path)) :
    l = r.label ∧
      ((∃ inner, reentry st.stack (q.goal r) = some inner ∧ path = inner ++ [⟨r.label, q.goal r⟩]) ∨
        ∃ c ∈ q.stepCalls solver r st, ∃ l', (solver c.1 c.2).1 = .error (.cyclic l' path)) := by
  rcases step_error h with ⟨inner, hinner, he⟩ | he | ⟨rejected, he | ⟨_, he⟩, hcalls⟩
  · injection he with hl hpath
    exact ⟨hl, .inl ⟨inner, hinner, hpath⟩⟩
  · cases he
  · obtain ⟨hl, name, l', hm⟩ := rejected_of_explain_cyclic he.symm
    obtain ⟨c, hc, hce⟩ := hcalls name _ hm
    exact ⟨hl, .inr ⟨c, hc, l', hce⟩⟩
  · cases he

/-- **What a search reports was found at one of its calls**, and is handed on as it is: only the label is
    that of the search. -/
theorem reentered_of_cyclic {levels : Nat} (depth : Nat) {r : Request} {st : State} {l : String}
    {path : List Attempt} (h : (q.solve levels r st).1 = .error (.cyclic l path)) :
    l = r.label ∧ ∃ d ∈ q.calls levels depth r st, d.depth < depth + levels ∧
      ∃ inner, reentry d.state.stack (q.goal d.request) = some inner ∧
        path = inner ++ [⟨d.request.label, q.goal d.request⟩] := by
  induction levels generalizing depth r st l with
  | zero => cases h
  | succ levels ih =>
    obtain ⟨hl, hhere | ⟨c, hc, l', hfail⟩⟩ := reentry_or_failed h
    · exact ⟨hl, _, self_mem_calls q _ depth r st, by dsimp only; omega, hhere⟩
    · obtain ⟨_, d, hd, hdepth, hfound⟩ := ih (depth + 1) hfail
      refine ⟨hl, d, ?_, by omega, hfound⟩
      rw [calls, List.mem_cons, List.mem_flatMap]
      exact Or.inr ⟨c, hc, hd⟩

/-! ## A reported cycle -/

/-- `q.Cycle c as d`: the attempts `as` led from the call `c` to the call `d`, which asks for the same goal once
    more and is refused. -/
structure Cycle (q : Search) (c : Call) (as : List Attempt) (d : Call) : Prop where
  run : q.Run c as d
  nonempty : as ≠ []
  /-- no goal is asked for twice before -/
  distinct : (as.map Attempt.goal).Nodup
  /-- the last call is for a parameter that a match left open -/
  asked : ∃ e i p, q.Leads e i p d
  closed : q.goal d.request = q.goal c.request
  inFlight : q.goal d.request ∈ d.state.goals
  refused : q.answer d =
    (.error (.cyclic d.request.label (as ++ [⟨d.request.label, q.goal c.request⟩])), d.state)

/-- A call of a query whose goal is in flight closes a cycle. -/
theorem cycle_of_reentry {p : Param} {context : Subst} {d : Call} (hd : d ∈ q.queryCalls p context)
    (hdepth : d.depth < q.config.maxDepth + 1) {as : List Attempt}
    (h : reentry d.state.stack (q.goal d.request) = some as) :
    ∃ c ∈ q.queryCalls p context, q.Cycle c as d := by
  have hlevels : 0 + (q.config.maxDepth + 1) = q.config.maxDepth + 1 := Nat.zero_add _
  obtain ⟨outer, a, inner, hstack, rfl, hgoal⟩ := of_reentry_eq_some h
  -- the stack is the run to this call, and the path is what is left of the run at the repeated goal
  obtain ⟨before, hrun⟩ := run_of_mem_calls hlevels hd
  have hbefore : before = outer ++ a :: inner := by
    rw [← hstack, hrun.stack]
    simp [queryState]
  obtain ⟨c, hfirst, hlast⟩ := (hbefore ▸ hrun).split
  have hc : c ∈ q.queryCalls p context := by
    have hle := hlast.depth
    exact mem_calls_of_run hlevels (self_mem_calls q _ _ _ _) hfirst (by omega)
  have hclosed : q.goal d.request = q.goal c.request := hgoal.symm.trans hlast.goal_eq
  refine ⟨c, hc, hlast, List.cons_ne_nil _ _, ?_, hlast.exists_last (List.cons_ne_nil _ _), hclosed, ?_, ?_⟩
  · have hstart : Guarded 0 (q.queryState p context) := ⟨rfl, List.nodup_nil⟩
    have hnodup := (List.reverse_perm _).nodup_iff.2 (guarded_of_mem_calls hstart hd).nodup
    rw [State.goals, ← List.map_reverse, hstack, List.map_append] at hnodup
    exact (List.nodup_append.1 hnodup).2.1
  · refine Decidable.of_not_not fun hnew => ?_
    rw [reentry_eq_none_iff.2 hnew] at h
    cases h
  · rw [answer_eq_step (Nat.le_of_lt_succ hdepth), ← hclosed]
    exact step_of_reentry h

/-- **A reported cycle is a real one.**  If a query fails with a cycle, then the path is a run of attempts for
    pairwise different goals, each of which led to the next one, and the parameter that asked for the first
    goal again; and a query in which no call asks for a goal in flight never fails so. -/
theorem cycle_reported (q : Search) (p : Param) (context : Subst) :
    (∀ l path, q.resolveWith p context = .error (.cyclic l path) →
      l = p.name ∧ 2 ≤ path.length ∧
        ∃ c ∈ q.queryCalls p context, ∃ d ∈ q.queryCalls p context, ∃ as, q.Cycle c as d ∧
          path = as ++ [⟨d.request.label, q.goal c.request⟩]) ∧
    ((∀ c ∈ q.queryCalls p context, q.goal c.request ∉ c.state.goals) →
      ∀ l path, q.resolveWith p context ≠ .error (.cyclic l path)) := by
  have hreported : ∀ l path, q.resolveWith p context = .error (.cyclic l path) → l = p.name ∧
      ∃ c ∈ q.queryCalls p context, ∃ d ∈ q.queryCalls p context, ∃ as, q.Cycle c as d ∧
        path = as ++ [⟨d.request.label, q.goal c.request⟩] := by
    intro l path h
    obtain ⟨hl, d, hd, hdepth, as, hinner, hpath⟩ := reentered_of_cyclic 0 (solve_of_resolveWith_error h)
    rw [Nat.zero_add] at hdepth
    obtain ⟨c, hc, hcycle⟩ := cycle_of_reentry hd hdepth hinner
    exact ⟨hl, c, hc, d, hd, as, hcycle, hcycle.closed ▸ hpath⟩
  constructor
  · intro l path h
    obtain ⟨hl, c, hc, d, hd, as, hcycle, hpath⟩ := hreported l path h
    have hpos := List.length_pos_iff.2 hcycle.nonempty
    refine ⟨hl, ?_, c, hc, d, hd, as, hcycle, hpath⟩
    rw [hpath, List.length_append, List.length_singleton]
    omega
  · intro hnew l path h
    obtain ⟨_, _, _, d, hd, _, hcycle, _⟩ := hreported l path h
    exact hnew d hd hcycle.inFlight

/-- Equality and order, each derived from the other, and a start that needs equality of numbers. -/
def nestedCircular : Except DeclError Catalog := do
  let eq := fun t : Ty => (⟨"Eq", [t]⟩ : Capability)
  let ord := fun t : Ty => (⟨"Ord", [t]⟩ : Capability)
  let cat ← Catalog.empty.declareConcept ⟨"Start", [], [], []⟩
  let cat ← cat.declareConcept ⟨"Eq", [⟨0, "T", .ordinary⟩], [], []⟩
  let cat ← cat.declareConcept ⟨"Ord", [⟨1, "T", .ordinary⟩], [], []⟩
  let (_, cat) ← cat.declareInstance Catalog.root ⟨"StartByEq",
    [⟨2, "N", .witness [eq (Ty.con "Int" [])]⟩], [⟨"Start", []⟩], false, false, none, []⟩
  let (_, cat) ← cat.declareInstance Catalog.root ⟨"EqByOrd",
    [⟨3, "T", .ordinary⟩, ⟨4, "O", .witness [ord (.var 3 (some "T"))]⟩], [eq (.var 3 (some "T"))],
    false, false, none, []⟩
  let (_, cat) ← cat.declareInstance Catalog.root ⟨"OrdByEq",
    [⟨5, "U", .ordinary⟩, ⟨6, "E", .witness [eq (.var 5 (some "U"))]⟩], [ord (.var 5 (some "U"))],
    false, false, none, []⟩
  return cat

/-- The query for a start. -/
def startQuery : Param := ⟨20, "W", .witness [⟨"Start", []⟩]⟩

/-- The cycle that a query failed with. -/
def cycle? : Except SearchError Resolution → Option (List Attempt)
  | .error (.cyclic _ path) => some path
  | _ => none

theorem error_of_cycle? {x : Except SearchError Resolution} {path : List Attempt}
    (h : cycle? x = some path) : ∃ l, x = .error (.cyclic l path) := by
  unfold cycle? at h
  split at h
  · rename_i l path'
    injection h with h
    exact ⟨l, by rw [h]⟩
  · cases h

/-- The cycle is found below the instance for the start, which is not in the path, and is reported for the
    query. -/
theorem cycle_reported_nested : ∃ q : Search, ∃ path,
    q.resolveWith startQuery .empty = .error (.cyclic "W" path) ∧
    path.map Attempt.text = ["EqByOrd for Eq<Int>", "OrdByEq for Ord<Int>", "E for Eq<Int>"] ∧
    ∃ c ∈ q.queryCalls startQuery .empty, ∃ d ∈ q.queryCalls startQuery .empty, ∃ as, q.Cycle c as d ∧
      path = as ++ [⟨d.request.label, q.goal c.request⟩] := by
  have h : okAnd nestedCircular (fun cat => okAnd (cat.searchAt .default Catalog.root) fun q =>
      decide ((cycle? (q.resolveWith startQuery .empty)).map (List.map Attempt.text) =
        some ["EqByOrd for Eq<Int>", "OrdByEq for Ord<Int>", "E for Eq<Int>"])) = true := by decide +kernel
  obtain ⟨_, _, h⟩ := okAnd_eq_true h
  obtain ⟨q, _, h⟩ := okAnd_eq_true h
  obtain ⟨path, hpath, htexts⟩ := Option.map_eq_some_iff.1 (of_decide_eq_true h)
  obtain ⟨l, hfailed⟩ := error_of_cycle? hpath
  obtain ⟨hl, _, hcycle⟩ := (cycle_reported q startQuery .empty).1 l path hfailed
  subst hl
  exact ⟨q, path, hfailed, htexts, hcycle⟩

end InstanceSearch.Search
