/-
  The cycle guard.

  THE PROGRAM
    A round refuses a goal that is in flight.  While the dependencies of an instance are solved, the
    instance stands on the stack with the goal that it is tried for; afterwards the stack is as before.

  WHAT IT KEEPS (`Guarded`)
    At every call of a search the stack has as many entries as the call is deep, and the goals on it are
    pairwise different.  A round that hands a call down has checked that its own goal is not among them
    (`guarded_of_mem_stepCalls`), and it hands every call the stack that it found itself, because no
    call changes it (`solve_stack`).

  WHY THE DEPTH IS BOUNDED
    Every goal in flight is the goal of a call further up (`goals_from_calls`).  So a call is no deeper
    than there are different goals in the whole search, and a search whose goals are no more than the
    depth limit never comes to it.

  All this is said of the calls in a list, and the list has every call and no others
  (`queryCalls_complete`).
-/
import InstanceSearch.Proofs.Search.Calls
import InstanceSearch.Proofs.Search.Rounds

namespace InstanceSearch.Search

/-- The goals in flight, innermost first. -/
def State.goals (st : State) : List String := st.stack.map Attempt.goal

/-- A goal is refused exactly if it is in flight. -/
theorem reentry_eq_none_iff {stack : List Attempt} {goal : String} :
    reentry stack goal = none ↔ goal ∉ stack.map Attempt.goal := by
  have hdrop : reentry stack goal = none ↔
      stack.reverse.dropWhile (fun a => a.goal != goal) = [] := by
    unfold reentry
    split <;> rename_i h
    · simp [h]
    · exact ⟨fun hpath => (nomatch hpath), fun hnil => absurd hnil h⟩
  have hall : ∀ as : List Attempt, as.dropWhile (fun a => a.goal != goal) = [] ↔
      goal ∉ as.map Attempt.goal := by
    intro as
    induction as with
    | nil => simp
    | cons a as ih =>
      by_cases ha : a.goal = goal
      · simp [ha]
      · have ha' : ¬ goal = a.goal := fun he => ha he.symm
        simp [ha, ha', ih]
  rw [hdrop, hall, List.map_reverse, List.mem_reverse]

/-! ## The stack is given back -/

theorem persistent_stack : Persistent fun st st' => st'.stack = st.stack where
  refl _ := rfl
  trans h h' := h'.trans h
  attempt _ _ _ h := congrArg List.tail h
  draw _ _ _ := rfl

/-- **A call gives back the stack that it was given**, whether it succeeds or fails. -/
theorem solve_stack (q : Search) (levels : Nat) (r : Request) (st : State) :
    (q.solve levels r st).2.stack = st.stack := persistent_stack.solve_state q levels r st

/-! ## What a call finds on the stack -/

theorem stack_of_mem_paramCalls {solver : Solver} (h : ∀ r st, (solver r st).2.stack = st.stack)
    {ps : List Param} {s : Subst} {st : State} {c : Request × State}
    (hc : c ∈ paramCalls solver ps s st) : c.2.stack = st.stack := by
  induction ps generalizing s st with
  | nil => cases hc
  | cons p ps ih =>
    have hfirst := h ⟨p.name, p.constraints, s⟩ st
    rw [paramCalls, List.mem_cons] at hc
    rcases hc with hc | hc
    · rw [hc]
    · rcases hout : solver ⟨p.name, p.constraints, s⟩ st with ⟨e | solved, st'⟩
      · rw [hout] at hc
        cases hc
      · rw [hout] at hc hfirst
        exact (ih hc).trans hfirst

theorem asked_of_mem_paramCalls {solver : Solver} {ps : List Param} {s : Subst} {st : State}
    {c : Request × State} (hc : c ∈ paramCalls solver ps s st) :
    ∃ p ∈ ps, c.1.label = p.name ∧ c.1.constraints = p.constraints := by
  induction ps generalizing s st with
  | nil => cases hc
  | cons p ps ih =>
    rw [paramCalls, List.mem_cons] at hc
    rcases hc with rfl | hc
    · exact ⟨p, List.mem_cons_self, rfl, rfl⟩
    · rcases hout : solver ⟨p.name, p.constraints, s⟩ st with ⟨e | solved, st'⟩
      · rw [hout] at hc
        cases hc
      · rw [hout] at hc
        obtain ⟨p', hp', hasked⟩ := ih hc
        exact ⟨p', List.mem_cons_of_mem p hp', hasked⟩

/-- `q.Opens goal stack m i p c`: the call asks for the parameter `p` that the match `m` of the instance `i`
    left open, and finds the instance in flight for the goal. -/
structure Opens (q : Search) (goal : String) (stack : List Attempt) (m : Matched) (i : Instance) (p : Param)
    (c : Request × State) : Prop where
  candidate : m.candidate = .declared i
  isOpen : p ∈ q.openParams m
  label : c.1.label = p.name
  constraints : c.1.constraints = p.constraints
  stack : c.2.stack = ⟨i.name, goal⟩ :: stack

/-- Every call for the matches of a goal is one for an open parameter. -/
theorem opens_of_mem_surviveAllCalls {q : Search} {solver : Solver}
    (h : ∀ r st, (solver r st).2.stack = st.stack) {goal : String} {ms : List Matched} {st : State}
    {c : Request × State} (hc : c ∈ q.surviveAllCalls solver goal ms st) :
    ∃ m ∈ ms, ∃ i p, q.Opens goal st.stack m i p c := by
  induction ms generalizing st with
  | nil => cases hc
  | cons m ms ih =>
    rw [surviveAllCalls, List.mem_append] at hc
    rcases hc with hc | hc
    · unfold surviveCalls at hc
      split at hc
      · cases hc
      · rename_i i hi
        dsimp only at hc
        split at hc
        · cases hc
        · obtain ⟨p, hp, hlabel, hconstraints⟩ := asked_of_mem_paramCalls hc
          exact ⟨m, List.mem_cons_self, i, p, hi, hp, hlabel, hconstraints, stack_of_mem_paramCalls h hc⟩
    · rw [← persistent_stack.survive_state h goal m st]
      obtain ⟨m', hm', hopens⟩ := ih hc
      exact ⟨m', List.mem_cons_of_mem m hm', hopens⟩

/-- **A round calls for what its matches left open**, with its own goal, which was not in flight, on top of
    the stack that it found. -/
theorem opens_of_mem_stepCalls {q : Search} {solver : Solver}
    (h : ∀ r st, (solver r st).2.stack = st.stack) {r : Request} {st : State} {c : Request × State}
    (hc : c ∈ q.stepCalls solver r st) : q.goal r ∉ st.goals ∧
      ∃ m ∈ (q.matchAll (q.requirement r) r.context q.candidates.values st.next).1,
        ∃ i p, q.Opens (q.goal r) st.stack m i p c := by
  unfold stepCalls at hc
  split at hc
  · cases hc
  · rename_i hnone
    have hopens := opens_of_mem_surviveAllCalls h hc
    exact ⟨reentry_eq_none_iff.1 hnone, hopens⟩

theorem stack_of_mem_stepCalls {q : Search} {solver : Solver}
    (h : ∀ r st, (solver r st).2.stack = st.stack) {r : Request} {st : State} {c : Request × State}
    (hc : c ∈ q.stepCalls solver r st) :
    q.goal r ∉ st.goals ∧ ∃ name, c.2.stack = ⟨name, q.goal r⟩ :: st.stack := by
  obtain ⟨hnew, _, _, i, _, hopens⟩ := opens_of_mem_stepCalls h hc
  exact ⟨hnew, i.name, hopens.stack⟩

/-! ## The invariant -/

/-- `Guarded depth st`: so many attempts are in flight, for pairwise different goals. -/
structure Guarded (depth : Nat) (st : State) : Prop where
  length : st.stack.length = depth
  nodup : st.goals.Nodup

/-- One round passes the invariant on to each of its calls, one level deeper. -/
theorem guarded_of_mem_stepCalls {q : Search} {solver : Solver} {depth : Nat}
    (h : ∀ r st, (solver r st).2.stack = st.stack) {r : Request} {st : State} {c : Request × State}
    (hst : Guarded depth st) (hc : c ∈ q.stepCalls solver r st) : Guarded (depth + 1) c.2 := by
  obtain ⟨hnew, name, hstack⟩ := stack_of_mem_stepCalls h hc
  have hgoals : c.2.goals = q.goal r :: st.goals := by
    rw [State.goals, hstack]
    rfl
  constructor
  · rw [hstack, List.length_cons, hst.length]
  · rw [hgoals, List.nodup_cons]
    exact ⟨hnew, hst.nodup⟩

/-- **All calls of a search are guarded**, if the first one is. -/
theorem guarded_of_mem_calls {q : Search} {levels depth : Nat} {r : Request} {st : State} {c : Call}
    (hst : Guarded depth st) (hc : c ∈ q.calls levels depth r st) : Guarded c.depth c.state := by
  induction levels generalizing depth r st with
  | zero =>
    rw [calls, List.mem_singleton] at hc
    rw [hc]
    exact hst
  | succ levels ih =>
    rw [calls, List.mem_cons, List.mem_flatMap] at hc
    rcases hc with hc | ⟨d, hd, hc⟩
    · rw [hc]
      exact hst
    · exact ih (guarded_of_mem_stepCalls (q.solve_stack levels) hst hd) hc

/-- **What is in flight was asked for**: a goal on the stack of a call was there from the beginning, or
    it is the goal of a call that is less deep. -/
theorem goals_from_calls {q : Search} {levels depth : Nat} {r : Request} {st : State} {c : Call}
    (hc : c ∈ q.calls levels depth r st) : ∀ g ∈ c.state.goals, g ∈ st.goals ∨
      ∃ d ∈ q.calls levels depth r st, d.depth < c.depth ∧ q.goal d.request = g := by
  induction levels generalizing depth r st with
  | zero =>
    intro g hg
    rw [calls, List.mem_singleton] at hc
    rw [hc] at hg
    exact Or.inl hg
  | succ levels ih =>
    intro g hg
    rw [calls, List.mem_cons, List.mem_flatMap] at hc
    rcases hc with hc | ⟨d, hd, hc⟩
    · rw [hc] at hg
      exact Or.inl hg
    · have hbelow : ∀ e ∈ q.calls levels (depth + 1) d.1 d.2, e ∈ q.calls (levels + 1) depth r st := by
        intro e he
        rw [calls, List.mem_cons, List.mem_flatMap]
        exact Or.inr ⟨d, hd, he⟩
      rcases ih hc g hg with hg | ⟨e, he, hlt, heq⟩
      · -- what the inner call found was put there by this one, or stood there before
        obtain ⟨_, name, hstack⟩ := stack_of_mem_stepCalls (q.solve_stack levels) hd
        rw [State.goals, hstack, List.map_cons, List.mem_cons] at hg
        rcases hg with hg | hg
        · right
          refine ⟨⟨depth, r, st⟩, self_mem_calls q _ _ _ _, ?_, hg.symm⟩
          have := (depth_le_of_mem_calls hc).1
          show depth < c.depth
          omega
        · exact Or.inl hg
      · exact Or.inr ⟨e, hbelow e he, hlt, heq⟩

/-- **No call is deeper than there are goals.** -/
theorem depth_le_of_goals {q : Search} {levels : Nat} {r : Request} {st : State} {c : Call}
    (hst : st.stack = []) (hc : c ∈ q.calls levels 0 r st) {texts : List String}
    (htexts : ∀ d ∈ q.calls levels 0 r st, d.depth < levels → q.goal d.request ∈ texts) :
    c.depth ≤ texts.length := by
  have hempty : st.goals = [] := by rw [State.goals, hst]; rfl
  have hstart : Guarded 0 st := by
    constructor
    · rw [hst]; rfl
    · rw [hempty]; exact List.nodup_nil
  have hguard := guarded_of_mem_calls hstart hc
  -- pairwise different goals that all are among the texts are no more than the texts
  have hsub : ∀ g ∈ c.state.goals, g ∈ texts := by
    intro g hg
    rcases goals_from_calls hc g hg with hg | ⟨d, hd, hlt, rfl⟩
    · rw [hempty] at hg
      cases hg
    · have := (depth_le_of_mem_calls hc).2
      exact htexts d hd (by omega)
  have hlength : c.state.goals.length = c.depth := by
    rw [State.goals, List.length_map, hguard.length]
  rw [← hlength]
  exact hguard.nodup.length_le_of_subset hsub

/-! ## Where a failure comes from -/

/-- If the open parameters cannot be solved, it is one of the calls for them that failed. -/
theorem failed_paramCall {solver : Solver} {ps : List Param} {s : Subst} {st : State} {e : SearchError}
    (h : (solveParams solver ps s st).1 = .error e) :
    ∃ c ∈ paramCalls solver ps s st, (solver c.1 c.2).1 = .error e := by
  induction ps generalizing s st with
  | nil => cases h
  | cons p ps ih =>
    rw [paramCalls]
    rcases hout : solver ⟨p.name, p.constraints, s⟩ st with ⟨e' | solved, st'⟩
    · rw [solveParams_of_error hout] at h
      refine ⟨_, List.mem_cons_self .., ?_⟩
      injection h with h
      dsimp only
      rw [hout, h]
    · rcases hmore : solveParams solver ps solved.subst st' with ⟨e' | ⟨s', ws⟩, st''⟩
      · rw [solveParams_of_ok hout hmore] at h
        have hrest : (solveParams solver ps solved.subst st').1 = .error e := by
          rw [hmore]
          exact h
        obtain ⟨c, hc, hce⟩ := ih hrest
        exact ⟨c, List.mem_cons_of_mem _ hc, hce⟩
      · rw [solveParams_of_ok hout hmore] at h
        cases h

/-- A match that is rejected for a dependency made a call that failed. -/
theorem failed_surviveCall {q : Search} {solver : Solver} {goal : String} {m : Matched} {st : State}
    {e : SearchError} (h : (q.survive solver goal m st).1 = .error (.dependency e)) :
    ∃ c ∈ q.surviveCalls solver goal m st, (solver c.1 c.2).1 = .error e := by
  unfold surviveCalls
  cases hcand : m.candidate with
  | ambient p =>
    rw [survive_of_ambient hcand] at h
    cases h
  | declared i =>
    by_cases hpolicy : q.Refuses m
    · rw [survive_of_refused hcand hpolicy] at h
      cases h
    · rcases hsolved : solveParams solver (q.openParams m) m.subst
        { st with stack := ⟨i.name, goal⟩ :: st.stack } with ⟨e' | x, st'⟩
      · rw [survive_of_solved hcand hpolicy st hsolved] at h
        injection h with h
        injection h with h
        rw [Refuses] at hpolicy
        dsimp only
        rw [if_neg hpolicy]
        apply failed_paramCall
        rw [hsolved, h]
      · rw [survive_of_solved hcand hpolicy st hsolved] at h
        cases h

theorem failed_surviveAllCall {q : Search} {solver : Solver} {goal : String} {ms : List Matched}
    {st : State} {name : String} {e : SearchError}
    (h : (name, Rejection.dependency e) ∈ (q.surviveAll solver goal ms st).1.2) :
    ∃ c ∈ q.surviveAllCalls solver goal ms st, (solver c.1 c.2).1 = .error e := by
  induction ms generalizing st with
  | nil => cases h
  | cons m ms ih =>
    rw [surviveAllCalls]
    rcases hx : q.survive solver goal m st with ⟨x, st₁⟩
    rw [surviveAll_cons hx rfl] at h
    have hrest : (name, Rejection.dependency e) ∈ (q.surviveAll solver goal ms st₁).1.2 →
        ∃ c ∈ q.surviveCalls solver goal m st ++ q.surviveAllCalls solver goal ms st₁,
          (solver c.1 c.2).1 = .error e := by
      intro hm
      obtain ⟨c, hc, hce⟩ := ih hm
      exact ⟨c, List.mem_append.2 (Or.inr hc), hce⟩
    cases x with
    | ok w => exact hrest h
    | error r =>
      rcases List.mem_cons.1 h with h | h
      · injection h with _ h
        have hfail : (q.survive solver goal m st).1 = .error (.dependency e) := by rw [hx, h]
        obtain ⟨c, hc, hce⟩ := failed_surviveCall hfail
        exact ⟨c, List.mem_append.2 (Or.inl hc), hce⟩
      · exact hrest h

/-- **How a round fails**: its goal is in flight, or nothing matches, or no survivor can be chosen.  Who was
    rejected for a dependency then made a call that failed. -/
theorem step_error {q : Search} {solver : Solver} {r : Request} {st : State} {e : SearchError}
    (h : (q.step solver r st).1 = .error e) :
    (∃ path, reentry st.stack (q.goal r) = some path ∧
      e = .cyclic r.label (path ++ [⟨r.label, q.goal r⟩])) ∨
    e = .noInstance r.label (q.requirement r) [] ∨
    ∃ rejected, (e = q.explain r.label (q.requirement r) rejected ∨
        ∃ names, e = .ambiguous r.label (q.requirement r) names) ∧
      ∀ name e', (name, Rejection.dependency e') ∈ rejected →
        ∃ c ∈ q.stepCalls solver r st, (solver c.1 c.2).1 = .error e' := by
  unfold stepCalls goal
  cases hre : reentry st.stack (goalText q.frozen (q.requirement r)) with
  | some path =>
    rw [step_of_reentry hre] at h
    injection h with h
    exact .inl ⟨path, rfl, h.symm⟩
  | none =>
    by_cases hempty : (q.matchAll (q.requirement r) r.context q.candidates.values st.next).1.isEmpty
    · rw [step_of_no_match hre rfl hempty] at h
      injection h with h
      exact .inr (.inl h.symm)
    · rw [step_of_matches hre rfl hempty rfl] at h
      exact .inr (.inr ⟨_, choose_error h, fun name e' hm => failed_surviveAllCall hm⟩)

/-- A depth limit is reported only if a candidate was rejected for one. -/
theorem rejected_of_explain_depthLimit {q : Search} {label l : String} {n : Nat}
    {required : List Capability} {rejected : List (String × Rejection)}
    (h : q.explain label required rejected = .depthLimit l n) :
    ∃ name l' n', (name, Rejection.dependency (.depthLimit l' n')) ∈ rejected := by
  unfold explain at h
  split at h
  · rename_i hany
    obtain ⟨⟨name, r⟩, hr, hlimit⟩ := List.any_eq_true.1 hany
    unfold Rejection.isDepthLimit at hlimit
    split at hlimit
    · rename_i l' n' heq
      exact ⟨name, l', n', by rw [← heq]; exact hr⟩
    · cases hlimit
  · split at h <;> cases h

/-- A round ends at the depth limit only if one of its calls did. -/
theorem failed_stepCall {q : Search} {solver : Solver} {r : Request} {st : State} {l : String} {n : Nat}
    (h : (q.step solver r st).1 = .error (.depthLimit l n)) :
    ∃ c ∈ q.stepCalls solver r st, ∃ l' n', (solver c.1 c.2).1 = .error (.depthLimit l' n') := by
  rcases step_error h with ⟨_, _, he⟩ | he | ⟨rejected, he | ⟨_, he⟩, hcalls⟩
  · cases he
  · cases he
  · obtain ⟨name, l', n', hm⟩ := rejected_of_explain_depthLimit he.symm
    obtain ⟨c, hc, hce⟩ := hcalls name _ hm
    exact ⟨c, hc, l', n', hce⟩
  · cases he

/-- **A search ends at the depth limit only if some call is at the limit.** -/
theorem call_at_limit {q : Search} {levels : Nat} (depth : Nat) {r : Request} {st : State} {l : String}
    {n : Nat} (h : (q.solve levels r st).1 = .error (.depthLimit l n)) :
    ∃ c ∈ q.calls levels depth r st, c.depth = depth + levels := by
  induction levels generalizing depth r st l n with
  | zero => exact ⟨⟨depth, r, st⟩, self_mem_calls q _ _ _ _, rfl⟩
  | succ levels ih =>
    obtain ⟨d, hd, l', n', hfail⟩ := failed_stepCall h
    obtain ⟨c, hc, hdepth⟩ := ih (depth + 1) hfail
    refine ⟨c, ?_, by omega⟩
    rw [calls, List.mem_cons, List.mem_flatMap]
    exact Or.inr ⟨d, hd, hc⟩

/-! ## The guard of a query -/

/-- A query fails at the depth limit only if the search for it does. -/
theorem solve_of_resolveWith_error {q : Search} {p : Param} {context : Subst} {e : SearchError}
    (h : q.resolveWith p context = .error e) :
    (q.solve (q.config.maxDepth + 1) (queryRequest p context) (q.queryState p context)).1 =
      .error e := by
  unfold resolveWith at h
  rw [queryRequest, queryState]
  split at h
  · rename_i e' he
    injection h with h
    rw [he, h]
  · cases h

/-- **The cycle guard.**  The listed calls are those that are made for a query.  At each of them the stack is
    as high as the call is deep, its goals are pairwise different, and the call gives it back.  So the
    depth check refuses a call only while one more goal than the limit is in flight; a query fails at the
    limit only if a call was refused; and where the goals of a query are among `texts`, no call is deeper
    than there are texts, and the query does not fail at a limit that is at least their number. -/
theorem cycle_guard (q : Search) (p : Param) (context : Subst) :
    q.Complete p context (q.queryCalls p context) ∧
    (∀ c ∈ q.queryCalls p context,
      c.state.stack.length = c.depth ∧ c.state.goals.Nodup ∧
        (q.answer c).2.stack = c.state.stack) ∧
    (∀ c ∈ q.queryCalls p context, q.config.maxDepth < c.depth →
      c.state.goals.length = q.config.maxDepth + 1 ∧ c.state.goals.Nodup) ∧
    (∀ l n, q.resolveWith p context = .error (.depthLimit l n) →
      ∃ c ∈ q.queryCalls p context, q.config.maxDepth < c.depth ∧
        q.answer c = (.error (.depthLimit c.request.label q.config.maxDepth), c.state)) ∧
    (∀ texts : List String,
      (∀ c ∈ q.queryCalls p context, c.depth ≤ q.config.maxDepth → q.goal c.request ∈ texts) →
      (∀ c ∈ q.queryCalls p context, c.depth ≤ texts.length) ∧
      (texts.length ≤ q.config.maxDepth →
        ∀ l n, q.resolveWith p context ≠ .error (.depthLimit l n))) := by
  have hguard : ∀ c ∈ q.queryCalls p context, Guarded c.depth c.state := by
    intro c hc
    have hstart : Guarded 0 (q.queryState p context) := ⟨rfl, List.nodup_nil⟩
    exact guarded_of_mem_calls hstart hc
  have hfired : ∀ l n, q.resolveWith p context = .error (.depthLimit l n) →
      ∃ c ∈ q.queryCalls p context, c.depth = q.config.maxDepth + 1 := by
    intro l n h
    obtain ⟨c, hc, hdepth⟩ := call_at_limit 0 (solve_of_resolveWith_error h)
    exact ⟨c, hc, by rw [hdepth, Nat.zero_add]⟩
  refine ⟨queryCalls_complete q p context, ?_, ?_, ?_, ?_⟩
  · intro c hc
    exact ⟨(hguard c hc).length, (hguard c hc).nodup, q.solve_stack _ _ _⟩
  · intro c hc hdeep
    have hlength := (hguard c hc).length
    have hbound := (depth_le_of_mem_calls hc).2
    refine ⟨?_, (hguard c hc).nodup⟩
    rw [State.goals, List.length_map]
    omega
  · intro l n h
    obtain ⟨c, hc, hdepth⟩ := hfired l n h
    refine ⟨c, hc, by omega, ?_⟩
    rw [answer, hdepth, Nat.sub_self]
    rfl
  · intro texts htexts
    have hdepth : ∀ c ∈ q.queryCalls p context, c.depth ≤ texts.length := by
      intro c hc
      apply depth_le_of_goals rfl hc
      intro d hd hlt
      exact htexts d hd (by omega)
    refine ⟨hdepth, ?_⟩
    intro hlimit l n h
    obtain ⟨c, hc, hfire⟩ := hfired l n h
    have := hdepth c hc
    omega

end InstanceSearch.Search
