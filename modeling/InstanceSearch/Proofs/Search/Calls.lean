/-
  The calls of a search.

  One round (`step`) calls its solver for the dependencies of the candidates that match, one after the
  other.  `stepCalls` lists these calls, each with its request and the state that it finds; and `calls`
  lists all calls below one call, itself included, with the depth at which each is nested.

  THE LIST IS COMPLETE (`queryCalls_complete`): it holds the first call of a query, whatever a listed call
  makes, and nothing else; and what a call is answered depends on the calls that it makes only, because a
  round depends on its solver at these calls only (`step_congr`).  So what is said of all calls in the list
  is said of everything that happens in a search.
-/
import InstanceSearch.Search.Resolve

namespace InstanceSearch.Search

/-! ## The calls of one round -/

/-- The calls that solving parameters in order makes: one for each up to the first that fails. -/
def paramCalls (solver : Solver) : List Param → Subst → State → List (Request × State)
  | [], _, _ => []
  | p :: ps, s, st =>
    (⟨p.name, p.constraints, s⟩, st) ::
      match solver ⟨p.name, p.constraints, s⟩ st with
      | (.error _, _) => []
      | (.ok solved, st) => paramCalls solver ps solved.subst st

/-- The calls for one match: those for its open parameters, with the instance in flight. -/
def surviveCalls (q : Search) (solver : Solver) (goal : String) (m : Matched) (st : State) :
    List (Request × State) :=
  match m.candidate with
  | .ambient _ => []
  | .declared i =>
    let opened := q.openParams m
    if !opened.isEmpty && q.config.policy == .rejectUnresolved then []
    else paramCalls solver opened m.subst { st with stack := ⟨i.name, goal⟩ :: st.stack }

/-- The calls for all matches of a goal. -/
def surviveAllCalls (q : Search) (solver : Solver) (goal : String) :
    List Matched → State → List (Request × State)
  | [], _ => []
  | m :: ms, st =>
    q.surviveCalls solver goal m st ++ q.surviveAllCalls solver goal ms (q.survive solver goal m st).2

/-- The goal of a request, as a text. -/
def goal (q : Search) (r : Request) : String := goalText q.frozen (q.requirement r)

/-- The calls of one round. -/
def stepCalls (q : Search) (solver : Solver) (r : Request) (st : State) : List (Request × State) :=
  match reentry st.stack (q.goal r) with
  | some _ => []
  | none =>
    let (matched, next) := q.matchAll (q.requirement r) r.context q.candidates.values st.next
    q.surviveAllCalls solver (q.goal r) matched { st with next }

/-! ## The list is complete -/

theorem solveParams_congr {solver solver' : Solver} {ps : List Param} {s : Subst} {st : State}
    (h : ∀ c ∈ paramCalls solver ps s st, solver' c.1 c.2 = solver c.1 c.2) :
    solveParams solver' ps s st = solveParams solver ps s st := by
  induction ps generalizing s st with
  | nil => rfl
  | cons p ps ih =>
    rw [paramCalls] at h
    have hfirst : solver' ⟨p.name, p.constraints, s⟩ st = solver ⟨p.name, p.constraints, s⟩ st :=
      h _ (List.mem_cons_self ..)
    rw [solveParams, solveParams, hfirst]
    rcases hout : solver ⟨p.name, p.constraints, s⟩ st with ⟨e | solved, st'⟩
    · rfl
    · rw [hout] at h
      dsimp only
      rw [ih fun c hc => h c (List.mem_cons_of_mem _ hc)]

theorem survive_congr {q : Search} {solver solver' : Solver} {goal : String} {m : Matched}
    {st : State} (h : ∀ c ∈ q.surviveCalls solver goal m st, solver' c.1 c.2 = solver c.1 c.2) :
    q.survive solver' goal m st = q.survive solver goal m st := by
  unfold survive
  unfold surviveCalls at h
  split
  · rfl
  · rename_i i hi
    rw [hi] at h
    dsimp only at h ⊢
    split
    · rfl
    · rename_i hpolicy
      rw [if_neg hpolicy] at h
      rw [solveParams_congr h]

theorem surviveAll_congr {q : Search} {solver solver' : Solver} {goal : String} {ms : List Matched}
    {st : State} (h : ∀ c ∈ q.surviveAllCalls solver goal ms st, solver' c.1 c.2 = solver c.1 c.2) :
    q.surviveAll solver' goal ms st = q.surviveAll solver goal ms st := by
  induction ms generalizing st with
  | nil => rfl
  | cons m ms ih =>
    rw [surviveAllCalls] at h
    have hfirst := survive_congr fun c hc => h c (List.mem_append.2 (Or.inl hc))
    have hrest := ih fun c hc => h c (List.mem_append.2 (Or.inr hc))
    rw [surviveAll, surviveAll, hfirst]
    dsimp only
    rw [hrest]

/-- **A round depends on its solver at the listed calls only.** -/
theorem step_congr {q : Search} {solver solver' : Solver} {r : Request} {st : State}
    (h : ∀ c ∈ q.stepCalls solver r st, solver' c.1 c.2 = solver c.1 c.2) :
    q.step solver' r st = q.step solver r st := by
  unfold step
  unfold stepCalls goal at h
  dsimp only at h ⊢
  split
  · rfl
  · rename_i hnone
    rw [hnone] at h
    dsimp only at h
    split
    · rfl
    · rw [surviveAll_congr h]

/-! ## All calls of a search -/

/-- A call of the solver: how deep it is nested, what it asks for, and the state that it finds. -/
structure Call where
  depth : Nat
  request : Request
  state : State

/-- `q.calls levels depth r st` = the call for `r` in the state `st`, at the given depth and with so
    many levels left, and all calls below it. -/
def calls (q : Search) : Nat → Nat → Request → State → List Call
  | 0, depth, r, st => [⟨depth, r, st⟩]
  | levels + 1, depth, r, st =>
    ⟨depth, r, st⟩ ::
      (q.stepCalls (q.solve levels) r st).flatMap fun c => q.calls levels (depth + 1) c.1 c.2

/-- The request that a query starts with. -/
def queryRequest (p : Param) (context : Subst) : Request := ⟨p.name, p.constraints, context⟩

/-- The state that a query starts with: new variables from the seed on, and nothing in flight. -/
def queryState (q : Search) (p : Param) (context : Subst) : State := ⟨q.seed p context, []⟩

/-- All calls that are made to resolve a parameter. -/
def queryCalls (q : Search) (p : Param) (context : Subst) : List Call :=
  q.calls (q.config.maxDepth + 1) 0 (queryRequest p context) (q.queryState p context)

/-- What the search answers to a call. -/
def answer (q : Search) (c : Call) : Answer Solved :=
  q.solve (q.config.maxDepth + 1 - c.depth) c.request c.state

/-- The calls that a call makes, unless it is refused for its depth. -/
def made (q : Search) (c : Call) : List Call :=
  (q.stepCalls (q.solve (q.config.maxDepth - c.depth)) c.request c.state).map fun d =>
    ⟨c.depth + 1, d.1, d.2⟩

/-- The call that a query starts with. -/
def firstCall (q : Search) (p : Param) (context : Subst) : Call :=
  ⟨0, queryRequest p context, q.queryState p context⟩

/-- `q.Complete p context cs`: the calls `cs` are those that are made to resolve a parameter. -/
structure Complete (q : Search) (p : Param) (context : Subst) (cs : List Call) : Prop where
  first : q.firstCall p context ∈ cs
  /-- a listed call makes listed calls -/
  closed : ∀ c ∈ cs, c.depth ≤ q.config.maxDepth → ∀ d ∈ q.made c, d ∈ cs
  /-- and a call is listed for no other reason -/
  reached : ∀ d ∈ cs, d = q.firstCall p context ∨
    ∃ c ∈ cs, c.depth ≤ q.config.maxDepth ∧ d ∈ q.made c
  /-- a call makes no others: any solver that answers these as the search does leads to its answer -/
  decisive : ∀ c ∈ cs, c.depth ≤ q.config.maxDepth → ∀ solver : Solver,
    (∀ d ∈ q.made c, solver d.request d.state = q.answer d) →
    q.step solver c.request c.state = q.answer c

section Query

variable {q : Search} {levels depth : Nat} {r : Request} {st : State} {c d : Call}

theorem self_mem_calls (q : Search) (levels depth : Nat) (r : Request) (st : State) :
    ⟨depth, r, st⟩ ∈ q.calls levels depth r st := by
  cases levels <;> exact List.mem_cons_self

/-- A call that is not too deep is answered by a round. -/
theorem answer_eq_step (h : c.depth ≤ q.config.maxDepth) :
    q.answer c = q.step (q.solve (q.config.maxDepth - c.depth)) c.request c.state := by
  have hlevel : q.config.maxDepth + 1 - c.depth = (q.config.maxDepth - c.depth) + 1 := by omega
  rw [answer, hlevel, solve]

/-- What a call makes is answered with one level less. -/
theorem answer_of_stepCall (c : Call) (x : Request × State) :
    q.answer ⟨c.depth + 1, x.1, x.2⟩ = q.solve (q.config.maxDepth - c.depth) x.1 x.2 := by
  rw [answer, Nat.add_sub_add_right]

/-- What a listed call makes is listed. -/
theorem mem_calls_of_made (hlevels : depth + levels = q.config.maxDepth + 1)
    (hc : c ∈ q.calls levels depth r st) (hdepth : c.depth ≤ q.config.maxDepth) (hd : d ∈ q.made c) :
    d ∈ q.calls levels depth r st := by
  induction levels generalizing depth r st with
  | zero =>
    rw [calls, List.mem_singleton] at hc
    subst hc
    dsimp only at hdepth
    omega
  | succ levels ih =>
    rw [calls, List.mem_cons, List.mem_flatMap] at hc ⊢
    right
    rcases hc with rfl | ⟨x, hx, hc⟩
    · obtain ⟨x, hx, rfl⟩ := List.mem_map.1 hd
      have hleft : q.config.maxDepth - depth = levels := by omega
      exact ⟨x, hleft ▸ hx, self_mem_calls q levels (depth + 1) x.1 x.2⟩
    · exact ⟨x, hx, ih (by omega) hc⟩

/-- A listed call is the first one, or another listed call makes it. -/
theorem made_of_mem_calls (hlevels : depth + levels = q.config.maxDepth + 1)
    (hd : d ∈ q.calls levels depth r st) : d = ⟨depth, r, st⟩ ∨
      ∃ c ∈ q.calls levels depth r st, c.depth ≤ q.config.maxDepth ∧ d ∈ q.made c := by
  induction levels generalizing depth r st with
  | zero => exact Or.inl (List.mem_singleton.1 hd)
  | succ levels ih =>
    rw [calls, List.mem_cons, List.mem_flatMap] at hd
    rcases hd with rfl | ⟨x, hx, hd⟩
    · exact Or.inl rfl
    right
    rcases ih (by omega) hd with rfl | ⟨c, hc, hdepth, hmade⟩
    · have hleft : levels = q.config.maxDepth - depth := by omega
      refine ⟨⟨depth, r, st⟩, self_mem_calls q _ _ _ _, by dsimp only; omega, ?_⟩
      exact List.mem_map.2 ⟨x, hleft ▸ hx, rfl⟩
    · refine ⟨c, ?_, hdepth, hmade⟩
      rw [calls, List.mem_cons, List.mem_flatMap]
      exact Or.inr ⟨x, hx, hc⟩

end Query

/-- **The list of calls is complete**, and has no others. -/
theorem queryCalls_complete (q : Search) (p : Param) (context : Subst) :
    q.Complete p context (q.queryCalls p context) where
  first := self_mem_calls q _ _ _ _
  closed _ hc hdepth _ hd := mem_calls_of_made (Nat.zero_add _) hc hdepth hd
  reached _ hd := made_of_mem_calls (Nat.zero_add _) hd
  decisive c _ hdepth solver h := by
    rw [answer_eq_step hdepth]
    refine step_congr fun x hx => ?_
    rw [← answer_of_stepCall]
    exact h _ (List.mem_map_of_mem hx)

/-- The levels that are left and the depth add up to the same number at every call. -/
theorem depth_le_of_mem_calls {q : Search} {levels depth : Nat} {r : Request} {st : State} {c : Call}
    (h : c ∈ q.calls levels depth r st) : depth ≤ c.depth ∧ c.depth ≤ depth + levels := by
  induction levels generalizing depth r st with
  | zero =>
    rw [calls, List.mem_singleton] at h
    rw [h]
    exact ⟨Nat.le_refl _, Nat.le_refl _⟩
  | succ levels ih =>
    rw [calls, List.mem_cons, List.mem_flatMap] at h
    rcases h with h | ⟨d, _, h⟩
    · rw [h]
      exact ⟨Nat.le_refl _, Nat.le_add_right _ _⟩
    · have := ih h
      omega

end InstanceSearch.Search
