/-
  The search does not see which variables it works on.

  THE STATEMENT
    A part of the search takes a state and gives an outcome and a state.  A second task MIRRORS it if
      (1) the first hands the stack back and draws the variables that a schedule says;
      (2) for a renaming that the search ignores and that embeds the schedule from some number on, the
          second task, started at that number, has the renamed outcome and draws the variables of its
          own side of the schedule.
    The schedule is part of the outcome: which variables are drawn later depends on it.

  TWO USES
    A task is `Blind` if it is mirrored by itself on the renamed input, without gaps: both draw the same
    number `k` of variables, and the renaming has to carry one block to the other.  With gaps, the second
    search has other candidates besides, which draw variables and never match (`Mirrors` says what two
    catalogs and two sets of candidates must have in common).

  THE PROOF follows the program, one lemma for each part.  Where two parts are run one after the other,
  the schedule is cut in two.  `solve_mirrored` closes the loop.
-/
import InstanceSearch.Proofs.Renaming.Schedule
import InstanceSearch.Proofs.Search.Choice

namespace InstanceSearch.Search

/-- Neither the outcome of `run` nor the state after it depends on the choice of variables; `renamed π`
    is the same task under the renaming `π`, and `f π` renames the outcome. -/
def Blind {α : Type} (q : Search) (f : Renaming → α → α) (run : State → α × State)
    (renamed : Renaming → State → α × State) : Prop :=
  ∀ n stack, ∃ k x, run ⟨n, stack⟩ = (x, ⟨n + k, stack⟩) ∧
    ∀ π n', q.Ignores π → Carries π n n' k → renamed π ⟨n', stack⟩ = (f π x, ⟨n' + k, stack⟩)

/-- The same for a solver, whatever it is asked. -/
def BlindSolver (q : Search) (solver : Solver) : Prop :=
  ∀ r, q.Blind (mapFound Solved.mapVars) (solver r) fun π => solver (r.mapVars π)

/-- `mirror π` has the outcome of `run`, renamed by `f π`, wherever `π` embeds the schedule by which the
    two draw their variables.  Only if `gaps` holds may the second task draw more. -/
def Mirrored {α : Type} (q : Search) (gaps : Prop) (f : Renaming → α → α) (run : State → α × State)
    (mirror : Renaming → State → α × State) : Prop :=
  ∀ n stack, ∃ (s : Schedule) (x : α), (false ∈ s → gaps) ∧
    run ⟨n, stack⟩ = (x, ⟨n + s.shared, stack⟩) ∧
    ∀ π n', q.Ignores π → s.Embeds π n n' → mirror π ⟨n', stack⟩ = (f π x, ⟨n' + s.length, stack⟩)

/-- The concepts that a request names. -/
def Request.concepts (r : Request) : List String := r.constraints.map Capability.concept

/-- The same for two solvers, whenever `asks` holds of the concepts that they are asked for. -/
def MirroredSolver (q : Search) (gaps : Prop) (asks : List String → Prop) (solver solver' : Solver) :
    Prop :=
  ∀ r : Request, asks r.concepts →
    q.Mirrored gaps (mapFound Solved.mapVars) (solver r) fun π => solver' (r.mapVars π)

variable {q : Search} {solver solver' : Solver}

/-- A task that is mirrored by itself without gaps is blind. -/
theorem Mirrored.blind {α : Type} {f : Renaming → α → α} {run : State → α × State}
    {renamed : Renaming → State → α × State} (h : q.Mirrored False f run renamed) :
    q.Blind f run renamed := by
  intro n stack
  obtain ⟨s, x, hgaps, hrun, hren⟩ := h n stack
  have hs := Schedule.eq_replicate hgaps
  have hlength : s.length = s.shared := by
    rw [hs]
    simp
  refine ⟨s.shared, x, hrun, fun π n' hπ hcarry => ?_⟩
  rw [← hlength]
  exact hren π n' hπ (hs ▸ Schedule.embeds_replicate.2 hcarry)

theorem Blind.mirrored {α : Type} {f : Renaming → α → α} {run : State → α × State}
    {renamed : Renaming → State → α × State} (h : q.Blind f run renamed) :
    q.Mirrored False f run renamed := by
  intro n stack
  obtain ⟨k, x, hrun, hren⟩ := h n stack
  refine ⟨List.replicate k true, x, fun hgap => ?_, ?_, fun π n' hπ hs => ?_⟩
  · exact Bool.false_ne_true (List.eq_of_mem_replicate hgap)
  · simpa using hrun
  · simpa using hren π n' hπ (Schedule.embeds_replicate.1 hs)

theorem BlindSolver.mirrored (h : q.BlindSolver solver) :
    q.MirroredSolver False (fun _ => True) solver solver := fun r _ => (h r).mirrored

/-- A run has one outcome and draws one number of variables. -/
theorem run_unique {α : Type} {run : α × State} {x x' : α} {n k k' : Nat} {stack : List Attempt}
    (h : run = (x, ⟨n + k, stack⟩)) (h' : run = (x', ⟨n + k', stack⟩)) : x = x' ∧ k = k' := by
  obtain ⟨hx, hstate⟩ := Prod.mk.inj (h.symm.trans h')
  exact ⟨hx, Nat.add_left_cancel (congrArg State.next hstate)⟩

/-- **The outcome of a blind task, renamed, is that of the renamed task.** -/
theorem Blind.renamed {α : Type} {f : Renaming → α → α} {run : State → α × State}
    {renamed : Renaming → State → α × State} (h : q.Blind f run renamed) {n k : Nat}
    {stack : List Attempt} {x : α} (hx : run ⟨n, stack⟩ = (x, ⟨n + k, stack⟩)) {π : Renaming}
    {n' : VarId} (hπ : q.Ignores π) (hcarry : Carries π n n' k) :
    renamed π ⟨n', stack⟩ = (f π x, ⟨n' + k, stack⟩) := by
  obtain ⟨k', x', hx', hren⟩ := h n stack
  obtain ⟨rfl, rfl⟩ := run_unique hx hx'
  exact hren π n' hπ hcarry

/-! ## Dependencies -/

theorem isOpen_mapVars {π : Renaming} (hπ : q.Ignores π) (s : Subst) (p : Param) :
    q.isOpen (s.mapVars π) (p.mapVars π) = q.isOpen s p := by
  unfold isOpen
  rw [Param.asTy_mapVars, Subst.apply_mapVars, Ty.asVar?_mapVars]
  cases (s.apply p.asTy).asVar? with
  | none => rfl
  | some v => simp [VarSet.mem_iff_of_fixed hπ.frozen]

/-- What is open stays open. -/
theorem openParams_mapVars {π : Renaming} (hπ : q.Ignores π) (m : Matched) :
    q.openParams (m.mapVars π) = (q.openParams m).map (Param.mapVars π) := by
  unfold openParams Matched.mapVars
  rw [List.filter_map]
  congr 1
  refine List.filter_congr fun p _ => ?_
  simp [isOpen_mapVars hπ]

theorem arguments_mapVars (π : Renaming) (opened : List VarId) (s : Subst) (ps : List Param)
    (ws : List Witness) :
    arguments (opened.map π) (s.mapVars π) (ps.map (Param.mapVars π)) (ws.map (Witness.mapVars π)) =
      (arguments opened s ps ws).map (Argument.mapVars π) := by
  induction ps generalizing ws with
  | nil => rfl
  | cons p ps ih =>
    have hopen : (opened.map π).contains (p.mapVars π).id = opened.contains p.id := by
      rw [Bool.eq_iff_iff, List.contains_iff_mem, List.contains_iff_mem]
      exact mem_map_renaming π
    rw [List.map_cons]
    by_cases h : opened.contains p.id = true
    · cases ws with
      | nil =>
        rw [List.map_nil, arguments_of_spent (hopen.trans h), arguments_of_spent h]
        have hrest := ih []
        rw [List.map_nil] at hrest
        rw [hrest]
        simp [Argument.mapVars]
      | cons w ws =>
        rw [List.map_cons, arguments_of_open (hopen.trans h), arguments_of_open h, ih ws]
        rfl
    · rw [arguments_of_closed (hopen.symm ▸ h), arguments_of_closed h, ih ws]
      simp [Argument.mapVars]

section Chain

variable {gaps : Prop} {asks : List String → Prop}
  (hsolver : q.MirroredSolver gaps asks solver solver')
include hsolver

/-- **A chain of dependencies is mirrored**, if each of them is. -/
theorem solveParams_mirrored {ps : List Param}
    (hps : ∀ p ∈ ps, asks (p.constraints.map Capability.concept)) (s : Subst) :
    q.Mirrored gaps (mapFound mapChain) (solveParams solver ps s)
      fun π => solveParams solver' (ps.map (Param.mapVars π)) (s.mapVars π) := by
  induction ps generalizing s with
  | nil =>
    exact fun n stack => ⟨[], .ok (s, []), fun hgap => (nomatch hgap), rfl, fun _ _ _ _ => rfl⟩
  | cons p ps ih =>
    intro n stack
    have hrequest : ∀ π, (⟨(p.mapVars π).name, (p.mapVars π).constraints, s.mapVars π⟩ : Request) =
        Request.mapVars π ⟨p.name, p.constraints, s⟩ := by
      intro π
      rw [Param.constraints_mapVars]
      rfl
    obtain ⟨s₁, x₁, hgaps₁, hrun₁, hren₁⟩ :=
      hsolver ⟨p.name, p.constraints, s⟩ (hps p List.mem_cons_self) n stack
    dsimp only at hren₁
    simp only [← hrequest] at hren₁
    cases x₁ with
    | error e =>
      exact ⟨s₁, .error e, hgaps₁, solveParams_of_error hrun₁,
        fun π n' hπ hs => solveParams_of_error (hren₁ π n' hπ hs)⟩
    | ok found =>
      -- the rest of the chain draws its variables after those of the first dependency
      obtain ⟨s₂, x₂, hgaps₂, hrun₂, hren₂⟩ :=
        ih (fun p' hp' => hps p' (List.mem_cons_of_mem p hp')) found.subst (n + s₁.shared) stack
      rw [Nat.add_assoc, ← Schedule.shared_append] at hrun₂
      refine ⟨s₁ ++ s₂, x₂.map fun e => (e.1, found.witness :: e.2),
        Schedule.gaps_append hgaps₁ hgaps₂, solveParams_of_ok hrun₁ hrun₂, fun π n' hπ hs => ?_⟩
      obtain ⟨hs₁, hs₂⟩ := Schedule.embeds_append.1 hs
      have hrest := hren₂ π (n' + s₁.length) hπ hs₂
      rw [Nat.add_assoc, ← List.length_append] at hrest
      refine (solveParams_of_ok (hren₁ π n' hπ hs₁) hrest).trans ?_
      cases x₂ <;> rfl

end Chain

theorem solveParams_blind (hsolver : q.BlindSolver solver) (ps : List Param) (s : Subst) :
    q.Blind (mapFound mapChain) (solveParams solver ps s)
      fun π => solveParams solver (ps.map (Param.mapVars π)) (s.mapVars π) :=
  (solveParams_mirrored hsolver.mirrored (fun _ _ => trivial) s).blind

theorem refuses_mapVars {π : Renaming} (hπ : q.Ignores π) (m : Matched) :
    q.Refuses (m.mapVars π) ↔ q.Refuses m := by
  rw [Refuses, Refuses, openParams_mapVars hπ, List.isEmpty_map]

/-- A renamed match with renamed dependencies becomes the same survivor, renamed. -/
theorem finish_mapVars {π : Renaming} (hπ : q.Ignores π) (m : Matched) (i : Instance)
    (x : Except SearchError (Subst × List Witness)) :
    q.finish (m.mapVars π) i (mapFound mapChain π x) = mapSurvival π (q.finish m i x) := by
  have hids : ((q.openParams m).map (Param.mapVars π)).map Param.id =
      ((q.openParams m).map Param.id).map π := by
    simp [Function.comp_def]
  cases x with
  | error e => rfl
  | ok e =>
    rw [finish, openParams_mapVars hπ, hids]
    simp only [finish, mapFound, mapChain, Except.mapError, Except.map, mapSurvival, Matched.mapVars,
      Survivor.mapVars, Witness.mapVars, Argument.mapVarsAll_eq_map, arguments_mapVars]

section Survivors

variable {gaps : Prop} {asks : List String → Prop}
  (hsolver : q.MirroredSolver gaps asks solver solver')
include hsolver

/-- What becomes of a match is mirrored. -/
theorem survive_mirrored (goal : String) {m : Matched}
    (hm : ∀ p ∈ q.openParams m, asks (p.constraints.map Capability.concept)) :
    q.Mirrored gaps mapSurvival (q.survive solver goal m)
      fun π => q.survive solver' goal (m.mapVars π) := by
  intro n stack
  cases hcand : m.candidate with
  | ambient p =>
    exact ⟨[], .ok ⟨m.candidate, m.subst, m.patterns, .ambient p.id p.name⟩,
      fun hgap => (nomatch hgap), survive_of_ambient hcand,
      fun π n' _ _ => survive_of_ambient (m := m.mapVars π) hcand⟩
  | declared i =>
    by_cases hpolicy : q.Refuses m
    · exact ⟨[], .error .unresolved, fun hgap => (nomatch hgap), survive_of_refused hcand hpolicy,
        fun π n' hπ _ =>
          survive_of_refused (m := m.mapVars π) hcand ((refuses_mapVars hπ m).2 hpolicy)⟩
    · -- while its dependencies are solved the instance is in flight
      obtain ⟨s, x, hgaps, hrun, hren⟩ :=
        solveParams_mirrored hsolver hm m.subst n (⟨i.name, goal⟩ :: stack)
      refine ⟨s, q.finish m i x, hgaps, survive_of_solved hcand hpolicy ⟨n, stack⟩ hrun,
        fun π n' hπ hs => ?_⟩
      have hchain := hren π n' hπ hs
      dsimp only at hchain
      rw [← openParams_mapVars hπ] at hchain
      have hpolicy' : ¬ q.Refuses (m.mapVars π) := fun h => hpolicy ((refuses_mapVars hπ m).1 h)
      rw [← finish_mapVars hπ]
      exact survive_of_solved (m := m.mapVars π) hcand hpolicy' ⟨n', stack⟩ hchain

/-- **What becomes of a list of matches is mirrored**: each of them has its own part of the
    schedule. -/
theorem surviveAll_mirrored (goal : String) {ms : List Matched}
    (hms : ∀ m ∈ ms, ∀ p ∈ q.openParams m, asks (p.constraints.map Capability.concept)) :
    q.Mirrored gaps mapSurvivals (q.surviveAll solver goal ms)
      fun π => q.surviveAll solver' goal (ms.map (Matched.mapVars π)) := by
  induction ms with
  | nil => exact fun n stack => ⟨[], ([], []), fun hgap => (nomatch hgap), rfl, fun _ _ _ _ => rfl⟩
  | cons m ms ih =>
    intro n stack
    obtain ⟨s₁, x, hgaps₁, hrun₁, hren₁⟩ :=
      survive_mirrored hsolver goal (hms m List.mem_cons_self) n stack
    obtain ⟨s₂, xs, hgaps₂, hrun₂, hren₂⟩ :=
      ih (fun m' hm' => hms m' (List.mem_cons_of_mem m hm')) (n + s₁.shared) stack
    rw [Nat.add_assoc, ← Schedule.shared_append] at hrun₂
    refine ⟨s₁ ++ s₂, addSurvival m.candidate.name x xs, Schedule.gaps_append hgaps₁ hgaps₂,
      surviveAll_cons hrun₁ hrun₂, fun π n' hπ hs => ?_⟩
    obtain ⟨hs₁, hs₂⟩ := Schedule.embeds_append.1 hs
    have hfirst := hren₁ π n' hπ hs₁
    have hrest := hren₂ π (n' + s₁.length) hπ hs₂
    rw [Nat.add_assoc, ← List.length_append] at hrest
    rw [mapSurvivals_addSurvival]
    exact surviveAll_cons hfirst hrest

end Survivors

theorem survive_blind (hsolver : q.BlindSolver solver) (goal : String) (m : Matched) :
    q.Blind mapSurvival (q.survive solver goal m)
      fun π => q.survive solver goal (m.mapVars π) :=
  (survive_mirrored hsolver.mirrored goal fun _ _ => trivial).blind

theorem surviveAll_blind (hsolver : q.BlindSolver solver) (goal : String) (ms : List Matched) :
    q.Blind mapSurvivals (q.surviveAll solver goal ms)
      fun π => q.surviveAll solver goal (ms.map (Matched.mapVars π)) :=
  (surviveAll_mirrored hsolver.mirrored goal fun _ _ _ _ => trivial).blind

/-! ## The choice -/

theorem atLeastAsSpecific_mapVars {π : Renaming} {frozen : VarSet} (h : ∀ v ∈ frozen, π v = v)
    (a b : Survivor) :
    atLeastAsSpecific frozen (a.mapVars π) (b.mapVars π) = atLeastAsSpecific frozen a b := by
  unfold atLeastAsSpecific Survivor.mapVars
  dsimp only
  rw [List.zip_map, List.all_map]
  congr 1
  funext p
  exact Capability.instanceOf_mapVars h p.1 p.2

/-- **The winner among renamed survivors is the renamed winner.** -/
theorem mostSpecific_mapVars {π : Renaming} {frozen : VarSet} (h : ∀ v ∈ frozen, π v = v)
    (ws : List Survivor) :
    mostSpecific frozen (ws.map (Survivor.mapVars π)) =
      (mostSpecific frozen ws).map (Survivor.mapVars π) :=
  mostSpecific_map (atLeastAsSpecific_mapVars h) (fun _ => rfl) ws

theorem explain_mapVars (π : Renaming) (label : String) (required : List Capability)
    (rejected : List (String × Rejection)) :
    q.explain label (required.map (Capability.mapVars π))
        (rejected.map fun r => (r.1, r.2.mapVars π)) =
      (q.explain label required rejected).mapVars π := by
  unfold explain
  simp only [List.any_map, List.findSome?_map, Function.comp_def, Rejection.isDepthLimit_mapVars,
    Rejection.cycle?_mapVars, List.map_map]
  split
  · rfl
  · cases rejected.findSome? fun r => r.2.cycle? <;> rfl

/-- The choice among renamed survivors is the renamed choice. -/
theorem choose_mapVars {π : Renaming} (hπ : q.Ignores π) (label : String)
    (required : List Capability) (e : List Survivor × List (String × Rejection)) :
    q.choose label (required.map (Capability.mapVars π)) (mapSurvivals π e).1 (mapSurvivals π e).2 =
      mapFound Solved.mapVars π (q.choose label required e.1 e.2) := by
  have hnames : (e.1.map (Survivor.mapVars π)).map (fun s => s.candidate.name) =
      e.1.map fun s => s.candidate.name := by
    rw [List.map_map]
    rfl
  show q.choose label _ (e.1.map (Survivor.mapVars π)) (e.2.map fun r => (r.1, r.2.mapVars π)) = _
  rw [choose_eq, choose_eq, List.isEmpty_map, explain_mapVars, mostSpecific_mapVars hπ.frozen, hnames]
  split
  · rfl
  · cases mostSpecific q.frozen e.1 <;> rfl

/-! ## Two catalogs -/

/-- The same search over another catalog and other candidates. -/
def withCatalog (q : Search) (cat : Catalog) (candidates : CandidateSet) : Search :=
  { q with catalog := cat, candidates := candidates }

theorem surviveAll_withCatalog (cat : Catalog) (candidates : CandidateSet) (goal : String)
    (ms : List Matched) (st : State) :
    (q.withCatalog cat candidates).surviveAll solver goal ms st = q.surviveAll solver goal ms st := by
  refine surviveAll_eq (fun _ _ => ?_) ms st
  rfl

/-- What a second catalog and other candidates must have in common with those of a search, so that it
    goes the same way over them.  Wherever it asks for concepts that `asks` allows,
      * the same is required;
      * the same candidates match, at the variables that the schedule `s` gives them;
      * what is asked for next is allowed again. -/
structure Mirrors (q : Search) (cat' : Catalog) (candidates' : CandidateSet) (s : Schedule)
    (asks : List String → Prop) : Prop where
  shared : s.shared = drawnBy q.candidates.values
  length : s.length = drawnBy candidates'.values
  requirement : ∀ π, q.Ignores π → ∀ r : Request, asks r.concepts →
    (q.withCatalog cat' candidates').requirement (r.mapVars π) =
      (q.requirement r).map (Capability.mapVars π)
  matched : ∀ (r : Request) n n' π, asks r.concepts → q.Ignores π → s.Embeds π n n' →
    ((q.withCatalog cat' candidates').matchAll ((q.requirement r).map (Capability.mapVars π))
        (r.context.mapVars π) candidates'.values n').1 =
      (q.matchAll (q.requirement r) r.context q.candidates.values n).1.map (Matched.mapVars π)
  asks : ∀ (r : Request) n, asks r.concepts →
    ∀ m ∈ (q.matchAll (q.requirement r) r.context q.candidates.values n).1,
      ∀ p ∈ q.openParams m, asks (p.constraints.map Capability.concept)

section Mirror

variable {cat' : Catalog} {candidates' : CandidateSet} {s : Schedule} {asks : List String → Prop}
  (h : q.Mirrors cat' candidates' s asks)
include h

/-- The goals have one text. -/
theorem goal_mirrored {r : Request} (hr : asks r.concepts) {π : Renaming} (hπ : q.Ignores π) :
    goalText q.frozen ((q.withCatalog cat' candidates').requirement (r.mapVars π)) =
      goalText q.frozen (q.requirement r) := by
  rw [h.requirement π hπ r hr, goalText_mapVars hπ.frozen]

/-- The same candidates match, and both counters go to the end of the schedule. -/
theorem matchAll_mirrored {r : Request} (hr : asks r.concepts) {π : Renaming} (hπ : q.Ignores π)
    {n n' : Nat} (hs : s.Embeds π n n') :
    (q.withCatalog cat' candidates').matchAll
        ((q.withCatalog cat' candidates').requirement (r.mapVars π)) (r.mapVars π).context
        (q.withCatalog cat' candidates').candidates.values n' =
      ((q.matchAll (q.requirement r) r.context q.candidates.values n).1.map (Matched.mapVars π),
        n' + s.length) := by
  rw [h.requirement π hπ r hr]
  exact Prod.ext (h.matched r n n' π hr hπ hs) (h.length ▸ matchAll_next _ _ _ _ n')

/-- **One round is mirrored**, if the solver for its dependencies is. -/
theorem step_mirrored (hsolver : q.MirroredSolver (false ∈ s) asks solver solver') :
    q.MirroredSolver (false ∈ s) asks (q.step solver)
      ((q.withCatalog cat' candidates').step solver') := by
  intro r hr n stack
  cases hre : reentry stack (goalText q.frozen (q.requirement r)) with
  | some path =>
    refine ⟨[], _, fun hgap => (nomatch hgap), step_of_reentry hre, fun π n' hπ _ => ?_⟩
    have hgoal := goal_mirrored h hr hπ
    rw [← hgoal] at hre ⊢
    exact step_of_reentry hre
  | none =>
    have hms : q.matchAll (q.requirement r) r.context q.candidates.values n =
        ((q.matchAll (q.requirement r) r.context q.candidates.values n).1, n + s.shared) :=
      Prod.ext rfl (h.shared ▸ matchAll_next q _ _ _ n)
    have hms' := fun π n' (hπ : q.Ignores π) (hs : s.Embeds π n n') => matchAll_mirrored h hr hπ hs
    have hasks := h.asks r n hr
    have hre' : ∀ π, q.Ignores π →
        reentry stack (goalText q.frozen ((q.withCatalog cat' candidates').requirement (r.mapVars π))) =
          none := by
      intro π hπ
      rw [goal_mirrored h hr hπ]
      exact hre
    generalize (q.matchAll (q.requirement r) r.context q.candidates.values n).1 = ms at hms hms' hasks
    by_cases hempty : ms.isEmpty = true
    · refine ⟨s, _, fun hgap => hgap, step_of_no_match hre hms hempty, fun π n' hπ hs => ?_⟩
      have hempty' : (ms.map (Matched.mapVars π)).isEmpty = true := by
        rw [List.isEmpty_map]
        exact hempty
      have hstep : (q.withCatalog cat' candidates').step solver' (r.mapVars π) ⟨n', stack⟩ = _ :=
        step_of_no_match (hre' π hπ) (hms' π n' hπ hs) hempty'
      rw [h.requirement π hπ r hr] at hstep
      exact hstep
    · obtain ⟨t, xs, hgaps, hrun, hren⟩ := surviveAll_mirrored hsolver
        (goalText q.frozen (q.requirement r)) hasks (n + s.shared) stack
      rw [Nat.add_assoc, ← Schedule.shared_append] at hrun
      refine ⟨s ++ t, _, Schedule.gaps_append (fun hgap => hgap) hgaps,
        step_of_matches hre hms hempty hrun, fun π n' hπ hst => ?_⟩
      obtain ⟨hs, ht⟩ := Schedule.embeds_append.1 hst
      have hempty' : ¬ (ms.map (Matched.mapVars π)).isEmpty = true := by
        rw [List.isEmpty_map]
        exact hempty
      -- the dependencies draw after the candidates, on both sides
      have hrun' := hren π (n' + s.length) hπ ht
      dsimp only at hrun'
      rw [← goal_mirrored h hr hπ, Nat.add_assoc, ← List.length_append,
        ← surviveAll_withCatalog cat' candidates'] at hrun'
      have hstep : (q.withCatalog cat' candidates').step solver' (r.mapVars π) ⟨n', stack⟩ = _ :=
        step_of_matches (q := q.withCatalog cat' candidates') (r := r.mapVars π) (hre' π hπ)
          (hms' π n' hπ hs) hempty' hrun'
      rw [h.requirement π hπ r hr] at hstep
      exact hstep.trans (Prod.ext (choose_mapVars hπ r.label (q.requirement r) xs) rfl)

/-- **The search goes the same way over the other catalog.** -/
theorem solve_mirrored (levels : Nat) : q.MirroredSolver (false ∈ s) asks (q.solve levels)
    ((q.withCatalog cat' candidates').solve levels) := by
  induction levels with
  | zero =>
    exact fun r _ n stack => ⟨[], .error (.depthLimit r.label q.config.maxDepth),
      fun hgap => (nomatch hgap), rfl, fun _ _ _ _ => rfl⟩
  | succ levels ih => exact step_mirrored h ih

end Mirror

/-! ## One catalog -/

section Rounds

variable (hreg : q.catalog.Regular) (hoffers : ∀ c ∈ q.candidates.values, q.catalog.Offers c)
include hreg

theorem requirement_mapVars {π : Renaming} (hπ : q.Ignores π) (r : Request) :
    q.requirement (r.mapVars π) = (q.requirement r).map (Capability.mapVars π) := by
  have happlied : (r.constraints.map (Capability.mapVars π)).map (r.context.mapVars π).applyTo =
      (r.constraints.map r.context.applyTo).map (Capability.mapVars π) := by
    simp [Function.comp_def]
  unfold requirement Request.mapVars
  dsimp only
  rw [happlied, Catalog.minimize_mapVars (hreg.unmoved hπ.below)]
  split <;> rfl

include hoffers

/-- A search mirrors itself, without gaps. -/
theorem mirrors_self : q.Mirrors q.catalog q.candidates
    (List.replicate (drawnBy q.candidates.values) true) fun _ => True where
  shared := by simp
  length := List.length_replicate
  requirement _ hπ r _ := requirement_mapVars hreg hπ r
  matched r _ _ _ _ hπ hs :=
    matchAll_mapVars hπ hreg (q.requirement r) r.context hoffers (Schedule.embeds_replicate.1 hs)
  asks _ _ _ _ _ _ _ := trivial

/-- **The search does not see which variables it works on.** -/
theorem solve_blind (levels : Nat) : q.BlindSolver (q.solve levels) := by
  intro r
  have hself : q.withCatalog q.catalog q.candidates = q := rfl
  have hmirror := solve_mirrored (mirrors_self hreg hoffers) levels r trivial
  have hgaps : (false ∈ List.replicate (drawnBy q.candidates.values) true) = False :=
    eq_false fun hgap => Bool.false_ne_true (List.eq_of_mem_replicate hgap)
  rw [hself, hgaps] at hmirror
  exact hmirror.blind

end Rounds

end InstanceSearch.Search
