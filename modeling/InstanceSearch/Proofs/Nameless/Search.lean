/-
  A search without names.

  THE STATEMENT
    Each part of a search, given nameless things, gives what it gave before, nameless, and draws the same
    variables: `f x.nameless = (f x).nameless`.  There is one lemma for each part, in the order of the
    program; `solve_nameless` closes the recursion.

  THE CYCLE GUARD compares the texts of goals, and texts are made of names.  But the text of a goal
  numbers its variables, and shows a frozen one by its number: a goal and the nameless goal have one text
  (`goalText_nameless`), so the guard stops both searches at the same places.
-/
import InstanceSearch.Proofs.Nameless.Catalog
import InstanceSearch.Proofs.Renaming.Matching
import InstanceSearch.Proofs.Search.Choice
import InstanceSearch.Proofs.Unify.Variants

namespace InstanceSearch

/-! ## An instance at new variables -/

theorem newVars_nameless (params : List Param) (n : VarId) :
    newVars (params.map Param.nameless) n = (newVars params n).nameless := by
  rw [newVars, newVars, Subst.nameless, ← Subst.ofList_relabelEntry, List.zipIdx_map, List.map_map,
    List.map_map]
  rfl

theorem Param.rename_nameless (p : Param) (r : Subst) :
    p.nameless.rename r.nameless = (p.rename r).nameless := by
  have hvar : (r.nameless.apply (.var p.id none)).asVar? = (r.apply (.var p.id none)).asVar? := by
    rw [Subst.asVar?_apply_var _ p.id none (some ""), ← Ty.nameless_var p.id none,
      Subst.apply_nameless, Ty.asVar?_nameless]
  obtain ⟨id, name, kind⟩ := p
  unfold rename nameless
  dsimp only at hvar ⊢
  rw [hvar]
  cases kind with
  | ordinary => rfl
  | witness cs => simp [Kind.nameless, Function.comp_def]

namespace Search

/-! ## The text of a goal -/

/-- **A goal and the nameless goal have one text.** -/
theorem goalText_nameless (frozen : VarSet) (required : List Capability) :
    goalText frozen (required.map Capability.nameless) = goalText frozen required := by
  apply goalText_congr
  rw [List.map_map]
  exact List.map_congr_left fun c _ => c.anon_nameless

/-- The same goals are in flight. -/
theorem reentry_nameless (stack : List Attempt) (goal : String) :
    reentry (stack.map Attempt.nameless) goal =
      (reentry stack goal).map (List.map Attempt.nameless) := by
  have hgoal : (fun a : Attempt => a.goal != goal) ∘ Attempt.nameless = fun a => a.goal != goal := rfl
  unfold reentry
  rw [← List.map_reverse, List.dropWhile_map, hgoal]
  cases stack.reverse.dropWhile fun a => a.goal != goal <;> rfl

/-! ## Matching -/

variable (q : Search)

theorem cover_nameless (frozen : VarSet) (offered rs : List Capability) (s : Subst) :
    cover frozen (offered.map Capability.nameless) (rs.map Capability.nameless) s.nameless =
      (cover frozen offered rs s).map fun e => (e.1.map Capability.nameless, e.2.nameless) :=
  cover_relabel (fun _ _ => rfl) _ offered rs s

theorem match?_nameless (c : Candidate) (required : List Capability) (context : Subst) (n : VarId) :
    q.nameless.match? c.nameless (required.map Capability.nameless) context.nameless n =
      (q.match? c required context n).map Matched.nameless := by
  have hoffers : c.nameless.offers.map (newVars c.nameless.params n).applyTo =
      (c.offers.map (newVars c.params n).applyTo).map Capability.nameless := by
    rw [Candidate.offers_nameless, Candidate.params_nameless, newVars_nameless, List.map_map,
      List.map_map]
    exact List.map_congr_left fun d _ => Subst.applyTo_nameless _ d
  have hparams : c.nameless.params.map (fun p => p.rename (newVars c.nameless.params n)) =
      (c.params.map fun p => p.rename (newVars c.params n)).map Param.nameless := by
    rw [Candidate.params_nameless, newVars_nameless, List.map_map, List.map_map]
    exact List.map_congr_left fun p _ => p.rename_nameless _
  unfold match?
  dsimp only
  rw [hoffers, hparams]
  show (cover q.frozen (q.catalog.nameless.expand _) _ _ >>= _) = _
  rw [Catalog.expand_nameless, cover_nameless]
  cases cover q.frozen (q.catalog.expand (c.offers.map (newVars c.params n).applyTo)) required
    context <;> rfl

/-- The same candidates match, and the same number of variables is drawn. -/
theorem matchAll_nameless (required : List Capability) (context : Subst) (cs : List Candidate)
    (n : VarId) :
    q.nameless.matchAll (required.map Capability.nameless) context.nameless
        (cs.map Candidate.nameless) n =
      ((q.matchAll required context cs n).1.map Matched.nameless,
        (q.matchAll required context cs n).2) := by
  induction cs generalizing n with
  | nil => rfl
  | cons c cs ih =>
    have hlength : c.nameless.params.length = c.params.length := by
      rw [Candidate.params_nameless, List.length_map]
    rw [List.map_cons, matchAll, matchAll, hlength, ih, match?_nameless]
    cases q.match? c required context n <;> rfl

/-! ## Dependencies -/

theorem isOpen_nameless (s : Subst) (p : Param) :
    q.nameless.isOpen s.nameless p.nameless = q.isOpen s p := by
  unfold isOpen
  rw [Param.asTy_nameless, Subst.apply_nameless, Ty.asVar?_nameless]
  rfl

theorem openParams_nameless (m : Matched) :
    q.nameless.openParams m.nameless = (q.openParams m).map Param.nameless := by
  unfold openParams Matched.nameless
  rw [List.filter_map]
  refine congrArg (List.map _) (List.filter_congr fun p _ => ?_)
  rw [Function.comp_apply, Param.isWitness_nameless, isOpen_nameless]

theorem arguments_nameless (opened : List VarId) (s : Subst) (ps : List Param) (ws : List Witness) :
    arguments opened s.nameless (ps.map Param.nameless) (ws.map Witness.nameless) =
      (arguments opened s ps ws).map Argument.nameless := by
  have htype : ∀ p : Param, Argument.type (s.nameless.apply p.nameless.asTy) =
      (Argument.type (s.apply p.asTy)).nameless := by
    intro p
    rw [Param.asTy_nameless, Subst.apply_nameless]
    rfl
  induction ps generalizing ws with
  | nil => rfl
  | cons p ps ih =>
    rw [List.map_cons]
    by_cases h : opened.contains p.id = true
    · cases ws with
      | nil =>
        rw [List.map_nil, arguments_of_spent h, arguments_of_spent (p := p.nameless) h, List.map_cons,
          htype, ← ih, List.map_nil]
      | cons w ws =>
        rw [List.map_cons, arguments_of_open h, arguments_of_open (p := p.nameless) h, ih ws]
        rfl
    · rw [arguments_of_closed h, arguments_of_closed (p := p.nameless) h, List.map_cons, htype, ih ws]

/-- What was found without its names, or why nothing was. -/
def namelessFound {α : Type} (f : α → α) : Except SearchError α → Except SearchError α
  | .ok x => .ok (f x)
  | .error e => .error e.nameless

/-- What a chain of dependencies leaves. -/
def namelessChain (e : Subst × List Witness) : Subst × List Witness :=
  (e.1.nameless, e.2.map Witness.nameless)

/-- What becomes of one match. -/
def namelessSurvival : Except Rejection Survivor → Except Rejection Survivor
  | .ok s => .ok s.nameless
  | .error r => .error r.nameless

/-- What becomes of all matches. -/
def namelessSurvivals (e : List Survivor × List (String × Rejection)) :
    List Survivor × List (String × Rejection) :=
  (e.1.map Survivor.nameless, e.2.map fun r => ("", r.2.nameless))

/-- `solver'` answers a nameless request as `solver` answers the request, nameless. -/
def Forgets (solver solver' : Solver) : Prop :=
  ∀ r st, solver' r.nameless st.nameless =
    (namelessFound Solved.nameless (solver r st).1, (solver r st).2.nameless)

section Round

variable {solver solver' : Solver} (h : Forgets solver solver')
include h

theorem solveParams_nameless (ps : List Param) (s : Subst) (st : State) :
    solveParams solver' (ps.map Param.nameless) s.nameless st.nameless =
      (namelessFound namelessChain (solveParams solver ps s st).1,
        (solveParams solver ps s st).2.nameless) := by
  induction ps generalizing s st with
  | nil => rfl
  | cons p ps ih =>
    have hfirst := h ⟨p.name, p.constraints, s⟩ st
    rw [Request.nameless, ← Param.constraints_nameless] at hfirst
    rcases hx : solver ⟨p.name, p.constraints, s⟩ st with ⟨e | found, st₁⟩
    · rw [hx] at hfirst
      rw [solveParams_of_error hx]
      exact solveParams_of_error hfirst
    · rw [hx] at hfirst
      rw [solveParams_of_ok hx rfl]
      refine (solveParams_of_ok hfirst (ih found.subst st₁)).trans ?_
      cases (solveParams solver ps found.subst st₁).1 <;> rfl

omit h in
/-- A nameless match with nameless dependencies becomes the same survivor, nameless. -/
theorem finish_nameless (m : Matched) (i : Instance) (x : Except SearchError (Subst × List Witness)) :
    q.nameless.finish m.nameless i.nameless (namelessFound namelessChain x) =
      namelessSurvival (q.finish m i x) := by
  have hids : ((q.openParams m).map Param.nameless).map Param.id = (q.openParams m).map Param.id := by
    rw [List.map_map]
    rfl
  cases x with
  | error e => rfl
  | ok e =>
    rw [finish, openParams_nameless, hids]
    simp only [finish, namelessFound, namelessChain, Except.mapError, Except.map, namelessSurvival,
      Matched.nameless, Survivor.nameless, Witness.nameless, Argument.namelessAll_eq_map,
      arguments_nameless]
    rfl

theorem survive_nameless (goal : String) (m : Matched) (st : State) :
    q.nameless.survive solver' goal m.nameless st.nameless =
      (namelessSurvival (q.survive solver goal m st).1, (q.survive solver goal m st).2.nameless) := by
  cases hm : m.candidate with
  | ambient p =>
    have hm' : m.nameless.candidate = .ambient p.nameless := congrArg Candidate.nameless hm
    rw [survive_of_ambient hm, survive_of_ambient hm']
    rfl
  | declared i =>
    have hm' : m.nameless.candidate = .declared i.nameless := congrArg Candidate.nameless hm
    have hrefuses : q.nameless.Refuses m.nameless ↔ q.Refuses m := by
      rw [Refuses, Refuses, openParams_nameless, List.isEmpty_map]
      rfl
    by_cases hpolicy : q.Refuses m
    · rw [survive_of_refused hm hpolicy, survive_of_refused hm' (hrefuses.2 hpolicy)]
      rfl
    · -- while its dependencies are solved the instance is in flight
      have hchain := solveParams_nameless h (q.openParams m) m.subst
        { st with stack := ⟨i.name, goal⟩ :: st.stack }
      rw [← openParams_nameless] at hchain
      rw [survive_of_solved hm hpolicy st rfl,
        survive_of_solved hm' (fun h => hpolicy (hrefuses.1 h)) st.nameless hchain, finish_nameless]
      exact Prod.ext rfl (congrArg (State.mk _) List.map_tail.symm)

theorem surviveAll_nameless (goal : String) (ms : List Matched) (st : State) :
    q.nameless.surviveAll solver' goal (ms.map Matched.nameless) st.nameless =
      (namelessSurvivals (q.surviveAll solver goal ms st).1,
        (q.surviveAll solver goal ms st).2.nameless) := by
  induction ms generalizing st with
  | nil => rfl
  | cons m ms ih =>
    have hname : m.nameless.candidate.name = "" := m.candidate.name_nameless
    have hfirst := survive_nameless q h goal m st
    rcases hx : q.survive solver goal m st with ⟨x, st₁⟩
    rw [hx] at hfirst
    rw [surviveAll_cons hx rfl, List.map_cons, surviveAll_cons hfirst (ih st₁), hname]
    cases x <;> rfl

end Round

/-! ## The choice -/

theorem atLeastAsSpecific_nameless (frozen : VarSet) (a b : Survivor) :
    atLeastAsSpecific frozen a.nameless b.nameless = atLeastAsSpecific frozen a b := by
  unfold atLeastAsSpecific Survivor.nameless
  dsimp only
  rw [List.zip_map, List.all_map]
  congr 1
  funext p
  exact Capability.instanceOf_congr p.1.anon_nameless p.2.anon_nameless

theorem explain_nameless (label : String) (required : List Capability)
    (rejected : List (String × Rejection)) :
    q.nameless.explain "" (required.map Capability.nameless)
        (rejected.map fun r => ("", r.2.nameless)) =
      (q.explain label required rejected).nameless := by
  have hcycle : ∀ rs : List (String × Rejection),
      (rs.findSome? fun r => r.2.cycle?.map (List.map Attempt.nameless)) =
        (rs.findSome? fun r => r.2.cycle?).map (List.map Attempt.nameless) := by
    intro rs
    induction rs with
    | nil => rfl
    | cons r rs ih =>
      rw [List.findSome?_cons, List.findSome?_cons, ih]
      cases r.2.cycle? <;> rfl
  unfold explain
  simp only [List.any_map, List.findSome?_map, Function.comp_def, Rejection.isDepthLimit_nameless,
    Rejection.cycle?_nameless, hcycle, List.map_map]
  split
  · rfl
  · cases rejected.findSome? fun r => r.2.cycle? with
    | some path => rfl
    | none => simp [SearchError.nameless, Function.comp_def]

theorem choose_nameless (label : String) (required : List Capability)
    (e : List Survivor × List (String × Rejection)) :
    q.nameless.choose "" (required.map Capability.nameless) (namelessSurvivals e).1
        (namelessSurvivals e).2 =
      namelessFound Solved.nameless (q.choose label required e.1 e.2) := by
  have hwinner : mostSpecific q.nameless.frozen (e.1.map Survivor.nameless) =
      (mostSpecific q.frozen e.1).map Survivor.nameless :=
    mostSpecific_map (atLeastAsSpecific_nameless q.frozen)
      (fun a => a.candidate.isOverlappable_nameless) e.1
  have hnames : (e.1.map Survivor.nameless).map (fun s => s.candidate.name) =
      (e.1.map fun s => s.candidate.name).map fun _ => "" := by
    rw [List.map_map, List.map_map]
    exact List.map_congr_left fun s _ => s.candidate.name_nameless
  show q.nameless.choose "" _ (e.1.map Survivor.nameless) (e.2.map fun r => ("", r.2.nameless)) = _
  rw [choose_eq, choose_eq, List.isEmpty_map, explain_nameless q label, hwinner, hnames]
  split
  · rfl
  · cases mostSpecific q.frozen e.1 <;> rfl

/-! ## The search -/

theorem requirement_nameless (r : Request) :
    q.nameless.requirement r.nameless = (q.requirement r).map Capability.nameless := by
  have happlied : (r.constraints.map Capability.nameless).map r.context.nameless.applyTo =
      (r.constraints.map r.context.applyTo).map Capability.nameless := by
    simp [Function.comp_def]
  unfold requirement Request.nameless
  dsimp only
  rw [happlied]
  show (if q.config.minimize then q.catalog.nameless.minimize _ else _) = _
  rw [Catalog.minimize_nameless]
  split <;> rfl

/-- **One round forgets names**, if the solver for its dependencies does. -/
theorem step_nameless {solver solver' : Solver} (h : Forgets solver solver') :
    Forgets (q.step solver) (q.nameless.step solver') := by
  intro r st
  have hgoal : goalText q.nameless.frozen (q.nameless.requirement r.nameless) =
      goalText q.frozen (q.requirement r) := by
    rw [requirement_nameless]
    exact goalText_nameless q.frozen (q.requirement r)
  have hreentry : reentry st.nameless.stack
      (goalText q.nameless.frozen (q.nameless.requirement r.nameless)) =
        (reentry st.stack (goalText q.frozen (q.requirement r))).map (List.map Attempt.nameless) := by
    rw [hgoal]
    exact reentry_nameless st.stack _
  cases hre : reentry st.stack (goalText q.frozen (q.requirement r)) with
  | some path =>
    rw [hre, Option.map_some] at hreentry
    rw [step_of_reentry hre, step_of_reentry hreentry, hgoal]
    simp [namelessFound, SearchError.nameless, Attempt.nameless, Request.nameless]
  | none =>
    rw [hre, Option.map_none] at hreentry
    have hvalues : q.nameless.candidates.values = q.candidates.values.map Candidate.nameless := by
      show (q.candidates.entries.map _).map _ = (q.candidates.entries.map _).map _
      rw [List.map_map, List.map_map]
      rfl
    rcases hms : q.matchAll (q.requirement r) r.context q.candidates.values st.next with ⟨ms, n⟩
    have hms' : q.nameless.matchAll (q.nameless.requirement r.nameless) r.nameless.context
        q.nameless.candidates.values st.nameless.next = (ms.map Matched.nameless, n) := by
      have hmatched := matchAll_nameless q (q.requirement r) r.context q.candidates.values st.next
      rw [hms] at hmatched
      rw [requirement_nameless, hvalues]
      exact hmatched
    by_cases hempty : ms.isEmpty = true
    · have hempty' : (ms.map Matched.nameless).isEmpty = true := by
        rw [List.isEmpty_map]
        exact hempty
      rw [step_of_no_match hre hms hempty, step_of_no_match hreentry hms' hempty',
        requirement_nameless]
      rfl
    · have hempty' : ¬ (ms.map Matched.nameless).isEmpty = true := by
        rw [List.isEmpty_map]
        exact hempty
      have hsurvive := surviveAll_nameless q h (goalText q.frozen (q.requirement r)) ms
        { st with next := n }
      rw [← hgoal] at hsurvive
      rw [step_of_matches hre hms hempty rfl, step_of_matches hreentry hms' hempty' hsurvive,
        hgoal, requirement_nameless]
      exact Prod.ext (choose_nameless q r.label (q.requirement r) _) rfl

/-- **The search forgets names.** -/
theorem solve_nameless (levels : Nat) : Forgets (q.solve levels) (q.nameless.solve levels) := by
  induction levels with
  | zero => exact fun _ _ => rfl
  | succ levels ih => exact step_nameless q ih

end Search

end InstanceSearch
