/-
  Unrelated declarations change nothing.

  THE STATEMENT (`resolve_ignores_unrelated`)
    Take a registry, and a query that asks for something, in which every witness parameter of every
    instance asks for something.  Further concepts without parents that the query does not name, and
    further instances of these concepts, leave the outcome of the query as it is, for every scope and
    context and under all settings: the same witness and the same substitution up to a renaming of the
    variables that the search invents, or the same failure.

  THE CRUX
    The new instances are candidates for every goal.  None of them ever matches: there is something
    required, and nothing that they offer has the concept of it (`match?_new`).  But each of them draws
    new variables for each goal, and the watermark that the search starts from is higher; so the two
    searches never use the same numbers.  A schedule says which variables of the wider search belong to
    candidates that the first one has (`schedule`), and the two searches go the same way
    (`mirrors_wider`).

  WHY SOMETHING HAS TO BE ASKED FOR
    A goal without constraints is matched by every candidate, also by the new ones.
-/
import InstanceSearch.Proofs.Catalog.Names
import InstanceSearch.Proofs.Search.NewVars
import InstanceSearch.Proofs.Search.Order
import InstanceSearch.Proofs.Search.Resolution
import InstanceSearch.Proofs.Unify.Variants
import InstanceSearch.Proofs.Unrelated.Catalog

namespace InstanceSearch

/-- A watermark that starts higher ends no lower. -/
theorem reserve_mono {n n' : VarId} (h : n ≤ n') (vs : List VarId) : reserve n vs ≤ reserve n' vs := by
  induction vs generalizing n n' with
  | nil => exact h
  | cons v vs ih => exact ih (Nat.max_le.2 ⟨Nat.le_trans h (Nat.le_max_left ..), Nat.le_max_right ..⟩)

theorem reserve_le_append (next : VarId) (vs ws : List VarId) :
    reserve next vs ≤ reserve next (vs ++ ws) := by
  rw [reserve, reserve, List.foldl_append]
  exact le_reserve _ ws

namespace Search

/-! ## Who draws -/

/-- The variables that candidates draw; those before number `k` draw them in both searches. -/
def schedule (k : InstanceId) (cs : List Candidate) : Schedule :=
  cs.flatMap fun c => List.replicate c.params.length (c.key.isBefore k)

theorem shared_schedule (k : InstanceId) (cs : List Candidate) :
    (schedule k cs).shared = drawnBy (cs.filter fun c => c.key.isBefore k) := by
  induction cs with
  | nil => rfl
  | cons c cs ih =>
    rw [schedule, List.flatMap_cons, Schedule.shared_append, Schedule.shared_replicate, ← schedule, ih,
      List.filter_cons]
    split
    · rw [drawnBy_cons]
    · exact Nat.zero_add _

theorem length_schedule (k : InstanceId) (cs : List Candidate) :
    (schedule k cs).length = drawnBy cs := by
  induction cs with
  | nil => rfl
  | cons c cs ih =>
    rw [schedule, List.flatMap_cons, List.length_append, List.length_replicate, ← schedule, ih,
      drawnBy_cons]

/-! ## What is asked for -/

/-- Something is asked for, and nothing of it has one of the names. -/
def Avoids (names asked : List String) : Prop := asked ≠ [] ∧ ∀ a ∈ asked, a ∉ names

section Wider

variable {q : Search} {cat' : Catalog} {names : List String} (h : q.catalog.Widens names cat')
  {candidates' : CandidateSet}

/-- What is required has the names that were asked for. -/
theorem concepts_requirement {r : Request} (hr : Avoids names r.concepts) :
    ∀ c ∈ q.requirement r, c.concept ∉ names := by
  intro c hc
  obtain ⟨d, hd, rfl⟩ := mem_requirement hc
  exact hr.2 d.concept (List.mem_map_of_mem hd)

/-- If something is asked for, something is required. -/
theorem requirement_ne_nil (hreg : q.catalog.Regular) {r : Request} (hr : Avoids names r.concepts) :
    q.requirement r ≠ [] := by
  obtain ⟨_, hm⟩ := List.exists_mem_of_ne_nil _ hr.1
  obtain ⟨c, hc, rfl⟩ := List.mem_map.1 hm
  have hm' : r.context.applyTo c ∈ r.constraints.map r.context.applyTo := List.mem_map_of_mem hc
  obtain ⟨d, hd, _⟩ := Catalog.exists_kept_name hreg.ordered hm'
  unfold requirement
  dsimp only
  split
  · exact List.ne_nil_of_mem hd
  · exact List.ne_nil_of_mem hm'

include h

/-- The wider catalog leaves the same to ask for. -/
theorem requirement_wider {r : Request} (hr : Avoids names r.concepts) :
    (q.withCatalog cat' candidates').requirement r = q.requirement r := by
  have happlied : ∀ c ∈ r.constraints.map r.context.applyTo, c.concept ∉ names := by
    intro c hc
    obtain ⟨d, hd, rfl⟩ := List.mem_map.1 hc
    exact hr.2 d.concept (List.mem_map_of_mem hd)
  unfold requirement
  show (if q.config.minimize then cat'.minimize _ else _) = _
  rw [h.minimize happlied]

/-! ## Who matches -/

/-- A candidate of the wider catalog is one of the first catalog, or a new instance. -/
theorem offers_wider (hd' : cat'.Declared) {c : Candidate} (hc : cat'.Offers c) :
    (c.key.isBefore q.catalog.instances.length = true ∧ q.catalog.Offers c) ∨
      (c.key.isBefore q.catalog.instances.length = false ∧ ∀ a ∈ c.offers, a.concept ∈ names) := by
  cases c with
  | ambient p =>
    obtain ⟨s, hs, hp⟩ := hc
    exact Or.inl ⟨rfl, s.upTo _, h.scopes ▸ List.mem_map_of_mem hs, hp⟩
  | declared i =>
    obtain ⟨new, hinstances, hnew⟩ := h.instances
    obtain ⟨k, hk⟩ := List.mem_iff_getElem?.1 hc
    obtain rfl := hd'.numbered.ids k i hk
    rw [hinstances] at hk
    rcases Nat.lt_or_ge i.id q.catalog.instances.length with hlt | hge
    · rw [List.getElem?_append_left hlt] at hk
      exact Or.inl ⟨decide_eq_true hlt, List.mem_of_getElem? hk⟩
    · rw [List.getElem?_append_right hge] at hk
      exact Or.inr ⟨decide_eq_false (Nat.not_lt.2 hge), hnew i (List.mem_of_getElem? hk)⟩

/-- A candidate of the first catalog offers the same in the wider one. -/
theorem match?_old (hreg : q.catalog.Regular) {c : Candidate} (hc : q.catalog.Offers c)
    (required : List Capability) (context : Subst) (n : VarId) :
    (q.withCatalog cat' candidates').match? c required context n = q.match? c required context n := by
  have hoffers : ∀ a ∈ c.offers, a.concept ∉ names := by
    cases c with
    | ambient p =>
      obtain ⟨s, hs, hp⟩ := hc
      exact fun a ha => h.notMem_of_fits (hreg.scopeFits s hs a (List.mem_flatMap.2 ⟨p, hp, ha⟩))
    | declared i =>
      exact fun a ha => h.notMem_of_fits
        (hreg.instanceFits i hc a (List.mem_append.2 (Or.inl ha)))
  have hrenamed : ∀ a ∈ c.offers.map (newVars c.params n).applyTo, a.concept ∉ names := by
    intro a ha
    obtain ⟨d, hd, rfl⟩ := List.mem_map.1 ha
    exact hoffers d hd
  unfold match?
  dsimp only
  show ((cover q.frozen (cat'.expand _) required context).bind _) = _
  rw [h.expand hrenamed]
  rfl

/-- **A new instance never matches**, if something is required. -/
theorem match?_new {c : Candidate} (hc : ∀ a ∈ c.offers, a.concept ∈ names)
    {required : List Capability} (hne : required ≠ []) (hrequired : ∀ a ∈ required, a.concept ∉ names)
    (context : Subst) (n : VarId) :
    (q.withCatalog cat' candidates').match? c required context n = none := by
  rw [Option.eq_none_iff_forall_ne_some]
  intro m hm
  obtain ⟨a, ha⟩ := List.exists_mem_of_ne_nil _ hne
  obtain ⟨d, hd, hconcept⟩ := names_of_cover (match?_ok hm).2.2 a ha
  have hrenamed : ∀ b ∈ c.offers.map (newVars c.params n).applyTo, b.concept ∈ names := by
    intro b hb
    obtain ⟨e, he, rfl⟩ := List.mem_map.1 hb
    exact hc e he
  exact hrequired a ha (hconcept ▸ h.expand_new hrenamed d hd)

/-- **The same candidates match**, at the variables that the schedule gives them. -/
theorem matchAll_wider (hreg : q.catalog.Regular) (hd' : cat'.Declared) {π : Renaming}
    (hπ : q.Ignores π) {required : List Capability} (hne : required ≠ [])
    (hrequired : ∀ a ∈ required, a.concept ∉ names) (context : Subst) {cs : List Candidate}
    (hcs : ∀ c ∈ cs, cat'.Offers c) {n n' : Nat}
    (hs : (schedule q.catalog.instances.length cs).Embeds π n n') :
    ((q.withCatalog cat' candidates').matchAll (required.map (Capability.mapVars π))
        (context.mapVars π) cs n').1 =
      (q.matchAll required context
        (cs.filter fun c => c.key.isBefore q.catalog.instances.length) n).1.map
          (Matched.mapVars π) := by
  have hne' : required.map (Capability.mapVars π) ≠ [] := fun he => hne (List.map_eq_nil_iff.1 he)
  have hrequired' : ∀ a ∈ required.map (Capability.mapVars π), a.concept ∉ names := by
    intro a ha
    obtain ⟨d, hd, rfl⟩ := List.mem_map.1 ha
    exact hrequired d hd
  induction cs generalizing n n' with
  | nil => rfl
  | cons c cs ih =>
    rw [schedule, List.flatMap_cons, ← schedule, Schedule.embeds_append, Schedule.shared_replicate,
      List.length_replicate] at hs
    obtain ⟨hfirst, hmore⟩ := hs
    have hrest := ih (fun d hd => hcs d (List.mem_cons_of_mem c hd)) hmore
    rw [matchAll_cons, hrest]
    rcases offers_wider h hd' (hcs c List.mem_cons_self) with ⟨hold, hc⟩ | ⟨hnew, hc⟩
    · rw [hold] at hfirst ⊢
      rw [List.filter_cons, if_pos hold, matchAll_cons, match?_old h hreg hc,
        match?_mapVars hπ hreg hc required context (Schedule.embeds_replicate.1 hfirst), map_toList,
        List.map_append, if_pos rfl]
    · rw [List.filter_cons, if_neg (by rw [hnew]; exact Bool.false_ne_true), match?_new h hc hne'
        hrequired', hnew, if_neg Bool.false_ne_true, Nat.add_zero]
      rfl

/-- The open parameters of a match ask for something old. -/
theorem avoids_openParams (hreg : q.catalog.Regular)
    (hwitnesses : ∀ i ∈ q.catalog.instances, ∀ p ∈ i.params, p.isWitness = true → p.constraints ≠ [])
    (hoffers : ∀ c ∈ q.candidates.values, q.catalog.Offers c) {required : List Capability}
    {context : Subst} {n : VarId} {m : Matched}
    (hm : m ∈ (q.matchAll required context q.candidates.values n).1) {p : Param}
    (hp : p ∈ q.openParams m) : Avoids names (p.constraints.map Capability.concept) := by
  obtain ⟨c, hc, k, _, hmatch⟩ := mem_matchAll hm
  obtain ⟨hmem, hopen⟩ := List.mem_filter.1 hp
  rw [(match?_ok hmatch).2.1] at hmem
  obtain ⟨p', hp', rfl⟩ := List.mem_map.1 hmem
  have hwitness : p'.isWitness = true := by
    rw [← isWitness_rename p' (newVars c.params k)]
    exact (Bool.and_eq_true_iff.1 hopen).1
  have hconcepts : (p'.rename (newVars c.params k)).constraints.map Capability.concept =
      p'.constraints.map Capability.concept := by
    rw [constraints_rename, List.map_map]
    rfl
  rw [hconcepts]
  cases c with
  | ambient a => cases hp'
  | declared i =>
    have hi := hoffers _ hc
    refine ⟨fun he => hwitnesses i hi p' hp' hwitness (List.map_eq_nil_iff.1 he), fun a ha => ?_⟩
    obtain ⟨d, hd, rfl⟩ := List.mem_map.1 ha
    exact h.notMem_of_fits (hreg.instanceFits i hi d
      (List.mem_append.2 (Or.inr (List.mem_flatMap.2 ⟨p', hp', hd⟩))))

/-- **The search goes the same way in the wider catalog**, where only the variables of new instances are
    drawn in addition. -/
theorem mirrors_wider (hreg : q.catalog.Regular) (hd' : cat'.Declared)
    (hwitnesses : ∀ i ∈ q.catalog.instances, ∀ p ∈ i.params, p.isWitness = true → p.constraints ≠ [])
    (hcandidates : q.candidates.values =
      candidates'.values.filter fun c => c.key.isBefore q.catalog.instances.length)
    (hoffers : ∀ c ∈ q.candidates.values, q.catalog.Offers c)
    (hoffers' : ∀ c ∈ candidates'.values, cat'.Offers c) :
    q.Mirrors cat' candidates' (schedule q.catalog.instances.length candidates'.values)
      (Avoids names) where
  shared := by rw [shared_schedule, hcandidates]
  length := length_schedule _ _
  requirement π hπ r hr := by
    have hr' : Avoids names (r.mapVars π).concepts := by
      have hconcepts : (r.mapVars π).concepts = r.concepts := by
        show (r.constraints.map (Capability.mapVars π)).map Capability.concept = _
        rw [List.map_map]
        rfl
      exact hconcepts ▸ hr
    rw [requirement_wider h hr', requirement_mapVars hreg hπ]
  matched r n n' π hr hπ hs := by
    rw [hcandidates]
    exact matchAll_wider h hreg hd' hπ (requirement_ne_nil hreg hr) (concepts_requirement hr) r.context
      hoffers' hs
  asks r n _ m hm p hp := avoids_openParams h hreg hwitnesses hoffers hm hp

end Wider

/-! ## The failure of a query -/

/-- A failed choice speaks of nothing but what was required. -/
theorem choose_failure_fixed {q : Search} {label : String} {required : List Capability}
    {survivors : List Survivor} {rejected : List (String × Rejection)} {e : SearchError} {π : Renaming}
    (hfixed : required.map (Capability.mapVars π) = required)
    (h : q.choose label required survivors rejected = .error e) : e.mapVars π = e := by
  rw [choose_eq] at h
  by_cases hnone : survivors.isEmpty = true
  · rw [if_pos hnone] at h
    injection h with h
    rw [← h]
    unfold explain
    split
    · rfl
    · cases rejected.findSome? fun r => r.2.cycle? with
      | some path => rfl
      | none => rw [SearchError.mapVars, hfixed]
  · rw [if_neg hnone] at h
    cases hwin : mostSpecific q.frozen survivors with
    | some s =>
      rw [hwin] at h
      cases h
    | none =>
      rw [hwin] at h
      injection h with h
      rw [← h, SearchError.mapVars, hfixed]

/-- **A failure speaks of nothing but what was required at the top.** -/
theorem step_failure_fixed {q : Search} {solver : Solver} {r : Request} {st st' : State}
    {e : SearchError} {π : Renaming}
    (hfixed : (q.requirement r).map (Capability.mapVars π) = q.requirement r)
    (h : q.step solver r st = (.error e, st')) : e.mapVars π = e := by
  cases hre : reentry st.stack (goalText q.frozen (q.requirement r)) with
  | some path =>
    rw [step_of_reentry hre] at h
    injection h with h
    injection h with h
    exact h ▸ rfl
  | none =>
    rcases hms : q.matchAll (q.requirement r) r.context q.candidates.values st.next with ⟨ms, n⟩
    by_cases hempty : ms.isEmpty = true
    · rw [step_of_no_match hre hms hempty] at h
      injection h with h
      injection h with h
      rw [← h, SearchError.mapVars, hfixed]
    · rcases hxs : q.surviveAll solver (goalText q.frozen (q.requirement r)) ms { st with next := n }
        with ⟨xs, st₁⟩
      rw [step_of_matches hre hms hempty hxs] at h
      injection h with h
      exact choose_failure_fixed hfixed h

end Search

/-! ## The theorem -/

/-- The second is the first, with variables from `n` on renamed. -/
def Resolution.RenamedFrom (n : VarId) (r r' : Resolution) : Prop :=
  ∃ π : Renaming, (∀ v < n, π v = v) ∧ r' = r.mapVars π

theorem Resolution.RenamedFrom.mono {n n' : VarId} {r r' : Resolution}
    (h : Resolution.RenamedFrom n' r r') (hn : n ≤ n') : Resolution.RenamedFrom n r r' := by
  obtain ⟨π, hπ, hr⟩ := h
  exact ⟨π, fun v hv => hπ v (Nat.lt_of_lt_of_le hv hn), hr⟩

/-- **A query that a second catalog mirrors** has the same outcome there, up to the variables that the
    search invents. -/
theorem Search.resolveWith_mirrored {q : Search} {cat' : Catalog} {candidates' : CandidateSet}
    {s : Schedule} {asks : List String → Prop} (h : q.Mirrors cat' candidates' s asks)
    (hreg : q.catalog.Regular) {p : Param} (hp : asks (p.constraints.map Capability.concept))
    {context : Subst} (hseed : q.seed p context ≤ (q.withCatalog cat' candidates').seed p context) :
    Together Eq (Resolution.RenamedFrom (q.seed p context)) (q.resolveWith p context)
      ((q.withCatalog cat' candidates').resolveWith p context) := by
  obtain ⟨t, x, _, hrun, hren⟩ := solve_mirrored h (q.config.maxDepth + 1)
    ⟨p.name, p.constraints, context⟩ hp (q.seed p context) []
  -- one renaming for the whole search, which the query does not see
  obtain ⟨π, hfixed, hπ⟩ := Schedule.exists_embeds t hseed
  have hignores := (clear_seed q p context).ignores hfixed
  have hconstraints : p.constraints.map (Capability.mapVars π) = p.constraints :=
    map_eq_self (constraints_fixed hfixed)
  have hrequest : Request.mapVars π ⟨p.name, p.constraints, context⟩ =
      ⟨p.name, p.constraints, context⟩ := by
    rw [Request.mapVars, hconstraints, context_fixed hfixed]
  have hrun' := hren π _ hignores hπ
  dsimp only at hrun'
  rw [hrequest] at hrun'
  cases x with
  | error e =>
    have hrequired := requirement_mapVars hreg hignores ⟨p.name, p.constraints, context⟩
    rw [hrequest] at hrequired
    have he : e.mapVars π = e := step_failure_fixed hrequired.symm hrun
    have hfail' : (q.withCatalog cat' candidates').resolveWith p context = _ :=
      resolveWith_of_error hrun'
    rw [resolveWith_of_error hrun, hfail']
    exact .error he.symm
  | ok found =>
    have hfound' : (q.withCatalog cat' candidates').resolveWith p context = _ := resolveWith_of_ok hrun'
    rw [resolveWith_of_ok hrun, hfound']
    exact .ok ⟨π, hfixed, (learned_mapVars hfixed found).symm⟩

namespace Catalog

/-- The search that a site gets in the first catalog goes the same way in the wider one. -/
theorem Widens.exists_mirrors {cat cat' : Catalog} {names : List String}
    (h : cat.Widens names cat') (hd : cat.Declared) (hd' : cat'.Declared)
    (hwitnesses : ∀ i ∈ cat.instances, ∀ p ∈ i.params, p.isWitness = true → p.constraints ≠ [])
    {config : Config} {scope : ScopeId} {q' : Search} (hq' : cat'.searchAt config scope = .ok q') :
    ∃ old s, cat.searchAt config scope = .ok (q'.withCatalog cat old) ∧
      (q'.withCatalog cat old).Mirrors cat' q'.candidates s (Search.Avoids names) := by
  have hq := h.searchAt hd' config scope
  rw [hq'] at hq
  -- the candidates of the first search are those that are not new
  have hvalues := CandidateSet.values_filterKeys (key_of_searchAt hq')
    (Candidate.Key.isBefore cat.instances.length)
  exact ⟨_, _, hq, Search.mirrors_wider h hd.regular hd' hwitnesses hvalues (searchAt_ok hq).2.2
    (searchAt_ok hq').2.2⟩

/-- **Unrelated declarations change nothing.**  Further concepts without parents, and further instances
    of these concepts, leave the outcome of every query as it is that asks for something and names none
    of these concepts, if every witness parameter of every instance asks for something: the same witness
    and the same substitution up to a renaming of variables that neither the registry nor the query
    mentions, or the same failure. -/
theorem resolve_ignores_unrelated {cat cat' : Catalog} {names : List String} (hd : cat.Declared)
    (hadds : cat.Adds names cat')
    (hwitnesses : ∀ i ∈ cat.instances, ∀ p ∈ i.params, p.isWitness = true → p.constraints ≠ [])
    {p : Param} (hp : p.constraints ≠ []) (hnames : ∀ c ∈ p.constraints, c.concept ∉ names)
    (config : Config) (scope : ScopeId) (context : Subst) :
    Together Eq (Resolution.RenamedFrom (reserve cat.nextVar (p.vars ++ context.vars)))
      (cat.resolve config p scope context) (cat'.resolve config p scope context) := by
  have hwidens := hadds.widens hd
  have hd' := hadds.declared hd
  unfold resolve
  cases hq' : cat'.searchAt config scope with
  | error e =>
    have hq := hwidens.searchAt hd' config scope
    rw [hq'] at hq
    rw [hq]
    exact .error rfl
  | ok q' =>
    obtain ⟨rfl, _, _⟩ := searchAt_ok hq'
    obtain ⟨old, s, hq, hmirrors⟩ := hwidens.exists_mirrors hd hd' hwitnesses hq'
    have hp' : Search.Avoids names (p.constraints.map Capability.concept) := by
      refine ⟨fun he => hp (List.map_eq_nil_iff.1 he), fun a ha => ?_⟩
      obtain ⟨c, hc, rfl⟩ := List.mem_map.1 ha
      exact hnames c hc
    have hout : Together Eq (Resolution.RenamedFrom ((q'.withCatalog cat old).seed p context))
        ((q'.withCatalog cat old).resolveWith p context) (q'.resolveWith p context) :=
      Search.resolveWith_mirrored hmirrors hd.regular hp' (reserve_mono hwidens.nextVar _)
    have hle : reserve cat.nextVar (p.vars ++ context.vars) ≤ (q'.withCatalog cat old).seed p context :=
      reserve_le_append _ _ _
    rw [hq]
    dsimp only
    generalize (q'.withCatalog cat old).resolveWith p context = x,
      q'.resolveWith p context = x' at hout ⊢
    cases hout with
    | ok h => exact .ok (h.mono hle)
    | error h => exact .error (congrArg Failure.search h)

/-! ## A registry with a concept more -/

/-- `Eq<T>` and `Show<T>`, an instance of `Eq` for everything, and one of `Show` for lists of what has
    `Eq`. -/
def listing : Except DeclError Catalog := do
  let cat ← Catalog.empty.declareConcept ⟨"Eq", [⟨0, "T", .ordinary⟩], [], []⟩
  let cat ← cat.declareConcept ⟨"Show", [⟨2, "T", .ordinary⟩], [], []⟩
  let (_, cat) ← cat.declareInstance root
    ⟨"EqAny", [⟨4, "B", .ordinary⟩], [⟨"Eq", [.var 4 none]⟩], false, false, none, []⟩
  let (_, cat) ← cat.declareInstance root ⟨"ShowList",
    [⟨5, "A", .ordinary⟩, ⟨6, "W", .witness [⟨"Eq", [.var 5 none]⟩]⟩],
    [⟨"Show", [Ty.con "List" [.var 5 none]]⟩], false, false, none, []⟩
  return cat

/-- `Size<T>`, and an instance for everything. -/
def withSize (cat : Catalog) : Except DeclError Catalog := do
  let cat ← cat.declareConcept ⟨"Size", [⟨30, "T", .ordinary⟩], [], []⟩
  let (_, cat) ← cat.declareInstance root
    ⟨"SizeAny", [⟨32, "A", .ordinary⟩], [⟨"Size", [.var 32 none]⟩], false, false, none, []⟩
  return cat

theorem listing_declared {cat : Catalog} (h : listing = .ok cat) : cat.Declared := by
  obtain ⟨_, h₁, h⟩ := bind_eq_ok h
  obtain ⟨_, h₂, h⟩ := bind_eq_ok h
  obtain ⟨⟨_, _⟩, h₃, h⟩ := bind_eq_ok h
  obtain ⟨⟨_, _⟩, h₄, h⟩ := bind_eq_ok h
  injection h with h
  exact h ▸ .instance (.instance (.concept (.concept .empty h₁) h₂) h₃) h₄

theorem withSize_adds {cat cat' : Catalog} (h : cat.withSize = .ok cat') : cat.Adds ["Size"] cat' := by
  obtain ⟨_, h₁, h⟩ := bind_eq_ok h
  obtain ⟨⟨_, _⟩, h₂, h⟩ := bind_eq_ok h
  injection h with h
  exact h ▸ .instance (.concept .refl rfl h₁) (by simp) h₂

/-- The query for `Show` of something that is not known yet. -/
def listingQuery : Param := ⟨20, "W", .witness [⟨"Show", [.var 21 none]⟩]⟩

/-- Both answer `ShowList`, for lists of a variable that has two different numbers. -/
theorem resolve_ignores_unrelated_listing : ∃ (cat cat' : Catalog) (r r' : Resolution),
    cat.Declared ∧ cat.Adds ["Size"] cat' ∧
    cat.resolve .default listingQuery root .empty = .ok r ∧
    cat'.resolve .default listingQuery root .empty = .ok r' ∧
    r.witness.text = "ShowList<A, EqAny<A>>" ∧ r.subst.entries ≠ r'.subst.entries ∧
    Resolution.RenamedFrom (reserve cat.nextVar (listingQuery.vars ++ Subst.vars .empty)) r r' := by
  have h : okAnd listing (fun cat => okAnd cat.withSize fun cat' =>
      okAnd (cat.resolve .default listingQuery root .empty) fun r =>
        okAnd (cat'.resolve .default listingQuery root .empty) fun r' =>
          decide ((∀ i ∈ cat.instances, ∀ p ∈ i.params, p.isWitness = true → p.constraints ≠ []) ∧
            r.witness.text = "ShowList<A, EqAny<A>>" ∧ r.subst.entries ≠ r'.subst.entries)) = true := by
    decide +kernel
  obtain ⟨cat, hcat, h⟩ := okAnd_eq_true h
  obtain ⟨cat', hcat', h⟩ := okAnd_eq_true h
  obtain ⟨r, hr, h⟩ := okAnd_eq_true h
  obtain ⟨r', hr', h⟩ := okAnd_eq_true h
  obtain ⟨hwitnesses, htext, hne⟩ := of_decide_eq_true h
  have hd := listing_declared hcat
  have hadds := withSize_adds hcat'
  have hsame := resolve_ignores_unrelated hd hadds hwitnesses (p := listingQuery) (by decide)
    (by decide) .default root .empty
  rw [hr, hr'] at hsame
  cases hsame with
  | ok hsame => exact ⟨cat, cat', r, r', hd, hadds, hr, hr', htext, hne, hsame⟩

end Catalog

end InstanceSearch
