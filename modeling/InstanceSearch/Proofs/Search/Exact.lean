/-
  The filter is exact where one capability is asked for.

  THE STATEMENT (`filter_exact`)
    A candidate CAN PROVIDE a capability in a context if there are types for all variables, which solve
    the context and leave the frozen variables alone, and an independent choice of types for the
    candidate's own parameters, such that something it offers, ancestors included, becomes the
    capability.  This says nothing of unification or of new variables.  A candidate matches a single
    requirement exactly if it can provide it, and a query for one capability is answered by "no
    instance", with nobody rejected, exactly if no candidate in sight can provide it.

  THE PROOF
    Unification finds a solution exactly if there is one.  What is offered is offered at new variables,
    but that is a renaming of the capabilities as they are declared (`anon_offeredAt`), so a solution at
    the new variables is a choice for the parameters, and the other way round (`solutions_at_new_vars`).

  WHERE IT FAILS (`not_always_exact`)
    A concept may extend another one at a variable that is a parameter of some instance.  The search
    renames before it adds ancestors; what they are then at is not what was declared.
-/
import InstanceSearch.Proofs.Renaming.NewVars
import InstanceSearch.Proofs.Search.Order
import InstanceSearch.Proofs.Search.Resolution

namespace InstanceSearch

/-! ## Assignments and renamings -/

/-- Assigning to a renamed capability. -/
theorem Capability.assign_mapVars (π : Renaming) (θ : VarId → Ty) (c : Capability) :
    (c.mapVars π).assign θ = c.assign fun v => θ (π v) := by
  unfold assign mapVars
  rw [map_map]
  congr 1
  funext t
  exact Ty.replaceVars_replaceVars _ _ t

theorem Capability.anon_assign_eq {θ θ' : VarId → Ty} {c : Capability}
    (h : ∀ v ∈ c.vars, θ v = θ' v) : (c.assign θ).anon = (c.assign θ').anon :=
  anon_map_congr rfl fun v hv _ _ => congrArg Ty.anon (h v hv)

/-- Which assignments solve a substitution depends on the variables that it mentions. -/
theorem Subst.Solution.congr {frozen : VarSet} {s : Subst} {θ θ' : VarId → Ty}
    (h : s.Solution frozen θ) (hs : ∀ v ∈ s.vars, θ v = θ' v) (hf : ∀ v ∈ frozen, θ v = θ' v) :
    s.Solution frozen θ' where
  bound v t hv := by
    have hkey : v ∈ s.vars := by
      have hm := OrderedMap.find?_eq_some_iff.1 hv
      exact List.mem_flatMap.2 ⟨(v, t), hm, List.mem_cons_self⟩
    have ht : (t.assign θ).anon = (t.assign θ').anon := by
      refine Ty.anon_replaceVars_congr rfl ?_
      intro w hw _ _
      exact congrArg Ty.anon (hs w (mem_vars_of_find? hv hw))
    rw [← hs v hkey, ← ht]
    exact h.bound v t hv
  frozen v hv hnone := by
    rw [← hf v hv]
    exact h.frozen v hv hnone

namespace Search

/-! ## What a candidate can provide -/

/-- The types of a candidate's own parameters by `τ`, and those of all other variables by `θ`. -/
def chosen (c : Candidate) (τ θ : VarId → Ty) (v : VarId) : Ty :=
  if v ∈ c.params.map Param.id then τ v else θ v

/-- `q.CanProvide context c r`: there are types for the variables that solve the context and leave the
    frozen variables alone, and types for the parameters of `c`, at which something that `c` offers is
    the capability `r`. -/
def CanProvide (q : Search) (context : Subst) (c : Candidate) (r : Capability) : Prop :=
  ∃ θ τ : VarId → Ty, context.Solution q.frozen θ ∧
    ∃ d ∈ q.catalog.expand c.offers, (d.assign (chosen c τ θ) == r.assign θ) = true

section Exact

variable {q : Search} {c : Candidate} {r : Capability} {context : Subst} {n : VarId}

/-- A single requirement is matched if something that is offered unifies with it. -/
theorem match?_isSome_iff : (q.match? c [r] context n).isSome = true ↔
    ∃ d ∈ q.offeredAt c n, Unifies q.frozen context d r := by
  rw [match?_eq, Option.isSome_map]
  constructor
  · intro h
    obtain ⟨⟨ps, s₁⟩, hcover⟩ := Option.isSome_iff_exists.1 h
    obtain ⟨d, s', ds, hfirst, -, -⟩ := cover_cons hcover
    obtain ⟨hd, hok⟩ := firstCover_some hfirst
    exact ⟨d, hd, by rw [Unifies, hok]; rfl⟩
  · rintro ⟨d, hd, hunifies⟩
    obtain ⟨d', s', hfirst⟩ := exists_firstCover hd hunifies
    have hcover : cover q.frozen (q.offeredAt c n) [r] context = some ([d'], s') := by
      simp only [cover, hfirst, Option.bind_eq_bind, Option.bind_some]
      rfl
    rw [hcover]
    rfl

/-- Everything that a query is about lies below the counter for new variables. -/
structure BelowCounter (q : Search) (r : Capability) (context : Subst) (n : VarId) : Prop where
  catalog : q.catalog.nextVar ≤ n
  required : ∀ v ∈ r.vars, v < n
  context : ∀ v ∈ context.vars, v < n
  frozen : ∀ v ∈ q.frozen, v < n

/-- Below `n` the types that `θ` gives, and for a new variable what `τ` chose for the parameter that it
    stands for. -/
def chosenAt (n : VarId) (π : Renaming) (τ θ : VarId → Ty) (v : VarId) : Ty :=
  if v < n then θ v else τ (π v)

theorem chosenAt_of_lt {π : Renaming} {τ θ : VarId → Ty} {v : VarId} (hv : v < n) :
    θ v = chosenAt n π τ θ v := (if_pos hv).symm

/-- What a choice makes of a capability is what is made of it at the new variables. -/
theorem assign_chosenAt (hids : (c.params.map Param.id).Nodup)
    (hbelow : ∀ v ∈ c.params.map Param.id, v < n) {d : Capability} (hd : ∀ v ∈ d.vars, v < n)
    (τ θ : VarId → Ty) :
    ((d.mapVars (newRenaming _ n hids hbelow)).assign
      (chosenAt n (newRenaming _ n hids hbelow) τ θ)).anon = (d.assign (chosen c τ θ)).anon := by
  rw [Capability.assign_mapVars]
  refine Capability.anon_assign_eq ?_
  intro v hv
  show chosenAt n (newRenaming _ n hids hbelow) τ θ (newAt (c.params.map Param.id) n v) =
    chosen c τ θ v
  unfold chosen chosenAt
  by_cases hmem : v ∈ c.params.map Param.id
  · have hnew : ¬ newAt (c.params.map Param.id) n v < n := by
      rw [newAt_of_mem hmem]
      exact Nat.not_lt.2 (Nat.le_add_right n _)
    have hback : newRenaming _ n hids hbelow (newAt (c.params.map Param.id) n v) = v :=
      newAt_newAt hids hbelow
    rw [if_neg hnew, if_pos hmem, hback]
  · rw [newAt_of_lt hmem (hd v hv), if_pos (hd v hv), if_neg hmem]

/-- What is made of a capability at new variables is what some choice makes of it. -/
theorem assign_at_new_vars (hids : (c.params.map Param.id).Nodup)
    (hbelow : ∀ v ∈ c.params.map Param.id, v < n) {d : Capability} (hd : ∀ v ∈ d.vars, v < n)
    (θ : VarId → Ty) :
    ((d.mapVars (newRenaming _ n hids hbelow)).assign θ).anon =
      (d.assign (chosen c (fun v => θ (newAt (c.params.map Param.id) n v)) θ)).anon := by
  rw [Capability.assign_mapVars]
  refine Capability.anon_assign_eq ?_
  intro v hv
  show θ (newAt (c.params.map Param.id) n v) = chosen c _ θ v
  unfold chosen
  split
  · rfl
  · rename_i hmem
    rw [newAt_of_lt hmem (hd v hv)]

/-- **A solution at new variables is a choice for the parameters.** -/
theorem solutions_at_new_vars (hd : q.catalog.Declared) (hc : q.catalog.Offers c)
    (hsep : q.catalog.Separate c) (hn : q.BelowCounter r context n)
    (hbelow : ∀ v ∈ c.params.map Param.id, v < n) {d : Capability} (hdm : d ∈ q.catalog.expand c.offers) :
    (∃ θ, context.Solution q.frozen θ ∧
      ((d.mapVars (newRenaming (c.params.map Param.id) n hsep.distinct hbelow)).assign θ).anon =
        (r.assign θ).anon) ↔
    ∃ θ τ : VarId → Ty, context.Solution q.frozen θ ∧
      (d.assign (chosen c τ θ)).anon = (r.assign θ).anon := by
  have hlow : ∀ v ∈ d.vars, v < n :=
    fun v hv => Nat.lt_of_lt_of_le (hc.expand_below hd d hdm v hv) hn.catalog
  constructor
  · rintro ⟨θ, hθ, heq⟩
    exact ⟨θ, _, hθ, (assign_at_new_vars hsep.distinct hbelow hlow θ).symm.trans heq⟩
  · rintro ⟨θ, τ, hθ, heq⟩
    refine ⟨chosenAt n (newRenaming _ n hsep.distinct hbelow) τ θ, ?_, ?_⟩
    · exact hθ.congr (fun v hv => chosenAt_of_lt (hn.context v hv))
        fun v hv => chosenAt_of_lt (hn.frozen v hv)
    · have hr := Capability.anon_assign_eq fun v hv =>
        chosenAt_of_lt (π := newRenaming _ n hsep.distinct hbelow) (τ := τ) (θ := θ) (hn.required v hv)
      rw [assign_chosenAt hsep.distinct hbelow hlow, heq, hr]

/-- **A candidate matches a single requirement exactly if it can provide it.** -/
theorem match?_isSome_iff_canProvide (hd : q.catalog.Declared) (hc : q.catalog.Offers c)
    (hsep : q.catalog.Separate c) (hs : context.Acyclic) (hn : q.BelowCounter r context n) :
    (q.match? c [r] context n).isSome = true ↔ q.CanProvide context c r := by
  have hbelow : ∀ v ∈ c.params.map Param.id, v < n :=
    fun v hv => Nat.lt_of_lt_of_le (hc.below hd v hv) hn.catalog
  have hoffered := anon_offeredAt hd hc hsep hn.catalog hbelow
  rw [match?_isSome_iff]
  constructor
  · rintro ⟨d', hd', hunifies⟩
    obtain ⟨θ, hθ, heq⟩ := (tryUnifyCapabilities_isOk_iff hs).1 hunifies
    obtain ⟨e, he, hanon⟩ := List.mem_map.1 (hoffered ▸ List.mem_map_of_mem hd')
    obtain ⟨d, hdm, rfl⟩ := List.mem_map.1 he
    have hsol := (solutions_at_new_vars hd hc hsep hn hbelow hdm).1
      ⟨θ, hθ, (Capability.anon_assign_congr hanon).trans heq⟩
    obtain ⟨θ', τ, hθ', heq'⟩ := hsol
    exact ⟨θ', τ, hθ', d, hdm, Capability.beq_iff.2 heq'⟩
  · rintro ⟨θ, τ, hθ, d, hdm, heq⟩
    obtain ⟨θ', hθ', heq'⟩ := (solutions_at_new_vars hd hc hsep hn hbelow hdm).2
      ⟨θ, τ, hθ, Capability.beq_iff.1 heq⟩
    have hmem := List.mem_map_of_mem (f := Capability.anon) (List.mem_map_of_mem
      (f := Capability.mapVars (newRenaming (c.params.map Param.id) n hsep.distinct hbelow)) hdm)
    rw [← hoffered] at hmem
    obtain ⟨d', hd', hanon⟩ := List.mem_map.1 hmem
    refine ⟨d', hd', (tryUnifyCapabilities_isOk_iff hs).2 ⟨θ', hθ', ?_⟩⟩
    exact (Capability.anon_assign_congr hanon).trans heq'

/-- What a candidate can provide does not depend on whether the context was applied. -/
theorem canProvide_applyTo (hs : context.Acyclic) :
    q.CanProvide context c (context.applyTo r) ↔ q.CanProvide context c r := by
  unfold CanProvide
  refine exists_congr fun θ => exists_congr fun τ => and_congr_right fun hθ => ?_
  simp only [Capability.beq_iff, hθ.assign_applyTo hs]

end Exact

/-! ## No match -/

section NoMatch

variable {q : Search} {required : List Capability} {context : Subst} {cs : List Candidate}

/-- If matching does not depend on the counter, there is no match exactly if no candidate matches. -/
theorem matchAll_eq_nil_iff {P : Candidate → Prop} {n : Nat}
    (h : ∀ c ∈ cs, ∀ k : Nat, n ≤ k → ((q.match? c required context k).isSome = true ↔ P c)) :
    (q.matchAll required context cs n).1 = [] ↔ ∀ c ∈ cs, ¬ P c := by
  induction cs generalizing n with
  | nil => exact ⟨fun _ c hc => absurd hc List.not_mem_nil, fun _ => rfl⟩
  | cons c cs ih =>
    have hrest : (q.matchAll required context cs (n + c.params.length)).1 = [] ↔ ∀ c ∈ cs, ¬ P c :=
      ih fun c' hc' k hk => h c' (List.mem_cons_of_mem c hc') k (by omega)
    have hfirst := h c List.mem_cons_self n (Nat.le_refl n)
    rw [matchAll, List.forall_mem_cons, ← hrest, ← hfirst]
    cases q.match? c required context n with
    | none => simp
    | some m => simp

/-- Every match survives or is rejected. -/
theorem length_surviveAll (solver : Solver) (goal : String) (ms : List Matched) (st : State) :
    (q.surviveAll solver goal ms st).1.1.length + (q.surviveAll solver goal ms st).1.2.length =
      ms.length := by
  induction ms generalizing st with
  | nil => rfl
  | cons m ms ih =>
    rcases hx : q.survive solver goal m st with ⟨x, st₁⟩
    have hrest := ih st₁
    rw [surviveAll_cons hx rfl]
    cases x with
    | ok w =>
      simp only [addSurvival, List.length_cons]
      omega
    | error e =>
      simp only [addSurvival, List.length_cons]
      omega

/-- Where there was something to choose from, "no instance" names somebody who was rejected. -/
theorem choose_ne_noInstance {label l : String} {rs : List Capability} {survivors : List Survivor}
    {rejected : List (String × Rejection)} (h : 0 < survivors.length + rejected.length) :
    q.choose label required survivors rejected ≠ .error (.noInstance l rs []) := by
  rw [choose_eq]
  split
  · rename_i hempty
    rw [List.isEmpty_iff.1 hempty, List.length_nil, Nat.zero_add] at h
    rintro hexplain
    injection hexplain with hexplain
    unfold explain at hexplain
    split at hexplain
    · cases hexplain
    · split at hexplain
      · cases hexplain
      · injection hexplain with _ _ hnames
        rw [List.map_eq_nil_iff.1 hnames] at h
        cases h
  · split
    · rintro hok
      cases hok
    · rintro hambiguous
      injection hambiguous with hambiguous
      cases hambiguous

/-- **A fresh goal has no instance, with nobody rejected, exactly if there is no match.** -/
theorem step_noInstance_iff {solver : Solver} {r : Request} {n : VarId} :
    (∃ l rs, (q.step solver r ⟨n, []⟩).1 = .error (.noInstance l rs [])) ↔
      (q.matchAll (q.requirement r) r.context q.candidates.values n).1 = [] := by
  have hnew : reentry [] (goalText q.frozen (q.requirement r)) = none := rfl
  constructor
  · rintro ⟨l, rs, hstep⟩
    by_contra hsome
    have hempty : ¬ (q.matchAll (q.requirement r) r.context q.candidates.values n).1.isEmpty = true :=
      fun h => hsome (List.isEmpty_iff.1 h)
    have hchosen : q.step solver r ⟨n, []⟩ = _ := step_of_matches hnew rfl hempty rfl
    rw [hchosen] at hstep
    refine choose_ne_noInstance ?_ hstep
    rw [length_surviveAll]
    exact List.length_pos_iff.2 hsome
  · intro hnil
    have hempty : (q.matchAll (q.requirement r) r.context q.candidates.values n).1.isEmpty = true :=
      List.isEmpty_iff.2 hnil
    have hfails : q.step solver r ⟨n, []⟩ = _ := step_of_no_match hnew rfl hempty
    exact ⟨_, _, congrArg Prod.fst hfails⟩

end NoMatch

/-! ## The statement -/

section Query

variable {q : Search} {p : Param} {r : Capability} {context : Subst}

/-- What a query is about lies below the first variable of its search. -/
theorem belowCounter_seed (hp : p.constraints = [r]) :
    q.BelowCounter r context (q.seed p context) where
  catalog := le_reserve _ _
  required v hv := by
    refine lt_seed (List.mem_append.2 (Or.inl (List.mem_append.2 (Or.inl ?_))))
    refine List.mem_cons_of_mem _ (List.mem_flatMap.2 ⟨r, ?_, hv⟩)
    rw [hp]
    exact List.mem_cons_self
  context v hv := lt_seed (List.mem_append.2 (Or.inl (List.mem_append.2 (Or.inr hv))))
  frozen v hv := lt_seed (List.mem_append.2 (Or.inr hv))

theorem BelowCounter.applyTo {n : VarId} (h : q.BelowCounter r context n) :
    q.BelowCounter (context.applyTo r) context n :=
  { h with required := fun v hv => (Subst.mem_vars_applyTo hv).elim (h.required v) (h.context v) }

theorem BelowCounter.mono {n k : VarId} (h : q.BelowCounter r context n) (hk : n ≤ k) :
    q.BelowCounter r context k where
  catalog := Nat.le_trans h.catalog hk
  required v hv := Nat.lt_of_lt_of_le (h.required v hv) hk
  context v hv := Nat.lt_of_lt_of_le (h.context v hv) hk
  frozen v hv := Nat.lt_of_lt_of_le (h.frozen v hv) hk

/-- A single constraint is what is required, with the context applied. -/
theorem requirement_single (hp : p.constraints = [r]) :
    q.requirement ⟨p.name, p.constraints, context⟩ = [context.applyTo r] := by
  have hself : (context.applyTo r != context.applyTo r) = false := by
    rw [bne, BEq.rfl]
    rfl
  have hminimize : q.catalog.minimize [context.applyTo r] = [context.applyTo r] := by
    show [context.applyTo r].filter (fun c =>
      !(List.any [context.applyTo r] fun d => d != c && q.catalog.implies d c)) = _
    simp [hself]
  unfold requirement
  dsimp only
  rw [hp, List.map_singleton, hminimize, ite_self]

/-- A query fails as its search fails. -/
theorem resolve_error_iff {cat : Catalog} {config : Config} {scope : ScopeId} {e : SearchError}
    (hq : cat.searchAt config scope = .ok q) :
    cat.resolve config p scope context = .error (.search e) ↔
      (q.solve (q.config.maxDepth + 1) ⟨p.name, p.constraints, context⟩
        ⟨q.seed p context, []⟩).1 = .error e := by
  rcases hx : q.solve (q.config.maxDepth + 1) ⟨p.name, p.constraints, context⟩
    ⟨q.seed p context, []⟩ with ⟨x, st⟩
  rw [Catalog.resolve, hq]
  dsimp only
  cases x with
  | error e' =>
    rw [resolveWith_of_error hx]
    simp
  | ok found =>
    rw [resolveWith_of_ok hx]
    simp

/-- A query for one capability has no instance, with nobody rejected, exactly if nobody matches. -/
theorem resolve_noInstance_iff {cat : Catalog} {config : Config} {scope : ScopeId}
    (hq : cat.searchAt config scope = .ok q) (hp : p.constraints = [r]) :
    (∃ label required, cat.resolve config p scope context =
        .error (.search (.noInstance label required []))) ↔
      (q.matchAll [context.applyTo r] context q.candidates.values (q.seed p context)).1 = [] := by
  simp only [resolve_error_iff hq, solve, step_noInstance_iff, requirement_single hp]

end Query

/-- **The filter is exact for a single capability.**  Take a declared registry that keeps its parameters
    apart.  A candidate at whose parameters no concept extends another one matches one required capability
    exactly if it can provide it.  Where this holds of all candidates in sight, a query for one capability
    is answered by "no instance", with nobody rejected, exactly if none of them can provide it. -/
theorem filter_exact :
    (∀ (q : Search) (c : Candidate) (r : Capability) (context : Subst) (n : VarId),
      q.catalog.Declared → q.catalog.OwnParams → q.catalog.Offers c → q.catalog.Spares c →
      context.Acyclic → q.BelowCounter r context n →
      ((q.match? c [r] context n).isSome = true ↔ q.CanProvide context c r)) ∧
    (∀ (cat : Catalog) (config : Config) (scope : ScopeId) (q : Search) (p : Param) (r : Capability)
      (context : Subst), cat.Declared → cat.OwnParams → cat.searchAt config scope = .ok q →
      (∀ c ∈ q.candidates.values, cat.Spares c) → p.constraints = [r] → context.Acyclic →
      ((∃ label required, cat.resolve config p scope context =
          .error (.search (.noInstance label required []))) ↔
        ∀ c ∈ q.candidates.values, ¬ q.CanProvide context c r)) := by
  constructor
  · intro q c r context n hd hown hc hspares hs hn
    exact match?_isSome_iff_canProvide hd hc (hown.separate hc hspares) hs hn
  · intro cat config scope q p r context hd hown hq hspares hp hs
    obtain ⟨rfl, -, hoffers⟩ := Catalog.searchAt_ok hq
    have hbelow : q.BelowCounter (context.applyTo r) context (q.seed p context) :=
      (belowCounter_seed hp).applyTo
    rw [resolve_noInstance_iff hq hp]
    refine matchAll_eq_nil_iff ?_
    intro c hc k hk
    have hsep := hown.separate (hoffers c hc) (hspares c hc)
    rw [match?_isSome_iff_canProvide hd (hoffers c hc) hsep hs (hbelow.mono hk),
      canProvide_applyTo hs]

/-- The query for a single capability. -/
def asking (r : Capability) : Param := ⟨30, "W", .witness [r]⟩

/-- `Eq<List<?31>>`. -/
def eqOfLists : Capability := ⟨"Eq", [Ty.con "List" [.var 31 none]]⟩

/-- `Eq<Bool>`. -/
def eqOfBool : Capability := ⟨"Eq", [Ty.con "Bool" []]⟩

/-- Of `OrdInt` and `OrdList<T, W>` one can provide `Eq<List<?31>>`, which is inherited, and none can
    provide `Eq<Bool>`. -/
theorem filter_exact_ordering : ∃ cat q, ordering = .ok cat ∧
    cat.searchAt .default Catalog.root = .ok q ∧
    (∃ c ∈ q.candidates.values, q.CanProvide .empty c eqOfLists) ∧
    ∀ c ∈ q.candidates.values, ¬ q.CanProvide .empty c eqOfBool := by
  have h : okAnd ordering (fun cat => okAnd (cat.searchAt .default Catalog.root) fun q =>
      decide (cat.OwnParams ∧ (∀ c ∈ q.candidates.values, cat.Spares c) ∧
        (∃ c ∈ q.candidates.values,
          (q.match? c [eqOfLists] .empty (q.seed (asking eqOfLists) .empty)).isSome = true) ∧
        (q.matchAll [Subst.applyTo .empty eqOfBool] .empty q.candidates.values
          (q.seed (asking eqOfBool) .empty)).1.isEmpty = true)) = true := by
    decide +kernel
  obtain ⟨cat, hcat, h⟩ := okAnd_eq_true h
  obtain ⟨q, hq, h⟩ := okAnd_eq_true h
  obtain ⟨hown, hspares, ⟨c, hc, hmatch⟩, hnone⟩ := of_decide_eq_true h
  obtain ⟨rfl, -, hoffers⟩ := Catalog.searchAt_ok hq
  have hd := ordering_declared hcat
  have hbelow : q.BelowCounter eqOfLists .empty (q.seed (asking eqOfLists) .empty) :=
    belowCounter_seed (r := eqOfLists) rfl
  obtain ⟨hexact, hnoInstance⟩ := filter_exact
  refine ⟨_, q, hcat, hq, ⟨c, hc, ?_⟩, ?_⟩
  · exact (hexact q c eqOfLists .empty _ hd hown (hoffers c hc) (hspares c hc) Subst.acyclic_empty
      hbelow).1 hmatch
  · refine (hnoInstance _ _ _ q (asking eqOfBool) eqOfBool .empty hd hown hq hspares rfl
      Subst.acyclic_empty).1 ?_
    exact (resolve_noInstance_iff hq rfl).2 (List.isEmpty_iff.1 hnone)

/-! ## A concept that extends another one at a parameter of an instance -/

/-- `Eq<T>`, and `Ord<T>` that extends `Eq<?20>`; the instance `Every<X>` of `Ord<X>`, whose parameter `X`
    is that very `?20`. -/
def foreign : Except DeclError Catalog := do
  let cat ← Catalog.empty.declareConcept ⟨"Eq", [⟨0, "T", .ordinary⟩], [], []⟩
  let cat ← cat.declareConcept
    ⟨"Ord", [⟨2, "T", .ordinary⟩], [⟨"Eq", [.var 20 (some "X")]⟩], []⟩
  let (_, cat) ← cat.declareInstance Catalog.root ⟨"Every", [⟨20, "X", .ordinary⟩],
    [⟨"Ord", [.var 20 (some "X")]⟩], false, false, none, []⟩
  return cat

theorem foreign_declared {cat : Catalog} (h : foreign = .ok cat) : cat.Declared := by
  obtain ⟨_, h₁, h⟩ := bind_eq_ok h
  obtain ⟨_, h₂, h⟩ := bind_eq_ok h
  obtain ⟨⟨_, _⟩, h₃, h⟩ := bind_eq_ok h
  injection h with h
  exact h ▸ .instance (.concept (.concept .empty h₁) h₂) h₃

/-- A context in which `?20` is `Bool`. -/
def boolContext : Subst := OrderedMap.empty.insert 20 (Ty.con "Bool" [])

/-- `Eq<Int>`. -/
def eqOfInt : Capability := ⟨"Eq", [Ty.con "Int" []]⟩

/-- **Without that the filter is not exact.**  `Every<X>` can provide `Eq<Int>`, namely at `Int`; but at a
    new variable it still comes with `Eq<?20>`, and the context says that this is `Eq<Bool>`. -/
theorem not_always_exact : ∃ cat q c, foreign = .ok cat ∧ cat.searchAt .default Catalog.root = .ok q ∧
    cat.Declared ∧ cat.OwnParams ∧ boolContext.Acyclic ∧
    c ∈ q.candidates.values ∧ cat.Offers c ∧
    q.BelowCounter eqOfInt boolContext (q.seed (asking eqOfInt) boolContext) ∧
    q.CanProvide boolContext c eqOfInt ∧
    q.match? c [eqOfInt] boolContext (q.seed (asking eqOfInt) boolContext) = none ∧
    ∃ label required, cat.resolve .default (asking eqOfInt) Catalog.root boolContext =
      .error (.search (.noInstance label required [])) := by
  have h : okAnd foreign (fun cat => okAnd (cat.searchAt .default Catalog.root) fun q =>
      decide (cat.OwnParams ∧
        (∃ c ∈ q.candidates.values, (q.catalog.expand c.offers =
            [⟨"Ord", [.var 20 (some "X")]⟩, ⟨"Eq", [.var 20 (some "X")]⟩] ∧
          c.params.map Param.id = [20]) ∧
          (q.match? c [eqOfInt] boolContext (q.seed (asking eqOfInt) boolContext)).isNone = true) ∧
        (q.matchAll [boolContext.applyTo eqOfInt] boolContext q.candidates.values
          (q.seed (asking eqOfInt) boolContext)).1.isEmpty = true)) = true := by
    decide +kernel
  obtain ⟨cat, hcat, h⟩ := okAnd_eq_true h
  obtain ⟨q, hq, h⟩ := okAnd_eq_true h
  obtain ⟨hown, ⟨c, hc, ⟨hexpand, hparams⟩, hmatch⟩, hnone⟩ := of_decide_eq_true h
  obtain ⟨rfl, -, hoffers⟩ := Catalog.searchAt_ok hq
  have hacyclic : boolContext.Acyclic :=
    Subst.acyclic_empty.insert rfl (fun _ _ => rfl) (by decide)
  have hbelow : q.BelowCounter eqOfInt boolContext (q.seed (asking eqOfInt) boolContext) :=
    belowCounter_seed (r := eqOfInt) rfl
  have hcan : q.CanProvide boolContext c eqOfInt := by
    refine ⟨boolContext.assignment, fun _ => Ty.con "Int" [], hacyclic.solution q.frozen,
      ⟨"Eq", [.var 20 (some "X")]⟩, ?_, ?_⟩
    · rw [hexpand]
      exact List.mem_cons_of_mem _ List.mem_cons_self
    · unfold chosen
      rw [hparams]
      decide
  exact ⟨_, q, c, hcat, hq, foreign_declared hcat, hown, hacyclic, hc, hoffers c hc, hbelow, hcan,
    Option.isNone_iff_eq_none.1 hmatch, (resolve_noInstance_iff hq rfl).2 (List.isEmpty_iff.1 hnone)⟩

end Search

end InstanceSearch
