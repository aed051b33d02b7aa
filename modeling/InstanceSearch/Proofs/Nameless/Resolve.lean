/-
  Names are only for display.

  THE STATEMENT (`resolve_ignores_names`)
    Two registries, two witness parameters and two contexts that are the same without names have the
    same outcomes for every scope and under all settings.  Either both find a witness: the same tree of
    instances and parameters by their numbers, with equal types, and equal substitutions.  Or both fail
    for the same cause, with equal requirements.

  THE PROOF
    A query without names has the outcome of the query, without names (`resolve_nameless`).  Hence the
    outcomes of two queries that are the same without names are the same without names, and what is left
    without names is what equality compares.

  Nothing is assumed of the registries or of the contexts.
-/
import InstanceSearch.Proofs.Nameless.Search
import InstanceSearch.Proofs.Search.Order
import InstanceSearch.Proofs.Search.Resolution

namespace InstanceSearch

/-! ## Queries without names -/

namespace Search

variable (q : Search) (p : Param) (context : Subst)

theorem queryVars_nameless : queryVars p.nameless context.nameless = queryVars p context := by
  have hvars : (p.nameless.constraints.map context.nameless.applyTo).flatMap Capability.vars =
      (p.constraints.map context.applyTo).flatMap Capability.vars := by
    simp [List.flatMap_map]
  rw [queryVars, queryVars, hvars]

/-- The search starts at the same variable. -/
theorem seed_nameless : q.nameless.seed p.nameless context.nameless = q.seed p context := by
  unfold seed
  rw [Param.vars_nameless, Subst.vars_nameless]
  rfl

theorem learn_nameless (found : Subst) (vs : List VarId) :
    q.nameless.learn found.nameless vs context.nameless = (q.learn found vs context).nameless := by
  induction vs generalizing context with
  | nil => rfl
  | cons v vs ih =>
    unfold learn at ih ⊢
    rw [List.foldl_cons, List.foldl_cons, ← ih]
    congr 1
    rw [Subst.isUnresolved_nameless]
    show (if v ∈ q.frozen || found.isUnresolved v then _ else _) = _
    split
    · rfl
    · rename_i hlearned
      have hbound : found.isUnresolved v = false := by
        cases hu : found.isUnresolved v with
        | false => rfl
        | true => simp [hu] at hlearned
      rw [Subst.apply_nameless_var hbound]
      exact Subst.insert_relabel (Equiv.refl VarId) _ context v _

/-- **A query without names** has the outcome of the query, without names. -/
theorem resolveWith_nameless : q.nameless.resolveWith p.nameless context.nameless =
    namelessFound Resolution.nameless (q.resolveWith p context) := by
  have hstart : q.nameless.solve (q.nameless.config.maxDepth + 1)
      ⟨p.nameless.name, p.nameless.constraints, context.nameless⟩
      ⟨q.nameless.seed p.nameless context.nameless, []⟩ =
      q.nameless.solve (q.config.maxDepth + 1) (Request.nameless ⟨p.name, p.constraints, context⟩)
        (State.nameless ⟨q.seed p context, []⟩) := by
    rw [Param.constraints_nameless, seed_nameless]
    rfl
  rw [solve_nameless] at hstart
  rcases hx : q.solve (q.config.maxDepth + 1) ⟨p.name, p.constraints, context⟩
    ⟨q.seed p context, []⟩ with ⟨e | found, st⟩
  · rw [hx] at hstart
    rw [resolveWith_of_error hx, resolveWith_of_error hstart]
    rfl
  · rw [hx] at hstart
    rw [resolveWith_of_ok hx, resolveWith_of_ok hstart, queryVars_nameless]
    show Except.ok (Resolution.mk found.witness.nameless
      (q.nameless.learn found.subst.nameless (queryVars p context) context.nameless)) = _
    rw [learn_nameless]
    rfl

end Search

/-! ## The same outcome -/

mutual
/-- The same tree: the same parameters and instances by their numbers, in the same places, at equal
    types. -/
inductive Witness.Same : Witness → Witness → Prop where
  | ambient {var : VarId} {name name' : String} :
      Witness.Same (.ambient var name) (.ambient var name')
  | apply {id : InstanceId} {name name' : String} {args args' : List Argument}
      (h : Argument.SameAll args args') : Witness.Same (.apply id name args) (.apply id name' args')

/-- The same for lists of arguments. -/
inductive Argument.SameAll : List Argument → List Argument → Prop where
  | nil : Argument.SameAll [] []
  | type {t t' : Ty} {as as' : List Argument} (h : (t == t') = true)
      (more : Argument.SameAll as as') : Argument.SameAll (.type t :: as) (.type t' :: as')
  | witness {w w' : Witness} {as as' : List Argument} (h : Witness.Same w w')
      (more : Argument.SameAll as as') : Argument.SameAll (.witness w :: as) (.witness w' :: as')
end

mutual
theorem Witness.same_of_nameless : ∀ {w w' : Witness}, w.nameless = w'.nameless → Witness.Same w w'
  | .ambient var name, .ambient var' name', h => by
    rw [Witness.nameless, Witness.nameless] at h
    injection h with h
    exact h ▸ .ambient
  | .apply id name args, .apply id' name' args', h => by
    rw [Witness.nameless, Witness.nameless] at h
    injection h with hid _ hargs
    exact hid ▸ .apply (Argument.sameAll_of_nameless hargs)
  | .ambient .., .apply .., h => by
    rw [Witness.nameless, Witness.nameless] at h
    cases h
  | .apply .., .ambient .., h => by
    rw [Witness.nameless, Witness.nameless] at h
    cases h

theorem Argument.sameAll_of_nameless : ∀ {as as' : List Argument},
    Argument.namelessAll as = Argument.namelessAll as' → Argument.SameAll as as'
  | [], [], _ => .nil
  | .type t :: as, .type t' :: as', h => by
    rw [Argument.namelessAll, Argument.namelessAll, Argument.nameless, Argument.nameless] at h
    injection h with hfirst hmore
    injection hfirst with ht
    exact .type (Ty.beq_iff.2 (Ty.nameless_eq_iff.1 ht)) (Argument.sameAll_of_nameless hmore)
  | .witness w :: as, .witness w' :: as', h => by
    rw [Argument.namelessAll, Argument.namelessAll, Argument.nameless, Argument.nameless] at h
    injection h with hfirst hmore
    injection hfirst with hw
    exact .witness (Witness.same_of_nameless hw) (Argument.sameAll_of_nameless hmore)
  | [], _ :: _, h => by
    rw [Argument.namelessAll, Argument.namelessAll] at h
    cases h
  | _ :: _, [], h => by
    rw [Argument.namelessAll, Argument.namelessAll] at h
    cases h
  | .type .. :: _, .witness .. :: _, h => by
    rw [Argument.namelessAll, Argument.namelessAll, Argument.nameless, Argument.nameless] at h
    cases h
  | .witness .. :: _, .type .. :: _, h => by
    rw [Argument.namelessAll, Argument.namelessAll, Argument.nameless, Argument.nameless] at h
    cases h
end

/-- The same witness, and equal substitutions that bind the variables in the same order. -/
structure Resolution.Same (r r' : Resolution) : Prop where
  witness : r.witness.Same r'.witness
  keys : r.subst.keys = r'.subst.keys
  subst : r.subst.same r'.subst = true

/-- The same cause: what was required is equal, a cycle goes through the same goals, and a limit is the
    same.  The names of candidates and of parameters may differ. -/
inductive SearchError.SameCause : SearchError → SearchError → Prop where
  | noInstance {label label' : String} {required required' : List Capability}
      {rejected rejected' : List String} (h : (required == required') = true)
      (count : rejected.length = rejected'.length) :
      SameCause (.noInstance label required rejected) (.noInstance label' required' rejected')
  | ambiguous {label label' : String} {required required' : List Capability}
      {names names' : List String} (h : (required == required') = true)
      (count : names.length = names'.length) :
      SameCause (.ambiguous label required names) (.ambiguous label' required' names')
  | cyclic {label label' : String} {path path' : List Attempt}
      (h : path.map Attempt.goal = path'.map Attempt.goal) :
      SameCause (.cyclic label path) (.cyclic label' path')
  | depthLimit {label label' : String} {limit : Nat} :
      SameCause (.depthLimit label limit) (.depthLimit label' limit)

inductive Failure.SameCause : Failure → Failure → Prop where
  | search {e e' : SearchError} (h : e.SameCause e') : Failure.SameCause (.search e) (.search e')
  | declaration (e : DeclError) : Failure.SameCause (.declaration e) (.declaration e)

theorem Resolution.same_of_nameless {r r' : Resolution} (h : r.nameless = r'.nameless) : r.Same r' := by
  injection h with hwitness hsubst
  obtain ⟨hkeys, hsame⟩ := Subst.same_of_nameless hsubst
  exact ⟨Witness.same_of_nameless hwitness, hkeys, hsame⟩

theorem SearchError.sameCause_of_nameless {e e' : SearchError} (h : e.nameless = e'.nameless) :
    e.SameCause e' := by
  have hcount : ∀ {xs ys : List String}, (xs.map fun _ => "") = (ys.map fun _ => "") →
      xs.length = ys.length := by
    intro xs ys h
    simpa using congrArg List.length h
  cases e <;> cases e' <;> injection h
  case noInstance.noInstance _ hrequired hrejected =>
    exact .noInstance (Capability.beq_of_nameless hrequired) (hcount hrejected)
  case ambiguous.ambiguous _ hrequired hnames =>
    exact .ambiguous (Capability.beq_of_nameless hrequired) (hcount hnames)
  case cyclic.cyclic _ hpath =>
    have hgoals := congrArg (List.map Attempt.goal) hpath
    rw [List.map_map, List.map_map] at hgoals
    exact .cyclic hgoals
  case depthLimit.depthLimit _ hlimit => exact hlimit ▸ .depthLimit

/-! ## The theorem -/

namespace Catalog

/-- **Names are only for display.**  Registries, witness parameters and contexts that are the same
    without names have the same outcome: the same tree with equal types and equal substitutions, or a
    failure for the same cause. -/
theorem resolve_ignores_names {cat cat' : Catalog} (hcat : cat.nameless = cat'.nameless) {p p' : Param}
    (hp : p.nameless = p'.nameless) {context context' : Subst}
    (hcontext : context.nameless = context'.nameless) (config : Config) (scope : ScopeId) :
    Together Failure.SameCause Resolution.Same (cat.resolve config p scope context)
      (cat'.resolve config p' scope context') := by
  have hsearch := cat.searchAt_nameless config scope
  rw [hcat, cat'.searchAt_nameless] at hsearch
  unfold resolve
  rcases hq : cat.searchAt config scope with e | q <;>
    rcases hq' : cat'.searchAt config scope with e' | q' <;> rw [hq, hq'] at hsearch
  · injection hsearch with he
    exact he ▸ .error (.declaration _)
  · cases hsearch
  · cases hsearch
  · injection hsearch with hnameless
    have hout := q.resolveWith_nameless p context
    rw [← hnameless, hp, hcontext, q'.resolveWith_nameless] at hout
    dsimp only
    rcases hx : q.resolveWith p context with e | r <;>
      rcases hx' : q'.resolveWith p' context' with e' | r' <;> rw [hx, hx'] at hout <;>
      injection hout
    case error.error h => exact .error (.search (SearchError.sameCause_of_nameless h.symm))
    case ok.ok h => exact .ok (Resolution.same_of_nameless h.symm)

/-! ## Two ways to name the same registry -/

deriving instance DecidableEq for Param.Kind, Param, Method, Fragment, Concept, Scope, InstanceDecl,
  Instance, Catalog

/-- The registry `ordering` with other names for its parameters and instances, and labels taken off or
    put on. -/
def orderingRenamed : Except DeclError Catalog := do
  let ord := fun t : Ty => (⟨"Ord", [t]⟩ : Capability)
  let cat ← Catalog.empty.declareConcept ⟨"Eq", [⟨0, "Self", .ordinary⟩], [], []⟩
  let cat ← cat.declareConcept ⟨"Ord", [⟨2, "Self", .ordinary⟩], [⟨"Eq", [.var 2 none]⟩], []⟩
  let (_, cat) ← cat.declareInstance Catalog.root
    ⟨"numbers", [], [ord (Ty.con "Int" [])], false, false, none, []⟩
  let elem : Ty := .var 4 (some "elem")
  let (_, cat) ← cat.declareInstance Catalog.root ⟨"sequences",
    [⟨4, "E", .ordinary⟩, ⟨5, "compare", .witness [ord elem]⟩], [ord (Ty.con "List" [.var 4 none])],
    false, false, none, []⟩
  return cat

/-- The query of `orderingQuery` with another name and a label. -/
def orderingQueryRenamed : Param :=
  ⟨20, "goal", .witness [⟨"Eq", [Ty.con "List" [.var 21 (some "x")]]⟩,
    ⟨"Ord", [Ty.con "List" [.var 21 none]]⟩]⟩

/-- Both answer with the same tree, which is written in two ways. -/
theorem resolve_ignores_names_ordering : ∃ (cat cat' : Catalog) (r r' : Resolution),
    cat.nameless = cat'.nameless ∧ cat ≠ cat' ∧
    cat.resolve .default Search.orderingQuery root .empty = .ok r ∧
    cat'.resolve .default orderingQueryRenamed root .empty = .ok r' ∧
    r.witness.text = "OrdList<Int, OrdInt>" ∧ r'.witness.text = "sequences<Int, numbers>" ∧
    r.Same r' := by
  have h : okAnd Search.ordering (fun cat => okAnd orderingRenamed fun cat' =>
      okAnd (cat.resolve .default Search.orderingQuery root .empty) fun r =>
        okAnd (cat'.resolve .default orderingQueryRenamed root .empty) fun r' =>
          decide (cat.nameless = cat'.nameless ∧ cat ≠ cat' ∧
            Search.orderingQuery.nameless = orderingQueryRenamed.nameless ∧
            r.witness.text = "OrdList<Int, OrdInt>" ∧
            r'.witness.text = "sequences<Int, numbers>")) = true := by decide +kernel
  obtain ⟨cat, _, h⟩ := okAnd_eq_true h
  obtain ⟨cat', _, h⟩ := okAnd_eq_true h
  obtain ⟨r, hr, h⟩ := okAnd_eq_true h
  obtain ⟨r', hr', h⟩ := okAnd_eq_true h
  obtain ⟨hcat, hne, hquery, htext, htext'⟩ := of_decide_eq_true h
  have hcontext : Subst.nameless .empty = Subst.nameless .empty := rfl
  have hsame := resolve_ignores_names hcat hquery hcontext .default root
  rw [hr, hr'] at hsame
  cases hsame with
  | ok hsame => exact ⟨cat, cat', r, r', hcat, hne, hr, hr', htext, htext', hsame⟩

end Catalog

end InstanceSearch
