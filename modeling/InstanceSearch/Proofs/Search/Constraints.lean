/-
  The order of the constraints.

  The constraints of a witness parameter are meant as a set.  Three things in the search depend on their
  order all the same.
    (1) Covering is greedy, so an early constraint may take a capability that bars a later one.
    (2) Unification binds one of two variables to the other, and which one depends on what comes first.
    (3) The cycle guard compares goals as texts, in order.

  THE STATEMENT (`resolve_constraints_perm`)
    Where (1) and (3) have nothing to act on (`OrderFree`), the order does not matter: from every scope,
    either both orders find the same witness, up to a renaming of the variables that are left open, or
    both fail in the same way.  The renaming is what (2) leaves; it may exchange variables of the query,
    but must not meddle with those that the concepts are written with (`Apart`).

  WITHOUT THESE (`constraint_order_matters`)
    Each of them is needed.

  THE PROOF
    Only the outermost round differs.  There the two orders are interchangeable (`match?_same`), so every
    candidate matches for both, with bindings that are variants.  Below, the same is asked for under
    variants (`solve_variant`).
-/
import InstanceSearch.Proofs.Search.Outcomes

namespace InstanceSearch

/-- The same parameter with its constraints in another order. -/
structure Param.Reordered (p p' : Param) : Prop where
  id : p'.id = p.id
  name : p'.name = p.name
  constraints : p.constraints.Perm p'.constraints

namespace Search

/-! ## Requirements as sets -/

section Alike

variable {q : Search} {context : Subst} {n : VarId}

/-- The same constraints in another order leave the same requirements. -/
theorem requirement_alike {cs cs' : List Capability} (h : cs.Perm cs') (label : String)
    (context : Subst) : Capability.Alike (q.requirement ⟨label, cs, context⟩)
      (q.requirement ⟨label, cs', context⟩) := by
  have happlied := Capability.alike_of_perm (h.map context.applyTo)
  unfold requirement
  dsimp only
  split
  · exact Catalog.minimize_alike happlied
  · exact happlied

theorem SpecificFor.of_alike {frozen : VarSet} {offered offered' required required' : List Capability}
    (hs : context.Acyclic) (h : SpecificFor frozen context offered offered' required)
    (halike : Capability.Alike required required') :
    SpecificFor frozen context offered offered' required' := by
  intro r' hr' d hd hu d' hd' hu'
  obtain ⟨r, hr, heq⟩ := halike.symm.exists_mem hr'
  exact h r hr d hd ((unifies_congr hs rfl heq).2 hu) d' hd' ((unifies_congr hs rfl heq).2 hu')

/-- **Decided requirements are interchangeable with the same ones in another order.** -/
theorem interchangeable_of_alike (hs : context.Acyclic) {required required' : List Capability}
    (halike : Capability.Alike required required') (h : q.Decided required context n) :
    q.Interchangeable required required' context n where
  decided := h
  decided' e he := (h e he).of_alike hs halike
  entails _ _ := entails_of_subset hs fun _ hr => halike.symm.exists_mem hr
  entails' _ _ := entails_of_subset hs fun _ hr => halike.exists_mem hr
  specific _ _ _ _ _ _ _ _ := ⟨fun hsp => hsp.of_alike hs halike, fun hsp => hsp.of_alike hs halike.symm⟩

end Alike

/-! ## The outermost round -/

/-- The texts of two goals in flight, where only the outermost ones differ. -/
def OutermostDiffer (goal goal' : String) (g g' : String) : Prop := g = g' ∨ (g = goal ∧ g' = goal')

/-- A goal that is not confused with the outermost one is told apart from all goals in flight. -/
theorem distinct_of_outermost {q : Search} {goal goal' : String} {r : Request}
    (h : q.goal r = goal ↔ q.goal r = goal') : q.Distinct (OutermostDiffer goal goal') r := by
  refine ⟨Or.inl rfl, ?_⟩
  rintro g g' (rfl | ⟨rfl, rfl⟩)
  · exact Iff.rfl
  · exact ⟨fun he => (h.1 he.symm).symm, fun he => (h.2 he.symm).symm⟩

/-- **A search for the same constraints in another order**, with nothing in flight, finds the same up to
    a renaming, or fails in the same way. -/
theorem solve_constraints_perm {q : Search} (hd : q.catalog.Declared) (hap : q.catalog.Apart)
    (hq : ∀ c ∈ q.candidates.values, q.catalog.Offers c) {label : String} {cs cs' : List Capability}
    (hperm : cs.Perm cs') {context : Subst} (hs : context.Acyclic)
    (hsK : ∀ v ∈ context.vars, ¬ q.catalog.Schematic v)
    (hcK : ∀ c ∈ cs, ∀ v ∈ c.vars, ¬ q.catalog.Schematic v) {n : VarId} (hn : q.catalog.nextVar ≤ n)
    (hdecided : q.Decided (q.requirement ⟨label, cs, context⟩) context n) {levels : Nat}
    (hgoals : ∀ c ∈ q.calls (levels + 1) 0 ⟨label, cs, context⟩ ⟨n, []⟩, 0 < c.depth →
      (q.goal c.request = q.goal ⟨label, cs, context⟩ ↔ q.goal c.request = q.goal ⟨label, cs', context⟩)) :
    Together SameFailure (fun found found' => ∃ π, (Bond.renaming q.frozen π).Solved found found')
      (q.solve (levels + 1) ⟨label, cs, context⟩ ⟨n, []⟩).1
      (q.solve (levels + 1) ⟨label, cs', context⟩ ⟨n, []⟩).1 := by
  have hsame := interchangeable_of_alike hs (requirement_alike hperm label context) hdecided
  have hcK' : ∀ c ∈ cs', ∀ v ∈ c.vars, ¬ q.catalog.Schematic v :=
    fun c hc => hcK c (hperm.mem_iff.2 hc)
  have hrK : ∀ c ∈ q.requirement ⟨label, cs, context⟩ ++ q.requirement ⟨label, cs', context⟩,
      ∀ v ∈ c.vars, ¬ q.catalog.Schematic v := by
    intro c hc
    rcases List.mem_append.1 hc with hc | hc
    · exact requirement_vars hsK hcK c hc
    · exact requirement_vars hsK hcK' c hc
  have hgrows : q.GrowsAt (fun _ => True) 0 (q.solve levels) := solve_grows (roomy_true q 0) levels
  have hbelow : ∀ c ∈ q.stepCalls (q.solve levels) ⟨label, cs, context⟩ ⟨n, []⟩,
      ∀ d ∈ q.calls levels 1 c.1 c.2, q.Distinct (OutermostDiffer (q.goal ⟨label, cs, context⟩)
        (q.goal ⟨label, cs', context⟩)) d.request := by
    intro c hc d hdm
    refine distinct_of_outermost (hgoals d ?_ (depth_le_of_mem_calls hdm).1)
    rw [calls]
    exact List.mem_cons_of_mem _ (List.mem_flatMap.2 ⟨c, hc, hdm⟩)
  have hround : Parallel (OutermostDiffer (q.goal ⟨label, cs, context⟩) (q.goal ⟨label, cs', context⟩))
      SameFailure (fun found found' => ∃ π, (Bond.renaming q.frozen π).Solved found found')
      ((q.minimizing q.config.minimize).step (q.solve levels) ⟨label, cs, context⟩ ⟨n, []⟩)
      ((q.minimizing q.config.minimize).step (q.solve levels) ⟨label, cs', context⟩ ⟨n, []⟩) := by
    refine step_together ?label ?corresponds ?reentry (match?_same hs hsame) ?candidate ?specific
      ?survive hbelow
    case label => rfl
    case corresponds => exact ⟨rfl, .nil⟩
    case reentry => rfl
    case candidate => exact fun m m' hm => hm.same.candidate
    case specific => exact fun m m' k k' hm hk => specific_same hs hsame hm hk
    case survive =>
      intro m m' st st' hm hst hcalls
      obtain ⟨π, hπ, hfixed⟩ := hm.exists_clean_variant hd hap hq hn hs hsK hrK
      have hfits : Fits (Bond.renaming q.frozen π) m m' := ⟨hm.same.candidate, hm.same.params, hπ⟩
      have hpar := survive_together hgrows (Or.inr ⟨rfl, rfl⟩) hfits hst
        fun c hc => solve_variant (hap.unmoved hfixed) (hcalls c hc)
      exact ⟨hpar.outcome.imp fun w w' hw => ⟨hw.candidate, hw.patterns, hw.patterns', π, hw.solved⟩,
        hpar.state⟩
  exact hround.outcome

/-! ## The query -/

section Query

variable {q : Search} {p p' : Param} (hp : p.Reordered p') (context : Subst)
include hp

theorem mem_queryVars_perm {v : VarId} : v ∈ queryVars p context ↔ v ∈ queryVars p' context := by
  rw [mem_queryVars, mem_queryVars]
  simp only [hp.constraints.mem_iff]

/-- Both orders start from the same variable. -/
theorem seed_perm : q.seed p' context = q.seed p context := by
  have hvars : ∀ v, v ∈ p'.vars ++ context.vars ++ q.frozen.ids ↔
      v ∈ p.vars ++ context.vars ++ q.frozen.ids := by
    intro v
    simp only [Param.vars, hp.id, List.mem_append, List.mem_cons, List.mem_flatMap,
      hp.constraints.mem_iff]
  apply Nat.le_antisymm
  · exact reserve_le_iff.2 ⟨le_reserve _ _, fun v hv => lt_reserve ((hvars v).1 hv)⟩
  · exact reserve_le_iff.2 ⟨le_reserve _ _, fun v hv => lt_reserve ((hvars v).2 hv)⟩

end Query

/-- When the order of the constraints cannot matter to a query. -/
structure OrderFree (q : Search) (p p' : Param) (context : Subst) : Prop where
  /-- no constraint unifies with two different capabilities that a candidate offers -/
  decided : q.Decided (q.requirement (queryRequest p context)) context (q.seed p context)
  /-- no goal below is written as the query is in one order only -/
  goals : ∀ c ∈ q.queryCalls p context, 0 < c.depth →
    (q.goal c.request = q.goal (queryRequest p context) ↔
      q.goal c.request = q.goal (queryRequest p' context))

instance (q : Search) (p p' : Param) (context : Subst) : Decidable (q.OrderFree p p' context) :=
  decidable_of_iff (q.Decided (q.requirement (queryRequest p context)) context (q.seed p context) ∧
      ∀ c ∈ q.queryCalls p context, 0 < c.depth →
        (q.goal c.request = q.goal (queryRequest p context) ↔
          q.goal c.request = q.goal (queryRequest p' context)))
    ⟨fun h => ⟨h.1, h.2⟩, fun h => ⟨h.decided, h.goals⟩⟩

end Search

/-- `r.SameUpTo π vs r'`: renamed by `π`, the witness of `r` is that of `r'`, and so is what the
    variables `vs` stand for; labels aside. -/
structure Resolution.SameUpTo (π : Renaming) (vs : List VarId) (r r' : Resolution) : Prop where
  witness : Witness.Like (fun t t' => t'.anon = (t.mapVars π).anon) r.witness r'.witness
  subst : ∀ v ∈ vs,
    (r'.subst.apply (.var v none)).anon = ((r.subst.apply (.var v none)).mapVars π).anon

namespace Search

/-- The outcomes of two orders of the constraints. -/
theorem resolveWith_reordered {q : Search} (hd : q.catalog.Declared) (hap : q.catalog.Apart)
    (hq : ∀ c ∈ q.candidates.values, q.catalog.Offers c) {p p' : Param} (hp : p.Reordered p')
    {context : Subst} (hs : context.Acyclic)
    (hclean : ∀ v ∈ p.constraints.flatMap Capability.vars ++ context.vars, ¬ q.catalog.Schematic v)
    (h : q.OrderFree p p' context) :
    Together SameFailure (fun r r' => ∃ π : Renaming, (∀ v ∈ q.frozen, π v = v) ∧
        r.SameUpTo π (queryVars p context) r')
      (q.resolveWith p context) (q.resolveWith p' context) := by
  have hcK : ∀ c ∈ p.constraints, ∀ v ∈ c.vars, ¬ q.catalog.Schematic v := fun c hc v hv =>
    hclean v (List.mem_append.2 (Or.inl (List.mem_flatMap.2 ⟨c, hc, hv⟩)))
  have hseed : q.catalog.nextVar ≤ q.seed p context := le_reserve _ _
  have hout := solve_constraints_perm hd hap hq hp.constraints hs
    (fun v hv => hclean v (List.mem_append.2 (Or.inr hv))) hcK hseed h.decided h.goals
  have hrequest : queryRequest p' context = ⟨p.name, p'.constraints, context⟩ := by
    rw [queryRequest, hp.name]
  have hstate : q.queryState p' context = q.queryState p context := by
    rw [queryState, queryState, seed_perm hp]
  refine (resolveWith_together hs (by rw [hrequest, hstate]; exact hout)).imp fun r r' => ?_
  rintro ⟨found, found', ⟨π, hπ⟩, hr, hr'⟩
  refine ⟨π, hπ.substs.frozen, ?_, fun v hv => ?_⟩
  · rw [hr.witness, hr'.witness]
    exact hπ.witness.mono fun _ _ ht => ht.1
  · rw [hr.subst v hv, hr'.subst v ((mem_queryVars_perm hp context).1 hv)]
    exact hπ.substs.apply _

end Search

/-! ## The theorem -/

namespace Catalog

/-- **The order of the constraints does not matter** where it is free.  In a registry that keeps the
    parameters of its concepts apart, also from the query, two orders of the constraints either both find
    a witness, the same up to a renaming of variables that are left open, and learn the same up to it; or
    they fail for the same reason. -/
theorem resolve_constraints_perm {cat : Catalog} (hd : cat.Declared) (hap : cat.Apart) {config : Config}
    {p p' : Param} (hp : p.Reordered p') {scope : ScopeId} {context : Subst} (hs : context.Acyclic)
    (hclean : ∀ v ∈ p.constraints.flatMap Capability.vars ++ context.vars, ¬ cat.Schematic v)
    (hfree : ∀ q, cat.searchAt config scope = .ok q → q.OrderFree p p' context) :
    Together Failure.Same (fun r r' => ∃ π : Renaming,
        (∀ frozen, cat.frozenAt scope = .ok frozen → ∀ v ∈ frozen, π v = v) ∧
        r.SameUpTo π (Search.queryVars p context) r')
      (cat.resolve config p scope context) (cat.resolve config p' scope context) := by
  apply resolve_together
  cases hq : cat.searchAt config scope with
  | error e => exact Or.inl ⟨e, rfl, rfl⟩
  | ok q =>
    obtain ⟨hcatalog, _, hoffers⟩ := searchAt_ok hq
    subst hcatalog
    have hout := Search.resolveWith_reordered hd hap hoffers hp hs hclean (hfree q hq)
    refine Or.inr ⟨q, q, rfl, rfl, hout.imp fun r r' ⟨π, hπ, hsame⟩ => ⟨π, ?_, hsame⟩⟩
    intro frozen hfrozen
    rw [searchAt_frozen hq] at hfrozen
    injection hfrozen with hfrozen
    exact hfrozen ▸ hπ

end Catalog

/-! ## Where the order does not matter, and where it does -/

/-- The same parameter with its constraints in the opposite order. -/
def Param.reversed (p : Param) : Param := ⟨p.id, p.name, .witness p.constraints.reverse⟩

theorem Param.reordered_reversed (p : Param) : p.Reordered p.reversed :=
  ⟨rfl, rfl, (List.reverse_perm p.constraints).symm⟩

namespace Catalog

/-- `Mixed` provides `Show` for `Int` and for `Bool`, and `Ord` for `Bool` only.  `RingAgain` provides
    `Num` and `Ring` for anything for which they are provided already, and `RingInt` for `Int`.  `Refl`
    provides `Same` for a type and itself, if `Any` is provided for it, which `AnyAll` does. -/
def contested : Except DeclError Catalog := do
  let concept := fun (name : String) (n : VarId) =>
    (⟨name, [⟨n, "T", .ordinary⟩], [], []⟩ : ConceptDecl)
  let inst := fun (name : String) (params : List Param) (provides : List Capability) =>
    (⟨name, params, provides, false, false, none, []⟩ : InstanceDecl)
  let int := Ty.con "Int" []
  let bool := Ty.con "Bool" []
  let x : Ty := .var 20 (some "X")
  let cat ← Catalog.empty.declareConcept (concept "Show" 0)
  let cat ← cat.declareConcept (concept "Ord" 2)
  let cat ← cat.declareConcept (concept "Num" 4)
  let cat ← cat.declareConcept (concept "Ring" 6)
  let cat ← cat.declareConcept (concept "Any" 8)
  let cat ← cat.declareConcept ⟨"Same", [⟨10, "A", .ordinary⟩, ⟨11, "B", .ordinary⟩], [], []⟩
  let (_, cat) ← cat.declareInstance Catalog.root
    (inst "Mixed" [] [⟨"Show", [int]⟩, ⟨"Show", [bool]⟩, ⟨"Ord", [bool]⟩])
  let (_, cat) ← cat.declareInstance Catalog.root (inst "RingAgain"
    [⟨20, "X", .ordinary⟩, ⟨21, "W", .witness [⟨"Num", [x]⟩, ⟨"Ring", [x]⟩]⟩]
    [⟨"Num", [x]⟩, ⟨"Ring", [x]⟩])
  let (_, cat) ← cat.declareInstance Catalog.root
    (inst "RingInt" [] [⟨"Num", [int]⟩, ⟨"Ring", [int]⟩])
  let (_, cat) ← cat.declareInstance Catalog.root (inst "Refl"
    [⟨20, "X", .ordinary⟩, ⟨21, "W", .witness [⟨"Any", [x]⟩]⟩] [⟨"Same", [x, x]⟩])
  let (_, cat) ← cat.declareInstance Catalog.root (inst "AnyAll" [⟨20, "X", .ordinary⟩] [⟨"Any", [x]⟩])
  return cat

theorem contested_declared {cat : Catalog} (h : contested = .ok cat) : cat.Declared := by
  obtain ⟨_, h₁, h⟩ := bind_eq_ok h
  obtain ⟨_, h₂, h⟩ := bind_eq_ok h
  obtain ⟨_, h₃, h⟩ := bind_eq_ok h
  obtain ⟨_, h₄, h⟩ := bind_eq_ok h
  obtain ⟨_, h₅, h⟩ := bind_eq_ok h
  obtain ⟨_, h₆, h⟩ := bind_eq_ok h
  obtain ⟨⟨_, _⟩, i₁, h⟩ := bind_eq_ok h
  obtain ⟨⟨_, _⟩, i₂, h⟩ := bind_eq_ok h
  obtain ⟨⟨_, _⟩, i₃, h⟩ := bind_eq_ok h
  obtain ⟨⟨_, _⟩, i₄, h⟩ := bind_eq_ok h
  obtain ⟨⟨_, _⟩, i₅, h⟩ := bind_eq_ok h
  injection h with h
  have hconcepts := ((((Declared.empty.concept h₁).concept h₂).concept h₃).concept h₄).concept h₅
  exact h ▸ (((((hconcepts.concept h₆).instance i₁).instance i₂).instance i₃).instance i₄).instance i₅

/-- A query for two capabilities. -/
def pairQuery (c d : Capability) : Param := ⟨30, "W", .witness [c, d]⟩

/-- `Same` of two unknown types, in both directions. -/
def sameQuery : Param := pairQuery ⟨"Same", [.var 31 none, .var 32 none]⟩
  ⟨"Same", [.var 32 none, .var 31 none]⟩

/-- Both orders answer `Refl`, the one for `?32` and the other for `?31`; the renaming exchanges them. -/
theorem resolve_constraints_perm_same : ∃ (cat : Catalog) (r r' : Resolution),
    cat.resolve .default sameQuery root .empty = .ok r ∧
    cat.resolve .default sameQuery.reversed root .empty = .ok r' ∧
    r.witness.text = "Refl<?32, AnyAll<?32>>" ∧ r'.witness.text = "Refl<?31, AnyAll<?31>>" ∧
    ∃ π : Renaming, r.SameUpTo π (Search.queryVars sameQuery .empty) r' := by
  have h : okAnd contested (fun cat => okAnd (cat.searchAt .default root) fun q =>
      okAnd (cat.resolve .default sameQuery root .empty) fun r =>
        okAnd (cat.resolve .default sameQuery.reversed root .empty) fun r' =>
          decide (r.witness.text = "Refl<?32, AnyAll<?32>>" ∧
            r'.witness.text = "Refl<?31, AnyAll<?31>>" ∧ cat.Apart ∧
            (∀ v ∈ sameQuery.constraints.flatMap Capability.vars ++ Subst.vars .empty,
              ¬ cat.Schematic v) ∧
            q.OrderFree sameQuery sameQuery.reversed .empty)) = true := by decide +kernel
  obtain ⟨cat, hcat, h⟩ := okAnd_eq_true h
  obtain ⟨q, hq, h⟩ := okAnd_eq_true h
  obtain ⟨r, hr, h⟩ := okAnd_eq_true h
  obtain ⟨r', hr', h⟩ := okAnd_eq_true h
  obtain ⟨htext, htext', hap, hclean, hfree⟩ := of_decide_eq_true h
  have horder : ∀ q', cat.searchAt .default root = .ok q' →
      q'.OrderFree sameQuery sameQuery.reversed .empty := by
    intro q' hq'
    rw [hq] at hq'
    injection hq' with hq'
    exact hq' ▸ hfree
  have hout := resolve_constraints_perm (contested_declared hcat) hap sameQuery.reordered_reversed
    Subst.acyclic_empty hclean horder
  rw [hr, hr'] at hout
  cases hout with
  | ok h =>
    obtain ⟨π, _, hsame⟩ := h
    exact ⟨cat, r, r', hr, hr', htext, htext', π, hsame⟩

/-- `B<U, V>` is an `A<U>`, where `V` is `?3`: so `B<?3, Int>` inherits `A<Int>`, other than `B<X, Int>`,
    which inherits `A<X>`.  `BAgain` provides `B` where it is provided already, `BAll` provides it
    everywhere, and `Refl` needs `B` and `A`. -/
def entangled : Except DeclError Catalog := do
  let inst := fun (name : String) (params : List Param) (provides : List Capability) =>
    (⟨name, params, provides, false, false, none, []⟩ : InstanceDecl)
  let x : Ty := .var 20 (some "X")
  let b : Capability := ⟨"B", [x, Ty.con "Int" []]⟩
  let cat ← Catalog.empty.declareConcept ⟨"A", [⟨0, "T", .ordinary⟩], [], []⟩
  let cat ← cat.declareConcept
    ⟨"B", [⟨2, "U", .ordinary⟩, ⟨3, "V", .ordinary⟩], [⟨"A", [.var 2 (some "U")]⟩], []⟩
  let cat ← cat.declareConcept ⟨"Same", [⟨10, "A", .ordinary⟩, ⟨11, "B", .ordinary⟩], [], []⟩
  let (_, cat) ← cat.declareInstance Catalog.root (inst "Refl"
    [⟨20, "X", .ordinary⟩, ⟨21, "W", .witness [b, ⟨"A", [x]⟩]⟩] [⟨"Same", [x, x]⟩])
  let (_, cat) ← cat.declareInstance Catalog.root
    (inst "BAgain" [⟨20, "X", .ordinary⟩, ⟨21, "W", .witness [b]⟩] [b])
  let (_, cat) ← cat.declareInstance Catalog.root (inst "BAll" [⟨20, "X", .ordinary⟩] [b])
  return cat

theorem entangled_declared {cat : Catalog} (h : entangled = .ok cat) : cat.Declared := by
  obtain ⟨_, h₁, h⟩ := bind_eq_ok h
  obtain ⟨_, h₂, h⟩ := bind_eq_ok h
  obtain ⟨_, h₃, h⟩ := bind_eq_ok h
  obtain ⟨⟨_, _⟩, i₁, h⟩ := bind_eq_ok h
  obtain ⟨⟨_, _⟩, i₂, h⟩ := bind_eq_ok h
  obtain ⟨⟨_, _⟩, i₃, h⟩ := bind_eq_ok h
  injection h with h
  have hconcepts := ((Declared.empty.concept h₁).concept h₂).concept h₃
  exact h ▸ ((hconcepts.instance i₁).instance i₂).instance i₃

/-- The same with an instance that mentions `?3`: it provides `P` for lists of `?3`, and `Q` for lists of
    anything for which there are `B` and `A`. -/
def entangledInstance : Except DeclError Catalog := do
  let listOf := fun t : Ty => Ty.con "List" [t]
  let x : Ty := .var 20 (some "X")
  let cat ← entangled
  let cat ← cat.declareConcept ⟨"P", [⟨40, "T", .ordinary⟩], [], []⟩
  let cat ← cat.declareConcept ⟨"Q", [⟨42, "T", .ordinary⟩], [], []⟩
  let (_, cat) ← cat.declareInstance Catalog.root ⟨"Leak",
    [⟨20, "X", .ordinary⟩, ⟨21, "W", .witness [⟨"B", [x, Ty.con "Int" []]⟩, ⟨"A", [x]⟩]⟩],
    [⟨"P", [listOf (.var 3 none)]⟩, ⟨"Q", [listOf x]⟩], false, false, none, []⟩
  return cat

theorem entangledInstance_declared {cat : Catalog} (h : entangledInstance = .ok cat) :
    cat.Declared := by
  obtain ⟨_, h₁, h⟩ := bind_eq_ok h
  obtain ⟨_, h₂, h⟩ := bind_eq_ok h
  obtain ⟨_, h₃, h⟩ := bind_eq_ok h
  obtain ⟨⟨_, _⟩, i₁, h⟩ := bind_eq_ok h
  injection h with h
  exact h ▸ (((entangled_declared h₁).concept h₂).concept h₃).instance i₁

/-- Both orders of a query fail, or both find the same witness up to a renaming that leaves the
    variables of the query alone. -/
def Unordered (cat : Catalog) (p : Param) : Prop :=
  Together (fun _ _ => True) (fun r r' => ∃ π : Renaming, (∀ v ∈ p.vars, π v = v) ∧
      Witness.Like (fun t t' => t'.anon = (t.mapVars π).anon) r.witness r'.witness)
    (cat.resolve .default p root .empty) (cat.resolve .default p.reversed root .empty)

theorem Unordered.isOk {cat : Catalog} {p : Param} (h : cat.Unordered p) :
    (cat.resolve .default p root .empty).isOk =
      (cat.resolve .default p.reversed root .empty).isOk := Together.isOk h

/-- Where both orders find a witness whose type arguments are variables of the query, they are the same
    variables. -/
theorem Unordered.typeVars {cat : Catalog} {p : Param} {r r' : Resolution} (h : cat.Unordered p)
    (hr : cat.resolve .default p root .empty = .ok r)
    (hr' : cat.resolve .default p.reversed root .empty = .ok r')
    (hvars : ∀ v, some v ∈ r.witness.typeVars → v ∈ p.vars) :
    r'.witness.typeVars = r.witness.typeVars := by
  unfold Unordered at h
  rw [hr, hr'] at h
  cases h with
  | ok h =>
    obtain ⟨π, hπ, hlike⟩ := h
    rw [hlike.typeVars]
    refine (List.map_congr_left fun o ho => ?_).trans (List.map_id _)
    cases o with
    | none => rfl
    | some v => exact congrArg some (hπ v (hvars v ho))

/-- **The order of the constraints matters** in five ways.  The first match for one constraint may bar
    the other one.  A goal in flight is only recognized in the order that it was written in.  Of two
    variables of the query that come to the same, either may be left.  A variable that a concept is
    written with does not inherit what another one does, be it one of the query or one of an instance. -/
theorem constraint_order_matters :
    (∃ cat, contested = .ok cat ∧ cat.Declared ∧ cat.Apart ∧
      ¬ cat.Unordered (pairQuery ⟨"Show", [.var 31 none]⟩ ⟨"Ord", [.var 31 none]⟩) ∧
      ¬ cat.Unordered (pairQuery ⟨"Num", [Ty.con "Int" []]⟩ ⟨"Ring", [Ty.con "Int" []]⟩) ∧
      ¬ cat.Unordered sameQuery) ∧
    (∃ cat, entangled = .ok cat ∧ cat.Declared ∧ cat.Apart ∧
      ¬ cat.Unordered (pairQuery ⟨"Same", [.var 3 none, .var 32 none]⟩
        ⟨"Same", [.var 32 none, .var 3 none]⟩)) ∧
    ∃ cat, entangledInstance = .ok cat ∧ cat.Declared ∧
      ¬ cat.Unordered (pairQuery ⟨"P", [.var 31 none]⟩ ⟨"Q", [.var 31 none]⟩) := by
  have hdisagree : ∀ {cat : Catalog} {p : Param}, (cat.resolve .default p root .empty).isOk ≠
      (cat.resolve .default p.reversed root .empty).isOk → ¬ cat.Unordered p :=
    fun hne h => hne h.isOk
  refine ⟨?contested, ?query, ?inst⟩
  case contested =>
    have h : okAnd contested (fun cat => okAnd (cat.resolve .default sameQuery root .empty) fun r =>
        okAnd (cat.resolve .default sameQuery.reversed root .empty) fun r' =>
          decide (cat.Apart ∧ r.witness.typeVars = [some 32, some 32] ∧
            r'.witness.typeVars = [some 31, some 31] ∧
            ∀ p ∈ [pairQuery ⟨"Show", [.var 31 none]⟩ ⟨"Ord", [.var 31 none]⟩,
                pairQuery ⟨"Num", [Ty.con "Int" []]⟩ ⟨"Ring", [Ty.con "Int" []]⟩],
              (cat.resolve .default p root .empty).isOk ≠
                (cat.resolve .default p.reversed root .empty).isOk)) = true := by decide +kernel
    obtain ⟨cat, hcat, h⟩ := okAnd_eq_true h
    obtain ⟨r, hr, h⟩ := okAnd_eq_true h
    obtain ⟨r', hr', h⟩ := okAnd_eq_true h
    obtain ⟨hap, hw, hw', hne⟩ := of_decide_eq_true h
    refine ⟨cat, hcat, contested_declared hcat, hap, hdisagree (hne _ (by simp)),
      hdisagree (hne _ (by simp)), fun h => ?_⟩
    have hquery : ∀ v, some v ∈ r.witness.typeVars → v ∈ sameQuery.vars := by
      intro v hv
      have hv32 : v = 32 := by simpa [hw] using hv
      exact hv32 ▸ by decide
    have hsame := h.typeVars hr hr' hquery
    rw [hw, hw'] at hsame
    cases hsame
  case query =>
    have h : okAnd entangled (fun cat => decide (cat.Apart ∧
        (cat.resolve .default (pairQuery ⟨"Same", [.var 3 none, .var 32 none]⟩
          ⟨"Same", [.var 32 none, .var 3 none]⟩) root .empty).isOk ≠
        (cat.resolve .default (pairQuery ⟨"Same", [.var 3 none, .var 32 none]⟩
          ⟨"Same", [.var 32 none, .var 3 none]⟩).reversed root .empty).isOk)) = true := by
      decide +kernel
    obtain ⟨cat, hcat, h⟩ := okAnd_eq_true h
    obtain ⟨hap, hne⟩ := of_decide_eq_true h
    exact ⟨cat, hcat, entangled_declared hcat, hap, hdisagree hne⟩
  case inst =>
    have h : okAnd entangledInstance (fun cat => decide (
        (cat.resolve .default (pairQuery ⟨"P", [.var 31 none]⟩ ⟨"Q", [.var 31 none]⟩) root
          .empty).isOk ≠
        (cat.resolve .default (pairQuery ⟨"P", [.var 31 none]⟩ ⟨"Q", [.var 31 none]⟩).reversed root
          .empty).isOk)) = true := by
      decide +kernel
    obtain ⟨cat, hcat, h⟩ := okAnd_eq_true h
    exact ⟨cat, hcat, entangledInstance_declared hcat, hdisagree (of_decide_eq_true h)⟩

end Catalog

end InstanceSearch
