/-
  Dropping implied requirements or keeping them.

  A search may drop the requirements that others imply before it matches candidates.  This is meant to
  save work.  It does more than that, because three things look at the whole list.
    (1) Covering is greedy, so an implied requirement that comes first may take a capability that bars
        the one that implies it.
    (2) The cycle guard compares goals as texts, and two goals may differ in what is implied only.
    (3) Unification binds one of two variables to the other, and which one depends on what comes first.

  THE STATEMENT (`resolve_minimize`)
    Where (1) and (2) have nothing to act on (`Indifferent`), both ways find the same: the same instances
    in the same places, for types that come to the same up to a renaming; or both fail in the same way.
    Since (3) may go one way in one round and the other way in the next, types are compared as they read
    when the search is done.

  WITHOUT THESE (`minimizing_matters`)
    Each of them is needed.

  THE PROOF
    An induction on the levels that remain.  In one round, what is kept and the whole list are
    interchangeable (`interchangeable_minimize`), so the same candidates match, under bindings that are
    variants.  Every dependency is then asked for under variants: by induction both ways answer it in
    step under the bindings of the first, and to go over to the bindings of the second is
    `solve_variant`.
-/
import InstanceSearch.Proofs.Search.Implied
import InstanceSearch.Proofs.Search.Outcomes

namespace InstanceSearch

namespace Search

/-! ## The bond -/

/-- Bindings that are variants by some renaming that leaves `K` alone, and types that come to the same
    under later bindings. -/
def Bond.variants (frozen : VarSet) (K : VarId → Prop) : Bond frozen where
  substs s s' := ∃ π : Renaming, (∀ v, K v → π v = v) ∧ Subst.Variant frozen π s s'
  types s' t t' := (s'.apply t').anon = (s'.apply t).anon
  acyclic := fun ⟨_, _, h⟩ => ⟨h.left, h.right⟩
  opens := fun ⟨π, _, h⟩ t => (Bond.renaming frozen π).opens h t
  rendered := fun ⟨π, _, h⟩ t => ((Bond.renaming frozen π).rendered h t).2
  later hs hs₁ hext h := hs.anon_apply_later hs₁ hext h

/-- Two ways of answering, and the second one again under variants. -/
theorem Bond.Solved.trans {frozen : VarSet} {K : VarId → Prop} {π : Renaming}
    (hπ : ∀ v, K v → π v = v) {found found' found'' : Search.Solved}
    (h : (Bond.variants frozen K).Solved found found')
    (h' : (Bond.renaming frozen π).Solved found' found'') :
    (Bond.variants frozen K).Solved found found'' where
  substs := by
    obtain ⟨ρ, hρ, hvariant⟩ := h.substs
    refine ⟨ρ.trans π, fun v hv => ?_, hvariant.trans h'.substs⟩
    rw [Equiv.trans_apply, hρ v hv, hπ v hv]
  witness := by
    refine h.witness.trans ?_ h'.witness
    rintro t t' t'' ht ⟨_, ht'⟩
    -- what comes to the same under the bindings in the middle does so under their variant
    show (found''.subst.apply t'').anon = (found''.subst.apply t).anon
    rw [ht', h'.substs.apply t', h'.substs.apply t, Ty.anon_mapVars_congr π ht]

theorem Corresponds.eq {st st' : State} (h : Corresponds Eq st st') : st' = st := by
  obtain ⟨hnext, hstack⟩ := h
  have hsame : st'.stack = st.stack := by
    generalize st.stack = as, st'.stack = as' at hstack
    induction hstack with
    | nil => rfl
    | @cons a a' as as' ha _ ih => rw [ih, show a' = a by cases a; cases a'; simp_all]
  cases st
  cases st'
  simp_all

theorem corresponds_refl (st : State) : Corresponds Eq st st where
  next := rfl
  stack := List.forall₂_same.2 fun _ _ => ⟨rfl, rfl⟩

/-- Answers in step with others, and these with the same again. -/
theorem Parallel.trans {α β γ : Type} {U : String → String → Prop} {R : α → β → Prop} {R' : β → γ → Prop}
    {R'' : α → γ → Prop} {x : Answer α} {x' : Answer β} {x'' : Answer γ}
    (h : Parallel U SameFailure R x x') (h' : Parallel Eq SameFailure R' x' x'')
    (hR : ∀ a b c, R a b → R' b c → R'' a c) : Parallel U SameFailure R'' x x'' where
  outcome := by
    have hout := h.outcome
    have hout' := h'.outcome
    revert hout hout'
    generalize x.1 = o, x'.1 = o', x''.1 = o''
    rintro (hab | he) (hbc | he')
    · exact .ok (hR _ _ _ hab hbc)
    · exact .error (he.trans he')
  state := h'.state.eq ▸ h.state

/-! ## Goals in flight -/

/-- A call, with the requests that it is nested in, the innermost first. -/
structure NestedCall where
  request : Request
  state : State
  above : List Request

/-- `q.nestedCalls levels above r st` = the call for `r` in the state `st`, nested in the calls for `above`
    and with so many levels left, and all calls below it. -/
def nestedCalls (q : Search) : Nat → List Request → Request → State → List NestedCall
  | 0, above, r, st => [⟨r, st, above⟩]
  | levels + 1, above, r, st =>
    ⟨r, st, above⟩ ::
      (q.stepCalls (q.solve levels) r st).flatMap fun c => q.nestedCalls levels (r :: above) c.1 c.2

/-- All calls that are made to resolve a parameter. -/
def queryNestedCalls (q : Search) (p : Param) (context : Subst) : List NestedCall :=
  q.nestedCalls (q.config.maxDepth + 1) [] (queryRequest p context) (q.queryState p context)

/-- The texts of a goal in flight, with implied requirements dropped and with nothing dropped. -/
def InFlight (q : Search) (above : List Request) (g g' : String) : Prop :=
  ∃ r ∈ above, g = (q.minimizing true).goal r ∧ g' = (q.minimizing false).goal r

/-- Dropping implied requirements makes a goal neither equal to one that it is nested in, nor different. -/
def ToldApart (q : Search) (c : NestedCall) : Prop :=
  ∀ r ∈ c.above, ((q.minimizing true).goal r = (q.minimizing true).goal c.request ↔
    (q.minimizing false).goal r = (q.minimizing false).goal c.request)

instance (q : Search) (c : NestedCall) : Decidable (q.ToldApart c) :=
  inferInstanceAs (Decidable (∀ r ∈ c.above, ((q.minimizing true).goal r =
    (q.minimizing true).goal c.request ↔
      (q.minimizing false).goal r = (q.minimizing false).goal c.request)))

theorem ToldApart.separates {q : Search} {c : NestedCall} (h : q.ToldApart c) :
    Separates (q.InFlight c.above) ((q.minimizing true).goal c.request)
      ((q.minimizing false).goal c.request) := by
  rintro g g' ⟨r, hr, rfl, rfl⟩
  exact h r hr

/-! ## One round -/

/-- Nothing is dropped from what is asked for, or no requirement leaves a choice. -/
def Settled (q : Search) (r : Request) (n : VarId) : Prop :=
  q.catalog.minimize (r.constraints.map r.context.applyTo) = r.constraints.map r.context.applyTo ∨
    q.Decided (r.constraints.map r.context.applyTo) r.context n

instance (q : Search) (r : Request) (n : VarId) : Decidable (q.Settled r n) :=
  inferInstanceAs (Decidable (_ ∨ _))

section Round

variable {q : Search} (hd : q.catalog.Declared) (hap : q.catalog.Apart)
  (hq : ∀ c ∈ q.candidates.values, q.catalog.Offers c)
include hd hap hq

/-- **What is kept and the whole list match the same candidates**, under variants, and compare them in
    the same way. -/
theorem exists_matches {r : Request} {st : State}
    (h : Confined (fun v => ¬ q.catalog.Schematic v) q.catalog.nextVar r st)
    (hsettled : q.Settled r st.next) :
    ∃ F : Matched → Matched → Prop,
      (∀ e ∈ numbered q.candidates.values st.next, MatchTogether F
        (q.match? e.1 ((q.minimizing true).requirement r) r.context e.2)
        (q.match? e.1 ((q.minimizing false).requirement r) r.context e.2)) ∧
      (∀ m m', F m m' → Fits (Bond.variants q.frozen q.catalog.Schematic) m m') ∧
      ∀ m m' k k', F m m' → F k k' →
        ((m.patterns.zip k.patterns).all fun p => p.1.instanceOf p.2 q.frozen) =
          (m'.patterns.zip k'.patterns).all fun p => p.1.instanceOf p.2 q.frozen := by
  have hkept : (q.minimizing true).requirement r =
    q.catalog.minimize (r.constraints.map r.context.applyTo) := rfl
  have hwhole : (q.minimizing false).requirement r = r.constraints.map r.context.applyTo := rfl
  rw [hkept, hwhole]
  rcases hsettled with hnothing | hdecided
  · rw [hnothing]
    refine ⟨fun m m' => m' = m ∧ m.subst.Acyclic, fun e _ => ?_, ?_, ?_⟩
    · cases hm : q.match? e.1 (r.constraints.map r.context.applyTo) r.context e.2 with
      | none => exact Or.inl ⟨rfl, rfl⟩
      | some m =>
        have hgrow := (cover_sound h.acyclic (match?_ok hm).2.2).1
        exact Or.inr ⟨m, m, rfl, rfl, rfl, hgrow.acyclic⟩
    · rintro m _ ⟨rfl, hm⟩
      exact ⟨rfl, rfl, Equiv.refl _, fun _ _ => rfl, .refl hm⟩
    · rintro m _ k _ ⟨rfl, _⟩ ⟨rfl, _⟩
      rfl
  · have hsame := interchangeable_minimize hd hap hq h.next h.acyclic h.context h.constraints hdecided
    refine ⟨q.MatchedBoth _ _ r.context st.next, match?_same h.acyclic hsame, fun m m' hm => ?_,
      fun m m' k k' hm hk => specific_same h.acyclic hsame hm hk⟩
    have hclean : ∀ b, ∀ c ∈ (q.minimizing b).requirement r, ∀ v ∈ c.vars, ¬ q.catalog.Schematic v :=
      fun b => requirement_vars (q := q.minimizing b) h.context h.constraints
    obtain ⟨π, hπ, hfixed⟩ := hm.exists_clean_variant hd hap hq h.next h.acyclic h.context
      fun c hc => (List.mem_append.1 hc).elim (hclean true c) (hclean false c)
    exact ⟨hm.same.candidate, hm.same.params, π, hfixed, hπ⟩

/-- **Both ways answer every request in step**, if every goal is settled and told apart from those that it
    is nested in. -/
theorem solve_minimizing {levels : Nat} {above : List Request} {r : Request} {st : State}
    (h : Confined (fun v => ¬ q.catalog.Schematic v) q.catalog.nextVar r st)
    (hcalls : ∀ c ∈ (q.minimizing true).nestedCalls levels above r st,
      q.Settled c.request c.state.next ∧ q.ToldApart c) :
    Follows (Bond.variants q.frozen q.catalog.Schematic) (q.InFlight above)
      ((q.minimizing true).solve levels) ((q.minimizing false).solve levels) (r, st) := by
  induction levels generalizing above r st with
  | zero => exact fun s' st' _ hst => ⟨.error rfl, hst⟩
  | succ levels ih =>
    rintro s' st' ⟨π, hπ, hvariant⟩ hst
    rw [nestedCalls, List.forall_mem_cons] at hcalls
    obtain ⟨⟨hsettled, htold⟩, hbelow⟩ := hcalls
    obtain ⟨F, hmatch, hfits, hspecific⟩ := exists_matches hd hap hq h hsettled
    have hgrows : q.GrowsAt (fun _ => True) 0 ((q.minimizing false).solve levels) :=
      solve_grows (q := q.minimizing false) (roomy_true _ 0) levels
    have hroom : (q.minimizing true).Roomy (fun v => ¬ q.catalog.Schematic v) q.catalog.nextVar :=
      roomy_apart (q := q.minimizing true) hd hap hq
    have hfollows : ∀ c ∈ (q.minimizing true).stepCalls ((q.minimizing true).solve levels) r st,
        Follows (Bond.variants q.frozen q.catalog.Schematic) (q.InFlight (r :: above))
          ((q.minimizing true).solve levels) ((q.minimizing false).solve levels) c := by
      intro c hc
      have hconfined := confined_of_mem_stepCalls hroom (solve_next_le _ levels)
        (solve_grows hroom levels) h hc
      exact ih hconfined fun d hdm => hbelow d (List.mem_flatMap.2 ⟨c, hc, hdm⟩)
    have hround : Parallel (q.InFlight above) SameFailure
        (Bond.variants q.frozen q.catalog.Schematic).Solved
        ((q.minimizing true).step ((q.minimizing true).solve levels) r st)
        ((q.minimizing false).step ((q.minimizing false).solve levels) r st') := by
      refine step_together rfl hst (hst.reentry htold.separates) hmatch
        (fun m m' hm => (hfits m m' hm).candidate) hspecific ?_ hfollows
      -- the dependencies run with one more goal in flight, which is gone when they are done
      intro m m' st st' hm hst hfollows
      have hmore : ∀ g g', q.InFlight above g g' → q.InFlight (r :: above) g g' :=
        fun g g' ⟨a, ha, hg⟩ => ⟨a, List.mem_cons_of_mem r ha, hg⟩
      have hpar := survive_together hgrows ⟨r, List.mem_cons_self, rfl, rfl⟩ (hfits m m' hm)
        (hst.mono hmore) hfollows
      exact hpar.of_stack (persistent_stack.survive_state (solve_stack _ levels) _ m st)
        (persistent_stack.survive_state (solve_stack _ levels) _ m' st') hst
    have hunmoved : (q.minimizing false).catalog.Unmoved π := hap.unmoved hπ
    have hdistinct : ∀ c ∈ (q.minimizing false).calls (levels + 1) 0 r st',
        (q.minimizing false).Distinct Eq c.request := fun c _ => ⟨rfl, fun g g' hg => hg ▸ Iff.rfl⟩
    have hagain := solve_variant hunmoved hdistinct s' st' hvariant (corresponds_refl st')
    exact hround.trans hagain fun _ _ _ hx hy => hx.trans hπ hy

end Round

/-! ## The query -/

/-- When it makes no difference to a query whether implied requirements are dropped. -/
structure Indifferent (q : Search) (p : Param) (context : Subst) : Prop where
  /-- wherever something is dropped, no constraint unifies with two different capabilities that a
      candidate offers -/
  settled : ∀ c ∈ (q.minimizing true).queryNestedCalls p context, q.Settled c.request c.state.next
  /-- a goal and one that it is nested in have one text if something is dropped exactly if they have
      one text if nothing is -/
  told : ∀ c ∈ (q.minimizing true).queryNestedCalls p context, q.ToldApart c

instance (q : Search) (p : Param) (context : Subst) : Decidable (q.Indifferent p context) :=
  decidable_of_iff (∀ c ∈ (q.minimizing true).queryNestedCalls p context,
      q.Settled c.request c.state.next ∧ q.ToldApart c)
    ⟨fun h => ⟨fun c hc => (h c hc).1, fun c hc => (h c hc).2⟩, fun h c hc => ⟨h.settled c hc, h.told c hc⟩⟩

/-- Two resolutions of a query, the second one with nothing dropped, read the same when their searches
    are done: the same instances in the same places, for types that come to the same, and the same is
    learned, all up to the renaming `π`. -/
structure ReadSame (q : Search) (p : Param) (context : Subst) (π : Renaming) (found found' : Solved)
    (r r' : Resolution) : Prop where
  reports : (q.minimizing true).Reports p context found r
  reports' : (q.minimizing false).Reports p context found' r'
  frozen : ∀ v ∈ q.frozen, π v = v
  witness : Witness.Like
    (fun t t' => (found'.subst.apply t').anon = ((found.subst.apply t).mapVars π).anon) r.witness
    r'.witness
  subst : ∀ v ∈ queryVars p context,
    (r'.subst.apply (.var v none)).anon = ((r.subst.apply (.var v none)).mapVars π).anon

/-- Both ways come to the same for a query that is indifferent. -/
theorem resolveWith_minimizing {q : Search} (hd : q.catalog.Declared) (hap : q.catalog.Apart)
    (hq : ∀ c ∈ q.candidates.values, q.catalog.Offers c) {p : Param} {context : Subst}
    (hs : context.Acyclic)
    (hclean : ∀ v ∈ p.constraints.flatMap Capability.vars ++ context.vars, ¬ q.catalog.Schematic v)
    (h : q.Indifferent p context) :
    Together SameFailure (fun r r' => ∃ π found found', q.ReadSame p context π found found' r r')
      ((q.minimizing true).resolveWith p context) ((q.minimizing false).resolveWith p context) := by
  have hconfined : Confined (fun v => ¬ q.catalog.Schematic v) q.catalog.nextVar
      (queryRequest p context) ((q.minimizing true).queryState p context) := by
    refine ⟨le_reserve _ _, hs, fun v hv => hclean v (List.mem_append.2 (Or.inr hv)), ?_⟩
    exact fun c hc v hv => hclean v (List.mem_append.2 (Or.inl (List.mem_flatMap.2 ⟨c, hc, hv⟩)))
  have hfollows : Follows (Bond.variants q.frozen q.catalog.Schematic) (q.InFlight [])
      ((q.minimizing true).solve (q.config.maxDepth + 1))
      ((q.minimizing false).solve (q.config.maxDepth + 1))
      (queryRequest p context, (q.minimizing true).queryState p context) :=
    solve_minimizing hd hap hq hconfined fun c hc => ⟨h.settled c hc, h.told c hc⟩
  have hout := hfollows context ((q.minimizing false).queryState p context)
    ⟨Equiv.refl _, fun _ _ => rfl, .refl hs⟩ ⟨rfl, .nil⟩
  refine (resolveWith_together hs hout.outcome).imp ?_
  rintro r r' ⟨found, found', ⟨⟨π, _, hvariant⟩, hlike⟩, hr, hr'⟩
  refine ⟨π, found, found', hr, hr', hvariant.frozen, ?_, fun v hv => ?_⟩
  · rw [hr.witness, hr'.witness]
    exact hlike.mono fun t t' ht => ht.trans (hvariant.apply t)
  · rw [hr.subst v hv, hr'.subst v hv]
    exact hvariant.apply _

end Search

/-! ## The theorem -/

/-- The same settings, where implied requirements are dropped or kept. -/
def Config.minimizing (config : Config) (b : Bool) : Config := { config with minimize := b }

namespace Catalog

theorem searchAt_minimizing (cat : Catalog) (config : Config) (b : Bool) (scope : ScopeId) :
    cat.searchAt (config.minimizing b) scope =
      (cat.searchAt config scope).map fun q => q.minimizing b := by
  unfold searchAt
  cases cat.visible .byVisibility scope with
  | error e => rfl
  | ok candidates =>
    cases cat.frozenAt scope with
    | error e => rfl
    | ok frozen => rfl

/-- **Whether implied requirements are dropped makes no difference** to a query that is indifferent.  In
    a registry that keeps the parameters of its concepts apart, also from the query, both ways find the
    same, as it reads when the search is done, or both fail for the same reason. -/
theorem resolve_minimize {cat : Catalog} (hd : cat.Declared) (hap : cat.Apart) {config : Config}
    {p : Param} {scope : ScopeId} {context : Subst} (hs : context.Acyclic)
    (hclean : ∀ v ∈ p.constraints.flatMap Capability.vars ++ context.vars, ¬ cat.Schematic v)
    (hfree : ∀ q, cat.searchAt config scope = .ok q → q.Indifferent p context) :
    Together Failure.Same (fun r r' => ∃ q, cat.searchAt config scope = .ok q ∧
        ∃ π found found', q.ReadSame p context π found found' r r')
      (cat.resolve (config.minimizing true) p scope context)
      (cat.resolve (config.minimizing false) p scope context) := by
  apply resolve_together
  rw [searchAt_minimizing, searchAt_minimizing]
  cases hq : cat.searchAt config scope with
  | error e => exact Or.inl ⟨e, rfl, rfl⟩
  | ok q =>
    obtain ⟨hcatalog, _, hoffers⟩ := searchAt_ok hq
    subst hcatalog
    have hout := Search.resolveWith_minimizing hd hap hoffers hs hclean (hfree q hq)
    exact Or.inr ⟨_, _, rfl, rfl, hout.imp fun r r' hsame => ⟨q, rfl, hsame⟩⟩

end Catalog

/-! ## Where it makes no difference, and where it does -/

namespace Catalog

/-- Every `Ord` is an `Eq`; `Uneven` provides `Eq` for `Int`, and `Ord` for `Bool` only.  Every `Ring` is a
    `Num`; `RingAgain` provides `Ring` for anything for which it is provided already, and `RingInt` for
    `Int`.  `Into<A, B>` is a `From<B, A>`; `Refl` provides it for a type and itself, and `Chain` needs it
    twice in a row, for three types that it leaves open. -/
def implying : Except DeclError Catalog := do
  let one := fun (name : String) (n : VarId) (parents : List Capability) =>
    (⟨name, [⟨n, "T", .ordinary⟩], parents, []⟩ : ConceptDecl)
  let inst := fun (name : String) (params : List Param) (provides : List Capability) =>
    (⟨name, params, provides, false, false, none, []⟩ : InstanceDecl)
  let int := Ty.con "Int" []
  let x : Ty := .var 20 (some "X")
  let y : Ty := .var 21 (some "Y")
  let z : Ty := .var 22 (some "Z")
  let cat ← Catalog.empty.declareConcept (one "Eq" 0 [])
  let cat ← cat.declareConcept (one "Ord" 2 [⟨"Eq", [.var 2 (some "T")]⟩])
  let cat ← cat.declareConcept (one "Num" 4 [])
  let cat ← cat.declareConcept (one "Ring" 6 [⟨"Num", [.var 6 (some "T")]⟩])
  let cat ← cat.declareConcept ⟨"From", [⟨8, "A", .ordinary⟩, ⟨9, "B", .ordinary⟩], [], []⟩
  let cat ← cat.declareConcept ⟨"Into", [⟨11, "A", .ordinary⟩, ⟨12, "B", .ordinary⟩],
    [⟨"From", [.var 12 (some "B"), .var 11 (some "A")]⟩], []⟩
  let cat ← cat.declareConcept ⟨"Root", [], [], []⟩
  let (_, cat) ← cat.declareInstance Catalog.root
    (inst "Uneven" [] [⟨"Eq", [int]⟩, ⟨"Ord", [Ty.con "Bool" []]⟩])
  let (_, cat) ← cat.declareInstance Catalog.root (inst "RingAgain"
    [⟨20, "X", .ordinary⟩, ⟨21, "W", .witness [⟨"Ring", [x]⟩]⟩] [⟨"Ring", [x]⟩])
  let (_, cat) ← cat.declareInstance Catalog.root (inst "RingInt" [] [⟨"Ring", [int]⟩])
  let (_, cat) ← cat.declareInstance Catalog.root
    (inst "Refl" [⟨20, "X", .ordinary⟩] [⟨"Into", [x, x]⟩])
  let (_, cat) ← cat.declareInstance Catalog.root (inst "Chain"
    [⟨20, "X", .ordinary⟩, ⟨21, "Y", .ordinary⟩, ⟨22, "Z", .ordinary⟩,
      ⟨23, "V", .witness [⟨"From", [y, x]⟩, ⟨"Into", [x, y]⟩]⟩,
      ⟨24, "W", .witness [⟨"From", [z, y]⟩, ⟨"Into", [y, z]⟩]⟩] [⟨"Root", []⟩])
  return cat

theorem implying_declared {cat : Catalog} (h : implying = .ok cat) : cat.Declared := by
  obtain ⟨_, h₁, h⟩ := bind_eq_ok h
  obtain ⟨_, h₂, h⟩ := bind_eq_ok h
  obtain ⟨_, h₃, h⟩ := bind_eq_ok h
  obtain ⟨_, h₄, h⟩ := bind_eq_ok h
  obtain ⟨_, h₅, h⟩ := bind_eq_ok h
  obtain ⟨_, h₆, h⟩ := bind_eq_ok h
  obtain ⟨_, h₇, h⟩ := bind_eq_ok h
  obtain ⟨⟨_, _⟩, i₁, h⟩ := bind_eq_ok h
  obtain ⟨⟨_, _⟩, i₂, h⟩ := bind_eq_ok h
  obtain ⟨⟨_, _⟩, i₃, h⟩ := bind_eq_ok h
  obtain ⟨⟨_, _⟩, i₄, h⟩ := bind_eq_ok h
  obtain ⟨⟨_, _⟩, i₅, h⟩ := bind_eq_ok h
  injection h with h
  have hfirst := (((Declared.empty.concept h₁).concept h₂).concept h₃).concept h₄
  have hconcepts := ((hfirst.concept h₅).concept h₆).concept h₇
  exact h ▸ ((((hconcepts.instance i₁).instance i₂).instance i₃).instance i₄).instance i₅

/-- The query for `Root`. -/
def rootQuery : Param := ⟨30, "W", .witness [⟨"Root", []⟩]⟩

/-- Both ways answer `Chain`, for one type three times.  With implied requirements dropped, the witness
    that was found first still shows another variable for this type, which was bound later on; with
    nothing dropped it does not.  They read the same all the same. -/
theorem resolve_minimize_chain : ∃ (cat : Catalog) (q : Search) (r r' : Resolution),
    cat.resolve (Config.default.minimizing true) rootQuery root .empty = .ok r ∧
    cat.resolve (Config.default.minimizing false) rootQuery root .empty = .ok r' ∧
    r.witness.typeVars = [some 36, some 36, some 36, some 35, some 36] ∧
    r'.witness.typeVars = [some 34, some 34, some 34, some 34, some 34] ∧
    ∃ π found found', q.ReadSame rootQuery .empty π found found' r r' := by
  have h : okAnd implying (fun cat => okAnd (cat.searchAt .default root) fun q =>
      okAnd (cat.resolve (Config.default.minimizing true) rootQuery root .empty) fun r =>
        okAnd (cat.resolve (Config.default.minimizing false) rootQuery root .empty) fun r' =>
          decide (r.witness.typeVars = [some 36, some 36, some 36, some 35, some 36] ∧
            r'.witness.typeVars = [some 34, some 34, some 34, some 34, some 34] ∧ cat.Apart ∧
            (∀ v ∈ rootQuery.constraints.flatMap Capability.vars ++ Subst.vars .empty,
              ¬ cat.Schematic v) ∧
            q.Indifferent rootQuery .empty)) = true := by decide +kernel
  obtain ⟨cat, hcat, h⟩ := okAnd_eq_true h
  obtain ⟨q, hq, h⟩ := okAnd_eq_true h
  obtain ⟨r, hr, h⟩ := okAnd_eq_true h
  obtain ⟨r', hr', h⟩ := okAnd_eq_true h
  obtain ⟨hvars, hvars', hap, hclean, hfree⟩ := of_decide_eq_true h
  have hindifferent : ∀ q', cat.searchAt .default root = .ok q' →
      q'.Indifferent rootQuery .empty := by
    intro q' hq'
    rw [hq] at hq'
    injection hq' with hq'
    exact hq' ▸ hfree
  have hout := resolve_minimize (implying_declared hcat) hap Subst.acyclic_empty hclean hindifferent
  rw [hr, hr'] at hout
  cases hout with
  | ok h =>
    obtain ⟨q', _, hsame⟩ := h
    exact ⟨cat, q', r, r', hr, hr', hvars, hvars', hsame⟩

/-- `B<U, V>` is an `A<U>`, where `V` is `?3`: so `B<?3, Int>` inherits `A<Int>`.  `BBool` provides it for
    `Bool` and `Int`. -/
def capturing : Except DeclError Catalog := do
  let int := Ty.con "Int" []
  let cat ← Catalog.empty.declareConcept ⟨"A", [⟨0, "T", .ordinary⟩], [], []⟩
  let cat ← cat.declareConcept
    ⟨"B", [⟨2, "U", .ordinary⟩, ⟨3, "V", .ordinary⟩], [⟨"A", [.var 2 (some "U")]⟩], []⟩
  let cat ← cat.declareConcept ⟨"Root", [], [], []⟩
  let (_, cat) ← cat.declareInstance Catalog.root
    ⟨"BBool", [], [⟨"B", [Ty.con "Bool" [], int]⟩], false, false, none, []⟩
  return cat

theorem capturing_declared {cat : Catalog} (h : capturing = .ok cat) : cat.Declared := by
  obtain ⟨_, h₁, h⟩ := bind_eq_ok h
  obtain ⟨_, h₂, h⟩ := bind_eq_ok h
  obtain ⟨_, h₃, h⟩ := bind_eq_ok h
  obtain ⟨⟨_, _⟩, i₁, h⟩ := bind_eq_ok h
  injection h with h
  exact h ▸ (((Declared.empty.concept h₁).concept h₂).concept h₃).instance i₁

/-- `A<Int>` and `B<?3, Int>`. -/
def captured : List Capability :=
  [⟨"A", [Ty.con "Int" []]⟩, ⟨"B", [.var 3 none, Ty.con "Int" []]⟩]

/-- The same with an instance that needs the two capabilities. -/
def capturingInstance : Except DeclError Catalog := do
  let cat ← capturing
  let (_, cat) ← cat.declareInstance Catalog.root
    ⟨"Leak", [⟨20, "W", .witness captured⟩], [⟨"Root", []⟩], false, false, none, []⟩
  return cat

theorem capturingInstance_declared {cat : Catalog} (h : capturingInstance = .ok cat) :
    cat.Declared := by
  obtain ⟨_, h₁, h⟩ := bind_eq_ok h
  obtain ⟨⟨_, _⟩, i₁, h⟩ := bind_eq_ok h
  injection h with h
  exact h ▸ (capturing_declared h₁).instance i₁

/-- Dropping and keeping implied requirements both fail, or both find the same witness up to a
    renaming. -/
def SameEitherWay (cat : Catalog) (p : Param) : Prop :=
  Together (fun _ _ => True) (fun r r' => ∃ π : Renaming,
      Witness.Like (fun t t' => t'.anon = (t.mapVars π).anon) r.witness r'.witness)
    (cat.resolve (Config.default.minimizing true) p root .empty)
    (cat.resolve (Config.default.minimizing false) p root .empty)

theorem SameEitherWay.isOk {cat : Catalog} {p : Param} (h : cat.SameEitherWay p) :
    (cat.resolve (Config.default.minimizing true) p root .empty).isOk =
      (cat.resolve (Config.default.minimizing false) p root .empty).isOk := Together.isOk h

/-- The two witnesses for `Root` are not the same up to a renaming: it would have to take `?35` and `?36`
    both to `?34`. -/
theorem chain_not_renamed {w w' : Witness} {π : Renaming}
    (h : Witness.Like (fun t t' => t'.anon = (t.mapVars π).anon) w w')
    (hw : w.typeVars = [some 36, some 36, some 36, some 35, some 36])
    (hw' : w'.typeVars = [some 34, some 34, some 34, some 34, some 34]) : False := by
  have hvars := h.typeVars
  rw [hw, hw'] at hvars
  simp only [List.map_cons, Option.map_some, List.cons.injEq, Option.some.injEq] at hvars
  obtain ⟨h36, _, _, h35, _⟩ := hvars
  have hsame : (35 : VarId) = 36 := π.injective (h35.symm.trans h36)
  exact absurd hsame (by decide)

/-- **Dropping implied requirements matters** in five ways.  A requirement that is implied may take a
    match that bars the one that implies it.  A goal in flight is only recognized together with what is
    implied.  Of two variables that come to the same, either may be left, and another one in the next
    round.  A variable that a concept is written with does not inherit what another one does, be it one of
    the query or one of an instance. -/
theorem minimizing_matters :
    (∃ cat, implying = .ok cat ∧ cat.Declared ∧ cat.Apart ∧
      ¬ cat.SameEitherWay ⟨30, "W", .witness [⟨"Eq", [.var 31 none]⟩, ⟨"Ord", [.var 31 none]⟩]⟩ ∧
      ¬ cat.SameEitherWay
        ⟨30, "W", .witness [⟨"Num", [Ty.con "Int" []]⟩, ⟨"Ring", [Ty.con "Int" []]⟩]⟩ ∧
      ¬ cat.SameEitherWay rootQuery) ∧
    (∃ cat, capturing = .ok cat ∧ cat.Declared ∧ cat.Apart ∧
      ¬ cat.SameEitherWay ⟨30, "W", .witness captured⟩) ∧
    ∃ cat, capturingInstance = .ok cat ∧ cat.Declared ∧ ¬ cat.SameEitherWay rootQuery := by
  have hdiffers : ∀ {cat : Catalog} {p : Param},
      (cat.resolve (Config.default.minimizing true) p root .empty).isOk ≠
        (cat.resolve (Config.default.minimizing false) p root .empty).isOk →
      ¬ cat.SameEitherWay p := fun hne h => hne h.isOk
  refine ⟨?implying, ?query, ?inst⟩
  case implying =>
    have h : okAnd implying (fun cat =>
        okAnd (cat.resolve (Config.default.minimizing true) rootQuery root .empty) fun r =>
          okAnd (cat.resolve (Config.default.minimizing false) rootQuery root .empty) fun r' =>
            decide (cat.Apart ∧
              r.witness.typeVars = [some 36, some 36, some 36, some 35, some 36] ∧
              r'.witness.typeVars = [some 34, some 34, some 34, some 34, some 34] ∧
              ∀ cs ∈ ([[⟨"Eq", [.var 31 none]⟩, ⟨"Ord", [.var 31 none]⟩],
                  [⟨"Num", [Ty.con "Int" []]⟩, ⟨"Ring", [Ty.con "Int" []]⟩]] : List (List Capability)),
                (cat.resolve (Config.default.minimizing true) ⟨30, "W", .witness cs⟩ root
                  .empty).isOk ≠
                (cat.resolve (Config.default.minimizing false) ⟨30, "W", .witness cs⟩ root
                  .empty).isOk)) = true := by decide +kernel
    obtain ⟨cat, hcat, h⟩ := okAnd_eq_true h
    obtain ⟨r, hr, h⟩ := okAnd_eq_true h
    obtain ⟨r', hr', h⟩ := okAnd_eq_true h
    obtain ⟨hap, hw, hw', hne⟩ := of_decide_eq_true h
    refine ⟨cat, hcat, implying_declared hcat, hap, hdiffers (hne _ (by simp)),
      hdiffers (hne _ (by simp)), fun h => ?_⟩
    unfold SameEitherWay at h
    rw [hr, hr'] at h
    cases h with
    | ok h =>
      obtain ⟨π, hlike⟩ := h
      exact chain_not_renamed hlike hw hw'
  case query =>
    have h : okAnd capturing (fun cat => decide (cat.Apart ∧
        (cat.resolve (Config.default.minimizing true) ⟨30, "W", .witness captured⟩ root .empty).isOk ≠
        (cat.resolve (Config.default.minimizing false) ⟨30, "W", .witness captured⟩ root
          .empty).isOk)) = true := by decide +kernel
    obtain ⟨cat, hcat, h⟩ := okAnd_eq_true h
    obtain ⟨hap, hne⟩ := of_decide_eq_true h
    exact ⟨cat, hcat, capturing_declared hcat, hap, hdiffers hne⟩
  case inst =>
    have h : okAnd capturingInstance (fun cat => decide (
        (cat.resolve (Config.default.minimizing true) rootQuery root .empty).isOk ≠
        (cat.resolve (Config.default.minimizing false) rootQuery root .empty).isOk)) = true := by
      decide +kernel
    obtain ⟨cat, hcat, h⟩ := okAnd_eq_true h
    exact ⟨cat, hcat, capturingInstance_declared hcat, hdiffers (of_decide_eq_true h)⟩

end Catalog

end InstanceSearch
