/-
  Outcomes that go together.

  Two queries go in step below the surface; this module carries that up to what a caller sees.

    * A match that two lists of requirements share has bindings that are variants.  The renaming leaves the
      concepts alone where they are kept apart (`exists_clean_variant`).
    * What a resolution reports is what the search found, on the variables of the query (`Reports`).
    * So the outcomes of two queries go together if what is found does (`resolveWith_together`), also as
      seen from a scope (`resolve_together`).
-/
import InstanceSearch.Proofs.Search.Decided
import InstanceSearch.Proofs.Search.Finality
import InstanceSearch.Proofs.Search.Learning
import InstanceSearch.Proofs.Search.Variants

namespace InstanceSearch

/-! ## The types in witnesses of the same shape -/

mutual
/-- The type arguments correspond, one by one. -/
theorem Witness.Like.typeArgs {T : Ty → Ty → Prop} :
    ∀ {w w' : Witness}, Witness.Like T w w' → List.Forall₂ T w.typeArgs w'.typeArgs
  | _, _, .ambient => .nil
  | _, _, .apply h => Argument.LikeAll.typeArgs h

theorem Argument.LikeAll.typeArgs {T : Ty → Ty → Prop} : ∀ {as as' : List Argument},
    Argument.LikeAll T as as' →
      List.Forall₂ T (Argument.typeArgsAll as) (Argument.typeArgsAll as')
  | _, _, .nil => .nil
  | _, _, .type h more => .cons h (Argument.LikeAll.typeArgs more)
  | _, _, .witness h more =>
    List.rel_append (Witness.Like.typeArgs h) (Argument.LikeAll.typeArgs more)
end

/-- The type arguments that are variables, each with its place. -/
def Witness.typeVars (w : Witness) : List (Option VarId) := w.typeArgs.map Ty.asVar?

/-- Witnesses that a renaming takes to each other have these variables renamed. -/
theorem Witness.Like.typeVars {π : Renaming} {w w' : Witness}
    (h : Witness.Like (fun t t' => t'.anon = (t.mapVars π).anon) w w') :
    w'.typeVars = w.typeVars.map (Option.map π) := by
  have hargs := h.typeArgs
  unfold Witness.typeVars
  generalize w.typeArgs = ts, w'.typeArgs = ts' at hargs
  induction hargs with
  | nil => rfl
  | cons ht _ ih =>
    simp only [List.map_cons, ih, Ty.asVar?_congr ht, Ty.asVar?_mapVars]

/-! ## Renamings that leave the concepts alone -/

/-- A renaming that fixes the parameters of the concepts moves nothing about them. -/
theorem Catalog.Apart.unmoved {cat : Catalog} (hap : cat.Apart) {π : Renaming}
    (h : ∀ v, cat.Schematic v → π v = v) : cat.Unmoved π := by
  intro d hd v hv
  apply h
  have hparam : v ∈ d.params.map Param.id := by
    rcases List.mem_append.1 hv with hv | hv
    · exact hv
    · obtain ⟨p, hp, hv⟩ := List.mem_flatMap.1 hv
      exact hap.concepts d hd p hp v hv
  obtain ⟨p, hp, rfl⟩ := List.mem_map.1 hparam
  exact ⟨d, hd, p, hp, rfl⟩

namespace Search

/-- The bindings of two matches of one candidate are variants, by a renaming that leaves the concepts
    alone. -/
theorem MatchedBoth.exists_clean_variant {q : Search} (hd : q.catalog.Declared) (hap : q.catalog.Apart)
    (hq : ∀ c ∈ q.candidates.values, q.catalog.Offers c) {required required' : List Capability}
    {context : Subst} {n : VarId} (hn : q.catalog.nextVar ≤ n) (hs : context.Acyclic)
    (hsK : ∀ v ∈ context.vars, ¬ q.catalog.Schematic v)
    (hrK : ∀ c ∈ required ++ required', ∀ v ∈ c.vars, ¬ q.catalog.Schematic v) {m m' : Matched}
    (h : q.MatchedBoth required required' context n m m') :
    ∃ π, Subst.Variant q.frozen π m.subst m'.subst ∧ ∀ v, q.catalog.Schematic v → π v = v := by
  obtain ⟨e, he, hm, hm'⟩ := h.matched
  obtain ⟨hmem, hle⟩ := mem_numbered he
  have hclean : ∀ rs, (∀ c ∈ rs, ∀ v ∈ c.vars, ¬ q.catalog.Schematic v) → ∀ m,
      q.match? e.1 rs context e.2 = some m → ∀ v ∈ m.subst.vars, ¬ q.catalog.Schematic v := by
    intro rs hrs m hm
    have hcover := (match?_ok hm).2.2
    have hgrow := (cover_ok hs hsK ((roomy_apart hd hap hq).offered e.1 hmem e.2
      (Nat.le_trans hn hle)) hrs hcover).1
    exact hgrow.forall_vars hsK
  obtain ⟨π, hπ, hfixed⟩ := h.same.exists_variant
  refine ⟨π, hπ, fun v hv => hfixed v (fun hm₁ => ?_) fun hm₁ => ?_⟩
  · exact hclean required (fun c hc => hrK c (List.mem_append.2 (Or.inl hc))) m hm v hm₁ hv
  · exact hclean required' (fun c hc => hrK c (List.mem_append.2 (Or.inr hc))) m' hm' v hm₁ hv

/-! ## The query -/

/-- What the search finds for a query. -/
def Finds (q : Search) (p : Param) (context : Subst) (found : Solved) : Prop :=
  (q.solve (q.config.maxDepth + 1) (queryRequest p context) (q.queryState p context)).1 = .ok found

/-- What a resolution hands out of what was found: the witness, and what was found for the variables of
    the query. -/
structure Reports (q : Search) (p : Param) (context : Subst) (found : Solved) (r : Resolution) : Prop where
  finds : q.Finds p context found
  witness : r.witness = found.witness
  subst : ∀ v ∈ queryVars p context, ∀ n, r.subst.apply (.var v n) = found.subst.apply (.var v n)

/-- A resolution is what the search answers to the query. -/
theorem resolveWith_eq (q : Search) (p : Param) (context : Subst) : q.resolveWith p context =
    (q.solve (q.config.maxDepth + 1) (queryRequest p context) (q.queryState p context)).1.map
      fun found => ⟨found.witness, q.learn found.subst (queryVars p context) context⟩ := by
  unfold resolveWith queryRequest queryState
  cases (q.solve (q.config.maxDepth + 1) ⟨p.name, p.constraints, context⟩ ⟨q.seed p context, []⟩).1 <;>
    rfl

/-- On the variables of the query, what is learned is what was found. -/
theorem reports_learned {q : Search} {p : Param} {context : Subst} (hs : context.Acyclic)
    {found : Solved} (h : q.Finds p context found) : q.Reports p context found
      ⟨found.witness, q.learn found.subst (queryVars p context) context⟩ where
  finds := h
  witness := rfl
  subst := by
    have hgrow : Subst.Grows q.frozen (fun _ => True) context found.subst :=
      solve_grows (roomy_true q 0) _ (queryRequest p context) (q.queryState p context) found
        (Nat.zero_le _) hs (fun _ _ => trivial) (fun _ _ _ _ => trivial) h
    exact learn_agrees hgrow.acyclic hgrow.isExtension (free_of_mem_queryVars hs) hs
      fun v hv hfree => hgrow.frozen_free hv hfree

/-- **Two queries whose searches go in step** have outcomes that go together. -/
theorem resolveWith_together {q q' : Search} {p p' : Param} {context : Subst} (hs : context.Acyclic)
    {W : Solved → Solved → Prop}
    (h : Together SameFailure W
      (q.solve (q.config.maxDepth + 1) (queryRequest p context) (q.queryState p context)).1
      (q'.solve (q'.config.maxDepth + 1) (queryRequest p' context) (q'.queryState p' context)).1) :
    Together SameFailure (fun r r' => ∃ found found', W found found' ∧ q.Reports p context found r ∧
        q'.Reports p' context found' r')
      (q.resolveWith p context) (q'.resolveWith p' context) := by
  rw [resolveWith_eq, resolveWith_eq]
  cases hx : (q.solve (q.config.maxDepth + 1) (queryRequest p context) (q.queryState p context)).1 <;>
    cases hx' : (q'.solve (q'.config.maxDepth + 1) (queryRequest p' context)
      (q'.queryState p' context)).1 <;> rw [hx, hx'] at h <;> cases h
  · rename_i he
    exact .error he
  · rename_i hW
    exact .ok ⟨_, _, hW, reports_learned hs hx, reports_learned hs hx'⟩

end Search

/-! ## From a scope -/

/-- Failures for the same reason: those of a search are of one kind, and agree in everything but the goals
    that they speak of. -/
inductive Failure.Same : Failure → Failure → Prop where
  | search {e e' : SearchError} (tag : e.tag = e'.tag) (bare : e.bare = e'.bare) :
    Failure.Same (.search e) (.search e')
  | declaration (e : DeclError) : Failure.Same (.declaration e) (.declaration e)

namespace Catalog

/-- Outcomes as seen from a scope go together if those of the search there do. -/
theorem resolve_together {cat cat' : Catalog} {config config' : Config} {p p' : Param} {scope : ScopeId}
    {context context' : Subst} {R : Resolution → Resolution → Prop}
    (h : (∃ e, cat.searchAt config scope = .error e ∧ cat'.searchAt config' scope = .error e) ∨
      ∃ q q', cat.searchAt config scope = .ok q ∧ cat'.searchAt config' scope = .ok q' ∧
        Together Search.SameFailure R (q.resolveWith p context) (q'.resolveWith p' context')) :
    Together Failure.Same R (cat.resolve config p scope context)
      (cat'.resolve config' p' scope context') := by
  unfold resolve
  rcases h with ⟨e, he, he'⟩ | ⟨q, q', hq, hq', hout⟩
  · rw [he, he']
    exact .error (.declaration e)
  · rw [hq, hq']
    dsimp only
    revert hout
    generalize q.resolveWith p context = x, q'.resolveWith p' context' = x'
    rintro (hr | he)
    · exact .ok hr
    · exact .error (.search (SearchError.tag_eq_of_bare he) he)

end Catalog

end InstanceSearch
