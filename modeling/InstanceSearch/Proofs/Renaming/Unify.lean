/-
  Unification does not see which variables it works on.

  THE STATEMENT
    Relabelling both sides of every equation, and the substitution, relabels the outcome of `solve`: the
    bindings, and the cause of a failure (`solve_relabel`).  A walk compares variables with each other
    and with the frozen ones; so the frozen set has to be renamed too, which is the assumption
    `π v ∈ frozen' ↔ v ∈ frozen`.  Where `π` fixes the frozen variables the two sets are one
    (`mem_iff_of_fixed`).

  MATCHING is unification with more variables frozen, those of the more specific side.  They are renamed
  with it, and the answer has no variables: `instanceOf_mapVars` is an invariance.
-/
import InstanceSearch.Proofs.Renaming.Terms
import InstanceSearch.Unify.Matching

namespace InstanceSearch

variable (π : Renaming)

/-- A variable stands in a list exactly if its new name stands in the renamed list. -/
theorem mem_map_renaming {v : VarId} {vs : List VarId} : π v ∈ vs.map π ↔ v ∈ vs := by
  constructor
  · intro h
    obtain ⟨w, hw, he⟩ := List.mem_map.1 h
    exact π.injective he ▸ hw
  · exact fun h => List.mem_map_of_mem h

/-! ## Errors -/

variable (φ : Option String → Option String)

/-- The types in the cause of a failure, relabelled. -/
def UnifyError.relabel : UnifyError → UnifyError
  | .mismatch expected found => .mismatch (expected.relabel π φ) (found.relabel π φ)
  | .arity name expected found => .arity name expected found
  | .conceptMismatch expected found => .conceptMismatch (expected.relabel π φ) (found.relabel π φ)
  | .occurs var containing => .occurs (var.relabel π φ) (containing.relabel π φ)
  | .capture var attempted => .capture (var.relabel π φ) (attempted.relabel π φ)
  | .conflict c => .conflict ⟨π c.var, c.existing.relabel π φ, c.attempted.relabel π φ⟩

/-- A renaming that fixes all of a set maps nothing else into it. -/
theorem VarSet.mem_iff_of_fixed {π : Renaming} {s : VarSet} (h : ∀ v ∈ s, π v = v) (v : VarId) :
    π v ∈ s ↔ v ∈ s := by
  constructor
  · intro hm
    have hv : π v = v := π.injective (h _ hm)
    exact hv ▸ hm
  · intro hm
    rw [h v hm]
    exact hm

namespace Unify

/-! ## The walk -/

/-- Both sides of an equation, relabelled. -/
def Equation.relabel (e : Equation) : Equation := (e.1.relabel π φ, e.2.relabel π φ)

/-- What a walk comes to, relabelled. -/
def Walk.relabel : Walk → Walk
  | .equal => .equal
  | .clash e => .clash (e.relabel π φ)
  | .binds v t rest => .binds (π v) (t.relabel π φ) (rest.map (Equation.relabel π φ))

theorem clash?_relabel (f : Former) (as : List Ty) (g : Former) (bs : List Ty) :
    clash? f (as.map (Ty.relabel π φ)) g (bs.map (Ty.relabel π φ)) =
      (clash? f as g bs).map (UnifyError.relabel π φ) := by
  unfold clash?
  rw [List.length_map, List.length_map]
  split
  · split
    · rfl
    · cases f <;> simp [UnifyError.relabel]
  · simp [UnifyError.relabel]

theorem bindVar_relabel (v : VarId) (n : Option String) (t : Ty) :
    bindVar (π v) (φ n) (t.relabel π φ) = (bindVar v n t).relabel π φ := by
  have hoccurs : (t.relabel π φ).occurs (π v) = t.occurs v := by
    rw [Bool.eq_iff_iff, Ty.occurs_iff, Ty.occurs_iff, Ty.vars_relabel]
    exact mem_map_renaming π
  unfold bindVar
  rw [hoccurs]
  split <;> rfl

theorem zip_relabel (as bs : List Ty) :
    (as.map (Ty.relabel π φ)).zip (bs.map (Ty.relabel π φ)) =
      (as.zip bs).map (Equation.relabel π φ) := List.zip_map

theorem zip_mapVars (as bs : List Ty) :
    (as.map (Ty.mapVars π)).zip (bs.map (Ty.mapVars π)) = (as.zip bs).map (Equation.relabel π id) :=
  zip_relabel π id as bs

section Walks

variable {π : Renaming} {φ : Option String → Option String} {frozen frozen' : VarSet}

mutual
/-- **A walk over relabelled types takes the same turns.** -/
theorem walk_relabel (h : ∀ v, π v ∈ frozen' ↔ v ∈ frozen) : ∀ a b : Ty,
    walk frozen' (a.relabel π φ) (b.relabel π φ) = (walk frozen a b).relabel π φ
  | .var v n, .var w m => by
    rw [Ty.relabel_var, Ty.relabel_var, walk, walk]
    by_cases hvw : v = w
    · rw [if_pos hvw, if_pos (congrArg π hvw)]
      rfl
    · -- different variables stay different, and frozen ones frozen
      have hne : ¬ π v = π w := fun he => hvw (π.injective he)
      rw [if_neg hvw, if_neg hne]
      simp only [h]
      split
      · exact bindVar_relabel π φ v n (.var w m)
      · split
        · exact bindVar_relabel π φ w m (.var v n)
        · rfl
  | .var v n, .app g bs => by
    have hbind := bindVar_relabel π φ v n (.app g bs)
    rw [Ty.relabel_app] at hbind
    rw [Ty.relabel_var, Ty.relabel_app, walk, walk]
    simp only [h]
    split
    · exact hbind
    · simp [Walk.relabel, UnifyError.relabel]
  | .app f as, .var w m => by
    have hbind := bindVar_relabel π φ w m (.app f as)
    rw [Ty.relabel_app] at hbind
    rw [Ty.relabel_var, Ty.relabel_app, walk, walk]
    simp only [h]
    split
    · exact hbind
    · simp [Walk.relabel, UnifyError.relabel]
  | .app f as, .app g bs => by
    rw [Ty.relabel_app, Ty.relabel_app, walk, walk, clash?_relabel]
    cases clash? f as g bs with
    | some e => rfl
    | none => exact walkAll_relabel h as bs

theorem walkAll_relabel (h : ∀ v, π v ∈ frozen' ↔ v ∈ frozen) : ∀ as bs : List Ty,
    walkAll frozen' (as.map (Ty.relabel π φ)) (bs.map (Ty.relabel π φ)) =
      (walkAll frozen as bs).relabel π φ
  | [], _ => by
    rw [List.map_nil, walkAll, walkAll]
    rfl
  | _ :: _, [] => by
    rw [List.map_cons, List.map_nil, walkAll, walkAll]
    rfl
  | a :: as, b :: bs => by
    rw [List.map_cons, List.map_cons, walkAll, walkAll, walk_relabel h a b]
    cases walk frozen a b with
    | equal => exact walkAll_relabel h as bs
    | clash e => rfl
    | binds v t rest => simp [Walk.relabel, zip_relabel]
end

variable (φ) in
theorem walkEquations_relabel (h : ∀ v, π v ∈ frozen' ↔ v ∈ frozen) (eqs : List Equation) :
    walkEquations frozen' (eqs.map (Equation.relabel π φ)) =
      (walkEquations frozen eqs).relabel π φ := by
  induction eqs with
  | nil => rfl
  | cons e eqs ih =>
    obtain ⟨a, b⟩ := e
    rw [List.map_cons, Equation.relabel, walkEquations, walkEquations, walk_relabel h a b]
    cases walk frozen a b with
    | equal => exact ih
    | clash e => rfl
    | binds v t rest => simp [Walk.relabel]

end Walks

/-! ## The loop -/

theorem put_relabel (v : VarId) (t u : Ty) :
    put (π v) (t.relabel π φ) (u.relabel π φ) = (put v t u).relabel π φ := by
  refine Ty.replaceVars_relabel (fun w n => ?_) u
  by_cases hw : w = v
  · rw [if_pos hw, if_pos (congrArg π hw)]
  · have hne : ¬ π w = π v := fun he => hw (π.injective he)
    rw [if_neg hw, if_neg hne, Ty.relabel_var]

theorem put_mapVars (v : VarId) (t u : Ty) :
    put (π v) (t.mapVars π) (u.mapVars π) = (put v t u).mapVars π := put_relabel π id v t u

theorem putAll_relabel (v : VarId) (t : Ty) (eqs : List Equation) :
    putAll (π v) (t.relabel π φ) (eqs.map (Equation.relabel π φ)) =
      (putAll v t eqs).map (Equation.relabel π φ) := by
  simp [putAll, Equation.relabel, put_relabel, Function.comp_def]

/-- The outcome of a unification, relabelled: the cause of a failure and the bindings. -/
def relabelOutcome (r : Except UnifyError Unit × Subst) : Except UnifyError Unit × Subst :=
  (r.1.mapError (UnifyError.relabel π φ), r.2.relabel π φ)

theorem bind_relabel (s : Subst) (v : VarId) (t : Ty) :
    (s.relabel π φ).bind (π v) (t.relabel π φ) =
      match s.bind v t with
      | .error c => .error ⟨π c.var, c.existing.relabel π φ, c.attempted.relabel π φ⟩
      | .ok s' => .ok (s'.relabel π φ) := by
  rw [Subst.bind, Subst.bind, Subst.find?_relabel]
  cases s.find? v with
  | none => simp [Subst.insert_relabel]
  | some u =>
    simp only [Option.map_some, Subst.apply_relabel, Ty.beq_relabel]
    split <;> rfl

/-- **Solving relabelled equations relabels the outcome.** -/
theorem solve_relabel {π : Renaming} {φ : Option String → Option String} {frozen frozen' : VarSet}
    (h : ∀ v, π v ∈ frozen' ↔ v ∈ frozen) (eqs : List Equation) (s : Subst) :
    solve frozen' (eqs.map (Equation.relabel π φ)) (s.relabel π φ) =
      relabelOutcome π φ (solve frozen eqs s) := by
  -- each turn of the loop on one side is one on the other
  induction eqs, s using solve.induct frozen with
  | case1 eqs s hw =>
    have hw' := walkEquations_relabel φ h eqs
    rw [hw] at hw'
    rw [solve, solve, hw, hw']
    rfl
  | case2 eqs s e hw =>
    have hw' := walkEquations_relabel φ h eqs
    rw [hw] at hw'
    rw [solve, solve, hw, hw']
    rfl
  | case3 eqs s v t rest hw c hb =>
    have hw' := walkEquations_relabel φ h eqs
    have hb' := bind_relabel π φ s v t
    rw [hw] at hw'
    rw [hb] at hb'
    rw [solve, solve, hw, hw']
    simp only [Walk.relabel, hb, hb']
    rfl
  | case4 eqs s v t rest hw s' hb ih =>
    have hw' := walkEquations_relabel φ h eqs
    have hb' := bind_relabel π φ s v t
    rw [hw] at hw'
    rw [hb] at hb'
    rw [solve, solve, hw, hw']
    simp only [Walk.relabel, hb, hb', putAll_relabel]
    exact ih

end Unify

/-! ## Capabilities -/

section Capabilities

variable {π : Renaming} {φ : Option String → Option String} {frozen frozen' : VarSet}
  (h : ∀ v, π v ∈ frozen' ↔ v ∈ frozen)
include h

theorem unifyCapabilities_relabel (c d : Capability) (s : Subst) :
    unifyCapabilities frozen' (c.relabel π φ) (d.relabel π φ) (s.relabel π φ) =
      Unify.relabelOutcome π φ (unifyCapabilities frozen c d s) := by
  have happlied : ∀ ts : List Ty, (ts.map (Ty.relabel π φ)).map (s.relabel π φ).apply =
      (ts.map s.apply).map (Ty.relabel π φ) := by
    intro ts
    simp [Function.comp_def]
  unfold unifyCapabilities
  simp only [Capability.concept_relabel, Capability.args_relabel, List.length_map, happlied,
    Unify.zip_relabel]
  split
  · rfl
  · split
    · rfl
    · exact Unify.solve_relabel h _ s

/-- The substitution of a successful unification is relabelled, and the cause of a failure too. -/
theorem tryUnifyCapabilities_relabel (c d : Capability) (s : Subst) :
    tryUnifyCapabilities frozen' (c.relabel π φ) (d.relabel π φ) (s.relabel π φ) =
      match tryUnifyCapabilities frozen c d s with
      | .ok s' => .ok (s'.relabel π φ)
      | .error e => .error (e.relabel π φ) := by
  unfold tryUnifyCapabilities
  rw [unifyCapabilities_relabel h]
  rcases unifyCapabilities frozen c d s with ⟨e | u, s'⟩ <;> rfl

/-- The substitution of a successful unification is renamed. -/
theorem tryUnifyCapabilities_mapVars (c d : Capability) (s : Subst) :
    tryUnifyCapabilities frozen' (c.mapVars π) (d.mapVars π) (s.mapVars π) =
      match tryUnifyCapabilities frozen c d s with
      | .ok s' => .ok (s'.mapVars π)
      | .error e => .error (e.relabel π id) := tryUnifyCapabilities_relabel h c d s

end Capabilities

/-- **Whether one capability is an instance of another does not depend on the choice of variables.** -/
theorem Capability.instanceOf_mapVars {π : Renaming} {frozen : VarSet} (h : ∀ v ∈ frozen, π v = v)
    (c d : Capability) : (c.mapVars π).instanceOf (d.mapVars π) frozen = c.instanceOf d frozen := by
  have hrigid : ∀ v, π v ∈ (c.mapVars π).rigid frozen ↔ v ∈ c.rigid frozen := by
    intro v
    rw [rigid, rigid, VarSet.mem_union, VarSet.mem_union, VarSet.mem_iff_of_fixed h,
      Capability.vars_mapVars, mem_map_renaming]
  have hunify := tryUnifyCapabilities_mapVars hrigid d c OrderedMap.empty
  have hempty : Subst.mapVars π OrderedMap.empty = OrderedMap.empty := rfl
  rw [hempty] at hunify
  rw [instanceOf, instanceOf, hunify]
  cases tryUnifyCapabilities (c.rigid frozen) d c OrderedMap.empty <;> rfl

end InstanceSearch
