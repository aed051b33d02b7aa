/-
  Unification finds a substitution if there is one, and the most general one.

  SOLUTIONS
    A substitution is a list of equations between variables and types.  An assignment `θ` is one of its
    SOLUTIONS if it satisfies all of them, and leaves the frozen variables that are not bound as they
    are.  What a substitution says is what its solutions are: `apply` changes no type under them
    (`Solution.assign_apply`), and the substitution itself, read as an assignment, is one of them
    (`Acyclic.solution`).

  THE STATEMENT (`unification_complete`, `solution_iff`)
    Two types, or two capabilities, unify under `s` if some solution of `s` makes them equal, and that
    solution is one of what unification leaves.  For capabilities both are equivalences: the solutions
    of what is returned are the solutions of `s` that make the two equal.

  THE CRUX (`walk_ne_clash`)
    Where a solution makes two types equal, a walk over them does not clash.  Formers are kept by every
    assignment; two frozen variables stay different; and a variable that occurs in a larger type would
    have to be as large as that type (`size_assign_lt`).
-/
import InstanceSearch.Proofs.Unify.Sound

namespace InstanceSearch

/-! ## Assignments -/

theorem Ty.anon_assign_congr {θ : VarId → Ty} {a b : Ty} (h : a.anon = b.anon) :
    (a.assign θ).anon = (b.assign θ).anon :=
  Ty.anon_replaceVars_congr h fun _ _ _ _ => rfl

theorem Ty.assign_app (θ : VarId → Ty) (f : Former) (args : List Ty) :
    (Ty.app f args).assign θ = .app f (args.map (Ty.assign θ)) := Ty.replaceVars_app _ f args

/-- Equal capabilities stay equal. -/
theorem Capability.anon_assign_congr {θ : VarId → Ty} {c d : Capability} (h : c.anon = d.anon) :
    (c.assign θ).anon = (d.assign θ).anon :=
  Capability.anon_map_congr h fun _ _ _ _ => rfl

/-- An assignment that leaves the variables of a capability as they are leaves the capability as it is,
    labels apart. -/
theorem Capability.anon_assign_of_fixed {θ : VarId → Ty} {c : Capability}
    (h : ∀ v ∈ c.vars, (θ v).anon = .var v none) : (c.assign θ).anon = c.anon := by
  have hid : c.map (Ty.replaceVars .var) = c := by
    rw [Capability.map, List.map_congr_left fun t _ => Ty.replaceVars_id t, List.map_id']
  calc (c.assign θ).anon
      _ = (c.map (Ty.replaceVars .var)).anon :=
        Capability.anon_map_congr rfl fun v hv _ _ => h v hv
      _ = c.anon := by rw [hid]

/-- Assignments that make the same of a type agree on its variables. -/
theorem Ty.anon_eq_of_assign {θ θ' : VarId → Ty} {t : Ty}
    (h : (t.assign θ).anon = (t.assign θ').anon) : ∀ v ∈ t.vars, (θ v).anon = (θ' v).anon := by
  induction t using Ty.induction with
  | var w n =>
    intro v hv
    rw [Ty.vars_var, List.mem_singleton] at hv
    subst hv
    exact h
  | app f args ih =>
    intro v hv
    rw [Ty.assign_app, Ty.assign_app, Ty.anon_app, Ty.anon_app, Ty.app.injEq, List.map_map,
      List.map_map] at h
    rw [Ty.vars_app, List.mem_flatMap] at hv
    obtain ⟨t, ht, hvt⟩ := hv
    exact ih t ht (List.map_inj_left.1 h.2 t ht) v hvt

/-- The same of a capability. -/
theorem Capability.anon_eq_of_assign {θ θ' : VarId → Ty} {c : Capability}
    (h : (c.assign θ).anon = (c.assign θ').anon) : ∀ v ∈ c.vars, (θ v).anon = (θ' v).anon := by
  intro v hv
  obtain ⟨t, ht, hvt⟩ := List.mem_flatMap.1 hv
  have hargs := (anon_eq_iff.1 h).2
  rw [assign, assign, args_map, args_map, List.map_map, List.map_map] at hargs
  exact Ty.anon_eq_of_assign (List.map_inj_left.1 hargs t ht) v hvt

/-- What is put for a variable of a type contributes its variables. -/
theorem Ty.mem_vars_assign {θ : VarId → Ty} {t : Ty} {v w : VarId} (hv : v ∈ t.vars)
    (hw : w ∈ (θ v).vars) : w ∈ (t.assign θ).vars := by
  induction t using Ty.induction with
  | var u n =>
    rw [Ty.vars_var, List.mem_singleton] at hv
    subst hv
    exact hw
  | app f args ih =>
    rw [Ty.vars_app, List.mem_flatMap] at hv
    obtain ⟨t, ht, hv⟩ := hv
    rw [Ty.assign_app, Ty.vars_app, List.mem_flatMap]
    exact ⟨_, List.mem_map_of_mem ht, ih t ht hv⟩

theorem Capability.mem_vars_assign {θ : VarId → Ty} {c : Capability} {v w : VarId} (hv : v ∈ c.vars)
    (hw : w ∈ (θ v).vars) : w ∈ (c.assign θ).vars := by
  obtain ⟨t, ht, hv⟩ := List.mem_flatMap.1 hv
  exact List.mem_flatMap.2 ⟨_, List.mem_map_of_mem ht, Ty.mem_vars_assign hv hw⟩

/-- One assignment after another. -/
theorem Capability.assign_assign (θ θ' : VarId → Ty) (c : Capability) :
    (c.assign θ).assign θ' = c.assign fun v => (θ v).assign θ' := by
  unfold assign
  rw [map_map]
  congr 1
  funext t
  exact Ty.replaceVars_replaceVars _ _ t

namespace Subst

/-- A solution of a substitution: it satisfies every binding, and it leaves the frozen variables that
    are not bound as they are. -/
structure Solution (frozen : VarSet) (s : Subst) (θ : VarId → Ty) : Prop where
  bound : ∀ v t, s.find? v = some t → (θ v).anon = (t.assign θ).anon
  frozen : ∀ v ∈ frozen, s.find? v = none → (θ v).anon = .var v none

section Solution

variable {frozen : VarSet} {s s' : Subst} {θ : VarId → Ty}

/-- What holds of a substitution's solutions holds of those of a substitution that extends it. -/
theorem Solution.of_extends (h : s'.Solution frozen θ) (hext : s'.Extends s)
    (hfrozen : ∀ v ∈ frozen, s.find? v = none → s'.find? v = none) : s.Solution frozen θ where
  bound v t hv := h.bound v t (hext v t hv)
  frozen v hv hs := h.frozen v hv (hfrozen v hv hs)

/-- **Applying a substitution changes nothing for its solutions.** -/
theorem Solution.assign_apply (h : s.Solution frozen θ) (hs : s.Acyclic) (t : Ty) :
    ((s.apply t).assign θ).anon = (t.assign θ).anon := by
  have hvar : ∀ v n, ((s.value v n).assign θ).anon = (θ v).anon := by
    intro v
    induction v using hs.induction with
    | free v hv =>
      intro n
      rw [value_of_none hv]
      rfl
    | bound v u hv ih =>
      intro n
      rw [value_of_some hv, hs.apply_eq, h.bound v u hv, Ty.assign, Ty.replaceVars_replaceVars]
      exact Ty.anon_replaceVars_congr rfl fun w hw n _ => ih w hw n
  rw [hs.apply_eq, Ty.assign, Ty.replaceVars_replaceVars]
  exact Ty.anon_replaceVars_congr rfl fun v _ n _ => hvar v n

theorem Solution.assign_applyTo (h : s.Solution frozen θ) (hs : s.Acyclic) (c : Capability) :
    ((s.applyTo c).assign θ).anon = (c.assign θ).anon := by
  rw [Capability.anon_eq_iff]
  refine ⟨rfl, ?_⟩
  simp only [Capability.assign, applyTo, Capability.args_map, List.map_map]
  exact List.map_congr_left fun t _ => h.assign_apply hs t

/-- **A substitution is a solution of itself.** -/
theorem Acyclic.solution (hs : s.Acyclic) (frozen : VarSet) : s.Solution frozen s.assignment where
  bound v t hv := by
    rw [assignment, hs.apply_var_of_some hv, hs.anon_apply]
  frozen v _ hv := by
    rw [assignment, apply_var_of_none hv]
    rfl

/-- A substitution that grew out of another one is a solution of it. -/
theorem Grows.solution {P : VarId → Prop} (h : Grows frozen P s s') :
    s.Solution frozen s'.assignment :=
  (h.acyclic.solution frozen).of_extends h.isExtension fun _ hv hs => h.frozen_free hv hs

/-- Assigning what a substitution is, is applying it. -/
theorem Acyclic.anon_applyTo (hs : s.Acyclic) (c : Capability) :
    (s.applyTo c).anon = (c.assign s.assignment).anon := by
  rw [Capability.anon_eq_iff]
  refine ⟨rfl, ?_⟩
  simp only [Capability.assign, applyTo, Capability.args_map, List.map_map]
  exact List.map_congr_left fun t _ => hs.anon_apply t

end Solution

end Subst

namespace Unify

/-! ## The occurs check -/

theorem sizeOf_lt_app {f : Former} {args : List Ty} {t : Ty} (h : t ∈ args) :
    sizeOf t < sizeOf (Ty.app f args) := by
  have := List.sizeOf_lt_of_mem h
  simp only [Ty.app.sizeOf_spec]
  omega

/-- A variable is assigned nothing larger than a type in which it occurs. -/
theorem size_assign_le {θ : VarId → Ty} {v : VarId} {t : Ty} (h : v ∈ t.vars) :
    sizeOf (θ v).anon ≤ sizeOf (t.assign θ).anon := by
  induction t using Ty.induction with
  | var w n =>
    rw [Ty.vars_var, List.mem_singleton] at h
    subst h
    exact Nat.le_refl _
  | app f args ih =>
    rw [Ty.vars_app, List.mem_flatMap] at h
    obtain ⟨t, ht, hv⟩ := h
    have hmem : (t.assign θ).anon ∈ (args.map (Ty.assign θ)).map Ty.anon :=
      List.mem_map_of_mem (List.mem_map_of_mem ht)
    rw [Ty.assign_app, Ty.anon_app]
    exact Nat.le_trans (ih t ht hv) (Nat.le_of_lt (sizeOf_lt_app hmem))

/-- **Something smaller, if the type is not the variable itself.** -/
theorem size_assign_lt {θ : VarId → Ty} {v : VarId} {f : Former} {args : List Ty}
    (h : v ∈ (Ty.app f args).vars) :
    sizeOf (θ v).anon < sizeOf ((Ty.app f args).assign θ).anon := by
  rw [Ty.vars_app, List.mem_flatMap] at h
  obtain ⟨t, ht, hv⟩ := h
  have hmem : (t.assign θ).anon ∈ (args.map (Ty.assign θ)).map Ty.anon :=
    List.mem_map_of_mem (List.mem_map_of_mem ht)
  rw [Ty.assign_app, Ty.anon_app]
  exact Nat.lt_of_le_of_lt (size_assign_le hv) (sizeOf_lt_app hmem)

/-- A binding that an assignment respects is not refused. -/
theorem bindVar_ne_clash {θ : VarId → Ty} {v : VarId} {n : Option String} {t : Ty}
    (hne : ∀ m, t ≠ .var v m) (h : Agree θ (.var v n) t) (e : UnifyError) :
    bindVar v n t ≠ .clash e := by
  unfold bindVar
  split
  · rename_i hoccurs
    rw [Ty.occurs_iff] at hoccurs
    rw [agree_var] at h
    cases t with
    | var w m =>
      rw [Ty.vars_var, List.mem_singleton] at hoccurs
      exact absurd (hoccurs ▸ rfl) (hne m)
    | app f args =>
      have hlt := size_assign_lt (θ := θ) hoccurs
      rw [h] at hlt
      exact absurd hlt (Nat.lt_irrefl _)
  · exact Walk.noConfusion

/-! ## One walk -/

section Walks

variable {frozen : VarSet} {P : VarId → Prop} {θ : VarId → Ty}

mutual
/-- **A walk over two types that an assignment makes equal does not clash**, if the assignment leaves
    their frozen variables as they are. -/
theorem walk_ne_clash (hθ : ∀ v ∈ frozen, P v → (θ v).anon = .var v none) :
    ∀ a b : Ty, (∀ v ∈ a.vars, P v) → (∀ v ∈ b.vars, P v) → Agree θ a b →
      ∀ e, walk frozen a b ≠ .clash e
  | .var v n, .var w m, ha, hb, h, e => by
    rw [walk]
    by_cases hvw : v = w
    · rw [if_pos hvw]
      exact Walk.noConfusion
    · rw [if_neg hvw]
      have hne : ∀ {x y : VarId} {k l : Option String}, ¬ x = y → Ty.var y k ≠ .var x l := by
        intro x y k l hxy he
        injection he with he
        exact hxy he.symm
      split
      · exact bindVar_ne_clash (fun _ => hne hvw) h e
      · rename_i hv
        split
        · exact bindVar_ne_clash (fun _ => hne fun he => hvw he.symm) h.symm e
        · -- two frozen variables would have to be one
          rename_i hw
          have hv' := hθ v (Decidable.not_not.1 hv) (ha v (by simp))
          have hw' := hθ w (Decidable.not_not.1 hw) (hb w (by simp))
          rw [agree_var] at h
          have heq : Ty.var v none = .var w none := hv'.symm.trans (h.trans hw')
          injection heq with heq
          exact absurd heq hvw
  | .var v n, .app g bs, ha, hb, h, e => by
    rw [walk]
    split
    · exact bindVar_ne_clash (fun _ => Ty.noConfusion) h e
    · rename_i hv
      have hv' := hθ v (Decidable.not_not.1 hv) (ha v (by simp))
      rw [agree_var, hv', Ty.assign_app, Ty.anon_app] at h
      cases h
  | .app f as, .var w m, ha, hb, h, e => by
    rw [walk]
    split
    · exact bindVar_ne_clash (fun _ => Ty.noConfusion) h.symm e
    · rename_i hw
      have hw' := hθ w (Decidable.not_not.1 hw) (hb w (by simp))
      have h' := h.symm
      rw [agree_var, hw', Ty.assign_app, Ty.anon_app] at h'
      cases h'
  | .app f as, .app g bs, ha, hb, h, e => by
    have hkeep := h
    rw [Agree, Ty.assign_app, Ty.assign_app, Ty.anon_app, Ty.anon_app, Ty.app.injEq] at hkeep
    have hlength : as.length = bs.length := by
      simpa using congrArg List.length hkeep.2
    have hclash : clash? f as g bs = none := clash?_eq_none_iff.2 ⟨hkeep.1, hlength⟩
    rw [walk, hclash]
    have hsolves : Solves θ (as.zip bs) := by
      rw [← hkeep.1] at h
      exact (agree_app_iff hlength).1 h
    rw [Ty.vars_app, ← Ty.varsAll_eq_flatMap] at ha hb
    exact walkAll_ne_clash hθ as bs ha hb hsolves e

theorem walkAll_ne_clash (hθ : ∀ v ∈ frozen, P v → (θ v).anon = .var v none) :
    ∀ as bs : List Ty, (∀ v ∈ Ty.varsAll as, P v) → (∀ v ∈ Ty.varsAll bs, P v) →
      Solves θ (as.zip bs) → ∀ e, walkAll frozen as bs ≠ .clash e
  | [], _, _, _, _, e => by
    rw [walkAll]
    exact Walk.noConfusion
  | _ :: _, [], _, _, _, e => by
    rw [walkAll]
    exact Walk.noConfusion
  | a :: as, b :: bs, ha, hb, h, e => by
    rw [Ty.varsAll_cons] at ha hb
    rw [List.zip_cons_cons, solves_cons] at h
    rw [walkAll]
    split
    · exact walkAll_ne_clash hθ as bs (fun v hv => ha v (List.mem_append.2 (Or.inr hv)))
        (fun v hv => hb v (List.mem_append.2 (Or.inr hv))) h.2 e
    · rename_i e' he
      exact absurd he (walk_ne_clash hθ a b (fun v hv => ha v (List.mem_append.2 (Or.inl hv)))
        (fun v hv => hb v (List.mem_append.2 (Or.inl hv))) h.1 e')
    · exact Walk.noConfusion
end

/-- The same for a list of equations. -/
theorem walkEquations_ne_clash (hθ : ∀ v ∈ frozen, P v → (θ v).anon = .var v none)
    {eqs : List Equation} (hP : ∀ v ∈ equationVars eqs, P v)
    (h : Solves θ eqs) (e : UnifyError) : walkEquations frozen eqs ≠ .clash e := by
  induction eqs with
  | nil => exact Walk.noConfusion
  | cons e' eqs ih =>
    obtain ⟨a, b⟩ := e'
    have hhead : ∀ v ∈ a.vars ++ b.vars, P v := fun v hv => hP v (List.mem_append.2 (Or.inl hv))
    rw [solves_cons] at h
    rw [walkEquations]
    split
    · exact ih (fun v hv => hP v (List.mem_append.2 (Or.inr hv))) h.2
    · rename_i e' he
      exact absurd he (walk_ne_clash hθ a b (fun v hv => hhead v (List.mem_append.2 (Or.inl hv)))
        (fun v hv => hhead v (List.mem_append.2 (Or.inr hv))) h.1 e')
    · exact Walk.noConfusion

end Walks

/-! ## The loop -/

/-- **Solving succeeds where there is a solution, and keeps it.** -/
theorem solve_complete {frozen : VarSet} {eqs : List Equation} {s : Subst} {θ : VarId → Ty}
    (hfree : ∀ v ∈ equationVars eqs, s.find? v = none) (hs : s.Acyclic) (hθ : s.Solution frozen θ)
    (h : Solves θ eqs) :
    (solve frozen eqs s).1 = .ok () ∧ (solve frozen eqs s).2.Solution frozen θ := by
  induction eqs, s using solve.induct frozen with
  | case1 eqs s hw =>
    rw [solve, hw]
    exact ⟨rfl, hθ⟩
  | case2 eqs s e hw => exact absurd hw (walkEquations_ne_clash hθ.frozen hfree h e)
  | case3 eqs s v t rest hw c hb =>
    rw [Subst.bind_of_none (hfree v (walkEquations_within hw).var_mem)] at hb
    cases hb
  | case4 eqs s v t rest hw s' hb ih =>
    obtain ⟨hinsert, hstep, hrest⟩ := bind_grows (P := fun _ => True) hw hb hs hfree fun _ _ => trivial
    have hsol := walkEquations_solutions frozen θ eqs
    rw [hw] at hsol
    obtain ⟨hvt, hsolves⟩ := hsol.1 h
    have hθ' : s'.Solution frozen θ := by
      constructor
      · intro x u hx
        rw [hinsert, OrderedMap.find?_insert] at hx
        split at hx
        · rename_i hxv
          injection hx with hx
          rw [hxv, ← hx]
          exact hvt
        · exact hθ.bound x u hx
      · intro x hx hnone
        rw [hinsert, OrderedMap.find?_insert] at hnone
        split at hnone
        · cases hnone
        · exact hθ.frozen x hx hnone
    rw [solve, hw]
    simp only [hb]
    exact ih (fun w hm => (hrest w hm).2) hstep.acyclic hθ' ((solves_putAll_iff hvt).2 hsolves)

end Unify

/-! ## Types and capabilities -/

/-- `Unify.Admits frozen θ x`: unification ended with success, and it left a substitution that has `θ`
    among its solutions and as an instance. -/
structure Unify.Admits (frozen : VarSet) (θ : VarId → Ty) (x : Except UnifyError Unit × Subst) :
    Prop where
  succeeds : x.1 = .ok ()
  solution : x.2.Solution frozen θ
  factors : ∀ t, ((x.2.apply t).assign θ).anon = (t.assign θ).anon

section Capabilities

variable {frozen : VarSet} {a b : Ty} {c d : Capability} {s s' : Subst} {θ : VarId → Ty}

/-- Solving equations between types with the substitution applied admits every solution of both. -/
theorem Unify.solve_admits {eqs : List Equation}
    (hfree : ∀ v ∈ equationVars eqs, s.find? v = none) (hs : s.Acyclic) (hθ : s.Solution frozen θ)
    (h : Solves θ eqs) : Admits frozen θ (solve frozen eqs s) := by
  obtain ⟨hok, hsol⟩ := solve_complete hfree hs hθ h
  have hgrow := solve_grows frozen (fun _ => True) eqs s hs hfree fun _ _ => trivial
  exact ⟨hok, hsol, hsol.assign_apply hgrow.acyclic⟩

/-- Two types that a solution makes equal unify. -/
theorem unify_admits (hs : s.Acyclic) (hθ : s.Solution frozen θ)
    (h : (a.assign θ).anon = (b.assign θ).anon) : Unify.Admits frozen θ (unify frozen a b s) := by
  have hfree : ∀ v ∈ Unify.equationVars [(s.apply a, s.apply b)], s.find? v = none := by
    intro v hv
    rw [Unify.equationVars, List.flatMap_singleton, Unify.Equation.vars, List.mem_append] at hv
    exact hv.elim hs.not_bound_of_mem_apply hs.not_bound_of_mem_apply
  have hsolves : Unify.Solves θ [(s.apply a, s.apply b)] := by
    intro e he
    rw [List.mem_singleton.1 he]
    exact (hθ.assign_apply hs a).trans (h.trans (hθ.assign_apply hs b).symm)
  exact Unify.solve_admits hfree hs hθ hsolves

/-- Two capabilities that a solution makes equal unify. -/
theorem unifyCapabilities_admits (hs : s.Acyclic) (hθ : s.Solution frozen θ)
    (h : (c.assign θ).anon = (d.assign θ).anon) :
    Unify.Admits frozen θ (unifyCapabilities frozen c d s) := by
  obtain ⟨hconcept, hargs⟩ := Capability.anon_eq_iff.1 h
  simp only [Capability.assign, Capability.concept_map, Capability.args_map, List.map_map] at hconcept hargs
  have hlength : c.args.length = d.args.length := by
    simpa using congrArg List.length hargs
  have hsolves : Unify.Solves θ ((c.args.map s.apply).zip (d.args.map s.apply)) := by
    refine (Unify.agree_app_iff (f := .tuple) (by simpa using hlength)).1 ?_
    have happlied : ∀ ts : List Ty, ((Ty.app .tuple (ts.map s.apply)).assign θ).anon =
        .app .tuple (ts.map (Ty.anon ∘ Ty.assign θ)) := by
      intro ts
      rw [Ty.assign_app, Ty.anon_app, List.map_map, List.map_map]
      exact congrArg _ (List.map_congr_left fun t _ => hθ.assign_apply hs t)
    rw [Unify.Agree, happlied, happlied, hargs]
  unfold unifyCapabilities
  rw [if_neg (not_not_intro hconcept), if_neg (not_not_intro hlength)]
  exact Unify.solve_admits (free_of_mem_applied hs) hs hθ hsolves

/-- **Unification is complete and most general.**  If a solution of `s`, which leaves the frozen variables
    that are not bound as they are, makes two types equal, then they unify under `s`, and it is a
    solution of the substitution that unification leaves; the same holds of two capabilities, which
    are of one concept and have equally many arguments if anything makes them equal. -/
theorem unification_complete (hs : s.Acyclic) (hθ : s.Solution frozen θ) :
    (∀ a b : Ty, (a.assign θ).anon = (b.assign θ).anon →
      Unify.Admits frozen θ (unify frozen a b s)) ∧
    (∀ c d : Capability, (c.assign θ).anon = (d.assign θ).anon →
      Unify.Admits frozen θ (unifyCapabilities frozen c d s)) :=
  ⟨fun _ _ => unify_admits hs hθ, fun _ _ => unifyCapabilities_admits hs hθ⟩

/-- A context in which `?1` is a list of `?2`. -/
def listOfSecond : Subst := OrderedMap.empty.insert 1 (Ty.con "List" [.var 2 none])

/-- The solution of `listOfSecond` that sends `?2` to lists of `?0`, and `?3` to `?0`. -/
def listsOfFirst (v : VarId) : Ty :=
  if v = 1 then Ty.con "List" [Ty.con "List" [.var 0 none]]
  else if v = 2 then Ty.con "List" [.var 0 none]
  else if v = 3 then .var 0 none
  else .var v none

/-- `(?1, ?0)` and `(List<List<?3>>, ?3)` unify in `listOfSecond` although `?0` is frozen: of the last
    two variables the other one is bound. -/
theorem unification_complete_frozen :
    listOfSecond.Solution (VarSet.ofList [0]) listsOfFirst ∧
    Unify.Admits (VarSet.ofList [0]) listsOfFirst (unify (VarSet.ofList [0])
      (Ty.tuple [.var 1 none, .var 0 none])
      (Ty.tuple [Ty.con "List" [Ty.con "List" [.var 3 none]], .var 3 none]) listOfSecond) ∧
    (unify (VarSet.ofList [0]) (Ty.tuple [.var 1 none, .var 0 none])
      (Ty.tuple [Ty.con "List" [Ty.con "List" [.var 3 none]], .var 3 none]) listOfSecond).2.text =
        "\x7b?1 := List<?2>, ?2 := List<?3>, ?3 := ?0\x7d" ∧
    Unify.Admits (VarSet.ofList [0]) listsOfFirst (unifyCapabilities (VarSet.ofList [0])
      ⟨"Ord", [.var 1 none]⟩ ⟨"Ord", [Ty.con "List" [.var 2 none]]⟩ listOfSecond) := by
  have hacyclic : listOfSecond.Acyclic :=
    Subst.acyclic_empty.insert rfl (fun _ _ => rfl) (by decide)
  have hsol : listOfSecond.Solution (VarSet.ofList [0]) listsOfFirst := by
    constructor
    · intro v t hv
      rw [listOfSecond, OrderedMap.find?_insert] at hv
      split at hv
      · rename_i h1
        injection hv with hv
        subst h1 hv
        decide
      · cases hv
    · intro v hv _
      have h0 : v = 0 := by simpa using hv
      subst h0
      decide
  obtain ⟨htypes, hcaps⟩ := unification_complete hacyclic hsol
  exact ⟨hsol, htypes _ _ (by decide), by decide +kernel, hcaps _ _ (by decide)⟩

/-- **Two capabilities that a solution makes equal unify, and the solution stays one.** -/
theorem tryUnifyCapabilities_complete (hs : s.Acyclic) (hθ : s.Solution frozen θ)
    (h : (c.assign θ).anon = (d.assign θ).anon) :
    ∃ s', tryUnifyCapabilities frozen c d s = .ok s' ∧ s'.Solution frozen θ := by
  obtain ⟨hok, hsol, _⟩ := unifyCapabilities_admits hs hθ h
  rcases hx : unifyCapabilities frozen c d s with ⟨x, s'⟩
  rw [hx] at hok hsol
  dsimp only at hok
  subst hok
  exact ⟨s', by rw [tryUnifyCapabilities, hx]; rfl, hsol⟩

/-- **Unification returns the most general substitution**: its solutions are those of `s` that make the
    two capabilities equal. -/
theorem solution_iff (hs : s.Acyclic) (h : tryUnifyCapabilities frozen c d s = .ok s') :
    s'.Solution frozen θ ↔ s.Solution frozen θ ∧ (c.assign θ).anon = (d.assign θ).anon := by
  obtain ⟨hgrow, hequal⟩ := tryUnifyCapabilities_sound hs h
  constructor
  · intro hθ
    refine ⟨hθ.of_extends hgrow.isExtension fun _ hv hf => hgrow.frozen_free hv hf, ?_⟩
    rw [← hθ.assign_applyTo hgrow.acyclic c, ← hθ.assign_applyTo hgrow.acyclic d]
    exact Capability.anon_assign_congr hequal
  · rintro ⟨hθ, heq⟩
    obtain ⟨s'', h', hsol⟩ := tryUnifyCapabilities_complete hs hθ heq
    rw [h] at h'
    injection h' with h'
    exact h' ▸ hsol

/-- Two capabilities unify under `s` exactly if a solution of `s` makes them equal. -/
theorem tryUnifyCapabilities_isOk_iff (hs : s.Acyclic) :
    (tryUnifyCapabilities frozen c d s).isOk = true ↔
      ∃ θ, s.Solution frozen θ ∧ (c.assign θ).anon = (d.assign θ).anon := by
  constructor
  · intro hok
    cases h : tryUnifyCapabilities frozen c d s with
    | error e =>
      rw [h] at hok
      cases hok
    | ok s' =>
      have hgrow := (tryUnifyCapabilities_sound hs h).1
      exact ⟨_, (solution_iff hs h).1 (hgrow.acyclic.solution frozen)⟩
  · rintro ⟨θ, hθ, heq⟩
    obtain ⟨s', h, _⟩ := tryUnifyCapabilities_complete hs hθ heq
    rw [h]
    rfl

/-- **Matching is deciding whether one capability is the other one with its variables replaced**; the
    variables of the more specific one and the frozen ones stay as they are. -/
theorem Capability.instanceOf_iff : c.instanceOf d frozen = true ↔
    ∃ θ : VarId → Ty, (∀ v, v ∈ frozen ∨ v ∈ c.vars → (θ v).anon = .var v none) ∧
      (d.assign θ).anon = c.anon := by
  unfold instanceOf
  rw [tryUnifyCapabilities_isOk_iff Subst.acyclic_empty]
  have hrigid : ∀ v, v ∈ c.rigid frozen ↔ v ∈ frozen ∨ v ∈ c.vars := fun v => VarSet.mem_union
  constructor
  · rintro ⟨θ, hθ, heq⟩
    have hfixed : ∀ v, v ∈ frozen ∨ v ∈ c.vars → (θ v).anon = .var v none :=
      fun v hv => hθ.frozen v ((hrigid v).2 hv) rfl
    exact ⟨θ, hfixed, heq.trans (anon_assign_of_fixed fun v hv => hfixed v (Or.inr hv))⟩
  · rintro ⟨θ, hfixed, heq⟩
    have hθ : Subst.Solution (c.rigid frozen) OrderedMap.empty θ := by
      constructor
      · exact fun v t hv => nomatch hv
      · exact fun v hv _ => hfixed v ((hrigid v).1 hv)
    exact ⟨θ, hθ, heq.trans (anon_assign_of_fixed fun v hv => hfixed v (Or.inr hv)).symm⟩

end Capabilities

end InstanceSearch
