/-
  Unification.

  THE PROGRAM
    `solve frozen eqs s` walks over the equations, adds the first binding `v := t` that they call for to
    the substitution, puts `t` for `v` in what remains, and starts again.  Two types are unified by
    applying the substitution to both and solving the one equation between them; two capabilities, by
    solving the equations between their arguments.

  WHY IT ENDS
    After `v := t` the remaining equations no longer mention `v`, and mention no variable that was not
    there before: their number of distinct variables drops (`distinct_lt`).

  FAILURE
    A failed unification leaves the bindings that it made; `tryUnify` and `tryUnifyCapabilities` are
    the forms that give a substitution on success only.
-/
import InstanceSearch.FirstSeen
import InstanceSearch.Unify.Walk

namespace InstanceSearch

namespace Unify

/-! ## Putting a type for a variable -/

/-- `put v t u` = `u` with `t` in the place of `v`. -/
def put (v : VarId) (t u : Ty) : Ty := u.replaceVars fun w name => if w = v then t else .var w name

/-- The same on both sides of every equation. -/
def putAll (v : VarId) (t : Ty) (eqs : List Equation) : List Equation :=
  eqs.map fun e => (put v t e.1, put v t e.2)

/-- After `put v t` the variables are those of `t` and the old ones without `v`. -/
theorem mem_vars_put {v w : VarId} {t u : Ty} (h : w ∈ (put v t u).vars) :
    w ∈ t.vars ∨ (w ∈ u.vars ∧ w ≠ v) := by
  obtain ⟨x, hx, n, hw⟩ := Ty.vars_replaceVars h
  by_cases hxv : x = v
  · exact Or.inl (by simpa [hxv] using hw)
  · rw [if_neg hxv, Ty.vars_var, List.mem_singleton] at hw
    exact Or.inr (hw ▸ ⟨hx, hxv⟩)

theorem mem_equationVars_putAll {v w : VarId} {t : Ty} {eqs : List Equation}
    (h : w ∈ equationVars (putAll v t eqs)) : w ∈ t.vars ∨ (w ∈ equationVars eqs ∧ w ≠ v) := by
  simp only [equationVars, putAll, List.mem_flatMap, List.mem_map] at h
  obtain ⟨_, ⟨e, he, rfl⟩, hw⟩ := h
  rcases List.mem_append.1 hw with hw | hw
  · rcases mem_vars_put hw with hw | hw
    · exact Or.inl hw
    · exact Or.inr ⟨List.mem_flatMap.2 ⟨e, he, List.mem_append.2 (Or.inl hw.1)⟩, hw.2⟩
  · rcases mem_vars_put hw with hw | hw
    · exact Or.inl hw
    · exact Or.inr ⟨List.mem_flatMap.2 ⟨e, he, List.mem_append.2 (Or.inr hw.1)⟩, hw.2⟩

/-! ## The measure -/

/-- The number of distinct variables of a list of equations. -/
def distinct (eqs : List Equation) : Nat := (FirstSeen.ofList (equationVars eqs)).length

/-- **Each binding removes a variable for good.** -/
theorem distinct_lt {frozen : VarSet} {eqs rest : List Equation} {v : VarId} {t : Ty}
    (h : walkEquations frozen eqs = .binds v t rest) : distinct (putAll v t rest) < distinct eqs := by
  have hw := walkEquations_within h
  have hsub : ∀ w ∈ equationVars (putAll v t rest), w ∈ equationVars eqs ∧ w ≠ v := by
    intro w hm
    rcases mem_equationVars_putAll hm with hm | hm
    · exact ⟨hw.image_subset w hm, fun hv => hw.not_occurs (hv ▸ hm)⟩
    · exact ⟨hw.rest_subset w hm.1, hm.2⟩
  have hnodup : (v :: FirstSeen.ofList (equationVars (putAll v t rest))).Nodup :=
    List.nodup_cons.2 ⟨fun hm => (hsub v (FirstSeen.mem_ofList.1 hm)).2 rfl, FirstSeen.nodup_ofList _⟩
  refine hnodup.length_le_of_subset fun w hm => FirstSeen.mem_ofList.2 ?_
  rcases List.mem_cons.1 hm with hm | hm
  · exact hm ▸ hw.var_mem
  · exact (hsub w (FirstSeen.mem_ofList.1 hm)).1

/-! ## Solving equations -/

/-- `solve frozen eqs s` = whether the equations could be solved, and `s` with the bindings that were
    made: all of them on success, those before the first clash on failure. -/
def solve (frozen : VarSet) (eqs : List Equation) (s : Subst) : Except UnifyError Unit × Subst :=
  match _h : walkEquations frozen eqs with
  | .equal => (.ok (), s)
  | .clash e => (.error e, s)
  | .binds v t rest =>
    match s.bind v t with
    | .error c => (.error (.conflict c), s)
    | .ok s' => solve frozen (putAll v t rest) s'
termination_by distinct eqs
decreasing_by exact distinct_lt (by assumption)

end Unify

/-! ## Unifying types and capabilities -/

/-- `unify frozen provided required s` = the outcome, and the substitution that it leaves. -/
def unify (frozen : VarSet) (provided required : Ty) (s : Subst) : Except UnifyError Unit × Subst :=
  Unify.solve frozen [(s.apply provided, s.apply required)] s

/-- The same for capabilities of one concept, argument by argument. -/
def unifyCapabilities (frozen : VarSet) (provided required : Capability) (s : Subst) :
    Except UnifyError Unit × Subst :=
  if provided.concept ≠ required.concept then (.error (.conceptMismatch required provided), s)
  else if provided.args.length ≠ required.args.length then
    (.error (.arity provided.concept required.args.length provided.args.length), s)
  else
    Unify.solve frozen ((provided.args.map s.apply).zip (required.args.map s.apply)) s

/-- The substitution of a successful unification, or the cause of the failure. -/
def allOrNothing : Except UnifyError Unit × Subst → Except UnifyError Subst
  | (.ok (), s) => .ok s
  | (.error e, _) => .error e

/-- `tryUnify` = `unify` whose bindings count on success only. -/
def tryUnify (frozen : VarSet) (provided required : Ty) (s : Subst) : Except UnifyError Subst :=
  allOrNothing (unify frozen provided required s)

/-- `unified` = whether two types unify, and the substitution: with the bindings that make them equal if
    they do, as it was if they do not. -/
def unified (frozen : VarSet) (provided required : Ty) (s : Subst) : Bool × Subst :=
  match tryUnify frozen provided required s with
  | .ok s' => (true, s')
  | .error _ => (false, s)

/-- `tryUnifyCapabilities` = `unifyCapabilities` whose bindings count on success only. -/
def tryUnifyCapabilities (frozen : VarSet) (provided required : Capability) (s : Subst) :
    Except UnifyError Subst :=
  allOrNothing (unifyCapabilities frozen provided required s)

end InstanceSearch
