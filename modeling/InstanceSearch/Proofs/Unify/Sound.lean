/-
  What a successful unification achieves.

  ASSIGNMENTS
    An assignment `θ` puts a type for every variable.  It AGREES on two types if they become equal under
    it, and it solves a list of equations if it agrees on both sides of each.

  THE STEP AND THE RUN
    One walk neither loses nor adds a solution: `walk_solutions` says that an assignment agrees on two
    types exactly if it agrees on the binding that the walk asks for and solves what the walk has left.
    `solve_grows` follows the loop with one invariant, that the equations which remain mention no bound
    variable: the substitution only grows, whether the loop succeeds or fails.  `solve_agree` reads the
    steps backwards: the substitution at the end agrees on every equation of the beginning.
-/
import InstanceSearch.Proofs.Subst.Growth
import InstanceSearch.Unify.Matching

namespace InstanceSearch

/-! ## Assignments -/

/-- `t.assign θ` = `t` with `θ` in the place of every variable. -/
def Ty.assign (θ : VarId → Ty) (t : Ty) : Ty := t.replaceVars fun v _ => θ v

/-- The capability `c` with `σ` in the place of its variables. -/
def Capability.assign (σ : VarId → Ty) (c : Capability) : Capability := c.map (Ty.assign σ)

/-- The assignment that a substitution is. -/
def Subst.assignment (s : Subst) (v : VarId) : Ty := s.apply (.var v none)

/-- Applying an acyclic substitution is assigning, labels apart. -/
theorem Subst.Acyclic.anon_apply {s : Subst} (h : s.Acyclic) (t : Ty) :
    (s.apply t).anon = (t.assign s.assignment).anon := by
  rw [h.apply_eq, Ty.assign]
  apply Ty.anon_replaceVars_congr rfl
  intro v _ n m
  rw [assignment, h.apply_var]
  exact s.anon_value v n none

namespace Unify

/-- `θ` makes two types equal. -/
def Agree (θ : VarId → Ty) (a b : Ty) : Prop := (a.assign θ).anon = (b.assign θ).anon

/-- `θ` solves every equation of a list. -/
def Solves (θ : VarId → Ty) (eqs : List Equation) : Prop := ∀ e ∈ eqs, Agree θ e.1 e.2

theorem Agree.symm {θ : VarId → Ty} {a b : Ty} (h : Agree θ a b) : Agree θ b a := Eq.symm h

theorem agree_var {θ : VarId → Ty} {v : VarId} {n : Option String} {t : Ty} :
    Agree θ (.var v n) t ↔ (θ v).anon = (t.assign θ).anon := Iff.rfl

/-- Two applications of one former to equally many arguments agree if the arguments do. -/
theorem agree_app_iff {θ : VarId → Ty} {f : Former} {as bs : List Ty} (h : as.length = bs.length) :
    Agree θ (.app f as) (.app f bs) ↔ Solves θ (as.zip bs) := by
  have hlists : ∀ as bs : List Ty, as.length = bs.length →
      ((as.map fun t => (t.assign θ).anon) = (bs.map fun t => (t.assign θ).anon) ↔
        Solves θ (as.zip bs)) := by
    intro as
    induction as with
    | nil =>
      intro bs hl
      cases bs with
      | nil => simp [Solves]
      | cons b bs => cases hl
    | cons a as ih =>
      intro bs hl
      cases bs with
      | nil => cases hl
      | cons b bs =>
        have hrest := ih bs (by simpa using hl)
        rw [List.map_cons, List.map_cons, List.cons.injEq, hrest]
        simp [Solves, Agree]
  have hanon : ∀ ts : List Ty, ((Ty.app f ts).assign θ).anon =
      .app f (ts.map fun t => (t.assign θ).anon) := by
    intro ts
    simp [Ty.assign, Function.comp_def]
  unfold Agree
  rw [hanon, hanon, Ty.app.injEq]
  simp [hlists as bs h]

theorem solves_append {θ : VarId → Ty} {eqs eqs' : List Equation} :
    Solves θ (eqs ++ eqs') ↔ Solves θ eqs ∧ Solves θ eqs' := by
  simp [Solves, or_imp, forall_and]

theorem solves_cons {θ : VarId → Ty} {a b : Ty} {eqs : List Equation} :
    Solves θ ((a, b) :: eqs) ↔ Agree θ a b ∧ Solves θ eqs := by
  simp [Solves]

/-! ## One walk -/

/-- What one walk says about the assignments that agree on its types: all of them do, or those that
    respect the binding and solve the rest. -/
def Walk.Solutions (θ : VarId → Ty) (goal : Prop) : Walk → Prop
  | .equal => goal
  | .clash _ => True
  | .binds v t rest => goal ↔ (θ v).anon = (t.assign θ).anon ∧ Solves θ rest

theorem bindVar_solutions (θ : VarId → Ty) (v : VarId) (n : Option String) (t : Ty) :
    (bindVar v n t).Solutions θ (Agree θ (.var v n) t) := by
  unfold bindVar
  split
  · trivial
  · simp [Walk.Solutions, agree_var, Solves]

theorem Walk.Solutions.iff {θ : VarId → Ty} {goal goal' : Prop} {w : Walk}
    (h : w.Solutions θ goal) (hg : goal ↔ goal') : w.Solutions θ goal' := by
  cases w with
  | equal => exact hg.1 h
  | clash e => trivial
  | binds v t rest => exact hg.symm.trans h

mutual
/-- **A walk neither loses nor adds solutions.** -/
theorem walk_solutions (frozen : VarSet) (θ : VarId → Ty) : ∀ a b : Ty,
    (walk frozen a b).Solutions θ (Agree θ a b)
  | .var v n, .var w m => by
    rw [walk]
    split
    · rename_i hvw
      subst hvw
      exact rfl
    · split
      · exact bindVar_solutions θ v n _
      · split
        · exact (bindVar_solutions θ w m _).iff ⟨Agree.symm, Agree.symm⟩
        · trivial
  | .var v n, .app g bs => by
    rw [walk]
    split
    · exact bindVar_solutions θ v n _
    · trivial
  | .app f as, .var w m => by
    rw [walk]
    split
    · exact (bindVar_solutions θ w m _).iff ⟨Agree.symm, Agree.symm⟩
    · trivial
  | .app f as, .app g bs => by
    rw [walk]
    split
    · trivial
    · rename_i hc
      obtain ⟨rfl, hl⟩ := clash?_eq_none_iff.1 hc
      exact (walkAll_solutions frozen θ as bs).iff (agree_app_iff hl).symm

theorem walkAll_solutions (frozen : VarSet) (θ : VarId → Ty) : ∀ as bs : List Ty,
    (walkAll frozen as bs).Solutions θ (Solves θ (as.zip bs))
  | [], bs => by
    rw [walkAll]
    exact fun e he => nomatch he
  | a :: as, [] => by
    rw [walkAll]
    exact fun e he => nomatch he
  | a :: as, b :: bs => by
    have hab := walk_solutions frozen θ a b
    have hrest := walkAll_solutions frozen θ as bs
    rw [walkAll, List.zip_cons_cons]
    split
    · rename_i hw
      rw [hw] at hab
      exact hrest.iff ⟨fun h => solves_cons.2 ⟨hab, h⟩, fun h => (solves_cons.1 h).2⟩
    · trivial
    · rename_i v t rest hw
      rw [hw] at hab
      simp only [Walk.Solutions] at hab ⊢
      rw [solves_cons, hab, solves_append, and_assoc]
end

/-- The same for a list of equations. -/
theorem walkEquations_solutions (frozen : VarSet) (θ : VarId → Ty) (eqs : List Equation) :
    (walkEquations frozen eqs).Solutions θ (Solves θ eqs) := by
  induction eqs with
  | nil => exact fun e he => nomatch he
  | cons e eqs ih =>
    obtain ⟨a, b⟩ := e
    have hab := walk_solutions frozen θ a b
    rw [walkEquations]
    split
    · rename_i hw
      rw [hw] at hab
      exact ih.iff ⟨fun h => solves_cons.2 ⟨hab, h⟩, fun h => (solves_cons.1 h).2⟩
    · trivial
    · rename_i v t rest hw
      rw [hw] at hab
      simp only [Walk.Solutions] at hab ⊢
      rw [solves_cons, hab, solves_append, and_assoc]

/-- Putting `t` for `v` changes nothing for an assignment that gives both the same. -/
theorem agree_put {θ : VarId → Ty} {v : VarId} {t : Ty} (h : (θ v).anon = (t.assign θ).anon)
    (u : Ty) : ((put v t u).assign θ).anon = (u.assign θ).anon := by
  unfold put Ty.assign
  rw [Ty.replaceVars_replaceVars]
  apply Ty.anon_replaceVars_congr rfl
  intro w _ n _
  by_cases hw : w = v
  · rw [if_pos hw, hw]
    exact h.symm
  · rw [if_neg hw, Ty.replaceVars_var]

theorem solves_putAll_iff {θ : VarId → Ty} {v : VarId} {t : Ty}
    (h : (θ v).anon = (t.assign θ).anon) {eqs : List Equation} :
    Solves θ (putAll v t eqs) ↔ Solves θ eqs := by
  simp only [Solves, putAll, List.mem_map, forall_exists_index, and_imp, forall_apply_eq_imp_iff₂,
    Agree, agree_put h]

/-! ## The loop -/

/-- **One turn of the loop** binds a variable of the equations that was not bound and is not frozen, and
    goes on with equations of the others, none of which is bound. -/
theorem bind_grows {frozen : VarSet} {P : VarId → Prop} {eqs rest : List Equation} {s s' : Subst}
    {v : VarId} {t : Ty} (hw : walkEquations frozen eqs = .binds v t rest)
    (hb : s.bind v t = .ok s') (hs : s.Acyclic) (hfree : ∀ w ∈ equationVars eqs, s.find? w = none)
    (hP : ∀ w ∈ equationVars eqs, P w) :
    s' = s.insert v t ∧ Subst.Grows frozen P s s' ∧
      ∀ w ∈ equationVars (putAll v t rest), w ∈ equationVars eqs ∧ s'.find? w = none := by
  have hin := walkEquations_within hw
  have hv := hfree v hin.var_mem
  rw [Subst.bind_of_none hv] at hb
  injection hb with hb
  subst hb
  refine ⟨rfl, ?_, ?_⟩
  · apply hs.grows_insert hv _ hin.not_occurs hin.not_frozen (hP v hin.var_mem)
    · exact fun w hwt => hP w (hin.image_subset w hwt)
    · exact fun w hwt => hfree w (hin.image_subset w hwt)
  · intro w hm
    have hrest : w ∈ equationVars eqs ∧ w ≠ v := by
      rcases mem_equationVars_putAll hm with hm | hm
      · exact ⟨hin.image_subset w hm, fun he => hin.not_occurs (he ▸ hm)⟩
      · exact ⟨hin.rest_subset w hm.1, hm.2⟩
    rw [OrderedMap.find?_insert, if_neg hrest.2]
    exact ⟨hrest.1, hfree w hrest.1⟩

/-- **Solving only appends**, on success and on failure: new bindings are for variables of the
    equations, which were not bound and are not frozen. -/
theorem solve_grows (frozen : VarSet) (P : VarId → Prop) (eqs : List Equation) (s : Subst)
    (hs : s.Acyclic) (hfree : ∀ v ∈ equationVars eqs, s.find? v = none)
    (hP : ∀ v ∈ equationVars eqs, P v) : Subst.Grows frozen P s (solve frozen eqs s).2 := by
  -- along the loop: nothing is left, two types clash, a binding is refused, or one is made
  induction eqs, s using solve.induct frozen with
  | case1 eqs s hw =>
    rw [solve, hw]
    exact .refl hs
  | case2 eqs s e hw =>
    rw [solve, hw]
    exact .refl hs
  | case3 eqs s v t rest hw c hb =>
    rw [solve, hw]
    simp only [hb]
    exact .refl hs
  | case4 eqs s v t rest hw s' hb ih =>
    obtain ⟨_, hstep, hrest⟩ := bind_grows hw hb hs hfree hP
    rw [solve, hw]
    simp only [hb]
    exact hstep.trans (ih hstep.acyclic (fun w hm => (hrest w hm).2) fun w hm => hP w (hrest w hm).1)

/-- **On success the substitution solves the equations.** -/
theorem solve_agree (frozen : VarSet) (eqs : List Equation) (s : Subst) (hs : s.Acyclic)
    (hfree : ∀ v ∈ equationVars eqs, s.find? v = none) (hok : (solve frozen eqs s).1 = .ok ()) :
    Solves (solve frozen eqs s).2.assignment eqs := by
  induction eqs, s using solve.induct frozen with
  | case1 eqs s hw =>
    have hsol := walkEquations_solutions frozen (solve frozen eqs s).2.assignment eqs
    rw [hw] at hsol
    exact hsol
  | case2 eqs s e hw =>
    rw [solve, hw] at hok
    cases hok
  | case3 eqs s v t rest hw c hb =>
    rw [solve, hw] at hok
    simp only [hb] at hok
    cases hok
  | case4 eqs s v t rest hw s' hb ih =>
    obtain ⟨hinsert, hstep, hrest⟩ := bind_grows (P := fun _ => True) hw hb hs hfree fun _ _ => trivial
    have hrest_free : ∀ w ∈ equationVars (putAll v t rest), s'.find? w = none :=
      fun w hm => (hrest w hm).2
    have heq : solve frozen eqs s = solve frozen (putAll v t rest) s' := by
      rw [solve, hw]
      simp only [hb]
    rw [heq] at hok ⊢
    have hsolved := ih hstep.acyclic hrest_free hok
    have hgrow := solve_grows frozen (fun _ => True) _ _ hstep.acyclic hrest_free fun _ _ => trivial
    generalize hS : (solve frozen (putAll v t rest) s').2 = S at hsolved hgrow
    -- the binding `v := t` is still there at the end, so both sides of it agree
    have hvt : (S.assignment v).anon = (t.assign S.assignment).anon := by
      have hfind : S.find? v = some t := by
        apply hgrow.isExtension v t
        rw [hinsert, OrderedMap.find?_insert, if_pos rfl]
      rw [Subst.assignment, hgrow.acyclic.apply_var_of_some hfind, hgrow.acyclic.anon_apply]
    have hsol := walkEquations_solutions frozen S.assignment eqs
    rw [hw] at hsol
    exact hsol.2 ⟨hvt, (solves_putAll_iff hvt).1 hsolved⟩

end Unify

/-! ## Capabilities -/

section Capabilities

variable {frozen : VarSet} {P : VarId → Prop} {c d : Capability} {s s' : Subst}

/-- What unification looks at has no bound variables: the substitution was applied first. -/
theorem free_of_mem_applied (hs : s.Acyclic) {as bs : List Ty} :
    ∀ v ∈ Unify.equationVars ((as.map s.apply).zip (bs.map s.apply)), s.find? v = none := by
  intro v hv
  have hm := Unify.equationVars_zip hv
  rw [List.mem_append, Ty.mem_varsAll, Ty.mem_varsAll] at hm
  rcases hm with ⟨t, ht, hvt⟩ | ⟨t, ht, hvt⟩
  · obtain ⟨a, _, rfl⟩ := List.mem_map.1 ht
    exact hs.not_bound_of_mem_apply hvt
  · obtain ⟨b, _, rfl⟩ := List.mem_map.1 ht
    exact hs.not_bound_of_mem_apply hvt

/-- Nor does it mention anything that the two sides and the substitution did not. -/
theorem forall_mem_applied (hs : ∀ v ∈ s.vars, P v) (hc : ∀ v ∈ c.vars, P v)
    (hd : ∀ v ∈ d.vars, P v) :
    ∀ v ∈ Unify.equationVars ((c.args.map s.apply).zip (d.args.map s.apply)), P v := by
  have hside : ∀ e : Capability, (∀ v ∈ e.vars, P v) → ∀ v ∈ Ty.varsAll (e.args.map s.apply), P v := by
    intro e he v hv
    rw [Ty.mem_varsAll] at hv
    obtain ⟨t, ht, hvt⟩ := hv
    obtain ⟨a, ha, rfl⟩ := List.mem_map.1 ht
    rcases Subst.mem_vars_apply hvt with hva | hvs
    · exact he v (List.mem_flatMap.2 ⟨a, ha, hva⟩)
    · exact hs v hvs
  intro v hv
  rcases List.mem_append.1 (Unify.equationVars_zip hv) with hm | hm
  · exact hside c hc v hm
  · exact hside d hd v hm

/-- **Unifying two capabilities** appends bindings for variables that may be bound, and makes the two
    capabilities equal. -/
theorem tryUnifyCapabilities_ok (hs : s.Acyclic) (hsP : ∀ v ∈ s.vars, P v)
    (hcP : ∀ v ∈ c.vars, P v) (hdP : ∀ v ∈ d.vars, P v)
    (h : tryUnifyCapabilities frozen c d s = .ok s') :
    Subst.Grows frozen P s s' ∧ (s'.applyTo c).anon = (s'.applyTo d).anon := by
  unfold tryUnifyCapabilities unifyCapabilities at h
  split at h
  · cases h
  · split at h
    · cases h
    · rename_i hconcept hlength
      rw [Decidable.not_not] at hconcept hlength
      generalize heqs : (c.args.map s.apply).zip (d.args.map s.apply) = eqs at h
      have hfree : ∀ v ∈ Unify.equationVars eqs, s.find? v = none := heqs ▸ free_of_mem_applied hs
      have hP : ∀ v ∈ Unify.equationVars eqs, P v := heqs ▸ forall_mem_applied hsP hcP hdP
      have hgrow := Unify.solve_grows frozen P eqs s hs hfree hP
      have hagree := Unify.solve_agree frozen eqs s hs hfree
      cases hsolve : Unify.solve frozen eqs s with
      | mk outcome last =>
        rw [hsolve] at h hgrow hagree
        cases outcome with
        | error e => cases h
        | ok u =>
          injection h with h
          subst h
          refine ⟨hgrow, ?_⟩
          have hsolves := hagree rfl
          rw [← heqs] at hsolves
          have hargs : c.args.map (fun t => (last.apply t).anon) =
              d.args.map fun t => (last.apply t).anon := by
            have happ := (Unify.agree_app_iff (f := .tuple) (by simpa using hlength)).2 hsolves
            simp only [Unify.Agree, Ty.assign, Ty.replaceVars_app, Ty.anon_app, List.map_map,
              Ty.app.injEq, true_and, Function.comp_def] at happ
            have hone : ∀ t, ((s.apply t).replaceVars fun v _ => last.assignment v).anon =
                (last.apply t).anon := by
              intro t
              have := hgrow.acyclic.anon_apply (s.apply t)
              rw [hs.apply_apply_of_extends hgrow.acyclic hgrow.isExtension] at this
              exact this.symm
            simpa only [hone] using happ
          simp only [Capability.anon, Subst.applyTo, Capability.map, List.map_map, Function.comp_def,
            hconcept, hargs]

/-- The same with nothing said of the variables. -/
theorem tryUnifyCapabilities_sound (hs : s.Acyclic) (h : tryUnifyCapabilities frozen c d s = .ok s') :
    Subst.Grows frozen (fun _ => True) s s' ∧ (s'.applyTo c).anon = (s'.applyTo d).anon :=
  tryUnifyCapabilities_ok hs (fun _ _ => trivial) (fun _ _ => trivial) (fun _ _ => trivial) h

end Capabilities

end InstanceSearch
