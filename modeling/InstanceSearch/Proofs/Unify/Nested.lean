/-
  Unification ends, and it only appends.

  THE STATEMENT (`unification_appends`)
    Under an acyclic substitution, unification by nested calls settles, on the outcome of `unify`; and on
    success and on failure alike the substitution that it leaves is the old one, entry for entry,
    followed by bindings of variables that were neither bound nor frozen.  It is acyclic again, so that
    whatever is applied or unified next ends as well.  No binding is ever refused.

  THE CRUX
    A call is not on smaller types: the arguments are applied anew under a substitution that has grown.
    What goes down is the pair of the number of variables without a binding and the applied type.  If an
    earlier argument bound nothing, the substitution is the same, and the argument as it stands is a
    part of the type that was taken apart (`applied_of_free`); if it bound something, one variable of
    finitely many is gone (`unbound_lt`).

  NESTED CALLS AND ONE LOOP (`solve_append`)
    `solve` walks over all equations at once, where the nested calls settle one argument before they
    look at the next.  Both come to the same: applying the substitution again, after the first
    equations are solved, is what the loop does to the rest at every binding.
-/
import InstanceSearch.Proofs.Subst.Nested
import InstanceSearch.Proofs.Unify.Unifier
import InstanceSearch.Proofs.Unify.Variants

namespace InstanceSearch

namespace Unify

/-! ## Solving in two parts -/

/-- The equations with the substitution applied to both sides. -/
def applied (s : Subst) (eqs : List Equation) : List Equation :=
  eqs.map fun e => (s.apply e.1, s.apply e.2)

/-- `goOn x next` = what comes after a unification: `next` if it succeeded, the failure if not. -/
def goOn : Outcome → (Subst → Outcome) → Outcome
  | (.ok (), s), next => next s
  | (.error e, s), _ => (.error e, s)

/-- Equations without bound variables stay as they are. -/
theorem applied_of_free {s : Subst} {eqs : List Equation}
    (h : ∀ v ∈ equationVars eqs, s.find? v = none) : applied s eqs = eqs := by
  unfold applied
  refine (List.map_congr_left ?_).trans (List.map_id' eqs)
  intro e he
  have hfree : ∀ v ∈ e.1.vars ++ e.2.vars, s.find? v = none :=
    fun v hv => h v (List.mem_flatMap.2 ⟨e, he, hv⟩)
  rw [Subst.apply_of_free fun v hv => hfree v (List.mem_append.2 (Or.inl hv)),
    Subst.apply_of_free fun v hv => hfree v (List.mem_append.2 (Or.inr hv))]

/-- Applied equations have no bound variables. -/
theorem free_of_mem_applied_equations {s : Subst} (hs : s.Acyclic) {eqs : List Equation} :
    ∀ v ∈ equationVars (applied s eqs), s.find? v = none := by
  intro v hv
  rw [equationVars, applied, List.flatMap_map, List.mem_flatMap] at hv
  obtain ⟨e, _, hv⟩ := hv
  rcases List.mem_append.1 hv with hv | hv
  · exact hs.not_bound_of_mem_apply hv
  · exact hs.not_bound_of_mem_apply hv

/-- Nor do they mention anything that the equations and the substitution did not. -/
theorem forall_mem_applied_equations {P : VarId → Prop} {s : Subst} {eqs : List Equation}
    (hs : ∀ v ∈ s.vars, P v) (he : ∀ v ∈ equationVars eqs, P v) :
    ∀ v ∈ equationVars (applied s eqs), P v := by
  intro v hv
  rw [equationVars, applied, List.flatMap_map, List.mem_flatMap] at hv
  obtain ⟨e, hmem, hv⟩ := hv
  have hside : ∀ w ∈ e.1.vars ++ e.2.vars, P w := fun w hw => he w (List.mem_flatMap.2 ⟨e, hmem, hw⟩)
  rcases List.mem_append.1 hv with hv | hv
  · rcases Subst.mem_vars_apply hv with hv | hv
    · exact hside v (List.mem_append.2 (Or.inl hv))
    · exact hs v hv
  · rcases Subst.mem_vars_apply hv with hv | hv
    · exact hside v (List.mem_append.2 (Or.inr hv))
    · exact hs v hv

/-- Putting the type of a new binding into applied equations is applying the larger substitution. -/
theorem putAll_applied {s : Subst} (hs : s.Acyclic) {v : VarId} {t : Ty} (hv : s.find? v = none)
    (ht : ∀ w ∈ t.vars, s.find? w = none) (hvt : v ∉ t.vars) (eqs : List Equation) :
    putAll v t (applied s eqs) = applied (s.insert v t) eqs := by
  unfold putAll applied
  rw [List.map_map]
  refine List.map_congr_left ?_
  intro e _
  rw [hs.apply_insert hv ht hvt, hs.apply_insert hv ht hvt]
  rfl

theorem putAll_append (v : VarId) (t : Ty) (eqs eqs' : List Equation) :
    putAll v t (eqs ++ eqs') = putAll v t eqs ++ putAll v t eqs' := List.map_append

/-- A walk over more equations ends where it ended, and has more left; or it goes on with them. -/
theorem walkEquations_append (frozen : VarSet) (eqs eqs' : List Equation) :
    walkEquations frozen (eqs ++ eqs') =
      match walkEquations frozen eqs with
      | .equal => walkEquations frozen eqs'
      | .clash e => .clash e
      | .binds v t rest => .binds v t (rest ++ eqs') := by
  induction eqs with
  | nil => rfl
  | cons e eqs ih =>
    obtain ⟨a, b⟩ := e
    rw [List.cons_append, walkEquations, walkEquations]
    cases walk frozen a b with
    | equal => exact ih
    | clash err => rfl
    | binds v t rest => simp only [List.append_assoc]

section Steps

variable {frozen : VarSet} {eqs rest : List Equation} {s s' : Subst} {v : VarId} {t : Ty}

theorem solve_of_equal (h : walkEquations frozen eqs = .equal) :
    solve frozen eqs s = (.ok (), s) := by
  rw [solve, h]

theorem solve_of_clash {e : UnifyError} (h : walkEquations frozen eqs = .clash e) :
    solve frozen eqs s = (.error e, s) := by
  rw [solve, h]

theorem solve_of_binds (h : walkEquations frozen eqs = .binds v t rest) (hv : s.find? v = none) :
    solve frozen eqs s = solve frozen (putAll v t rest) (s.insert v t) := by
  rw [solve, h]
  simp only [Subst.bind_of_none hv]

/-- Equations that hold as they stand are passed over. -/
theorem solve_append_of_equal (eqs' : List Equation) (h : walkEquations frozen eqs = .equal) :
    solve frozen (eqs ++ eqs') s = solve frozen eqs' s := by
  have happend : walkEquations frozen (eqs ++ eqs') = walkEquations frozen eqs' := by
    rw [walkEquations_append, h]
  rw [solve, solve, happend]

end Steps

/-- **Equations may be solved in two parts**: the first ones, and then, with what this gave applied to
    them, the others. -/
theorem solve_append (frozen : VarSet) (eqs eqs' : List Equation) (s : Subst) (hs : s.Acyclic)
    (hfree : ∀ v ∈ equationVars eqs, s.find? v = none) :
    solve frozen (eqs ++ applied s eqs') s =
      goOn (solve frozen eqs s) fun s' => solve frozen (applied s' eqs') s' := by
  induction eqs, s using solve.induct frozen with
  | case1 eqs s hw =>
    rw [solve_append_of_equal _ hw, solve_of_equal hw]
    rfl
  | case2 eqs s e hw =>
    have happend := walkEquations_append frozen eqs (applied s eqs')
    rw [hw] at happend
    rw [solve_of_clash happend, solve_of_clash hw]
    rfl
  | case3 eqs s v t rest hw c hb =>
    rw [Subst.bind_of_none (hfree v (walkEquations_within hw).var_mem)] at hb
    cases hb
  | case4 eqs s v t rest hw s' hb ih =>
    have hin := walkEquations_within hw
    have hv := hfree v hin.var_mem
    obtain ⟨hinsert, hstep, hrest⟩ := bind_grows (P := fun _ => True) hw hb hs hfree fun _ _ => trivial
    have happend := walkEquations_append frozen eqs (applied s eqs')
    rw [hw] at happend
    rw [solve_of_binds happend hv, solve_of_binds hw hv, putAll_append,
      putAll_applied hs hv (fun w hwt => hfree w (hin.image_subset w hwt)) hin.not_occurs, ← hinsert]
    exact ih hstep.acyclic fun w hm => (hrest w hm).2

/-! ## The variables that are left -/

/-- How many of the variables `V` have no binding. -/
def unbound (V : List VarId) (s : Subst) : Nat :=
  (V.filter fun v => decide (s.find? v = none)).length

/-- **A substitution that grew has fewer variables left**, or it is the same. -/
theorem unbound_lt {frozen : VarSet} {V : List VarId} {s s' : Subst}
    (h : Subst.Grows frozen (· ∈ V) s s') : s' = s ∨ unbound V s' < unbound V s := by
  obtain ⟨new, hentries, hnew⟩ := h.new_free
  cases new with
  | nil => exact Or.inl (OrderedMap.ext_entries (by rw [hentries, List.append_nil]))
  | cons e new =>
    -- the first new binding is for a variable that had none
    obtain ⟨hfree, -, hV, -⟩ := hnew e List.mem_cons_self
    have hbound : s'.find? e.1 = some e.2 := by
      rw [OrderedMap.find?_eq_some_iff, hentries]
      exact List.mem_append.2 (Or.inr List.mem_cons_self)
    have hsub : V.filter (fun v => decide (s'.find? v = none)) =
        (V.filter fun v => decide (s.find? v = none)).filter fun v => decide (s'.find? v = none) := by
      rw [List.filter_filter]
      refine List.filter_congr ?_
      intro v _
      cases hv : s.find? v with
      | none => simp
      | some u => simp [h.isExtension v u hv]
    refine Or.inr ?_
    show (V.filter fun v => decide (s'.find? v = none)).length < _
    rw [hsub, unbound, List.length_filter_lt_length_iff_exists]
    exact ⟨e.1, List.mem_filter.2 ⟨hV, decide_eq_true hfree⟩, by simp [hbound]⟩

/-! ## One call -/

section Calls

variable {frozen : VarSet} {P : VarId → Prop} {s : Subst}

/-- A free variable that a walk asks to bind is bound, at every depth. -/
theorem bindWithin_eq {a b : Ty} {v : VarId} {k : Option String} {t : Ty} (n : Nat)
    (hv : s.find? v = none) (hw : walk frozen a b = bindVar v k t) :
    bindWithin n v k t s = some (solve frozen [(a, b)] s) := by
  by_cases ho : t.occurs v = true
  · have hclash : walkEquations frozen [(a, b)] = .clash (.occurs (.var v k) t) := by
      rw [walkEquations, hw, bindVar, if_pos ho]
    rw [bindWithin, if_pos ho, solve_of_clash hclash]
  · have hbinds : walkEquations frozen [(a, b)] = .binds v t [] := by
      rw [walkEquations, hw, bindVar, if_neg ho]
      rfl
    have hdone : solve frozen (putAll v t []) (s.insert v t) = (.ok (), s.insert v t) :=
      solve_of_equal rfl
    rw [bindWithin, if_neg ho, solve_of_binds hbinds hv, hdone]
    simp only [Subst.bindWithin, hv, Option.map_some]

/-- Two applications of one former are solved by their arguments. -/
theorem solve_app {f g : Former} {as bs : List Ty} (h : clash? f as g bs = none) :
    solve frozen [(.app f as, .app g bs)] s = solve frozen (as.zip bs) s := by
  have hwalk : walkEquations frozen [(.app f as, .app g bs)] = walkEquations frozen (as.zip bs) := by
    rw [walkEquations, walk, h, walkAll_eq]
    cases walkEquations frozen (as.zip bs) with
    | equal => rfl
    | clash e => rfl
    | binds v t rest => simp only [List.append_nil]
  rw [solve, solve, hwalk]

/-- **Calls in turn settle** if each of them does, under every substitution that may have grown until
    then. -/
theorem inTurn_settles {call : Nat → Equation → Subst → Option Outcome} {eqs : List Equation}
    (hs : s.Acyclic) (hsP : ∀ v ∈ s.vars, P v) (hP : ∀ v ∈ equationVars eqs, P v)
    (hcall : ∀ e ∈ eqs, ∀ s', Subst.Grows frozen P s s' →
      Settles (fun n => call n e s') (solve frozen (applied s' [e]) s')) :
    Settles (fun n => inTurn (call n) eqs s) (solve frozen (applied s eqs) s) := by
  induction eqs generalizing s with
  | nil => exact Settles.const fun _ => congrArg some (solve_of_equal rfl).symm
  | cons e eqs ih =>
    have hhead : ∀ v ∈ equationVars [e], P v := fun v hv =>
      hP v (List.mem_append.2 (Or.inl (by simpa [equationVars] using hv)))
    have hfree : ∀ v ∈ equationVars (applied s [e]), s.find? v = none :=
      free_of_mem_applied_equations hs
    have hgrow := solve_grows frozen P (applied s [e]) s hs hfree
      (forall_mem_applied_equations hsP hhead)
    have hsplit : solve frozen (applied s (e :: eqs)) s = goOn (solve frozen (applied s [e]) s)
        fun s' => solve frozen (applied s' eqs) s' :=
      solve_append frozen (applied s [e]) eqs s hs hfree
    rw [hsplit]
    refine (hcall e List.mem_cons_self s (.refl hs)).bind ?_
    rcases hx : solve frozen (applied s [e]) s with ⟨outcome, s'⟩
    rw [hx] at hgrow
    cases outcome with
    | error err => exact Settles.const fun _ => rfl
    | ok u =>
      refine ih hgrow.acyclic (hgrow.forall_vars hsP)
        (fun v hv => hP v (List.mem_append.2 (Or.inr hv))) ?_
      intro e' he' s'' hgrow'
      exact hcall e' (List.mem_cons_of_mem e he') s'' (hgrow.trans hgrow')

/-- **A call settles** on two types without bound variables, if the calls for their arguments do. -/
theorem meet_settles {call : Nat → Equation → Subst → Option Outcome} {a b : Ty} (hs : s.Acyclic)
    (hsP : ∀ v ∈ s.vars, P v) (ha : ∀ v ∈ a.vars, P v ∧ s.find? v = none)
    (hb : ∀ v ∈ b.vars, P v ∧ s.find? v = none)
    (hcall : ∀ f as g bs, a = .app f as → b = .app g bs → ∀ e ∈ as.zip bs, ∀ s',
      Subst.Grows frozen P s s' → Settles (fun n => call n e s') (solve frozen (applied s' [e]) s')) :
    Settles (fun n => meet n (call n) frozen a b s) (solve frozen [(a, b)] s) := by
  cases a with
  | var v k =>
    have hv := (ha v (by simp)).2
    cases b with
    | var w m =>
      have hw := (hb w (by simp)).2
      refine Settles.const ?_
      intro n
      rw [meet]
      split
      · rename_i hvw
        rw [solve_of_equal (by rw [walkEquations, walk, if_pos hvw]; rfl)]
      · rename_i hvw
        split
        · rename_i hf
          exact bindWithin_eq n hv (by rw [walk, if_neg hvw, if_pos hf])
        · rename_i hf
          split
          · rename_i hf'
            exact bindWithin_eq n hw (by rw [walk, if_neg hvw, if_neg hf, if_pos hf'])
          · rename_i hf'
            rw [solve_of_clash (by rw [walkEquations, walk, if_neg hvw, if_neg hf, if_neg hf'])]
    | app g bs =>
      refine Settles.const ?_
      intro n
      rw [meet]
      split
      · rename_i hf
        exact bindWithin_eq n hv (by rw [walk, if_pos hf])
      · rename_i hf
        rw [solve_of_clash (by rw [walkEquations, walk, if_neg hf])]
  | app f as =>
    cases b with
    | var w m =>
      have hw := (hb w (by simp)).2
      refine Settles.const ?_
      intro n
      rw [meet]
      split
      · rename_i hf
        exact bindWithin_eq n hw (by rw [walk, if_pos hf])
      · rename_i hf
        rw [solve_of_clash (by rw [walkEquations, walk, if_neg hf])]
    | app g bs =>
      simp only [meet]
      cases hc : clash? f as g bs with
      | some e =>
        refine Settles.const ?_
        intro n
        rw [solve_of_clash (by rw [walkEquations, walk, hc])]
      | none =>
        have hzip : ∀ v ∈ equationVars (as.zip bs), P v ∧ s.find? v = none := by
          intro v hv
          rcases List.mem_append.1 (equationVars_zip hv) with hv | hv
          · exact ha v (by rwa [Ty.vars_app, ← Ty.varsAll_eq_flatMap])
          · exact hb v (by rwa [Ty.vars_app, ← Ty.varsAll_eq_flatMap])
        have hturn := inTurn_settles hs hsP (fun v hv => (hzip v hv).1) (hcall f as g bs rfl rfl)
        rw [applied_of_free fun v hv => (hzip v hv).2] at hturn
        rw [solve_app hc]
        exact hturn

end Calls

end Unify

/-! ## Unification ends -/

section Ends

variable {frozen : VarSet} {V : List VarId} {s : Subst}

/-- Unifying types over the variables `V` by nested calls settles under `s`, on what `unify` gives. -/
def CallsSettle (frozen : VarSet) (V : List VarId) (s : Subst) : Prop :=
  ∀ a b : Ty, (∀ v ∈ a.vars, v ∈ V) → (∀ v ∈ b.vars, v ∈ V) →
    Settles (fun n => unifyWithin frozen n a b s) (unify frozen a b s)

/-- **One call**: it settles if the calls do that are made under a larger substitution, and those that
    are made under the same one on the arguments of the applied type. -/
theorem unifyWithin_settles_of_parts {a b : Ty} (hs : s.Acyclic) (hsV : ∀ v ∈ s.vars, v ∈ V)
    (ha : ∀ v ∈ a.vars, v ∈ V) (hb : ∀ v ∈ b.vars, v ∈ V)
    (hlarger : ∀ s', Subst.Grows frozen (· ∈ V) s s' → Unify.unbound V s' < Unify.unbound V s →
      CallsSettle frozen V s')
    (hparts : ∀ f as, s.apply a = .app f as → ∀ u ∈ as, ∀ w : Ty, (∀ v ∈ w.vars, v ∈ V) →
      Settles (fun n => unifyWithin frozen n u w s) (unify frozen u w s)) :
    Settles (fun n => unifyWithin frozen n a b s) (unify frozen a b s) := by
  have hvars : ∀ t : Ty, (∀ v ∈ t.vars, v ∈ V) →
      ∀ v ∈ (s.apply t).vars, v ∈ V ∧ s.find? v = none := by
    intro t ht v hv
    refine ⟨?_, hs.not_bound_of_mem_apply hv⟩
    rcases Subst.mem_vars_apply hv with hv | hv
    · exact ht v hv
    · exact hsV v hv
  have hargs : ∀ (t : Ty) (f : Former) (ts : List Ty), (∀ v ∈ t.vars, v ∈ V) →
      s.apply t = .app f ts → ∀ u ∈ ts, ∀ v ∈ u.vars, v ∈ V := by
    intro t f ts ht hts u hu v hv
    refine (hvars t ht v ?_).1
    rw [hts, Ty.vars_app, List.mem_flatMap]
    exact ⟨u, hu, hv⟩
  have hmeet : Settles (fun n => Unify.meet n (fun e => unifyWithin frozen n e.1 e.2) frozen
      (s.apply a) (s.apply b) s) (unify frozen a b s) := by
    refine Unify.meet_settles hs hsV (hvars a ha) (hvars b hb) ?_
    intro f as g bs has hbs e he s' hgrow
    obtain ⟨hfst, hsnd⟩ := List.of_mem_zip he
    have hfstV := hargs a f as ha has e.1 hfst
    have hsndV := hargs b g bs hb hbs e.2 hsnd
    show Settles (fun n => unifyWithin frozen n e.1 e.2 s') (unify frozen e.1 e.2 s')
    rcases Unify.unbound_lt hgrow with rfl | hlt
    · exact hparts f as has e.1 hfst e.2 hsndV
    · exact hlarger s' hgrow hlt e.1 e.2 hfstV hsndV
  refine Settles.succ ?_
  show Settles (fun n => (s.applyWithin n a).bind fun x => (s.applyWithin n b).bind fun y =>
    Unify.meet n (fun e => unifyWithin frozen n e.1 e.2) frozen x y s) _
  exact (hs.applyWithin_settles a).bind ((hs.applyWithin_settles b).bind hmeet)

/-- **Unifying types by nested calls ends.**  The induction is on the number of variables without a
    binding, and where that stays the same on the applied type. -/
theorem calls_settle (hs : s.Acyclic) (hsV : ∀ v ∈ s.vars, v ∈ V) : CallsSettle frozen V s := by
  induction hk : Unify.unbound V s using Nat.strong_induction_on generalizing s with
  | _ k fewer =>
    have hlarger : ∀ s', Subst.Grows frozen (· ∈ V) s s' →
        Unify.unbound V s' < Unify.unbound V s → CallsSettle frozen V s' := by
      intro s' hgrow hlt
      exact fewer _ (hk ▸ hlt) hgrow.acyclic (hgrow.forall_vars hsV) rfl
    have happlied : ∀ x a b : Ty, s.apply a = x → (∀ v ∈ a.vars, v ∈ V) → (∀ v ∈ b.vars, v ∈ V) →
        Settles (fun n => unifyWithin frozen n a b s) (unify frozen a b s) := by
      intro x
      induction x using Ty.induction with
      | var v name =>
        intro a b hx ha hb
        refine unifyWithin_settles_of_parts hs hsV ha hb hlarger ?_
        intro f as has
        rw [hx] at has
        cases has
      | app g args ih =>
        intro a b hx ha hb
        refine unifyWithin_settles_of_parts hs hsV ha hb hlarger ?_
        intro f as has u hu w hw
        -- the arguments of an applied type are as applied as it is
        have hfree : ∀ v ∈ u.vars, v ∈ (s.apply a).vars := by
          intro v hv
          rw [has, Ty.vars_app, List.mem_flatMap]
          exact ⟨u, hu, hv⟩
        have huV : ∀ v ∈ u.vars, v ∈ V := by
          intro v hv
          rcases Subst.mem_vars_apply (hfree v hv) with hv | hv
          · exact ha v hv
          · exact hsV v hv
        have hself : s.apply u = u :=
          Subst.apply_of_free fun v hv => hs.not_bound_of_mem_apply (hfree v hv)
        rw [hx] at has
        injection has with _ hargs
        exact ih u (hargs ▸ hu) u w hself huV hw
    exact fun a b ha hb => happlied _ a b rfl ha hb

/-- Unifying two types settles, whatever they are. -/
theorem unifyWithin_settles (hs : s.Acyclic) (a b : Ty) :
    Settles (fun n => unifyWithin frozen n a b s) (unify frozen a b s) := by
  refine calls_settle (V := s.vars ++ (a.vars ++ b.vars)) hs ?_ a b ?_ ?_
  · exact fun v hv => List.mem_append.2 (Or.inl hv)
  · exact fun v hv => List.mem_append.2 (Or.inr (List.mem_append.2 (Or.inl hv)))
  · exact fun v hv => List.mem_append.2 (Or.inr (List.mem_append.2 (Or.inr hv)))

/-- The same of two capabilities, whose arguments are unified in turn. -/
theorem unifyCapabilitiesWithin_settles (hs : s.Acyclic) (c d : Capability) :
    Settles (fun n => unifyCapabilitiesWithin frozen n c d s) (unifyCapabilities frozen c d s) := by
  unfold unifyCapabilitiesWithin unifyCapabilities
  split
  · exact Settles.const fun _ => rfl
  · split
    · exact Settles.const fun _ => rfl
    · have happlied : Unify.applied s (c.args.zip d.args) =
          (c.args.map s.apply).zip (d.args.map s.apply) := List.zip_map.symm
      rw [← happlied]
      refine Unify.inTurn_settles (P := fun _ => True) hs (fun _ _ => trivial)
        (fun _ _ => trivial) ?_
      intro e _ s' hgrow
      exact unifyWithin_settles hgrow.acyclic e.1 e.2

end Ends

/-! ## No binding is refused -/

namespace Unify

theorem clash?_ne_conflict {f g : Former} {as bs : List Ty} {c : Subst.Conflict} :
    clash? f as g bs ≠ some (.conflict c) := by
  unfold clash?
  split
  · split
    · simp
    · cases f <;> simp
  · simp

theorem bindVar_ne_conflict {v : VarId} {k : Option String} {t : Ty} {c : Subst.Conflict} :
    bindVar v k t ≠ .clash (.conflict c) := by
  unfold bindVar
  split <;> simp

mutual
/-- A walk looks at no binding, and knows of no conflict. -/
theorem walk_ne_conflict (frozen : VarSet) (c : Subst.Conflict) : ∀ a b : Ty,
    walk frozen a b ≠ .clash (.conflict c)
  | .var v n, .var w m => by
    rw [walk]
    split
    · exact Walk.noConfusion
    · split
      · exact bindVar_ne_conflict
      · split
        · exact bindVar_ne_conflict
        · simp
  | .var v n, .app g bs => by
    rw [walk]
    split
    · exact bindVar_ne_conflict
    · simp
  | .app f as, .var w m => by
    rw [walk]
    split
    · exact bindVar_ne_conflict
    · simp
  | .app f as, .app g bs => by
    rw [walk]
    split
    · rename_i e he
      rintro hclash
      injection hclash with hclash
      exact clash?_ne_conflict (hclash ▸ he)
    · exact walkAll_ne_conflict frozen c as bs

theorem walkAll_ne_conflict (frozen : VarSet) (c : Subst.Conflict) : ∀ as bs : List Ty,
    walkAll frozen as bs ≠ .clash (.conflict c)
  | [], _ => by
    rw [walkAll]
    exact Walk.noConfusion
  | _ :: _, [] => by
    rw [walkAll]
    exact Walk.noConfusion
  | a :: as, b :: bs => by
    have hab := walk_ne_conflict frozen c a b
    have hrest := walkAll_ne_conflict frozen c as bs
    rw [walkAll]
    cases hw : walk frozen a b with
    | equal => exact hrest
    | clash e =>
      rw [hw] at hab
      exact hab
    | binds v t rest => exact Walk.noConfusion
end

theorem walkEquations_ne_conflict (frozen : VarSet) (c : Subst.Conflict) (eqs : List Equation) :
    walkEquations frozen eqs ≠ .clash (.conflict c) := by
  have hall := walkAll_ne_conflict frozen c (eqs.map Prod.fst) (eqs.map Prod.snd)
  rwa [walkAll_eq, List.zip_map', List.map_id'] at hall

/-- **No binding is refused**: one is only ever asked for where there is none. -/
theorem solve_ne_conflict {frozen : VarSet} {eqs : List Equation} {s : Subst} (hs : s.Acyclic)
    (hfree : ∀ v ∈ equationVars eqs, s.find? v = none) (c : Subst.Conflict) :
    (solve frozen eqs s).1 ≠ .error (.conflict c) := by
  induction eqs, s using solve.induct frozen with
  | case1 eqs s hw =>
    rw [solve_of_equal hw]
    rintro he
    cases he
  | case2 eqs s e hw =>
    rw [solve_of_clash hw]
    rintro he
    injection he with he
    exact walkEquations_ne_conflict frozen c eqs (he ▸ hw)
  | case3 eqs s v t rest hw c' hb =>
    rw [Subst.bind_of_none (hfree v (walkEquations_within hw).var_mem)] at hb
    cases hb
  | case4 eqs s v t rest hw s' hb ih =>
    obtain ⟨hinsert, hstep, hrest⟩ := bind_grows (P := fun _ => True) hw hb hs hfree fun _ _ => trivial
    rw [solve_of_binds hw (hfree v (walkEquations_within hw).var_mem), ← hinsert]
    exact ih hstep.acyclic fun w hm => (hrest w hm).2

end Unify

/-! ## Unification appends -/

/-- `Unify.Appends frozen s x`: the unification that ended with `x` left the entries of `s` as they are
    and in order, and added bindings of variables that were not bound and are not frozen; it ended for
    no refused binding, and whatever is applied or unified next ends. -/
structure Unify.Appends (frozen : VarSet) (s : Subst) (x : Unify.Outcome) : Prop where
  entries : ∃ new, x.2.entries = s.entries ++ new ∧ ∀ e ∈ new, s.find? e.1 = none ∧ e.1 ∉ frozen
  acyclic : x.2.Acyclic
  no_conflict : ∀ c, x.1 ≠ .error (.conflict c)
  apply_ends : ∀ t, Settles (fun n => x.2.applyWithin n t) (x.2.apply t)
  unify_ends : ∀ (frozen' : VarSet) (a b : Ty),
    Settles (fun n => unifyWithin frozen' n a b x.2) (unify frozen' a b x.2)

section Appends

variable {frozen : VarSet} {s : Subst}

theorem Unify.solve_appends {eqs : List Equation} (hs : s.Acyclic)
    (hfree : ∀ v ∈ equationVars eqs, s.find? v = none) : Appends frozen s (solve frozen eqs s) := by
  have hgrow := solve_grows frozen (fun _ => True) eqs s hs hfree fun _ _ => trivial
  refine ⟨?_, hgrow.acyclic, solve_ne_conflict hs hfree, hgrow.acyclic.applyWithin_settles,
    fun _ => unifyWithin_settles hgrow.acyclic⟩
  obtain ⟨new, hentries, hnew⟩ := hgrow.new_free
  exact ⟨new, hentries, fun e he => ⟨(hnew e he).1, (hnew e he).2.1⟩⟩

theorem unifyCapabilities_appends (hs : s.Acyclic) (c d : Capability) :
    Unify.Appends frozen s (unifyCapabilities frozen c d s) := by
  have hunchanged : ∀ e : UnifyError, (∀ x, e ≠ .conflict x) → Unify.Appends frozen s (.error e, s) := by
    intro e he
    refine ⟨⟨[], (List.append_nil _).symm, fun _ hm => nomatch hm⟩, hs, ?_, hs.applyWithin_settles,
      fun _ => unifyWithin_settles hs⟩
    rintro x hx
    injection hx with hx
    exact he x hx
  unfold unifyCapabilities
  split
  · exact hunchanged _ fun _ => UnifyError.noConfusion
  · split
    · exact hunchanged _ fun _ => UnifyError.noConfusion
    · exact Unify.solve_appends hs (free_of_mem_applied hs)

/-- **Unification ends and only appends.**  Under an acyclic substitution unifying two types, or two
    capabilities, by nested calls settles on the outcome of `unify` and `unifyCapabilities`; and these
    leave, on success and on failure alike, the old entries followed by new ones, without a cycle. -/
theorem unification_appends (hs : s.Acyclic) :
    (∀ a b : Ty, Settles (fun n => unifyWithin frozen n a b s) (unify frozen a b s) ∧
      Unify.Appends frozen s (unify frozen a b s)) ∧
    (∀ c d : Capability,
      Settles (fun n => unifyCapabilitiesWithin frozen n c d s) (unifyCapabilities frozen c d s) ∧
      Unify.Appends frozen s (unifyCapabilities frozen c d s)) := by
  constructor
  · intro a b
    refine ⟨unifyWithin_settles hs a b, ?_⟩
    rw [unify_eq_alone]
    exact unifyCapabilities_appends hs _ _
  · intro c d
    exact ⟨unifyCapabilitiesWithin_settles hs c d, unifyCapabilities_appends hs c d⟩

/-- Under `?1 := List<?2>`, `(?2, ?1, ?0)` and `(Int, ?3, Bool)` do not unify where `?0` is frozen; the
    bindings of `?2` and of `?3` were made before that was seen, and they stay.  Nine levels of calls are
    enough. -/
theorem unification_appends_failure :
    listOfSecond.Acyclic ∧
    (∃ x : Unify.Outcome,
      unifyWithin (VarSet.ofList [0]) 9 (Ty.tuple [.var 2 none, .var 1 none, .var 0 none])
        (Ty.tuple [Ty.con "Int" [], .var 3 none, Ty.con "Bool" []]) listOfSecond = some x ∧
      x.1.isOk = false ∧
      x.2.text = "\x7b?1 := List<?2>, ?2 := Int, ?3 := List<Int>\x7d") ∧
    Settles (fun n => unifyWithin (VarSet.ofList [0]) n
        (Ty.tuple [.var 2 none, .var 1 none, .var 0 none])
        (Ty.tuple [Ty.con "Int" [], .var 3 none, Ty.con "Bool" []]) listOfSecond)
      (unify (VarSet.ofList [0]) (Ty.tuple [.var 2 none, .var 1 none, .var 0 none])
        (Ty.tuple [Ty.con "Int" [], .var 3 none, Ty.con "Bool" []]) listOfSecond) ∧
    Unify.Appends (VarSet.ofList [0]) listOfSecond
      (unify (VarSet.ofList [0]) (Ty.tuple [.var 2 none, .var 1 none, .var 0 none])
        (Ty.tuple [Ty.con "Int" [], .var 3 none, Ty.con "Bool" []]) listOfSecond) := by
  have hacyclic : listOfSecond.Acyclic :=
    Subst.acyclic_empty.insert rfl (fun _ _ => rfl) (by decide)
  obtain ⟨hsettles, happends⟩ := (unification_appends hacyclic).1 _ _
  refine ⟨hacyclic, ⟨_, rfl, ?_, ?_⟩, hsettles, happends⟩
  · decide
  · decide

end Appends

end InstanceSearch
