/-
  Unification under substitutions that say the same.

  THE STATEMENT (`tryUnifyCapabilities_variant`)
    Take two substitutions that are variants, and unify under each of them what comes to the same up to
    the renaming.  Either both fail, or both succeed and the substitutions are variants again, by the
    same renaming.

  THE STEPS
    A walk sees neither labels (`walkEquations_anon`) nor which variables it walks over
    (`walkEquations_relabel`), so both loops make the same turns.  A turn that binds `v := t` on the one
    side binds `π v` to the renamed type on the other; applying a substitution after such a turn is
    putting `t` for `v` in what it gave before (`apply_insert`), and this goes along with renaming.
-/
import InstanceSearch.Proofs.Renaming.Unify
import InstanceSearch.Proofs.Subst.Variants
import InstanceSearch.Proofs.Catalog.Labels

namespace InstanceSearch

/-- Two results that are there together: both succeed, with values that `R` relates, or both fail, with
    causes that `E` relates. -/
inductive Together {ε α β : Type} (E : ε → ε → Prop) (R : α → β → Prop) :
    Except ε α → Except ε β → Prop where
  | ok {x : α} {y : β} (h : R x y) : Together E R (.ok x) (.ok y)
  | error {e e' : ε} (h : E e e') : Together E R (.error e) (.error e')

theorem Together.imp {ε α β : Type} {E : ε → ε → Prop} {R R' : α → β → Prop} {o : Except ε α}
    {o' : Except ε β} (h : Together E R o o') (hR : ∀ x y, R x y → R' x y) : Together E R' o o' := by
  cases h with
  | ok h => exact .ok (hR _ _ h)
  | error h => exact .error h

theorem Together.isOk {ε α β : Type} {E : ε → ε → Prop} {R : α → β → Prop} {o : Except ε α}
    {o' : Except ε β} (h : Together E R o o') : o.isOk = o'.isOk := by
  cases h <;> rfl

namespace Unify

/-! ## Walks without labels -/

/-- Both sides of an equation without labels. -/
def Equation.anon (e : Equation) : Equation := (e.1.anon, e.2.anon)

theorem zip_anon (as bs : List Ty) :
    (as.map Ty.anon).zip (bs.map Ty.anon) = (as.zip bs).map Equation.anon := List.zip_map

/-- What a walk comes to, without labels and without the cause of a clash. -/
def Walk.outline : Walk → Option (Option (VarId × Ty × List Equation))
  | .equal => some none
  | .clash _ => none
  | .binds v t rest => some (some (v, t.anon, rest.map Equation.anon))

/-- Labels are not part of the outline. -/
theorem outline_relabel (φ : Option String → Option String) (w : Walk) :
    (w.relabel (Equiv.refl VarId) φ).outline = w.outline := by
  cases w with
  | equal => rfl
  | clash e => rfl
  | binds v t rest =>
    simp [Walk.relabel, Walk.outline, Equation.relabel, Equation.anon, Function.comp_def]

/-- **A walk does not see labels.** -/
theorem walkEquations_anon (frozen : VarSet) (eqs : List Equation) :
    (walkEquations frozen (eqs.map Equation.anon)).outline = (walkEquations frozen eqs).outline := by
  -- taking labels off is relabelling
  have hfrozen : ∀ v, Equiv.refl VarId v ∈ frozen ↔ v ∈ frozen := fun _ => Iff.rfl
  have hwalk : walkEquations frozen (eqs.map Equation.anon) =
      (walkEquations frozen eqs).relabel (Equiv.refl VarId) fun _ => none :=
    walkEquations_relabel (fun _ => none) hfrozen eqs
  rw [hwalk, outline_relabel]

/-! ## Equations that are the same up to a renaming -/

/-- `EqualUpTo π eqs eqs'`: renamed by `π`, the equations `eqs` are `eqs'`, labels apart. -/
def EqualUpTo (π : Renaming) (eqs eqs' : List Equation) : Prop :=
  eqs'.map Equation.anon = (eqs.map (Equation.relabel π id)).map Equation.anon

theorem put_congr {v : VarId} {t t' u u' : Ty} (ht : t.anon = t'.anon) (hu : u.anon = u'.anon) :
    (put v t u).anon = (put v t' u').anon := by
  apply Ty.anon_replaceVars_congr hu
  intro w _ n m
  split
  · exact ht
  · rfl

theorem EqualUpTo.putAll {π : Renaming} {eqs eqs' : List Equation} (h : EqualUpTo π eqs eqs')
    {v : VarId} {t t' : Ty} (ht : t'.anon = (t.mapVars π).anon) :
    EqualUpTo π (putAll v t eqs) (putAll (π v) t' eqs') := by
  rw [EqualUpTo, ← putAll_relabel, Unify.putAll, Unify.putAll, List.map_map, List.map_map]
  apply map_eq_map_of_map_eq h
  intro e _ e' he
  rw [Equation.anon, Equation.anon, Prod.mk.injEq] at he
  simp only [Function.comp_apply, Equation.anon, Prod.mk.injEq]
  exact ⟨put_congr ht he.1, put_congr ht he.2⟩

/-- The variables are renamed with the equations. -/
theorem EqualUpTo.vars {π : Renaming} {eqs eqs' : List Equation} (h : EqualUpTo π eqs eqs') :
    equationVars eqs' = (equationVars eqs).map π := by
  have hanon : ∀ es : List Equation, equationVars (es.map Equation.anon) = equationVars es := by
    intro es
    simp only [equationVars, Equation.anon, List.flatMap_map, Equation.vars, Ty.vars_anon]
    rfl
  rw [← hanon eqs', h, hanon]
  simp [equationVars, Equation.relabel, Equation.vars, List.flatMap_map, List.map_flatMap]

/-- **Both walks make the same turn.** -/
theorem EqualUpTo.outline {frozen : VarSet} {π : Renaming} (hπ : ∀ v ∈ frozen, π v = v)
    {eqs eqs' : List Equation} (h : EqualUpTo π eqs eqs') :
    (walkEquations frozen eqs').outline = ((walkEquations frozen eqs).relabel π id).outline := by
  calc (walkEquations frozen eqs').outline
      _ = (walkEquations frozen (eqs'.map Equation.anon)).outline := (walkEquations_anon ..).symm
      _ = (walkEquations frozen ((eqs.map (Equation.relabel π id)).map Equation.anon)).outline := by
        rw [h]
      _ = (walkEquations frozen (eqs.map (Equation.relabel π id))).outline := walkEquations_anon ..
      _ = ((walkEquations frozen eqs).relabel π id).outline := by
        rw [walkEquations_relabel id (VarSet.mem_iff_of_fixed hπ)]

end Unify

/-! ## One more binding -/

namespace Subst

/-- **After a new binding `v := t`**, applying is applying as before and putting `t` for `v`. -/
theorem Acyclic.apply_insert {s : Subst} (h : s.Acyclic) {v : VarId} {t : Ty}
    (hv : s.find? v = none) (ht : ∀ w ∈ t.vars, s.find? w = none) (hvt : v ∉ t.vars) (u : Ty) :
    apply (s.insert v t) u = Unify.put v t (s.apply u) := by
  have hnew := h.insert hv ht hvt
  have hext : Extends (s.insert v t) s := by
    intro w x hw
    rw [OrderedMap.find?_insert, if_neg]
    · exact hw
    · rintro rfl
      rw [hv] at hw
      cases hw
  have ht_free : ∀ w ∈ t.vars, OrderedMap.find? (s.insert v t) w = none := by
    intro w hw
    have hne : w ≠ v := by
      rintro rfl
      exact hvt hw
    rw [OrderedMap.find?_insert, if_neg hne]
    exact ht w hw
  rw [← h.apply_apply_of_extends hnew hext, hnew.apply_eq, Unify.put]
  apply Ty.replaceVars_congr
  intro w hw n
  by_cases hwv : w = v
  · rw [if_pos hwv, value_of_some (u := t) (by rw [OrderedMap.find?_insert, if_pos hwv]),
      apply_of_free ht_free]
  · rw [if_neg hwv, value_of_none]
    rw [OrderedMap.find?_insert, if_neg hwv]
    exact h.not_bound_of_mem_apply hw

/-- Variants that get the same binding, up to the renaming, stay variants. -/
theorem Variant.insert {frozen : VarSet} {π : Renaming} {s s' : Subst} (h : Variant frozen π s s')
    {v : VarId} {t t' : Ty} (hv : s.find? v = none) (ht : ∀ w ∈ t.vars, s.find? w = none)
    (hvt : v ∉ t.vars) (hv' : s'.find? (π v) = none) (ht' : ∀ w ∈ t'.vars, s'.find? w = none)
    (hequal : t'.anon = (t.mapVars π).anon) :
    Variant frozen π (s.insert v t) (s'.insert (π v) t') := by
  have hvt' : π v ∉ t'.vars := by
    rw [← Ty.vars_anon, hequal, Ty.vars_anon, Ty.vars_mapVars, mem_map_renaming]
    exact hvt
  constructor
  · exact h.left.insert hv ht hvt
  · exact h.right.insert hv' ht' hvt'
  · exact h.frozen
  · intro u
    rw [h.left.apply_insert hv ht hvt, h.right.apply_insert hv' ht' hvt']
    rw [Unify.put_congr hequal (h.apply u), Unify.put_mapVars]

end Subst

/-! ## The loop -/

namespace Unify

/-- **Solving the same equations under variants** fails on both sides, or gives variants. -/
theorem solve_variant {frozen : VarSet} {π : Renaming} {eqs eqs' : List Equation} {s s' : Subst}
    (h : Subst.Variant frozen π s s') (hfree : ∀ v ∈ equationVars eqs, s.find? v = none)
    (hfree' : ∀ v ∈ equationVars eqs', s'.find? v = none) (heqs : EqualUpTo π eqs eqs') :
    Together (fun _ _ => True) (Subst.Variant frozen π) (allOrNothing (solve frozen eqs s))
      (allOrNothing (solve frozen eqs' s')) := by
  induction eqs, s using solve.induct frozen generalizing eqs' s' with
  | case1 eqs s hw =>
    have hw' := heqs.outline h.frozen
    rw [hw] at hw'
    cases hx : walkEquations frozen eqs' <;> simp [hx, Walk.outline, Walk.relabel] at hw'
    rw [solve, solve, hw, hx]
    exact .ok h
  | case2 eqs s e hw =>
    have hw' := heqs.outline h.frozen
    rw [hw] at hw'
    cases hx : walkEquations frozen eqs' <;> simp [hx, Walk.outline, Walk.relabel] at hw'
    rw [solve, solve, hw, hx]
    exact .error trivial
  | case3 eqs s v t rest hw c hb =>
    rw [Subst.bind_of_none (hfree v (walkEquations_within hw).var_mem)] at hb
    cases hb
  | case4 eqs s v t rest hw s₁ hb ih =>
    have hw' := heqs.outline h.frozen
    rw [hw] at hw'
    cases hx : walkEquations frozen eqs' <;> simp [hx, Walk.outline, Walk.relabel] at hw'
    rename_i v' t' rest'
    obtain ⟨rfl, ht, hrest⟩ := hw'
    have hin := walkEquations_within hw
    have hin' := walkEquations_within hx
    have hbind' := Subst.bind_of_none (hfree' _ hin'.var_mem) t'
    have hequal : EqualUpTo π rest rest' := by
      rw [EqualUpTo, List.map_map]
      exact hrest
    obtain ⟨hs₁, hgrow, hleft⟩ := bind_grows (P := fun _ => True) hw hb h.left hfree fun _ _ => trivial
    obtain ⟨_, hgrow', hleft'⟩ := bind_grows (P := fun _ => True) hx hbind' h.right hfree'
      fun _ _ => trivial
    subst hs₁
    have hvariant := h.insert (hfree v hin.var_mem) (fun w hm => hfree w (hin.image_subset w hm))
      hin.not_occurs (hfree' _ hin'.var_mem) (fun w hm => hfree' w (hin'.image_subset w hm))
      (by rw [ht, Ty.anon_mapVars])
    rw [solve, solve, hw, hx]
    simp only [hb, hbind']
    exact ih hvariant (fun w hm => (hleft w hm).2) (fun w hm => (hleft' w hm).2)
      (hequal.putAll (by rw [ht, Ty.anon_mapVars]))

end Unify

/-! ## Capabilities -/

section Capabilities

variable {frozen : VarSet} {π : Renaming} {s s' : Subst} {c c' d d' : Capability}

/-- **Unifying the same capabilities under variants** fails on both sides, or gives variants. -/
theorem tryUnifyCapabilities_variant (h : Subst.Variant frozen π s s')
    (hc : (s'.applyTo c').anon = ((s.applyTo c).mapVars π).anon)
    (hd : (s'.applyTo d').anon = ((s.applyTo d).mapVars π).anon) :
    Together (fun _ _ => True) (Subst.Variant frozen π) (tryUnifyCapabilities frozen c d s)
      (tryUnifyCapabilities frozen c' d' s') := by
  have hlengths : ∀ {e e' : Capability}, (s'.applyTo e').anon = ((s.applyTo e).mapVars π).anon →
      e'.concept = e.concept ∧ e'.args.length = e.args.length := by
    intro e e' he
    obtain ⟨hconcept, hargs⟩ := Capability.anon_eq_iff.1 he
    exact ⟨hconcept, by simpa [Subst.applyTo] using congrArg List.length hargs⟩
  have hargs : ∀ {e e' : Capability}, (s'.applyTo e').anon = ((s.applyTo e).mapVars π).anon →
      (e'.args.map s'.apply).map Ty.anon = ((e.args.map s.apply).map (Ty.mapVars π)).map Ty.anon :=
    fun he => (Capability.anon_eq_iff.1 he).2
  have heqs : Unify.EqualUpTo π ((c.args.map s.apply).zip (d.args.map s.apply))
      ((c'.args.map s'.apply).zip (d'.args.map s'.apply)) := by
    rw [Unify.EqualUpTo, ← Unify.zip_anon, ← Unify.zip_mapVars, ← Unify.zip_anon, hargs hc, hargs hd]
  unfold tryUnifyCapabilities unifyCapabilities
  rw [(hlengths hc).1, (hlengths hd).1, (hlengths hc).2, (hlengths hd).2]
  split
  · exact .error trivial
  · split
    · exact .error trivial
    · exact Unify.solve_variant h (free_of_mem_applied h.left) (free_of_mem_applied h.right) heqs

/-- Matching does not see labels. -/
theorem Capability.instanceOf_congr (hc : c.anon = c'.anon) (hd : d.anon = d'.anon) :
    c.instanceOf d frozen = c'.instanceOf d' frozen := by
  have hassign : ∀ θ : VarId → Ty, (d.assign θ).anon = (d'.assign θ).anon :=
    fun _ => anon_assign_congr hd
  rw [Bool.eq_iff_iff, instanceOf_iff, instanceOf_iff, vars_eq_of_anon hc, hc]
  simp only [hassign]

end Capabilities

end InstanceSearch
