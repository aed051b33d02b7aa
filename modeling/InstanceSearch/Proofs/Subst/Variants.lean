/-
  Substitutions that say the same.

  Two ways of unifying the same things may bind a variable of one side to one of the other, or the other
  way round, and may write their bindings down in another order.  What they say is the same all the same:
  the results of one are the results of the other, up to a RENAMING of the variables that are left.

  `Variant frozen π s s'` is this relation, with the renaming `π` shown.  It is an equivalence
  (`refl`, `symm`, `trans`).

  THE STATEMENT (`exists_variant`)
    Two substitutions with the same solutions are variants.  The renaming moves variables of the two
    substitutions only, and no frozen one.

  THE CRUX
    Each of the two is a solution of the other.  So applying one after the other is applying the first,
    and a variable that is free in the one goes to a variable that is free in the other, and back.  This
    gives a bijection of the free variables, which is extended to the bound ones by counting.
-/
import Mathlib.Algebra.Group.End
import Mathlib.Data.Fintype.Sum
import InstanceSearch.Proofs.Renaming.Terms
import InstanceSearch.Proofs.Unify.Complete

namespace InstanceSearch

/-- Equal types are variables together. -/
theorem Ty.asVar?_congr {a b : Ty} (h : a.anon = b.anon) : a.asVar? = b.asVar? := by
  cases a <;> cases b <;> simp_all [asVar?]

theorem Ty.anon_mapVars_congr (π : Renaming) {a b : Ty} (h : a.anon = b.anon) :
    (a.mapVars π).anon = (b.mapVars π).anon := by
  rw [anon_mapVars, anon_mapVars, h]

theorem Capability.anon_mapVars_congr (π : Renaming) {c d : Capability} (h : c.anon = d.anon) :
    (c.mapVars π).anon = (d.mapVars π).anon :=
  anon_map_congr h fun _ _ _ _ => rfl

namespace Subst

/-- `Variant frozen π s s'`: what `s'` gives is what `s` gives, with the variables renamed by `π`, which
    fixes the frozen ones; labels are left open. -/
structure Variant (frozen : VarSet) (π : Renaming) (s s' : Subst) : Prop where
  left : s.Acyclic
  right : s'.Acyclic
  frozen : ∀ v ∈ frozen, π v = v
  apply : ∀ t, (s'.apply t).anon = ((s.apply t).mapVars π).anon

namespace Variant

variable {frozen : VarSet} {π ρ : Renaming} {s s' s'' : Subst}

theorem refl (h : s.Acyclic) : Variant frozen (Equiv.refl VarId) s s where
  left := h
  right := h
  frozen _ _ := rfl
  apply t := by rw [Ty.mapVars_refl]

theorem symm (h : Variant frozen π s s') : Variant frozen π.symm s' s where
  left := h.right
  right := h.left
  frozen v hv := π.symm_apply_eq.2 (h.frozen v hv).symm
  apply t := by
    have hback := Ty.anon_mapVars_congr π.symm (h.apply t)
    rw [Ty.mapVars_mapVars, Equiv.self_trans_symm, Ty.mapVars_refl] at hback
    exact hback.symm

theorem trans (h : Variant frozen π s s') (h' : Variant frozen ρ s' s'') :
    Variant frozen (π.trans ρ) s s'' where
  left := h.left
  right := h'.right
  frozen v hv := by rw [Equiv.trans_apply, h.frozen v hv, h'.frozen v hv]
  apply t := by
    rw [h'.apply t, Ty.anon_mapVars_congr ρ (h.apply t), Ty.mapVars_mapVars]

theorem applyTo (h : Variant frozen π s s') (c : Capability) :
    (s'.applyTo c).anon = ((s.applyTo c).mapVars π).anon := by
  rw [Capability.anon_eq_iff]
  refine ⟨rfl, ?_⟩
  simp only [Subst.applyTo, Capability.mapVars, Capability.args_map, List.map_map]
  exact List.map_congr_left fun t _ => h.apply t

/-- A variant has the other one's results for its own. -/
theorem apply_apply (h : Variant frozen π s s') (t : Ty) :
    (s'.apply (s.apply t)).anon = (s'.apply t).anon := by
  rw [h.apply, h.apply, h.left.apply_apply]

theorem applyTo_applyTo (h : Variant frozen π s s') (c : Capability) :
    (s'.applyTo (s.applyTo c)).anon = (s'.applyTo c).anon := by
  rw [Capability.anon_eq_iff]
  refine ⟨rfl, ?_⟩
  simp only [Subst.applyTo, Capability.args_map, List.map_map]
  exact List.map_congr_left fun t _ => h.apply_apply t

/-- **Variants leave the same variables open**, up to the renaming. -/
theorem asVar? (h : Variant frozen π s s') (t : Ty) :
    (s'.apply t).asVar? = (s.apply t).asVar?.map π := by
  rw [Ty.asVar?_congr (h.apply t), Ty.asVar?_mapVars]

end Variant

/-! ## The same solutions -/

section Equivalent

variable {frozen : VarSet} {s s' : Subst}

/-- A substitution that solves another one sees through it. -/
theorem Acyclic.anon_apply_apply (hs : s.Acyclic) (hs' : s'.Acyclic)
    (h : s.Solution frozen s'.assignment) (t : Ty) :
    (s'.apply (s.apply t)).anon = (s'.apply t).anon := by
  rw [hs'.anon_apply, hs'.anon_apply]
  exact h.assign_apply hs t

/-- A free variable goes to a free variable, which goes back. -/
theorem exists_free_image (hs : s.Acyclic) (hs' : s'.Acyclic)
    (h : s'.Solution frozen s.assignment) {v : VarId} (hv : s.find? v = none) :
    ∃ w, (s'.apply (.var v none)).anon = .var w none ∧ s'.find? w = none ∧
      (s.apply (.var w none)).anon = .var v none := by
  have hback := hs'.anon_apply_apply hs h (.var v none)
  rw [apply_var_of_none hv, Ty.anon_var] at hback
  cases himage : s'.apply (.var v none) with
  | app f args =>
    rw [himage, apply_app, Ty.anon_app] at hback
    cases hback
  | var w n =>
    refine ⟨w, rfl, hs'.not_bound_of_mem_apply (t := .var v none) ?_, ?_⟩
    · rw [himage, Ty.vars_var, List.mem_singleton]
    · rw [himage] at hback
      rw [← hback]
      exact hs.anon_apply_congr rfl

/-- The variables of two substitutions that may be bound. -/
def movable (frozen : VarSet) (s s' : Subst) : Finset VarId :=
  ((s.vars ++ s'.vars).filter fun v => decide (v ∉ frozen)).toFinset

theorem mem_movable {v : VarId} :
    v ∈ movable frozen s s' ↔ (v ∈ s.vars ∨ v ∈ s'.vars) ∧ v ∉ frozen := by
  simp [movable, or_and_right]

/-- A map that takes some of finitely many variables to different ones of them extends to a renaming of
    these variables. -/
theorem exists_renaming_of_injOn {vs : Finset VarId} {P : VarId → Prop} {f : VarId → VarId}
    (hmaps : ∀ v ∈ vs, P v → f v ∈ vs)
    (hinj : ∀ v ∈ vs, P v → ∀ w ∈ vs, P w → f v = f w → v = w) :
    ∃ π : Renaming, (∀ v ∈ vs, P v → π v = f v) ∧ ∀ v, v ∉ vs → π v = v := by
  classical
  let start : Finset vs := Finset.univ.filter fun v => P v.1
  have hstart : ∀ {v : vs}, v ∈ start ↔ P v.1 := by
    intro v
    rw [Finset.mem_filter, and_iff_right (Finset.mem_univ v)]
  have himage : start.image (fun v => f v.1) ⊆ vs := by
    intro w hw
    obtain ⟨v, hv, rfl⟩ := Finset.mem_image.1 hw
    exact hmaps v.1 v.2 (hstart.1 hv)
  have hinjOn : Set.InjOn (fun v : vs => f v.1) start := fun v hv w hw heq =>
    Subtype.ext (hinj v.1 v.2 (hstart.1 hv) w.1 w.2 (hstart.1 hw) heq)
  obtain ⟨g, hg⟩ := Finset.exists_equiv_extend_of_card_eq (Fintype.card_coe _) himage hinjOn
  refine ⟨Equiv.Perm.ofSubtype g, fun v hv hP => ?_, fun v hv => ?_⟩
  · rw [Equiv.Perm.ofSubtype_apply_of_mem g hv]
    exact hg ⟨v, hv⟩ (hstart.2 hP)
  · exact Equiv.Perm.ofSubtype_apply_of_not_mem g hv

/-- **Substitutions with the same solutions are variants.** -/
theorem exists_variant (hs : s.Acyclic) (hs' : s'.Acyclic)
    (h : ∀ θ, s.Solution frozen θ ↔ s'.Solution frozen θ)
    (hfrozen : ∀ v ∈ frozen, s.find? v = none ↔ s'.find? v = none) :
    ∃ π, Variant frozen π s s' ∧ ∀ v, v ∉ s.vars → v ∉ s'.vars → π v = v := by
  have hsol : s.Solution frozen s'.assignment := (h _).2 (hs'.solution frozen)
  have hsol' : s'.Solution frozen s.assignment := (h _).1 (hs.solution frozen)
  choose! image himage hfree hback using fun v (hv : s.find? v = none) =>
    exists_free_image hs hs' hsol' hv
  -- a free frozen variable is its own image, and nothing else has a frozen image
  have hkeep : ∀ v, s.find? v = none → image v ∈ frozen → image v = v := by
    intro v hv hm
    have hw := hback v hv
    rw [apply_var_of_none ((hfrozen _ hm).2 (hfree v hv)), Ty.anon_var] at hw
    injection hw
  have hmaps : ∀ v ∈ movable frozen s s', s.find? v = none → image v ∈ movable frozen s s' := by
    intro v hv hv_free
    have hv_mem := mem_movable.1 hv
    have hw_vars : image v ∈ (s'.apply (.var v none)).vars := by
      rw [← Ty.vars_anon, himage v hv_free, Ty.vars_var, List.mem_singleton]
    rw [mem_movable]
    constructor
    · rcases mem_vars_apply hw_vars with hm | hm
      · rw [Ty.vars_var, List.mem_singleton] at hm
        rw [hm]
        exact hv_mem.1
      · exact Or.inr hm
    · intro hm
      rw [hkeep v hv_free hm] at hm
      exact hv_mem.2 hm
  have hinj : ∀ v ∈ movable frozen s s', s.find? v = none → ∀ w ∈ movable frozen s s',
      s.find? w = none → image v = image w → v = w := by
    intro v _ hv w _ hw heq
    have hvw := hback v hv
    rw [heq, hback w hw] at hvw
    injection hvw with hvw
    exact hvw.symm
  obtain ⟨π, hπ, hfixed⟩ := exists_renaming_of_injOn hmaps hinj
  refine ⟨π, ⟨hs, hs', ?_, ?_⟩, ?_⟩
  · exact fun v hv => hfixed v fun hm => (mem_movable.1 hm).2 hv
  · intro t
    -- `s'` acts on the result of `s`, whose variables are free, as the renaming does
    rw [← hs.anon_apply_apply hs' hsol t, hs'.apply_eq]
    apply Ty.anon_replaceVars_congr rfl
    intro v hv n m
    have hv_free := hs.not_bound_of_mem_apply hv
    rw [s'.anon_value v n none, ← hs'.apply_var, himage v hv_free, Ty.anon_var]
    by_cases hm : v ∈ movable frozen s s'
    · rw [hπ v hm hv_free]
    · rw [hfixed v hm]
      -- a variable that is not moved is frozen, or neither substitution mentions it
      have hv_free' : s'.find? v = none := by
        by_cases hfz : v ∈ frozen
        · exact (hfrozen v hfz).1 hv_free
        · cases hf : s'.find? v with
          | none => rfl
          | some u =>
            have hv_vars : v ∈ s'.vars :=
              List.mem_flatMap.2 ⟨(v, u), OrderedMap.find?_eq_some_iff.1 hf, List.mem_cons_self⟩
            exact absurd (mem_movable.2 ⟨Or.inr hv_vars, hfz⟩) hm
      have hsame := himage v hv_free
      rw [apply_var_of_none hv_free', Ty.anon_var] at hsame
      exact hsame.symm
  · intro v hv hv'
    refine hfixed v fun hm => ?_
    rcases (mem_movable.1 hm).1 with hm | hm
    · exact hv hm
    · exact hv' hm

end Equivalent

end Subst

end InstanceSearch
