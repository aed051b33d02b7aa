/-
  Matching orders patterns.

  `specific.instanceOf general frozen` comes out of two-way unification, in which the variables of
  `specific` are frozen for the occasion.  What it decides is one-way: whether the other variables of
  `general` can be replaced so that it becomes `specific`.

  THE STATEMENT (`instanceOf_exact`)
    (1) it is true exactly if there is such a replacement, in one step (an assignment) or written down as
        a substitution and applied along its chains;
    (2) every pattern matches itself;
    (3) matches compose, if the two ends share no variable that may be replaced;
    (4) patterns that match each other differ by a renaming, and those that share no such variable match
        each other if they differ by a renaming only.

  WHY THE ENDS HAVE TO BE APART
    `List<?1>` is an instance of `?2`, and `?2` is one of `?1`.  But `List<?1>` is no instance of `?1`,
    since the variable that would be replaced is its own.

  THE CRUX (`exists_renaming_of_mutual`)
    There and back again nothing has changed, so each variable went to a variable, and no two to the same.
-/
import InstanceSearch.Proofs.Subst.Variants

namespace InstanceSearch

/-! ## Substitutions as assignments -/

/-- Applying a substitution is assigning, labels apart, also where chains do not end. -/
theorem Subst.anon_apply_assignment (s : Subst) (t : Ty) :
    (s.apply t).anon = (t.assign s.assignment).anon := by
  induction t using Ty.induction with
  | var v n =>
    show (s.follow s.size (.var v n)).anon = (s.follow s.size (.var v none)).anon
    cases s.size with
    | zero => rfl
    | succ k =>
      rw [follow, follow, Ty.replaceVars_var, Ty.replaceVars_var]
      cases s.find? v <;> rfl
  | app f args ih =>
    rw [apply_app, Ty.assign_app, Ty.anon_app, Ty.anon_app, List.map_map, List.map_map]
    exact congrArg _ (List.map_congr_left ih)

theorem Subst.anon_applyTo_assignment (s : Subst) (c : Capability) :
    (s.applyTo c).anon = (c.assign s.assignment).anon := by
  rw [Capability.anon_eq_iff]
  refine ⟨rfl, ?_⟩
  simp only [Capability.assign, applyTo, Capability.args_map, List.map_map]
  exact List.map_congr_left fun t _ => s.anon_apply_assignment t

namespace Capability

variable {frozen : VarSet} {a b c : Capability}

/-! ## What is decided -/

/-- The substitution binds nothing but variables that are neither frozen nor in the capability. -/
def Movable (frozen : VarSet) (c : Capability) (s : Subst) : Prop :=
  ∀ v ∈ s.keys, v ∉ frozen ∧ v ∉ c.vars

/-- No variable of both but frozen ones. -/
def ApartFrom (frozen : VarSet) (c d : Capability) : Prop := ∀ v ∈ c.vars, v ∈ d.vars → v ∈ frozen

/-- A match leaves a substitution that brings it about. -/
theorem exists_subst_of_instanceOf (h : a.instanceOf b frozen = true) :
    ∃ s : Subst, s.Acyclic ∧ Movable frozen a s ∧ (s.applyTo b == a) = true := by
  unfold instanceOf at h
  cases hx : tryUnifyCapabilities (a.rigid frozen) b a OrderedMap.empty with
  | error e =>
    rw [hx] at h
    cases h
  | ok s =>
    obtain ⟨hgrow, hequal⟩ := tryUnifyCapabilities_sound Subst.acyclic_empty hx
    have hfree : ∀ v, v ∈ frozen ∨ v ∈ a.vars → s.find? v = none :=
      fun v hv => hgrow.frozen_free (VarSet.mem_union.2 hv) rfl
    have hkept : (s.applyTo a).anon = a.anon := by
      rw [s.anon_applyTo_assignment]
      refine anon_assign_of_fixed fun v hv => ?_
      rw [Subst.assignment, Subst.apply_var_of_none (hfree v (.inr hv)), Ty.anon_var]
    refine ⟨s, hgrow.acyclic, fun v hv => not_or.1 fun hfixed => ?_, beq_iff.2 (hequal.trans hkept)⟩
    exact OrderedMap.find?_eq_none_iff.1 (hfree v hfixed) hv

/-- Whatever substitution brings a match about, there is one. -/
theorem instanceOf_of_subst {s : Subst} (hs : Movable frozen a s) (h : (s.applyTo b == a) = true) :
    a.instanceOf b frozen = true := by
  refine instanceOf_iff.2 ⟨s.assignment, fun v hv => ?_, ?_⟩
  · have hfree : s.find? v = none :=
      OrderedMap.find?_eq_none_iff.2 fun hkey => not_or.2 (hs v hkey) hv
    rw [Subst.assignment, Subst.apply_var_of_none hfree, Ty.anon_var]
  · rw [← s.anon_applyTo_assignment]
    exact beq_iff.1 h

/-! ## The order -/

theorem instanceOf_refl (frozen : VarSet) (a : Capability) : a.instanceOf a frozen = true :=
  instanceOf_iff.2 ⟨fun v => .var v none, fun _ _ => rfl, anon_assign_of_fixed fun _ _ => rfl⟩

/-- `restrict frozen c θ` = `θ` on the variables of `c` that are not frozen; it leaves the others alone. -/
def restrict (frozen : VarSet) (c : Capability) (θ : VarId → Ty) (v : VarId) : Ty :=
  if v ∈ c.vars ∧ v ∉ frozen then θ v else .var v none

/-- On the variables of the capability nothing is lost, if the assignment leaves the frozen ones alone. -/
theorem anon_restrict {θ : VarId → Ty} (hθ : ∀ v ∈ frozen, (θ v).anon = .var v none) {v : VarId}
    (hv : v ∈ c.vars) : (restrict frozen c θ v).anon = (θ v).anon := by
  unfold restrict
  split
  · rfl
  · rename_i hnot
    have hf : v ∈ frozen := by_contra fun hf => hnot ⟨hv, hf⟩
    exact (hθ v hf).symm

/-- What an assignment does to a pattern is a match, if it leaves the frozen variables alone and the two
    are apart. -/
theorem instanceOf_of_assign {θ : VarId → Ty} (hapart : ApartFrom frozen a b)
    (hθ : ∀ v ∈ frozen, (θ v).anon = .var v none) (h : (b.assign θ).anon = a.anon) :
    a.instanceOf b frozen = true := by
  refine instanceOf_iff.2 ⟨restrict frozen b θ, fun v hv => ?_, ?_⟩
  · have hnot : ¬ (v ∈ b.vars ∧ v ∉ frozen) := by
      rintro ⟨hb, hf⟩
      exact hf (hv.elim id fun ha => hapart v ha hb)
    rw [restrict, if_neg hnot, Ty.anon_var]
  · have hsame : (b.assign (restrict frozen b θ)).anon = (b.assign θ).anon :=
      anon_map_congr rfl fun _ hv _ _ => anon_restrict hθ hv
    exact hsame.trans h

/-- **Matches compose**, if their ends are apart. -/
theorem instanceOf_trans (hapart : ApartFrom frozen a c) (h : a.instanceOf b frozen = true)
    (h' : b.instanceOf c frozen = true) : a.instanceOf c frozen = true := by
  obtain ⟨θ, hθ, hba⟩ := instanceOf_iff.1 h
  obtain ⟨θ', hθ', hcb⟩ := instanceOf_iff.1 h'
  refine instanceOf_of_assign (θ := fun v => (θ' v).assign θ) hapart (fun v hv => ?_) ?_
  · calc ((θ' v).assign θ).anon
        _ = ((Ty.var v none).assign θ).anon := Ty.anon_assign_congr (hθ' v (.inl hv))
        _ = .var v none := hθ v (.inl hv)
  · calc (c.assign fun v => (θ' v).assign θ).anon
        _ = ((c.assign θ').assign θ).anon := by rw [assign_assign]
        _ = (b.assign θ).anon := anon_assign_congr hcb
        _ = a.anon := hba

/-- The variables of two capabilities that are not frozen. -/
def unfrozen (frozen : VarSet) (c d : Capability) : Finset VarId :=
  ((c.vars ++ d.vars).filter fun v => decide (v ∉ frozen)).toFinset

theorem mem_unfrozen {v : VarId} :
    v ∈ unfrozen frozen a b ↔ (v ∈ a.vars ∨ v ∈ b.vars) ∧ v ∉ frozen := by
  simp [unfrozen, or_and_right]

/-- There and back again nothing has changed: a variable goes to a variable, and comes back from it. -/
theorem exists_image {θ θ' : VarId → Ty} (hba : (b.assign θ).anon = a.anon)
    (hab : (a.assign θ').anon = b.anon) {v : VarId} (hv : v ∈ b.vars) :
    ∃ w ∈ a.vars, (θ v).anon = .var w none ∧ (θ' w).anon = .var v none := by
  have hround : (b.assign fun v => (θ v).assign θ').anon = (b.assign fun v => .var v none).anon :=
    calc (b.assign fun v => (θ v).assign θ').anon
      _ = ((b.assign θ).assign θ').anon := by rw [assign_assign]
      _ = (a.assign θ').anon := anon_assign_congr hba
      _ = b.anon := hab
      _ = (b.assign fun v => .var v none).anon := (anon_assign_of_fixed fun _ _ => rfl).symm
  have hreturn := anon_eq_of_assign hround v hv
  cases hθv : θ v with
  | var w n =>
    rw [hθv] at hreturn
    refine ⟨w, ?_, rfl, hreturn⟩
    rw [← vars_eq_of_anon hba]
    refine mem_vars_assign hv ?_
    rw [hθv, Ty.vars_var, List.mem_singleton]
  | app f args =>
    rw [hθv, Ty.assign_app, Ty.anon_app] at hreturn
    cases hreturn

/-- **Patterns that match each other differ by a renaming** of the variables that are not frozen. -/
theorem exists_renaming_of_mutual (h : a.instanceOf b frozen = true) (h' : b.instanceOf a frozen = true) :
    ∃ π : Renaming, (∀ v ∈ frozen, π v = v) ∧ (b.mapVars π == a) = true := by
  obtain ⟨θ, hθ, hba⟩ := instanceOf_iff.1 h
  obtain ⟨θ', hθ', hab⟩ := instanceOf_iff.1 h'
  choose! image hmem himage hreturn using fun v (hv : v ∈ b.vars) => exists_image hba hab hv
  have hkeep : ∀ v ∈ b.vars, image v ∈ frozen → image v = v := by
    intro v hv hf
    have hfixed := (hθ' _ (.inl hf)).symm.trans (hreturn v hv)
    injection hfixed
  -- the images are found among the variables that may be moved, and are different
  have hmaps : ∀ v ∈ unfrozen frozen a b, v ∈ b.vars → image v ∈ unfrozen frozen a b := by
    intro v hv hb
    refine mem_unfrozen.2 ⟨.inl (hmem v hb), fun hf => ?_⟩
    exact (mem_unfrozen.1 hv).2 (hkeep v hb hf ▸ hf)
  have hinj : ∀ v ∈ unfrozen frozen a b, v ∈ b.vars → ∀ w ∈ unfrozen frozen a b, w ∈ b.vars →
      image v = image w → v = w := by
    intro v _ hv w _ hw heq
    have hsame := (hreturn v hv).symm.trans (heq ▸ hreturn w hw)
    injection hsame
  obtain ⟨π, hπ, hfixed⟩ := Subst.exists_renaming_of_injOn hmaps hinj
  have hfrozen : ∀ v ∈ frozen, π v = v := fun v hv => hfixed v fun hm => (mem_unfrozen.1 hm).2 hv
  refine ⟨π, hfrozen, beq_iff.2 (Eq.trans ?_ hba)⟩
  refine anon_map_congr rfl fun v hv n m => ?_
  rw [Ty.anon_var, himage v hv]
  by_cases hf : v ∈ frozen
  · have hv_fixed := (hθ v (.inl hf)).symm.trans (himage v hv)
    injection hv_fixed with hv_fixed
    rw [hfrozen v hf, ← hv_fixed]
  · rw [hπ v (mem_unfrozen.2 ⟨.inr hv, hf⟩) hv]

/-- A renaming is a match, between patterns that are apart. -/
theorem instanceOf_of_renaming (hapart : ApartFrom frozen a b) {π : Renaming}
    (hπ : ∀ v ∈ frozen, π v = v) (h : (b.mapVars π == a) = true) : a.instanceOf b frozen = true := by
  refine instanceOf_of_assign (θ := fun v => .var (π v) none) hapart (fun v hv => ?_) ?_
  · rw [Ty.anon_var, hπ v hv]
  · have hmap : (b.assign fun v => .var (π v) none).anon = (b.mapVars π).anon :=
      anon_map_congr rfl fun _ _ _ _ => rfl
    exact hmap.trans (beq_iff.1 h)

/-- **Matching is exact, and orders patterns**, whatever is frozen. -/
theorem instanceOf_exact (frozen : VarSet) :
    -- it decides whether the one is the other with variables replaced, as an assignment does it
    (∀ specific general : Capability, specific.instanceOf general frozen = true ↔
      ∃ θ : VarId → Ty, (∀ v, v ∈ frozen ∨ v ∈ specific.vars → (θ v == .var v none) = true) ∧
        (general.assign θ == specific) = true) ∧
    -- or as a substitution does
    (∀ specific general : Capability, specific.instanceOf general frozen = true →
      ∃ s : Subst, s.Acyclic ∧ Movable frozen specific s ∧ (s.applyTo general == specific) = true) ∧
    (∀ (specific general : Capability) (s : Subst), Movable frozen specific s →
      (s.applyTo general == specific) = true → specific.instanceOf general frozen = true) ∧
    -- it is an order, up to renaming, on patterns that are apart
    (∀ a : Capability, a.instanceOf a frozen = true) ∧
    (∀ a b c : Capability, ApartFrom frozen a c → a.instanceOf b frozen = true →
      b.instanceOf c frozen = true → a.instanceOf c frozen = true) ∧
    (∀ a b : Capability, a.instanceOf b frozen = true → b.instanceOf a frozen = true →
      ∃ π : Renaming, (∀ v ∈ frozen, π v = v) ∧ (b.mapVars π == a) = true) ∧
    ∀ a b : Capability, ApartFrom frozen a b → ∀ π : Renaming, (∀ v ∈ frozen, π v = v) →
      (b.mapVars π == a) = true → a.instanceOf b frozen = true := by
  refine ⟨fun specific general => ?_, fun _ _ => exists_subst_of_instanceOf, fun _ _ _ => instanceOf_of_subst,
    instanceOf_refl frozen, fun _ _ _ => instanceOf_trans, fun _ _ => exists_renaming_of_mutual,
    fun _ _ hapart _ => instanceOf_of_renaming hapart⟩
  simp only [Ty.beq_iff, beq_iff]
  exact instanceOf_iff

/-- The ends of a chain of matches have to be apart: `List<?1>` is covered by `?2`, and `?2` by `?1`. -/
example :
    let c (t : Ty) : Capability := ⟨"C", [t]⟩
    (c (.con "List" [.var 1 none])).instanceOf (c (.var 2 none)) .empty = true ∧
      (c (.var 2 none)).instanceOf (c (.var 1 none)) .empty = true ∧
      (c (.con "List" [.var 1 none])).instanceOf (c (.var 1 none)) .empty = false := by
  decide +kernel

end Capability

end InstanceSearch
