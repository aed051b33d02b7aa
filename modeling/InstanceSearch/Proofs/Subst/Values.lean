/-
  What results of substitution look like.

  Two types that are equal up to labels stay so when equal things are put for their variables
  (`anon_replaceVars_congr`, `anon_apply_congr`).  And a result mentions nothing but what the type and
  the bindings mentioned (`mem_vars_apply`), so that a set of variables which holds both holds the
  result as well.
-/
import InstanceSearch.Proofs.Subst.Acyclic

namespace InstanceSearch

/-! ## Equality without labels -/

/-- Lists that agree member by member under `f` agree under any `g` and `h` that `f` decides. -/
theorem map_eq_map_of_map_eq {α β γ : Type} {f : α → β} {g h : α → γ} {as bs : List α}
    (hab : as.map f = bs.map f) (hgh : ∀ a ∈ as, ∀ b, f a = f b → g a = h b) :
    as.map g = bs.map h := by
  induction as generalizing bs with
  | nil =>
    cases bs with
    | nil => rfl
    | cons b bs => cases hab
  | cons a as ih =>
    cases bs with
    | nil => cases hab
    | cons b bs =>
      rw [List.map_cons, List.map_cons, List.cons.injEq] at hab
      rw [List.map_cons, List.map_cons, hgh a (by simp) b hab.1,
        ih hab.2 fun x hx => hgh x (by simp [hx])]

/-- Equal things in the place of the variables of equal types give equal types. -/
theorem Ty.anon_replaceVars_congr {f g : VarId → Option String → Ty} {a b : Ty}
    (hab : a.anon = b.anon) (hfg : ∀ v ∈ a.vars, ∀ n m, (f v n).anon = (g v m).anon) :
    (a.replaceVars f).anon = (b.replaceVars g).anon := by
  induction a using Ty.induction generalizing b with
  | var v n =>
    cases b with
    | var w m =>
      rw [anon_var, anon_var, Ty.var.injEq] at hab
      rw [replaceVars_var, replaceVars_var, ← hab.1]
      exact hfg v (by simp) n m
    | app k bs => cases hab
  | app k as ih =>
    cases b with
    | var w m => cases hab
    | app l bs =>
      rw [anon_app, anon_app, Ty.app.injEq] at hab
      rw [replaceVars_app, replaceVars_app, anon_app, anon_app, hab.1, List.map_map, List.map_map]
      congr 1
      apply map_eq_map_of_map_eq hab.2
      intro t ht u htu
      apply ih t ht htu
      intro v hv
      exact hfg v (vars_app k as ▸ List.mem_flatMap.2 ⟨t, ht, hv⟩)

namespace Capability

/-- Capabilities are equal if their concepts and their arguments are. -/
theorem anon_eq_iff {c d : Capability} :
    c.anon = d.anon ↔ c.concept = d.concept ∧ c.args.map Ty.anon = d.args.map Ty.anon := by
  simp [anon]

/-- Equal capabilities have the same variables. -/
theorem vars_eq_of_anon {c d : Capability} (h : c.anon = d.anon) : c.vars = d.vars := by
  have hargs := congrArg (List.flatMap Ty.vars) (anon_eq_iff.1 h).2
  rw [List.flatMap_map, List.flatMap_map] at hargs
  simp only [Ty.vars_anon] at hargs
  exact hargs

/-- Equal things in the place of the variables of equal capabilities give equal capabilities. -/
theorem anon_map_congr {f g : VarId → Option String → Ty} {c d : Capability} (h : c.anon = d.anon)
    (hfg : ∀ v ∈ c.vars, ∀ n m, (f v n).anon = (g v m).anon) :
    (c.map (Ty.replaceVars f)).anon = (d.map (Ty.replaceVars g)).anon := by
  rw [anon_eq_iff] at h ⊢
  refine ⟨h.1, ?_⟩
  rw [args_map, args_map, List.map_map, List.map_map]
  apply map_eq_map_of_map_eq h.2
  intro t ht u htu
  apply Ty.anon_replaceVars_congr htu
  intro v hv
  exact hfg v (List.mem_flatMap.2 ⟨t, ht, hv⟩)

end Capability

namespace Subst

/-- What a variable stands for does not depend on the name it is shown by, labels apart. -/
theorem anon_value (s : Subst) (v : VarId) (n m : Option String) :
    (s.value v n).anon = (s.value v m).anon := by
  unfold value
  cases s.find? v <;> rfl

/-- Equal types have equal results. -/
theorem Acyclic.anon_apply_congr {s : Subst} (h : s.Acyclic) {a b : Ty} (hab : a.anon = b.anon) :
    (s.apply a).anon = (s.apply b).anon := by
  rw [h.apply_eq, h.apply_eq]
  apply Ty.anon_replaceVars_congr hab
  intro v _ n m
  exact s.anon_value v n m

/-- Equal capabilities have equal results. -/
theorem Acyclic.anon_applyTo_congr {s : Subst} (h : s.Acyclic) {c d : Capability}
    (hcd : c.anon = d.anon) : (s.applyTo c).anon = (s.applyTo d).anon := by
  rw [Capability.anon_eq_iff] at hcd ⊢
  refine ⟨hcd.1, ?_⟩
  rw [applyTo, applyTo, Capability.args_map, Capability.args_map, List.map_map, List.map_map]
  apply map_eq_map_of_map_eq hcd.2
  intro a _ b hab
  exact h.anon_apply_congr hab

/-- Types that come to the same under a substitution do so under one that extends it. -/
theorem Acyclic.anon_apply_later {s s' : Subst} (h : s.Acyclic) (h' : s'.Acyclic) (hext : s'.Extends s)
    {a b : Ty} (hab : (s.apply a).anon = (s.apply b).anon) : (s'.apply a).anon = (s'.apply b).anon := by
  have hlater := h'.anon_apply_congr hab
  rwa [h.apply_apply_of_extends h' hext, h.apply_apply_of_extends h' hext] at hlater

/-- What was applied to a capability before makes no difference to a later substitution. -/
theorem Acyclic.applyTo_applyTo_of_extends {s s' : Subst} (h : s.Acyclic) (h' : s'.Acyclic)
    (he : s'.Extends s) (c : Capability) : s'.applyTo (s.applyTo c) = s'.applyTo c := by
  unfold applyTo
  rw [Capability.map_map]
  congr 1
  funext t
  exact h.apply_apply_of_extends h' he t

/-! ## The variables of results -/

/-- The value of an entry contributes its variables. -/
theorem mem_vars_of_find? {s : Subst} {v w : VarId} {t : Ty} (h : s.find? v = some t)
    (hw : w ∈ t.vars) : w ∈ s.vars := by
  have hm := OrderedMap.find?_eq_some_iff.1 h
  exact List.mem_flatMap.2 ⟨(v, t), hm, by simp [hw]⟩

/-- Along a chain nothing comes up but what the bindings mention. -/
theorem mem_vars_follow {s : Subst} {w : VarId} (n : Nat) (t : Ty) (h : w ∈ (s.follow n t).vars) :
    w ∈ t.vars ∨ ∃ e ∈ s.entries, w ∈ e.2.vars := by
  induction n generalizing t with
  | zero => exact Or.inl h
  | succ n ih =>
    rw [follow] at h
    obtain ⟨v, hv, name, hw⟩ := Ty.vars_replaceVars h
    split at hw
    · rename_i u hu
      rcases ih u hw with hw | hw
      · exact Or.inr ⟨(v, u), OrderedMap.find?_eq_some_iff.1 hu, hw⟩
      · exact Or.inr hw
    · rw [Ty.vars_var, List.mem_singleton] at hw
      exact Or.inl (hw ▸ hv)

/-- **A result mentions nothing new.** -/
theorem mem_vars_apply {s : Subst} {w : VarId} {t : Ty} (h : w ∈ (s.apply t).vars) :
    w ∈ t.vars ∨ w ∈ s.vars := by
  refine (mem_vars_follow s.size t h).imp_right ?_
  rintro ⟨e, he, hw⟩
  exact List.mem_flatMap.2 ⟨e, he, List.mem_cons_of_mem _ hw⟩

theorem mem_vars_applyTo {s : Subst} {w : VarId} {c : Capability} (h : w ∈ (s.applyTo c).vars) :
    w ∈ c.vars ∨ w ∈ s.vars := by
  simp only [Capability.vars, applyTo, Capability.map, List.mem_flatMap, List.mem_map] at h
  obtain ⟨_, ⟨t, ht, rfl⟩, hw⟩ := h
  rcases mem_vars_apply hw with hw | hw
  · exact Or.inl (List.mem_flatMap.2 ⟨t, ht, hw⟩)
  · exact Or.inr hw

/-- The values of a capability's variables make up its result. -/
theorem Acyclic.not_bound_of_mem_applyTo {s : Subst} (h : s.Acyclic) {c : Capability} {w : VarId}
    (hw : w ∈ (s.applyTo c).vars) : s.find? w = none := by
  simp only [Capability.vars, applyTo, Capability.map, List.mem_flatMap, List.mem_map] at hw
  obtain ⟨_, ⟨t, _, rfl⟩, hw⟩ := hw
  exact h.not_bound_of_mem_apply hw

end Subst

end InstanceSearch
