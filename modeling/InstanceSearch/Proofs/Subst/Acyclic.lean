/-
  Substitutions without cycles.

  RANKS
    A substitution is ACYCLIC if variables can be ranked so that a binding only ever leads downwards.
    `height` turns any such ranking into one that is bounded by the number of bindings, and this is why
    chains of that length are long enough for `apply` (`follow_stable`).  After that the length is
    never looked at again: `apply_var_of_some` lets one binding be followed at a time, and
    `Acyclic.induction` follows them in an order that ends.

  WHAT FOLLOWS
    * `not_bound_of_mem_apply`  the result of `apply` mentions no bound variable;
    * `apply_apply_of_extends`  a substitution that keeps all bindings also sees through those that
                                were applied before.
-/
import InstanceSearch.Subst

namespace InstanceSearch

namespace Subst

/-! ## Ranks -/

/-- `Ranked s rank`: what a variable is bound to mentions variables of lower rank only. -/
def Ranked (s : Subst) (rank : VarId → Nat) : Prop :=
  ∀ v t, s.find? v = some t → ∀ w ∈ t.vars, rank w < rank v

/-- Ranks are checked entry by entry. -/
theorem ranked_iff {s : Subst} {rank : VarId → Nat} :
    Ranked s rank ↔ ∀ e ∈ s.entries, ∀ w ∈ e.2.vars, rank w < rank e.1 :=
  OrderedMap.forall_find?_iff (m := s) (P := fun v t => ∀ w ∈ t.vars, rank w < rank v)

instance (s : Subst) (rank : VarId → Nat) : Decidable (Ranked s rank) :=
  decidable_of_iff _ ranked_iff.symm

/-- No chain of bindings comes back to a variable that it passed. -/
def Acyclic (s : Subst) : Prop := ∃ rank, Ranked s rank

/-- `s.height rank v` = the number of bound variables that rank no higher than `v`. -/
def height (s : Subst) (rank : VarId → Nat) (v : VarId) : Nat :=
  (s.keys.filter fun k => decide (rank k ≤ rank v)).length

theorem height_le_size (s : Subst) (rank : VarId → Nat) (v : VarId) : s.height rank v ≤ s.size := by
  have h := List.length_filter_le (fun k => decide (rank k ≤ rank v)) s.keys
  rwa [OrderedMap.length_keys] at h

/-- A bound variable counts itself. -/
theorem height_pos {s : Subst} {v : VarId} (rank : VarId → Nat) (h : v ∈ s.keys) :
    0 < s.height rank v := by
  apply List.length_pos_of_mem (a := v)
  rw [List.mem_filter]
  exact ⟨h, by simp⟩

/-- Below a bound variable there are fewer bound variables. -/
theorem height_lt {s : Subst} {rank : VarId → Nat} {v w : VarId} (hv : v ∈ s.keys)
    (h : rank w < rank v) : s.height rank w < s.height rank v := by
  have hsub : s.keys.filter (fun k => decide (rank k ≤ rank w)) =
      (s.keys.filter fun k => decide (rank k ≤ rank v)).filter fun k => decide (rank k ≤ rank w) := by
    rw [List.filter_filter]
    apply List.filter_congr
    intro k _
    by_cases hk : rank k ≤ rank w
    · simp [hk, show rank k ≤ rank v by omega]
    · simp [hk]
  unfold height
  rw [hsub, List.length_filter_lt_length_iff_exists]
  refine ⟨v, ?_, ?_⟩
  · rw [List.mem_filter]
    exact ⟨hv, by simp⟩
  · simp only [decide_eq_true_eq]
    omega

theorem mem_keys_of_find? {s : Subst} {v : VarId} {t : Ty} (h : s.find? v = some t) :
    v ∈ s.keys := by
  have hm := OrderedMap.find?_eq_some_iff.1 h
  exact List.mem_map_of_mem (f := Prod.fst) hm

theorem Ranked.height {s : Subst} {rank : VarId → Nat} (h : Ranked s rank) :
    Ranked s (s.height rank) := by
  intro v t hv w hw
  exact height_lt (mem_keys_of_find? hv) (h v t hv w hw)

/-! ## Chains are no longer than the substitution -/

/-- Where no bound variable ranks above `n`, chains of `n` bindings are as good as longer ones. -/
theorem follow_stable {s : Subst} {rank : VarId → Nat} (h : Ranked s rank)
    (hpos : ∀ v ∈ s.keys, 0 < rank v) (n : Nat) (t : Ty)
    (ht : ∀ v ∈ t.vars, v ∈ s.keys → rank v ≤ n) : s.follow (n + 1) t = s.follow n t := by
  induction n generalizing t with
  | zero =>
    show s.follow (0 + 1) t = t
    rw [follow]
    refine (Ty.replaceVars_congr ?_).trans (Ty.replaceVars_id t)
    intro v hv name
    cases hf : s.find? v with
    | none => rfl
    | some u =>
      have hk := mem_keys_of_find? hf
      have := hpos v hk
      have := ht v hv hk
      omega
  | succ n ih =>
    rw [follow, follow]
    apply Ty.replaceVars_congr
    intro v hv name
    cases hf : s.find? v with
    | none => rfl
    | some u =>
      -- a chain that goes on from `u` starts below the rank of `v`
      apply ih
      intro w hw _
      have := h v u hf w hw
      have := ht v hv (mem_keys_of_find? hf)
      omega

/-- In an acyclic substitution one more binding than `apply` follows changes nothing. -/
theorem Acyclic.follow_succ {s : Subst} (h : s.Acyclic) (t : Ty) :
    s.follow (s.size + 1) t = s.apply t := by
  obtain ⟨rank, hr⟩ := h
  apply follow_stable hr.height
  · intro v hv
    exact height_pos rank hv
  · intro v _ _
    exact height_le_size s rank v

/-! ## Following one binding at a time -/

/-- `s.value v name` = what the variable `v` finally stands for. -/
def value (s : Subst) (v : VarId) (name : Option String) : Ty :=
  match s.find? v with
  | some u => s.apply u
  | none => .var v name

theorem value_of_none {s : Subst} {v : VarId} (h : s.find? v = none) (name : Option String) :
    s.value v name = .var v name := by
  simp [value, h]

theorem value_of_some {s : Subst} {v : VarId} {u : Ty} (h : s.find? v = some u)
    (name : Option String) : s.value v name = s.apply u := by
  simp [value, h]

/-- **Applying an acyclic substitution is replacing every variable by its value.** -/
theorem Acyclic.apply_eq {s : Subst} (h : s.Acyclic) (t : Ty) : s.apply t = t.replaceVars s.value := by
  rw [← h.follow_succ, follow]
  rfl

theorem Acyclic.apply_var {s : Subst} (h : s.Acyclic) (v : VarId) (name : Option String) :
    s.apply (.var v name) = s.value v name := by
  rw [h.apply_eq, Ty.replaceVars_var]

/-- A bound variable stands for whatever its binding stands for. -/
theorem Acyclic.apply_var_of_some {s : Subst} (h : s.Acyclic) {v : VarId} {u : Ty}
    (hv : s.find? v = some u) (name : Option String) : s.apply (.var v name) = s.apply u := by
  rw [h.apply_var, value_of_some hv]

/-- **Induction along bindings**: a property holds of all variables if it holds of those that are not
    bound, and of a bound one whenever it holds of the variables of its binding. -/
theorem Acyclic.induction {s : Subst} (h : s.Acyclic) {P : VarId → Prop}
    (free : ∀ v, s.find? v = none → P v)
    (bound : ∀ v u, s.find? v = some u → (∀ w ∈ u.vars, P w) → P v) (v : VarId) : P v := by
  obtain ⟨rank, hr⟩ := h
  have hall : ∀ n v, rank v < n → P v := by
    intro n
    induction n with
    | zero => intro v hv; omega
    | succ n ih =>
      intro v hv
      cases hf : s.find? v with
      | none => exact free v hf
      | some u =>
        apply bound v u hf
        intro w hw
        have := hr v u hf w hw
        exact ih w (by omega)
  exact hall (rank v + 1) v (by omega)

/-! ## Normal forms -/

/-- A type without bound variables stays as it is. -/
theorem apply_of_free {s : Subst} {t : Ty} (h : ∀ v ∈ t.vars, s.find? v = none) : s.apply t = t := by
  have hfix : ∀ (n : Nat), s.follow n t = t := by
    intro n
    cases n with
    | zero => rfl
    | succ n =>
      rw [follow]
      refine (Ty.replaceVars_congr ?_).trans (Ty.replaceVars_id t)
      intro v hv name
      rw [h v hv]
  exact hfix s.size

/-- **What `apply` gives mentions no bound variable.** -/
theorem Acyclic.not_bound_of_mem_apply {s : Subst} (h : s.Acyclic) {t : Ty} {w : VarId}
    (hw : w ∈ (s.apply t).vars) : s.find? w = none := by
  have hvar : ∀ v, ∀ name, w ∈ (s.value v name).vars → s.find? w = none := by
    intro v
    induction v using h.induction with
    | free v hf =>
      intro name hm
      rw [value_of_none hf, Ty.vars_var, List.mem_singleton] at hm
      rw [hm, hf]
    | bound v u hf ih =>
      intro name hm
      rw [value_of_some hf, h.apply_eq] at hm
      obtain ⟨x, hx, n, hxw⟩ := Ty.vars_replaceVars hm
      exact ih x hx n hxw
  rw [h.apply_eq] at hw
  obtain ⟨v, _, n, hv⟩ := Ty.vars_replaceVars hw
  exact hvar v n hv

/-- Applying twice is applying once. -/
theorem Acyclic.apply_apply {s : Subst} (h : s.Acyclic) (t : Ty) : s.apply (s.apply t) = s.apply t := by
  apply apply_of_free
  intro v hv
  exact h.not_bound_of_mem_apply hv

/-- **A variable is unresolved exactly if it is not bound.** -/
theorem Acyclic.isUnresolved_iff {s : Subst} (h : s.Acyclic) {v : VarId} :
    s.isUnresolved v = true ↔ s.find? v = none := by
  constructor
  · intro hself
    rw [isUnresolved, beq_iff_eq, Ty.asVar?_eq_some_iff] at hself
    -- the variable stands in a result, where nothing is bound
    obtain ⟨name, hname⟩ := hself
    apply h.not_bound_of_mem_apply (t := .var v none)
    rw [hname, Ty.vars_var, List.mem_singleton]
  · exact isUnresolved_of_none

/-! ## Keeping what is bound -/

/-- `s'.Extends s`: every binding of `s` is one of `s'`. -/
def Extends (s' s : Subst) : Prop := ∀ v t, s.find? v = some t → s'.find? v = some t

theorem Extends.refl (s : Subst) : s.Extends s := fun _ _ h => h

theorem Extends.trans {s s' s'' : Subst} (h : s'.Extends s) (h' : s''.Extends s') : s''.Extends s :=
  fun v t hv => h' v t (h v t hv)

/-- **Later bindings respect earlier ones**: what was applied before makes no difference. -/
theorem Acyclic.apply_apply_of_extends {s s' : Subst} (h : s.Acyclic) (h' : s'.Acyclic)
    (he : s'.Extends s) (t : Ty) : s'.apply (s.apply t) = s'.apply t := by
  have hvar : ∀ v, ∀ name, (s.value v name).replaceVars s'.value = s'.value v name := by
    intro v
    induction v using h.induction with
    | free v hf =>
      intro name
      rw [value_of_none hf, Ty.replaceVars_var]
    | bound v u hf ih =>
      intro name
      rw [value_of_some hf, value_of_some (he v u hf), h.apply_eq, h'.apply_eq,
        Ty.replaceVars_replaceVars]
      apply Ty.replaceVars_congr
      intro w hw n
      exact ih w hw n
  rw [h.apply_eq, h'.apply_eq, h'.apply_eq, Ty.replaceVars_replaceVars]
  apply Ty.replaceVars_congr
  intro v _ n
  exact hvar v n

/-! ## One more binding -/

/-- A new variable may be bound to a type that mentions neither it nor any bound variable. -/
theorem Acyclic.insert {s : Subst} (h : s.Acyclic) {v : VarId} {t : Ty} (hv : s.find? v = none)
    (ht : ∀ w ∈ t.vars, s.find? w = none) (hvt : v ∉ t.vars) : Acyclic (s.insert v t) := by
  obtain ⟨rank, hr⟩ := h
  -- the old bindings move up by two, the new one stands on 1, everything else on 0
  refine ⟨fun w => if w ∈ s.keys then rank w + 2 else if w = v then 1 else 0, ?_⟩
  intro x u hx w hw
  rw [OrderedMap.find?_insert] at hx
  split at hx
  · rename_i hxv
    injection hx with hx
    subst hxv hx
    have hw' : w ∉ s.keys := OrderedMap.find?_eq_none_iff.1 (ht w hw)
    have hx' : x ∉ s.keys := OrderedMap.find?_eq_none_iff.1 hv
    have hne : w ≠ x := fun he => hvt (he ▸ hw)
    simp [hw', hx', hne]
  · have hlt := hr x u hx w hw
    have hx' : x ∈ s.keys := mem_keys_of_find? hx
    simp only [hx', if_true]
    split
    · omega
    · split <;> omega

theorem acyclic_empty : Acyclic OrderedMap.empty := ⟨fun _ => 0, fun _ _ h => nomatch h⟩

end Subst

end InstanceSearch
