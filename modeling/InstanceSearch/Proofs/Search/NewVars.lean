/-
  An instance at new variables.

  `newVars params n` sends the parameters to `n`, `n + 1`, …, in order.  Where the parameters differ and
  lie below `n`, the substitution is flat, and `rename` gives each parameter its own new variable
  (`rename_asTy`).  So the renamed parameters differ again (`nodup_renamed`), which is what lets an
  argument be traced back to the parameter that it is for (`type_at_arguments`, `witness_at_arguments`).
-/
import InstanceSearch.Proofs.Search.Growth
import InstanceSearch.Proofs.Subst.Flat

namespace InstanceSearch

/-! ## The renaming -/

section NewVars

variable {params : List Param} {n : VarId}

/-- The renaming as a list of entries. -/
theorem newVars_keys (params : List Param) (n : VarId) :
    ((params.zipIdx n).map fun e => (e.1.id, Ty.var e.2 (some e.1.name))).map Prod.fst =
      params.map Param.id := by
  rw [List.map_map]
  show (params.zipIdx n).map (Param.id ∘ Prod.fst) = params.map Param.id
  rw [← List.map_map, List.zipIdx_map_fst]

theorem find?_newVars (hn : (params.map Param.id).Nodup) {p : Param} {k : VarId}
    (h : (p, k) ∈ params.zipIdx n) : (newVars params n).find? p.id = some (.var k (some p.name)) := by
  have hkeys := newVars_keys params n
  rw [newVars, OrderedMap.find?_ofList (by rw [hkeys]; exact hn),
    OrderedMap.lookup_eq_some_iff (by rw [hkeys]; exact hn)]
  exact List.mem_map.2 ⟨(p, k), h, rfl⟩

/-- Only parameters are renamed, and only to new variables. -/
theorem newVars_range {v : VarId} {t : Ty} (h : (newVars params n).find? v = some t) :
    v ∈ params.map Param.id ∧ ∃ k name, n ≤ k ∧ t = .var k name := by
  obtain ⟨⟨p, k⟩, hp, heq⟩ := List.mem_map.1 (OrderedMap.mem_of_find?_ofList h)
  injection heq with hv ht
  have hle := List.le_snd_of_mem_zipIdx hp
  have hmem := List.fst_mem_of_mem_zipIdx hp
  exact ⟨hv ▸ List.mem_map_of_mem hmem, k, _, hle, ht.symm⟩

/-- With parameters below the counter, the renaming is read in one step. -/
theorem newVars_flat (hbelow : ∀ v ∈ params.map Param.id, v < n) : (newVars params n).Flat := by
  intro v t hv w hw
  obtain ⟨_, k, name, hk, rfl⟩ := newVars_range hv
  rw [Ty.vars_var, List.mem_singleton] at hw
  subst hw
  cases hfind : (newVars params n).find? w with
  | none => rfl
  | some u =>
    have hlt := hbelow w (newVars_range hfind).1
    exact absurd hlt (Nat.not_lt.2 hk)

/-- What stands for a variable after renaming: a new one, or itself. -/
theorem pick_newVars (v : VarId) (name : Option String) :
    (v ∉ params.map Param.id → (newVars params n).pick v name = .var v name) ∧
      ∀ w ∈ ((newVars params n).pick v name).vars, w = v ∨ n ≤ w := by
  unfold Subst.pick
  cases hfind : (newVars params n).find? v with
  | none => exact ⟨fun _ => rfl, fun w hw => Or.inl (List.mem_singleton.1 hw)⟩
  | some u =>
    obtain ⟨hv, k, _, hk, rfl⟩ := newVars_range hfind
    refine ⟨fun hnot => absurd hv hnot, fun w hw => Or.inr ?_⟩
    rw [Option.getD_some, Ty.vars_var, List.mem_singleton] at hw
    exact hw ▸ hk

section Renamed

variable (hn : (params.map Param.id).Nodup) (hbelow : ∀ v ∈ params.map Param.id, v < n)
include hn hbelow

theorem rename_id {p : Param} {k : VarId} (h : (p, k) ∈ params.zipIdx n) :
    (p.rename (newVars params n)).id = k := by
  have hflat := newVars_flat hbelow
  unfold Param.rename
  dsimp only
  rw [hflat.apply_eq, Ty.replaceVars_var, Subst.pick, find?_newVars hn h]
  rfl

/-- **A renamed parameter is its new variable.** -/
theorem rename_asTy {p : Param} (hp : p ∈ params) (name : Option String) :
    (p.rename (newVars params n)).asTy = (newVars params n).pick p.id name := by
  obtain ⟨i, hi, hget⟩ := List.mem_iff_getElem.1 hp
  have hmem : (p, n + i) ∈ params.zipIdx n := by
    rw [← hget]
    exact List.mk_add_mem_zipIdx_iff_getElem?.2 (List.getElem?_eq_getElem hi)
  rw [Subst.pick, find?_newVars hn hmem, Param.asTy, rename_id hn hbelow hmem]
  rfl

/-- Renamed parameters differ. -/
theorem nodup_renamed :
    ((params.map fun p => p.rename (newVars params n)).map Param.id).Nodup := by
  have hids : (params.map fun p => p.rename (newVars params n)).map Param.id =
      (params.zipIdx n).map Prod.snd := by
    have hfst : params = (params.zipIdx n).map Prod.fst := (List.zipIdx_map_fst n params).symm
    conv => lhs; rw [List.map_map]; arg 2; rw [hfst]
    rw [List.map_map]
    apply List.map_congr_left
    rintro ⟨p, k⟩ hp
    exact rename_id hn hbelow hp
  rw [hids, List.zipIdx_map_snd]
  exact List.nodup_range'

end Renamed

end NewVars

/-- Using an instance at new variables leaves its witness parameters what they are. -/
theorem isWitness_rename (p : Param) (s : Subst) : (p.rename s).isWitness = p.isWitness := by
  unfold Param.rename Param.isWitness
  cases p.kind <;> rfl

/-- The constraints of a renamed parameter are those of the parameter, renamed. -/
theorem constraints_rename (p : Param) (r : Subst) :
    (p.rename r).constraints = p.constraints.map r.applyTo := by
  unfold Param.rename Param.constraints
  cases p.kind <;> rfl

end InstanceSearch
