/-
  A catalog without names.

  INHERITANCE sees the numbers of variables only, so a nameless catalog relates nameless capabilities as
  the catalog itself does (`nameless_relabels`).

  WHAT CAN BE SEEN from a scope are the same instances and parameters, nameless (`searchAt_nameless`).
  Scopes and instances are found by their numbers, and whether an instance may be used from somewhere
  depends on where it is declared and whether it is private.
-/
import InstanceSearch.Proofs.Nameless.Records
import InstanceSearch.Proofs.Catalog.Visible
import InstanceSearch.Proofs.Renaming.Catalog

namespace InstanceSearch

/-- A map on values does not change which candidates are the first of their keys. -/
theorem CandidateSet.ofList_nameless (cs : List Candidate) :
    CandidateSet.ofList (cs.map Candidate.nameless) =
      (CandidateSet.ofList cs).mapValues Candidate.nameless := by
  have hadd : ∀ (s : CandidateSet) (c : Candidate),
      CandidateSet.add (s.mapValues Candidate.nameless) c.nameless =
        (CandidateSet.add s c).mapValues Candidate.nameless := by
    intro s c
    apply OrderedMap.ext_entries
    show _ = (CandidateSet.add s c).entries.map fun e => (e.1, e.2.nameless)
    rw [CandidateSet.entries_add, CandidateSet.entries_add, OrderedMap.keys_mapValues,
      Candidate.key_nameless]
    split
    · rfl
    · rw [List.map_append]
      rfl
  unfold CandidateSet.ofList
  rw [List.foldl_map]
  change List.foldl _ (OrderedMap.mapValues Candidate.nameless OrderedMap.empty) cs = _
  refine List.foldl_hom (OrderedMap.mapValues Candidate.nameless) ?_
  exact hadd

namespace Catalog

variable (cat : Catalog)

/-! ## Inheritance -/

/-- **A nameless catalog is a relabelled one.** -/
theorem nameless_relabels : cat.Relabels (Equiv.refl VarId) (fun _ => some "") cat.nameless where
  concepts := by
    refine List.forall₂_map_right_iff.2 (List.forall₂_same.2 fun d _ => ⟨rfl, ?_, rfl⟩)
    show (d.params.map Param.nameless).map Param.id = (d.params.map Param.id).map id
    rw [List.map_id, List.map_map]
    rfl
  hierarchy := rfl

theorem expand_nameless (cs : List Capability) :
    cat.nameless.expand (cs.map Capability.nameless) = (cat.expand cs).map Capability.nameless :=
  cat.nameless_relabels.expand cs

theorem minimize_nameless (cs : List Capability) :
    cat.nameless.minimize (cs.map Capability.nameless) =
      (cat.minimize cs).map Capability.nameless :=
  cat.nameless_relabels.minimize cs

/-! ## Scopes and instances -/

theorem getInstance_nameless (id : InstanceId) :
    cat.nameless.getInstance id = (cat.getInstance id).map Instance.nameless := by
  unfold getInstance nameless
  rw [List.getElem?_map]
  cases cat.instances[id]? <;> rfl

theorem boundParams_nameless (s : Scope) :
    boundParams s.nameless = (boundParams s).map Param.nameless := by
  unfold boundParams
  show (if s.kind.isGeneric then s.params.map Param.nameless else []) = _
  split <;> rfl

/-! ## What can be seen -/

section Visible

variable {accessible : Accessibility} (h : ∀ i site, accessible i.nameless site = accessible i site)
include h

theorem accessibleIn_nameless (site : List ScopeId) (id : ScopeId) :
    cat.nameless.accessibleIn accessible site id =
      (cat.accessibleIn accessible site id).map (List.map Candidate.nameless) := by
  unfold accessibleIn
  have hscopes : cat.nameless.scopes = cat.scopes.map Scope.nameless := rfl
  rw [getScope_map hscopes]
  cases cat.getScope id with
  | error e => rfl
  | ok place =>
    show (place.instances.mapM cat.nameless.getInstance >>= _) =
      Except.map _ (place.instances.mapM cat.getInstance >>= _)
    rw [mapM_map_ok cat.getInstance_nameless]
    cases place.instances.mapM cat.getInstance with
    | error e => rfl
    | ok insts =>
      refine congrArg Except.ok ?_
      rw [List.filter_map, List.map_map, List.map_map]
      refine congrArg (List.map _) (List.filter_congr fun i _ => ?_)
      rw [Function.comp_apply, h]
      rfl

/-- **A nameless catalog shows the same**, nameless. -/
theorem nameless_shows :
    cat.Shows cat.nameless accessible Scope.nameless (List.map Candidate.nameless) where
  scopes := rfl
  parent _ := rfl
  imports _ := rfl
  frozen s := by
    rw [boundParams_nameless, List.map_map]
    rfl
  ambient s := by
    have hwitness : Param.isWitness ∘ Param.nameless = Param.isWitness :=
      funext Param.isWitness_nameless
    rw [boundParams_nameless, List.filter_map, hwitness, List.map_map, List.map_map]
    rfl
  declared := cat.accessibleIn_nameless h
  nil := rfl
  append _ _ := List.map_append

end Visible

/-- **The search that a site gets in a nameless catalog** is the one that it gets, nameless. -/
theorem searchAt_nameless (config : Config) (scope : ScopeId) :
    cat.nameless.searchAt config scope = (cat.searchAt config scope).map Search.nameless := by
  unfold searchAt
  have hshows : cat.Shows cat.nameless .byVisibility Scope.nameless (List.map Candidate.nameless) :=
    cat.nameless_shows fun _ _ => rfl
  rw [hshows.visible CandidateSet.ofList_nameless, hshows.frozenAt]
  cases cat.visible .byVisibility scope with
  | error e => rfl
  | ok candidates => cases cat.frozenAt scope <;> rfl

end Catalog

end InstanceSearch
