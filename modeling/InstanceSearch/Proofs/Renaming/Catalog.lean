/-
  Inheritance does not see the variables of a query.

  A catalog has variables of its own, those of the parameters of its concepts and of what they are
  declared with, all below its watermark.  A renaming that fixes the variables of the concepts
  (`Unmoved`), such as one that fixes all variables below the watermark, renames what a capability
  inherits, and leaves every answer of `implies` as it is.

  TWO CATALOGS
    The lemmas are proved for two catalogs whose concepts differ by a relabelling (`Relabels`), which is
    no more than what the two lists of parents need.  One catalog and a renaming that leaves it unmoved
    is the case in which the two are the same.

  No assumption is made on how concepts share variables.  A concept's parents are put together by
  applying a substitution, and applying a substitution goes along with any renaming.
-/
import Mathlib.Data.List.Forall2
import InstanceSearch.Proofs.Renaming.Unify
import InstanceSearch.Catalog.Inheritance
import InstanceSearch.Proofs.Catalog.Declared

namespace InstanceSearch

variable {π : Renaming} {φ : Option String → Option String}

/-! ## Parents -/

/-- `d.Relabels π φ d'`: the concept `d'` is written as `d` is, with the variables of its parameters
    renamed and its parents relabelled. -/
structure Concept.Relabels (π : Renaming) (φ : Option String → Option String) (d d' : Concept) :
    Prop where
  name : d'.name = d.name
  params : d'.params.map Param.id = (d.params.map Param.id).map π
  parents : d'.parents = d.parents.map (Capability.relabel π φ)

/-- The parents of a relabelled concept at relabelled arguments are the relabelled parents. -/
theorem Concept.Relabels.parentsAt {d d' : Concept} (h : d.Relabels π φ d') (args : List Ty) :
    d'.parentsAt (args.map (Ty.relabel π φ)) = (d.parentsAt args).map (Capability.relabel π φ) := by
  have hentries : ((d.params.map Param.id).map π).zip (args.map (Ty.relabel π φ)) =
      ((d.params.map Param.id).zip args).map (Subst.relabelEntry π φ) := by
    rw [List.zip_map]
    rfl
  unfold Concept.parentsAt
  dsimp only
  rw [h.params, h.parents, hentries, Subst.ofList_relabelEntry, List.map_map, List.map_map]
  exact List.map_congr_left fun c _ => Subst.applyTo_relabel π φ _ c

namespace Catalog

/-! ## Ancestors -/

theorem ancestorsInto_relabel {table table' : List Concept}
    (h : List.Forall₂ (Concept.Relabels π φ) table table') (c : Capability)
    (found : List Capability) :
    ancestorsInto table' (c.relabel π φ) (found.map (Capability.relabel π φ)) =
      (ancestorsInto table c found).map (Capability.relabel π φ) := by
  induction h generalizing c found with
  | nil => rfl
  | @cons d d' older older' hd _ ih =>
    rw [ancestorsInto, ancestorsInto, Capability.concept_relabel, Capability.args_relabel, hd.name]
    split
    · rw [hd.parentsAt]
      -- the fold over the parents: one parent keeps the two lists in step
      have hfold : ∀ (ps found : List Capability),
          (ps.map (Capability.relabel π φ)).foldl
            (fun found p => if found.contains p then found else ancestorsInto older' p (found ++ [p]))
            (found.map (Capability.relabel π φ)) =
          (ps.foldl
            (fun found p => if found.contains p then found else ancestorsInto older p (found ++ [p]))
            found).map (Capability.relabel π φ) := by
        intro ps
        induction ps with
        | nil => exact fun _ => rfl
        | cons p ps ihp =>
          intro found
          rw [List.map_cons, List.foldl_cons, List.foldl_cons, ← ihp]
          congr 1
          rw [FirstSeen.contains_map (Capability.beq_relabel π φ)]
          split
          · rfl
          · rw [← ih, List.map_append, List.map_singleton]
      exact hfold _ found
    · exact ih c found

/-- `cat.Relabels π φ cat'`: concept by concept, `cat'` is `cat` relabelled, and the paths between the
    concepts are the same. -/
structure Relabels (π : Renaming) (φ : Option String → Option String) (cat cat' : Catalog) : Prop where
  concepts : List.Forall₂ (Concept.Relabels π φ) cat.concepts cat'.concepts
  hierarchy : cat'.hierarchy = cat.hierarchy

namespace Relabels

variable {cat cat' : Catalog} (h : cat.Relabels π φ cat')
include h

theorem ancestors (c : Capability) :
    cat'.ancestors (c.relabel π φ) = (cat.ancestors c).map (Capability.relabel π φ) :=
  ancestorsInto_relabel h.concepts c []

/-- **Relabelling changes nothing about which capability implies which.** -/
theorem implies (c d : Capability) :
    cat'.implies (c.relabel π φ) (d.relabel π φ) = cat.implies c d := by
  unfold Catalog.implies
  rw [h.ancestors, FirstSeen.contains_map (Capability.beq_relabel π φ), h.hierarchy]
  rfl

/-- What a relabelled list of capabilities brings along is relabelled. -/
theorem expand (cs : List Capability) :
    cat'.expand (cs.map (Capability.relabel π φ)) =
      (cat.expand cs).map (Capability.relabel π φ) := by
  unfold Catalog.expand
  rw [← FirstSeen.ofList_map (Capability.beq_relabel π φ), List.map_flatMap, List.flatMap_map]
  simp only [List.map_cons, h.ancestors]

theorem minimize (cs : List Capability) :
    cat'.minimize (cs.map (Capability.relabel π φ)) =
      (cat.minimize cs).map (Capability.relabel π φ) := by
  unfold Catalog.minimize
  dsimp only
  rw [FirstSeen.ofList_map (Capability.beq_relabel π φ), List.filter_map]
  congr 1
  refine List.filter_congr fun c _ => ?_
  simp only [Function.comp_apply, List.any_map, h.implies, bne, Capability.beq_relabel,
    Function.comp_def]

end Relabels

/-! ## One catalog -/

variable {cat : Catalog}

/-- The renaming fixes the variables that the concepts are written with. -/
def Unmoved (cat : Catalog) (π : Renaming) : Prop :=
  ∀ d ∈ cat.concepts, ∀ v ∈ d.params.map Param.id ++ d.parents.flatMap Capability.vars, π v = v

/-- The variables that a concept is written with are below the watermark. -/
theorem Regular.written_below (hreg : Regular cat) : ∀ d ∈ cat.concepts,
    ∀ v ∈ d.params.map Param.id ++ d.parents.flatMap Capability.vars, v < cat.nextVar := by
  intro d hd v hv
  refine hreg.conceptVars d hd v ?_
  rcases List.mem_append.1 hv with hv | hv
  · obtain ⟨p, hp, rfl⟩ := List.mem_map.1 hv
    exact List.mem_append.2 (Or.inl (List.mem_flatMap.2 ⟨p, hp, List.mem_cons_self⟩))
  · exact List.mem_append.2 (Or.inr hv)

theorem Regular.unmoved (hreg : Regular cat) (hπ : ∀ v < cat.nextVar, π v = v) : cat.Unmoved π :=
  fun d hd v hv => hπ v (hreg.written_below d hd v hv)

variable (hπ : cat.Unmoved π)
include hπ

/-- A catalog that is not moved is its own renaming. -/
theorem Unmoved.relabels : cat.Relabels π id cat where
  concepts := by
    refine List.forall₂_same.2 fun d hd => ⟨rfl, ?_, ?_⟩
    · rw [List.map_map]
      exact List.map_congr_left fun p hp =>
        (hπ d hd p.id (List.mem_append.2 (Or.inl (List.mem_map_of_mem hp)))).symm
    · refine (List.map_id' d.parents).symm.trans (List.map_congr_left fun c hc => ?_)
      refine (Capability.mapVars_of_fixed fun v hv => hπ d hd v ?_).symm
      exact List.mem_append.2 (Or.inr (List.mem_flatMap.2 ⟨c, hc, hv⟩))
  hierarchy := rfl

/-- What a renamed list of capabilities brings along is renamed. -/
theorem expand_mapVars (cs : List Capability) :
    cat.expand (cs.map (Capability.mapVars π)) = (cat.expand cs).map (Capability.mapVars π) :=
  hπ.relabels.expand cs

theorem minimize_mapVars (cs : List Capability) :
    cat.minimize (cs.map (Capability.mapVars π)) = (cat.minimize cs).map (Capability.mapVars π) :=
  hπ.relabels.minimize cs

end Catalog

end InstanceSearch
